import ByteGrammar.Literal.Fault
import ByteGrammar.Number.MachineInt
import ByteGrammar.Text.Characters

/-!
# Integer literals

An optional sign, then digits: hexadecimal after 0x, binary after 0b, else decimal. Gaps may stand
before and after a literal, never inside it.
-/

set_option autoImplicit false

namespace ByteGrammar.Literal

def isGap (c : Char) : Bool := c == ' ' || c == '\t' || c == '\r' || c == '\n'

def skipGaps (cs : List Char) : List Char := cs.dropWhile isGap

def takeDigits (base : Nat) : List Char → List Nat × List Char
  | [] => ([], [])
  | c :: rest =>
    match Text.digitValue? base c with
    | some d => let (ds, tail) := takeDigits base rest; (d :: ds, tail)
    | none => ([], c :: rest)

def digitsValue (base : Nat) (digits : List Nat) : Nat :=
  digits.foldl (fun n d => n * base + d) 0

def digits? (base : Nat) (cs : List Char) : Option (Nat × List Char) :=
  match takeDigits base cs with
  | ([], _) => none
  | (ds, rest) => some (digitsValue base ds, rest)

def marked? : List Char → Option (Nat × List Char)
  | '0' :: c :: rest =>
    if c == 'x' || c == 'X' then digits? 16 rest
    else if c == 'b' || c == 'B' then digits? 2 rest
    else none
  | _ => none

def magnitude? (cs : List Char) : Option (Nat × List Char) :=
  (marked? cs).or (digits? 10 cs)

def integer (absent : LiteralFault) (cs : List Char) :
    Except LiteralFault (Int × List Char) :=
  match cs with
  | '-' :: rest =>
    match magnitude? rest with
    | some (n, tail) => .ok (-(n : Int), tail)
    | none => .error .noDigits
  | '+' :: rest =>
    match magnitude? rest with
    | some (n, tail) => .ok (n, tail)
    | none => .error .noDigits
  | cs =>
    match magnitude? cs with
    | some (n, tail) => .ok (n, tail)
    | none => .error absent

def largestMagnitude : Nat := wordCount 127 - 1

def wholeInteger (absent : LiteralFault) (cs : List Char) : Except LiteralFault Int := do
  let (n, rest) ← integer absent cs
  if (skipGaps rest).isEmpty then
    if n.natAbs ≤ largestMagnitude then .ok n else .error .tooLarge
  else .error .trailing

def parseInteger (text : String) : Except LiteralFault Int :=
  wholeInteger .noInteger (skipGaps text.toList)

end ByteGrammar.Literal
