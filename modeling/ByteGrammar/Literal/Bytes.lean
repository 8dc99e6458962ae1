import ByteGrammar.Literal.Integer

/-!
# Byte literals

Bytes as pairs of hexadecimal digits, with gaps between pairs and an optional 0x before the first.
-/

set_option autoImplicit false

namespace ByteGrammar.Literal

def byteOfPair? (high low : Char) : Option UInt8 := do
  let h ← Text.digitValue? 16 high
  let l ← Text.digitValue? 16 low
  return UInt8.ofNat (16 * h + l)

def pairs? : List Char → Option (List UInt8)
  | [] => some []
  | c :: rest =>
    if isGap c then pairs? rest
    else
      match rest with
      | [] => none
      | d :: later => do
        let b ← byteOfPair? c d
        let bs ← pairs? later
        return b :: bs

def afterMark : List Char → List Char
  | '0' :: c :: rest => if c == 'x' || c == 'X' then rest else '0' :: c :: rest
  | cs => cs

def beginsBytes : List Char → Bool
  | [] => true
  | [c] => isGap c
  | c :: d :: _ => isGap c || (c == '0' && (d == 'x' || d == 'X')) || (byteOfPair? c d).isSome

def parseBytes (text : String) : Except LiteralFault (List UInt8) :=
  let cs := text.toList
  match pairs? (afterMark (skipGaps cs)) with
  | some bytes => .ok bytes
  | none => .error (if beginsBytes cs then .noByte else .noBytes)

end ByteGrammar.Literal
