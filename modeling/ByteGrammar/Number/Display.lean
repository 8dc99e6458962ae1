import ByteGrammar.Number.MachineInt
import ByteGrammar.Text.Characters

/-!
# Displayed numbers

Decimal text honours the sign. Hexadecimal and binary texts show the bit pattern, padded with
zeros to the width of the field; the hexadecimal ones begin with 0x.
-/

set_option autoImplicit false

namespace ByteGrammar

inductive Radix where
  | binary
  | decimal
  | hex
  deriving DecidableEq, Repr, Inhabited

def Radix.base : Radix → Nat
  | .binary => 2
  | .decimal => 10
  | .hex => 16

def MachineInt.display (i : MachineInt) (radix : Radix) (width : Nat) : String :=
  let width := fieldWidth width
  match radix with
  | .decimal => toString i.value
  | .hex => String.ofList ('0' :: 'x' :: Text.fixedDigits 16 (2 * width) (i.pattern width))
  | .binary => String.ofList (Text.fixedDigits 2 (8 * width) (i.pattern width))

/-- The text of a fixed value, written as a field of `width` bytes that matches it would be. A
literal that no such field matches is written in decimal. -/
def displayLiteral (literal : Int) (radix : Radix) (width : Nat) (signed : Bool) : String :=
  let field? := (literalPattern? literal width).bind fun pattern =>
    MachineInt.ofBytes? .little signed (lowBytes (fieldWidth width) pattern)
  match field? with
  | some i => i.display radix (fieldWidth width)
  | none => toString literal

end ByteGrammar
