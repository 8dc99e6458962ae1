/-!
# Faults of literals

Why a text is no integer literal, byte string or quantity. The message names what was expected
at the furthest place that was understood.
-/

set_option autoImplicit false

namespace ByteGrammar

inductive LiteralFault where
  | noInteger
  | noQuantity
  | noForm
  | noDigits
  | trailing
  | tooLarge
  | outOfRange
  | noName
  | blankName
  | noBytes
  | noByte
  deriving DecidableEq, Repr

def LiteralFault.message : LiteralFault → String
  | noInteger => "expected integer"
  | noQuantity => "expected reference"
  | noForm => "expected unlimited, remaining, prev, or integer"
  | noDigits => "expected hex, bin, or dec"
  | trailing => "expected EOI"
  | tooLarge => "number too large to fit in target type"
  | outOfRange => "out of range"
  | noName => "expected name"
  | blankName => "missing element name after \"prev.\""
  | noBytes => "expected bytes"
  | noByte => "expected EOI or byte"

end ByteGrammar
