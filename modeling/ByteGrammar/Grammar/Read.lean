import ByteGrammar.Grammar.Element
import ByteGrammar.Grammar.Fault
import ByteGrammar.Literal.Bytes
import ByteGrammar.Quantity.Basic

/-!
# Reading the texts of a grammar

Quantities and fixed values from text, with a fault of the grammar that quotes a malformed text.
-/

set_option autoImplicit false

namespace ByteGrammar.Grammar

theorem map_error_ok {ε ε' α : Type} {f : ε → ε'} {r : Except ε α} {a : α} :
    r.mapError f = .ok a ↔ r = .ok a := by
  cases r with
  | ok b =>
    show Except.ok b = .ok a ↔ _
    rw [Except.ok.injEq, Except.ok.injEq]
  | error fault =>
    show Except.error (f fault) = .ok a ↔ _
    exact iff_of_false nofun nofun

def readQuantity (text : String) : Except GrammarFault Quantity :=
  (Quantity.parse text).mapError (.invalidQuantity text)

def readInteger (text : String) : Except GrammarFault Int :=
  (Literal.parseInteger text).mapError (.invalidFixedValue text)

def readFixed (name text : String) : Except GrammarFault (Fixed Int) := do
  let value ← readInteger text
  return { name, value }

def readBytes (text : String) : Except GrammarFault (List UInt8) :=
  (Literal.parseBytes text).mapError (.invalidFixedValue text)

end ByteGrammar.Grammar
