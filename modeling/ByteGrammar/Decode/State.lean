import ByteGrammar.Decode.Journal
import ByteGrammar.Script.Program
import ByteGrammar.Text.Encoding

/-!
# The state of a decode

What a decode keeps as it goes along, the actions on it, and the settings that stay the same.
-/

set_option autoImplicit false

namespace ByteGrammar

structure Options where
  /-- The most frames that may be open at once, that of the root among them. -/
  maxDepth : Nat := 32
  /-- The most values that one decode may produce. -/
  maxValues : Nat := 1000000
  /-- Whether each value is checked as it is produced. -/
  checkShape : Bool := true
  order : ByteOrder := .little
  deriving DecidableEq, Repr

/-- What stays the same during a decode. Without a runtime, scripts are passed over. -/
structure Setup (μ : Type) where
  grammar : Resolved
  encodings : Text.Encodings
  options : Options := {}
  runtime : Option (Runtime μ) := none

structure State (μ : Type) where
  source : Source
  history : List Value := []
  order : ByteOrder := .little
  /-- How many values have been produced, abandoned ones among them. -/
  values : Nat := 0
  memory : μ
  journal : Option (List Event) := none

/-- A step of a decode. A fault leaves the state as it was at that moment. -/
abbrev DecodeM (μ : Type) := ExceptT DecodeFault (StateM (State μ))

namespace DecodeM

variable {μ α : Type}

def cursor : DecodeM μ Nat := return (← get).source.position

def seekTo (place : Nat) : DecodeM μ Unit :=
  modify fun s => { s with source := { s.source with position := place } }

def sourceLength : DecodeM μ Nat := return (← get).source.length

def log (event : Event) : DecodeM μ Unit :=
  modify fun s => { s with journal := s.journal.map (event :: ·) }

def take (count : Nat) : DecodeM μ (List UInt8) := fun s =>
  match Source.read count s.source with
  | (.ok bytes, source) => (.ok bytes, { s with source })
  | (.error fault, source) => (.error (.ofSource fault), { s with source })

def outcome (action : DecodeM μ α) : DecodeM μ (Except DecodeFault α) := fun s =>
  match action s with
  | (result, s) => (.ok result, s)

def restore (saved : List Value) : DecodeM μ Unit := modify fun s => { s with history := saved }

def evaluate (setup : Setup μ) (frames : List Frame) (id : ElementId) (q : Quantity) :
    DecodeM μ Int := fun s =>
  match q.eval setup.grammar s.history frames s.source.position s.source with
  | (.ok n, source) => (.ok n, { s with source })
  | (.error fault, source) =>
    (.error (.eval (setup.grammar.label id) fault), { s with source })

end DecodeM
end ByteGrammar
