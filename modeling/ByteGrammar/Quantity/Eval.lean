import ByteGrammar.Source.Delivery
import ByteGrammar.Text.Quoted
import ByteGrammar.Value.Basic

/-!
# Evaluating quantities

A quantity is worked out from the open frames, the values decoded so far and the place of the
cursor. Results are signed words of 64 bits.
-/

set_option autoImplicit false

namespace ByteGrammar

structure Frame where
  element : ElementId
  start : Nat
  finish : Nat
  deriving DecidableEq, Repr

inductive EvalFault where
  | noEnclosingStructure
  | noSuchElement (name : String)
  | notANumber (name : String)
  | unalignedBits (bits : Int)
  | unevaluable (element : String)
  | source (fault : SourceFault)
  deriving DecidableEq, Repr

def EvalFault.message : EvalFault → String
  | noEnclosingStructure => "\"remaining\" used outside of any structure"
  | noSuchElement name => "no previous element named " ++ Text.quote name ++ " found"
  | notANumber name => "previous element " ++ Text.quote name ++ " must be a Number"
  | unalignedBits bits =>
    "bit length " ++ toString bits ++ " of the enclosing structure is not a multiple of 8"
  | unevaluable element => "length of " ++ element ++ " can't be evaluated"
  | source fault => fault.message

abbrev EvalM := ExceptT EvalFault (StateM Source)

def EvalM.ofSource {α : Type} (action : SourceM α) : EvalM α := fun s =>
  match action s with
  | (.ok a, s) => (.ok a, s)
  | (.error fault, s) => (.error (.source fault), s)

def latest? (g : Resolved) (name : String) (history : List Value) : Option Value :=
  history.find? fun v => (g.element v.element).name == name

def Value.readInt (g : Resolved) (v : Value) : EvalM MachineInt := do
  let signed ← match g.kind v.element with
    | .number _ => pure (g.attributesOf v.element).signed
    | .offset _ => pure false
    | _ => throw (.notANumber (g.element v.element).name)
  if v.length = 0 ∨ 8 < v.length then throw (.unevaluable (g.label v.element))
  let bytes ← EvalM.ofSource (Source.readAt v.length v.offset)
  match MachineInt.ofBytes? (v.order.getD .little) signed bytes with
  | some i => pure i
  | none => throw (.unevaluable (g.label v.element))

namespace Quantity

def largest : Int := wordCount 63 - 1

def saturate (n : Int) : Int := max (-(wordCount 63 : Int)) (min n largest)

def previous (g : Resolved) (history : List Value) (name : String) : EvalM Int :=
  match latest? g name history with
  | none => throw (.noSuchElement name)
  | some v =>
    if (g.kind v.element).isNumber then MachineInt.toSigned <$> v.readInt g
    else throw (.notANumber name)

def evalWith (g : Resolved) (history : List Value) (left : EvalM Int) : Quantity → EvalM Int
  | literal n => pure n
  | unlimited => pure largest
  | remaining => left
  | prev name => previous g history name

def inBytes (unit : LengthUnit) (n : Int) : EvalM Int :=
  match unit with
  | .byte => pure n
  | .bit => if n % 8 = 0 then pure (n / 8) else throw (.unalignedBits n)

/-- What is left at `place` of the innermost structure among `frames`, innermost first. A length
that the structure declares is worked out as at its start. -/
def leftIn (g : Resolved) (history : List Value) : List Frame → Nat → EvalM Int
  | [], _ => throw .noEnclosingStructure
  | frame :: outer, place =>
    if (g.kind frame.element).isStruct then do
      let attributes := g.attributesOf frame.element
      let declared ← match attributes.length with
        | some length =>
          evalWith g history (leftIn g history outer frame.start) length >>=
            inBytes attributes.unit
        | none => pure (wrap true 64 (frame.finish - frame.start))
      pure (saturate (declared - wrap true 64 ((place - frame.start : Nat) : Int)))
    else leftIn g history outer place

def eval (g : Resolved) (history : List Value) (frames : List Frame) (place : Nat)
    (q : Quantity) : EvalM Int :=
  q.evalWith g history (leftIn g history frames place)

end Quantity
end ByteGrammar
