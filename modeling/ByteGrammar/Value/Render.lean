import ByteGrammar.Number.Display
import ByteGrammar.Source.Delivery
import ByteGrammar.Text.Encoding
import ByteGrammar.Value.Basic

/-!
# Rendering values

The text of a value tree: a line for each value, indented by its depth. The content of leaves is
read again from the source.
-/

set_option autoImplicit false

namespace ByteGrammar

def dropTerminator (terminator : UInt8) (bytes : List UInt8) : List UInt8 :=
  if bytes.getLast? == some terminator then bytes.dropLast else bytes

def TextKind.content (kind : TextKind) (bytes : List UInt8) : List UInt8 :=
  match kind with
  | .zeroTerminated => dropTerminator 0 bytes
  | .delimited delimiter => dropTerminator delimiter bytes
  | .counted => bytes.drop 1
  | .fixedLength => bytes

def Attributes.textOf (encodings : Text.Encodings) (a : Attributes) (bytes : List UInt8) : String :=
  Text.decode encodings a.encoding (a.textKind.content bytes)

def shortHex (bytes : List UInt8) : String :=
  if bytes.length ≤ 8 then Text.hexOf bytes else Text.hexOf (bytes.take 6) ++ "..."

namespace Value

def content (v : Value) : SourceM (List UInt8) :=
  if v.length = 0 then pure [] else Source.readAt v.length v.offset

def matchedName? {α : Type} (v : Value) (values : List (Fixed α)) : Option String :=
  v.matched.bind fun i => values[i]?.map Fixed.name

def integerText (g : Resolved) (v : Value) (bytes : List UInt8) : String :=
  let attributes := g.attributesOf v.element
  let signed := (g.kind v.element).isNumber && attributes.signed
  let text := match MachineInt.ofBytes? (v.order.getD .little) signed bytes with
    | some i => i.display attributes.radix bytes.length
    | none => Text.hexOf bytes
  match v.matchedName? (g.numberValues v.element) with
  | some name => if name.isEmpty then text else text ++ " (" ++ name ++ ")"
  | none => text

def binaryText (g : Resolved) (v : Value) (bytes : List UInt8) : String :=
  match v.matchedName? (g.binaryValues v.element) with
  | some name => shortHex bytes ++ " (" ++ name ++ ")"
  | none => shortHex bytes ++ " (" ++ toString bytes.length ++ " bytes)"

def renderWith (encodings : Text.Encodings) (g : Resolved) (v : Value)
    (children : SourceM String) : SourceM String :=
  match g.kind v.element with
  | .grammar => do return (g.element v.element).name ++ ": " ++ (← children)
  | .struct _ | .structRef _ => children
  | .number _ | .offset _ => v.integerText g <$> v.content
  | .text _ => (g.attributesOf v.element).textOf encodings <$> v.content
  | .binary _ | .custom _ => v.binaryText g <$> v.content
  | .padding => pure ("<padding len:" ++ toString v.length ++ ">")
  | .script _ | .scriptElement _ => pure "<script ran>"
  | .grammarRef file => pure ("<grammar " ++ file ++ ">")

def indent (depth : Nat) : String := String.join (List.replicate depth "  ")

mutual

def renderAt (encodings : Text.Encodings) (g : Resolved) (depth : Nat) : Value → SourceM String
  | ⟨element, offset, length, order, matched, children⟩ =>
    renderWith encodings g ⟨element, offset, length, order, matched, children⟩ do
      let lines ← renderAll encodings g (depth + 1) 0 children
      return "(" ++ toString children.length ++ " children)\n" ++ lines

def renderAll (encodings : Text.Encodings) (g : Resolved) (depth position : Nat) :
    List Value → SourceM String
  | [] => pure ""
  | child :: rest => do
    let text ← renderAt encodings g depth child
    let line := indent depth ++ "[" ++ toString position ++ "] " ++ child.name g ++ ": " ++
      Text.trim text ++ "\n"
    return line ++ (← renderAll encodings g depth (position + 1) rest)

end

def render (encodings : Text.Encodings) (g : Resolved) (v : Value) : SourceM String :=
  v.renderAt encodings g 0

end Value
end ByteGrammar
