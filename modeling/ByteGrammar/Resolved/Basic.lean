import ByteGrammar.Resolved.Attributes

/-!
# Resolved grammars

A grammar whose pointers are linked and whose elements have all their attributes.
-/

set_option autoImplicit false

namespace ByteGrammar

structure Resolved where
  grammar : Grammar
  start : ElementId
  padding : ElementId
  attributes : Array Attributes
  members : Array (List ElementId)

namespace Resolved

def name (g : Resolved) : String := g.grammar.name

def size (g : Resolved) : Nat := g.grammar.size

def element? (g : Resolved) (id : ElementId) : Option Element := g.grammar.element? id

def element (g : Resolved) (id : ElementId) : Element := g.grammar.element id

def kind (g : Resolved) (id : ElementId) : Kind := (g.element id).kind

def label (g : Resolved) (id : ElementId) : String := g.grammar.label id

def nameOf (g : Resolved) (id : ElementId) : String :=
  match g.element? id with
  | some e => e.name
  | none => "<unknown>"

def attributesOf (g : Resolved) (id : ElementId) : Attributes := g.attributes.getD id default

def membersOf (g : Resolved) (id : ElementId) : List ElementId := g.members.getD id []

def numberValues (g : Resolved) (id : ElementId) : List (Fixed Int) :=
  match g.kind (g.attributesOf id).valuesFrom with
  | .number s => s.values
  | _ => []

def binaryValues (g : Resolved) (id : ElementId) : List (Fixed (List UInt8)) :=
  match g.kind (g.attributesOf id).valuesFrom with
  | .binary s => s.values
  | _ => []

def textValues (g : Resolved) (id : ElementId) : List (Fixed String) :=
  match g.kind (g.attributesOf id).valuesFrom with
  | .text s => s.values
  | _ => []

def scriptHolder? (g : Resolved) (id : ElementId) : Option ElementId :=
  match g.kind id with
  | .script _ => some id
  | .scriptElement _ | .custom _ => (g.attributesOf id).target
  | _ => none

def script? (g : Resolved) (id : ElementId) : Option Script := do
  match g.kind (← g.scriptHolder? id) with
  | .script s => some s
  | _ => none

end Resolved
end ByteGrammar
