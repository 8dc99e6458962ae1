import ByteGrammar.Grammar.Element
import ByteGrammar.Grammar.Fault

/-!
# Grammars

A grammar under construction: an arena of elements in the order of their addition, of which each
stands at the top level or among the children of a structure. Place 0 holds the grammar's own
element. A walk gives the elements in document order, each with the structure that it stands in.
-/

set_option autoImplicit false

namespace ByteGrammar

structure Node where
  element : Element
  children : List ElementId := []
  deriving Repr

structure Grammar where
  name : String
  nodes : Array Node
  topLevel : List ElementId := []
  start : Option Designator := none
  deriving Repr

namespace Grammar

def root : ElementId := 0

def new (name : String) : Grammar := { name, nodes := #[{ element := .grammar name }] }

def size (g : Grammar) : Nat := g.nodes.size

def isEmpty (g : Grammar) : Bool := g.topLevel.isEmpty

def element? (g : Grammar) (id : ElementId) : Option Element := g.nodes[id]?.map Node.element

def element (g : Grammar) (id : ElementId) : Element := (g.element? id).getD (.grammar "")

def children (g : Grammar) (id : ElementId) : List ElementId :=
  match g.nodes[id]? with
  | some node => node.children
  | none => []

def label? (g : Grammar) (id : ElementId) : Option String := (g.element? id).map Element.label

def label (g : Grammar) (id : ElementId) : String :=
  (g.label? id).getD ("<unknown #" ++ toString id ++ ">")

/-- The element that a designator points to. A name is looked up at the top level first, then
anywhere; no element has the number 0. -/
def find? (g : Grammar) : Designator → Option ElementId
  | .index id => if id < g.size then some id else none
  | .id n =>
    if n = 0 then none
    else (List.range g.size).find? fun id =>
      (g.element id).id == n && !(g.element id).kind.agrees .grammar
  | .name name =>
    (g.topLevel.find? fun id => (g.element id).name == name).or
      ((List.range g.size).find? fun id => id != root && (g.element id).name == name)

def push (g : Grammar) (e : Element) : Grammar := { g with nodes := g.nodes.push { element := e } }

def add (g : Grammar) (e : Element) : Grammar :=
  { g.push e with topLevel := g.topLevel ++ [g.size] }

def addChild (g : Grammar) (parent : ElementId) (e : Element) : Except GrammarFault Grammar :=
  match g.element? parent with
  | none => .error (.notAStructure (Designator.index parent).toText)
  | some p =>
    if p.kind.isStruct then
      let grown := g.push e
      .ok { grown with
        nodes := grown.nodes.modify parent fun node =>
          { node with children := node.children ++ [g.size] } }
    else .error (.notAStructure p.label)

def addChildren (g : Grammar) (parent : ElementId) :
    List Element → Except GrammarFault Grammar
  | [] => .ok g
  | e :: rest => do (← g.addChild parent e).addChildren parent rest

def setStart (g : Grammar) (start : Designator) : Grammar := { g with start }

def modify (g : Grammar) (id : ElementId) (f : Element → Element) : Grammar :=
  { g with nodes := g.nodes.modify id fun node => { node with element := f node.element } }

def setBase (g : Grammar) (id : ElementId) (base : Designator) : Except GrammarFault Grammar :=
  match g.element? id with
  | none =>
    let place := (Designator.index id).toText
    .error (.unresolved place place)
  | some e =>
    let extended := g.modify id (·.withBase base)
    match g.find? base with
    | none => .ok extended
    | some target =>
      if (g.element target).kind.agrees e.kind then .ok extended
      else .error (.incompatibleBase e.label (g.label target))

/-- Puts `e` in the place of the element at `id`. The children of a structure that stood there
stay in the arena, below no structure. -/
def replace (g : Grammar) (id : ElementId) (e : Element) : Grammar :=
  { g with nodes := g.nodes.modify id fun _ => { element := e } }

def walkFrom (g : Grammar) : Nat → Option ElementId → ElementId →
    List (ElementId × Option ElementId)
  | 0, _, _ => []
  | depth + 1, parent, id => (id, parent) :: (g.children id).flatMap (g.walkFrom depth (some id))

def walk (g : Grammar) : List (ElementId × Option ElementId) :=
  g.topLevel.flatMap (g.walkFrom g.size none)

end Grammar

end ByteGrammar
