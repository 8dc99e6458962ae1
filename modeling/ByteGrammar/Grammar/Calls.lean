import ByteGrammar.Grammar.Basic

/-!
# Calls of a builder

The calls that build a grammar in place. The grammar that a call leaves behind is there also when
the call fails, as it stood at that moment.
-/

set_option autoImplicit false

namespace ByteGrammar

abbrev BuildM := ExceptT GrammarFault (StateM Grammar)

namespace BuildM

def place (e : Element) : BuildM ElementId := do
  let g ← get
  set (g.push e)
  return g.size

def add (e : Element) : BuildM ElementId := do
  let id ← place e
  modify fun g => { g with topLevel := g.topLevel ++ [id] }
  return id

def addChild (parent : ElementId) (e : Element) : BuildM ElementId := do
  match (← get).element? parent with
  | none => throw (.notAStructure (Designator.index parent).toText)
  | some p =>
    if p.kind.isStruct then
      let id ← place e
      modify fun g =>
        { g with nodes := g.nodes.modify parent fun node =>
          { node with children := node.children ++ [id] } }
      return id
    else throw (.notAStructure p.label)

def addChildren (parent : ElementId) (es : List Element) : BuildM (List ElementId) :=
  es.mapM (addChild parent)

def setStart (start : Designator) : BuildM Unit := modify fun g => { g with start }

def setBase (id : ElementId) (base : Designator) : BuildM Unit := do
  let g ← get
  match g.element? id with
  | none =>
    let text := (Designator.index id).toText
    throw (.unresolved text text)
  | some e =>
    if let some target := g.find? base then
      if !(g.element target).kind.agrees e.kind then
        throw (.incompatibleBase e.label (g.label target))
    modify fun g => g.modify id (·.withBase base)

end BuildM

namespace Grammar

inductive Call where
  | add (e : Element)
  | addChild (parent : ElementId) (e : Element)
  | addChildren (parent : ElementId) (es : List Element)
  | setStart (start : Designator)
  | setBase (id : ElementId) (base : Designator)
  deriving Repr

def Call.make : Call → BuildM (List ElementId)
  | .add e => return [← BuildM.add e]
  | .addChild parent e => return [← BuildM.addChild parent e]
  | .addChildren parent es => BuildM.addChildren parent es
  | .setStart start => do
    BuildM.setStart start
    return []
  | .setBase id base => do
    BuildM.setBase id base
    return []

def Call.leave (call : Call) (g : Grammar) : Grammar := (call.make g).2

def afterCalls (g : Grammar) (calls : List Call) : Grammar :=
  calls.foldl (fun g call => call.leave g) g

end Grammar
end ByteGrammar
