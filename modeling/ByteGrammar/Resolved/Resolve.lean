import ByteGrammar.Resolved.Check
import ByteGrammar.Resolved.Inheritance
import ByteGrammar.Resolved.Base
import ByteGrammar.Resolved.Target

/-!
# Resolution

Links the pointers of a grammar, works out members and attributes, and checks the result. All
faults are collected and reported together.
-/

set_option autoImplicit false

namespace ByteGrammar.Grammar

def startPlace (g : Grammar) : Except GrammarFault ElementId :=
  match g.start with
  | none => .error .missingStart
  | some reference =>
    match g.find? reference with
    | some id => .ok id
    | none => .error (.unresolved (g.label root) reference.toText)

/-- The attributes of a reference to a structure: a length that it does not state is that of the
structure, with its unit. -/
def completeReference (g : Grammar) (attributes : Array Attributes) (id : ElementId)
    (a : Attributes) : Attributes :=
  match (g.element id).kind, a.target, a.length with
  | .structRef _, some target, none =>
    let t := attributes.getD target default
    { a with length := t.length, unit := t.unit }
  | _, _, _ => a

def link (authored : Grammar) : Resolved × List GrammarFault :=
  let g := authored.push .padding
  let ids := List.range g.size
  let parents := (ids.map g.parent?).toArray
  let search := BaseSearch.run g parents (ids.map g.statedBase?).toArray
  let bases := search.bases
  let links : Links := { grammar := g, parents, bases }
  let attributes := (links.attributes.zip ids).map fun (a, id) =>
    { a with target := g.target? id }
  let resolved : Resolved :=
    { grammar := g
      start := g.startPlace.toOption.getD root
      padding := authored.size
      attributes :=
        ((attributes.zip ids).map fun (a, id) =>
          g.completeReference attributes.toArray id a).toArray
      members := (ids.map (g.membersOf bases g.size)).toArray }
  let startFaults := match g.startPlace with
    | .ok _ => []
    | .error fault => [fault]
  (resolved,
    g.statedBaseFaults ++ startFaults ++ search.faults.toList ++ g.cycleFaults bases ++
      ids.flatMap g.targetFaults)

def resolve (authored : Grammar) : Except (List GrammarFault) Resolved :=
  let (resolved, linkFaults) := authored.link
  match linkFaults ++ resolved.check with
  | [] => .ok resolved
  | faults => .error faults

end ByteGrammar.Grammar
