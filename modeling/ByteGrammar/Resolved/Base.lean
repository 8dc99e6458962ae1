import ByteGrammar.Grammar.Basic

/-!
# Bases and members

The base of every element: the one it names, or else, for a child of a structure that has a base
itself, the child of the same name there or further along the chain of bases. An element met while
its own base is being sought counts as having none. A structure is made of the members of its base,
with its own children put in the place of the first element of the same name, or behind them all.
-/

set_option autoImplicit false

namespace ByteGrammar

inductive Progress (α : Type) where
  | pending
  | underway
  | done (result : α)

namespace Grammar

def parent? (g : Grammar) (id : ElementId) : Option ElementId :=
  (List.range g.size).reverse.find? fun p => (g.children p).contains id

def statedBase (g : Grammar) (id : ElementId) : Except GrammarFault (Option ElementId) :=
  let e := g.element id
  match e.base with
  | none => .ok none
  | some reference =>
    match g.find? reference with
    | none => .error (.unresolved e.label reference.toText)
    | some target =>
      if (g.element target).kind.agrees e.kind then .ok (some target)
      else .error (.incompatibleBase e.label (g.label target))

def statedBase? (g : Grammar) (id : ElementId) : Option ElementId :=
  match g.statedBase id with
  | .ok base => base
  | .error _ => none

def statedBaseFaults (g : Grammar) : List GrammarFault :=
  (List.range g.size).filterMap fun id =>
    match g.statedBase id with
    | .ok _ => none
    | .error fault => some fault

def childNamed? (g : Grammar) (id : ElementId) (name : String) : Option ElementId :=
  (g.children id).find? fun child => (g.element child).name == name

end Grammar

structure BaseSearch where
  known : Array (Progress (Option ElementId))
  faults : Array GrammarFault := #[]

namespace BaseSearch

def start (g : Grammar) : BaseSearch := { known := Array.replicate g.size .pending }

def mark (id : ElementId) (progress : Progress (Option ElementId)) (s : BaseSearch) :
    BaseSearch :=
  { s with known := s.known.setIfInBounds id progress }

def report (fault : GrammarFault) (s : BaseSearch) : BaseSearch :=
  { s with faults := s.faults.push fault }

def inheritedChild (g : Grammar) (baseOf : ElementId → StateM BaseSearch (Option ElementId))
    (name : String) : Nat → ElementId → StateM BaseSearch (Option ElementId)
  | 0, _ => pure none
  | steps + 1, id =>
    match g.childNamed? id name with
    | some child => pure (some child)
    | none => do
      match ← baseOf id with
      | some next => inheritedChild g baseOf name steps next
      | none => pure none

def adopt (g : Grammar) (baseOf : ElementId → StateM BaseSearch (Option ElementId))
    (id ancestor : ElementId) : StateM BaseSearch (Option ElementId) := do
  let e := g.element id
  match ← inheritedChild g baseOf e.name g.size ancestor with
  | none => pure none
  | some child =>
    if child == id then pure none
    else if (g.element child).kind.agrees e.kind then pure (some child)
    else
      modify (report (.incompatibleBase e.label (g.label child)))
      pure none

/-- The base of `id`. Each level of `depth` has one more element under way, so no search needs
more levels than the arena has elements, and one. -/
def baseOf (g : Grammar) (parents stated : Array (Option ElementId)) :
    Nat → ElementId → StateM BaseSearch (Option ElementId)
  | 0, _ => pure none
  | depth + 1, id => do
    match (← get).known[id]? with
    | some (.done base) => pure base
    | some .pending =>
      modify (mark id .underway)
      let base ← match stated[id]?.join, parents[id]?.join with
        | some target, _ => pure (some target)
        | none, none => pure none
        | none, some parent => do
          match ← baseOf g parents stated depth parent with
          | none => pure none
          | some ancestor => adopt g (baseOf g parents stated depth) id ancestor
      modify (mark id (.done base))
      pure base
    | _ => pure none

def run (g : Grammar) (parents stated : Array (Option ElementId)) : BaseSearch :=
  (((List.range g.size).forM fun id => discard (baseOf g parents stated (g.size + 1) id)).run
    (start g)).2

def bases (s : BaseSearch) : Array (Option ElementId) :=
  s.known.map fun
    | .done base => base
    | _ => none

end BaseSearch

def baseChain (bases : Array (Option ElementId)) : Nat → ElementId → List ElementId
  | 0, _ => []
  | steps + 1, id =>
    match bases[id]?.join with
    | none => []
    | some base => base :: baseChain bases steps base

def leadsCycle (bases : Array (Option ElementId)) (id : ElementId) : Bool :=
  let chain := baseChain bases bases.size id
  chain.contains id && (chain.takeWhile (· != id)).all (id < ·)

def Grammar.cycleFaults (g : Grammar) (bases : Array (Option ElementId)) : List GrammarFault :=
  ((List.range g.size).filter (leadsCycle bases)).map fun id => .baseCycle (g.label id)

namespace Grammar

def placeMember (g : Grammar) (child : ElementId) : List ElementId → List ElementId
  | [] => [child]
  | m :: rest =>
    if (g.element m).name == (g.element child).name then child :: rest
    else m :: g.placeMember child rest

def mergeMembers (g : Grammar) (inherited own : List ElementId) : List ElementId :=
  own.foldl (fun members child => g.placeMember child members) inherited

def membersOf (g : Grammar) (bases : Array (Option ElementId)) :
    Nat → ElementId → List ElementId
  | 0, id => g.children id
  | steps + 1, id =>
    match bases[id]?.join with
    | none => g.children id
    | some base => g.mergeMembers (g.membersOf bases steps base) (g.children id)

end Grammar

end ByteGrammar
