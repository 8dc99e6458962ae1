import ByteGrammar.Grammar.Basic

/-!
# Targets

The structures that references stand for and the scripts that elements run. A name prefers an
element of the kind that is wanted, and no name leads an element to itself.
-/

set_option autoImplicit false

namespace ByteGrammar

inductive Aim where
  | struct
  | script
  deriving DecidableEq, Repr

def Aim.name : Aim → String
  | struct => "Structure"
  | script => "Script"

def Aim.admits : Aim → Kind → Bool
  | struct, kind => kind.isStruct
  | script, kind => kind.isScript

/-- The link of an element, with what it must lead to. A reference without a structure of its own
means the one with its name. -/
def Element.link? (e : Element) : Option (Designator × Aim) :=
  match e.kind with
  | .structRef target => some (target.getD (.name e.name), .struct)
  | .scriptElement script | .custom script => script.map (·, .script)
  | _ => none

def Element.anchors (e : Element) : List Designator :=
  match e.kind with
  | .offset s => s.relativeTo.toList ++ s.references.toList
  | _ => []

namespace Grammar

def isWanted (g : Grammar) (id : ElementId) (aim : Aim) (name : String) (t : ElementId) : Bool :=
  t != id && (g.element t).name == name && aim.admits (g.element t).kind

def findTarget? (g : Grammar) (id : ElementId) (aim : Aim) : Designator → Option ElementId
  | .name name =>
    (g.topLevel.find? (g.isWanted id aim name)).or
      (((List.range g.size).find? (g.isWanted id aim name)).or
        ((g.find? (.name name)).filter (· != id)))
  | designator => g.find? designator

def follow (g : Grammar) (id : ElementId) (aim : Aim) (designator : Designator) :
    Except GrammarFault ElementId :=
  match g.findTarget? id aim designator with
  | none => .error (.unresolved (g.label id) designator.toText)
  | some t =>
    if aim.admits (g.element t).kind then .ok t
    else .error (.wrongTarget (g.label id) designator.toText aim.name (g.label t))

def target? (g : Grammar) (id : ElementId) : Option ElementId :=
  match (g.element id).link? with
  | none => none
  | some (designator, aim) => (g.follow id aim designator).toOption

def targetFaults (g : Grammar) (id : ElementId) : List GrammarFault :=
  let missing := (g.element id).anchors.filterMap fun anchor =>
    match g.find? anchor with
    | none => some (.unresolved (g.label id) anchor.toText)
    | some _ => none
  match (g.element id).link? with
  | none => missing
  | some (designator, aim) =>
    match g.follow id aim designator with
    | .ok _ => missing
    | .error fault => missing ++ [fault]

end Grammar
end ByteGrammar
