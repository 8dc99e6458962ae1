import ByteGrammar.Resolved.Attributes
import ByteGrammar.Resolved.Base

/-!
# Inheritance

The attributes of every element, from its base and its enclosing structure. An element met while
its own attributes are being worked out counts with its own settings and the defaults alone.
-/

set_option autoImplicit false

namespace ByteGrammar

structure Links where
  grammar : Grammar
  parents : Array (Option ElementId)
  bases : Array (Option ElementId)

namespace Links

def parent? (l : Links) (id : ElementId) : Option ElementId := l.parents[id]?.join

def base? (l : Links) (id : ElementId) : Option ElementId := l.bases[id]?.join

def unbased (l : Links) (id : ElementId) (parent : Option Attributes) : Attributes :=
  (l.grammar.element id).settings.within id (l.parent? id) parent

abbrev Known := Array (Progress Attributes)

def attributesOf (l : Links) : Nat → ElementId → StateM Known Attributes
  | 0, id => pure (l.unbased id none)
  | depth + 1, id => do
    match (← get)[id]? with
    | some (.done attributes) => pure attributes
    | some .pending =>
      modify (·.setIfInBounds id .underway)
      let inherited ← match l.base? id with
        | none => pure none
        | some base => do
          let attributes ← l.attributesOf depth base
          pure (some (base, attributes))
      let parent ← match l.parent? id with
        | none => pure none
        | some p => some <$> l.attributesOf depth p
      let attributes := match inherited with
        | some (base, attributes) =>
          (l.grammar.element id).settings.inheriting id (l.parent? id) base attributes
        | none => l.unbased id parent
      modify (·.setIfInBounds id (.done attributes))
      pure attributes
    | _ => pure (l.unbased id none)

def attributes (l : Links) : List Attributes :=
  (((List.range l.grammar.size).mapM fun id => l.attributesOf (l.grammar.size + 1) id).run
    (Array.replicate l.grammar.size .pending)).1

end Links
end ByteGrammar
