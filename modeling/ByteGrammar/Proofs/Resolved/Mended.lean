import ByteGrammar.Proofs.Resolved.WellFormed

/-!
# Bases that count

A base that is stated and cannot be found, or is of another kind, counts as not stated. Without such
bases every grammar that was built states its bases well, and the search finds the same bases in it.
So what it finds is one relation for all grammars, whatever is at fault with them.
-/

set_option autoImplicit false

namespace ByteGrammar.Grammar

theorem stated_sound {g : Grammar} {id b : ElementId} (h : g.statedBase? id = some b) :
    ∃ reference, (g.element id).base = some reference ∧ g.find? reference = some b ∧
      (g.element b).kind.agrees (g.element id).kind := by
  unfold statedBase? statedBase at h
  dsimp only at h
  cases hbase : (g.element id).base with
  | none => simp [hbase] at h
  | some reference =>
    cases hfind : g.find? reference with
    | none => simp [hbase, hfind] at h
    | some target =>
      by_cases hkind : (g.element target).kind.agrees (g.element id).kind
      · simp only [hbase, hfind, if_pos hkind, Option.some_inj] at h
        exact ⟨reference,rfl,h ▸ hfind,h ▸ hkind⟩
      · simp [hbase, hfind, hkind] at h

section
variable (g : Grammar)

def mend (id : ElementId) (e : Element) : Element :=
  if (g.statedBase? id).isSome then e else { e with base := none }

def mended : Grammar :=
  { g with nodes := g.nodes.mapIdx fun id node =>
      { node with element := g.mend id node.element } }

@[simp] theorem mended_size : g.mended.size = g.size := by
  simp only [size, mended, Array.size_mapIdx]

@[simp] theorem mended_children (id : ElementId) : g.mended.children id = g.children id := by
  simp only [children, mended, Array.getElem?_mapIdx]
  cases g.nodes[id]? <;> rfl

theorem mended_element? (id : ElementId) :
    g.mended.element? id = (g.element? id).map (g.mend id) := by
  simp only [element?, mended, Array.getElem?_mapIdx, Option.map_map]
  cases g.nodes[id]? <;> rfl

theorem mended_element (id : ElementId) : g.mended.element id = g.mend id (g.element id) := by
  rw [element, element, mended_element?]
  cases g.element? id with
  | none =>
    simp only [Option.map_none, Option.getD_none, mend]
    split <;> rfl
  | some e => rfl

@[simp] theorem mended_name (id : ElementId) :
    (g.mended.element id).name = (g.element id).name := by
  rw [mended_element, mend]
  split <;> rfl

@[simp] theorem mended_kind (id : ElementId) :
    (g.mended.element id).kind = (g.element id).kind := by
  rw [mended_element, mend]
  split <;> rfl

@[simp] theorem mended_id (id : ElementId) : (g.mended.element id).id = (g.element id).id := by
  rw [mended_element, mend]
  split <;> rfl

theorem mend_label (id : ElementId) (e : Element) : (g.mend id e).label = e.label := by
  rw [mend]
  split <;> rfl

@[simp] theorem mended_element_label (id : ElementId) :
    (g.mended.element id).label = (g.element id).label := by
  rw [mended_element, mend_label]

@[simp] theorem mended_label (id : ElementId) : g.mended.label id = g.label id := by
  rw [label, label, label?, label?, mended_element?, Option.map_map]
  cases g.element? id with
  | none => rfl
  | some e => exact g.mend_label id e

@[simp] theorem mended_find (reference : Designator) :
    g.mended.find? reference = g.find? reference := by
  cases reference <;> simp [find?, show g.mended.topLevel = g.topLevel from rfl]

@[simp] theorem mended_parent (id : ElementId) : g.mended.parent? id = g.parent? id := by
  simp [parent?]

@[simp] theorem mended_child_named (id : ElementId) (name : String) :
    g.mended.childNamed? id name = g.childNamed? id name := by
  simp [childNamed?]

theorem mended_stated (id : ElementId) : g.mended.statedBase? id = g.statedBase? id := by
  cases hs : g.statedBase? id with
  | none =>
    have hbase : (g.mended.element id).base = none := by
      rw [mended_element, mend, hs]
      rfl
    simp only [statedBase?, statedBase, hbase]
  | some b =>
    have hbase : (g.mended.element id).base = (g.element id).base := by
      rw [mended_element, mend, hs]
      rfl
    rw [← hs]
    simp only [statedBase?, statedBase, hbase, mended_find, mended_kind, mended_element_label,
      mended_label]

theorem mended_states : g.mended.StatesBases := by
  intro id reference hbase
  cases hs : g.statedBase? id with
  | none =>
    rw [mended_element, mend, hs] at hbase
    cases hbase
  | some b =>
    rw [← mended_stated] at hs
    obtain ⟨reference',hbase',hsound⟩ := stated_sound hs
    cases hbase.symm.trans hbase'
    exact ⟨b,hsound⟩

theorem Contained.mended {g : Grammar} (hg : g.Contained) : g.mended.Contained where
  top := fun hid => (mended_size g).symm ▸ hg.top hid
  below := fun hc => (mended_size g).symm ▸ hg.below (mended_children g _ ▸ hc)

theorem inherited_child_mended (search : ElementId → StateM BaseSearch (Option ElementId))
    (name : String) (steps : Nat) :
    BaseSearch.inheritedChild g.mended search name steps =
      BaseSearch.inheritedChild g search name steps := by
  induction steps with
  | zero => rfl
  | succ steps ih =>
    funext id
    rw [BaseSearch.inheritedChild, BaseSearch.inheritedChild, mended_child_named, ih]

theorem adopt_mended (search : ElementId → StateM BaseSearch (Option ElementId)) :
    BaseSearch.adopt g.mended search = BaseSearch.adopt g search := by
  funext id ancestor
  simp only [BaseSearch.adopt, inherited_child_mended, mended_name, mended_kind, mended_size,
    mended_element_label, mended_label]

theorem base_of_mended (parents stated : Array (Option ElementId)) (depth : Nat) :
    BaseSearch.baseOf g.mended parents stated depth =
      BaseSearch.baseOf g parents stated depth := by
  induction depth with
  | zero => rfl
  | succ depth ih =>
    funext id
    rw [BaseSearch.baseOf, BaseSearch.baseOf, ih, adopt_mended]

theorem run_mended (parents stated : Array (Option ElementId)) :
    BaseSearch.run g.mended parents stated = BaseSearch.run g parents stated := by
  rw [BaseSearch.run, BaseSearch.run, base_of_mended, mended_size, BaseSearch.start,
    BaseSearch.start, mended_size]

end

section
variable {authored : Grammar}

def Inherits (authored : Grammar) : ElementId → ElementId → Prop := authored.arena.mended.Extends

/-- The bases that are found are those of the relation, whatever is at fault with those that are
stated. -/
theorem linked_bases_inherit (hb : authored.Built) (id b : ElementId) :
    authored.linkedBases[id]?.join = some b ↔ authored.Inherits id b := by
  have hstated : ∀ id : Nat, id < authored.arena.mended.size →
      ((List.range authored.arena.size).map authored.arena.statedBase?).toArray[id]?.join =
        authored.arena.mended.statedBase? id := by
    intro id hid
    rw [mended_stated]
    exact congrArg Option.join (table_get authored.arena.statedBase? (mended_size _ ▸ hid))
  have hparents : ∀ id : Nat, id < authored.arena.mended.size →
      ((List.range authored.arena.size).map authored.arena.parent?).toArray[id]?.join =
        authored.arena.mended.parent? id := by
    intro id hid
    rw [mended_parent]
    exact congrArg Option.join (table_get authored.arena.parent? (mended_size _ ▸ hid))
  have hright := (BaseSearch.run_right (hb.contained .padding).mended
    (mended_states authored.arena) hstated hparents).1 id b
  rwa [run_mended] at hright

theorem inherits_lt (hb : authored.Built) {id b : Nat} (h : authored.Inherits id b) :
    id < authored.size := by
  have hlt := (hb.contained .padding).mended.extends_lt h
  rw [mended_size, size_push] at hlt
  refine Nat.lt_of_le_of_ne (Nat.le_of_lt_succ hlt) ?_
  rintro rfl
  cases h with
  | stated hbase _ =>
    rw [mended_element, mend, push_element_last] at hbase
    split at hbase <;> cases hbase
  | adopted _ hplace _ _ _ _ =>
    rw [mended_parent] at hplace
    have hchild := parent_children hplace
    rw [children_push] at hchild
    exact Nat.lt_irrefl _ ((built_forest hb).known hchild)

end

end ByteGrammar.Grammar
