import ByteGrammar.Grammar.Basic

/-!
# Grammars that were built

The grammars that come of additions, settings and changes in place. An element stands in one place
at most among the children of one structure, and the grammar's own element stays what it is.
-/

set_option autoImplicit false

namespace ByteGrammar.Grammar

/-- What can be built from a new grammar. An element that is changed in place stays of its kind, or
it is another that takes its place; the grammar's own is not replaced. -/
inductive Built : Grammar → Prop
  | new (name : String) : Built (new name)
  | add {g : Grammar} (e : Element) (built : Built g) : Built (g.add e)
  | addChild {g g' : Grammar} {parent : ElementId} {e : Element}
      (added : g.addChild parent e = .ok g') (built : Built g) : Built g'
  | setStart {g : Grammar} (start : Designator) (built : Built g) : Built (g.setStart start)
  | modify {g : Grammar} {id : ElementId} {f : Element → Element}
      (keeps : (f (g.element id)).kind.agrees (g.element id).kind) (built : Built g) :
      Built (g.modify id f)
  | replace {g : Grammar} {id : ElementId} (e : Element) (other : id ≠ root)
      (built : Built g) : Built (g.replace id e)

theorem add_children_closed {P : Grammar → Prop} {parent : ElementId}
    (step : ∀ {g g' : Grammar} {e : Element}, g.addChild parent e = .ok g' → P g → P g')
    {g g' : Grammar} {elements : List Element} (h : g.addChildren parent elements = .ok g')
    (hg : P g) : P g' := by
  induction elements generalizing g with
  | nil =>
    cases h
    exact hg
  | cons e rest ih =>
    rw [Grammar.addChildren] at h
    rcases ha : g.addChild parent e with fault | grown <;> rw [ha] at h
    · cases h
    · exact ih h (step ha hg)

theorem set_base_ok {g g' : Grammar} {id : ElementId} {base : Designator}
    (h : g.setBase id base = .ok g') : g' = g.modify id (·.withBase base) := by
  unfold Grammar.setBase at h
  cases he : g.element? id with
  | none =>
    rw [he] at h
    cases h
  | some e =>
    rw [he] at h
    cases hf : g.find? base with
    | none =>
      rw [hf] at h
      cases h
      rfl
    | some target =>
      rw [hf] at h
      dsimp only at h
      split at h
      · cases h
        rfl
      · cases h

theorem Built.addChildren {g g' : Grammar} {parent : ElementId} {elements : List Element}
    (hb : Built g) (h : g.addChildren parent elements = .ok g') : Built g' :=
  add_children_closed Built.addChild h hb

theorem Built.grown {g : Grammar} (hb : Built g) (parent : ElementId) (elements : List Element) :
    Built ((g.addChildren parent elements).toOption.getD g) := by
  rcases h : g.addChildren parent elements with fault | g'
  · exact hb
  · exact hb.addChildren h

/-- Every element stands in one place at most, and structures have children that exist. -/
structure Forest (g : Grammar) : Prop where
  nodup : ∀ id, (g.children id).Nodup
  apart : ∀ {id id' child}, child ∈ g.children id → child ∈ g.children id' → id = id'
  known : ∀ {id child}, child ∈ g.children id → child < g.size

theorem element_known {g : Grammar} {id : ElementId} {e : Element} (h : g.element? id = some e) :
    id < g.size := by
  obtain ⟨node,hn,-⟩ := Option.map_eq_some_iff.mp h
  exact (Array.getElem?_eq_some_iff.mp hn).1

section
variable (g : Grammar) (id : ElementId)

theorem children_outside (h : g.size ≤ id) : g.children id = [] := by
  simp only [children, Array.getElem?_eq_none h]

theorem element_outside (h : g.size ≤ id) : g.element id = .grammar "" := by
  rw [element, element?, Array.getElem?_eq_none h]
  rfl

@[simp] theorem size_push (e : Element) : (g.push e).size = g.size + 1 := by
  simp only [size, push, Array.size_push]

@[simp] theorem children_push (e : Element) : (g.push e).children id = g.children id := by
  by_cases h : id = g.size
  · subst h
    rw [children_outside g g.size (Nat.le_refl _)]
    simp only [children, push, size, Array.getElem?_push_size]
  · simp only [children, push, Array.getElem?_push, if_neg (show ¬id = g.nodes.size from h)]

theorem element_push {id : ElementId} (h : id < g.size) (e : Element) :
    (g.push e).element? id = g.element? id := by
  have hne : ¬id = g.nodes.size := Nat.ne_of_lt h
  simp only [element?, push, Array.getElem?_push, if_neg hne]

theorem element_of_push {id : ElementId} (h : id < g.size) (e : Element) :
    (g.push e).element id = g.element id := by
  rw [element, element, element_push g h]

theorem element_modify (f : Element → Element) (id' : ElementId) :
    (g.modify id f).element? id' =
      if id = id' then (g.element? id').map f else g.element? id' := by
  simp only [element?, modify, Array.getElem?_modify]
  split
  · cases g.nodes[id']? <;> rfl
  · rfl

theorem element_replace (e : Element) {id' : ElementId} (h : id ≠ id') :
    (g.replace id e).element? id' = g.element? id' := by
  simp only [element?, replace, Array.getElem?_modify, if_neg h]

@[simp] theorem size_modify (f : Element → Element) : (g.modify id f).size = g.size := by
  simp only [size, modify, Array.size_modify]

@[simp] theorem children_modify (f : Element → Element) (id' : ElementId) :
    (g.modify id f).children id' = g.children id' := by
  simp only [children, modify, Array.getElem?_modify]
  by_cases h : id = id'
  · rw [if_pos h]
    cases g.nodes[id']? <;> rfl
  · rw [if_neg h]

@[simp] theorem size_replace (e : Element) : (g.replace id e).size = g.size := by
  simp only [size, replace, Array.size_modify]

theorem children_replace (e : Element) (id' : ElementId) :
    (g.replace id e).children id' = if id = id' then [] else g.children id' := by
  simp only [children, replace, Array.getElem?_modify]
  by_cases h : id = id'
  · rw [if_pos h, if_pos h]
    cases g.nodes[id']? <;> rfl
  · rw [if_neg h, if_neg h]

end

section
variable {g g' : Grammar} {parent : ElementId} {e : Element}

theorem add_child_ok (h : g.addChild parent e = .ok g') :
    g'.size = g.size + 1 ∧ (∀ id < g.size, g'.element? id = g.element? id) ∧
      ∀ id, g'.children id = g.children id ++ if parent = id then [g.size] else [] := by
  unfold addChild at h
  cases hp : g.element? parent with
  | none =>
    rw [hp] at h
    cases h
  | some p =>
    rw [hp] at h
    dsimp only at h
    split at h
    · cases h
      have hlt := element_known hp
      refine ⟨?_,fun id hid => ?_,fun id => ?_⟩
      · simp only [size, push, Array.size_modify, Array.size_push]
      · rw [← element_push g hid e]
        simp only [element?, Array.getElem?_modify]
        split
        · cases (g.push e).nodes[id]? <;> rfl
        · rfl
      · by_cases hid : parent = id
        · subst hid
          have hne : ¬parent = g.nodes.size := Nat.ne_of_lt hlt
          simp only [children, push, Array.getElem?_modify, Array.getElem?_push, if_neg hne]
          rw [Array.getElem?_eq_getElem hlt]
          rfl
        · rw [if_neg hid, List.append_nil, ← children_push g id e]
          simp only [children, Array.getElem?_modify, if_neg hid]
    · cases h

theorem Forest.push (h : Forest g) (e : Element) : Forest (g.push e) where
  nodup := by
    intro id
    rw [children_push]
    exact h.nodup id
  apart := by
    intro id id' child hc hc'
    rw [children_push] at hc hc'
    exact h.apart hc hc'
  known := by
    intro id child hc
    rw [children_push] at hc
    rw [size_push]
    exact Nat.lt_succ_of_lt (h.known hc)

theorem Forest.add_child (h : Forest g) (ha : g.addChild parent e = .ok g') : Forest g' := by
  obtain ⟨hsize,-,hchildren⟩ := add_child_ok ha
  have hmem : ∀ {id child}, child ∈ g'.children id →
      child ∈ g.children id ∨ child = g.size ∧ parent = id := by
    intro id child hc
    rw [hchildren, List.mem_append] at hc
    refine hc.imp_right fun hc => ?_
    split at hc
    · next hp => exact ⟨List.mem_singleton.mp hc,hp⟩
    · cases hc
  refine ⟨fun id => ?_,?_,?_⟩
  · rw [hchildren]
    refine List.nodup_append.mpr ⟨h.nodup id,?_,fun child hc child' hc' => ?_⟩
    · split
      · exact List.nodup_cons.mpr ⟨List.not_mem_nil,List.nodup_nil⟩
      · exact List.nodup_nil
    · split at hc'
      · rw [List.mem_singleton.mp hc']
        exact Nat.ne_of_lt (h.known hc)
      · cases hc'
  · intro id id' child hc hc'
    rcases hmem hc with hc | ⟨rfl,rfl⟩ <;> rcases hmem hc' with hc' | ⟨hs,hp⟩
    · exact h.apart hc hc'
    · exact absurd hs (Nat.ne_of_lt (h.known hc))
    · exact absurd rfl (Nat.ne_of_lt (h.known hc'))
    · exact hp
  · intro id child hc
    rw [hsize]
    rcases hmem hc with hc | ⟨rfl,-⟩
    · exact Nat.lt_succ_of_lt (h.known hc)
    · exact Nat.lt_succ_self _

end

theorem Forest.pruned {g g' : Grammar} (h : Forest g) (hs : g.size = g'.size)
    (hc : ∀ id, g'.children id = g.children id ∨ g'.children id = []) : Forest g' := by
  have hmem : ∀ {id child}, child ∈ g'.children id → child ∈ g.children id := by
    intro id child hm
    rcases hc id with he | he <;> rw [he] at hm
    · exact hm
    · cases hm
  refine ⟨fun id => ?_,fun hm hm' => h.apart (hmem hm) (hmem hm'),
    fun hm => hs ▸ h.known (hmem hm)⟩
  rcases hc id with he | he <;> rw [he]
  · exact h.nodup id
  · exact List.nodup_nil

/-- What is put in the place of an element, be it the grammar's own, keeps the forest. -/
theorem Forest.replace {g : Grammar} (h : Forest g) (id : ElementId) (e : Element) :
    Forest (g.replace id e) := by
  refine h.pruned (size_replace _ _ _).symm fun other => ?_
  rw [children_replace]
  split
  · exact .inr rfl
  · exact .inl rfl

theorem new_children (name : String) (id : ElementId) : (new name).children id = [] := by
  cases id with
  | zero => rfl
  | succ id => exact children_outside _ _ (Nat.succ_le_succ (Nat.zero_le id))

theorem built_forest {g : Grammar} (h : Built g) : Forest g := by
  induction h with
  | new name =>
    refine ⟨fun id => ?_,?_,?_⟩
    · rw [new_children]
      exact List.nodup_nil
    · intro id id' child hc
      rw [new_children] at hc
      cases hc
    · intro id child hc
      rw [new_children] at hc
      cases hc
  | add e _ ih => exact (ih.push e).pruned rfl fun _ => .inl rfl
  | addChild added _ ih => exact ih.add_child added
  | setStart start _ ih => exact ih.pruned rfl fun _ => .inl rfl
  | modify _ _ ih =>
    exact ih.pruned (size_modify _ _ _).symm fun _ => .inl (children_modify _ _ _ _)
  | replace e _ _ ih => exact ih.replace _ e

theorem agrees_grammar {k : Kind} (h : k.agrees .grammar) : k = .grammar := by
  cases k with
  | grammar => rfl
  | _ => cases h

theorem built_root {g : Grammar} (h : Built g) :
    ∃ e, g.element? root = some e ∧ e.kind = .grammar := by
  induction h with
  | new name => exact ⟨.grammar name,rfl,rfl⟩
  | add e _ ih =>
    obtain ⟨own,ho,hk⟩ := ih
    exact ⟨own,(element_push _ (element_known ho) e).trans ho,hk⟩
  | addChild added _ ih =>
    obtain ⟨own,ho,hk⟩ := ih
    exact ⟨own,((add_child_ok added).2.1 root (element_known ho)).trans ho,hk⟩
  | setStart start _ ih => exact ih
  | @modify g id f keeps _ ih =>
    obtain ⟨own,ho,hk⟩ := ih
    rw [element_modify]
    by_cases hid : id = root
    · rw [if_pos hid, ho]
      have he : g.element id = own := by rw [hid, element, ho, Option.getD_some]
      rw [he, hk] at keeps
      exact ⟨f own,rfl,agrees_grammar keeps⟩
    · rw [if_neg hid]
      exact ⟨own,ho,hk⟩
  | replace e other _ ih =>
    obtain ⟨own,ho,hk⟩ := ih
    exact ⟨own,(element_replace _ _ e other).trans ho,hk⟩

theorem built_root_kind {g : Grammar} (h : Built g) :
    root < g.size ∧ (g.element root).kind = .grammar := by
  obtain ⟨own,ho,hk⟩ := built_root h
  refine ⟨element_known ho,?_⟩
  rw [element, ho]
  exact hk

end ByteGrammar.Grammar
