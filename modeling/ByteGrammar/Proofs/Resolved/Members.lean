import ByteGrammar.Proofs.Grammar.Built
import ByteGrammar.Proofs.Resolved.Bases
import ByteGrammar.Proofs.Resolved.Linked

/-!
# The members of structures

Every member of a structure is a child of the structure itself or of one of its bases. As no
element stands in two places and no structure is its own base, none of them is a member twice.
-/

set_option autoImplicit false

namespace ByteGrammar

namespace Grammar

section
variable (g : Grammar)

theorem mem_place_member {child x : ElementId} {members : List ElementId}
    (h : x ∈ g.placeMember child members) : x = child ∨ x ∈ members := by
  induction members with
  | nil => exact .inl (List.mem_singleton.mp h)
  | cons m rest ih =>
    rw [placeMember] at h
    split at h
    · rcases List.mem_cons.mp h with rfl | hx
      · exact .inl rfl
      · exact .inr (List.mem_cons_of_mem m hx)
    · rcases List.mem_cons.mp h with rfl | hx
      · exact .inr List.mem_cons_self
      · exact (ih hx).imp_right (List.mem_cons_of_mem m)

theorem place_member_nodup {child : ElementId} {members : List ElementId}
    (h : members.Nodup) (hc : child ∉ members) : (g.placeMember child members).Nodup := by
  induction members with
  | nil => exact List.nodup_cons.mpr ⟨List.not_mem_nil,List.nodup_nil⟩
  | cons m rest ih =>
    obtain ⟨hm,hrest⟩ := List.nodup_cons.mp h
    obtain ⟨hne,hc⟩ := not_or.mp (mt List.mem_cons.mpr hc)
    rw [placeMember]
    split
    · exact List.nodup_cons.mpr ⟨hc,hrest⟩
    · refine List.nodup_cons.mpr ⟨fun hx => ?_,ih hrest hc⟩
      exact (g.mem_place_member hx).elim (fun he => hne he.symm) hm

theorem mem_merge_members {x : ElementId} {inherited own : List ElementId}
    (h : x ∈ g.mergeMembers inherited own) : x ∈ inherited ∨ x ∈ own := by
  induction own generalizing inherited with
  | nil => exact .inl h
  | cons child rest ih =>
    rcases ih h with hx | hx
    · rcases g.mem_place_member hx with rfl | hx
      · exact .inr List.mem_cons_self
      · exact .inl hx
    · exact .inr (List.mem_cons_of_mem child hx)

theorem merge_members_nodup {inherited own : List ElementId} (hi : inherited.Nodup)
    (ho : own.Nodup) (h : ∀ child ∈ own, child ∉ inherited) :
    (g.mergeMembers inherited own).Nodup := by
  induction own generalizing inherited with
  | nil => exact hi
  | cons child rest ih =>
    obtain ⟨hchild,hrest⟩ := List.nodup_cons.mp ho
    refine ih (g.place_member_nodup hi (h child List.mem_cons_self)) hrest fun x hx hmem => ?_
    rcases g.mem_place_member hmem with rfl | hmem
    · exact hchild hx
    · exact h x (List.mem_cons_of_mem child hx) hmem

variable {bases : Array (Option ElementId)}

/-- Every member is a child of the structure or of one of its bases. -/
theorem mem_members_of {steps : Nat} {id x : ElementId} (h : x ∈ g.membersOf bases steps id) :
    ∃ s ∈ id :: baseChain bases steps id, x ∈ g.children s := by
  induction steps generalizing id with
  | zero => exact ⟨id,List.mem_cons_self,h⟩
  | succ steps ih =>
    rw [membersOf] at h
    cases hb : bases[id]?.join with
    | none =>
      rw [hb] at h
      exact ⟨id,List.mem_cons_self,h⟩
    | some base =>
      rw [hb] at h
      rw [baseChain, hb]
      rcases g.mem_merge_members h with hx | hx
      · obtain ⟨s,hs,hx⟩ := ih hx
        exact ⟨s,List.mem_cons_of_mem id hs,hx⟩
      · exact ⟨id,List.mem_cons_self,hx⟩

theorem own_not_inherited (hf : g.Forest) (hb : Acyclic bases) {id base child : ElementId}
    (h : bases[id]?.join = some base) (hown : child ∈ g.children id) (steps : Nat) :
    child ∉ g.membersOf bases steps base := by
  intro hinherited
  obtain ⟨s,hs,hchild⟩ := g.mem_members_of hinherited
  obtain rfl := hf.apart hown hchild
  refine hb id (steps + 1) ?_
  rw [baseChain, h]
  exact hs

theorem members_of_nodup (hf : g.Forest) (hb : Acyclic bases) (steps : Nat) (id : ElementId) :
    (g.membersOf bases steps id).Nodup := by
  induction steps generalizing id with
  | zero => exact hf.nodup id
  | succ steps ih =>
    rw [membersOf]
    cases h : bases[id]?.join with
    | none => exact hf.nodup id
    | some base =>
      exact g.merge_members_nodup (ih base) (hf.nodup id)
        fun child hown => g.own_not_inherited hf hb h hown steps

end

theorem linked_members_of (authored : Grammar) (id : ElementId) :
    authored.link.1.membersOf id =
      (authored.push .padding).membersOf authored.linkedBases (authored.push .padding).size id := by
  rw [Resolved.membersOf, Array.getD_eq_getD_getElem?]
  simp only [link, List.getElem?_toArray, List.getElem?_map]
  by_cases hid : id < (authored.push .padding).size
  · rw [List.getElem?_range hid]
    rfl
  · have hnone : authored.linkedBases[id]?.join = none := by
      rw [Array.getElem?_eq_none]
      · rfl
      · rw [linkedBases, baseSearch, BaseSearch.bases_size]
        exact Nat.le_of_not_lt hid
    rw [List.getElem?_eq_none (by simpa using hid), size_push, membersOf, hnone]
    exact (children_outside _ _ (Nat.le_of_not_lt hid)).symm

theorem linked_acyclic {authored : Grammar} (h : authored.link.2 = []) :
    Acyclic authored.linkedBases := by
  obtain ⟨-,-,-,hcycles,-⟩ := (link_faults_nil authored).mp h
  exact no_cycles (BaseSearch.bases_size _ _ _) hcycles

end Grammar

structure Resolved.Assembled (g : Resolved) : Prop where
  nodup : ∀ id, (g.membersOf id).Nodup
  padding : ∀ id, g.padding ∉ g.membersOf id
  root : g.kind Grammar.root = .grammar

/-- Where every element stands in one place, no element is a member of a structure twice, and the
padding is none. -/
theorem Grammar.resolve_distinct {authored : Grammar} {g : Resolved} (hf : authored.Forest)
    (h : authored.resolve = .ok g) (id : ElementId) :
    (g.membersOf id).Nodup ∧ g.padding ∉ g.membersOf id := by
  obtain ⟨rfl,hlink,-⟩ := resolve_ok h
  constructor
  · rw [linked_members_of]
    exact members_of_nodup _ (hf.push .padding) (linked_acyclic hlink) _ id
  · intro hid
    rw [linked_members_of] at hid
    obtain ⟨s,-,hs⟩ := mem_members_of _ hid
    rw [children_push] at hs
    exact absurd (hf.known hs) (Nat.lt_irrefl _)

/-- In a grammar that was built and resolves, every element is a member of a structure once at
most, and the padding is none. -/
theorem Grammar.resolve_assembled {authored : Grammar} {g : Resolved} (hb : authored.Built)
    (h : authored.resolve = .ok g) : g.Assembled := by
  have hdistinct := resolve_distinct (built_forest hb) h
  refine ⟨fun id => (hdistinct id).1,fun id => (hdistinct id).2,?_⟩
  obtain ⟨rfl,-,-⟩ := resolve_ok h
  obtain ⟨hsize,hk⟩ := built_root_kind hb
  rw [Resolved.kind, Resolved.element, link_grammar, element_of_push _ hsize]
  exact hk

theorem Grammar.members_length_le {authored : Grammar} {g : Resolved} (hf : authored.Forest)
    (h : authored.resolve = .ok g) (id : ElementId) :
    (g.membersOf id).length ≤ authored.size := by
  have hnodup := (resolve_distinct hf h id).1
  obtain ⟨rfl,-,-⟩ := resolve_ok h
  have hknown : authored.link.1.membersOf id ⊆ List.range authored.size := by
    intro x hx
    rw [linked_members_of] at hx
    obtain ⟨s,-,hs⟩ := mem_members_of _ hx
    rw [children_push] at hs
    exact List.mem_range.mpr (hf.known hs)
  simpa using (List.subperm_of_subset hnodup hknown).length_le

end ByteGrammar
