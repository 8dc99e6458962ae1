import ByteGrammar.Proofs.Resolved.Members
import ByteGrammar.Proofs.Resolved.Nesting

/-!
# What it takes to decode an element

An element can be decoded if its kind can, with the length, the structure or the script that the
kind calls for. In a grammar that only grew and that resolves, every element of the author's has
all of that, and so has every element that is decoded inside of it.
-/

set_option autoImplicit false

namespace ByteGrammar

def Resolved.runsScript (g : Resolved) (id : ElementId) : Bool :=
  match g.kind id with
  | .script _ | .scriptElement _ => true
  | .custom _ => (g.attributesOf id).target.isSome
  | _ => false

def Kind.isDecodable : Kind → Bool
  | .grammar | .padding => false
  | _ => true

def Kind.isPlain : Kind → Bool
  | .grammar | .padding | .scriptElement none => false
  | _ => true

/-- An element that has all it takes to be decoded. -/
structure Resolved.Ready (g : Resolved) (id : ElementId) : Prop where
  kind : (g.kind id).isDecodable
  length : g.needsLength id → (g.attributesOf id).length.isSome
  target : ∀ {link}, g.kind id = .structRef link → (g.attributesOf id).target.isSome
  script : g.runsScript id → (g.script? id).isSome

structure Resolved.ReadyAll (g : Resolved) (A : ElementId → Prop) : Prop where
  ready : ∀ {id}, A id → g.Ready id
  members : ∀ {id m}, A id → m ∈ g.membersOf id → A m
  target : ∀ {id link t}, A id → g.kind id = .structRef link →
    (g.attributesOf id).target = some t → A t

/-- The checks of some elements find nothing if each has the length that it needs, and no number
stands for two of them or for one seen before. -/
theorem Resolved.check_elements_nil {g : Resolved} {seen ids : List ElementId} :
    g.checkElements seen ids = [] ↔ (∀ id ∈ ids, g.lengthFaults id = []) ∧
      (∀ id ∈ ids, ∀ first ∈ seen, (g.element id).id ≠ 0 →
        (g.element first).id ≠ (g.element id).id) ∧
      ids.Pairwise fun first id => (g.element id).id ≠ 0 →
        (g.element first).id ≠ (g.element id).id := by
  induction ids generalizing seen with
  | nil => simp [checkElements]
  | cons id rest ih =>
    unfold checkElements
    dsimp only
    simp only [List.forall_mem_cons, List.pairwise_cons]
    by_cases hz : (g.element id).id = 0
    · rw [if_pos hz, List.append_eq_nil_iff, ih]
      constructor
      · rintro ⟨hid,hl,hs,hp⟩
        refine ⟨⟨hid,hl⟩,⟨fun _ _ h => absurd hz h,hs⟩,fun later _ hne heq => ?_,hp⟩
        exact hne (heq ▸ hz)
      · exact fun ⟨⟨hid,hl⟩,⟨_,hs⟩,_,hp⟩ => ⟨hid,hl,hs,hp⟩
    · rw [if_neg hz]
      cases hf : seen.find? fun first => (g.element first).id == (g.element id).id with
      | some first =>
        have hfirst := List.find?_some hf
        refine ⟨fun h => absurd h (List.cons_ne_nil _ _),fun ⟨_,⟨hseen,_⟩,_⟩ => ?_⟩
        exact absurd (beq_iff_eq.mp hfirst) (hseen first (List.mem_of_find?_eq_some hf) hz)
      | none =>
        have hnone : ∀ first ∈ seen, (g.element first).id ≠ (g.element id).id := by
          simpa using hf
        dsimp only
        rw [List.append_eq_nil_iff, ih]
        simp only [List.forall_mem_cons]
        constructor
        · rintro ⟨hid,hl,hs,hp⟩
          exact ⟨⟨hid,hl⟩,⟨fun first hfirst _ => hnone first hfirst,fun later hlater =>
            (hs later hlater).2⟩,fun later hlater => (hs later hlater).1,hp⟩
        · rintro ⟨⟨hid,hl⟩,⟨_,hs⟩,hlater,hp⟩
          exact ⟨hid,hl,fun later hm => ⟨hlater later hm,hs later hm⟩,hp⟩

theorem Resolved.length_faults_nil {g : Resolved} {id : ElementId} :
    g.lengthFaults id = [] ↔ (g.needsLength id → (g.attributesOf id).length.isSome) := by
  unfold lengthFaults
  cases hn : g.needsLength id <;> cases hl : (g.attributesOf id).length <;> simp

namespace Grammar

section
variable {authored : Grammar}

theorem link_element {id : Nat} (h : id < authored.size) :
    authored.link.1.element id = authored.element id := by
  rw [Resolved.element, link_grammar, element_of_push _ h]

theorem link_kind {id : Nat} (h : id < authored.size) :
    authored.link.1.kind id = (authored.element id).kind := by
  rw [Resolved.kind, link_element h]

/-- A structure or a script is one of the author's elements. -/
theorem added_of_kind (hb : authored.Built) {id : Nat}
    (hk : ((authored.push .padding).element id).kind.isStruct ∨
      ((authored.push .padding).element id).kind.isScript) : authored.Added id := by
  have hkind : ((authored.push .padding).element id).kind ≠ .grammar ∧
      ((authored.push .padding).element id).kind ≠ .padding := by
    constructor <;> intro h <;> rw [h] at hk <;> rcases hk with hk | hk <;> cases hk
  have hlt : id < authored.size + 1 := link_lt hkind.1
  have hlast : id ≠ authored.size := by
    rintro rfl
    rw [push_element_last] at hkind
    exact hkind.2 rfl
  have hroot : id ≠ root := by
    rintro rfl
    obtain ⟨hsize,hown⟩ := built_root_kind hb
    rw [element_of_push _ hsize] at hkind
    exact hkind.1 hown
  exact ⟨Nat.pos_of_ne_zero hroot,by omega⟩

theorem member_added (hb : authored.Built) {id member : Nat}
    (h : member ∈ authored.link.1.membersOf id) : authored.Added member := by
  rw [linked_members_of] at h
  obtain ⟨p,-,hp⟩ := mem_members_of _ h
  rw [children_push] at hp
  exact ⟨Nat.zero_lt_of_lt (built_before hb hp),(built_forest hb).known hp⟩

theorem script_of_holder {g : Resolved} {id t : ElementId} (h : g.scriptHolder? id = some t)
    (hk : (g.kind t).isScript) : (g.script? id).isSome := by
  rw [Resolved.script?, h]
  cases hkind : g.kind t with
  | script s => simp [hkind]
  | _ =>
    rw [hkind] at hk
    cases hk

theorem link_followed (hlink : authored.link.2 = []) {id : Nat} (hid : authored.Added id)
    {designator : Designator} {aim : Aim}
    (hl : (authored.element id).link? = some (designator,aim)) :
    ∃ t, (authored.link.1.attributesOf id).target = some t ∧
      aim.admits (authored.link.1.kind t) := by
  have hknown : id < authored.size + 1 := Nat.lt_succ_of_lt hid.2
  obtain ⟨-,-,-,-,htargets⟩ := (link_faults_nil authored).mp hlink
  rw [← element_of_push _ hid.2 .padding] at hl
  obtain ⟨t,ht⟩ := (target_faults_nil.mp (htargets id hknown)).2 designator aim hl
  exact ⟨t,(link_target_eq hknown).trans (target_followed hl ht),(follow_ok ht).2⟩

theorem link_script (hlink : authored.link.2 = []) {id : Nat} (hid : authored.Added id)
    (hplain : (authored.element id).kind.isPlain) (hruns : authored.link.1.runsScript id) :
    (authored.link.1.script? id).isSome := by
  cases hk : (authored.element id).kind with
  | script s =>
    have hself : authored.link.1.kind id = .script s := (link_kind hid.2).trans hk
    exact script_of_holder (t := id) (by simp [Resolved.scriptHolder?, hself]) (by rw [hself]; rfl)
  | scriptElement link =>
    cases link with
    | none =>
      rw [hk] at hplain
      cases hplain
    | some designator =>
      obtain ⟨t,ht,hscript⟩ := link_followed hlink hid (by simp only [Element.link?, hk]; rfl)
      refine script_of_holder (t := t) ?_ hscript
      simp only [Resolved.scriptHolder?, link_kind hid.2, hk, ht]
  | custom link =>
    have hkind : authored.link.1.kind id = .custom link := (link_kind hid.2).trans hk
    simp only [Resolved.runsScript, hkind] at hruns
    obtain ⟨t,ht⟩ := Option.isSome_iff_exists.mp hruns
    obtain ⟨designator,aim,hl,hfollowed⟩ := target_ok (link_target ht)
    rw [element_of_push _ hid.2] at hl
    obtain ⟨rfl⟩ : aim = .script := by
      simp only [Element.link?, hk, Option.map_eq_some_iff, Prod.mk.injEq] at hl
      obtain ⟨-,-,-,haim⟩ := hl
      exact haim.symm
    refine script_of_holder (t := t) ?_ (follow_ok hfollowed).2
    simp only [Resolved.scriptHolder?, hkind, ht]
  | _ => simp [Resolved.runsScript, link_kind hid.2, hk] at hruns

theorem plain_decodable {k : Kind} (h : k.isPlain) : k.isDecodable := by
  cases k <;> first | rfl | cases h

/-- In a grammar that only grew and that resolves, the author's elements can be decoded, and
decoding them leads to none but the author's elements. -/
theorem resolve_ready (hgrown : authored.Grown) {g : Resolved}
    (hplain : ∀ id, authored.Added id → (authored.element id).kind.isPlain)
    (h : authored.resolve = .ok g) : g.ReadyAll authored.Added := by
  obtain ⟨rfl,hlink,hcheck⟩ := resolve_ok h
  have hrooted := grown_rooted hgrown
  have hbuilt := hgrown.built
  constructor
  · intro id hid
    constructor
    · rw [link_kind hid.2]
      exact plain_decodable (hplain id hid)
    · refine Resolved.length_faults_nil.mp ((Resolved.check_elements_nil.mp hcheck).1 id ?_)
      exact ((hrooted.walk (built_forest hbuilt) .padding).1 id).mpr hid
    · intro link hk
      rw [link_kind hid.2] at hk
      obtain ⟨t,ht,-⟩ := link_followed hlink hid (by simp only [Element.link?, hk]; rfl)
      rw [ht]
      rfl
    · exact link_script hlink hid (hplain id hid)
  · exact fun _ hm => member_added hbuilt hm
  · intro id link t hid hk ht
    exact added_of_kind hbuilt (.inl ((link_linked authored).target hk ht))

end

end Grammar
end ByteGrammar
