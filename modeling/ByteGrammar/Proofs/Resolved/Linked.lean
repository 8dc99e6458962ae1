import ByteGrammar.Proofs.Grammar.Built
import ByteGrammar.Resolved.Resolve

/-!
# What a resolved grammar can be relied on for

The padding element exists and lies behind those of the author, and a reference that has a target
stands for a structure.
-/

set_option autoImplicit false

namespace ByteGrammar

structure Resolved.Linked (g : Resolved) : Prop where
  root : (g.element? Grammar.root).isSome
  padding : g.kind g.padding = .padding
  target : ∀ {id link t}, g.kind id = .structRef link → (g.attributesOf id).target = some t →
    (g.kind t).isStruct

theorem Resolved.known_of_kind {g : Resolved} {id : ElementId} (h : g.kind id ≠ .grammar) :
    (g.element? id).isSome := by
  cases he : g.element? id with
  | some e => rfl
  | none =>
    simp only [Resolved.element?] at he
    exact absurd (by simp [Resolved.kind, Resolved.element, Grammar.element, he,
      Element.grammar]) h

namespace Grammar

theorem resolve_ok {authored : Grammar} {g : Resolved} (h : authored.resolve = .ok g) :
    g = authored.link.1 ∧ authored.link.2 = [] ∧ g.check = [] := by
  unfold resolve at h
  dsimp only at h
  split at h
  · next hf =>
    cases h
    obtain ⟨hl,hc⟩ := List.append_eq_nil_iff.mp hf
    exact ⟨rfl,hl,hc⟩
  · cases h

theorem resolve_sound {authored : Grammar}
    (h : (authored.link.2 ++ authored.link.1.check).isEmpty) :
    authored.resolve = .ok authored.link.1 := by
  unfold resolve
  dsimp only
  rw [List.isEmpty_iff.mp h]

theorem link_grammar (authored : Grammar) :
    authored.link.1.grammar = authored.push .padding := rfl

theorem link_padding (authored : Grammar) : authored.link.1.padding = authored.size := rfl

theorem link_lt {authored : Grammar} {id : Nat} (h : authored.link.1.kind id ≠ .grammar) :
    id < authored.size + 1 := by
  obtain ⟨e,he⟩ := Option.isSome_iff_exists.mp (Resolved.known_of_kind h)
  exact Nat.lt_of_lt_of_eq (element_known he) (size_push _ _)

theorem push_element_last (g : Grammar) (e : Element) : (g.push e).element g.size = e := by
  simp [element, element?, push, size]

theorem complete_reference_target (g : Grammar) (attributes : Array Attributes) (id : ElementId)
    (a : Attributes) : (g.completeReference attributes id a).target = a.target := by
  unfold completeReference
  split <;> rfl

theorem complete_reference_placed (g : Grammar) (attributes : Array Attributes) (id : ElementId)
    (a : Attributes) : (g.completeReference attributes id a).parent = a.parent ∧
      (g.completeReference attributes id a).base = a.base := by
  unfold completeReference
  split <;> exact ⟨rfl,rfl⟩

theorem complete_reference_other (g : Grammar) (attributes : Array Attributes) (a : Attributes)
    {id : ElementId} (h : (∀ link, (g.element id).kind ≠ .structRef link) ∨ a.length ≠ none) :
    g.completeReference attributes id a = a := by
  unfold completeReference
  split
  · next hk _ hlength => exact h.elim (fun h => absurd hk (h _)) (absurd hlength)
  · rfl

theorem table_get {α : Type} (f : Nat → α) {n i : Nat} (h : i < n) :
    ((List.range n).map f).toArray[i]? = some (f i) := by
  rw [List.getElem?_toArray, List.getElem?_map, List.getElem?_range h]
  rfl

theorem map_m_length {σ α β : Type} (f : α → StateM σ β) (xs : List α) (s : σ) :
    (xs.mapM f s).1.length = xs.length := by
  induction xs generalizing s with
  | nil => rfl
  | cons x rest ih =>
    rw [List.mapM_cons]
    exact congrArg Nat.succ (ih (f x s).2)

theorem links_attributes_length (l : Links) : l.attributes.length = l.grammar.size := by
  have h := map_m_length (fun id => l.attributesOf (l.grammar.size + 1) id)
    (List.range l.grammar.size) (Array.replicate l.grammar.size .pending)
  rwa [List.length_range] at h

def baseSearch (authored : Grammar) : BaseSearch :=
  let g := authored.push .padding
  let ids := List.range g.size
  BaseSearch.run g (ids.map g.parent?).toArray (ids.map g.statedBase?).toArray

def linkedBases (authored : Grammar) : Array (Option ElementId) := authored.baseSearch.bases

def links (authored : Grammar) : Links :=
  let g := authored.push .padding
  ⟨g,((List.range g.size).map g.parent?).toArray,authored.linkedBases⟩

def targeted (authored : Grammar) : List Attributes :=
  let g := authored.push .padding
  (authored.links.attributes.zip (List.range g.size)).map fun (a, id) =>
    { a with target := g.target? id }

theorem links_known {authored : Grammar} {id : Nat} (h : id < authored.size + 1) :
    ∃ a, authored.links.attributes[id]? = some a := by
  refine ⟨_,List.getElem?_eq_getElem ?_⟩
  rw [links_attributes_length]
  exact Nat.lt_of_lt_of_eq h (size_push authored .padding).symm

theorem targeted_get {authored : Grammar} {id : Nat} {a : Attributes}
    (h : authored.links.attributes[id]? = some a) :
    authored.targeted[id]? = some { a with target := (authored.push .padding).target? id } := by
  have hlt := (List.getElem?_eq_some_iff.mp h).1
  rw [links_attributes_length] at hlt
  have hzip : (authored.links.attributes.zip (List.range (authored.push .padding).size))[id]? =
      some (a,id) := List.getElem?_zip_eq_some.mpr ⟨h,List.getElem?_range hlt⟩
  rw [targeted, List.getElem?_map, hzip]
  rfl

theorem link_attributes {authored : Grammar} {id : Nat} {a : Attributes}
    (h : authored.links.attributes[id]? = some a) :
    authored.link.1.attributesOf id =
      (authored.push .padding).completeReference authored.targeted.toArray id
        { a with target := (authored.push .padding).target? id } := by
  have hlt := (List.getElem?_eq_some_iff.mp h).1
  rw [links_attributes_length] at hlt
  have hzip : (authored.targeted.zip (List.range (authored.push .padding).size))[id]? =
      some ({ a with target := (authored.push .padding).target? id },id) :=
    List.getElem?_zip_eq_some.mpr ⟨targeted_get h,List.getElem?_range hlt⟩
  have hall : authored.link.1.attributes =
      ((authored.targeted.zip (List.range (authored.push .padding).size)).map fun (a, id) =>
        (authored.push .padding).completeReference authored.targeted.toArray id a).toArray := rfl
  rw [Resolved.attributesOf, hall, Array.getD_eq_getD_getElem?, List.getElem?_toArray,
    List.getElem?_map, hzip]
  rfl

theorem link_attributes_outside {authored : Grammar} {id : Nat} (h : authored.size + 1 ≤ id) :
    authored.link.1.attributesOf id = default := by
  have hsize : authored.link.1.attributes.size = authored.size + 1 := by
    simp [link, links_attributes_length, size_push]
  rw [Resolved.attributesOf, Array.getD_eq_getD_getElem?,
    Array.getElem?_eq_none (by rw [hsize]; exact h)]
  rfl

theorem link_target_eq {authored : Grammar} {id : Nat} (h : id < authored.size + 1) :
    (authored.link.1.attributesOf id).target = (authored.push .padding).target? id := by
  obtain ⟨a,ha⟩ := links_known h
  rw [link_attributes ha, complete_reference_target]

theorem link_target {authored : Grammar} {id t : Nat}
    (h : (authored.link.1.attributesOf id).target = some t) :
    (authored.push .padding).target? id = some t := by
  rcases Nat.lt_or_ge id (authored.size + 1) with hid | hid
  · exact (link_target_eq hid).symm.trans h
  · rw [link_attributes_outside hid] at h
    cases h

theorem follow_ok {g : Grammar} {id t : ElementId} {aim : Aim} {designator : Designator}
    (h : g.follow id aim designator = .ok t) :
    g.findTarget? id aim designator = some t ∧ aim.admits (g.element t).kind := by
  unfold follow at h
  split at h
  · cases h
  · next found hfound =>
    split at h
    · next hadmits =>
      cases h
      exact ⟨hfound,hadmits⟩
    · cases h

theorem target_ok {g : Grammar} {id t : ElementId} (h : g.target? id = some t) :
    ∃ designator aim, (g.element id).link? = some (designator,aim) ∧
      g.follow id aim designator = .ok t := by
  unfold target? at h
  split at h
  · cases h
  · next designator aim hlink =>
    cases hfollow : g.follow id aim designator with
    | error fault =>
      rw [hfollow] at h
      cases h
    | ok found =>
      rw [hfollow] at h
      cases h
      exact ⟨designator,aim,hlink,hfollow⟩

theorem target_followed {g : Grammar} {id t : ElementId} {designator : Designator} {aim : Aim}
    (hlink : (g.element id).link? = some (designator,aim))
    (hfollow : g.follow id aim designator = .ok t) : g.target? id = some t := by
  simp only [target?, hlink, hfollow, Except.toOption]

theorem missing_anchors_nil (g : Grammar) (label : String) (anchors : List Designator) :
    (anchors.filterMap fun anchor =>
      match g.find? anchor with
      | none => some (GrammarFault.unresolved label anchor.toText)
      | some _ => none) = [] ↔ ∀ anchor ∈ anchors, (g.find? anchor).isSome := by
  rw [List.filterMap_eq_nil_iff]
  refine forall₂_congr fun anchor _ => ?_
  cases g.find? anchor <;> simp

/-- The references of an element are without fault if they lead to something, and its link to
what it asks for. -/
theorem target_faults_nil {g : Grammar} {id : ElementId} :
    g.targetFaults id = [] ↔
      (∀ anchor ∈ (g.element id).anchors, (g.find? anchor).isSome) ∧
        ∀ designator aim, (g.element id).link? = some (designator,aim) →
          ∃ t, g.follow id aim designator = .ok t := by
  unfold targetFaults
  dsimp only
  rw [← missing_anchors_nil g (g.label id)]
  split
  · next hlink =>
    refine ⟨fun h => ⟨h,fun d a heq => ?_⟩,fun h => h.1⟩
    cases hlink.symm.trans heq
  · next designator aim hlink =>
    cases hfollow : g.follow id aim designator with
    | ok t =>
      refine ⟨fun h => ⟨h,fun d a heq => ?_⟩,fun h => h.1⟩
      cases hlink.symm.trans heq
      exact ⟨t,hfollow⟩
    | error fault =>
      refine ⟨fun h => absurd (List.append_eq_nil_iff.mp h).2 (List.cons_ne_nil _ _),fun h => ?_⟩
      obtain ⟨t,ht⟩ := h.2 designator aim hlink
      cases hfollow.symm.trans ht

theorem link_faults_eq (authored : Grammar) :
    authored.link.2 = (authored.push .padding).statedBaseFaults ++
      (match (authored.push .padding).startPlace with
        | .ok _ => []
        | .error fault => [fault]) ++ authored.baseSearch.faults.toList ++
      (authored.push .padding).cycleFaults authored.linkedBases ++
      (List.range (authored.push .padding).size).flatMap
        (authored.push .padding).targetFaults := rfl

theorem link_faults_nil (authored : Grammar) :
    authored.link.2 = [] ↔
      (authored.push .padding).statedBaseFaults = [] ∧
        (∃ id, (authored.push .padding).startPlace = .ok id) ∧
        authored.baseSearch.faults = #[] ∧
        (authored.push .padding).cycleFaults authored.linkedBases = [] ∧
        ∀ id : Nat, id < authored.size + 1 → (authored.push .padding).targetFaults id = [] := by
  rw [link_faults_eq]
  simp only [List.append_eq_nil_iff, List.flatMap_eq_nil_iff, List.mem_range, size_push,
    Array.toList_eq_nil_iff, and_assoc]
  cases (authored.push .padding).startPlace <;> simp

theorem target_is_struct {g : Grammar} {id t : ElementId} {link : Option Designator}
    (hk : (g.element id).kind = .structRef link) (h : g.target? id = some t) :
    (g.element t).kind.isStruct := by
  obtain ⟨designator,aim,hlink,hfollow⟩ := target_ok h
  simp only [Element.link?, hk, Option.some.injEq, Prod.mk.injEq] at hlink
  obtain ⟨-,rfl⟩ := hlink
  exact (follow_ok hfollow).2

theorem link_linked (authored : Grammar) : authored.link.1.Linked where
  root := by
    simp [Resolved.element?, link_grammar, element?, root, push]
  padding := by
    rw [Resolved.kind, Resolved.element, link_grammar, link_padding, push_element_last]
    rfl
  target := fun hk h => target_is_struct hk (link_target h)

/-- Every grammar that resolves is linked. -/
theorem resolve_linked {authored : Grammar} {g : Resolved} (h : authored.resolve = .ok g) :
    g.Linked := by
  rw [(resolve_ok h).1]
  exact link_linked authored

end Grammar
end ByteGrammar
