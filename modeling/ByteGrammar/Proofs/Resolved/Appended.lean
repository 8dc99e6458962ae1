import Mathlib.Data.List.Find
import ByteGrammar.Proofs.Resolved.WellFormed

/-!
# Grammars with one more element

What is added behind all other elements takes nothing away from them. A reference finds what it
found before, and comes upon the new element only where it found nothing. Links are followed to the
same targets, unless the new element is of the kind that is asked for.
-/

set_option autoImplicit false

namespace ByteGrammar.Grammar

structure Appends (g g' : Grammar) (e : Element) : Prop where
  size : g'.size = g.size + 1
  before : ∀ {id : Nat}, id < g.size → g'.element id = g.element id
  last : g'.element g.size = e
  top : g'.topLevel = g.topLevel

def asksFor (g : Grammar) (e : Element) : Designator → Bool
  | .index n => n == g.size
  | .id n => n != 0 && (e.id == n && !e.kind.agrees .grammar)
  | .name name => g.size != root && e.name == name

section
variable {g g' : Grammar} {e : Element}

theorem push_appends (g : Grammar) (e : Element) : g.Appends (g.push e) e :=
  ⟨size_push g e,fun hid => element_of_push g hid e,push_element_last g e,rfl⟩

theorem add_child_appends {parent : ElementId} (h : g.addChild parent e = .ok g') :
    g.Appends g' e := by
  obtain ⟨hsize,hbefore,-⟩ := add_child_ok h
  refine ⟨hsize,fun hid => ?_,?_,(add_child_parent h).2⟩
  · rw [element, hbefore _ hid]
    rfl
  · unfold addChild at h
    cases hp : g.element? parent with
    | none =>
      rw [hp] at h
      cases h
    | some p =>
      rw [hp] at h
      dsimp only at h
      split at h
      · cases h
        have hne : parent ≠ g.size := Nat.ne_of_lt (element_known hp)
        refine Eq.trans ?_ (push_element_last g e)
        simp only [element, element?, Array.getElem?_modify, if_neg hne]
      · cases h

section
variable (hx : g.Appends g' e)

include hx

theorem Appends.outside {id : Nat} (hid : g.size < id) : g'.element id = g.element id := by
  rw [element_outside g' id (hx.size ▸ hid), element_outside g id (Nat.le_of_lt hid)]

theorem Appends.find_range {p q : ElementId → Bool} (h : ∀ id < g.size, p id = q id) :
    (List.range g'.size).find? p =
      ((List.range g.size).find? q).or (if p g.size then some g.size else none) := by
  have hsame : (List.range g.size).find? p = (List.range g.size).find? q :=
    List.find?_congr fun id hid => h id (List.mem_range.mp hid)
  rw [hx.size, List.range_succ, List.find?_append, hsame]
  cases hp : p g.size <;> simp [hp]

variable (htop : ∀ {id : Nat}, id ∈ g.topLevel → id < g.size)

include htop

theorem Appends.find_top {p q : ElementId → Bool} (h : ∀ id < g.size, p id = q id) :
    g'.topLevel.find? p = g.topLevel.find? q := by
  rw [hx.top]
  exact List.find?_congr fun id hid => h id (htop hid)

theorem Appends.find (r : Designator) :
    g'.find? r = (g.find? r).or (if g.asksFor e r then some g.size else none) := by
  cases r with
  | index n =>
    simp only [find?, asksFor, hx.size, beq_iff_eq]
    rcases Nat.lt_trichotomy n g.size with hlt | rfl | hgt
    · simp [hlt, Nat.lt_succ_of_lt hlt]
    · simp
    · simp [Nat.lt_asymm hgt, Nat.ne_of_gt hgt, Nat.not_lt_of_le (Nat.succ_le_of_lt hgt)]
  | id n =>
    by_cases hn : n = 0
    · simp [find?, hn, asksFor]
    · simp only [find?, if_neg hn]
      rw [hx.find_range fun id hid => by rw [hx.before hid], hx.last]
      simp [asksFor, hn]
  | name name =>
    simp only [find?]
    rw [hx.find_top htop fun id hid => by rw [hx.before hid],
      hx.find_range fun id hid => by rw [hx.before hid], hx.last, ← Option.or_assoc]
    rfl

theorem Appends.find_of_found {r : Designator} {t : ElementId} (h : g.find? r = some t) :
    g'.find? r = some t := by
  rw [hx.find htop, h]
  rfl

theorem Appends.found_anew {r : Designator} {t : ElementId} (hnone : g.find? r = none)
    (h : g'.find? r = some t) : t = g.size := by
  rw [hx.find htop, hnone, Option.none_or] at h
  split at h <;> cases h
  rfl

end

theorem follow_name {id t : ElementId} {aim : Aim} {name : String} :
    g.follow id aim (.name name) = .ok t ↔
      (g.topLevel.find? (g.isWanted id aim name)).or
        ((List.range g.size).find? (g.isWanted id aim name)) = some t := by
  have hadmits : ∀ {t}, g.isWanted id aim name t → aim.admits (g.element t).kind := by
    intro t ht
    simp only [isWanted, Bool.and_eq_true] at ht
    exact ht.2
  constructor
  · intro h
    obtain ⟨hfound,hkind⟩ := follow_ok h
    rw [findTarget?, ← Option.or_assoc] at hfound
    rcases Option.or_eq_some_iff.mp hfound with hwanted | ⟨hnone,hrest⟩
    · exact hwanted
    · -- whatever else has the name would have been wanted
      exfalso
      obtain ⟨hnamed,hother⟩ := Option.filter_eq_some_iff.mp hrest
      obtain ⟨htop,hany⟩ := Option.or_eq_none_iff.mp hnone
      have hwanted : (g.element t).name == name → g.isWanted id aim name t := by
        intro hname
        rw [isWanted, hother, hname, hkind]
        rfl
      rw [find?, Option.or_eq_some_iff] at hnamed
      rcases hnamed with hnamed | ⟨-,hnamed⟩
      · have hname := List.find?_some hnamed
        exact List.find?_eq_none.mp htop t (List.mem_of_find?_eq_some hnamed) (hwanted hname)
      · have hname := List.find?_some hnamed
        rw [Bool.and_eq_true] at hname
        exact List.find?_eq_none.mp hany t (List.mem_of_find?_eq_some hnamed) (hwanted hname.2)
  · intro h
    have hkind : aim.admits (g.element t).kind := by
      rcases Option.or_eq_some_iff.mp h with h | ⟨-,h⟩
      · exact hadmits (List.find?_some h)
      · exact hadmits (List.find?_some h)
    rw [follow, findTarget?, ← Option.or_assoc, h]
    exact if_pos hkind

theorem follow_found {id t : ElementId} {aim : Aim} {r : Designator}
    (hr : ∀ name, r ≠ .name name) :
    g.follow id aim r = .ok t ↔ g.find? r = some t ∧ aim.admits (g.element t).kind := by
  have hfind : g.findTarget? id aim r = g.find? r := by
    cases r with
    | name name => exact absurd rfl (hr name)
    | _ => rfl
  constructor
  · intro h
    rw [← hfind]
    exact follow_ok h
  · rintro ⟨hfound,hkind⟩
    rw [follow, hfind, hfound]
    exact if_pos hkind

/-- Links are followed as before, if they do not ask for elements of the new one's kind. -/
theorem Appends.follow (hx : g.Appends g' e) (hg : g.Contained) {id t : ElementId} {aim : Aim}
    (he : aim.admits e.kind = false) (r : Designator) :
    g'.follow id aim r = .ok t ↔ g.follow id aim r = .ok t := by
  by_cases hr : ∀ name, r ≠ .name name
  · rw [follow_found hr, follow_found hr]
    constructor
    · rintro ⟨hfound,hkind⟩
      cases hold : g.find? r with
      | none =>
        obtain rfl := hx.found_anew hg.top hold hfound
        rw [hx.last, he] at hkind
        cases hkind
      | some t' =>
        cases hfound.symm.trans (hx.find_of_found hg.top hold)
        exact ⟨rfl,by rwa [← hx.before (hg.find_lt hold)]⟩
    · rintro ⟨hfound,hkind⟩
      exact ⟨hx.find_of_found hg.top hfound,by rwa [hx.before (hg.find_lt hfound)]⟩
  · obtain ⟨name,rfl⟩ := not_forall_not.mp hr
    have hsame : ∀ i < g.size, g'.isWanted id aim name i = g.isWanted id aim name i := by
      intro i hi
      simp only [isWanted, hx.before hi]
    have hnew : g'.isWanted id aim name g.size = false := by simp [isWanted, hx.last, he]
    rw [follow_name, follow_name, hx.find_top hg.top hsame, hx.find_range hsame, hnew]
    simp

theorem Appends.target (hx : g.Appends g' e) (hg : g.Contained)
    (he : ∀ aim : Aim, aim.admits e.kind = false) {id : Nat} (hid : id ≠ g.size) :
    g'.target? id = g.target? id := by
  have helement : g'.element id = g.element id := by
    rcases Nat.lt_or_gt_of_ne hid with hlt | hgt
    · exact hx.before hlt
    · exact hx.outside hgt
  ext t
  constructor
  · intro h
    obtain ⟨r,aim,hlink,hfollow⟩ := target_ok h
    exact target_followed (helement ▸ hlink) ((hx.follow hg (he aim) r).mp hfollow)
  · intro h
    obtain ⟨r,aim,hlink,hfollow⟩ := target_ok h
    exact target_followed (helement.symm ▸ hlink) ((hx.follow hg (he aim) r).mpr hfollow)

end

end ByteGrammar.Grammar
