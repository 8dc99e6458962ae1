import ByteGrammar.Proofs.Resolved.Appended
import ByteGrammar.Proofs.Resolved.Dangling
import ByteGrammar.Proofs.Resolved.Nesting

/-!
# Bases beside a new child

A structure takes one more child, which comes behind all elements of the author's, so that the
padding moves up by one. If nothing has the child's name, the search for bases goes the same way as
before: every other element extends what it extended, and the child extends nothing.
-/

set_option autoImplicit false

namespace ByteGrammar

def shifted (n id : Nat) : Nat := if id < n then id else id + 1

section
variable {n id i : Nat}

theorem shifted_before (h : id < n) : shifted n id = id := if_pos h

theorem shifted_behind (h : n ≤ id) : shifted n id = id + 1 := if_neg (Nat.not_lt_of_le h)

theorem shifted_ne (n id : Nat) : shifted n id ≠ n := by
  unfold shifted
  split <;> omega

theorem shifted_inj : shifted n id = shifted n i ↔ id = i := by
  unfold shifted
  split <;> split <;> omega

theorem exists_shifted (h : i ≠ n) : ∃ id, shifted n id = i := by
  rcases Nat.lt_or_gt_of_ne h with hlt | hgt
  · exact ⟨i,shifted_before hlt⟩
  · exact ⟨i - 1,by rw [shifted_behind (by omega)]; omega⟩

end

namespace Grammar

def Sought.shifted (n : Nat) : Sought → Sought
  | .base id => .base (ByteGrammar.shifted n id)
  | .child name place => .child name (ByteGrammar.shifted n place)

def Sought.passes (name : String) : Sought → Prop
  | .base _ => True
  | .child other _ => other ≠ name

theorem parent_iff {g : Grammar} (hf : g.Forest) {id p : ElementId} :
    g.parent? id = some p ↔ id ∈ g.children p := ⟨parent_children,child_parent hf⟩

theorem built_contained {g : Grammar} (hb : g.Built) : g.Contained :=
  ⟨built_top hb,(built_forest hb).known⟩

theorem child_passes {authored : Grammar} {e : Element} (hb : authored.Built)
    (hfresh : ∀ id, authored.Added id → (authored.element id).name ≠ e.name) {id p : Nat}
    (h : authored.arena.parent? id = some p) :
    e.name ≠ (authored.arena.element id).name := by
  have hchild := parent_children h
  rw [children_push] at hchild
  have hlt := (built_forest hb).known hchild
  have hpos := built_before hb hchild
  rw [element_of_push _ hlt]
  exact (hfresh id ⟨by omega,hlt⟩).symm

section
variable {authored grown : Grammar} {s : Nat} {e : Element}
  (hadd : authored.addChild s e = .ok grown)

include hadd

theorem grown_size : grown.size = authored.size + 1 := (add_child_ok hadd).1

theorem parent_known : s < authored.size := by
  obtain ⟨⟨p,hp,-⟩,-⟩ := add_child_parent hadd
  exact element_known hp

theorem shifted_element (id : Nat) :
    grown.arena.element (shifted authored.size id) = authored.arena.element id := by
  have hsize := grown_size hadd
  rcases Nat.lt_trichotomy id authored.size with hlt | rfl | hgt
  · rw [shifted_before hlt, (push_appends grown .padding).before (by omega),
      (add_child_appends hadd).before hlt, (push_appends authored .padding).before hlt]
  · rw [shifted_behind (Nat.le_refl _), ← hsize, (push_appends grown .padding).last,
      (push_appends authored .padding).last]
  · rw [shifted_behind (Nat.le_of_lt hgt), element_outside _ _ (by rw [size_push]; omega),
      element_outside _ _ (by rw [size_push]; omega)]

theorem grown_element : grown.arena.element authored.size = e := by
  rw [(push_appends grown .padding).before (by rw [grown_size hadd]; omega),
    (add_child_appends hadd).last]

theorem grown_children (id : Nat) : grown.arena.children id =
    authored.children id ++ if s = id then [authored.size] else [] := by
  rw [children_push, (add_child_ok hadd).2.2]

theorem grown_children_nil : grown.arena.children authored.size = [] := by
  rw [grown_children hadd, children_outside _ _ (Nat.le_refl _),
    if_neg (Nat.ne_of_lt (parent_known hadd))]
  rfl

variable (hb : authored.Built)

include hb

theorem shifted_children (id : Nat) : grown.arena.children (shifted authored.size id) =
    (authored.arena.children id).map (shifted authored.size) ++
      if s = id then [authored.size] else [] := by
  have hs := parent_known hadd
  rw [grown_children hadd, children_push]
  rcases Nat.lt_or_ge id authored.size with hlt | hge
  · have hplaces : ∀ child ∈ authored.children id, shifted authored.size child = child :=
      fun child hc => shifted_before ((built_forest hb).known hc)
    rw [shifted_before hlt, List.map_congr_left hplaces, List.map_id'']
    exact fun _ => rfl
  · rw [shifted_behind hge, children_outside _ _ hge,
      children_outside _ _ (Nat.le_succ_of_le hge), if_neg (by omega), if_neg (by omega)]
    rfl

theorem shifted_parent (id : Nat) : grown.arena.parent? (shifted authored.size id) =
    (authored.arena.parent? id).map (shifted authored.size) := by
  have hf := (built_forest (hb.addChild hadd)).push .padding
  ext p
  rw [Option.map_eq_some_iff, parent_iff hf]
  simp only [parent_iff ((built_forest hb).push .padding)]
  by_cases hp : p = authored.size
  · subst hp
    rw [grown_children_nil hadd]
    exact ⟨nofun,fun ⟨_,_,h⟩ => absurd h (shifted_ne _ _)⟩
  · obtain ⟨q,rfl⟩ := exists_shifted hp
    rw [shifted_children hadd hb]
    simp only [List.mem_append, List.mem_map, shifted_inj]
    constructor
    · rintro (⟨child,hchild,rfl⟩ | hnew)
      · exact ⟨q,hchild,rfl⟩
      · split at hnew
        · exact absurd (List.mem_singleton.mp hnew) (shifted_ne _ _)
        · cases hnew
    · rintro ⟨p,hchild,rfl⟩
      exact .inl ⟨id,hchild,rfl⟩

theorem grown_parent : grown.arena.parent? authored.size = some s := by
  rw [parent_iff ((built_forest (hb.addChild hadd)).push .padding), grown_children hadd, if_pos rfl]
  exact List.mem_append_right _ List.mem_cons_self

theorem shifted_child_named {name : String} (hname : e.name ≠ name) (id : Nat) :
    grown.arena.childNamed? (shifted authored.size id) name =
      (authored.arena.childNamed? id name).map (shifted authored.size) := by
  have hnew : (if s = id then [authored.size] else []).find?
      (fun child => (grown.arena.element child).name == name) = none := by
    split
    · simp [grown_element hadd, hname]
    · rfl
  rw [childNamed?, shifted_children hadd hb, List.find?_append, hnew, Option.or_none,
    List.find?_map]
  simp only [Function.comp_def, shifted_element hadd]
  rfl

theorem named_new (hfresh : ∀ id, authored.Added id → (authored.element id).name ≠ e.name)
    {place c : Nat} (h : grown.arena.childNamed? place e.name = some c) : c = authored.size := by
  have hchild := List.mem_of_find?_eq_some h
  have hname := List.find?_some h
  rw [grown_children hadd, List.mem_append] at hchild
  rcases hchild with hchild | hchild
  · have hlt := (built_forest hb).known hchild
    have hpos := built_before hb hchild
    rw [← shifted_before hlt, shifted_element hadd, element_of_push _ hlt] at hname
    exact absurd (beq_iff_eq.mp hname) (hfresh c ⟨by omega,hlt⟩)
  · split at hchild
    · exact List.mem_singleton.mp hchild
    · cases hchild

theorem new_extends_nothing
    (hfresh : ∀ id, authored.Added id → (authored.element id).name ≠ e.name) (hbase : e.base = none)
    (b : Nat) :
    ¬grown.arena.Extends authored.size b := by
  have hnew : ∀ {sought c}, grown.arena.Finds sought c → ∀ place, sought = .child e.name place →
      c = authored.size := by
    intro sought c h
    induction h with
    | own hchild =>
      rintro place ⟨⟩
      exact named_new hadd hb hfresh hchild
    | along _ _ _ _ ihrest =>
      rintro place ⟨⟩
      exact ihrest _ rfl
    | _ => nofun
  intro h
  cases h with
  | stated hstated _ =>
    rw [grown_element hadd, hbase] at hstated
    cases hstated
  | adopted _ _ _ nearest other _ =>
    rw [grown_element hadd] at nearest
    exact other (hnew nearest _ rfl)

theorem shifted_stated (he : e.kind.agrees .padding = false)
    (hstates : authored.arena.StatesBases) (hstates' : grown.arena.StatesBases) {id : Nat}
    {r : Designator} (hbase : (authored.arena.element id).base = some r) :
    ∃ b, authored.arena.find? r = some b ∧
      grown.arena.find? r = some (shifted authored.size b) := by
  have hb' := hb.addChild hadd
  obtain ⟨b,hfind,hkind⟩ := hstates id r hbase
  rw [← shifted_element hadd] at hbase
  obtain ⟨b',hfind',hkind'⟩ := hstates' _ r hbase
  rw [shifted_element hadd] at hkind'
  refine ⟨b,hfind,?_⟩
  rcases found_or_overruns hb hfind with hfound | ⟨hnone,-,rfl⟩
  · rw [shifted_before ((built_contained hb).find_lt hfound)]
    exact (push_appends grown .padding).find_of_found (built_top hb')
      ((add_child_appends hadd).find_of_found (built_top hb) hfound)
  · -- only padding is based on the padding, and not on the new element
    rcases found_or_overruns hb' hfind' with hfound | ⟨-,-,rfl⟩
    · obtain rfl := (add_child_appends hadd).found_anew (built_top hb) hnone hfound
      rw [element_arena_last] at hkind
      rw [grown_element hadd, agrees_padding hkind, he] at hkind'
      cases hkind'
    · rw [hfind', grown_size hadd, shifted_behind (Nat.le_refl _)]

section
variable (hfresh : ∀ id, authored.Added id → (authored.element id).name ≠ e.name)
  (he : e.kind.agrees .padding = false)
  (hstates : authored.arena.StatesBases) (hstates' : grown.arena.StatesBases)

include hfresh he hstates hstates'

/-- Whatever was found is found. -/
theorem Finds.shifted {sought : Sought} {x : Nat} (h : authored.arena.Finds sought x)
    (hs : sought.passes e.name) :
    grown.arena.Finds (sought.shifted authored.size) (ByteGrammar.shifted authored.size x) := by
  induction h with
  | stated hbase hfind =>
    obtain ⟨b,hb',hfind'⟩ := shifted_stated hadd hb he hstates hstates' hbase
    cases hfind.symm.trans hb'
    exact .stated (by rwa [shifted_element hadd]) hfind'
  | @adopted id p a c hbase hplace above nearest other kind ihabove ihnearest =>
    have hpasses := child_passes hb hfresh hplace
    refine .adopted (by rwa [shifted_element hadd]) ?_ (ihabove trivial) ?_
      (mt shifted_inj.mp other) (by rwa [shifted_element hadd, shifted_element hadd])
    · rw [shifted_parent hadd hb, hplace]
      rfl
    · rw [shifted_element hadd]
      exact ihnearest hpasses.symm
  | own hchild =>
    refine .own ?_
    rw [shifted_child_named hadd hb (Ne.symm hs), hchild]
    rfl
  | along hnone base rest ihbase ihrest =>
    refine .along ?_ (ihbase trivial) (ihrest hs)
    rw [shifted_child_named hadd hb (Ne.symm hs), hnone]
    rfl

/-- Whatever is found was found. -/
theorem shifted_found (sought : Sought) {y : Nat}
    (h : grown.arena.Finds (sought.shifted authored.size) y) (hs : sought.passes e.name) :
    ∃ x, ByteGrammar.shifted authored.size x = y ∧ authored.arena.Finds sought x := by
  -- The name of the new child is fresh, so that no rule can have found it.
  generalize hsought : sought.shifted authored.size = sought' at h
  induction h generalizing sought with
  | stated hbase hfind =>
    cases sought with
    | child name place => cases hsought
    | base id =>
      cases hsought
      rw [shifted_element hadd] at hbase
      obtain ⟨b,hb',hfind'⟩ := shifted_stated hadd hb he hstates hstates' hbase
      exact ⟨b,Option.some.inj (hfind'.symm.trans hfind),.stated hbase hb'⟩
  | adopted hbase hplace above nearest other kind ihabove ihnearest =>
    cases sought with
    | child name place => cases hsought
    | base id =>
      cases hsought
      rw [shifted_element hadd] at hbase kind
      rw [shifted_parent hadd hb] at hplace
      obtain ⟨q,hq,rfl⟩ := Option.map_eq_some_iff.mp hplace
      have hpasses := child_passes hb hfresh hq
      obtain ⟨a,rfl,habove⟩ := @ihabove (.base q) trivial rfl
      obtain ⟨c,rfl,hnearest⟩ := @ihnearest (.child (authored.arena.element id).name a)
        hpasses.symm (by rw [shifted_element hadd]; rfl)
      rw [shifted_element hadd] at kind
      exact ⟨c,rfl,.adopted hbase hq habove hnearest (mt shifted_inj.mpr other) kind⟩
  | own hchild =>
    cases sought with
    | base id => cases hsought
    | child name place =>
      cases hsought
      rw [shifted_child_named hadd hb (Ne.symm hs)] at hchild
      obtain ⟨c,hc,rfl⟩ := Option.map_eq_some_iff.mp hchild
      exact ⟨c,rfl,.own hc⟩
  | along hnone base rest ihbase ihrest =>
    cases sought with
    | base id => cases hsought
    | child name place =>
      cases hsought
      rw [shifted_child_named hadd hb (Ne.symm hs), Option.map_eq_none_iff] at hnone
      obtain ⟨next,rfl,hnext⟩ := @ihbase (.base place) trivial rfl
      obtain ⟨c,rfl,hrest⟩ := @ihrest (.child _ next) hs rfl
      exact ⟨c,rfl,.along hnone hnext hrest⟩

end

end

end Grammar
end ByteGrammar
