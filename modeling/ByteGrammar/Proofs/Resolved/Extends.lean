import Mathlib.Data.Finset.Card
import Mathlib.Logic.Relation
import ByteGrammar.Proofs.Grammar.Grown
import ByteGrammar.Resolved.Base

/-!
# What extends what

The base of an element, as a relation: the one that it states, or else the nearest child of its
name along the bases of what its structure extends. The relation is the least with these rules, so
that an element whose base would depend on itself has none.
-/

set_option autoImplicit false

namespace ByteGrammar.Grammar

inductive Sought where
  | base (id : ElementId)
  | child (name : String) (place : ElementId)

/-- What is found. An element does not extend itself for want of another, and what it takes
without stating it is of its own kind. -/
inductive Finds (g : Grammar) : Sought → ElementId → Prop
  | stated {id b : ElementId} {reference : Designator}
      (hbase : (g.element id).base = some reference) (hfind : g.find? reference = some b) :
      Finds g (.base id) b
  | adopted {id p a c : ElementId} (hbase : (g.element id).base = none)
      (hplace : g.parent? id = some p) (above : Finds g (.base p) a)
      (nearest : Finds g (.child (g.element id).name a) c) (other : c ≠ id)
      (kind : (g.element c).kind.agrees (g.element id).kind) : Finds g (.base id) c
  | own {name : String} {place c : ElementId} (hchild : g.childNamed? place name = some c) :
      Finds g (.child name place) c
  | along {name : String} {place next c : ElementId} (hnone : g.childNamed? place name = none)
      (base : Finds g (.base place) next) (rest : Finds g (.child name next) c) :
      Finds g (.child name place) c

abbrev Extends (g : Grammar) (id b : ElementId) : Prop := g.Finds (.base id) b

abbrev Nearest (g : Grammar) (name : String) (place c : ElementId) : Prop :=
  g.Finds (.child name place) c

def Clashes (g : Grammar) (id : ElementId) : Prop :=
  ∃ p a c, (g.element id).base = none ∧ g.parent? id = some p ∧ g.Extends p a ∧
    g.Nearest (g.element id).name a c ∧ c ≠ id ∧
    (g.element c).kind.agrees (g.element id).kind = false

def Passes (g : Grammar) (name : String) (place next : ElementId) : Prop :=
  g.childNamed? place name = none ∧ g.Extends place next

inductive Precedes (g : Grammar) (first id : ElementId) : Prop
  | parent (hbase : (g.element id).base = none) (hplace : g.parent? id = some first)
  | along {p a : ElementId} (hbase : (g.element id).base = none) (hplace : g.parent? id = some p)
      (above : g.Extends p a)
      (trail : Relation.ReflTransGen (g.Passes (g.element id).name) a first)
      (hnone : g.childNamed? first (g.element id).name = none)

variable {g : Grammar}

/-- Nothing has two bases, and no search two ends. -/
theorem Finds.unique {sought : Sought} {x y : ElementId} (h : g.Finds sought x)
    (k : g.Finds sought y) : x = y := by
  induction h generalizing y with
  | stated hbase hfind =>
    cases k with
    | stated hbase' hfind' =>
      cases hbase.symm.trans hbase'
      exact Option.some.inj (hfind.symm.trans hfind')
    | adopted hbase' _ _ _ _ _ => cases hbase.symm.trans hbase'
  | adopted hbase hplace _ _ _ _ ihabove ihnearest =>
    cases k with
    | stated hbase' _ => cases hbase.symm.trans hbase'
    | adopted _ hplace' above' nearest' _ _ =>
      cases hplace.symm.trans hplace'
      obtain rfl := ihabove above'
      exact ihnearest nearest'
  | own hchild =>
    cases k with
    | own hchild' => exact Option.some.inj (hchild.symm.trans hchild')
    | along hnone _ _ => cases hchild.symm.trans hnone
  | along hnone _ _ ihbase ihrest =>
    cases k with
    | own hchild => cases hchild.symm.trans hnone
    | along _ base' rest' =>
      obtain rfl := ihbase base'
      exact ihrest rest'

theorem stated_extends {id b : ElementId} {reference : Designator}
    (hbase : (g.element id).base = some reference) (hfind : g.find? reference = some b) :
    (∀ b', g.Extends id b' ↔ b = b') ∧ ¬g.Clashes id := by
  have hext : g.Extends id b := .stated hbase hfind
  refine ⟨fun b' => ⟨hext.unique,fun h => h ▸ hext⟩,?_⟩
  rintro ⟨p,a,c,hnone,-⟩
  cases hbase.symm.trans hnone

theorem nothing_adopted {id : ElementId} (hbase : (g.element id).base = none)
    (hno : ∀ p a c, g.parent? id = some p → g.Extends p a →
      ¬g.Nearest (g.element id).name a c) :
    (∀ b, ¬g.Extends id b) ∧ ¬g.Clashes id := by
  refine ⟨fun b h => ?_,?_⟩
  · cases h with
    | stated hstated _ => cases hbase.symm.trans hstated
    | adopted _ hplace above nearest _ _ => exact hno _ _ _ hplace above nearest
  · rintro ⟨p,a,c,-,hplace,above,nearest,-⟩
    exact hno p a c hplace above nearest

/-- What states no base extends the nearest child to adopt, or clashes with it, unless it is that
child itself. -/
theorem nearest_adopted {id p a c : ElementId} (hbase : (g.element id).base = none)
    (hplace : g.parent? id = some p) (above : g.Extends p a)
    (nearest : g.Nearest (g.element id).name a c) :
    (∀ b, g.Extends id b ↔
      c = b ∧ c ≠ id ∧ (g.element c).kind.agrees (g.element id).kind) ∧
    (g.Clashes id ↔ c ≠ id ∧ (g.element c).kind.agrees (g.element id).kind = false) := by
  refine ⟨fun b => ⟨fun h => ?_,?_⟩,fun h => ?_,fun ⟨other,kind⟩ => ?_⟩
  · cases h with
    | stated hstated _ => cases hbase.symm.trans hstated
    | adopted _ hplace' above' nearest' other kind =>
      cases hplace.symm.trans hplace'
      obtain rfl := above.unique above'
      obtain rfl := nearest.unique nearest'
      exact ⟨rfl,other,kind⟩
  · rintro ⟨rfl,other,kind⟩
    exact .adopted hbase hplace above nearest other kind
  · obtain ⟨p',a',c',-,hplace',above',nearest',hclash⟩ := h
    cases hplace.symm.trans hplace'
    obtain rfl := above.unique above'
    obtain rfl := nearest.unique nearest'
    exact hclash
  · exact ⟨p,a,c,hbase,hplace,above,nearest,other,kind⟩

/-- The base of what has one depends on nothing that depends on it: whatever it depends on has
been found in fewer steps. -/
theorem Finds.grounded {sought : Sought} {x : ElementId} (h : g.Finds sought x) :
    match sought with
    | .base id => Acc g.Precedes id
    | .child name place => ∀ y, Relation.ReflTransGen (g.Passes name) place y →
        g.childNamed? y name = none → Acc g.Precedes y := by
  induction h with
  | stated hbase _ =>
    constructor
    intro y hy
    cases hy with
    | parent hbase' _ => cases hbase.symm.trans hbase'
    | along hbase' _ _ _ _ => cases hbase.symm.trans hbase'
  | adopted hbase hplace above _ _ _ ihabove ihnearest =>
    constructor
    intro y hy
    cases hy with
    | parent _ hplace' =>
      cases hplace.symm.trans hplace'
      exact ihabove
    | along _ hplace' above' trail hnone =>
      cases hplace.symm.trans hplace'
      obtain rfl := above.unique above'
      exact ihnearest y trail hnone
  | own hchild =>
    intro y htrail hnone
    rcases Relation.ReflTransGen.cases_head htrail with rfl | ⟨z,hpass,-⟩
    · cases hchild.symm.trans hnone
    · cases hchild.symm.trans hpass.1
  | along hnone base _ ihbase ihrest =>
    intro y htrail hy
    rcases Relation.ReflTransGen.cases_head htrail with rfl | ⟨z,hpass,hrest⟩
    · exact ihbase
    · obtain rfl := base.unique hpass.2
      exact ihrest y hrest hy

theorem not_extends_of_loop {id b : ElementId} (h : Relation.TransGen g.Precedes id id) :
    ¬g.Extends id b := by
  intro hb
  have hacc : Acc (Relation.TransGen g.Precedes) id := Acc.transGen hb.grounded
  induction hacc with
  | intro x _ ih => exact ih x h h hb

theorem not_nearest_of_loop {name : String} {place c : ElementId}
    (h : Relation.TransGen (g.Passes name) place place) : ¬g.Nearest name place c := by
  suffices hany : ∀ sought, g.Finds sought c → sought ≠ .child name place from
    fun hc => hany _ hc rfl
  intro sought hc hs
  induction hc generalizing place with
  | stated _ _ => cases hs
  | adopted _ _ _ _ _ _ _ _ => cases hs
  | own hchild =>
    cases hs
    obtain ⟨z,hpass,-⟩ := Relation.TransGen.head'_iff.mp h
    cases hchild.symm.trans hpass.1
  | along hnone base _ _ ihrest =>
    cases hs
    obtain ⟨z,hpass,htrail⟩ := Relation.TransGen.head'_iff.mp h
    obtain rfl := base.unique hpass.2
    exact ihrest (Relation.TransGen.tail' htrail ⟨hnone,base⟩) rfl

structure Contained (g : Grammar) : Prop where
  top : ∀ {id : Nat}, id ∈ g.topLevel → id < g.size
  below : ∀ {p child : Nat}, child ∈ g.children p → child < g.size

theorem built_top {g : Grammar} (h : g.Built) {id : Nat} (hid : id ∈ g.topLevel) :
    id < g.size := by
  induction h with
  | new name => cases hid
  | @add g e _ ih =>
    rw [show (g.add e).size = g.size + 1 from size_push g e]
    rcases List.mem_append.mp hid with hid | hid
    · exact Nat.lt_succ_of_lt (ih hid)
    · rw [List.mem_singleton.mp hid]
      exact Nat.lt_succ_self _
  | addChild added _ ih =>
    rw [(add_child_parent added).2] at hid
    rw [(add_child_ok added).1]
    exact Nat.lt_succ_of_lt (ih hid)
  | setStart start _ ih => exact ih hid
  | modify _ _ ih =>
    rw [size_modify]
    exact ih hid
  | replace e _ _ ih =>
    rw [size_replace]
    exact ih hid

theorem Built.contained {authored : Grammar} (h : authored.Built) (e : Element) :
    (authored.push e).Contained where
  top := by
    intro id hid
    rw [size_push]
    exact Nat.lt_succ_of_lt (built_top h hid)
  below := ((built_forest h).push e).known

theorem Contained.find_lt (hg : g.Contained) {reference : Designator} {id : Nat}
    (h : g.find? reference = some id) : id < g.size := by
  cases reference with
  | index n =>
    simp only [find?] at h
    split at h
    · next hn =>
      cases h
      exact hn
    · cases h
  | id n =>
    simp only [find?] at h
    split at h
    · cases h
    · exact List.mem_range.mp (List.mem_of_find?_eq_some h)
  | name text =>
    rcases Option.or_eq_some_iff.mp h with h | ⟨-,h⟩
    · exact hg.top (List.mem_of_find?_eq_some h)
    · exact List.mem_range.mp (List.mem_of_find?_eq_some h)

/-- Whatever is found is in the grammar. -/
theorem Contained.found_lt (hg : g.Contained) {sought : Sought} {x : Nat}
    (h : g.Finds sought x) : x < g.size := by
  induction h with
  | stated _ hfind => exact hg.find_lt hfind
  | adopted _ _ _ _ _ _ _ ihnearest => exact ihnearest
  | own hchild => exact hg.below (List.mem_of_find?_eq_some hchild)
  | along _ _ _ _ ihrest => exact ihrest

theorem parent_children {id p : ElementId} (h : g.parent? id = some p) : id ∈ g.children p := by
  simpa using List.find?_some h

theorem child_parent {g : Grammar} (hf : g.Forest) {id child : Nat} (h : child ∈ g.children id) :
    g.parent? child = some id := by
  have hid : id < g.size := by
    by_contra hge
    rw [children_outside g id (Nat.le_of_not_lt hge)] at h
    cases h
  obtain ⟨p,hp⟩ : ∃ p, g.parent? child = some p := by
    rw [← Option.isSome_iff_exists, parent?, List.find?_isSome]
    exact ⟨id,List.mem_reverse.mpr (List.mem_range.mpr hid),by simpa using h⟩
  rw [hp, hf.apart (parent_children hp) h]

theorem Contained.extends_lt (hg : g.Contained) {id b : Nat} (h : g.Extends id b) :
    id < g.size := by
  by_contra hlt
  cases h with
  | stated hbase _ =>
    rw [element_outside g id (Nat.le_of_not_lt hlt)] at hbase
    cases hbase
  | adopted _ hplace _ _ _ _ => exact hlt (hg.below (parent_children hplace))

def StatesBases (g : Grammar) : Prop :=
  ∀ id reference, (g.element id).base = some reference →
    ∃ b, g.find? reference = some b ∧ (g.element b).kind.agrees (g.element id).kind

theorem StatesBases.kind (hs : g.StatesBases) {id b : ElementId} (h : g.Extends id b) :
    (g.element b).kind.agrees (g.element id).kind := by
  cases h with
  | stated hbase hfind =>
    obtain ⟨b',hb',hkind⟩ := hs id _ hbase
    cases hfind.symm.trans hb'
    exact hkind
  | adopted _ _ _ _ _ kind => exact kind

theorem StatesBases.base_eq (hs : g.StatesBases) (id : ElementId) :
    match (g.element id).base with
    | none => g.statedBase? id = none
    | some reference => ∃ b, g.find? reference = some b ∧ g.statedBase? id = some b := by
  cases hb : (g.element id).base with
  | none => simp only [statedBase?, statedBase, hb]
  | some reference =>
    obtain ⟨b,hfind,hkind⟩ := hs id reference hb
    exact ⟨b,hfind,by simp only [statedBase?, statedBase, hb, hfind, if_pos hkind]⟩

theorem stated_base_ok {id : ElementId} :
    (match g.statedBase id with
      | .ok _ => none
      | .error fault => some fault) = none ↔
      ∀ reference, (g.element id).base = some reference →
        ∃ b, g.find? reference = some b ∧ (g.element b).kind.agrees (g.element id).kind := by
  unfold statedBase
  dsimp only
  cases hb : (g.element id).base with
  | none => simp
  | some reference =>
    cases hf : g.find? reference with
    | none => simp [hf]
    | some b =>
      cases hk : (g.element b).kind.agrees (g.element id).kind <;> simp [hf, hk]

/-- Linking finds no fault in the stated bases just if all of them can be found and are of the kind
of what states them. -/
theorem stated_faults_nil : g.statedBaseFaults = [] ↔ g.StatesBases := by
  rw [statedBaseFaults, List.filterMap_eq_nil_iff]
  refine ⟨fun h id reference hbase => ?_,fun h id _ => stated_base_ok.mpr (h id)⟩
  by_cases hlt : id < g.size
  · exact stated_base_ok.mp (h id (List.mem_range.mpr hlt)) reference hbase
  · rw [element_outside g id (Nat.le_of_not_lt hlt)] at hbase
    cases hbase

end ByteGrammar.Grammar
