import Mathlib.Dynamics.PeriodicPts.Defs
import Mathlib.Data.Finset.Card
import Mathlib.Logic.Relation
import ByteGrammar.Resolved.Base

/-!
# The ends of bases

The search for bases finds one for each element of the arena at most. If no element leads a cycle
of them, there is none: the first element of a cycle would lead it. So whoever follows the bases of
an element never comes back to it.
-/

set_option autoImplicit false

namespace ByteGrammar

namespace BaseSearch

variable {α β : Type}

def Sized (action : StateM BaseSearch α) : Prop :=
  ∀ s, (action s).2.known.size = s.known.size

theorem pure_sized (a : α) : Sized (pure a) := fun _ => rfl

theorem bind_sized {action : StateM BaseSearch α} {f : α → StateM BaseSearch β}
    (ha : Sized action) (hf : ∀ a, Sized (f a)) : Sized (action >>= f) :=
  fun s => (hf (action s).1 (action s).2).trans (ha s)

theorem mark_sized (id : ElementId) (progress : Progress (Option ElementId)) :
    Sized (modify (mark id progress)) := fun _ => Array.size_setIfInBounds

theorem report_sized (fault : GrammarFault) : Sized (modify (report fault)) := fun _ => rfl

section
variable (g : Grammar)

theorem inherited_child_sized {baseOf : ElementId → StateM BaseSearch (Option ElementId)}
    (hb : ∀ id, Sized (baseOf id)) (name : String) (steps : Nat) (id : ElementId) :
    Sized (inheritedChild g baseOf name steps id) := by
  induction steps generalizing id with
  | zero => exact pure_sized none
  | succ steps ih =>
    rw [inheritedChild]
    cases g.childNamed? id name with
    | some child => exact pure_sized _
    | none =>
      refine bind_sized (hb id) fun base => ?_
      cases base with
      | some next => exact ih next
      | none => exact pure_sized none

theorem adopt_sized {baseOf : ElementId → StateM BaseSearch (Option ElementId)}
    (hb : ∀ id, Sized (baseOf id)) (id ancestor : ElementId) :
    Sized (adopt g baseOf id ancestor) := by
  refine bind_sized (inherited_child_sized g hb _ _ _) fun found => ?_
  cases found with
  | none => exact pure_sized none
  | some child =>
    dsimp only
    split
    · exact pure_sized none
    · split
      · exact pure_sized _
      · exact bind_sized (report_sized _) fun _ => pure_sized none

variable (parents stated : Array (Option ElementId))

theorem base_of_sized (depth : Nat) (id : ElementId) :
    Sized (baseOf g parents stated depth id) := by
  induction depth generalizing id with
  | zero => exact pure_sized none
  | succ depth ih =>
    have hlast : ∀ base, Sized (modify (mark id (.done base)) >>= fun _ => pure base) :=
      fun base => bind_sized (mark_sized _ _) fun _ => pure_sized base
    rw [baseOf]
    refine bind_sized (fun _ => rfl) fun s => ?_
    rcases s.known[id]? with - | (- | - | base)
    · exact pure_sized none
    · refine bind_sized (mark_sized _ _) fun _ => ?_
      dsimp only
      split
      · exact bind_sized (pure_sized _) hlast
      · exact bind_sized (pure_sized _) hlast
      · refine bind_sized (ih _) fun base => ?_
        cases base with
        | none => exact bind_sized (pure_sized _) hlast
        | some ancestor => exact bind_sized (adopt_sized g ih id ancestor) hlast
    · exact pure_sized none
    · exact pure_sized base

theorem for_sized {f : ElementId → StateM BaseSearch PUnit} (hf : ∀ id, Sized (f id))
    (ids : List ElementId) : Sized (ids.forM f) := by
  induction ids with
  | nil => exact pure_sized _
  | cons id rest ih => exact bind_sized (hf id) fun _ => ih

theorem bases_size : (run g parents stated).bases.size = g.size := by
  have hrun : (run g parents stated).known.size = (start g).known.size :=
    for_sized (fun id => bind_sized (base_of_sized g parents stated _ id) fun _ => pure_sized _)
      (List.range g.size) (start g)
  rw [bases, Array.size_map, hrun, start, Array.size_replicate]

end

end BaseSearch

section
variable {bases : Array (Option ElementId)}

def nextBase (bases : Array (Option ElementId)) (id : Option ElementId) : Option ElementId :=
  id.bind fun id => bases[id]?.join

theorem next_none (n : Nat) : (nextBase bases)^[n] none = none :=
  Function.iterate_fixed rfl n

theorem mem_base_chain {steps : Nat} {id base : ElementId} :
    base ∈ baseChain bases steps id ↔
      ∃ n < steps, (nextBase bases)^[n + 1] (some id) = some base := by
  induction steps generalizing id with
  | zero => exact ⟨nofun,fun ⟨n,hn,_⟩ => absurd hn (Nat.not_lt_zero n)⟩
  | succ steps ih =>
    have hstep : ∀ n, (nextBase bases)^[n + 1] (some id) =
        (nextBase bases)^[n] bases[id]?.join := fun n => Function.iterate_succ_apply _ n _
    simp only [baseChain, hstep]
    cases hb : bases[id]?.join with
    | none =>
      refine ⟨nofun,fun ⟨n,_,hn⟩ => ?_⟩
      rw [next_none] at hn
      cases hn
    | some first =>
      rw [List.mem_cons, ih]
      constructor
      · rintro (rfl | ⟨n,hn,hr⟩)
        · exact ⟨0,Nat.zero_lt_succ _,rfl⟩
        · exact ⟨n + 1,Nat.succ_lt_succ hn,hr⟩
      · rintro ⟨n,hn,hr⟩
        cases n with
        | zero => exact .inl (Option.some.inj hr).symm
        | succ n => exact .inr ⟨n,Nat.lt_of_succ_lt_succ hn,hr⟩

/-- The bases that come before `stop` are those that some number of steps leads to, of which none
leads to it. -/
theorem mem_before {steps : Nat} {stop id x : ElementId} :
    x ∈ (baseChain bases steps id).takeWhile (· != stop) ↔
      ∃ n < steps, (nextBase bases)^[n + 1] (some id) = some x ∧
        ∀ m ≤ n, (nextBase bases)^[m + 1] (some id) ≠ some stop := by
  induction steps generalizing id with
  | zero => exact ⟨nofun,fun ⟨n,hn,_⟩ => absurd hn (Nat.not_lt_zero n)⟩
  | succ steps ih =>
    have hstep : ∀ n, (nextBase bases)^[n + 1] (some id) =
        (nextBase bases)^[n] bases[id]?.join := fun n => Function.iterate_succ_apply _ n _
    simp only [baseChain, hstep]
    cases hb : bases[id]?.join with
    | none =>
      refine ⟨nofun,fun ⟨n,_,hn,_⟩ => ?_⟩
      rw [next_none] at hn
      cases hn
    | some first =>
      by_cases hstop : first = stop
      · rw [List.takeWhile_cons_of_neg (by simp [hstop])]
        refine ⟨nofun,fun ⟨n,_,_,hall⟩ => ?_⟩
        exact absurd (congrArg some hstop) (hall 0 (Nat.zero_le n))
      · rw [List.takeWhile_cons_of_pos (by simp [hstop]), List.mem_cons, ih]
        constructor
        · rintro (rfl | ⟨n,hn,hx,hall⟩)
          · refine ⟨0,Nat.zero_lt_succ _,rfl,fun m hm => ?_⟩
            rw [Nat.le_zero.mp hm]
            exact fun h => hstop (Option.some.inj h)
          · refine ⟨n + 1,Nat.succ_lt_succ hn,hx,fun m hm => ?_⟩
            cases m with
            | zero => exact fun h => hstop (Option.some.inj h)
            | succ m => exact hall m (Nat.le_of_succ_le_succ hm)
        · rintro ⟨n,hn,hx,hall⟩
          cases n with
          | zero => exact .inl (Option.some.inj hx).symm
          | succ n =>
            exact .inr ⟨n,Nat.lt_of_succ_lt_succ hn,hx,
              fun m hm => hall (m + 1) (Nat.succ_le_succ hm)⟩

def Acyclic (bases : Array (Option ElementId)) : Prop :=
  ∀ id steps, id ∉ baseChain bases steps id

theorem periodic_known {id n : Nat}
    (h : Function.IsPeriodicPt (nextBase bases) (n + 1) (some id)) (i : Nat) :
    ∃ x < bases.size, (nextBase bases)^[i] (some id) = some x := by
  have hmul := h.mul_const (i + 1)
  have hnext : (nextBase bases)^[i + 1] (some id) ≠ none := by
    intro hnone
    obtain ⟨k,hk⟩ : ∃ k, (n + 1) * (i + 1) = k + (i + 1) := ⟨n * (i + 1),Nat.succ_mul n (i + 1)⟩
    rw [Function.IsPeriodicPt, Function.IsFixedPt, hk, Function.iterate_add_apply, hnone,
      next_none] at hmul
    cases hmul
  rw [Function.iterate_succ_apply'] at hnext
  cases hx : (nextBase bases)^[i] (some id) with
  | none =>
    rw [hx] at hnext
    exact absurd rfl hnext
  | some x =>
    refine ⟨x,?_,rfl⟩
    rw [hx, nextBase, Option.bind_some] at hnext
    by_contra hlt
    rw [Array.getElem?_eq_none (Nat.le_of_not_lt hlt)] at hnext
    exact hnext rfl

theorem period_le {id n : Nat}
    (h : Function.IsPeriodicPt (nextBase bases) (n + 1) (some id)) :
    Function.minimalPeriod (nextBase bases) (some id) ≤ bases.size := by
  have hmaps : Set.MapsTo (fun i => (nextBase bases)^[i] (some id))
      (Finset.range (Function.minimalPeriod (nextBase bases) (some id)))
      ((Finset.range bases.size).map ⟨some,Option.some_injective _⟩) := by
    intro i _
    obtain ⟨x,hx,hi⟩ := periodic_known h i
    simp only [Finset.coe_map, Set.mem_image]
    exact ⟨x,Finset.mem_coe.mpr (Finset.mem_range.mpr hx),hi.symm⟩
  have hinj : Set.InjOn (fun i => (nextBase bases)^[i] (some id))
      (Finset.range (Function.minimalPeriod (nextBase bases) (some id))) := by
    rw [Finset.coe_range]
    exact Function.iterate_injOn_Iio_minimalPeriod
  have hcard := Finset.card_le_card_of_injOn _ hmaps hinj
  rwa [Finset.card_range, Finset.card_map, Finset.card_range] at hcard

/-- An element leads a cycle just if its bases come back to it and none of them comes before it. -/
theorem leads_cycle_iff {id : ElementId} :
    leadsCycle bases id ↔ (∃ n, (nextBase bases)^[n + 1] (some id) = some id) ∧
      ∀ n x, (nextBase bases)^[n + 1] (some id) = some x → id ≤ x := by
  simp only [leadsCycle, Bool.and_eq_true, List.contains_iff_mem, List.all_eq_true,
    decide_eq_true_eq]
  constructor
  · rintro ⟨hself,hlater⟩
    obtain ⟨n,-,hn⟩ := mem_base_chain.mp hself
    have hper : Function.IsPeriodicPt (nextBase bases) (n + 1) (some id) := hn
    refine ⟨⟨n,hn⟩,fun k x hx => ?_⟩
    -- Whatever the bases come to they come to before they are back for the first time.
    have hlt := Nat.mod_lt (k + 1) (hper.minimalPeriod_pos (Nat.succ_pos n))
    rw [← Function.iterate_mod_minimalPeriod_eq] at hx
    cases hj : (k + 1) % Function.minimalPeriod (nextBase bases) (some id) with
    | zero =>
      rw [hj] at hx
      exact Nat.le_of_eq (Option.some.inj hx)
    | succ j =>
      rw [hj] at hx hlt
      have hle := period_le hper
      refine Nat.le_of_lt (hlater x (mem_before.mpr ⟨j,by omega,hx,fun m hm => ?_⟩))
      exact Function.not_isPeriodicPt_of_pos_of_lt_minimalPeriod (Nat.succ_ne_zero m) (by omega)
  · rintro ⟨⟨n,hn⟩,hfirst⟩
    have hper : Function.IsPeriodicPt (nextBase bases) (n + 1) (some id) := hn
    have hpos := hper.minimalPeriod_pos (Nat.succ_pos n)
    refine ⟨mem_base_chain.mpr ⟨Function.minimalPeriod (nextBase bases) (some id) - 1,?_,?_⟩,
      fun x hx => ?_⟩
    · have hle := period_le hper
      omega
    · rw [Nat.sub_add_cancel hpos]
      exact Function.iterate_minimalPeriod
    · have hne : x ≠ id := by simpa using List.all_eq_true.mp List.all_takeWhile x hx
      obtain ⟨k,-,hk,-⟩ := mem_before.mp hx
      exact Nat.lt_of_le_of_ne (hfirst k x hk) hne.symm

theorem acyclic_of_leaderless (h : ∀ id < bases.size, leadsCycle bases id = false) :
    Acyclic bases := by
  have hnone : ∀ id, some id ∉ Function.periodicPts (nextBase bases) := by
    intro id
    induction id using Nat.strong_induction_on with
    | _ id ih =>
      rintro ⟨n,hn,hper⟩
      obtain ⟨n,rfl⟩ : ∃ m, n = m + 1 := ⟨_,(Nat.succ_pred_eq_of_pos hn).symm⟩
      obtain ⟨x,hx,hid⟩ := periodic_known hper 0
      cases hid
      have hleads : leadsCycle bases id := by
        refine leads_cycle_iff.mpr ⟨⟨n,hper⟩,fun k x hk => Nat.le_of_not_lt fun hlt => ih x hlt ?_⟩
        exact Function.mk_mem_periodicPts (Nat.succ_pos n) (hk ▸ hper.apply_iterate (k + 1))
      rw [h id hx] at hleads
      cases hleads
  intro id steps hmem
  obtain ⟨n,-,hn⟩ := mem_base_chain.mp hmem
  exact hnone id (Function.mk_mem_periodicPts (Nat.succ_pos n) hn)

theorem Grammar.no_cycles {g : Grammar} (hs : bases.size = g.size)
    (h : g.cycleFaults bases = []) : Acyclic bases := by
  refine acyclic_of_leaderless fun id hid => ?_
  rw [cycleFaults, List.map_eq_nil_iff, List.filter_eq_nil_iff] at h
  exact Bool.eq_false_iff.mpr (h id (List.mem_range.mpr (hs ▸ hid)))

theorem Grammar.cycle_faults_of_acyclic (g : Grammar) (h : Acyclic bases) :
    g.cycleFaults bases = [] := by
  rw [cycleFaults, List.map_eq_nil_iff, List.filter_eq_nil_iff]
  intro id _ hleads
  rw [leadsCycle, Bool.and_eq_true, List.contains_iff_mem] at hleads
  exact h id bases.size hleads.1

theorem leads_iff {R : ElementId → ElementId → Prop}
    (hbases : ∀ id b, bases[id]?.join = some b ↔ R id b) {id b : ElementId} :
    Relation.TransGen R id b ↔ ∃ n, (nextBase bases)^[n + 1] (some id) = some b := by
  constructor
  · intro h
    induction h with
    | single h => exact ⟨0,(hbases id _).mpr h⟩
    | tail _ h ih =>
      obtain ⟨n,hn⟩ := ih
      refine ⟨n + 1,?_⟩
      rw [Function.iterate_succ_apply', hn]
      exact (hbases _ _).mpr h
  · rintro ⟨n,hn⟩
    induction n generalizing b with
    | zero => exact .single ((hbases id b).mp hn)
    | succ n ih =>
      rw [Function.iterate_succ_apply'] at hn
      obtain ⟨x,hx,hb⟩ := Option.bind_eq_some_iff.mp hn
      exact .tail (ih hx) ((hbases x b).mp hb)

theorem acyclic_iff {R : ElementId → ElementId → Prop}
    (hbases : ∀ id b, bases[id]?.join = some b ↔ R id b) :
    Acyclic bases ↔ ∀ id, ¬Relation.TransGen R id id := by
  simp only [Acyclic, mem_base_chain, leads_iff hbases]
  exact ⟨fun h id ⟨n,hn⟩ => h id (n + 1) ⟨n,Nat.lt_succ_self n,hn⟩,
    fun h id _ ⟨n,_,hn⟩ => h id ⟨n,hn⟩⟩

end

end ByteGrammar
