import ByteGrammar.Proofs.Resolved.Derived
import ByteGrammar.Proofs.Resolved.Mended
import ByteGrammar.Proofs.Resolved.Unbounded

/-!
# Cycles of bases

Where what extends what goes in circles, resolution reports each circle once, on its first element,
and none for what only leads to it. And it comes to its end there as elsewhere.
-/

set_option autoImplicit false

namespace ByteGrammar

/-- Elements each of which leads to just those of `C`, in one step or several. -/
structure IsCycle (R : ElementId → ElementId → Prop) (C : Set ElementId) : Prop where
  nonempty : C.Nonempty
  closed : ∀ x ∈ C, ∀ y, Relation.TransGen R x y ↔ y ∈ C

section
variable {R : ElementId → ElementId → Prop} {C D : Set ElementId}

theorem IsCycle.eq_of_mem (hC : IsCycle R C) (hD : IsCycle R D) {x : ElementId} (hx : x ∈ C)
    (hx' : x ∈ D) : C = D :=
  Set.ext fun y => (hC.closed x hx y).symm.trans (hD.closed x hx' y)

theorem IsCycle.least (hC : IsCycle R C) : ∃ c, IsLeast C c := by
  obtain ⟨c,hc,hleast⟩ := WellFounded.has_min Nat.lt_wfRel.wf C hC.nonempty
  exact ⟨c,hc,fun x hx => Nat.le_of_not_lt (hleast x hx)⟩

end

section
variable {bases : Array (Option ElementId)}

/-- On the way around one comes back from everywhere. -/
theorem comes_back {id x : ElementId} {n k : Nat}
    (hn : (nextBase bases)^[n + 1] (some id) = some id)
    (hx : (nextBase bases)^[k + 1] (some id) = some x) :
    ∃ m, (nextBase bases)^[m + 1] (some x) = some id := by
  have hper : Function.IsPeriodicPt (nextBase bases) ((n + 1) * (k + 2)) (some id) :=
    Function.IsPeriodicPt.mul_const hn _
  have hround : (n + 1) * (k + 2) = n * (k + 2) + 1 + (k + 1) := by
    rw [Nat.succ_mul, Nat.add_assoc, Nat.add_comm 1]
  refine ⟨n * (k + 2),?_⟩
  rw [← hx, ← Function.iterate_add_apply, ← hround]
  exact hper

theorem leads_cycle_first {R : ElementId → ElementId → Prop}
    (hbases : ∀ id b, bases[id]?.join = some b ↔ R id b) {c : ElementId} :
    leadsCycle bases c ↔ ∃ C, IsCycle R C ∧ IsLeast C c := by
  rw [leads_cycle_iff]
  constructor
  · rintro ⟨⟨n,hn⟩,hfirst⟩
    have hself : Relation.TransGen R c c := (leads_iff hbases).mpr ⟨n,hn⟩
    refine ⟨{x | Relation.TransGen R c x},⟨⟨c,hself⟩,fun x hx y => ?_⟩,hself,fun x hx => ?_⟩
    · refine ⟨fun h => Relation.TransGen.trans hx h,fun h => ?_⟩
      obtain ⟨k,hk⟩ := (leads_iff hbases).mp hx
      exact ((leads_iff hbases).mpr (comes_back hn hk)).trans h
    · obtain ⟨k,hk⟩ := (leads_iff hbases).mp hx
      exact hfirst k x hk
  · rintro ⟨C,hC,hmem,hleast⟩
    refine ⟨(leads_iff hbases).mp ((hC.closed c hmem c).mpr hmem),fun k x hk => ?_⟩
    exact hleast ((hC.closed c hmem x).mp ((leads_iff hbases).mpr ⟨k,hk⟩))

end

namespace Grammar

section
variable {authored : Grammar}

theorem on_cycle_lt (hb : authored.Built) {C : Set ElementId}
    (hC : IsCycle authored.Inherits C) {x : Nat} (hx : x ∈ C) : x < authored.size := by
  obtain ⟨y,hy,-⟩ := Relation.TransGen.head'_iff.mp ((hC.closed x hx x).mpr hx)
  exact inherits_lt hb hy

end
end Grammar

def GrammarFault.isBaseCycle : GrammarFault → Bool
  | .baseCycle _ => true
  | _ => false

namespace Grammar

def faults (authored : Grammar) : List GrammarFault :=
  match authored.resolve with
  | .ok _ => []
  | .error faults => faults

section
variable {authored : Grammar}

theorem faults_eq : authored.faults = authored.link.2 ++ authored.link.1.check := by
  rw [faults, resolve]
  dsimp only
  cases authored.link.2 ++ authored.link.1.check <;> rfl

theorem stated_faults_other (g : Grammar) :
    g.statedBaseFaults.filter GrammarFault.isBaseCycle = [] := by
  rw [List.filter_eq_nil_iff]
  intro fault hf
  obtain ⟨id,-,hid⟩ := List.mem_filterMap.mp hf
  cases hs : g.statedBase id with
  | ok base =>
    rw [hs] at hid
    cases hid
  | error fault' =>
    rw [hs] at hid
    cases hid
    unfold statedBase at hs
    dsimp only at hs
    split at hs
    · cases hs
    · split at hs
      · cases hs
        exact Bool.false_ne_true
      · split at hs
        · cases hs
        · cases hs
          exact Bool.false_ne_true

theorem start_fault_other {g : Grammar} {fault : GrammarFault} (h : g.startPlace = .error fault) :
    fault.isBaseCycle = false := by
  unfold startPlace at h
  split at h
  · cases h
    rfl
  · split at h
    · cases h
    · cases h
      rfl

theorem follow_fault_other {g : Grammar} {id : ElementId} {aim : Aim} {designator : Designator}
    {fault : GrammarFault} (h : g.follow id aim designator = .error fault) :
    fault.isBaseCycle = false := by
  unfold follow at h
  split at h
  · cases h
    rfl
  · split at h
    · cases h
    · cases h
      rfl

/-- What is wrong with the references of an element is that they lead to nothing, or what is wrong
with its link. -/
theorem mem_target_faults {g : Grammar} {id : ElementId} {fault : GrammarFault}
    (h : fault ∈ g.targetFaults id) : (∃ e reference, fault = .unresolved e reference) ∨
      ∃ aim designator, g.follow id aim designator = .error fault := by
  simp only [targetFaults] at h
  grind

theorem target_faults_other (g : Grammar) (id : ElementId) :
    (g.targetFaults id).filter GrammarFault.isBaseCycle = [] := by
  rw [List.filter_eq_nil_iff]
  intro fault hf
  rcases mem_target_faults hf with ⟨e,reference,rfl⟩ | ⟨aim,designator,hfollow⟩
  · exact Bool.false_ne_true
  · rw [follow_fault_other hfollow]
    exact Bool.false_ne_true

theorem check_faults_other (g : Resolved) (seen ids : List ElementId) :
    (g.checkElements seen ids).filter GrammarFault.isBaseCycle = [] := by
  have hlength : ∀ id, (g.lengthFaults id).filter GrammarFault.isBaseCycle = [] := by
    intro id
    unfold Resolved.lengthFaults
    split <;> rfl
  induction ids generalizing seen with
  | nil => rfl
  | cons id rest ih =>
    rw [Resolved.checkElements]
    split
    · rw [List.filter_append, hlength, ih]
      rfl
    · split
      · rw [List.filter_cons, List.filter_append, hlength, ih]
        rfl
      · rw [List.filter_append, hlength, ih]
        rfl

theorem cycles_reported (authored : Grammar) : authored.faults.filter GrammarFault.isBaseCycle =
    authored.arena.cycleFaults authored.linkedBases := by
  obtain ⟨starts,hstarts,hlink⟩ : ∃ starts : List GrammarFault,
      starts.filter GrammarFault.isBaseCycle = [] ∧
      authored.link.2 = authored.arena.statedBaseFaults ++ starts ++
        authored.baseSearch.faults.toList ++ authored.arena.cycleFaults authored.linkedBases ++
        (List.range authored.arena.size).flatMap authored.arena.targetFaults := by
    refine ⟨_,?_,link_faults_eq authored⟩
    cases hs : (authored.push .padding).startPlace with
    | ok id => rfl
    | error fault =>
      dsimp only
      rw [List.filter_cons, start_fault_other hs]
      rfl
  have hsearch : authored.baseSearch.faults.toList.filter GrammarFault.isBaseCycle = [] := by
    rw [List.filter_eq_nil_iff]
    intro fault hf
    obtain ⟨e,b,rfl⟩ := BaseSearch.run_faults _ _ _ (Array.mem_toList_iff.mp hf)
    exact Bool.false_ne_true
  have htargets : ((List.range authored.arena.size).flatMap authored.arena.targetFaults).filter
      GrammarFault.isBaseCycle = [] := by
    rw [List.filter_flatMap, List.flatMap_eq_nil_iff]
    exact fun id _ => target_faults_other authored.arena id
  have hcycles : (authored.arena.cycleFaults authored.linkedBases).filter
      GrammarFault.isBaseCycle = authored.arena.cycleFaults authored.linkedBases := by
    rw [List.filter_eq_self]
    intro fault hf
    obtain ⟨id,-,rfl⟩ := List.mem_map.mp hf
    rfl
  rw [faults_eq, hlink, Resolved.check]
  simp only [List.filter_append, stated_faults_other, hstarts, hsearch, htargets, hcycles,
    check_faults_other, List.nil_append, List.append_nil]

/-- The reports of cycles, one for each of `firsts`. -/
structure ReportsCycles (authored : Grammar) (firsts : List ElementId) : Prop where
  reports : authored.faults.filter GrammarFault.isBaseCycle =
    firsts.map fun c => .baseCycle (authored.label c)
  increasing : firsts.Pairwise (· < ·)
  /-- Each of them is the first element of a cycle. -/
  first_iff : ∀ c, c ∈ firsts ↔ ∃ C, IsCycle authored.Inherits C ∧ IsLeast C c
  /-- Each cycle has one of them. -/
  once : ∀ C, IsCycle authored.Inherits C → ∃! c, c ∈ firsts ∧ c ∈ C
  /-- Elements that lead to a cycle and are not on it are none of them. -/
  aside : ∀ x, ¬Relation.TransGen authored.Inherits x x → x ∉ firsts

/-- Resolution comes to an end without bounds, whatever the bases, and reports each cycle of them
once. -/
theorem cycles_reported_once (hb : authored.Built) :
    (∀ outcome, authored.Resolves outcome ↔ outcome = authored.resolve) ∧
      (∀ id b, (authored.link.1.attributesOf id).base = some b ↔ authored.Inherits id b) ∧
      ∃ firsts, authored.ReportsCycles firsts := by
  have hleads : ∀ c, leadsCycle authored.linkedBases c ↔
      ∃ C, IsCycle authored.Inherits C ∧ IsLeast C c :=
    fun c => leads_cycle_first (linked_bases_inherit hb)
  have hmem : ∀ c, c ∈ authored.places.filter (leadsCycle authored.linkedBases) ↔
      ∃ C, IsCycle authored.Inherits C ∧ IsLeast C c := by
    intro c
    rw [List.mem_filter, hleads]
    refine and_iff_right_of_imp ?_
    rintro ⟨C,hC,hleast⟩
    rw [places, List.mem_range, size_push]
    exact Nat.lt_succ_of_lt (on_cycle_lt hb hC hleast.1)
  refine ⟨resolves_iff_resolve hb,fun id b => ?_,
    authored.places.filter (leadsCycle authored.linkedBases),?_,?_,hmem,fun C hC => ?_,?_⟩
  · rw [(link_placed id).2]
    exact linked_bases_inherit hb id b
  · rw [cycles_reported, cycleFaults]
    refine List.map_congr_left fun c hc => ?_
    obtain ⟨C,hC,hleast⟩ := (hmem c).mp hc
    rw [label, label, label?, label?, element_push _ (on_cycle_lt hb hC hleast.1)]
  · exact List.pairwise_lt_range.filter _
  · obtain ⟨c,hleast⟩ := hC.least
    refine ⟨c,⟨(hmem c).mpr ⟨C,hC,hleast⟩,hleast.1⟩,?_⟩
    rintro c' ⟨hc',hin⟩
    obtain ⟨C',hC',hleast'⟩ := (hmem c').mp hc'
    obtain rfl := hC'.eq_of_mem hC hleast'.1 hin
    exact hleast'.unique hleast
  · intro x hx hin
    obtain ⟨C,hC,hleast⟩ := (hmem x).mp hin
    exact hx ((hC.closed x hleast.1 x).mpr hleast.1)

end

def rings : Grammar :=
  let item := (Element.number "item").withLength (.literal 1)
  let g := (Grammar.new "rings").add ((Element.struct "own").withBase (.name "own"))
  let g := g.add ((Element.struct "left").withBase (.name "right"))
  let g := (g.addChildren 2 [item]).toOption.getD g
  let g := g.add ((Element.struct "right").withBase (.name "left"))
  let g := (g.addChildren 4 [item]).toOption.getD g
  let g := g.add ((Element.struct "tail").withBase (.name "left"))
  let g := (g.addChildren 6 [item]).toOption.getD g
  g.setStart (.name "left")

theorem rings_built : rings.Built :=
  .setStart _ (.grown (.add _ (.grown (.add _ (.grown (.add _ (.add _ (.new _))) 2 _)) 4 _)) 6 _)

theorem rings_reported : rings.Resolves rings.resolve ∧
    (∃ firsts, rings.ReportsCycles firsts) ∧
    rings.faults = [.baseCycle (rings.label 1),.baseCycle (rings.label 2),
      .baseCycle (rings.label 3)] ∧
    rings.Inherits 3 5 ∧ rings.Inherits 5 3 ∧ rings.Inherits 7 3 := by
  obtain ⟨hresolves,hbases,hreports⟩ := cycles_reported_once rings_built
  refine ⟨(hresolves _).mpr rfl,hreports,by decide +kernel,?_⟩
  exact ⟨(hbases 3 5).mp (by decide +kernel),(hbases 5 3).mp (by decide +kernel),
    (hbases 7 3).mp (by decide +kernel)⟩

end Grammar
end ByteGrammar
