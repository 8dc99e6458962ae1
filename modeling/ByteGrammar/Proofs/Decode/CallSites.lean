import ByteGrammar.Proofs.Decode.Elsewhere

/-!
# Call sites

Without a runtime, an element that runs a script takes up no bytes and changes nothing. One that is
the last member of a structure is read once when the search has come to it. It comes to it unless it
ends at a clean end of the data, which is then reported as a call that is missing.
-/

set_option autoImplicit false

namespace ByteGrammar

open Stepwise DecodeM

variable {μ : Type}

structure State.Counted (σ τ : State μ) : Prop where
  source : τ.source = σ.source
  history : τ.history = σ.history
  order : τ.order = σ.order
  values : τ.values = σ.values + 1

structure Search.Called (ρ : Nat → Nat) (n place members : Nat) (s s' : Search) : Prop where
  own : ∀ i < members, s'.count i = s.count i
  call : s'.count members = 1
  children : s'.children.toList =
    s.children.toList.map (Value.relabelled ρ) ++ [Value.leaf n place 0]
  consumed : s'.consumed = s.consumed

theorem Search.count_outside {s : Search} {index : Nat} (h : s.counts.size ≤ index) :
    s.count index = 0 := by
  rw [count, Array.getD_eq_getD_getElem?, Array.getElem?_eq_none h]
  rfl

theorem accept_called (ρ : Nat → Nat) (n place : Nat) {s : Search} {members : Nat}
    (hsize : s.counts.size = members) (hindex : s.index = members) (arrangement : Arrangement) :
    s.Called ρ n place members
      ((s.relabelled ρ 1).accept arrangement 1 (Value.leaf n place 0)) := by
  have hinside : (s.relabelled ρ 1).index < (s.relabelled ρ 1).counts.size := by
    simp [Search.relabelled, hindex, hsize]
  constructor
  · intro i hi
    have hne : (s.relabelled ρ 1).index ≠ i := Nat.ne_of_gt (hindex ▸ hi)
    rw [accept_count hinside, if_neg hne, s.relabelled_count]
  · have heq : (s.relabelled ρ 1).index = members := hindex
    rw [accept_count hinside, if_pos heq, s.relabelled_count,
      Search.count_outside (Nat.le_of_eq hsize)]
  · rw [accept_children]
    simp [Search.relabelled]
  · rfl

section
variable {setup : Setup μ} {id : ElementId}

theorem check_counts_append (frames : List Frame) (absent : Bool) (s : Search) (index : Nat)
    (front back : List ElementId) :
    checkCounts setup frames id absent s index (front ++ back) =
      checkCounts setup frames id absent s index front >>= fun _ =>
        checkCounts setup frames id absent s (index + front.length) back := by
  induction front generalizing index with
  | nil => rfl
  | cons member rest ih =>
    rw [List.cons_append, checkCounts, checkCounts, bind_assoc]
    congr 1
    funext least
    dsimp only
    split
    · split <;> rfl
    · rw [ih, List.length_cons, Nat.add_right_comm, Nat.add_assoc]

theorem check_counts_absent {frames : List Frame} {absent : Bool} {s : Search} {index : Nat}
    {members : List ElementId} {σ τ : State μ} {u : Unit}
    (h : checkCounts setup frames id absent s index members σ = (.ok u,τ)) (absent' : Bool) :
    checkCounts setup frames id absent' s index members σ = (.ok u,τ) := by
  induction members generalizing index σ with
  | nil => exact h
  | cons member rest ih =>
    rw [checkCounts] at h ⊢
    obtain ⟨least,ρ,hleast,h1⟩ := bind_ok.mp h
    refine bind_ok.mpr ⟨least,ρ,hleast,?_⟩
    dsimp only at h1 ⊢
    split at h1
    · split at h1 <;> cases h1
    · next hc =>
      rw [if_neg hc]
      exact ih h1

theorem read_script_skipped (hr : setup.runtime = none) {script : Script}
    (hscript : setup.grammar.script? id = some script) (σ : State μ) :
    readScript setup id σ = (.ok (Value.leaf id σ.source.position 0),
      σ.noted (.skippedScript script)) := by
  simp only [readScript, runScript, hscript, hr]
  rfl

theorem closing_counted (id : ElementId) (hs : setup.options.checkShape = false)
    (hk : (setup.grammar.kind id).isRecorded = false) (start : Nat) (v : Value) {σ : State μ}
    (hv : σ.values < setup.options.maxValues) :
    ∃ τ, closing setup id start (.ok v) σ = (.ok v,τ) ∧ State.Counted σ τ := by
  rw [closing_run id start (by rw [check_read_off setup hs]; rfl), if_neg (Nat.not_lt.mpr hv), hk]
  exact ⟨_,rfl,rfl,rfl,rfl,rfl⟩

/-- A call is read where the cursor is, takes up nothing and changes nothing but the count of
values. -/
theorem Resolved.RunsOnce.read (h : setup.grammar.RunsOnce id) (hr : setup.runtime = none)
    (hs : setup.options.checkShape = false) (room : Nat) (frames : List Frame) {σ : State μ}
    (hv : σ.values < setup.options.maxValues) :
    ∃ τ, readElement setup (room + 1) frames id σ =
        (.ok (Value.leaf id σ.source.position 0),τ) ∧ State.Counted σ τ := by
  obtain ⟨link,hk⟩ := h.kind
  obtain ⟨script,hscript⟩ := Option.isSome_iff_exists.mp h.script
  rw [read_opened room (byte_length_empty frames h.length σ)
    (by rw [readKind, hk]; exact read_script_skipped hr hscript _)]
  obtain ⟨τ,hclose,hcounted⟩ := closing_counted id hs (by rw [hk]; rfl) σ.source.position
    (Value.leaf id σ.source.position 0)
    (σ := (σ.noted (.reading σ.source.position id)).noted (.skippedScript script)) hv
  exact ⟨τ,hclose,hcounted.source,hcounted.history,hcounted.order,hcounted.values⟩

theorem Resolved.RunsOnce.search (h : setup.grammar.RunsOnce id) (hr : setup.runtime = none)
    (hs : setup.options.checkShape = false) (room : Nat) (arrangement : Arrangement)
    {members : Array ElementId} (frame : Frame) (frames : List Frame) {s : Search}
    (hmember : members[s.index]? = some id) (hlast : members[s.index + 1]? = none)
    (hcount : s.count s.index = 0) (left : Nat) {σ : State μ}
    (hv : σ.values < setup.options.maxValues) :
    ∃ τ, ByteGrammar.search setup (readElement setup (room + 1) frames) arrangement members frame
        frames (left + 2) s σ =
        (.ok (s.accept arrangement 1 (Value.leaf id (frame.start + s.consumed) 0),false),τ) ∧
      State.Counted (σ.moved (frame.start + s.consumed)) τ := by
  obtain ⟨τ,hread,hcounted⟩ := h.read hr hs room frames (σ := σ.moved (frame.start + s.consumed)) hv
  have hmost : mostCount setup frames id (σ.moved (frame.start + s.consumed)) = (.ok (some 1),_) :=
    most_count_literal h.most (by decide)
  have hleast : leastCount setup frames id (σ.moved (frame.start + s.consumed)) = (.ok 1,_) :=
    bound_literal h.least
  have hopen : reached (s.count s.index) (some 1) = false := by
    rw [hcount]
    rfl
  have hstep : searchStep setup (readElement setup (room + 1) frames) arrangement members frame
      frames s σ =
      (.ok (.searching (s.accept arrangement 1 (Value.leaf id (frame.start + s.consumed) 0))),
        τ) := by
    rw [search_step_eq, hmember]
    have hseek : seekTo (frame.start + s.consumed) σ =
      (.ok ⟨⟩,σ.moved (frame.start + s.consumed)) := rfl
    simp only [bind_run, hseek, hmost, hopen, Bool.false_eq_true, if_false, hleast, get_run,
      outcome_run, hread]
    rfl
  have hnext : (s.accept arrangement 1 (Value.leaf id (frame.start + s.consumed) 0)).index =
      s.index + 1 := by
    simp [Search.accept, Value.leaf]
  refine ⟨τ,?_,hcounted⟩
  rw [ByteGrammar.search, bind_run, hstep]
  dsimp only
  rw [ByteGrammar.search, bind_run, search_step_eq, hnext, hlast]
  rfl

theorem Resolved.RunsOnce.checked {n : ElementId} (h : setup.grammar.RunsOnce n)
    (frames : List Frame) (absent : Bool) (s : Search) (index : Nat) (σ : State μ) :
    checkCounts setup frames id absent s index [n] σ =
      if s.count index < 1 then
        (.error (if absent then .eof
          else .tooFew (setup.grammar.label id) (setup.grammar.label n) (s.count index) 1),σ)
      else (.ok ⟨⟩,σ) := by
  have hleast : leastCount setup frames n σ = (.ok 1,σ) := bound_literal h.least
  rw [checkCounts, bind_run, hleast]
  dsimp only
  by_cases hcount : s.count index < 1
  · rw [if_pos hcount, if_pos hcount]
    cases absent <;> rfl
  · rw [if_neg hcount, if_neg hcount]
    rfl

end

section
variable {setup : Setup μ} {g' : Resolved} {ρ : Nat → Nat} (hm : setup.grammar.Moves ρ g')
  {attempt attempt' : ElementId → DecodeM μ Value} {members : Array ElementId}
  (hknown : ∀ m ∈ members, m < setup.grammar.size)
  (hattempt : ∀ m ∈ members,
    Copies ρ 0 (Value.relabelled ρ) (attempt m) (attempt' (ρ m)))
  (hreader : KeepsReader attempt) (arrangement : Arrangement) (frame : Frame)
  (frames : List Frame) (n : ElementId)

theorem StepsTo.fits {s : Search} {σ τ : State μ} {stage : Search.Stage}
    (h : StepsTo setup attempt arrangement members frame frames s σ stage τ) :
    stage.search.counts.size = s.counts.size ∧
      stage.search.index ≤ max s.index members.size := by
  cases h with
  | done hnone => exact ⟨rfl,Nat.le_max_left _ _⟩
  | dry => exact ⟨rfl,Nat.le_max_left _ _⟩
  | passed hmember =>
    have hlt := (Array.getElem?_eq_some_iff.mp hmember).1
    exact ⟨rfl,Nat.le_trans hlt (Nat.le_max_right _ _)⟩
  | child hmember =>
    have hlt := (Array.getElem?_eq_some_iff.mp hmember).1
    refine ⟨by simp [Search.Stage.search, Search.accept],?_⟩
    simp only [Search.Stage.search, Search.accept]
    split
    · omega
    · cases arrangement <;> simp only <;> omega

include hm hknown hattempt hreader

/-- With one more member behind, a search goes the same way until it ends at the end of the data, or
comes to that member. -/
theorem search_comes_to {steps : Nat} {s s' : Search} {dry : Bool} {σ σ' τ : State μ}
    (hsize : s.counts.size = members.size) (hi : s.index ≤ members.size)
    (hst : State.Relabelled ρ 0 σ τ)
    (h : search setup attempt arrangement members frame frames steps s σ = (.ok (s',dry),σ'))
    (more : Nat) : s'.counts.size = members.size ∧ ∃ τ', State.Relabelled ρ 0 σ' τ' ∧
      (dry = true → search (setup.over g') attempt' arrangement (members.map ρ ++ #[n])
        (frame.relabelled ρ) (frames.map (Frame.relabelled ρ)) (steps + more) (s.relabelled ρ 1) τ =
          (.ok (s'.relabelled ρ 1,true),τ')) ∧
      (dry = false → s'.index = members.size ∧ ∃ left, more ≤ left ∧
        search (setup.over g') attempt' arrangement (members.map ρ ++ #[n])
          (frame.relabelled ρ) (frames.map (Frame.relabelled ρ)) (steps + more) (s.relabelled ρ 1)
          τ = search (setup.over g') attempt' arrangement (members.map ρ ++ #[n])
          (frame.relabelled ρ) (frames.map (Frame.relabelled ρ)) (left + 1) (s'.relabelled ρ 1)
          τ') := by
  -- Up to the last member both take the same steps. There the one search ends, and the other one
  -- stands before the call.
  induction steps generalizing s σ τ with
  | zero => cases h
  | succ steps ih =>
    rw [search] at h
    obtain ⟨stage,υ,hstep,h1⟩ := bind_ok.mp h
    have hsteps := search_step_cases hreader hstep
    obtain ⟨hsize',hindex'⟩ := hsteps.fits
    rcases Nat.lt_or_ge s.index members.size with hlt | hge
    · have hmember : (members.map ρ ++ #[n])[s.index]? = members[s.index]?.map ρ := by
        rw [Array.getElem?_append_left (by rw [Array.size_map]; exact hlt), Array.getElem?_map]
      have hcopies : Copies ρ 0 (Search.Stage.relabelled ρ 1) _ _ :=
        search_step_copies hm hknown hattempt arrangement frame frames (.inl (hsize ▸ hlt)) hmember
      obtain ⟨τ1,hstep',hst'⟩ := hcopies.ok hst hstep
      rw [Nat.succ_add, search, bind_run, hstep']
      cases stage with
      | searching next => exact ih (hsize'.trans hsize) (Nat.le_trans hindex' (by omega)) hst' h1
      | ended last d =>
        obtain ⟨hlast,rfl⟩ := pure_ok.mp h1
        cases hlast
        refine ⟨hsize'.trans hsize,τ1,hst',?_,?_⟩
        · rintro rfl
          rfl
        · rintro rfl
          cases hsteps with
          | done hnone => exact absurd hnone (by simp [hlt])
    · have hnone : members[s.index]? = none := Array.getElem?_eq_none hge
      rw [search_step_eq, hnone] at hstep
      obtain ⟨rfl,rfl⟩ := pure_ok.mp hstep
      obtain ⟨hlast,rfl⟩ := pure_ok.mp h1
      cases hlast
      refine ⟨hsize,τ,hst,Bool.noConfusion,fun _ => ⟨Nat.le_antisymm hi hge,steps + more,?_,?_⟩⟩
      · exact Nat.le_add_left _ _
      · rw [Nat.succ_add]

end

end ByteGrammar
