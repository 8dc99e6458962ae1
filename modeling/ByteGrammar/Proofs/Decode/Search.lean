import ByteGrammar.Proofs.Decode.State

/-!
# The course of a search

What the steps of a structure's search come to while they succeed: a member is passed, or a child
is read. What each of the two preserves holds at the end of the search. Likewise for the root,
which repeats its start element.
-/

set_option autoImplicit false

namespace ByteGrammar

open Stepwise DecodeM Source

variable {μ α : Type}

namespace State

variable {s t u : State μ}

structure Resumed (s t : State μ) : Prop where
  reader : SameReader s t
  history : t.history = s.history
  values : s.values ≤ t.values

theorem Resumed.refl (s : State μ) : Resumed s s := ⟨Lasting.refl s,rfl,Nat.le_refl _⟩

theorem Resumed.trans (h : Resumed s t) (k : Resumed t u) : Resumed s u :=
  ⟨Lasting.trans h.reader k.reader,k.history.trans h.history,Nat.le_trans h.values k.values⟩

theorem Kept.resumed (h : Kept s t) : Resumed s t :=
  ⟨h.source,h.history,Nat.le_of_eq h.values.symm⟩

theorem Resumed.moved (h : Resumed s t) (place : Nat) : Resumed s (t.moved place) :=
  ⟨Follows.moved h.reader place,h.history,h.values⟩

theorem Onward.restored (h : Onward s t) : Resumed s { t with history := s.history } :=
  ⟨h.reader,rfl,h.values⟩

end State

def KeepsReader (attempt : ElementId → DecodeM μ Value) : Prop :=
  ∀ id, Keeps State.Onward (attempt id)

section
variable (setup : Setup μ) (attempt : ElementId → DecodeM μ Value) (arrangement : Arrangement)
  (members : Array ElementId) (frame : Frame) (frames : List Frame)

inductive Advance : Search → State μ → Search → State μ → Prop
  | passed {s s' : Search} {σ τ : State μ} (same : s' = { s with index := s'.index })
      (later : s.index ≤ s'.index) (resumed : State.Resumed σ τ) : Advance s σ s' τ
  | child {s : Search} {σ ρ υ τ : State μ} {member : ElementId} {most : Option Nat}
      {least : Nat} {v : Value} (hmember : members[s.index]? = some member)
      (hmost : mostCount setup frames member (σ.moved (frame.start + s.consumed)) = (.ok most,ρ))
      (open_ : reached (s.count s.index) most = false)
      (hleast : leastCount setup frames member ρ = (.ok least,υ))
      (hread : attempt member υ = (.ok v,τ)) : Advance s σ (s.accept arrangement least v) τ

inductive Advances : Search → State μ → Search → State μ → Prop
  | refl (s : Search) (σ : State μ) : Advances s σ s σ
  | step {s s' s'' : Search} {σ τ υ : State μ}
      (first : Advance setup attempt arrangement members frame frames s σ s' τ)
      (rest : Advances s' τ s'' υ) : Advances s σ s'' υ

inductive StepsTo (s : Search) (σ : State μ) : Search.Stage → State μ → Prop
  | done (hnone : members[s.index]? = none) : StepsTo s σ (.ended s false) σ
  | dry {ρ υ φ τ : State μ} {member : ElementId} {most : Option Nat} {least : Nat}
      (hmember : members[s.index]? = some member)
      (hmost : mostCount setup frames member (σ.moved (frame.start + s.consumed)) = (.ok most,ρ))
      (open_ : reached (s.count s.index) most = false)
      (hleast : leastCount setup frames member ρ = (.ok least,υ))
      (hread : attempt member υ = (.error .eof,φ)) (resumed : State.Resumed σ τ) :
      StepsTo s σ (.ended s true) τ
  | passed {member : ElementId} {τ : State μ} (hmember : members[s.index]? = some member)
      (resumed : State.Resumed σ τ) : StepsTo s σ (.searching s.next) τ
  | child {ρ υ τ : State μ} {member : ElementId} {most : Option Nat} {least : Nat} {v : Value}
      (hmember : members[s.index]? = some member)
      (hmost : mostCount setup frames member (σ.moved (frame.start + s.consumed)) = (.ok most,ρ))
      (open_ : reached (s.count s.index) most = false)
      (hleast : leastCount setup frames member ρ = (.ok least,υ))
      (hread : attempt member υ = (.ok v,τ)) :
      StepsTo s σ (.searching (s.accept arrangement least v)) τ

end

namespace Search.Stage

def search : Search.Stage → Search
  | searching s => s
  | ended s _ => s

end Search.Stage

section
variable {setup : Setup μ} {attempt : ElementId → DecodeM μ Value} {arrangement : Arrangement}
  {members : Array ElementId} {frame : Frame} {frames : List Frame}

def afterAttempt (arrangement : Arrangement) (frame : Frame) (s : Search) (member : ElementId)
    (least : Nat) (saved : List Value) : Except DecodeFault Value → DecodeM μ Search.Stage
  | .ok v => pure (.searching (s.accept arrangement least v))
  | .error fault => do
    if fault.isFatal then throw fault
    restore saved
    if fault.isEof then pure (.ended s true)
    else
      match arrangement with
      | .fixed => if least ≤ s.count s.index then pure (.searching s.next) else throw fault
      | .variable =>
        log (.passedOver (frame.start + s.consumed) member fault)
        pure (.searching s.next)

theorem search_step_eq (s : Search) :
    searchStep setup attempt arrangement members frame frames s =
      match members[s.index]? with
      | none => pure (.ended s false)
      | some member =>
        seekTo (frame.start + s.consumed) >>= fun _ =>
          mostCount setup frames member >>= fun most =>
            if reached (s.count s.index) most then pure (.searching s.next)
            else leastCount setup frames member >>= fun least => get >>= fun σ =>
              outcome (attempt member) >>=
                afterAttempt arrangement frame s member least σ.history := rfl

theorem eof_of_is_eof {fault : DecodeFault} (h : fault.isEof) : fault = .eof := by
  cases fault <;> first | rfl | cases h

/-- An attempt that fails and does not end the decode leaves the search where it was, at the end of
the data, or one member further. What it has recorded is taken back. -/
theorem after_attempt_settles {s : Search} {member : ElementId} {least : Nat} {saved : List Value}
    {fault : DecodeFault} {σ τ : State μ} {stage : Search.Stage}
    (h : afterAttempt arrangement frame s member least saved (.error fault) σ =
      (.ok stage,τ)) :
    (stage = .ended s true ∧ fault = .eof ∨
      stage = .searching s.next ∧ fault.isFatal = false ∧ fault.isEof = false) ∧
      State.Quiet { σ with history := saved } τ := by
  have hfatal : fault.isFatal = false := by
    cases hf : fault.isFatal with
    | false => rfl
    | true =>
      simp only [afterAttempt, if_pos hf] at h
      cases h
  simp only [afterAttempt, hfatal, Bool.false_eq_true, if_false] at h
  obtain ⟨_,_,hr,h1⟩ := bind_ok.mp h
  cases hr
  by_cases he : fault.isEof
  · rw [if_pos he] at h1
    obtain ⟨rfl,rfl⟩ := pure_ok.mp h1
    exact ⟨.inl ⟨rfl,eof_of_is_eof he⟩,State.Quiet.refl _⟩
  · rw [if_neg he] at h1
    have hmild : fault.isEof = false := Bool.eq_false_iff.mpr he
    cases arrangement with
    | fixed =>
      dsimp only at h1
      split at h1
      · obtain ⟨rfl,rfl⟩ := pure_ok.mp h1
        exact ⟨.inr ⟨rfl,hfatal,hmild⟩,State.Quiet.refl _⟩
      · cases h1
    | «variable» =>
      obtain ⟨_,_,hl,h2⟩ := bind_ok.mp h1
      obtain rfl := log_ok hl
      obtain ⟨rfl,rfl⟩ := pure_ok.mp h2
      exact ⟨.inr ⟨rfl,hfatal,hmild⟩,State.noted_quiet _ _⟩

theorem after_attempt_ok {s : Search} {member : ElementId} {least : Nat} {saved : List Value}
    {fault : DecodeFault} {σ τ : State μ} {stage : Search.Stage}
    (h : afterAttempt arrangement frame s member least saved (.error fault) σ =
      (.ok stage,τ)) :
    (stage = .ended s true ∧ fault = .eof ∨ stage = .searching s.next) ∧
      State.Resumed { σ with history := saved } τ := by
  obtain ⟨hstage,hquiet⟩ := after_attempt_settles h
  exact ⟨hstage.imp_right And.left,hquiet.kept.resumed⟩

theorem search_step_cases (ha : KeepsReader attempt) {s : Search} {σ τ : State μ}
    {stage : Search.Stage}
    (h : searchStep setup attempt arrangement members frame frames s σ = (.ok stage,τ)) :
    StepsTo setup attempt arrangement members frame frames s σ stage τ := by
  rw [search_step_eq] at h
  cases hm : members[s.index]? with
  | none =>
    rw [hm] at h
    obtain ⟨rfl,rfl⟩ := pure_ok.mp h
    exact .done hm
  | some member =>
    rw [hm] at h
    obtain ⟨_,_,hs,h1⟩ := bind_ok.mp h
    obtain rfl := seek_ok hs
    obtain ⟨most,ρ,hmost,h2⟩ := bind_ok.mp h1
    have hρ := ((bound_quiet setup frames member _ _).of_run hmost).kept.resumed
    have hσ := ((State.Resumed.refl σ).moved (frame.start + s.consumed)).trans hρ
    cases hfull : reached (s.count s.index) most with
    | true =>
      rw [if_pos hfull] at h2
      obtain ⟨rfl,rfl⟩ := pure_ok.mp h2
      exact .passed hm hσ
    | false =>
      rw [if_neg (by simp [hfull])] at h2
      obtain ⟨least,υ,hleast,h3⟩ := bind_ok.mp h2
      have hυ := ((bound_quiet setup frames member _ _).of_run hleast).kept.resumed
      obtain ⟨_,_,hget,h4⟩ := bind_ok.mp h3
      cases hget
      obtain ⟨result,τ',hout,h5⟩ := bind_ok.mp h4
      have hread := outcome_ok hout
      cases result with
      | ok v =>
        obtain ⟨rfl,rfl⟩ := pure_ok.mp h5
        exact .child hm hmost hfull hleast hread
      | error fault =>
        obtain ⟨hstage,hback⟩ := after_attempt_ok h5
        have hsaved : State.Onward υ τ' := (ha member).of_run hread
        have hτ := ((hσ.trans hυ).trans hsaved.restored).trans hback
        rcases hstage with ⟨rfl,rfl⟩ | rfl
        · exact .dry hm hmost hfull hleast hread hτ
        · exact .passed hm hτ

theorem search_step_ok (ha : KeepsReader attempt) {s : Search} {σ τ : State μ}
    {stage : Search.Stage}
    (h : searchStep setup attempt arrangement members frame frames s σ = (.ok stage,τ)) :
    Advance setup attempt arrangement members frame frames s σ stage.search τ := by
  cases search_step_cases ha h with
  | done hnone => exact .passed rfl (Nat.le_refl _) (State.Resumed.refl σ)
  | dry hmember hmost open_ hleast hread resumed => exact .passed rfl (Nat.le_refl _) resumed
  | passed hmember resumed => exact .passed rfl (Nat.le_succ _) resumed
  | child hmember hmost open_ hleast hread => exact .child hmember hmost open_ hleast hread

theorem search_ends (ha : KeepsReader attempt) {steps : Nat} {s s' : Search} {σ τ : State μ}
    {dry : Bool}
    (h : search setup attempt arrangement members frame frames steps s σ = (.ok (s',dry),τ)) :
    ∃ ω, Advances setup attempt arrangement members frame frames s σ s' ω ∧
      StepsTo setup attempt arrangement members frame frames s' ω (.ended s' dry) τ := by
  induction steps generalizing s σ with
  | zero => cases h
  | succ steps ih =>
    rw [search] at h
    obtain ⟨stage,ρ,hstep,hrest⟩ := bind_ok.mp h
    cases stage with
    | searching next =>
      obtain ⟨ω,hadv,hend⟩ := ih hrest
      exact ⟨ω,.step (search_step_ok ha hstep) hadv,hend⟩
    | ended last dry =>
      cases hrest
      cases search_step_cases ha hstep with
      | done hnone => exact ⟨_,.refl _ _,.done hnone⟩
      | dry hmember hmost open_ hleast hread resumed =>
        exact ⟨_,.refl _ _,.dry hmember hmost open_ hleast hread resumed⟩

theorem Advances.then {s s' s'' : Search} {σ τ υ : State μ}
    (h : Advances setup attempt arrangement members frame frames s σ s' τ)
    (k : Advance setup attempt arrangement members frame frames s' τ s'' υ) :
    Advances setup attempt arrangement members frame frames s σ s'' υ := by
  induction h with
  | refl => exact .step k (.refl _ _)
  | step first rest ih => exact .step first (ih k)

theorem search_ok (ha : KeepsReader attempt) {steps : Nat} {s s' : Search} {σ τ : State μ}
    {dry : Bool}
    (h : search setup attempt arrangement members frame frames steps s σ = (.ok (s',dry),τ)) :
    Advances setup attempt arrangement members frame frames s σ s' τ := by
  obtain ⟨ω,hadv,hend⟩ := search_ends ha h
  cases hend with
  | done => exact hadv
  | dry hmember hmost open_ hleast hread resumed =>
    exact hadv.then (.passed rfl (Nat.le_refl _) resumed)

/-- What every step of a search preserves, the search preserves. -/
theorem Advances.preserves {I : Search → State μ → Prop}
    (step : ∀ {s σ s' τ}, Advance setup attempt arrangement members frame frames s σ s' τ →
      I s σ → I s' τ) {s s' : Search} {σ τ : State μ}
    (h : Advances setup attempt arrangement members frame frames s σ s' τ) (hs : I s σ) :
    I s' τ := by
  induction h with
  | refl => exact hs
  | step first rest ih => exact ih (step first hs)

theorem accept_children (arrangement : Arrangement) (least : Nat) (s : Search) (v : Value) :
    (s.accept arrangement least v).children.toList = s.children.toList ++ [v] :=
  Array.toList_push

theorem accept_count {s : Search} {v : Value} (h : s.index < s.counts.size)
    (arrangement : Arrangement) (least i : Nat) :
    (s.accept arrangement least v).count i =
      if s.index = i then s.count i + 1 else s.count i := by
  show (s.counts.setIfInBounds s.index (s.count s.index + 1)).getD i 0 = _
  rw [Array.getD_eq_getD_getElem?, Array.getElem?_setIfInBounds]
  split
  · next hi =>
    subst hi
    rfl
  · rw [← Array.getD_eq_getD_getElem?]
    rfl

theorem Advances.forall_children {Q : Value → Prop}
    (read : ∀ {id σ v τ}, attempt id σ = (.ok v,τ) → Q v) {s s' : Search} {σ τ : State μ}
    (h : Advances setup attempt arrangement members frame frames s σ s' τ)
    (hs : ∀ w ∈ s.children.toList, Q w) : ∀ w ∈ s'.children.toList, Q w := by
  refine h.preserves (I := fun s _ => ∀ w ∈ s.children.toList, Q w) (fun hadv hs => ?_) hs
  cases hadv with
  | passed same later resumed =>
    rw [same]
    exact hs
  | child hmember hmost room hleast hread =>
    rw [accept_children]
    exact List.forall_mem_append.mpr ⟨hs,List.forall_mem_singleton.mpr (read hread)⟩

theorem child_quiet {s : Search} {σ ρ υ : State μ} {member : ElementId} {most : Option Nat}
    {least : Nat}
    (hmost : mostCount setup frames member (σ.moved (frame.start + s.consumed)) = (.ok most,ρ))
    (hleast : leastCount setup frames member ρ = (.ok least,υ)) :
    State.Quiet (σ.moved (frame.start + s.consumed)) υ :=
  ((bound_quiet _ _ _ _ _).of_run hmost).trans ((bound_quiet _ _ _ _ _).of_run hleast)

end

theorem outcome_keeps {R : State μ → State μ → Prop} {action : DecodeM μ α}
    (h : Keeps R action) : Keeps R (outcome action) := h

section
variable {R : State μ → State μ → Prop} [State.Holding R]

theorem quiet_holds {action : DecodeM μ α} (h : Keeps State.Quiet action) : Keeps R action :=
  h.mono State.Holding.quiet

theorem after_attempt_holds (arrangement : Arrangement) (frame : Frame) (s : Search)
    (member : ElementId) (least : Nat) (saved : List Value)
    (result : Except DecodeFault Value) :
    Keeps R (afterAttempt arrangement frame s member least saved result : DecodeM μ _) := by
  cases result with
  | ok v => exact pure_keeps _
  | error fault =>
    unfold afterAttempt
    dsimp only
    split
    · exact throw_bind_keeps _ _
    · refine bind_keeps (fun s => State.Holding.restored s saved) fun _ => ?_
      split
      · exact pure_keeps _
      · cases arrangement with
        | fixed =>
          dsimp only
          split
          · exact pure_keeps _
          · exact throw_keeps _
        | «variable» => exact bind_keeps (quiet_holds (log_quiet _)) fun _ => pure_keeps _

end

/-- What a step does with an attempt that failed, it does in the state that the attempt has left, or
with what the attempt has recorded taken back. -/
theorem after_attempt_left (arrangement : Arrangement) (frame : Frame) (s : Search)
    (member : ElementId) (least : Nat) (saved : List Value) (fault : DecodeFault) :
    Keeps (fun σ τ => State.Quiet σ τ ∨ State.Quiet { σ with history := saved } τ)
      (afterAttempt arrangement frame s member least saved (.error fault) : DecodeM μ _) := by
  intro σ
  have hrestore : restore saved σ = (.ok ⟨⟩,{ σ with history := saved }) := rfl
  unfold afterAttempt
  dsimp only
  split
  · exact .inl (State.Quiet.refl σ)
  · refine .inr ?_
    simp only [bind_run, hrestore]
    split
    · exact State.Quiet.refl _
    · cases arrangement with
      | fixed =>
        dsimp only
        split <;> exact State.Quiet.refl _
      | «variable» => exact State.noted_quiet _ _

section
variable {setup : Setup μ} {attempt : ElementId → DecodeM μ Value} {R : State μ → State μ → Prop}
  [State.Enduring R]

theorem quiet_endures {action : DecodeM μ α} (h : Keeps State.Quiet action) : Keeps R action :=
  h.mono State.Enduring.quiet

theorem attempt_keeps {member : ElementId} (ha : Keeps R (attempt member))
    (arrangement : Arrangement) (frame : Frame) (s : Search) (least : Nat) :
    Keeps R (get >>= fun σ => outcome (attempt member) >>=
      afterAttempt arrangement frame s member least σ.history) := by
  intro σ
  have hσ := ha σ
  simp only [bind_run, get_run, outcome_run]
  rcases hread : attempt member σ with ⟨fault | v, ω⟩ <;> rw [hread] at hσ
  · rcases after_attempt_left arrangement frame s member least σ.history fault ω with
      hquiet | hquiet
    · exact Lasting.trans hσ (State.Enduring.quiet hquiet)
    · exact Lasting.trans (State.Enduring.revoked hσ) (State.Enduring.quiet hquiet)
  · exact hσ

theorem search_step_keeps (ha : ∀ id, Keeps R (attempt id)) (arrangement : Arrangement)
    (members : Array ElementId) (frame : Frame) (frames : List Frame) (s : Search) :
    Keeps R (searchStep setup attempt arrangement members frame frames s) := by
  rw [search_step_eq]
  cases members[s.index]? with
  | none => exact pure_keeps _
  | some member =>
    refine bind_keeps (seek_keeps _) fun _ => ?_
    refine bind_keeps (quiet_endures (bound_quiet _ _ _ _ _)) fun most => ?_
    split
    · exact pure_keeps _
    · refine bind_keeps (quiet_endures (bound_quiet _ _ _ _ _)) fun least => ?_
      exact attempt_keeps (ha member) _ _ _ _

theorem search_keeps (ha : ∀ id, Keeps R (attempt id)) (arrangement : Arrangement)
    (members : Array ElementId) (frame : Frame) (frames : List Frame) (steps : Nat)
    (s : Search) :
    Keeps R (search setup attempt arrangement members frame frames steps s) := by
  induction steps generalizing s with
  | zero => exact throw_keeps _
  | succ steps ih =>
    rw [search]
    refine bind_keeps (search_step_keeps ha _ _ _ _ _) fun stage => ?_
    cases stage with
    | searching next => exact ih next
    | ended last dry => exact pure_keeps _

end

section
variable {setup : Setup μ}

theorem check_counts_quiet (setup : Setup μ) (frames : List Frame) (id : ElementId)
    (absent : Bool) (s : Search) (index : Nat) (members : List ElementId) :
    Keeps State.Quiet (checkCounts setup frames id absent s index members) := by
  induction members generalizing index with
  | nil => exact pure_keeps _
  | cons member rest ih =>
    rw [checkCounts]
    refine bind_keeps (bound_quiet _ _ _ _ _) fun least => ?_
    dsimp only
    split
    · split
      · exact throw_bind_keeps _ _
      · exact throw_bind_keeps _ _
    · exact ih _

theorem check_counts_congr {setup setup' : Setup μ} (h : setup'.grammar = setup.grammar)
    (frames : List Frame) (id : ElementId) (absent : Bool) (s : Search) (index : Nat)
    (members : List ElementId) :
    checkCounts setup' frames id absent s index members =
      checkCounts setup frames id absent s index members := by
  induction members generalizing index with
  | nil => rfl
  | cons member rest ih =>
    have hleast : leastCount setup' frames member = leastCount setup frames member := by
      funext σ
      simp only [leastCount, boundOf, bind_run, evaluate_run, h]
    simp only [checkCounts, hleast, h, ih]

theorem padding_of_quiet (setup : Setup μ) (frame : Frame) (id : ElementId)
    (declared : Option Nat) (consumed : Nat) :
    Keeps State.Quiet (paddingOf setup frame id declared consumed) := by
  unfold paddingOf
  cases declared with
  | none => exact pure_keeps _
  | some declared =>
    dsimp only
    split
    · exact pure_keeps _
    · split
      · exact pure_keeps _
      · split <;> exact throw_keeps _

theorem check_counts_ok {frames : List Frame} {id : ElementId} {absent : Bool} {s : Search}
    {index : Nat} {members : List ElementId} {σ τ : State μ} {u : Unit}
    (h : checkCounts setup frames id absent s index members σ = (.ok u,τ)) {i : Nat}
    {member : ElementId} (hi : members[i]? = some member) :
    ∃ least ρ υ, State.Quiet σ ρ ∧ leastCount setup frames member ρ = (.ok least,υ) ∧
      least ≤ s.count (index + i) := by
  induction members generalizing index i σ with
  | nil => cases hi
  | cons first rest ih =>
    rw [checkCounts] at h
    obtain ⟨least,ρ,hl,h1⟩ := bind_ok.mp h
    dsimp only at h1
    split at h1
    · split at h1
      · cases h1
      · cases h1
    · next hc =>
      cases i with
      | zero =>
        cases hi
        exact ⟨least,σ,ρ,State.Quiet.refl σ,hl,Nat.le_of_not_lt hc⟩
      | succ i =>
        obtain ⟨m,ρ',υ,hρ',hm,hle⟩ := ih h1 hi
        exact ⟨m,ρ',υ,((bound_quiet _ _ _ _ _).of_run hl).trans hρ',hm,
          by rwa [Nat.add_right_comm, Nat.add_assoc] at hle⟩

theorem padding_of_ok {frame : Frame} {id : ElementId} {declared : Option Nat}
    {consumed : Nat} {σ τ : State μ} {padding : List Value}
    (h : paddingOf setup frame id declared consumed σ = (.ok padding,τ)) :
    σ = τ ∧ ((padding = [] ∧ ∀ length ∈ declared, length ≤ consumed) ∨
      ∃ length, declared = some length ∧ consumed < length ∧
        length ≤ frame.finish - frame.start ∧
        padding = [Value.leaf setup.grammar.padding (frame.start + consumed)
          (length - consumed)]) := by
  unfold paddingOf at h
  cases declared with
  | none =>
    obtain ⟨rfl,rfl⟩ := pure_ok.mp h
    exact ⟨rfl,.inl ⟨rfl,nofun⟩⟩
  | some length =>
    dsimp only at h
    by_cases hc : length ≤ consumed
    · rw [if_pos hc] at h
      obtain ⟨rfl,rfl⟩ := pure_ok.mp h
      refine ⟨rfl,.inl ⟨rfl,fun n hn => ?_⟩⟩
      cases hn
      exact hc
    · rw [if_neg hc] at h
      by_cases hb : length ≤ frame.finish - frame.start
      · rw [if_pos hb] at h
        obtain ⟨rfl,rfl⟩ := pure_ok.mp h
        exact ⟨rfl,.inr ⟨length,rfl,Nat.lt_of_not_le hc,hb,rfl⟩⟩
      · rw [if_neg hb] at h
        split at h <;> cases h

end

end ByteGrammar
