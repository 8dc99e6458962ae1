import ByteGrammar.Proofs.Decode.Forms
import ByteGrammar.Proofs.Decode.Shape
import ByteGrammar.Proofs.Resolved.Members

/-!
# Structures without fixed order

The search of such a structure tries its members from the first one on, and begins again with the
first after each child that takes up bytes. So every such child was passed over by all members
before its own at the place where it begins, and all members are passed over where the search ends.
-/

set_option autoImplicit false

namespace ByteGrammar

open Stepwise DecodeM Source

variable {μ : Type}

inductive Verdict where
  | full
  | refused (fault : DecodeFault)
  | taken (v : Value)

namespace Verdict

def child? : Verdict → Option Value
  | taken v => some v
  | _ => none

def Stays : Verdict → Prop
  | full => True
  | refused fault => fault.isFatal = false ∧ fault.isEof = false
  | taken v => v.length = 0

end Verdict

structure Trial where
  index : Nat
  place : Nat
  verdict : Verdict

def Swept (trials : List Trial) (count place : Nat) : Prop :=
  ∃ earlier sweep, trials = earlier ++ sweep ∧ sweep.map Trial.index = List.range count ∧
    ∀ t ∈ sweep, t.place = place ∧ t.verdict.Stays

theorem swept_none (trials : List Trial) (place : Nat) : Swept trials 0 place :=
  ⟨trials,[],(List.append_nil _).symm,rfl,List.forall_mem_nil _⟩

theorem Swept.snoc {trials : List Trial} {index place : Nat} {verdict : Verdict}
    (h : Swept trials index place) (hstays : verdict.Stays) :
    Swept (trials ++ [⟨index,place,verdict⟩]) (index + 1) place := by
  obtain ⟨earlier,sweep,rfl,hindex,hall⟩ := h
  refine ⟨earlier,sweep ++ [⟨index,place,verdict⟩],List.append_assoc _ _ _,?_,?_⟩
  · rw [List.map_append, hindex, List.range_succ]
    rfl
  · exact List.forall_mem_append.mpr ⟨hall,List.forall_mem_singleton.mpr ⟨rfl,hstays⟩⟩

section
variable (setup : Setup μ) (attempt : ElementId → DecodeM μ Value) (arrangement : Arrangement)
  (members : Array ElementId) (frame : Frame) (frames : List Frame)

inductive Tries (s : Search) (σ : State μ) : Trial → Search → State μ → Prop
  | full {member : ElementId} {most : Option Nat} {τ : State μ}
      (next : members[s.index]? = some member)
      (hmost : mostCount setup frames member (σ.moved (frame.start + s.consumed)) = (.ok most,τ))
      (filled : reached (s.count s.index) most = true) :
      Tries s σ ⟨s.index,frame.start + s.consumed,.full⟩ s.next τ
  | refused {member : ElementId} {least : Nat} {υ ω τ : State μ} {fault : DecodeFault}
      (approach : Approach setup members frame frames s σ member least υ)
      (read : attempt member υ = (.error fault,ω))
      (after : afterAttempt arrangement frame s member least υ.history (.error fault) ω =
        (.ok (.searching s.next),τ)) :
      Tries s σ ⟨s.index,frame.start + s.consumed,.refused fault⟩ s.next τ
  | taken {member : ElementId} {least : Nat} {υ τ : State μ} {v : Value}
      (approach : Approach setup members frame frames s σ member least υ)
      (read : attempt member υ = (.ok v,τ)) :
      Tries s σ ⟨s.index,frame.start + s.consumed,.taken v⟩ (s.accept arrangement least v) τ

/-- The trials of a search, one after the other. -/
inductive Trials : Search → State μ → List Trial → Search → State μ → Prop
  | done (s : Search) (σ : State μ) : Trials s σ [] s σ
  | more {s s' s'' : Search} {σ ρ τ : State μ} {t : Trial} {trials : List Trial}
      (first : Tries setup attempt arrangement members frame frames s σ t s' ρ)
      (rest : Trials s' ρ trials s'' τ) : Trials s σ (t :: trials) s'' τ

inductive Concludes (s : Search) (σ : State μ) :
    Except DecodeFault (Search × Bool) × State μ → Prop
  | ended {last : Search} {dry : Bool} {τ : State μ}
      (step : searchStep setup attempt arrangement members frame frames s σ =
        (.ok (.ended last dry),τ)) : Concludes s σ (.ok (last,dry),τ)
  | failed {fault : DecodeFault} {τ : State μ}
      (step : searchStep setup attempt arrangement members frame frames s σ =
        (.error fault,τ)) : Concludes s σ (.error fault,τ)

end

def firstIndex : List Trial → Search → Nat
  | [], s => s.index
  | t :: _, _ => t.index

section
variable {setup : Setup μ} {attempt : ElementId → DecodeM μ Value} {arrangement : Arrangement}
  {members : Array ElementId} {frame : Frame} {frames : List Frame} {s s' : Search}
  {σ τ : State μ} {t : Trial} {before after trials : List Trial}

theorem Approach.step {member : ElementId} {least : Nat} {υ : State μ}
    (h : Approach setup members frame frames s σ member least υ) :
    searchStep setup attempt arrangement members frame frames s σ =
      (outcome (attempt member) >>= afterAttempt arrangement frame s member least υ.history) υ := by
  obtain ⟨most,ρ,hmost,hroom,hleast⟩ := h.bounds
  have hseek : seekTo (frame.start + s.consumed) σ =
      (.ok ⟨⟩,σ.moved (frame.start + s.consumed)) := rfl
  rw [search_step_eq, h.next]
  simp only [bind_run, hseek, hmost, hroom, Bool.false_eq_true, if_false, hleast, get_run]

theorem search_step_goes :
    searchStep setup attempt arrangement members frame frames s σ = (.ok (.searching s'),τ) ↔
      ∃ t, Tries setup attempt arrangement members frame frames s σ t s' τ := by
  constructor
  · intro h
    have hstep := h
    rw [search_step_eq] at h
    cases hm : members[s.index]? with
    | none =>
      rw [hm] at h
      cases h
    | some member =>
      rw [hm] at h
      obtain ⟨_,_,hs,h1⟩ := bind_ok.mp h
      obtain rfl := seek_ok hs
      obtain ⟨most,ρ,hmost,h2⟩ := bind_ok.mp h1
      cases hfull : reached (s.count s.index) most with
      | true =>
        rw [if_pos hfull] at h2
        obtain ⟨hs',rfl⟩ := pure_ok.mp h2
        cases hs'
        exact ⟨_,.full hm hmost hfull⟩
      | false =>
        rw [if_neg (by simp [hfull])] at h2
        obtain ⟨least,υ,hleast,-⟩ := bind_ok.mp h2
        have happroach : Approach setup members frame frames s σ member least υ :=
          ⟨hm,most,ρ,hmost,hfull,hleast⟩
        rw [happroach.step, bind_run, outcome_run] at hstep
        rcases hread : attempt member υ with ⟨fault | v, ω⟩ <;> rw [hread] at hstep
        · have hnext := (after_attempt_ok hstep).1
          rcases hnext with ⟨hended,-⟩ | hnext
          · cases hended
          · cases hnext
            exact ⟨_,.refused happroach hread hstep⟩
        · cases hstep
          exact ⟨_,.taken happroach hread⟩
  · rintro ⟨t,h⟩
    cases h with
    | full next hmost filled =>
      have hseek : seekTo (frame.start + s.consumed) σ =
          (.ok ⟨⟩,σ.moved (frame.start + s.consumed)) := rfl
      rw [search_step_eq, next]
      simp only [bind_run, hseek, hmost, if_pos filled, pure_run]
    | refused approach read after =>
      rw [approach.step, bind_run, outcome_run, read]
      exact after
    | taken approach read =>
      rw [approach.step, bind_run, outcome_run, read]
      rfl

theorem Tries.index (h : Tries setup attempt arrangement members frame frames s σ t s' τ) :
    t.index = s.index := by
  cases h <;> rfl

theorem Tries.children (h : Tries setup attempt arrangement members frame frames s σ t s' τ) :
    s'.children.toList = s.children.toList ++ t.verdict.child?.toList := by
  cases h with
  | full | refused => exact (List.append_nil _).symm
  | taken approach read => exact accept_children _ _ _ _

theorem accept_passes {least : Nat} {v : Value} (h : v.length = 0 ∧ least ≤ s.count s.index + 1) :
    (s.accept arrangement least v).index = s.index + 1 := if_pos h

theorem accept_restarts {least : Nat} {v : Value}
    (h : ¬(v.length = 0 ∧ least ≤ s.count s.index + 1)) :
    (s.accept .variable least v).index = 0 := if_neg h

theorem Tries.swept (h : Tries setup attempt .variable members frame frames s σ t s' τ)
    (hs : Swept before s.index (frame.start + s.consumed)) :
    Swept (before ++ [t]) s'.index (frame.start + s'.consumed) := by
  cases h with
  | full => exact hs.snoc trivial
  | refused approach read after =>
    rcases (after_attempt_settles after).1 with ⟨hended,-⟩ | ⟨-,hmild⟩
    · cases hended
    · exact hs.snoc hmild
  | @taken member least υ τ v approach read =>
    by_cases hpass : v.length = 0 ∧ least ≤ s.count s.index + 1
    · have hstays : Verdict.Stays (.taken v) := hpass.1
      have hconsumed : (s.accept .variable least v).consumed = s.consumed := by
        simp only [Search.accept, hpass.1, Nat.add_zero]
      rw [accept_passes hpass, hconsumed]
      exact hs.snoc hstays
    · rw [accept_restarts hpass]
      exact swept_none _ _

theorem Tries.restarts (h : Tries setup attempt .variable members frame frames s σ t s' τ)
    {v : Value} (hv : t.verdict = .taken v) (hlength : v.length ≠ 0) : s'.index = 0 := by
  cases h with
  | full => cases hv
  | refused => cases hv
  | taken approach read =>
    cases hv
    exact accept_restarts (not_and_of_not_left _ hlength)

theorem Tries.within (h : Tries setup attempt arrangement members frame frames s σ t s' τ) :
    s'.index ≤ members.size := by
  cases h with
  | full next => exact (Array.getElem?_eq_some_iff.mp next).1
  | refused approach => exact approach.index
  | taken approach =>
    have hindex := approach.index
    simp only [Search.accept]
    split
    · omega
    · cases arrangement <;> simp only <;> omega

theorem Trials.within (h : Trials setup attempt arrangement members frame frames s σ trials s' τ)
    (hs : s.index ≤ members.size) : s'.index ≤ members.size := by
  induction h with
  | done => exact hs
  | more first rest ih => exact ih first.within

theorem Trials.children
    (h : Trials setup attempt arrangement members frame frames s σ trials s' τ) :
    s'.children.toList = s.children.toList ++ trials.filterMap fun t => t.verdict.child? := by
  induction h with
  | done => exact (List.append_nil _).symm
  | @more _ _ _ _ _ _ t _ first rest ih =>
    rw [ih, first.children, List.append_assoc]
    rw [List.filterMap_cons]
    cases t.verdict.child? <;> rfl

theorem Trials.swept (h : Trials setup attempt .variable members frame frames s σ trials s' τ)
    (hs : Swept before s.index (frame.start + s.consumed)) :
    Swept (before ++ trials) s'.index (frame.start + s'.consumed) := by
  induction h generalizing before with
  | done =>
    rw [List.append_nil]
    exact hs
  | @more _ _ _ _ _ _ t trials first rest ih =>
    rw [List.append_cons before t trials]
    exact ih (first.swept hs)

theorem Trials.split
    (h : Trials setup attempt arrangement members frame frames s σ (before ++ after) s' τ) :
    ∃ r ρ, Trials setup attempt arrangement members frame frames s σ before r ρ ∧
      Trials setup attempt arrangement members frame frames r ρ after s' τ := by
  induction before generalizing s σ with
  | nil => exact ⟨s,σ,.done s σ,h⟩
  | cons t before ih =>
    cases h with
    | more first rest =>
      obtain ⟨r,ρ,hbefore,hafter⟩ := ih rest
      exact ⟨r,ρ,.more first hbefore,hafter⟩

theorem Trials.first_index
    (h : Trials setup attempt arrangement members frame frames s σ trials s' τ) :
    firstIndex trials s' = s.index := by
  cases h with
  | done => rfl
  | more first rest => exact first.index

/-- A search that needs no more than its budget is a run of trials up to the step that ends it. -/
theorem search_trials
    (hcount : ∀ {id σ v τ}, attempt id σ = (.ok v,τ) →
      σ.values < τ.values ∧ τ.values ≤ setup.options.maxValues)
    (hreader : KeepsReader attempt) (hs : s.index ≤ members.size) {steps : Nat}
    (hsteps : searchBudget setup members s σ ≤ steps) :
    ∃ trials s' ω, Trials setup attempt arrangement members frame frames s σ trials s' ω ∧
      Concludes setup attempt arrangement members frame frames s' ω
        (search setup attempt arrangement members frame frames steps s σ) := by
  induction steps generalizing s σ with
  | zero => exact absurd (search_budget_pos hs σ) (Nat.not_lt.mpr hsteps)
  | succ steps ih =>
    rw [search, bind_run]
    rcases hstep : searchStep setup attempt arrangement members frame frames s σ with
      ⟨fault | stage, ρ⟩
    · exact ⟨[],s,σ,.done s σ,.failed hstep⟩
    · cases stage with
      | ended last dry => exact ⟨[],s,σ,.done s σ,.ended hstep⟩
      | searching next =>
        obtain ⟨t,htry⟩ := search_step_goes.mp hstep
        obtain ⟨hindex,hless⟩ := (search_step_cases hreader hstep).budget hcount
        have hleft : searchBudget setup members next ρ ≤ steps := by omega
        obtain ⟨trials,s',ω,hrest,hend⟩ := ih hindex hleft
        exact ⟨t :: trials,s',ω,.more htry hrest,hend⟩

/-- The search that comes to its end is the one that has ended. If that was not at the end of the
data, it has come past the last member. -/
theorem Concludes.last {last : Search} {dry : Bool}
    (h : Concludes setup attempt arrangement members frame frames s σ (.ok (last,dry),τ)) :
    last = s ∧ (dry = false → members.size ≤ s.index) := by
  cases h with
  | ended step =>
    rw [search_step_eq] at step
    cases hm : members[s.index]? with
    | none =>
      rw [hm] at step
      cases step
      exact ⟨rfl,fun _ => Array.getElem?_eq_none_iff.mp hm⟩
    | some member =>
      rw [hm] at step
      obtain ⟨_,_,-,h1⟩ := bind_ok.mp step
      obtain ⟨most,ρ,-,h2⟩ := bind_ok.mp h1
      split at h2
      · cases h2
      · obtain ⟨least,υ,-,h3⟩ := bind_ok.mp h2
        obtain ⟨_,_,-,h4⟩ := bind_ok.mp h3
        obtain ⟨result,ω,-,h5⟩ := bind_ok.mp h4
        cases result with
        | ok v => cases h5
        | error fault =>
          rcases (after_attempt_settles h5).1 with ⟨hended,-⟩ | ⟨hnext,-⟩
          · cases hended
            exact ⟨rfl,nofun⟩
          · cases hnext

theorem Approach.position {member : ElementId} {least : Nat} {υ : State μ}
    (h : Approach setup members frame frames s σ member least υ) :
    υ.source.position = frame.start + s.consumed := by
  obtain ⟨most,ρ,hmost,-,hleast⟩ := h.bounds
  exact (child_quiet hmost hleast).position

end

/-- The value is labelled by the member that was tried and begins where it was tried, and the
members before that one were tried there last and passed. -/
structure FirstFit (members : List ElementId) (before : List Trial) (t : Trial) (v : Value) :
    Prop where
  label : members[t.index]? = some v.element
  offset : v.offset = t.place
  swept : Swept before t.index t.place

section
variable {setup : Setup μ} {room : Nat} {frame : Frame} {frames : List Frame} {s s' : Search}
  {σ τ : State μ} {t : Trial} {before after trials : List Trial} {v : Value}

theorem Tries.fits (hg : setup.grammar.Linked) {members : List ElementId}
    (h : Tries setup (readElement setup room frames) .variable members.toArray frame frames s σ t
      s' τ)
    (hs : Swept before s.index (frame.start + s.consumed)) (hv : t.verdict = .taken v) :
    FirstFit members before t v := by
  cases h with
  | full => cases hv
  | refused => cases hv
  | taken approach read =>
    cases hv
    obtain ⟨hplaced,-⟩ := read_element_placed hg read
    have hnext := approach.next
    rw [List.getElem?_toArray, ← hplaced.element] at hnext
    exact ⟨hnext,hplaced.offset.trans approach.position,hs⟩

/-- Whatever was read was the first that fitted, and is followed by the first member. -/
theorem Trials.fits (hg : setup.grammar.Linked) {members : List ElementId}
    (h : Trials setup (readElement setup room frames) .variable members.toArray frame frames
      (Search.start members) σ trials s' τ)
    (ht : trials = before ++ t :: after) (hv : t.verdict = .taken v) :
    FirstFit members before t v ∧ (v.length ≠ 0 → firstIndex after s' = 0) := by
  subst ht
  obtain ⟨r,ρ,hbefore,hafter⟩ := h.split
  have hswept : Swept ([] ++ before) r.index (frame.start + r.consumed) :=
    hbefore.swept (swept_none [] _)
  cases hafter with
  | more first rest =>
    refine ⟨first.fits hg hswept hv,fun hlength => ?_⟩
    rw [rest.first_index]
    exact first.restarts hv hlength

end

def afterSearch (setup : Setup μ) (frame : Frame) (frames : List Frame) (id : ElementId)
    (declared : Option Nat) :
    Except DecodeFault (Search × Bool) × State μ → Except DecodeFault Value × State μ
  | (.ok found,τ) => finishStruct setup frame frames id declared found τ
  | (.error fault,τ) => (.error fault,τ)

theorem read_struct_after {setup : Setup μ} {attempt : ElementId → DecodeM μ Value} {frame : Frame}
    {frames : List Frame} {id : ElementId} {declared : Option Nat} (σ : State μ) :
    readStruct setup attempt frame frames id declared σ =
      afterSearch setup frame frames id declared
        (search setup attempt (setup.grammar.attributesOf id).arrangement
          (setup.grammar.membersOf id).toArray frame frames
          ((setup.options.maxValues - σ.values + 1) *
            ((setup.grammar.membersOf id).toArray.size + 1))
          (Search.start (setup.grammar.membersOf id)) σ) := by
  rw [read_struct_run, bind_run]
  rcases search setup attempt (setup.grammar.attributesOf id).arrangement
    (setup.grammar.membersOf id).toArray frame frames _
    (Search.start (setup.grammar.membersOf id)) σ with ⟨_ | _, _⟩ <;> rfl

theorem trial_of_child {setup : Setup μ} {frame : Frame} {frames : List Frame} {id : ElementId}
    {declared : Option Nat} {result : Except DecodeFault (Search × Bool) × State μ} {τ : State μ}
    {v w : Value} {trials : List Trial} {s : Search}
    (h : afterSearch setup frame frames id declared result = (.ok v,τ))
    (hlast : ∀ last dry τ, result = (.ok (last,dry),τ) → last = s)
    (hs : s.children.toList = trials.filterMap fun t => t.verdict.child?) (hw : w ∈ v.children)
    (hlabel : w.element ≠ setup.grammar.padding) :
    ∃ before t after, trials = before ++ t :: after ∧ t.verdict = .taken w := by
  rcases result with ⟨fault | ⟨last,dry⟩, ω⟩
  · cases h
  · have hfinish : finishStruct setup frame frames id declared (last,dry) ω = (.ok v,τ) := h
    obtain ⟨χ,padding,-,hpadding,rfl,-⟩ := finish_struct_ok hfinish
    obtain rfl := hlast last dry ω rfl
    rcases List.mem_append.mp hw with hw | hw
    · rw [hs] at hw
      obtain ⟨t,ht,hchild⟩ := List.mem_filterMap.mp hw
      obtain ⟨before,after,htrials⟩ := List.append_of_mem ht
      refine ⟨before,t,after,htrials,?_⟩
      cases hverdict : t.verdict with
      | taken u =>
        rw [hverdict] at hchild
        cases hchild
        rfl
      | full | refused =>
        rw [hverdict] at hchild
        cases hchild
    · exact absurd (padding_labels hpadding w hw).1 hlabel

/-- A structure without fixed order takes the first member that can be read. Its search is a run of
trials, of which those that read something give its children. Where each of these begins, every
member before its own was tried last, in turn, and passed: it had occurred often enough, was refused
for another reason than the end of the data, or took up no bytes. A child that takes up bytes is
followed by a try of the first member. And where the search ends without having met the end of the
data, every member has passed in the same way. -/
theorem first_fitting_member {authored : Grammar} {setup : Setup μ}
    (hg : authored.resolve = .ok setup.grammar) {id : ElementId}
    (ho : (setup.grammar.attributesOf id).arrangement = .variable) (room : Nat)
    (frames : List Frame) (frame : Frame) (declared : Option Nat) (σ : State μ) :
    ∃ trials s ω result,
      Trials setup (readElement setup room frames) .variable
        (setup.grammar.membersOf id).toArray frame frames
        (Search.start (setup.grammar.membersOf id)) σ trials s ω ∧
      Concludes setup (readElement setup room frames) .variable
        (setup.grammar.membersOf id).toArray frame frames s ω result ∧
      readStruct setup (readElement setup room frames) frame frames id declared σ =
        afterSearch setup frame frames id declared result ∧
      s.children.toList = (trials.filterMap fun t => t.verdict.child?) ∧
      (∀ v τ, readStruct setup (readElement setup room frames) frame frames id declared σ =
          (.ok v,τ) → ∀ w ∈ v.children, w.element ≠ setup.grammar.padding →
        ∃ before t after, trials = before ++ t :: after ∧ t.verdict = .taken w) ∧
      (∀ before t after v, trials = before ++ t :: after → t.verdict = .taken v →
        FirstFit (setup.grammar.membersOf id) before t v ∧
        (authored.Forest → ∀ j, (setup.grammar.membersOf id)[j]? = some v.element → j = t.index) ∧
        (v.length ≠ 0 → firstIndex after s = 0)) ∧
      ∀ last dry τ, result = (.ok (last,dry),τ) → last = s ∧ (dry = false →
        Swept trials (setup.grammar.membersOf id).length (frame.start + s.consumed)) := by
  have hl := Grammar.resolve_linked hg
  have hsteps : searchBudget setup (setup.grammar.membersOf id).toArray
      (Search.start (setup.grammar.membersOf id)) σ ≤
      (setup.options.maxValues - σ.values + 1) *
        ((setup.grammar.membersOf id).toArray.size + 1) := by
    simp only [searchBudget, Search.start]
    rw [Nat.succ_mul]
    omega
  have hrun : ∃ trials s ω,
      Trials setup (readElement setup room frames) .variable
        (setup.grammar.membersOf id).toArray frame frames
        (Search.start (setup.grammar.membersOf id)) σ trials s ω ∧
      Concludes setup (readElement setup room frames) .variable
        (setup.grammar.membersOf id).toArray frame frames s ω
        (search setup (readElement setup room frames) .variable
          (setup.grammar.membersOf id).toArray frame frames _
          (Search.start (setup.grammar.membersOf id)) σ) :=
    search_trials read_element_counted (read_element_reader setup room frames) (Nat.zero_le _)
      hsteps
  obtain ⟨trials,s,ω,htrials,hend⟩ := hrun
  have hread : readStruct setup (readElement setup room frames) frame frames id declared σ =
      afterSearch setup frame frames id declared _ := ho ▸ read_struct_after σ
  refine ⟨trials,s,ω,_,htrials,hend,hread,htrials.children,?_,?_,?_⟩
  · intro v τ hv w hw hlabel
    refine trial_of_child (hread.symm.trans hv) (fun last dry τ hresult => ?_) htrials.children hw
      hlabel
    rw [hresult] at hend
    exact hend.last.1
  · intro before t after v ht hv
    obtain ⟨hfit,hfirst⟩ := htrials.fits hl ht hv
    refine ⟨hfit,fun hf j hj => ?_,hfirst⟩
    have hnodup := (Grammar.resolve_distinct hf hg id).1
    exact (List.getElem?_inj (List.getElem?_eq_some_iff.mp hj).1 hnodup).mp
      (hj.trans hfit.label.symm)
  · intro last dry τ hresult
    rw [hresult] at hend
    obtain ⟨hlast,hpast⟩ := hend.last
    refine ⟨hlast,fun hdry => ?_⟩
    have hindex : s.index = (setup.grammar.membersOf id).length :=
      Nat.le_antisymm (htrials.within (Nat.zero_le _)) (hpast hdry)
    exact hindex ▸ htrials.swept (swept_none [] _)

def choices : Grammar :=
  let g := (Grammar.new "choices").add ((Element.struct "choices").withArrangement .variable)
  let g := (g.addChildren 1 [
    ((((Element.number "one").withLength (.literal 1)).withValue ⟨"one",1⟩).withLeast
      (.literal 0)).withMost .unlimited,
    ((((Element.binary "two").withLength (.literal 2)).withBytes ⟨"two",[2, 2]⟩).withLeast
      (.literal 0)).withMost .unlimited]).toOption.getD g
  g.setStart (.index 1)

theorem choices_built : choices.Built := .setStart _ (.grown (.add _ (.new _)) 1 _)

def choicesSetup : Setup Unit := Setup.plain choices

def readChoices : DecodeM Unit Value :=
  readStruct choicesSetup (readElement choicesSetup 8 [⟨1,0,4⟩]) ⟨1,0,4⟩ [⟨1,0,4⟩] 1 none

theorem two_fits_first :
    choices.resolve = .ok choices.link.1 ∧ (choices.link.1.attributesOf 1).arrangement = .variable ∧
      ∃ v τ w trials before t after, readChoices (bytesState #[1, 2, 2, 1]) = (.ok v,τ) ∧
        v.children.map (fun w => (w.element,w.offset)) = [(2, 0), (3, 1), (2, 3)] ∧
        w ∈ v.children ∧ trials = before ++ t :: after ∧ t.verdict = .taken w ∧ t.index = 1 ∧
        Swept before 1 1 := by
  have hg : choices.resolve = .ok choicesSetup.grammar := Grammar.resolve_sound (by decide +kernel)
  have ho : (choicesSetup.grammar.attributesOf 1).arrangement = .variable := by decide +kernel
  have hmembers : choicesSetup.grammar.membersOf 1 = [2, 3] := by decide +kernel
  have hpadding : choicesSetup.grammar.padding = 4 := by decide +kernel
  obtain ⟨trials,s,ω,result,-,-,-,-,hchild,hfit,-⟩ := first_fitting_member hg ho 8
    [⟨1,0,4⟩] ⟨1,0,4⟩ none (bytesState #[1, 2, 2, 1])
  obtain ⟨v,τ,hv⟩ := run_ok (r := readChoices (bytesState #[1, 2, 2, 1])) (by decide +kernel)
  have hshape : (readChoices (bytesState #[1, 2, 2, 1])).1.toOption.map
      (fun v => v.children.map fun w => (w.element,w.offset)) = some [(2, 0), (3, 1), (2, 3)] := by
    decide +kernel
  rw [hv] at hshape
  have hchildren : v.children.map (fun w => (w.element,w.offset)) = [(2, 0), (3, 1), (2, 3)] :=
    Option.some.inj hshape
  have htwo : (3, 1) ∈ v.children.map fun w => (w.element,w.offset) := by
    rw [hchildren]
    decide
  obtain ⟨w,hw,hpair⟩ := List.mem_map.mp htwo
  obtain ⟨hlabel,hoffset⟩ := Prod.mk.inj hpair
  obtain ⟨before,t,after,htrials,hverdict⟩ := hchild v τ hv w hw (by rw [hlabel, hpadding]; decide)
  obtain ⟨⟨-,hplace,hswept⟩,honly,-⟩ := hfit before t after w htrials hverdict
  have hindex : t.index = 1 := by
    refine (honly (Grammar.built_forest choices_built) 1 ?_).symm
    rw [hmembers, hlabel]
    rfl
  rw [hindex, ← hplace, hoffset] at hswept
  exact ⟨hg,ho,v,τ,w,trials,before,t,after,hv,hchildren,hw,htrials,hverdict,hindex,hswept⟩

end ByteGrammar
