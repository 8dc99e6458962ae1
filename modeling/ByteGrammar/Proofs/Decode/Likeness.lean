import ByteGrammar.Proofs.Decode.Shape
import ByteGrammar.Proofs.Source.Agreement

/-!
# Decodes over sources that are alike

Two decodes by one grammar in the same state, over sources that reads between two places cannot
tell apart. As long as they read within frames in between and no script looks at the sources, they
go the same way. The first source may also fail where the second does not: such a failure ends the
whole decode, so that nothing else comes of it.
-/

set_option autoImplicit false

namespace ByteGrammar

open Stepwise DecodeM Source

variable {μ α β : Type}

def DecodeFault.isIo : DecodeFault → Bool
  | source (.io _) => true
  | _ => false

theorem io_fatal {fault : DecodeFault} (h : fault.isIo) : fault.isFatal := by
  cases fault with
  | source reason => cases reason <;> first | rfl | cases h
  | _ => cases h

/-- A way in which the sources of two decodes are alike: reads between `lo` and `hi` come to the
same, unless the first source is `failing` and fails. -/
structure Likeness (g : Resolved) where
  failing : Prop
  lo : Nat
  hi : Nat
  related : Source → Source → Prop
  known : Value → Prop
  position : ∀ {s t}, related s t → t.position = s.position
  length : ∀ {s t}, related s t → t.length = s.length
  moved : ∀ {s t}, related s t → ∀ place,
    related { s with position := place } { t with position := place }
  read : ∀ {s t n}, related s t → Within lo hi s.position n →
    (failing ∧ ∃ text, (read n s).1 = .error (.io text)) ∨
      ((read n t).1 = (read n s).1 ∧ related (read n s).2 (read n t).2)
  again : ∀ {v}, known v → (g.kind v.element).isNumber → v.Blurred related

structure State.Paired (related : Source → Source → Prop) (known : Value → Prop) (σ τ : State μ) :
    Prop where
  source : related σ.source τ.source
  history : τ.history = σ.history
  order : τ.order = σ.order
  values : τ.values = σ.values
  known : ∀ v ∈ σ.history, known v

abbrev Likeness.States {g : Resolved} (l : Likeness g) : State μ → State μ → Prop :=
  State.Paired l.related l.known

abbrev Likeness.Blind {g : Resolved} (l : Likeness g) (pre : State μ → Prop)
    (step : DecodeM μ α) : Prop :=
  BlindUnless (fun fault => l.failing ∧ fault.isIo) l.States pre step

def Likeness.From {g : Resolved} (l : Likeness g) (σ : State μ) : Prop :=
  l.lo ≤ σ.source.position

def Likeness.Between {g : Resolved} (l : Likeness g) (σ : State μ) : Prop :=
  l.lo ≤ σ.source.position ∧ σ.source.position ≤ l.hi

namespace Likeness

section
variable {g : Resolved} {l : Likeness g} {pre : State μ → Prop}

theorem blind_same {step : DecodeM μ α} (hl : ¬l.failing) (h : l.Blind pre step) {σ τ : State μ}
    (hst : l.States σ τ) (hσ : pre σ) : (step τ).1 = (step σ).1 ∧ l.States (step σ).2 (step τ).2 :=
  (h σ τ hst hσ).resolve_left fun ⟨_,_,hfailing,_⟩ => hl hfailing

theorem cursor_blind : l.Blind pre (cursor : DecodeM μ Nat) :=
  blind_of_same fun h => ⟨congrArg Except.ok (l.position h.source),h⟩

theorem source_length_blind : l.Blind pre (sourceLength : DecodeM μ Nat) :=
  blind_of_same fun h => ⟨congrArg Except.ok (l.length h.source),h⟩

theorem seek_blind (place : Nat) : l.Blind pre (seekTo place : DecodeM μ Unit) :=
  blind_of_same fun h => ⟨rfl,⟨l.moved h.source place,h.history,h.order,h.values,h.known⟩⟩

theorem log_blind (event : Event) : l.Blind pre (log event : DecodeM μ Unit) :=
  blind_of_same fun h => ⟨rfl,⟨h.source,h.history,h.order,h.values,h.known⟩⟩

theorem restore_blind {saved : List Value} (hs : ∀ v ∈ saved, l.known v) :
    l.Blind pre (restore saved : DecodeM μ Unit) :=
  blind_of_same fun h => ⟨rfl,⟨h.source,rfl,h.order,h.values,hs⟩⟩

theorem order_of_blind (endian : Endian) :
    l.Blind pre (orderOf endian : DecodeM μ ByteOrder) := by
  refine blind_of_same fun h => ?_
  rw [order_of_run, order_of_run, h.order]
  exact ⟨rfl,h⟩

/-- Where the outcome of an action is looked at, the failure of a reader must not be passed
over. -/
theorem outcome_blind {action : DecodeM μ α} {f : Except DecodeFault α → DecodeM μ β}
    (post : Except DecodeFault α → State μ → Prop) (ha : l.Blind pre action)
    (hpost : ∀ {σ τ result υ}, l.States σ τ → pre σ → action σ = (result,υ) → post result υ)
    (hf : ∀ result, l.Blind (post result) (f result))
    (hio : ∀ {fault} σ, fault.isIo → ∃ e, (f (.error fault) σ).1 = .error e ∧ e.isIo) :
    l.Blind pre (outcome action >>= f) := by
  intro σ τ h hpre
  rw [bind_run, bind_run, outcome_run, outcome_run]
  rcases ha σ τ h hpre with ⟨e,he,hfailing,he'⟩ | ⟨hresult,hstate⟩
  · rw [he]
    obtain ⟨e',hthrown,hio'⟩ := hio (action σ).2 he'
    exact .inl ⟨e',hthrown,hfailing,hio'⟩
  · rw [hresult]
    exact hf _ _ _ hstate (hpost h hpre rfl)

theorem take_blind (n : Nat) : l.Blind
    (fun σ => Within l.lo l.hi σ.source.position n) (take n : DecodeM μ (List UInt8)) := by
  intro σ τ h hn
  rw [take_run, take_run]
  rcases l.read h.source hn with ⟨hfailing,text,htext⟩ | ⟨hresult,hsource⟩
  · rcases hσ : Source.read n σ.source with ⟨_ | _, s⟩ <;> rw [hσ] at htext <;> cases htext
    exact .inl ⟨_,rfl,hfailing,rfl⟩
  · rcases hσ : Source.read n σ.source with ⟨e | bytes, s⟩ <;>
      rcases hτ : Source.read n τ.source with ⟨e' | bytes', t⟩ <;>
      rw [hσ, hτ] at hresult hsource <;> cases hresult
    · exact .inr ⟨rfl,⟨hsource,h.history,h.order,h.values,h.known⟩⟩
    · exact .inr ⟨rfl,⟨hsource,h.history,h.order,h.values,h.known⟩⟩

end

section
variable {setup : Setup μ} {l : Likeness setup.grammar} {pre : State μ → Prop}

theorem evaluate_blind (frames : List Frame) (id : ElementId) (q : Quantity) :
    l.Blind pre (evaluate setup frames id q) := by
  refine blind_of_same fun {σ τ} h => ?_
  obtain ⟨hresult,hsource⟩ := (Quantity.eval_blind_of setup.grammar
    (fun v hv hnumber => l.again (h.known v hv) hnumber) frames σ.source.position q).same h.source
    trivial
  rw [evaluate_run, evaluate_run, h.history, l.position h.source]
  rcases hσ : q.eval setup.grammar σ.history frames σ.source.position σ.source with ⟨e | n, s⟩ <;>
    rcases hτ : q.eval setup.grammar σ.history frames σ.source.position τ.source with
      ⟨e' | n', t⟩ <;>
    rw [hσ, hτ] at hresult hsource <;> cases hresult
  · exact ⟨rfl,⟨hsource,rfl,h.order,h.values,h.known⟩⟩
  · exact ⟨rfl,⟨hsource,rfl,h.order,h.values,h.known⟩⟩

theorem byte_length_blind (frames : List Frame) (id : ElementId) :
    l.Blind pre (byteLength setup frames id) := by
  cases hl : (setup.grammar.attributesOf id).length with
  | none =>
    rw [byte_length_none hl]
    exact pure_blind _
  | some q =>
    rw [byte_length_some hl]
    refine bind_blind_any (evaluate_blind frames id q) fun n => ?_
    cases bytesOf setup id n with
    | ok bytes => exact pure_blind _
    | error fault => exact throw_blind _

theorem bound_blind (frames : List Frame) (id : ElementId) (bound : Attributes → Quantity)
    (reading : Int → α) : l.Blind pre (boundOf setup frames id bound reading) :=
  bind_blind_any (evaluate_blind frames id _) fun _ => pure_blind _

theorem required_length_blind (id : ElementId) (declared : Option Nat) :
    l.Blind pre (requiredLength setup id declared) := by
  cases declared with
  | none => exact throw_blind _
  | some n => exact pure_blind n

theorem integer_length_blind (id : ElementId) (declared : Option Nat) :
    l.Blind pre (integerLength setup id declared) := by
  refine bind_blind_any (required_length_blind id declared) fun n => ?_
  split
  · exact throw_bind_blind _ _
  · exact pure_blind _

theorem match_fixed_blind (values : List (Fixed β)) (isMatch : β → Bool) (content : String)
    (shown : β → String) (v : Value) :
    l.Blind pre (matchFixed setup values isMatch content shown v) := by
  unfold matchFixed
  split
  · exact pure_blind _
  · split
    · exact pure_blind _
    · split
      · exact throw_blind _
      · exact pure_blind _

theorem claim_blind (frame : Frame) (id : ElementId) (wanted : Nat) :
    l.Blind pre (claim setup frame id wanted) := by
  refine bind_blind_any cursor_blind fun start => ?_
  dsimp only
  split
  · exact pure_blind _
  · split <;> exact throw_blind _

theorem read_offset_blind (frame : Frame) (id : ElementId) (declared : Option Nat) :
    l.Blind pre (readOffset setup frame id declared) := by
  refine bind_blind_any (integer_length_blind _ _) fun n => ?_
  refine bind_blind_any (claim_blind _ _ _) fun start => ?_
  refine bind_blind_any (seek_blind _) fun _ => ?_
  exact bind_blind_any (order_of_blind _) fun order => pure_blind _

theorem run_script_blind (hr : setup.runtime = none) (id : ElementId) (current : Option Value) :
    l.Blind pre (runScript setup id current) := by
  unfold runScript
  dsimp only
  rw [hr]
  cases setup.grammar.script? id with
  | none => exact throw_blind _
  | some script => exact log_blind _

theorem read_custom_blind (hr : setup.runtime = none) (frame : Frame) (id : ElementId)
    (declared : Option Nat) : l.Blind pre (readCustom setup frame id declared) := by
  refine bind_blind_any (required_length_blind _ _) fun n => ?_
  refine bind_blind_any (claim_blind _ _ _) fun start => ?_
  refine bind_blind_any (seek_blind _) fun _ => ?_
  dsimp only
  split
  · refine bind_blind_any (run_script_blind hr _ _) fun _ => ?_
    exact bind_blind_any (seek_blind _) fun _ => pure_blind _
  · exact pure_blind _

theorem read_script_blind (hr : setup.runtime = none) (id : ElementId) :
    l.Blind pre (readScript setup id) := by
  refine bind_blind_any cursor_blind fun start => ?_
  refine bind_blind_any (run_script_blind hr _ _) fun _ => ?_
  exact bind_blind_any (seek_blind _) fun _ => pure_blind _

theorem claimed_within {frame : Frame} {id : ElementId} {wanted start : Nat}
    (hframe : frame.finish ≤ l.hi) {σ τ : State μ} (hσ : l.From σ)
    (h : claim setup frame id wanted σ = (.ok start,τ)) :
    Within l.lo l.hi τ.source.position wanted := by
  obtain ⟨rfl,rfl,hw⟩ := claim_ok h
  simp only [From] at hσ
  simp only [Within]
  omega

end

section
variable {setup : Setup μ} {l : Likeness setup.grammar} {frame : Frame}
  (hframe : frame.finish ≤ l.hi)
include hframe

theorem read_number_blind (id : ElementId) (declared : Option Nat) :
    l.Blind l.From (readNumber setup frame id declared) := by
  refine bind_blind (fun _ => l.From) (integer_length_blind _ _) ?_ fun n => ?_
  · intro σ _ n υ _ hσ hn
    rwa [← (integer_length_ok hn).2]
  · refine bind_blind (fun _ υ => Within l.lo l.hi υ.source.position n) (claim_blind _ _ _)
      (fun _ => claimed_within hframe) fun start => ?_
    refine bind_blind_any (take_blind n) fun bytes => ?_
    refine bind_blind_any (order_of_blind _) fun order => ?_
    split
    · exact throw_blind _
    · exact match_fixed_blind _ _ _ _ _

theorem read_binary_blind (id : ElementId) (declared : Option Nat) :
    l.Blind l.From (readBinary setup frame id declared) := by
  refine bind_blind (fun _ => l.From) (required_length_blind _ _) ?_ fun n => ?_
  · intro σ _ n υ _ hσ hn
    rwa [← (required_length_ok hn).2]
  · refine bind_blind (fun _ υ => Within l.lo l.hi υ.source.position n) (claim_blind _ _ _)
      (fun _ => claimed_within hframe) fun start => ?_
    dsimp only
    split
    · exact bind_blind_any (seek_blind _) fun _ => pure_blind _
    · exact bind_blind_any (take_blind n) fun bytes => match_fixed_blind _ _ _ _ _

end

theorem scan_blind {g : Resolved} {l : Likeness g} (delimiter : UInt8) (rest strides : Nat) :
    l.Blind (fun σ => Within l.lo l.hi σ.source.position (rest + strides * stride))
      (scan delimiter rest strides : DecodeM μ (Option (List UInt8))) := by
  induction strides with
  | zero =>
    rw [scan]
    split
    · exact pure_blind _
    · refine bind_blind_any ((take_blind rest).imp ?_) fun bytes => pure_blind _
      intro σ hσ
      rwa [Nat.zero_mul, Nat.add_zero] at hσ
  | succ strides ih =>
    rw [scan]
    refine bind_blind (fun _ σ => Within l.lo l.hi σ.source.position (rest + strides * stride))
      ((take_blind stride).imp ?_) ?_ fun bytes => ?_
    · intro σ hσ
      simp only [Within, Nat.succ_mul] at *
      omega
    · intro σ _ bytes υ _ hσ h
      have hp := (take_ok h).2.2
      simp only [Within, Nat.succ_mul] at *
      omega
    · split
      · exact pure_blind _
      · exact bind_blind_any ih fun more => pure_blind _

section
variable {setup : Setup μ} {l : Likeness setup.grammar} {frame : Frame}
  (hframe : frame.finish ≤ l.hi)
include hframe

theorem read_delimited_blind (id : ElementId) (delimiter : UInt8) :
    l.Blind l.From (readDelimited setup frame id delimiter) := by
  refine bind_blind (fun start υ => start = υ.source.position ∧ l.From υ) cursor_blind ?_
    fun start => ?_
  · intro σ _ start υ _ hσ h
    obtain ⟨rfl,rfl⟩ := cursor_ok h
    exact ⟨rfl,hσ⟩
  · dsimp only
    split
    · exact throw_bind_blind _ _
    · refine bind_blind_any ((scan_blind _ _ _).imp ?_) fun found => ?_
      · rintro σ ⟨rfl,hσ⟩
        rw [Nat.mod_add_div']
        simp only [Within, Frame.available, From] at *
        omega
      · cases found with
        | none => exact throw_blind _
        | some bytes =>
          exact bind_blind_any (seek_blind _) fun _ => pure_blind _

theorem read_counted_blind (id : ElementId) :
    l.Blind l.From (readCounted setup frame id) := by
  refine bind_blind (fun start υ => start = υ.source.position ∧ l.From υ ∧
    Within l.lo l.hi υ.source.position 1) (claim_blind _ _ _) ?_ fun start => ?_
  · intro σ _ start υ _ hσ h
    have hw := claimed_within hframe hσ h
    obtain ⟨rfl,rfl,-⟩ := claim_ok h
    exact ⟨rfl,hσ,hw⟩
  · refine bind_blind (fun _ υ => start + 1 = υ.source.position ∧ l.From υ)
      ((take_blind 1).imp fun h => h.2.2) ?_ fun head => ?_
    · rintro σ _ head υ _ ⟨rfl,hσ,-⟩ h
      have hp := (take_ok h).2.2
      simp only [From] at *
      omega
    · dsimp only
      split
      · exact throw_bind_blind _ _
      · refine bind_blind_any ((take_blind _).imp ?_) fun more => pure_blind _
        rintro σ ⟨hp,hσ⟩
        simp only [Within, Frame.available, From] at *
        omega

theorem read_text_blind (id : ElementId) (declared : Option Nat) :
    l.Blind l.From (readText setup frame id declared) := by
  rw [read_text_eq]
  refine bind_blind (fun _ => l.From) cursor_blind ?_ fun start => ?_
  · intro σ _ start υ _ hσ h
    rwa [← (cursor_ok h).2]
  · refine bind_blind_any ?_ fun bytes => match_fixed_blind _ _ _ _ _
    unfold readTextBytes
    cases (setup.grammar.attributesOf id).textKind with
    | zeroTerminated => exact read_delimited_blind hframe _ _
    | delimited delimiter => exact read_delimited_blind hframe _ _
    | counted => exact read_counted_blind hframe _
    | fixedLength =>
      refine bind_blind (fun _ => l.From) (required_length_blind _ _) ?_ fun n => ?_
      · intro σ _ n υ _ hσ hn
        rwa [← (required_length_ok hn).2]
      · refine bind_blind (fun _ υ => Within l.lo l.hi υ.source.position n)
          (map_blind _ (claim_blind _ _ _)) ?_ fun _ => take_blind n
        intro σ _ u υ _ hσ h
        obtain ⟨start,_,hc,hu⟩ := bind_ok.mp h
        cases hu
        exact claimed_within hframe hσ hc

end

theorem quiet_between {g : Resolved} {l : Likeness g} {m : DecodeM μ α}
    (hm : Keeps State.Quiet m) {σ υ : State μ} {a : α} (hσ : l.Between σ)
    (h : m σ = (.ok a,υ)) : l.Between υ := by
  rwa [Between, (hm.of_run h).position]

theorem after_attempt_blind {g : Resolved} {l : Likeness g} {pre : State μ → Prop}
    (arrangement : Arrangement) (frame : Frame) (s : Search) (member : ElementId) (least : Nat)
    {saved : List Value} (hs : ∀ v ∈ saved, l.known v) (result : Except DecodeFault Value) :
    l.Blind pre (afterAttempt arrangement frame s member least saved result : DecodeM μ _) := by
  cases result with
  | ok v => exact pure_blind _
  | error fault =>
    unfold afterAttempt
    dsimp only
    split
    · exact throw_bind_blind _ _
    · refine bind_blind_any (restore_blind hs) fun _ => ?_
      split
      · exact pure_blind _
      · cases arrangement with
        | fixed =>
          dsimp only
          split
          · exact pure_blind _
          · exact throw_blind _
        | «variable» => exact bind_blind_any (log_blind _) fun _ => pure_blind _

theorem after_attempt_io (arrangement : Arrangement) (frame : Frame) (s : Search)
    (member : ElementId) (least : Nat) (saved : List Value) {fault : DecodeFault}
    (h : fault.isIo) (σ : State μ) :
    (afterAttempt arrangement frame s member least saved (.error fault) σ).1 = .error fault := by
  simp only [afterAttempt, if_pos (io_fatal h)]
  rfl

section
variable {setup : Setup μ} {l : Likeness setup.grammar} {pre : State μ → Prop}

theorem search_steps_blind (members : Array ElementId) :
    l.Blind pre (searchSteps setup members) := by
  refine blind_of_same fun h => ?_
  simp only [searchSteps, bind_run, get_run, pure_run, h.values]
  exact ⟨trivial,h⟩

theorem check_counts_blind (frames : List Frame) (id : ElementId) (absent : Bool) (s : Search)
    (index : Nat) (members : List ElementId) :
    l.Blind pre (checkCounts setup frames id absent s index members) := by
  induction members generalizing index pre with
  | nil => exact pure_blind _
  | cons member rest ih =>
    rw [checkCounts]
    refine bind_blind_any (bound_blind _ _ _ _) fun least => ?_
    dsimp only
    split
    · split
      · exact throw_bind_blind _ _
      · exact throw_bind_blind _ _
    · exact ih _

theorem padding_of_blind (frame : Frame) (id : ElementId) (declared : Option Nat)
    (consumed : Nat) : l.Blind pre (paddingOf setup frame id declared consumed) := by
  unfold paddingOf
  cases declared with
  | none => exact pure_blind _
  | some declared =>
    dsimp only
    split
    · exact pure_blind _
    · split
      · exact pure_blind _
      · split <;> exact throw_blind _

end

section
variable {setup : Setup μ} {l : Likeness setup.grammar} {attempt : ElementId → DecodeM μ Value}
  {arrangement : Arrangement} {members : Array ElementId} {frame : Frame} {frames : List Frame}
  (hlo : l.lo ≤ frame.start) (hhi : frame.finish ≤ l.hi)
  (hblind : ∀ id, l.Blind l.Between (attempt id))
include hlo hhi hblind

theorem search_step_blind {s : Search} (hs : frame.start + s.consumed ≤ frame.finish)
    {pre : State μ → Prop} :
    l.Blind pre (searchStep setup attempt arrangement members frame frames s) := by
  rw [search_step_eq]
  cases members[s.index]? with
  | none => exact pure_blind _
  | some member =>
    refine bind_blind (fun _ => l.Between) (seek_blind _) ?_ fun _ => ?_
    · intro σ _ _ υ _ _ h
      rw [← seek_ok h]
      simp only [Between, State.moved]
      omega
    · refine bind_blind (fun _ => l.Between) (bound_blind _ _ _ _)
        (fun _ => quiet_between (bound_quiet _ _ _ _ _)) fun most => ?_
      split
      · exact pure_blind _
      · refine bind_blind (fun _ => l.Between) (bound_blind _ _ _ _)
          (fun _ => quiet_between (bound_quiet _ _ _ _ _)) fun least => ?_
        intro σ τ h hσ
        rw [bind_run, bind_run, get_run, get_run]
        dsimp only
        rw [h.history]
        exact outcome_blind (fun _ _ => True) (hblind member) (fun _ _ _ => trivial)
          (after_attempt_blind arrangement frame s member least h.known)
          (fun υ hio => ⟨_,after_attempt_io _ _ _ _ _ _ hio υ,hio⟩) σ τ h hσ

theorem search_blind (ha : KeepsReader attempt)
    (hplaced : ∀ {id σ v τ}, attempt id σ = (.ok v,τ) →
      Placed setup.grammar id σ.source.position frame.finish v)
    (steps : Nat) {s : Search} (hs : Filled frame s) {pre : State μ → Prop} :
    l.Blind pre (search setup attempt arrangement members frame frames steps s) := by
  induction steps generalizing s pre with
  | zero => exact throw_blind _
  | succ steps ih =>
    rw [search]
    refine bind_blind (fun stage _ => Filled frame stage.search)
      (search_step_blind hlo hhi hblind hs.inside) ?_ fun stage => ?_
    · intro σ _ stage υ _ _ h
      exact (search_step_ok ha h).filled hplaced hs
    · cases stage with
      | searching next => exact fun σ τ h hnext => @ih next hnext (fun _ => True) σ τ h trivial
      | ended last dry => exact pure_blind _

theorem read_struct_blind (ha : KeepsReader attempt)
    (hplaced : ∀ {id σ v τ}, attempt id σ = (.ok v,τ) →
      Placed setup.grammar id σ.source.position frame.finish v)
    (hle : frame.start ≤ frame.finish) (id : ElementId) (declared : Option Nat)
    {pre : State μ → Prop} :
    l.Blind pre (readStruct setup attempt frame frames id declared) := by
  refine bind_blind_any (search_steps_blind _) fun steps => ?_
  refine bind_blind_any
    (search_blind hlo hhi hblind ha hplaced steps (start_filled _ hle)) fun found => ?_
  refine bind_blind_any (seek_blind _) fun _ => ?_
  refine bind_blind_any (check_counts_blind _ _ _ _ _ _) fun _ => ?_
  refine bind_blind_any (padding_of_blind _ _ _ _) fun padding => ?_
  exact bind_blind_any (seek_blind _) fun _ => pure_blind _

theorem read_kind_blind (hr : setup.runtime = none) (ha : KeepsReader attempt)
    (hplaced : ∀ {id σ v τ}, attempt id σ = (.ok v,τ) →
      Placed setup.grammar id σ.source.position frame.finish v)
    (hle : frame.start ≤ frame.finish) (id : ElementId) (declared : Option Nat) :
    l.Blind l.Between (readKind setup attempt frame frames id declared) := by
  have hfrom : ∀ {σ : State μ}, l.Between σ → l.From σ := fun h => h.1
  unfold readKind
  cases setup.grammar.kind id with
  | struct settings => exact read_struct_blind hlo hhi hblind ha hplaced hle id declared
  | structRef link =>
    dsimp only
    unfold readReference
    cases (setup.grammar.attributesOf id).target with
    | none => exact throw_blind _
    | some target => exact bind_blind_any (hblind target) fun v => pure_blind _
  | number settings => exact (read_number_blind hhi id declared).imp hfrom
  | text settings => exact (read_text_blind hhi id declared).imp hfrom
  | binary settings => exact (read_binary_blind hhi id declared).imp hfrom
  | offset settings => exact read_offset_blind _ _ _
  | custom script => exact read_custom_blind hr _ _ _
  | script script => exact read_script_blind hr _
  | scriptElement script => exact read_script_blind hr _
  | grammar => exact throw_blind _
  | padding => exact throw_blind _
  | grammarRef file => exact throw_blind _

end

section
variable {setup : Setup μ} {l : Likeness setup.grammar} {pre : State μ → Prop}

theorem check_read_blind (v : Value) : l.Blind pre (checkRead setup v) := by
  unfold checkRead
  split
  · cases v.check setup.grammar with
    | error fault => exact throw_blind _
    | ok _ =>
      refine bind_blind_any cursor_blind fun place => ?_
      split
      · exact throw_blind _
      · exact pure_blind _
  · exact pure_blind _

theorem record_value_blind (id : ElementId) {v : Value} (hv : l.known v) :
    l.Blind pre (recordValue setup id v) := by
  refine blind_of_same fun {σ τ} h => ?_
  rw [record_value_run, record_value_run, h.values]
  split
  · exact ⟨rfl,⟨h.source,h.history,h.order,rfl,h.known⟩⟩
  · refine ⟨rfl,⟨h.source,?_,h.order,rfl,?_⟩⟩
    · show (if _ then v :: τ.history else τ.history) = _
      rw [h.history]
    · intro w hw
      dsimp only at hw
      split at hw
      · rcases List.mem_cons.mp hw with rfl | hw
        · exact hv
        · exact h.known w hw
      · exact h.known w hw

theorem limit_of_blind (frames : List Frame) : l.Blind pre (limitOf frames : DecodeM μ Nat) := by
  cases frames with
  | nil => exact source_length_blind
  | cons frame outer => exact pure_blind _

theorem read_recorded_blind (id : ElementId) (start : Nat) {v : Value} (hv : l.known v) :
    l.Blind pre (log (.read start v.element v.offset v.length) >>= fun _ =>
      checkRead setup v >>= fun _ => recordValue setup id v >>= fun _ => pure v) := by
  refine bind_blind_any (log_blind _) fun _ => ?_
  refine bind_blind_any (check_read_blind v) fun _ => ?_
  exact bind_blind_any (record_value_blind id hv) fun _ => pure_blind v

def Knows (l : Likeness setup.grammar)
    (attempt : List Frame → ElementId → DecodeM μ Value) : Prop :=
  ∀ {frame frames id declared σ τ υ v}, frame.finish ≤ l.hi → frame.start ≤ frame.finish →
    σ.source.position = frame.start → l.Between σ → l.States σ τ →
    readKind setup (attempt (frame :: frames)) frame (frame :: frames) id declared σ =
      (.ok v,υ) → l.known v

/-- An element is read alike where its own frame is between the two places, if what is read inside
is. -/
theorem read_with_blind {attempt : List Frame → ElementId → DecodeM μ Value}
    (hr : setup.runtime = none) (ha : ∀ frames, KeepsReader (attempt frames))
    (hplaced : ∀ {frames id σ v τ}, attempt frames id σ = (.ok v,τ) →
      Placed setup.grammar id σ.source.position (limitAt frames σ) v ∧
        τ.source.position = v.finish)
    (hknown : l.Knows attempt)
    (hblind : ∀ {frame frames}, frame.finish ≤ l.hi → ∀ id,
      l.Blind l.Between (attempt (frame :: frames) id))
    (frames : List Frame) (id : ElementId) :
    l.Blind
      (fun σ => l.Between σ ∧ ∀ {frame declared ρ},
        Opening setup frames id σ frame declared ρ → frame.finish ≤ l.hi)
      (readWith setup attempt frames id) := by
  refine bind_blind (fun start σ => start = σ.source.position ∧ l.Between σ ∧
    ∀ {frame declared ρ}, Opening setup frames id σ frame declared ρ → frame.finish ≤ l.hi)
    cursor_blind ?_ fun start => ?_
  · intro σ _ start υ _ hσ h
    obtain ⟨rfl,rfl⟩ := cursor_ok h
    exact ⟨rfl,hσ⟩
  refine bind_blind (fun limit σ => start = σ.source.position ∧ limit = limitAt frames σ ∧
    l.Between σ ∧
    ∀ {frame declared ρ}, Opening setup frames id σ frame declared ρ → frame.finish ≤ l.hi)
    (limit_of_blind frames) ?_ fun limit => ?_
  · intro σ _ limit υ _ hσ h
    rw [limit_of_run] at h
    cases h
    exact ⟨hσ.1,rfl,hσ.2⟩
  refine bind_blind (fun declared σ => (Frame.opened id start limit declared).finish ≤ l.hi ∧
    start = σ.source.position ∧ l.Between σ) (byte_length_blind frames id) ?_
    fun declared => ?_
  · rintro σ _ declared υ _ ⟨rfl,rfl,hσ,hopen⟩ h
    have hq := (byte_length_quiet setup frames id).of_run h
    refine ⟨hopen ⟨rfl,⟨υ,h⟩,hq⟩,hq.position.symm,?_⟩
    rwa [Between, hq.position]
  refine bind_blind (fun _ σ => (Frame.opened id start limit declared).finish ≤ l.hi ∧
    start = σ.source.position ∧ l.Between σ) (log_blind _) ?_ fun _ => ?_
  · intro σ _ _ υ _ hσ h
    rw [← log_ok h]
    exact hσ
  refine outcome_blind (fun result _ => ∀ v, result = .ok v → l.known v) ?_ ?_
    (fun result => ?_) ?_
  · rintro σ τ h ⟨hhi,hstart,hσ⟩
    have hlo : l.lo ≤ (Frame.opened id start limit declared).start := hstart ▸ hσ.1
    exact read_kind_blind hlo hhi (hblind hhi) hr (ha _)
      (fun hread => (hplaced hread).1) (opened_bounds id start limit declared).1 id declared
      σ τ h hσ
  · rintro σ τ result υ h ⟨hhi,hstart,hσ⟩ hrun v rfl
    exact hknown hhi (opened_bounds id start limit declared).1 hstart.symm hσ h hrun
  · cases result with
    | error fault => exact bind_blind_any (log_blind _) fun _ => throw_blind _
    | ok v =>
      intro σ τ h hv
      have hrest : l.Blind (fun _ => True) _ := read_recorded_blind id start (hv v rfl)
      exact hrest σ τ h trivial
  · exact fun σ hio => ⟨_,rfl,hio⟩

/-- Inside of a frame between the two places, an element is read alike. -/
theorem read_element_blind (hg : setup.grammar.Linked) (hr : setup.runtime = none)
    (hknown : ∀ room, l.Knows (readElement setup room)) (room : Nat) {frame : Frame}
    {frames : List Frame} (hhi : frame.finish ≤ l.hi) (id : ElementId) :
    l.Blind l.Between (readElement setup room (frame :: frames) id) := by
  induction room generalizing frame frames id with
  | zero => exact throw_blind _
  | succ room ih =>
    refine (read_with_blind hr (read_element_reader setup room) (read_element_placed hg)
      (hknown room) (fun hhi id => ih hhi id) (frame :: frames) id).imp
      fun {σ} hσ => ⟨hσ,fun hopen => ?_⟩
    obtain ⟨-,-,hlimit⟩ := hopen.bounds
    rw [limit_at_cons] at hlimit
    have hσ' := hσ.2
    omega

theorem read_in_root_blind (hg : setup.grammar.Linked) (hr : setup.runtime = none)
    (hknown : ∀ room, l.Knows (readElement setup room)) {length : Nat} (hlength : length ≤ l.hi)
    (id : ElementId) : l.Blind l.Between (readInRoot setup length id) :=
  read_element_blind hg hr hknown _ hlength id

theorem stop_after_blind (least : Nat) (children : Array Value) (consumed : Nat)
    {saved : List Value} (hs : ∀ v ∈ saved, l.known v) (fault : DecodeFault) :
    l.Blind pre (stopAfter least children consumed saved fault : DecodeM μ _) := by
  have hback : ∀ {pre}, l.Blind pre
      (restore saved >>= fun _ => pure (children,consumed) : DecodeM μ _) :=
    bind_blind_any (restore_blind hs) fun _ => pure_blind _
  unfold stopAfter
  split
  · exact throw_blind _
  · split
    · exact hback
    · split
      · exact bind_blind_any (log_blind _) fun _ => hback
      · exact throw_blind _

theorem stop_after_io (least : Nat) (children : Array Value) (consumed : Nat)
    (saved : List Value) {fault : DecodeFault} (h : fault.isIo) (σ : State μ) :
    (stopAfter least children consumed saved fault σ).1 = .error fault := by
  rw [stopAfter, if_pos (io_fatal h)]
  rfl

theorem repeat_start_blind {attempt : DecodeM μ Value} (ha : l.Blind l.Between attempt)
    (hlo : l.lo = 0) (least : Nat) (most : Option Nat) {length : Nat} (hlength : length ≤ l.hi)
    (rounds : Nat) (children : Array Value) (consumed : Nat) :
    l.Blind pre (repeatStart setup attempt least most length rounds children consumed) := by
  induction rounds generalizing pre children consumed with
  | zero => exact pure_blind _
  | succ rounds ih =>
    rw [repeatStart]
    split
    · exact pure_blind _
    · next hmore =>
      have hin : consumed < length := by
        simp only [Bool.or_eq_true, decide_eq_true_eq, not_or] at hmore
        omega
      refine bind_blind (fun _ => l.Between) (seek_blind _) ?_ fun _ => ?_
      · intro σ _ _ υ _ _ h
        rw [← seek_ok h]
        simp only [Between, State.moved]
        omega
      · intro σ τ h hσ
        rw [bind_run, bind_run, get_run, get_run]
        dsimp only
        rw [h.history]
        refine outcome_blind (fun _ _ => True) ha (fun _ _ _ => trivial) (fun result => ?_)
          (fun υ hio => ⟨_,stop_after_io least children consumed σ.history hio υ,hio⟩) σ τ h hσ
        cases result with
        | error fault => exact stop_after_blind least children consumed h.known fault
        | ok v =>
          dsimp only
          split
          · exact pure_blind _
          · exact ih _ _

theorem read_root_blind (hg : setup.grammar.Linked) (hr : setup.runtime = none)
    (hknown : ∀ room, l.Knows (readElement setup room)) (hlo : l.lo = 0) {length : Nat}
    (hlength : length ≤ l.hi) : l.Blind pre (readRoot setup length) := by
  refine bind_blind_any (bound_blind _ _ _ _) fun least => ?_
  refine bind_blind_any (bound_blind _ _ _ _) fun most => ?_
  refine bind_blind_any (repeat_start_blind (read_in_root_blind hg hr hknown hlength _) hlo _ _
    hlength _ _ _) fun found => ?_
  dsimp only
  split
  · split <;> exact throw_bind_blind _ _
  · exact bind_blind_any (seek_blind _) fun _ => pure_blind _

theorem check_root_blind (v : Value) : l.Blind pre (checkRoot setup v) := by
  unfold checkRoot
  split
  · split
    · exact pure_blind _
    · exact throw_blind _
  · exact pure_blind _

end

end Likeness
end ByteGrammar
