import ByteGrammar.Proofs.Decode.Root

/-!
# Ordinary faults

The data may end too soon, may not match or may give no usable length: such faults are ordinary.
The actions that neither take bytes nor run scripts nor read elements end in no others, but for a
length that is not declared and the clean end of the data.
-/

set_option autoImplicit false

namespace ByteGrammar

open Stepwise DecodeM Source

variable {μ : Type}

def DecodeFault.isOrdinary : DecodeFault → Bool
  | cutOff .. | noMatch .. | tooFew .. | unsupportedBits .. | unsupportedLength ..
  | negativeLength .. | eval .. | unsupported .. => true
  | _ => false

class Admits (P : DecodeFault → Prop) : Prop where
  ordinary : ∀ {fault}, fault.isOrdinary → P fault

section
variable {P : DecodeFault → Prop}

theorem cursor_faults : Faults P (cursor : DecodeM μ Nat) :=
  sure_faults fun s => ⟨_,s,rfl⟩

theorem seek_faults (place : Nat) : Faults P (seekTo place : DecodeM μ Unit) :=
  sure_faults fun _ => ⟨⟨⟩,_,rfl⟩

theorem log_faults (event : Event) : Faults P (log event : DecodeM μ Unit) :=
  sure_faults fun _ => ⟨⟨⟩,_,rfl⟩

theorem restore_faults (saved : List Value) : Faults P (restore saved : DecodeM μ Unit) :=
  sure_faults fun _ => ⟨⟨⟩,_,rfl⟩

theorem order_of_faults (endian : Endian) :
    Faults P (orderOf endian : DecodeM μ ByteOrder) :=
  sure_faults fun s => ⟨_,s,order_of_run endian s⟩

theorem limit_of_faults (frames : List Frame) : Faults P (limitOf frames : DecodeM μ Nat) :=
  sure_faults fun s => ⟨_,s,limit_of_run frames s⟩

theorem fatal_not_eof {fault : DecodeFault} (h : fault.isFatal) : fault.isEof = false := by
  cases fault <;> first | rfl | cases h

/-- What is done after an attempt may throw its fault again, if that is no end of the data, but no
other. -/
theorem after_attempt_faults (arrangement : Arrangement) (frame : Frame) (s : Search)
    (member : ElementId) (least : Nat) (saved : List Value) {result : Except DecodeFault Value}
    (h : ∀ fault, result = .error fault → fault.isEof = false → P fault) :
    Faults P (afterAttempt arrangement frame s member least saved result : DecodeM μ _) := by
  cases result with
  | ok v => exact pure_faults _
  | error fault =>
    unfold afterAttempt
    dsimp only
    split
    · next hfatal => exact throw_bind_faults (h fault rfl (fatal_not_eof hfatal)) _
    · refine bind_faults (restore_faults _) fun _ => ?_
      split
      · exact pure_faults _
      · next hmore =>
        cases arrangement with
        | fixed =>
          dsimp only
          split
          · exact pure_faults _
          · exact throw_faults (h fault rfl (by simpa using hmore))
        | «variable» => exact bind_faults (log_faults _) fun _ => pure_faults _

/-- What is done with the outcome of an action may rely on the faults that the action may end
in. -/
theorem outcome_bind_faults_from {Q : DecodeFault → Prop} {α β : Type} {action : DecodeM μ α}
    {f : Except DecodeFault α → DecodeM μ β} {s : State μ} (ha : FaultsFrom Q action s)
    (hf : ∀ {result t}, action s = (result,t) → (∀ fault, result = .error fault → Q fault) →
      FaultsFrom P (f result) t) : FaultsFrom P (outcome action >>= f) s := by
  refine bind_faults_from (sure_faults (fun s => ⟨_,_,outcome_run action s⟩) s) fun hrun => ?_
  have haction := outcome_ok hrun
  refine hf haction fun fault hfault => ?_
  rw [hfault] at haction
  exact ha fault _ haction

theorem outcome_bind_faults {Q : DecodeFault → Prop} {α β : Type} {action : DecodeM μ α}
    {f : Except DecodeFault α → DecodeM μ β} (ha : Faults Q action)
    (hf : ∀ result, (∀ fault, result = .error fault → Q fault) → Faults P (f result)) :
    Faults P (outcome action >>= f) :=
  fun s => outcome_bind_faults_from (ha s) fun _ hresult => hf _ hresult _

theorem stop_after_faults (least : Nat) (children : Array Value) (consumed : Nat)
    (saved : List Value) {fault : DecodeFault} (h : P fault) :
    Faults P (stopAfter least children consumed saved fault : DecodeM μ _) := by
  have hback : Faults P
      (restore saved >>= fun _ => pure (children,consumed) : DecodeM μ _) :=
    bind_faults (restore_faults _) fun _ => pure_faults _
  unfold stopAfter
  split
  · exact throw_faults h
  · split
    · exact hback
    · split
      · exact bind_faults (log_faults _) fun _ => hback
      · exact throw_faults h

section
variable {setup : Setup μ} {id : ElementId} {declared : Option Nat}

theorem required_length_faults (h : declared = none → P (.missingLength (setup.grammar.label id))) :
    Faults P (requiredLength setup id declared) := by
  cases declared with
  | none => exact throw_faults (h rfl)
  | some n => exact pure_faults n

theorem run_script_faults
    (habsent : setup.grammar.script? id = none →
      P (.breach (.noScript (setup.grammar.label id))))
    (hfailed : ∀ language location reason, P (.script language location reason))
    (current : Option Value) : Faults P (runScript setup id current) := by
  unfold runScript
  dsimp only
  cases hs : setup.grammar.script? id with
  | none => exact throw_faults (habsent hs)
  | some script =>
    cases setup.runtime with
    | none => exact log_faults _
    | some runtime =>
      refine bind_faults cursor_faults fun offset => ?_
      refine bind_faults get_faults fun s => ?_
      refine bind_faults (sure_faults fun _ => ⟨⟨⟩,_,rfl⟩) fun _ => ?_
      split
      · exact pure_faults _
      · exact throw_faults (hfailed _ _ _)

theorem check_read_faults (hbreach : ∀ breach, P (.breach breach)) (v : Value) :
    Faults P (checkRead setup v) := by
  unfold checkRead
  split
  · split
    · exact throw_faults (hbreach _)
    · refine bind_faults cursor_faults fun place => ?_
      split
      · exact throw_faults (hbreach _)
      · exact pure_faults _
  · exact pure_faults _

theorem record_value_faults (hover : P (.valuesExceeded setup.options.maxValues))
    (id : ElementId) (v : Value) : Faults P (recordValue setup id v) := by
  intro s e t h
  rw [record_value_run] at h
  split at h
  · cases h
    exact hover
  · cases h

variable [Admits P]

theorem evaluate_faults (setup : Setup μ) (frames : List Frame) (id : ElementId) (q : Quantity) :
    Faults P (evaluate setup frames id q) := by
  intro s e t h
  rw [evaluate_run] at h
  rcases hr : q.eval setup.grammar s.history frames s.source.position s.source with
    ⟨fault | n, source⟩ <;> rw [hr] at h
  · cases h
    exact Admits.ordinary rfl
  · cases h

theorem bytes_of_faults {n : Int} {fault : DecodeFault} (h : bytesOf setup id n = .error fault) :
    P fault := by
  unfold bytesOf at h
  split at h
  · cases h
    exact Admits.ordinary rfl
  · split at h
    · cases h
    · split at h
      · cases h
      · cases h
        exact Admits.ordinary rfl

theorem byte_length_faults (setup : Setup μ) (frames : List Frame) (id : ElementId) :
    Faults P (byteLength setup frames id) := by
  cases hq : (setup.grammar.attributesOf id).length with
  | none =>
    rw [byte_length_none hq]
    exact pure_faults _
  | some q =>
    rw [byte_length_some hq]
    refine bind_faults (evaluate_faults setup frames id q) fun n => ?_
    cases hb : bytesOf setup id n with
    | ok bytes => exact pure_faults _
    | error fault => exact throw_faults (bytes_of_faults hb)

theorem bound_faults {α : Type} (setup : Setup μ) (frames : List Frame) (id : ElementId)
    (bound : Attributes → Quantity) (reading : Int → α) :
    Faults P (boundOf setup frames id bound reading) :=
  bind_faults (evaluate_faults setup frames id _) fun _ => pure_faults _

theorem integer_length_faults (h : declared = none → P (.missingLength (setup.grammar.label id))) :
    Faults P (integerLength setup id declared) := by
  refine bind_faults (required_length_faults h) fun n => ?_
  split
  · exact throw_bind_faults (Admits.ordinary rfl) _
  · exact pure_faults _

theorem claim_faults (hend : P .eof) (setup : Setup μ) (frame : Frame) (id : ElementId)
    (wanted : Nat) : Faults P (claim setup frame id wanted) := by
  refine bind_faults cursor_faults fun start => ?_
  dsimp only
  split
  · exact pure_faults _
  · split
    · exact throw_faults hend
    · exact throw_faults (Admits.ordinary rfl)

theorem match_fixed_faults {α : Type} (setup : Setup μ) (values : List (Fixed α))
    (isMatch : α → Bool) (content : String) (shown : α → String) (v : Value) :
    Faults P (matchFixed setup values isMatch content shown v) := by
  unfold matchFixed
  split
  · exact pure_faults _
  · split
    · exact pure_faults _
    · split
      · exact throw_faults (Admits.ordinary rfl)
      · exact pure_faults _

theorem check_counts_faults {absent : Bool} (hend : absent → P .eof) (setup : Setup μ)
    (frames : List Frame) (id : ElementId) (s : Search) (index : Nat)
    (members : List ElementId) :
    Faults P (checkCounts setup frames id absent s index members) := by
  induction members generalizing index with
  | nil => exact pure_faults _
  | cons member rest ih =>
    rw [checkCounts]
    refine bind_faults (bound_faults _ _ _ _ _) fun least => ?_
    dsimp only
    split
    · split
      · next habsent => exact throw_bind_faults (hend habsent) _
      · exact throw_bind_faults (Admits.ordinary rfl) _
    · exact ih _

theorem padding_of_faults {frame : Frame} (hend : frame.finish - frame.start = 0 → P .eof)
    (setup : Setup μ) (id : ElementId) (declared : Option Nat) (consumed : Nat) :
    Faults P (paddingOf setup frame id declared consumed) := by
  unfold paddingOf
  cases declared with
  | none => exact pure_faults _
  | some declared =>
    dsimp only
    split
    · exact pure_faults _
    · split
      · exact pure_faults _
      · split
        · next hbudget => exact throw_faults (hend hbudget)
        · exact throw_faults (Admits.ordinary rfl)

/-- A structure was not there if nothing of it was read before the search ended at the end of the
data, or if its frame is empty. -/
theorem finish_struct_faults {frame : Frame} {found : Search × Bool}
    (hdry : found.1.children.isEmpty → found.2 → P .eof)
    (hbudget : frame.finish - frame.start = 0 → P .eof) (setup : Setup μ)
    (frames : List Frame) (id : ElementId) (declared : Option Nat) :
    Faults P (finishStruct setup frame frames id declared found) := by
  refine bind_faults (seek_faults _) fun _ => ?_
  refine bind_faults (check_counts_faults (fun habsent => ?_) _ _ _ _ _ _) fun _ => ?_
  · obtain ⟨hnone,hdried | hempty⟩ := by simpa using habsent
    · exact hdry (by simpa using hnone) hdried
    · exact hbudget hempty
  refine bind_faults (padding_of_faults hbudget _ _ _ _) fun padding => ?_
  exact bind_faults (seek_faults _) fun _ => pure_faults _

theorem search_step_faults {attempt : ElementId → DecodeM μ Value} {members : Array ElementId}
    (ha : ∀ member ∈ members, Faults (fun fault => fault.isEof = false → P fault)
      (attempt member)) (arrangement : Arrangement) (frame : Frame) (frames : List Frame)
    (s : Search) :
    Faults P (searchStep setup attempt arrangement members frame frames s) := by
  rw [search_step_eq]
  cases hm : members[s.index]? with
  | none => exact pure_faults _
  | some member =>
    refine bind_faults (seek_faults _) fun _ => ?_
    refine bind_faults (bound_faults _ _ _ _ _) fun most => ?_
    split
    · exact pure_faults _
    · refine bind_faults (bound_faults _ _ _ _ _) fun least => ?_
      refine bind_faults get_faults fun σ => ?_
      exact outcome_bind_faults (ha member (Array.mem_of_getElem? hm))
        fun result hresult => after_attempt_faults _ _ _ _ _ _ hresult

theorem search_faults {attempt : ElementId → DecodeM μ Value} {members : Array ElementId}
    (hover : P (.valuesExceeded setup.options.maxValues))
    (ha : ∀ member ∈ members, Faults (fun fault => fault.isEof = false → P fault)
      (attempt member)) (arrangement : Arrangement) (frame : Frame) (frames : List Frame)
    (steps : Nat) (s : Search) :
    Faults P (search setup attempt arrangement members frame frames steps s) := by
  induction steps generalizing s with
  | zero => exact throw_faults hover
  | succ steps ih =>
    rw [search]
    refine bind_faults (search_step_faults ha _ _ _ _) fun stage => ?_
    cases stage with
    | searching next => exact ih next
    | ended last dry => exact pure_faults _

end

end

end ByteGrammar
