import ByteGrammar.Proofs.Decode.Idle

/-!
# What acts come to

Leaves take bytes and run scripts, one act after the other, and stop at the first fault. Searches
and rounds begin elements, count values and give candidates up. What holds of each act and across
several in a row holds of every leaf, and of the course of every element and of the root.
-/

set_option autoImplicit false

namespace ByteGrammar

open Stepwise DecodeM Source Course

variable {μ α β : Type}

def faultOf : Except DecodeFault α → Option DecodeFault
  | .ok _ => none
  | .error fault => some fault

@[simp] theorem fault_of_ok (a : α) : faultOf (.ok a) = none := rfl

@[simp] theorem fault_of_error (fault : DecodeFault) :
    faultOf (.error fault : Except DecodeFault α) = some fault := rfl

theorem fault_of_some {result : Except DecodeFault α} {fault : DecodeFault} :
    faultOf result = some fault ↔ result = .error fault := by
  cases result <;> simp

def Unbroken (outcome : Option DecodeFault) : Prop := ∀ fault ∈ outcome, fault.isFatal = false

theorem unbroken_ok (a : α) : Unbroken (faultOf (.ok a)) := nofun

@[simp] theorem unbroken_some {fault : DecodeFault} :
    Unbroken (some fault) ↔ fault.isFatal = false := by
  simp [Unbroken]

structure Tally (P : State μ → List Act → Option DecodeFault → State μ → Prop) : Prop where
  idle : ∀ {σ τ outcome}, State.Steady σ τ → (∀ fault, outcome = some fault → Smooth fault) →
    P σ [] outcome τ
  append : ∀ {σ υ τ first rest begun outcome}, Unbroken begun → P σ first begun υ →
    P υ rest outcome τ → P σ (first ++ rest) outcome τ
  take : ∀ count σ, P σ (takeActs count σ) (faultOf (take count σ).1) (take count σ).2

def Tallies (P : State μ → List Act → Option DecodeFault → State μ → Prop)
    (acts : State μ → List Act) (action : DecodeM μ α) : Prop :=
  ∀ σ, P σ (acts σ) (faultOf (action σ).1) (action σ).2

section
variable {P : State μ → List Act → Option DecodeFault → State μ → Prop} (hP : Tally P)

include hP

theorem idle_tallies {action : DecodeM μ α} (h : Idle action) : Tallies P noActs action :=
  fun σ => hP.idle (h.steady σ) fun fault hfault =>
    h.smooth σ fault _ (Prod.ext (fault_of_some.mp hfault) rfl)

theorem take_tallies (count : Nat) :
    Tallies P (takeActs count) (take count : DecodeM μ (List UInt8)) := hP.take count

theorem following_tallies {acts : State μ → List Act} {action : DecodeM μ α}
    {rest : α → State μ → List Act} {f : α → DecodeM μ β} (h : Tallies P acts action)
    (hf : ∀ a, Tallies P (rest a) (f a)) :
    Tallies P (following acts action rest) (action >>= f) := by
  intro σ
  have hσ := h σ
  rw [bind_run]
  unfold following
  rcases hrun : action σ with ⟨fault | a, τ⟩ <;> rw [hrun] at hσ
  · rw [List.append_nil]
    exact hσ
  · exact hP.append (unbroken_ok a) hσ (hf a τ)

theorem behind_tallies {action : DecodeM μ α} {rest : α → State μ → List Act}
    {f : α → DecodeM μ β} (h : Idle action) (hf : ∀ a, Tallies P (rest a) (f a)) :
    Tallies P (behind action rest) (action >>= f) :=
  following_tallies hP (idle_tallies hP h) hf

theorem bind_tallies {acts : State μ → List Act} {action : DecodeM μ α} {f : α → DecodeM μ β}
    (h : Tallies P acts action) (hf : ∀ a, Idle (f a)) : Tallies P acts (action >>= f) := by
  intro σ
  have hσ := h σ
  rw [bind_run]
  rcases hrun : action σ with ⟨fault | a, τ⟩ <;> rw [hrun] at hσ
  · exact hσ
  · have hall := hP.append (unbroken_ok a) hσ (idle_tallies hP (hf a) τ)
    rwa [noActs, List.append_nil] at hall

section
variable {setup : Setup μ} {frame : Frame} {id : ElementId} {declared : Option Nat}

theorem read_number_tallies :
    Tallies P (numberActs setup frame id declared) (readNumber setup frame id declared) := by
  refine behind_tallies hP (idle_integer_length _ _ _) fun length => ?_
  refine behind_tallies hP (idle_claim _ _ _ _) fun start => ?_
  refine bind_tallies hP (take_tallies hP length) fun bytes => ?_
  refine (idle_order_of _).bind fun order => ?_
  split
  · exact idle_throw rfl
  · exact idle_match_fixed _ _ _ _ _ _

theorem read_offset_tallies :
    Tallies P noActs (readOffset setup frame id declared) := by
  refine idle_tallies hP ((idle_integer_length _ _ _).bind fun length => ?_)
  refine (idle_claim _ _ _ _).bind fun start => (idle_seek _).bind fun _ => ?_
  exact (idle_order_of _).bind fun order => idle_pure _

theorem read_binary_tallies :
    Tallies P (binaryActs setup frame id declared) (readBinary setup frame id declared) := by
  refine behind_tallies hP (idle_required_length _ _ _) fun length => ?_
  refine behind_tallies hP (idle_claim _ _ _ _) fun start => ?_
  dsimp only
  split
  · exact idle_tallies hP ((idle_seek _).bind fun _ => idle_pure _)
  · exact bind_tallies hP (take_tallies hP length) fun bytes => idle_match_fixed _ _ _ _ _ _

theorem scan_tallies (delimiter : UInt8) (rest strides : Nat) :
    Tallies P (scanActs delimiter rest strides) (scan delimiter rest strides) := by
  induction strides with
  | zero =>
    rw [scanActs, scan]
    split
    · exact idle_tallies hP (idle_pure _)
    · exact bind_tallies hP (take_tallies hP rest) fun bytes => idle_pure _
  | succ strides ih =>
    rw [scanActs, scan]
    refine following_tallies hP (take_tallies hP stride) fun bytes => ?_
    cases upTo? delimiter bytes with
    | some found => exact idle_tallies hP (idle_pure _)
    | none => exact bind_tallies hP ih fun found => idle_pure _

theorem read_delimited_tallies (delimiter : UInt8) :
    Tallies P (delimitedActs frame delimiter) (readDelimited setup frame id delimiter) := by
  refine behind_tallies hP idle_cursor fun start => ?_
  dsimp only
  split
  · exact idle_tallies hP (idle_throw rfl)
  · refine bind_tallies hP (scan_tallies hP _ _ _) fun found => ?_
    cases found with
    | none => exact idle_throw rfl
    | some bytes => exact (idle_seek _).bind fun _ => idle_pure _

theorem read_counted_tallies :
    Tallies P (countedActs setup frame id) (readCounted setup frame id) := by
  refine behind_tallies hP (idle_claim _ _ _ _) fun start => ?_
  refine following_tallies hP (take_tallies hP 1) fun head => ?_
  dsimp only
  split
  · exact idle_tallies hP (idle_throw rfl)
  · exact bind_tallies hP (take_tallies hP _) fun more => idle_pure _

theorem read_text_tallies :
    Tallies P (textActs setup frame id declared) (readText setup frame id declared) := by
  have hbytes : Tallies P (textActs setup frame id declared)
      (readTextBytes setup frame id declared) := by
    unfold textActs readTextBytes
    cases (setup.grammar.attributesOf id).textKind with
    | zeroTerminated => exact read_delimited_tallies hP 0
    | delimited delimiter => exact read_delimited_tallies hP delimiter
    | counted => exact read_counted_tallies hP
    | fixedLength =>
      refine behind_tallies hP (idle_required_length _ _ _) fun length => ?_
      have hclaim : Idle (discard (claim setup frame id length)) :=
        ⟨map_keeps _ (claim_keeps _ _ _ _),map_faults _ (claim_faults (by rfl) _ _ _ _)⟩
      exact behind_tallies hP hclaim fun _ => take_tallies hP length
  rw [read_text_eq]
  exact behind_tallies hP idle_cursor fun start =>
    bind_tallies hP hbytes fun bytes => idle_match_fixed _ _ _ _ _ _

variable (hrun : ∀ current, Tallies P (runActs setup id current) (runScript setup id current))

include hrun

theorem read_custom_tallies :
    Tallies P (customActs setup frame id declared) (readCustom setup frame id declared) := by
  refine behind_tallies hP (idle_required_length _ _ _) fun length => ?_
  refine behind_tallies hP (idle_claim _ _ _ _) fun start => ?_
  refine behind_tallies hP (idle_seek _) fun _ => ?_
  dsimp only
  split
  · exact bind_tallies hP (hrun _) fun _ => (idle_seek _).bind fun _ => idle_pure _
  · exact idle_tallies hP (idle_pure _)

theorem read_script_tallies :
    Tallies P (runActs setup id none) (readScript setup id) :=
  behind_tallies hP idle_cursor fun _ => bind_tallies hP (hrun none) fun _ =>
    (idle_seek _).bind fun _ => idle_pure _

theorem leaf_tallies {course : ElementId → Course μ Value} {frames : List Frame}
    (simple : (setup.grammar.kind id).isLeaf) {σ : State μ} {acts : List Act}
    {r : Except DecodeFault Value × State μ}
    (h : kindCourse setup course frame frames id declared σ acts r) :
    P σ acts (faultOf r.1) r.2 := by
  unfold kindCourse at h
  cases hkind : setup.grammar.kind id with
  | number settings =>
    rw [hkind] at h
    obtain ⟨rfl,rfl⟩ := h
    exact read_number_tallies hP σ
  | text settings =>
    rw [hkind] at h
    obtain ⟨rfl,rfl⟩ := h
    exact read_text_tallies hP σ
  | binary settings =>
    rw [hkind] at h
    obtain ⟨rfl,rfl⟩ := h
    exact read_binary_tallies hP σ
  | offset settings =>
    rw [hkind] at h
    obtain ⟨rfl,rfl⟩ := h
    exact read_offset_tallies hP σ
  | custom script =>
    rw [hkind] at h
    obtain ⟨rfl,rfl⟩ := h
    exact read_custom_tallies hP hrun σ
  | script script =>
    rw [hkind] at h
    obtain ⟨rfl,rfl⟩ := h
    exact read_script_tallies hP hrun σ
  | scriptElement script =>
    rw [hkind] at h
    obtain ⟨rfl,rfl⟩ := h
    exact read_script_tallies hP hrun σ
  | struct | structRef | grammarRef | grammar | padding =>
    rw [hkind] at simple
    cases simple

end

end

structure Ledger (setup : Setup μ) (P : State μ → List Act → Option DecodeFault → State μ → Prop) :
    Prop extends Tally P where
  run : ∀ id current, Tallies P (runActs setup id current) (runScript setup id current)
  read : ∀ room id σ, P σ [.read (room + 1) id] none σ
  barred : ∀ id σ, P σ [.read 0 id] (some (.depthExceeded setup.options.maxDepth)) σ
  count : ∀ id v σ, P σ [.count (σ.values + 1)] (faultOf (recordValue setup id v σ).1)
    (recordValue setup id v σ).2
  giveUp : ∀ id before σ, P σ [.giveUp id before σ.order] none σ
  late : ∀ {σ υ τ acts outcome}, P σ acts outcome υ → State.Steady υ τ → P σ acts outcome τ

def Upholds (P : State μ → List Act → Option DecodeFault → State μ → Prop) (c : Course μ α) :
    Prop := ∀ ⦃σ acts r⦄, c σ acts r → P σ acts (faultOf r.1) r.2

section
variable {setup : Setup μ} {P : State μ → List Act → Option DecodeFault → State μ → Prop}
  (hP : Ledger setup P)

include hP

section
variable {c : Course μ α}

theorem silent_upholds {action : DecodeM μ α} (h : Idle action) : Upholds P (silent action) := by
  rintro σ _ _ ⟨rfl,rfl⟩
  exact idle_tallies hP.toTally h σ

theorem bind_upholds {f : α → Course μ β} (hc : Upholds P c) (hf : ∀ a, Upholds P (f a)) :
    Upholds P (c >>= f) := by
  intro σ acts r h
  rcases bind_iff.mp h with ⟨fault,τ,hfirst,rfl⟩ | ⟨a,υ,first,rest,hfirst,hrest,rfl⟩
  · exact hc hfirst
  · exact hP.append (unbroken_ok a) (hc hfirst) (hf a hrest)

theorem attempted_bind_upholds {f : Except DecodeFault α → Course μ β} (hc : Upholds P c)
    (hok : ∀ a, Upholds P (f (.ok a)))
    (hmild : ∀ fault, fault.isFatal = false → Upholds P (f (.error fault)))
    (hfatal : ∀ {fault σ acts r}, fault.isFatal → f (.error fault) σ acts r →
      acts = [] ∧ r.1 = .error fault ∧ State.Steady σ r.2) :
    Upholds P (attempted c >>= f) := by
  intro σ acts r h
  obtain ⟨result,υ,first,rest,hfirst,hrest,rfl⟩ := attempted_bind.mp h
  have hbegun := hc hfirst
  cases result with
  | ok a => exact hP.append (unbroken_ok a) hbegun (hok a hrest)
  | error fault =>
    cases hended : fault.isFatal with
    | true =>
      obtain ⟨rfl,hr,hsteady⟩ := hfatal hended hrest
      rw [List.append_nil, hr]
      exact hP.late hbegun hsteady
    | false => exact hP.append (unbroken_some.mpr hended) hbegun (hmild fault hended hrest)

theorem give_up_upholds (id : ElementId) (before : ByteOrder) {action : DecodeM μ α}
    (h : Idle action) :
    Upholds P (noting (silent action) fun σ => .giveUp id before σ.order) := by
  refine bind_upholds hP (silent_upholds hP h) fun a => ?_
  refine bind_upholds hP ?_ fun _ => silent_upholds hP (idle_pure a)
  rintro σ _ _ ⟨rfl,rfl⟩
  exact hP.giveUp id before σ

theorem loop_upholds {S T B : Type} {view : T → Turn S B} {turn : S → Course μ T}
    (h : ∀ s, Upholds P (turn s)) (s : S) : Upholds P (loop view turn s) := by
  intro σ acts r hloop
  induction hloop with
  | ended last leads => exact h _ last
  | failed last => exact h _ last
  | on first leads rest ih => exact hP.append (unbroken_ok _) (h _ first) ih

end

section
variable {course : ElementId → Course μ Value} (h : ∀ id, Upholds P (course id))

include h

theorem step_course_upholds (arrangement : Arrangement) (members : Array ElementId)
    (frame : Frame) (frames : List Frame) (s : Search) :
    Upholds P (stepCourse setup course arrangement members frame frames s) := by
  unfold stepCourse
  cases members[s.index]? with
  | none => exact silent_upholds hP (idle_pure _)
  | some member =>
    refine bind_upholds hP (silent_upholds hP (idle_seek _)) fun _ => ?_
    refine bind_upholds hP (silent_upholds hP (idle_bound _ _ _ _ _)) fun most => ?_
    split
    · exact silent_upholds hP (idle_pure _)
    · refine bind_upholds hP (silent_upholds hP (idle_bound _ _ _ _ _)) fun least => ?_
      refine bind_upholds hP (silent_upholds hP idle_get) fun saved => ?_
      refine attempted_bind_upholds hP (h member) (fun v => silent_upholds hP (idle_pure _))
        (fun fault hmild => give_up_upholds hP _ _
          (idle_after_attempt _ _ _ _ _ _ (smooth_of_mild hmild))) fun hfatal hrest => ?_
      -- A fatal fault is thrown again before anything is taken back.
      obtain ⟨first,⟨rfl,rfl⟩,rfl⟩ := noting_iff.mp hrest
      rw [after_attempt_fatal hfatal]
      exact ⟨rfl,rfl,Lasting.refl _⟩

theorem search_course_upholds (arrangement : Arrangement) (members : Array ElementId)
    (frame : Frame) (frames : List Frame) (s : Search) :
    Upholds P (searchCourse setup course arrangement members frame frames s) :=
  loop_upholds hP (step_course_upholds hP h _ _ _ _) s

theorem kind_course_upholds (frame : Frame) (frames : List Frame) (id : ElementId)
    (declared : Option Nat) :
    Upholds P (kindCourse setup course frame frames id declared) := by
  intro σ acts r hr
  by_cases simple : (setup.grammar.kind id).isLeaf
  · exact leaf_tallies hP.toTally (hP.run id) simple hr
  · unfold kindCourse at hr
    cases hkind : setup.grammar.kind id with
    | struct settings =>
      rw [hkind] at hr
      exact bind_upholds hP (search_course_upholds hP h _ _ _ _ _)
        (fun found => silent_upholds hP (idle_finish_struct _ _ _ _ _ _)) hr
    | structRef link =>
      rw [hkind] at hr
      simp only [referenceCourse] at hr
      cases htarget : (setup.grammar.attributesOf id).target with
      | none =>
        rw [htarget] at hr
        exact silent_upholds hP (idle_throw (by rfl)) hr
      | some target =>
        rw [htarget] at hr
        exact bind_upholds hP (h target) (fun v => silent_upholds hP (idle_pure _)) hr
    | grammarRef | grammar | padding =>
      rw [hkind] at hr
      exact silent_upholds hP (idle_throw (by rfl)) hr
    | number | text | binary | offset | custom | script | scriptElement =>
      rw [hkind] at simple
      exact absurd rfl simple

end

theorem count_upholds (id : ElementId) (v : Value) :
    Upholds P (tell (fun σ => .count (σ.values + 1)) >>= fun _ =>
      silent (recordValue setup id v) >>= fun _ => pure v) := by
  intro σ acts r hr
  obtain ⟨rest,hrest,rfl⟩ := tell_bind.mp hr
  have hcount := hP.count id v σ
  rw [silent_bind] at hrest
  rcases hrun : recordValue setup id v σ with ⟨fault | _, τ⟩ <;> rw [hrun] at hcount hrest
  · obtain ⟨rfl,rfl⟩ := hrest
    exact hcount
  · obtain ⟨rfl,rfl⟩ := hrest
    exact hcount

theorem with_course_upholds {course : List Frame → ElementId → Course μ Value}
    (h : ∀ frames id, Upholds P (course frames id)) (frames : List Frame) (id : ElementId) :
    Upholds P (withCourse setup course frames id) := by
  unfold withCourse
  refine bind_upholds hP (silent_upholds hP (idle_opening _ _ _)) fun opened => ?_
  refine attempted_bind_upholds hP (kind_course_upholds hP (h _) _ _ _ _) (fun v => ?_)
    (fun fault hmild => ?_) fun {fault σ acts r} hfatal hrest => ?_
  · refine bind_upholds hP (silent_upholds hP (idle_log _)) fun _ => ?_
    exact bind_upholds hP (silent_upholds hP (idle_check_read _ _)) fun _ =>
      count_upholds hP id v
  · refine bind_upholds hP (silent_upholds hP (idle_log _)) fun _ => ?_
    exact silent_upholds hP (idle_throw (smooth_of_mild hmild))
  · obtain ⟨rfl,rfl⟩ := silent_bind.mp hrest
    exact ⟨rfl,rfl,(idle_log _).steady σ⟩

/-- What holds of all acts holds of every element. -/
theorem element_course_upholds (room : Nat) (frames : List Frame) (id : ElementId) :
    Upholds P (elementCourse setup room frames id) := by
  induction room generalizing frames id with
  | zero =>
    intro σ acts r hr
    obtain ⟨rest,⟨rfl,rfl⟩,rfl⟩ := tell_bind.mp hr
    exact hP.barred id σ
  | succ room ih =>
    refine bind_upholds hP ?_ fun _ => with_course_upholds hP ih frames id
    rintro σ _ _ ⟨rfl,rfl⟩
    exact hP.read room id σ

theorem round_course_upholds {course : Course μ Value} (h : Upholds P course) (id : ElementId)
    (least : Nat) (most : Option Nat) (length : Nat) (read : Array Value × Nat) :
    Upholds P (roundCourse course id least most length read) := by
  unfold roundCourse
  split
  · exact silent_upholds hP (idle_pure _)
  · refine bind_upholds hP (silent_upholds hP (idle_seek _)) fun _ => ?_
    refine bind_upholds hP (silent_upholds hP idle_get) fun saved => ?_
    refine attempted_bind_upholds hP h (fun v => silent_upholds hP (idle_pure _))
      (fun fault hmild => give_up_upholds hP _ _
        ((idle_stop_after _ _ _ _ (smooth_of_mild hmild)).bind fun _ => idle_pure _))
      fun hfatal hrest => ?_
    obtain ⟨first,⟨rfl,rfl⟩,rfl⟩ := noting_iff.mp hrest
    rw [bind_run, stop_after_fatal hfatal]
    exact ⟨rfl,rfl,Lasting.refl _⟩

theorem root_course_upholds (length : Nat) : Upholds P (rootCourse setup length) := by
  refine bind_upholds hP (silent_upholds hP (idle_bound _ _ _ _ _)) fun least => ?_
  refine bind_upholds hP (silent_upholds hP (idle_bound _ _ _ _ _)) fun most => ?_
  refine bind_upholds hP (loop_upholds hP (fun read => ?_) _) fun read =>
    silent_upholds hP (idle_finish_root _ _ _)
  exact round_course_upholds hP (element_course_upholds hP _ _ _) _ _ _ _ read

end

end ByteGrammar
