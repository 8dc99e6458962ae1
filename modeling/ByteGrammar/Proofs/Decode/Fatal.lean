import ByteGrammar.Proofs.Decode.Forms

/-!
# Fatal faults

A script that fails, a frame or a value too many and a source that fails under a leaf end the whole
decode. None of the searches around it passes over such a fault, tries anything else, or makes
another fault of it: the act in which it arises is the last one, and its fault is what the decode
comes to.
-/

set_option autoImplicit false

namespace ByteGrammar

open Stepwise DecodeM Source Course

variable {μ α : Type}

def Act.fault? (setup : Setup μ) : Act → Option DecodeFault
  | .read 0 _ => some (.depthExceeded setup.options.maxDepth)
  | .take (some (.io text)) => some (.source (.io text))
  | .run script location (some reason) => some (.script script.language location reason)
  | .count values =>
    if setup.options.maxValues < values then some (.valuesExceeded setup.options.maxValues)
    else none
  | _ => none

/-- The acts decide the outcome, which is a fault or none. An act that ends the decode is the last
one, and its fault is the outcome; and a fault that comes of acts is that of the last one. -/
structure Decided (setup : Setup μ) (acts : List Act) (outcome : Option DecodeFault) : Prop where
  last : ∀ before act after fault, acts = before ++ act :: after →
    act.fault? setup = some fault → after = [] ∧ outcome = some fault
  owed : ∀ fault, outcome = some fault → fault.isAbrupt →
    ∃ before act, acts = before ++ [act] ∧ act.fault? setup = some fault

section
variable {setup : Setup μ}

theorem fault_abrupt {act : Act} {fault : DecodeFault} (h : act.fault? setup = some fault) :
    fault.isAbrupt := by
  unfold Act.fault? at h
  split at h
  · cases h
    rfl
  · cases h
    rfl
  · cases h
    rfl
  · split at h <;> cases h
    rfl
  · cases h

theorem decided_nil {outcome : Option DecodeFault}
    (h : ∀ fault, outcome = some fault → Smooth fault) : Decided setup [] outcome := by
  constructor
  · intro before act after fault hacts
    simp at hacts
  · intro fault hfault habrupt
    cases habrupt.symm.trans (h fault hfault)

theorem decided_one {act : Act} {outcome : Option DecodeFault}
    (hlast : ∀ fault, act.fault? setup = some fault → outcome = some fault)
    (howed : ∀ fault, outcome = some fault → fault.isAbrupt → act.fault? setup = some fault) :
    Decided setup [act] outcome := by
  constructor
  · intro before act' after fault hacts hfault
    obtain ⟨rfl,hone⟩ | ⟨-,hnone⟩ := List.append_eq_singleton_iff.mp hacts.symm
    · cases hone
      exact ⟨rfl,hlast fault hfault⟩
    · cases hnone
  · exact fun fault houtcome habrupt => ⟨[],act,rfl,howed fault houtcome habrupt⟩

/-- Acts in two parts decide the outcome if the second part does, and the first one decides that
the decode has not ended. -/
theorem decided_append {first rest : List Act} {begun outcome : Option DecodeFault}
    (hfirst : Decided setup first begun) (hbegun : Unbroken begun)
    (hrest : Decided setup rest outcome) : Decided setup (first ++ rest) outcome := by
  constructor
  · intro before act after fault hacts hact
    rcases List.append_eq_append_iff.mp hacts with ⟨between,rfl,hsplit⟩ | ⟨later,rfl,hsplit⟩
    · exact hrest.last between act after fault hsplit hact
    · cases later with
      | nil => exact hrest.last [] act after fault hsplit.symm hact
      | cons act' later =>
        cases hsplit
        obtain ⟨-,hended⟩ := hfirst.last before act later fault rfl hact
        cases (abrupt_fatal (fault_abrupt hact)).symm.trans (hbegun fault hended)
  · intro fault houtcome habrupt
    obtain ⟨before,act,rfl,hact⟩ := hrest.owed fault houtcome habrupt
    exact ⟨first ++ before,act,(List.append_assoc _ _ _).symm,hact⟩

def Decides (setup : Setup μ) (_ : State μ) (acts : List Act) (outcome : Option DecodeFault)
    (_ : State μ) : Prop := Decided setup acts outcome

theorem decides_ledger : Ledger setup (Decides setup) where
  idle _ h := decided_nil h
  append hbegun hfirst hrest := decided_append hfirst hbegun hrest
  take count σ := by
    unfold takeActs
    rw [take_run]
    rcases Source.read count σ.source with ⟨fault | bytes, source⟩
    · refine decided_one (fun fault' hfault => ?_) fun fault' houtcome habrupt => ?_
      · cases fault <;> cases hfault
        rfl
      · cases houtcome
        cases fault <;> cases habrupt
        rfl
    · exact decided_one nofun nofun
  run id current := run_script_tallies fun h => by
    cases h with
    | absent none =>
      refine decided_nil fun fault hfault => ?_
      cases hfault
      rfl
    | skipped holds bare steady => exact decided_nil nofun
    | failed run => exact decided_one (fun fault h => h) fun fault h _ => h
    | ran holds installed run => exact decided_one nofun nofun
  read _ _ _ := decided_one nofun nofun
  barred _ _ := decided_one (fun _ h => h) fun _ h _ => h
  count id v σ := by
    rw [record_value_run]
    by_cases hover : setup.options.maxValues < σ.values + 1
    · have hfault : (Act.count (σ.values + 1)).fault? setup =
          some (.valuesExceeded setup.options.maxValues) := if_pos hover
      rw [if_pos hover]
      exact decided_one (fun _ h => hfault.symm.trans h) fun _ h _ => hfault.trans h
    · have hnone : (Act.count (σ.values + 1)).fault? setup = none := if_neg hover
      rw [if_neg hover]
      refine decided_one (fun fault h => ?_) nofun
      cases hnone.symm.trans h
  giveUp _ _ _ := decided_one nofun nofun
  late h _ := h

theorem silent_decides {action : DecodeM μ α} (h : Faults Smooth action) :
    Upholds (Decides setup) (silent action) := by
  rintro σ _ _ ⟨rfl,rfl⟩
  exact decided_nil fun fault hfault => h σ fault _ (Prod.ext (fault_of_some.mp hfault) rfl)

theorem begin_decides (place : Nat) {f : Nat → Course μ α}
    (hf : ∀ length, Upholds (Decides setup) (f length)) :
    Upholds (Decides setup) (silent (reset setup) >>= fun _ => silent sourceLength >>= fun length =>
      silent (seekTo place) >>= fun _ => f length) := by
  refine bind_upholds decides_ledger (silent_decides (sure_faults fun _ => ⟨(),_,rfl⟩)) fun _ => ?_
  refine bind_upholds decides_ledger (silent_decides (sure_faults fun σ => ⟨_,σ,rfl⟩))
    fun length => ?_
  exact bind_upholds decides_ledger (silent_decides (seek_faults _)) fun _ => hf length

theorem decode_course_decides : Upholds (Decides setup) (decodeCourse setup) := by
  have hcheck : ∀ v, Faults Smooth (checkRoot setup v) := by
    intro v
    unfold checkRoot
    split
    · split
      · exact pure_faults _
      · exact throw_faults rfl
    · exact pure_faults _
  refine begin_decides 0 fun length => ?_
  refine bind_upholds decides_ledger (silent_decides (log_faults _)) fun _ => ?_
  exact bind_upholds decides_ledger (root_course_upholds decides_ledger length) fun v =>
    silent_decides (hcheck v)

theorem decode_element_course_decides (id : ElementId) (offset : Nat) :
    Upholds (Decides setup) (decodeElementCourse setup id offset) :=
  begin_decides offset fun _ => element_course_upholds decides_ledger _ _ id

end

theorem decided_of {setup : Setup μ} {c : Course μ α} {action : DecodeM μ α}
    (ht : Tracks c action) (hc : Upholds (Decides setup) c) (σ : State μ) :
    (∃ acts, c σ acts (action σ)) ∧
      ∀ acts r, c σ acts r → r = action σ ∧ Decided setup acts (faultOf (action σ).1) := by
  refine ⟨(ht σ).goes,fun acts r h => ?_⟩
  obtain rfl := (ht σ).sound h
  exact ⟨rfl,hc h⟩

/-- The first fatal fault decides a decode. There is a course from every state, and every course
comes to the result of the decode. As soon as a script fails, an element is begun without room for
its frame, a value too many is counted or the source fails under a leaf, nothing else is done and
that very fault is the result; and no decode comes to such a fault in any other way. -/
theorem fatal_decides (setup : Setup μ) (σ : State μ) :
    ((∃ acts, decodeCourse setup σ acts (decode setup σ)) ∧
      ∀ acts r, decodeCourse setup σ acts r →
        r = decode setup σ ∧ Decided setup acts (faultOf (decode setup σ).1)) ∧
    ∀ id offset, (∃ acts, decodeElementCourse setup id offset σ acts
        (decodeElement setup id offset σ)) ∧
      ∀ acts r, decodeElementCourse setup id offset σ acts r →
        r = decodeElement setup id offset σ ∧
          Decided setup acts (faultOf (decodeElement setup id offset σ).1) := by
  exact ⟨decided_of (decode_course_tracks setup) decode_course_decides σ,fun id offset =>
    decided_of (decode_element_course_tracks setup id offset)
      (decode_element_course_decides id offset) σ⟩

end ByteGrammar
