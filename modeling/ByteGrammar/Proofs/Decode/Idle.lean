import ByteGrammar.Proofs.Decode.Ordinary
import ByteGrammar.Proofs.Decode.Traced

/-!
# Actions without acts

Most of what a decode does leaves the dynamic byte order and the count of values as they are, and
ends in no fault of a limit, a script or the source.
-/

set_option autoImplicit false

namespace ByteGrammar

open Stepwise DecodeM Source

variable {μ α β : Type}

def DecodeFault.isAbrupt : DecodeFault → Bool
  | depthExceeded _ | valuesExceeded _ | script .. | source (.io _) => true
  | _ => false

def Smooth (fault : DecodeFault) : Prop := fault.isAbrupt = false

instance : Admits Smooth where
  ordinary {fault} h := by
    cases fault <;> simp [DecodeFault.isOrdinary, Smooth, DecodeFault.isAbrupt] at h ⊢

theorem abrupt_fatal {fault : DecodeFault} (h : fault.isAbrupt) : fault.isFatal := by
  unfold DecodeFault.isAbrupt at h
  split at h
  · rfl
  · rfl
  · rfl
  · rfl
  · cases h

theorem smooth_of_mild {fault : DecodeFault} (h : fault.isFatal = false) : Smooth fault := by
  refine Bool.eq_false_iff.mpr fun habrupt => ?_
  rw [abrupt_fatal habrupt] at h
  cases h

structure Idle (action : DecodeM μ α) : Prop where
  steady : Keeps State.Steady action
  smooth : Faults Smooth action

theorem idle_pure (a : α) : Idle (pure a : DecodeM μ α) := ⟨pure_keeps a,pure_faults a⟩

theorem idle_throw {fault : DecodeFault} (h : Smooth fault) : Idle (throw fault : DecodeM μ α) :=
  ⟨throw_keeps fault,throw_faults h⟩

theorem Idle.bind {action : DecodeM μ α} {f : α → DecodeM μ β} (h : Idle action)
    (hf : ∀ a, Idle (f a)) : Idle (action >>= f) :=
  ⟨bind_keeps h.steady fun a => (hf a).steady,bind_faults h.smooth fun a => (hf a).smooth⟩

theorem idle_seek (place : Nat) : Idle (seekTo place : DecodeM μ Unit) :=
  ⟨seek_keeps place,seek_faults place⟩

theorem idle_get : Idle (get : DecodeM μ (State μ)) := ⟨get_keeps,get_faults⟩

theorem idle_cursor : Idle (cursor : DecodeM μ Nat) := ⟨cursor_keeps,cursor_faults⟩

theorem idle_log (event : Event) : Idle (log event : DecodeM μ Unit) :=
  ⟨quiet_holds (log_quiet event),log_faults event⟩

section
variable (setup : Setup μ) (frame : Frame) (id : ElementId) (declared : Option Nat)

theorem idle_required_length : Idle (requiredLength setup id declared) :=
  ⟨required_length_keeps _ _ _,required_length_faults fun _ => rfl⟩

theorem idle_integer_length : Idle (integerLength setup id declared) :=
  ⟨integer_length_keeps _ _ _,integer_length_faults fun _ => rfl⟩

theorem idle_claim (wanted : Nat) : Idle (claim setup frame id wanted) :=
  ⟨claim_keeps _ _ _ _,claim_faults (by rfl) _ _ _ _⟩

theorem idle_match_fixed (values : List (Fixed α)) (isMatch : α → Bool) (content : String)
    (shown : α → String) (v : Value) :
    Idle (matchFixed setup values isMatch content shown v) :=
  ⟨match_fixed_keeps _ _ _ _ _ _,match_fixed_faults _ _ _ _ _ _⟩

theorem idle_order_of (endian : Endian) : Idle (orderOf endian : DecodeM μ ByteOrder) :=
  ⟨order_of_keeps endian,order_of_faults endian⟩

end

theorem after_attempt_fatal {arrangement : Arrangement} {frame : Frame} {s : Search}
    {member : ElementId} {least : Nat} {saved : List Value} {fault : DecodeFault} {σ : State μ}
    (h : fault.isFatal) :
    afterAttempt arrangement frame s member least saved (.error fault) σ = (.error fault,σ) := by
  simp only [afterAttempt, if_pos h]
  rfl

theorem stop_after_fatal {least consumed : Nat} {children : Array Value} {saved : List Value}
    {fault : DecodeFault} {σ : State μ} (h : fault.isFatal) :
    stopAfter least children consumed saved fault σ = (.error fault,σ) := by
  simp only [stopAfter, if_pos h]
  rfl

theorem finish_struct_steady (setup : Setup μ) (frame : Frame) (frames : List Frame)
    (id : ElementId) (declared : Option Nat) (found : Search × Bool) :
    Keeps State.Steady (finishStruct setup frame frames id declared found) := by
  refine bind_keeps (seek_keeps _) fun _ => ?_
  refine bind_keeps (quiet_holds (check_counts_quiet _ _ _ _ _ _ _)) fun _ => ?_
  refine bind_keeps (quiet_holds (padding_of_quiet _ _ _ _ _)) fun padding => ?_
  exact bind_keeps (seek_keeps _) fun _ => pure_keeps _

theorem finish_root_steady (setup : Setup μ) (least : Nat) (read : Array Value × Nat) :
    Keeps State.Steady (finishRoot setup least read) := by
  unfold finishRoot
  dsimp only
  split
  · split
    · exact throw_bind_keeps _ _
    · exact throw_bind_keeps _ _
  · exact bind_keeps (seek_keeps _) fun _ => pure_keeps _

theorem opening_quiet (setup : Setup μ) (frames : List Frame) (id : ElementId) :
    Keeps State.Quiet (opening setup frames id) := by
  refine bind_keeps (fun s => State.Quiet.refl s) fun start => ?_
  refine bind_keeps (fun s => ?_) fun limit => ?_
  · rw [limit_of_run]
    exact State.Quiet.refl s
  refine bind_keeps (byte_length_quiet _ _ _) fun declared => ?_
  exact bind_keeps (log_quiet _) fun _ => pure_keeps _

section
variable (setup : Setup μ)

theorem idle_bound (frames : List Frame) (id : ElementId) (bound : Attributes → Quantity)
    (reading : Int → α) : Idle (boundOf setup frames id bound reading) :=
  ⟨quiet_holds (bound_quiet _ _ _ _ _),bound_faults _ _ _ _ _⟩

theorem idle_after_attempt (arrangement : Arrangement) (frame : Frame) (s : Search)
    (member : ElementId) (least : Nat) (saved : List Value) {fault : DecodeFault}
    (h : Smooth fault) :
    Idle (afterAttempt arrangement frame s member least saved (.error fault) : DecodeM μ _) := by
  refine ⟨after_attempt_holds _ _ _ _ _ _ _,after_attempt_faults _ _ _ _ _ _ ?_⟩
  intro fault' hfault _
  cases hfault
  exact h

theorem idle_stop_after (least : Nat) (children : Array Value) (consumed : Nat)
    (saved : List Value) {fault : DecodeFault} (h : Smooth fault) :
    Idle (stopAfter least children consumed saved fault : DecodeM μ _) :=
  ⟨stop_after_holds _ _ _ _ _,stop_after_faults _ _ _ _ h⟩

theorem idle_finish_struct (frame : Frame) (frames : List Frame) (id : ElementId)
    (declared : Option Nat) (found : Search × Bool) :
    Idle (finishStruct setup frame frames id declared found) :=
  ⟨finish_struct_steady _ _ _ _ _ _,
    finish_struct_faults (fun _ _ => by rfl) (fun _ => by rfl) _ _ _ _⟩

theorem idle_finish_root (least : Nat) (read : Array Value × Nat) :
    Idle (finishRoot setup least read) := by
  refine ⟨finish_root_steady _ _ _,?_⟩
  unfold finishRoot
  dsimp only
  split
  · split <;> exact throw_bind_faults (by rfl) _
  · exact bind_faults (seek_faults _) fun _ => pure_faults _

theorem idle_opening (frames : List Frame) (id : ElementId) : Idle (opening setup frames id) := by
  refine ⟨quiet_holds (opening_quiet _ _ _),bind_faults cursor_faults fun start => ?_⟩
  refine bind_faults (limit_of_faults _) fun limit => ?_
  refine bind_faults (byte_length_faults _ _ _) fun declared => ?_
  exact bind_faults (log_faults _) fun _ => pure_faults _

theorem idle_check_read (v : Value) : Idle (checkRead setup v) :=
  ⟨quiet_holds (check_read_quiet _ v),check_read_faults (fun _ => by rfl) v⟩

end

end ByteGrammar
