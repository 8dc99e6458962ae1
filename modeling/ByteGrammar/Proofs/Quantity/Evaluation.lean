import ByteGrammar.Proofs.Source.Reading
import ByteGrammar.Script.Program

/-!
# What evaluations and scripts do to a source

Values are read again at their own places, so that the cursor stays. Neither the evaluation of a
quantity nor a script can move it.
-/

set_option autoImplicit false

namespace ByteGrammar

open Stepwise Source

theorem of_source_run {α : Type} (action : SourceM α) (s : Source) :
    EvalM.ofSource action s = match action s with
      | (.ok a,t) => (.ok a,t)
      | (.error fault,t) => (.error (.source fault),t) := rfl

theorem of_source_keeps {α : Type} {action : SourceM α} (h : Keeps Still action) :
    Keeps Still (EvalM.ofSource action) := by
  intro s
  have hs := h s
  rw [of_source_run]
  rcases hrun : action s with ⟨e | a, t⟩ <;> rw [hrun] at hs <;> exact hs

def Value.readWord (g : Resolved) (v : Value) (signed : Bool) : EvalM MachineInt :=
  if v.length = 0 ∨ 8 < v.length then throw (.unevaluable (g.label v.element))
  else do
    let bytes ← EvalM.ofSource (Source.readAt v.length v.offset)
    match MachineInt.ofBytes? (v.order.getD .little) signed bytes with
    | some i => pure i
    | none => throw (.unevaluable (g.label v.element))

theorem Value.read_int_eq (g : Resolved) (v : Value) :
    v.readInt g = match g.kind v.element with
      | .number _ => v.readWord g (g.attributesOf v.element).signed
      | .offset _ => v.readWord g false
      | _ => throw (.notANumber (g.element v.element).name) := by
  unfold Value.readInt Value.readWord
  cases g.kind v.element <;> rfl

theorem Value.read_word_keeps (g : Resolved) (v : Value) (signed : Bool) :
    Keeps Still (v.readWord g signed) := by
  unfold Value.readWord
  split
  · exact throw_keeps _
  · refine bind_keeps (of_source_keeps (readAt_still _ _)) fun bytes => ?_
    split
    · exact pure_keeps _
    · exact throw_keeps _

theorem Value.read_int_keeps (g : Resolved) (v : Value) : Keeps Still (v.readInt g) := by
  rw [Value.read_int_eq]
  split
  · exact Value.read_word_keeps g v _
  · exact Value.read_word_keeps g v _
  · exact throw_keeps _

namespace Quantity

theorem previous_keeps (g : Resolved) (history : List Value) (name : String) :
    Keeps Still (previous g history name) := by
  unfold previous
  split
  · exact throw_keeps _
  · split
    · exact map_keeps _ (Value.read_int_keeps g _)
    · exact throw_keeps _

theorem eval_with_keeps (g : Resolved) (history : List Value) {left : EvalM Int}
    (hl : Keeps Still left) (q : Quantity) : Keeps Still (evalWith g history left q) := by
  cases q with
  | literal n => exact pure_keeps n
  | remaining => exact hl
  | unlimited => exact pure_keeps _
  | prev name => exact previous_keeps g history name

theorem in_bytes_keeps (unit : LengthUnit) (n : Int) : Keeps Still (inBytes unit n) := by
  cases unit with
  | byte => exact pure_keeps n
  | bit =>
    unfold inBytes
    dsimp only
    split
    · exact pure_keeps _
    · exact throw_keeps _

def extentOf (g : Resolved) (history : List Value) (frame : Frame) (left : EvalM Int) :
    EvalM Int :=
  match (g.attributesOf frame.element).length with
  | some length =>
    evalWith g history left length >>= inBytes (g.attributesOf frame.element).unit
  | none => pure (wrap true 64 (frame.finish - frame.start))

theorem left_in_cons (g : Resolved) (history : List Value) (frame : Frame) (outer : List Frame)
    (place : Nat) :
    leftIn g history (frame :: outer) place =
      if (g.kind frame.element).isStruct then
        extentOf g history frame (leftIn g history outer frame.start) >>= fun n =>
          pure (saturate (n - wrap true 64 ((place - frame.start : Nat) : Int)))
      else leftIn g history outer place := by
  rw [leftIn, extentOf]
  dsimp only
  cases (g.attributesOf frame.element).length <;> rfl

theorem extent_of_keeps (g : Resolved) (history : List Value) (frame : Frame) {left : EvalM Int}
    (hl : Keeps Still left) : Keeps Still (extentOf g history frame left) := by
  unfold extentOf
  split
  · exact bind_keeps (eval_with_keeps g history hl _) (in_bytes_keeps _)
  · exact pure_keeps _

theorem left_in_keeps (g : Resolved) (history : List Value) (frames : List Frame) (place : Nat) :
    Keeps Still (leftIn g history frames place) := by
  induction frames generalizing place with
  | nil => exact throw_keeps _
  | cons frame outer ih =>
    rw [left_in_cons]
    split
    · exact bind_keeps (extent_of_keeps g history frame (ih frame.start)) fun _ => pure_keeps _
    · exact ih place

theorem eval_keeps (g : Resolved) (history : List Value) (frames : List Frame) (place : Nat)
    (q : Quantity) : Keeps Still (q.eval g history frames place) :=
  eval_with_keeps g history (left_in_keeps g history frames place) q

end Quantity

def Value.integer? (g : Resolved) (data : Array UInt8) (v : Value) : Option MachineInt :=
  MachineInt.ofBytes? (v.order.getD .little) (g.attributesOf v.element).signed
    (data.extract v.offset (v.offset + v.length)).toList

theorem Value.read_word_in_memory {g : Resolved} {v : Value} {signed : Bool} {s t : Source}
    {i : MachineInt} (hs : s.InMemory) (h : v.readWord g signed s = (.ok i,t)) :
    MachineInt.ofBytes? (v.order.getD .little) signed
      (s.data.extract v.offset (v.offset + v.length)).toList = some i := by
  unfold Value.readWord at h
  split at h
  · cases h
  · obtain ⟨bytes,u,hb,h1⟩ := bind_ok.mp h
    have hread : (readAt v.length v.offset s).1 = .ok bytes := by
      rw [of_source_run] at hb
      rcases hr : readAt v.length v.offset s with ⟨e | found, w⟩ <;> rw [hr] at hb
      · cases hb
      · cases hb
        rfl
    rw [← readAt_in_memory hs hread]
    rcases hi : MachineInt.ofBytes? (v.order.getD .little) signed bytes with _ | j <;>
      rw [hi] at h1
    · cases h1
    · rw [(pure_ok.mp h1).1]

theorem Quantity.previous_in_memory {g : Resolved} {history : List Value} {name : String}
    {s t : Source} {n : Int} (hs : s.InMemory)
    (h : Quantity.previous g history name s = (.ok n,t)) :
    ∃ w i, latest? g name history = some w ∧ (g.kind w.element).isNumber ∧
      w.integer? g s.data = some i ∧ n = i.toSigned := by
  unfold Quantity.previous at h
  cases hl : latest? g name history with
  | none =>
    rw [hl] at h
    cases h
  | some w =>
    rw [hl] at h
    dsimp only at h
    by_cases hk : (g.kind w.element).isNumber
    · rw [if_pos hk, map_run, Value.read_int_eq] at h
      cases hkind : g.kind w.element with
      | number settings =>
        rw [hkind] at h
        rcases hw : w.readWord g (g.attributesOf w.element).signed s with ⟨e | i, u⟩
        · simp only [hw] at h
          cases h
        · simp only [hw] at h
          cases h
          exact ⟨w,i,rfl,hk,Value.read_word_in_memory hs hw,rfl⟩
      | _ => simp [hkind, Kind.isNumber] at hk
    · rw [if_neg hk] at h
      cases h

theorem fits_double {size : Size} {signed : Bool} {n : Int} (h : Fits signed size.bits n) :
    -(wordCount 63 : Int) ≤ n ∧ n < wordCount 64 := by
  have hwide := h.wider size.bits_le
  have hsucc : wordCount 64 = 2 * wordCount 63 := word_count_succ 63
  cases signed with
  | false =>
    obtain ⟨hn,hlt⟩ : 0 ≤ n ∧ n < wordCount 64 := hwide
    omega
  | true =>
    obtain ⟨hn,hlt⟩ : -(wordCount 63 : Int) ≤ n ∧ n < wordCount 63 := hwide
    omega

theorem MachineInt.to_signed_eq {i : MachineInt} (h : 0 ≤ i.toSigned) : i.toSigned = i.value := by
  have hfits := fits_double i.fits
  have hhalf : wordCount 63 = 0x8000000000000000 := rfl
  have hwhole : wordCount 64 = 0x10000000000000000 := rfl
  simp only [MachineInt.toSigned, wrap, if_true, Int.bmod, hhalf, hwhole] at *
  split at h <;> split <;> omega

/-- Whatever a script asks for, the cursor stays. -/
theorem Program.run_still {α : Type} (g : Resolved) (p : Program α) (s : Source)
    (o : ByteOrder) : Still s (p.run g s o).2.1 := by
  induction p generalizing s o with
  | done a => exact Still.refl s
  | number v next ih => exact (v.read_int_keeps g s).trans (ih _ _ _)
  | bytes v next ih => exact (readAt_still v.length v.offset s).trans (ih _ _ _)
  | order next ih => exact ih o s o
  | setOrder order next ih => exact ih s order

end ByteGrammar
