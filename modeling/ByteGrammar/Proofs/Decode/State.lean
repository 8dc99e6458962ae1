import ByteGrammar.Decode.Run
import ByteGrammar.Proofs.Quantity.Evaluation

/-!
# What the steps of a decode do to its state

Evaluations, bounds and the journal leave the cursor, the history and the counters alone; no step
at all exchanges the reader. The two relations here carry this through all that is built of such
steps.
-/

set_option autoImplicit false

namespace ByteGrammar

open Stepwise DecodeM Source

variable {μ α : Type}

structure State.Quiet (s t : State μ) : Prop where
  source : Still s.source t.source
  history : t.history = s.history
  order : t.order = s.order
  values : t.values = s.values
  memory : t.memory = s.memory

structure State.Kept (s t : State μ) : Prop where
  source : Follows s.source t.source
  history : t.history = s.history
  values : t.values = s.values

structure State.Steady (s t : State μ) : Prop where
  order : t.order = s.order
  values : t.values = s.values

def State.SameReader (s t : State μ) : Prop := Follows s.source t.source

def State.moved (s : State μ) (place : Nat) : State μ :=
  { s with source := { s.source with position := place } }

def State.noted (s : State μ) (event : Event) : State μ :=
  { s with journal := s.journal.map (event :: ·) }

namespace State

variable {s t u : State μ}

theorem Quiet.refl (s : State μ) : Quiet s s := ⟨Still.refl _,rfl,rfl,rfl,rfl⟩

theorem Quiet.trans (h : Quiet s t) (k : Quiet t u) : Quiet s u :=
  ⟨h.source.trans k.source,k.history.trans h.history,k.order.trans h.order,
    k.values.trans h.values,k.memory.trans h.memory⟩

instance : Lasting (Quiet (μ := μ)) := ⟨Quiet.refl,Quiet.trans⟩

theorem Kept.refl (s : State μ) : Kept s s := ⟨Follows.refl _,rfl,rfl⟩

theorem Kept.trans (h : Kept s t) (k : Kept t u) : Kept s u :=
  ⟨h.source.trans k.source,k.history.trans h.history,k.values.trans h.values⟩

instance : Lasting (Kept (μ := μ)) := ⟨Kept.refl,Kept.trans⟩

instance : Lasting (SameReader (μ := μ)) := ⟨fun _ => Follows.refl _,Follows.trans⟩

instance : Lasting (Steady (μ := μ)) :=
  ⟨fun _ => ⟨rfl,rfl⟩,fun h k => ⟨k.order.trans h.order,k.values.trans h.values⟩⟩

class Reading (R : State μ → State μ → Prop) : Prop extends Lasting R where
  source : ∀ {s : State μ} {source : Source}, Follows s.source source → R s { s with source }

instance : Reading (Kept (μ := μ)) := ⟨fun h => ⟨h,rfl,rfl⟩⟩

instance : Reading (Steady (μ := μ)) := ⟨fun _ => ⟨rfl,rfl⟩⟩

theorem Quiet.steady (h : Quiet s t) : Steady s t := ⟨h.order,h.values⟩

theorem Quiet.kept (h : Quiet s t) : Kept s t := ⟨h.source.toFollows,h.history,h.values⟩

theorem Kept.reader (h : Kept s t) : SameReader s t := h.source

theorem Quiet.reader (h : Quiet s t) : SameReader s t := h.source.toFollows

structure Onward (s t : State μ) : Prop where
  reader : SameReader s t
  values : s.values ≤ t.values

def Uncounted (s t : State μ) : Prop := t.values = s.values

/-- A relation that holds across whatever takes back what was recorded, or does not record. -/
class Holding (R : State μ → State μ → Prop) : Prop extends Lasting R where
  quiet : ∀ {s t}, Quiet s t → R s t
  restored : ∀ s history, R s { s with history }

/-- A relation that holds across whatever a decode does, scripts apart. -/
class Enduring (R : State μ → State μ → Prop) : Prop extends Reading R where
  quiet : ∀ {s t}, Quiet s t → R s t
  revoked : ∀ {s t : State μ}, R s t → R s { t with history := s.history }
  counted : ∀ s, R s { s with values := s.values + 1 }
  recorded : ∀ s v, R s { s with history := v :: s.history }

instance : Holding (Uncounted (μ := μ)) where
  refl _ := rfl
  trans h k := Eq.trans k h
  quiet h := h.values
  restored _ _ := rfl

instance : Holding (Steady (μ := μ)) where
  quiet h := h.steady
  restored _ _ := ⟨rfl,rfl⟩

theorem Kept.onward (h : Kept s t) : Onward s t := ⟨h.reader,Nat.le_of_eq h.values.symm⟩

instance : Enduring (Onward (μ := μ)) where
  refl s := ⟨Lasting.refl s,Nat.le_refl _⟩
  trans h k := ⟨Lasting.trans h.reader k.reader,Nat.le_trans h.values k.values⟩
  source h := ⟨h,Nat.le_refl _⟩
  quiet h := h.kept.onward
  revoked h := ⟨h.reader,h.values⟩
  counted s := ⟨Follows.refl s.source,Nat.le_succ _⟩
  recorded s _ := ⟨Follows.refl s.source,Nat.le_refl _⟩

theorem Quiet.position (h : Quiet s t) : t.source.position = s.source.position :=
  h.source.position

theorem noted_quiet (s : State μ) (event : Event) : Quiet s (s.noted event) :=
  ⟨Still.refl _,rfl,rfl,rfl,rfl⟩

end State

theorem cursor_run (s : State μ) : cursor s = (.ok s.source.position,s) := rfl

theorem log_run (event : Event) (s : State μ) : log event s = (.ok ⟨⟩,s.noted event) := rfl

theorem outcome_run (action : DecodeM μ α) (s : State μ) :
    outcome action s = (.ok (action s).1,(action s).2) := rfl

theorem cursor_ok {s t : State μ} {place : Nat} (h : cursor s = (.ok place,t)) :
    s.source.position = place ∧ s = t := by
  cases h
  exact ⟨rfl,rfl⟩

theorem seek_ok {s t : State μ} {place : Nat} {u : Unit} (h : seekTo place s = (.ok u,t)) :
    s.moved place = t := by
  cases h
  rfl

theorem log_ok {s t : State μ} {event : Event} {u : Unit} (h : log event s = (.ok u,t)) :
    s.noted event = t := by
  cases h
  rfl

theorem outcome_ok {action : DecodeM μ α} {s t : State μ} {result : Except DecodeFault α}
    (h : outcome action s = (.ok result,t)) : action s = (result,t) := by
  rw [outcome_run] at h
  cases h
  rfl

theorem take_run (count : Nat) (s : State μ) :
    take count s = match Source.read count s.source with
      | (.ok bytes,source) => (.ok bytes,{ s with source })
      | (.error fault,source) => (.error (.ofSource fault),{ s with source }) := rfl

theorem take_in_memory {s : State μ} (hs : s.source.InMemory) {n : Nat}
    (hn : n ≤ s.source.data.size - s.source.position) :
    take n s = (.ok (s.source.ahead n),s.moved (s.source.position + n)) := by
  have hall : (s.source.ahead n).length = n := by
    rw [ahead_length]
    omega
  rw [take_run, read_in_memory hs, if_pos hall, hall]
  rfl

theorem order_of_run (endian : Endian) (s : State μ) :
    orderOf endian s = (.ok (match endian with
      | .little => .little
      | .big => .big
      | .dynamic => s.order),s) := by
  cases endian <;> rfl

theorem evaluate_run (setup : Setup μ) (frames : List Frame) (id : ElementId) (q : Quantity)
    (s : State μ) :
    evaluate setup frames id q s =
      match q.eval setup.grammar s.history frames s.source.position s.source with
      | (.ok n,source) => (.ok n,{ s with source })
      | (.error fault,source) =>
        (.error (.eval (setup.grammar.label id) fault),{ s with source }) := rfl

theorem evaluate_ok {setup : Setup μ} {frames : List Frame} {id : ElementId} {q : Quantity}
    {s t : State μ} {n : Int} (h : evaluate setup frames id q s = (.ok n,t)) :
    ∃ source, q.eval setup.grammar s.history frames s.source.position s.source =
      (.ok n,source) := by
  rw [evaluate_run] at h
  rcases hr : q.eval setup.grammar s.history frames s.source.position s.source with
    ⟨e | m, source⟩ <;> rw [hr] at h <;> cases h
  exact ⟨source,rfl⟩

theorem evaluate_literal (setup : Setup μ) (frames : List Frame) (id : ElementId) (n : Int)
    (s : State μ) : evaluate setup frames id (.literal n) s = (.ok n,s) := rfl

theorem log_quiet (event : Event) : Keeps State.Quiet (log event : DecodeM μ Unit) :=
  fun s => State.noted_quiet s event

section
variable {R : State μ → State μ → Prop}

theorem cursor_keeps [Lasting R] : Keeps R (cursor : DecodeM μ Nat) := fun s => Lasting.refl s

theorem order_of_keeps [Lasting R] (endian : Endian) :
    Keeps R (orderOf endian : DecodeM μ _) := by
  intro s
  rw [order_of_run]
  exact Lasting.refl s

variable [State.Reading R]

theorem seek_keeps (place : Nat) : Keeps R (seekTo place : DecodeM μ Unit) :=
  fun s => State.Reading.source ((Follows.refl s.source).moved place)

theorem take_keeps (count : Nat) : Keeps R (take count : DecodeM μ (List UInt8)) := by
  intro s
  have hs := read_follows count s.source
  rw [take_run]
  rcases hr : Source.read count s.source with ⟨e | bytes, source⟩ <;> rw [hr] at hs <;>
    exact State.Reading.source hs

end

theorem take_ok {count : Nat} {bytes : List UInt8} {s t : State μ}
    (h : take count s = (.ok bytes,t)) :
    bytes.length = count ∧ t = { s with source := t.source } ∧
      t.source.position = s.source.position + count := by
  rw [take_run] at h
  rcases hr : Source.read count s.source with ⟨e | found, source⟩ <;> rw [hr] at h
  · cases h
  · cases h
    exact ⟨(read_moves hr).1,rfl,(read_moves hr).2⟩

theorem evaluate_quiet (setup : Setup μ) (frames : List Frame) (id : ElementId) (q : Quantity) :
    Keeps State.Quiet (evaluate setup frames id q) := by
  intro s
  have hs := Quantity.eval_keeps setup.grammar s.history frames s.source.position q s.source
  rw [evaluate_run]
  rcases hr : q.eval setup.grammar s.history frames s.source.position s.source with
    ⟨e | n, source⟩ <;> rw [hr] at hs <;> exact ⟨hs,rfl,rfl,rfl,rfl⟩

def bytesOf (setup : Setup μ) (id : ElementId) (n : Int) : Except DecodeFault Nat :=
  if n < 0 then .error (.negativeLength (setup.grammar.label id) n)
  else match (setup.grammar.attributesOf id).unit with
    | .byte => .ok n.toNat
    | .bit =>
      if n % 8 = 0 then .ok (n / 8).toNat
      else .error (.unsupportedBits (setup.grammar.label id) n)

theorem byte_length_none {setup : Setup μ} {id : ElementId}
    (h : (setup.grammar.attributesOf id).length = none) (frames : List Frame) :
    byteLength setup frames id = pure none := by
  simp only [byteLength, h]

theorem byte_length_some {setup : Setup μ} {id : ElementId} {q : Quantity}
    (h : (setup.grammar.attributesOf id).length = some q) (frames : List Frame) :
    byteLength setup frames id = evaluate setup frames id q >>= fun n =>
      match bytesOf setup id n with
      | .ok bytes => pure (some bytes)
      | .error fault => throw fault := by
  simp only [byteLength, h, bytesOf]
  congr 1
  funext n
  split
  · rfl
  · cases (setup.grammar.attributesOf id).unit with
    | byte => rfl
    | bit =>
      dsimp only
      split <;> rfl

theorem bytes_of_ok {setup : Setup μ} {id : ElementId} {n : Int} {bytes : Nat}
    (h : bytesOf setup id n = .ok bytes) :
    match (setup.grammar.attributesOf id).unit with
    | .byte => (bytes : Int) = n
    | .bit => 8 * (bytes : Int) = n := by
  unfold bytesOf at h
  by_cases hn : n < 0
  · rw [if_pos hn] at h
    cases h
  · rw [if_neg hn] at h
    cases hu : (setup.grammar.attributesOf id).unit with
    | byte =>
      rw [hu] at h
      cases h
      exact Int.toNat_of_nonneg (Int.not_lt.mp hn)
    | bit =>
      rw [hu] at h
      dsimp only at h
      by_cases hm : n % 8 = 0
      · rw [if_pos hm] at h
        cases h
        show 8 * (((n / 8).toNat : Nat) : Int) = n
        omega
      · rw [if_neg hm] at h
        cases h

theorem byte_length_ok {setup : Setup μ} {frames : List Frame} {id : ElementId} {q : Quantity}
    (hq : (setup.grammar.attributesOf id).length = some q) {s t : State μ}
    {declared : Option Nat} (h : byteLength setup frames id s = (.ok declared,t)) :
    ∃ n u bytes, evaluate setup frames id q s = (.ok n,u) ∧ bytesOf setup id n = .ok bytes ∧
      declared = some bytes := by
  rw [byte_length_some hq] at h
  obtain ⟨n,u,hn,h1⟩ := bind_ok.mp h
  rcases hb : bytesOf setup id n with fault | bytes <;> rw [hb] at h1
  · cases h1
  · obtain ⟨rfl,rfl⟩ := pure_ok.mp h1
    exact ⟨n,u,bytes,hn,hb,rfl⟩

theorem byte_length_quiet (setup : Setup μ) (frames : List Frame) (id : ElementId) :
    Keeps State.Quiet (byteLength setup frames id) := by
  cases h : (setup.grammar.attributesOf id).length with
  | none =>
    rw [byte_length_none h]
    exact pure_keeps _
  | some q =>
    rw [byte_length_some h]
    refine bind_keeps (evaluate_quiet setup frames id q) fun n => ?_
    cases bytesOf setup id n with
    | ok bytes => exact pure_keeps _
    | error fault => exact throw_keeps _

theorem bound_quiet (setup : Setup μ) (frames : List Frame) (id : ElementId)
    (bound : Attributes → Quantity) (reading : Int → α) :
    Keeps State.Quiet (boundOf setup frames id bound reading) :=
  bind_keeps (evaluate_quiet setup frames id _) fun _ => pure_keeps _

section
variable {setup : Setup μ} {frames : List Frame} {id : ElementId} {σ : State μ}

theorem bound_literal {bound : Attributes → Quantity} {reading : Int → α} {n : Int}
    (h : bound (setup.grammar.attributesOf id) = .literal n) :
    boundOf setup frames id bound reading σ = (.ok (reading n),σ) := by
  rw [boundOf, h, bind_run, evaluate_literal]
  rfl

theorem most_count_literal {n : Int} (h : (setup.grammar.attributesOf id).most = .literal n)
    (hn : 0 ≤ n) : mostCount setup frames id σ = (.ok (some n.toNat),σ) := by
  rw [mostCount, bound_literal h, if_neg (Int.not_lt.mpr hn)]

end

end ByteGrammar
