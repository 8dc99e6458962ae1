import ByteGrammar.Proofs.Quantity.Evaluation

/-!
# Sources that agree on a range

Two sources over bytes in memory of the same length that have the same bytes in a range, with the
cursor at the same place. Reads inside the range cannot tell them apart. Evaluations look at the
source through the numbers that they read again.
-/

set_option autoImplicit false

namespace ByteGrammar

open Stepwise

namespace Source

structure Alike (lo hi : Nat) (s t : Source) : Prop where
  left : s.InMemory
  right : t.InMemory
  position : t.position = s.position
  size : t.data.size = s.data.size
  bytes : ∀ i, lo ≤ i → i < hi → t.data[i]? = s.data[i]?

def Within (lo hi place n : Nat) : Prop := n = 0 ∨ lo ≤ place ∧ place + n ≤ hi

variable {lo hi : Nat} {s t : Source}

theorem Alike.moved (h : Alike lo hi s t) (place : Nat) :
    Alike lo hi { s with position := place } { t with position := place } :=
  ⟨h.left.moved place,h.right.moved place,rfl,h.size,h.bytes⟩

theorem Alike.length (h : Alike lo hi s t) : t.length = s.length := by
  rw [h.left.length, h.right.length, h.size]

theorem Alike.ahead (h : Alike lo hi s t) {n : Nat} (hn : Within lo hi s.position n) :
    t.ahead n = s.ahead n := by
  unfold Source.ahead
  rw [h.position]
  congr 1
  apply Array.ext_getElem?
  intro i
  rw [Array.getElem?_extract, Array.getElem?_extract, h.size]
  by_cases hi' : i < min (s.position + n) s.data.size - s.position
  · rw [if_pos hi', if_pos hi']
    rcases hn with rfl | ⟨hlo,hhi⟩
    · omega
    · exact h.bytes _ (by omega) (by omega)
  · rw [if_neg hi', if_neg hi']

theorem Alike.read (h : Alike lo hi s t) {n : Nat} (hn : Within lo hi s.position n) :
    (read n t).1 = (read n s).1 ∧ Alike lo hi (read n s).2 (read n t).2 := by
  rw [read_in_memory h.left, read_in_memory h.right, h.ahead hn, h.position]
  exact ⟨rfl,h.moved _⟩

theorem Alike.readAt (h : Alike lo hi s t) {n place : Nat} (hn : Within lo hi place n) :
    (readAt n place t).1 = (readAt n place s).1 ∧
      Alike lo hi (readAt n place s).2 (readAt n place t).2 := by
  obtain ⟨hresult,hsource⟩ := (h.moved place).read (n := n) hn
  rw [readAt_eq, readAt_eq, h.position]
  exact ⟨hresult,hsource.moved _⟩

end Source

open Source

def Value.Inside (lo hi : Nat) (v : Value) : Prop := lo ≤ v.offset ∧ v.finish ≤ hi

def Value.Blurred (R : Source → Source → Prop) (v : Value) : Prop :=
  ∀ {s t}, R s t → (readAt v.length v.offset t).1 = (readAt v.length v.offset s).1 ∧
    R (readAt v.length v.offset s).2 (readAt v.length v.offset t).2

section
variable {R : Source → Source → Prop}

theorem of_source_blind {α : Type} {action : SourceM α} (h : ∀ {s t}, R s t →
      (action t).1 = (action s).1 ∧ R (action s).2 (action t).2) :
    Blind R (fun _ => True) (EvalM.ofSource action) := by
  refine blind_of_same fun {s t} hst => ?_
  obtain ⟨hresult,hsource⟩ := h hst
  rw [of_source_run, of_source_run]
  rcases hs : action s with ⟨e | a, s'⟩ <;> rcases ht : action t with ⟨e' | a', t'⟩ <;>
    rw [hs, ht] at hresult hsource <;> cases hresult
  · exact ⟨rfl,hsource⟩
  · exact ⟨rfl,hsource⟩

theorem Value.read_word_blind (g : Resolved) {v : Value} (hv : v.Blurred R) (signed : Bool) :
    Blind R (fun _ => True) (v.readWord g signed) := by
  unfold Value.readWord
  split
  · exact throw_blind _
  · refine bind_blind_any (of_source_blind hv) fun bytes => ?_
    split
    · exact pure_blind _
    · exact throw_blind _

namespace Quantity

variable (g : Resolved) {history : List Value}

theorem previous_blind (hv : ∀ v ∈ history, (g.kind v.element).isNumber → v.Blurred R)
    (name : String) :
    Blind R (fun _ => True) (previous g history name) := by
  unfold previous
  cases hl : latest? g name history with
  | none => exact throw_blind _
  | some v =>
    dsimp only
    split
    · next hnumber =>
      refine map_blind _ ?_
      have hin : v.Blurred R := hv v (List.mem_of_find?_eq_some hl) hnumber
      rw [Value.read_int_eq]
      split
      · exact Value.read_word_blind g hin _
      · exact Value.read_word_blind g hin _
      · exact throw_blind _
    · exact throw_blind _

theorem eval_with_blind (hv : ∀ v ∈ history, (g.kind v.element).isNumber → v.Blurred R)
    {left : EvalM Int} (hl : Blind R (fun _ => True) left) (q : Quantity) :
    Blind R (fun _ => True) (evalWith g history left q) := by
  cases q with
  | literal n => exact pure_blind n
  | remaining => exact hl
  | unlimited => exact pure_blind _
  | prev name => exact previous_blind g hv name

theorem in_bytes_blind (unit : LengthUnit) (n : Int) :
    Blind R (fun _ => True) (inBytes unit n) := by
  cases unit with
  | byte => exact pure_blind n
  | bit =>
    unfold inBytes
    dsimp only
    split
    · exact pure_blind _
    · exact throw_blind _

theorem left_in_blind (hv : ∀ v ∈ history, (g.kind v.element).isNumber → v.Blurred R)
    (frames : List Frame) (place : Nat) :
    Blind R (fun _ => True) (leftIn g history frames place) := by
  induction frames generalizing place with
  | nil => exact throw_blind _
  | cons frame outer ih =>
    rw [left_in_cons]
    split
    · refine bind_blind_any ?_ fun _ => pure_blind _
      unfold extentOf
      split
      · exact bind_blind_any (eval_with_blind g hv (ih frame.start) _) (in_bytes_blind _)
      · exact pure_blind _
    · exact ih place

/-- A quantity depends on the source through the numbers that it may read again. -/
theorem eval_blind_of (hv : ∀ v ∈ history, (g.kind v.element).isNumber → v.Blurred R)
    (frames : List Frame) (place : Nat) (q : Quantity) :
    Blind R (fun _ => True) (q.eval g history frames place) :=
  eval_with_blind g hv (left_in_blind g hv frames place) q

end Quantity

end

theorem Value.blurred_elsewhere (v : Value) :
    v.Blurred fun s t => s.InMemory ∧ Follows s t := by
  intro s t h
  have hmoved : ({ t with position := v.offset } : Source) = { s with position := v.offset } := by
    rw [h.2.eq_moved h.1]
  refine ⟨by rw [readAt_eq, readAt_eq, hmoved],?_⟩
  rw [(readAt_still v.length v.offset s).eq h.1,
    (readAt_still v.length v.offset t).eq (h.2.in_memory h.1)]
  exact h

theorem Quantity.eval_elsewhere (g : Resolved) (history : List Value) (frames : List Frame)
    (place : Nat) (q : Quantity) {s t : Source} (hs : s.InMemory) (h : Follows s t) :
    (q.eval g history frames place t).1 = (q.eval g history frames place s).1 :=
  ((Quantity.eval_blind_of g (fun v _ _ => v.blurred_elsewhere) frames place q).same ⟨hs,h⟩
    trivial).1

end ByteGrammar
