import ByteGrammar.Proofs.Source.Delivered

/-!
# What a read comes to

The outcome of a read, and where it leaves the cursor, follow from the data, the place, the count
of bytes that are wanted and the place from which on the reader fails. Into how many deliveries
the reader splits the data and how often it is interrupted does not matter.
-/

set_option autoImplicit false

namespace ByteGrammar.Source

/-- The place at which a read of `wanted` bytes fails that a reader has not delivered yet, nor all
that there are, when it comes to where it fails. -/
def failing? (data : Array UInt8) (fail : Option Nat) (place wanted : Nat) : Option Nat :=
  fail.filter fun f => f ≤ place ∨ f < place + wanted ∧ f ≤ data.size

/-- What a read of `wanted` bytes at `place` comes to, and the cursor behind it. -/
def answer (data : Array UInt8) (fail : Option Nat) (place wanted : Nat) :
    Except SourceFault (List UInt8) × Nat :=
  let left := data.size - place
  if wanted ≤ left ∧ ∀ f ∈ fail, place + wanted ≤ f then
    (.ok (data.extract place (place + wanted)).toList,place + wanted)
  else
    match failing? data fail place wanted with
    | some f => (.error (.io "injected failure"),max place f)
    | none => if left = 0 then (.error .eof,place) else (.error (.short left wanted),place + left)

variable {s : Source} {n : Nat}

theorem failing_iff {f : Nat} :
    failing? s.data s.failAt s.position n = some f ↔
      f ∈ s.failAt ∧ (f ≤ s.position ∨ f < s.position + n ∧ f ≤ s.data.size) := by
  simp [failing?, Option.filter_eq_some_iff]

/-- A read that comes to where the reader fails does not succeed. -/
theorem answer_failing {f : Nat} (hn : 0 < n)
    (h : failing? s.data s.failAt s.position n = some f) :
    answer s.data s.failAt s.position n = (.error (.io "injected failure"),max s.position f) := by
  obtain ⟨hf,hreach⟩ := failing_iff.mp h
  have hcut : ¬(n ≤ s.data.size - s.position ∧ ∀ f ∈ s.failAt, s.position + n ≤ f) := by
    rintro ⟨-,hall⟩
    have hbehind := hall f hf
    omega
  simp only [answer, if_neg hcut, h]

theorem answer_whole (h : failing? s.data s.failAt s.position n = none) :
    answer s.data s.failAt s.position n =
      (if (s.ahead n).length = n then .ok (s.ahead n)
        else if (s.ahead n).isEmpty then .error .eof
        else .error (.short (s.ahead n).length n),s.position + (s.ahead n).length) := by
  have hfail : ∀ f ∈ s.failAt, ¬(f ≤ s.position ∨ f < s.position + n ∧ f ≤ s.data.size) :=
    fun f hf hreach => by cases h.symm.trans (failing_iff.mpr ⟨hf,hreach⟩)
  have hlen := s.ahead_length n
  by_cases hall : n ≤ s.data.size - s.position
  · have hbehind : ∀ f ∈ s.failAt, s.position + n ≤ f := by
      intro f hf
      have hnot := hfail f hf
      omega
    have hn : (s.ahead n).length = n := by omega
    simp only [answer, if_pos (And.intro hall hbehind), hn]
    rfl
  · have hcut : ¬(n ≤ s.data.size - s.position ∧ ∀ f ∈ s.failAt, s.position + n ≤ f) :=
      fun hboth => hall hboth.1
    have hleft : (s.ahead n).length = s.data.size - s.position := by omega
    have hempty : (s.ahead n).isEmpty ↔ s.data.size - s.position = 0 := by
      rw [List.isEmpty_iff_length_eq_zero, hleft]
    simp only [answer, if_neg hcut, h, hempty, hleft]
    rw [if_neg (show ¬s.data.size - s.position = n by omega)]
    by_cases hzero : s.data.size - s.position = 0
    · rw [if_pos hzero, if_pos hzero, hzero, Nat.add_zero]
    · rw [if_neg hzero, if_neg hzero]

theorem read_answer (hc : s.chunk ≠ some 0) (hn : 0 < n) :
    ((read n s).1,(read n s).2.position) = answer s.data s.failAt s.position n := by
  cases h : failing? s.data s.failAt s.position n with
  | some f =>
    obtain ⟨hf,hreach⟩ := failing_iff.mp h
    obtain ⟨hresult,hposition⟩ := read_failed hc hf (n := n) (by omega) (by omega)
    rw [answer_failing hn h, hresult, hposition, Nat.max_comm]
  | none =>
    have hs : ¬s.Lapses n := by
      rintro ⟨f,hf,hlt,hreach⟩
      cases h.symm.trans (failing_iff.mpr ⟨hf,by omega⟩)
    obtain ⟨hresult,hposition⟩ := read_whole hc hs
    rw [answer_whole h, hresult, hposition]

/-- A reader that hands over a byte at least, if it hands over any, answers a read as its data, its
cursor and the place where it fails tell, whichever deliveries are interrupted and whatever length
it reports. A read at a place is answered as one there, and leaves the cursor where it was. -/
theorem reads_answered (s : Source) (hc : s.chunk ≠ some 0) (n : Nat) (hn : 0 < n) :
    ((read n s).1,(read n s).2.position) = answer s.data s.failAt s.position n ∧
    ∀ place, (readAt n place s).1 = (read n { s with position := place }).1 ∧
      (readAt n place s).1 = (answer s.data s.failAt place n).1 ∧
      (readAt n place s).2.position = s.position := by
  refine ⟨read_answer hc hn,fun place => ?_⟩
  have hthere := read_answer (s := { s with position := place }) hc hn
  rw [readAt_eq]
  exact ⟨rfl,congrArg Prod.fst hthere,rfl⟩

def faltering (position : Nat) : Source :=
  { data := #[10, 11, 12, 13, 14, 15, 16, 17], position, chunk := some 3, failAt := some 5,
    interrupts := [false, true, false, true, true] }

theorem faltering_answers :
    (read 4 (faltering 1)).1 = .ok [11, 12, 13, 14] ∧ (read 4 (faltering 1)).2.position = 5 ∧
    (readAt 9 2 (faltering 1)).1 = .error (.io "injected failure") ∧
    (readAt 9 2 (faltering 1)).2.position = 1 := by
  obtain ⟨hread,hat⟩ := reads_answered (faltering 1) (by decide) 4 (by decide)
  obtain ⟨-,hfailed,hstill⟩ :=
    (reads_answered (faltering 1) (by decide) 9 (by decide)).2 2
  have hbytes : answer (faltering 1).data (faltering 1).failAt 1 4 =
      (.ok [11, 12, 13, 14],5) := by rfl
  rw [show (faltering 1).position = 1 from rfl, hbytes, Prod.mk.injEq] at hread
  exact ⟨hread.1,hread.2,hfailed,hstill⟩

end ByteGrammar.Source
