import ByteGrammar.Proofs.Source.Agreement

/-!
# What readers deliver

However a reader splits the data into deliveries and however often it is interrupted meanwhile, a
read comes to the bytes at the cursor. Only a reader that fails before it has delivered what is
wanted, or all there is, comes to anything else, and that is its failure.
-/

set_option autoImplicit false

namespace ByteGrammar

open Stepwise

namespace Source

variable {s t : Source}

def Lapses (s : Source) (n : Nat) : Prop :=
  ∃ place ∈ s.failAt, max place s.position < s.position + n ∧
    (place ≤ s.position ∨ place ≤ s.data.size)

theorem ahead_eq (s : Source) (n : Nat) :
    s.ahead n = (s.data.toList.drop s.position).take n := by
  simp [ahead, Array.toList_extract, List.extract]

theorem ahead_append {part n : Nat} (h : part ≤ n) (hdata : t.data = s.data)
    (hposition : t.position = s.position + (s.ahead part).length) :
    s.ahead n = s.ahead part ++ t.ahead (n - (s.ahead part).length) := by
  have hlen : (s.ahead part).length ≤ n := by
    rw [ahead_length]
    omega
  have hpart : s.ahead part = (s.data.toList.drop s.position).take (s.ahead part).length := by
    rw [ahead_eq, List.length_take, ← List.take_eq_take_min]
  calc s.ahead n
      = (s.data.toList.drop s.position).take
          ((s.ahead part).length + (n - (s.ahead part).length)) := by
        rw [ahead_eq, Nat.add_sub_cancel' hlen]
    _ = _ := by
        rw [List.take_add, ← hpart, List.drop_drop, ahead_eq t, hdata, hposition]

theorem portion_le (s : Source) (n : Nat) : s.portion n ≤ n := by
  unfold portion
  cases s.chunk <;> cases s.failAt <;> dsimp only <;> try split
  all_goals omega

theorem portion_pos (hc : s.chunk ≠ some 0) {n : Nat} (hn : 0 < n) : 0 < s.portion n := by
  unfold portion
  cases hchunk : s.chunk with
  | none =>
    cases s.failAt <;> dsimp only <;> try split
    all_goals omega
  | some most =>
    have hmost : 0 < most := Nat.pos_of_ne_zero fun hzero => hc (by rw [hchunk, hzero])
    cases s.failAt <;> dsimp only <;> try split
    all_goals omega

theorem asked_waits (s : Source) : s.asked.interrupts.length ≤ s.interrupts.length :=
  (asked_follows s).interrupts.length_le

theorem asked_waits_less (hi : s.interrupts.headD false = true) :
    s.asked.interrupts.length < s.interrupts.length := by
  cases h : s.interrupts with
  | nil => simp [h] at hi
  | cons now later => simp [asked, h]

/-- A reader that is not interrupted and does not fail hands over a part of what it is asked for,
and nothing behind the place from which on it fails. -/
theorem deliver_part (hc : s.chunk ≠ some 0) (hi : s.interrupts.headD false = false)
    (hf : s.failsHere = false) {n : Nat} (hn : 0 < n) :
    ∃ part, 0 < part ∧ part ≤ n ∧ (∀ place ∈ s.failAt, s.position + part ≤ place) ∧
      deliver n s = (.bytes (s.ahead part),
        { s.asked with position := s.position + (s.ahead part).length }) := by
  refine ⟨s.portion n,portion_pos hc hn,s.portion_le n,fun place hplace => ?_,?_⟩
  · have hlt : s.position < place := by simpa [failsHere, Option.mem_def.mp hplace] using hf
    simp only [portion, Option.mem_def.mp hplace, if_pos hlt]
    omega
  · simp only [deliver, hi, hf, Bool.false_and, Bool.false_eq_true, if_false]

theorem fails_here (h : s.failsHere) : ∃ place ∈ s.failAt, place ≤ s.position := by
  unfold failsHere at h
  split at h
  · next place hf => exact ⟨place,hf,of_decide_eq_true h⟩
  · cases h

theorem gather_interrupted (hi : s.interrupts.headD false = true) (asks n : Nat) :
    gather (asks + 1) (n + 1) s = gather asks (n + 1) s.asked := by
  simp only [gather_succ, deliver, hi, if_true]

theorem gather_part {bytes : List UInt8} {asks n : Nat}
    (h : deliver (n + 1) s = (.bytes bytes,t)) (hb : bytes ≠ []) :
    gather (asks + 1) (n + 1) s =
      match gather asks (n + 1 - bytes.length) t with
      | (.ok more,u) => (.ok (bytes ++ more),u)
      | (.error text,u) => (.error text,u) := by
  rw [gather_succ, h]
  cases bytes with
  | nil => contradiction
  | cons b bytes => rfl

theorem gather_whole (hc : s.chunk ≠ some 0) {asks n : Nat}
    (ha : n + s.interrupts.length ≤ asks)
    (hs : ¬s.Lapses n) : ∃ u, gather asks n s = (.ok (s.ahead n),u) := by
  -- an ask that does not end the read clears an interruption or brings a byte
  induction asks generalizing n s with
  | zero =>
    obtain rfl : n = 0 := by omega
    rw [ahead_zero]
    exact ⟨s,rfl⟩
  | succ asks ih =>
    cases n with
    | zero =>
      rw [ahead_zero]
      exact ⟨s,rfl⟩
    | succ n =>
      have hwaits := s.asked_waits
      cases hi : s.interrupts.headD false with
      | true =>
        have hless := asked_waits_less hi
        rw [gather_interrupted hi]
        exact ih (s := s.asked) hc (by omega) hs
      | false =>
        have hf : s.failsHere = false := by
          refine Bool.eq_false_iff.mpr fun hfails => hs ?_
          obtain ⟨place,hplace,hle⟩ := fails_here hfails
          exact ⟨place,hplace,by omega,.inl hle⟩
        obtain ⟨part,hpos,hle,hbefore,hdel⟩ := deliver_part hc hi hf (Nat.succ_pos n)
        have happend := ahead_append hle (s := s)
          (t := { s.asked with position := s.position + (s.ahead part).length }) rfl rfl
        have hlen := s.ahead_length part
        by_cases hb : s.ahead part = []
        · have hnil : s.ahead (n + 1) = [] := by
            have hwhole := s.ahead_length (n + 1)
            rw [hb, List.length_nil] at hlen
            apply List.eq_nil_of_length_eq_zero
            omega
          rw [gather_succ, hdel, hb, hnil]
          exact ⟨_,rfl⟩
        · have hsome := List.length_pos_iff.mpr hb
          obtain ⟨u,hrest⟩ := ih
            (s := { s.asked with position := s.position + (s.ahead part).length })
            (n := n + 1 - (s.ahead part).length) hc (by simp only; omega) <| by
              rintro ⟨place,hplace,hlt,hreach⟩
              refine hs ⟨place,hplace,?_,?_⟩ <;> simp only [asked] at * <;> omega
          rw [gather_part hdel hb, hrest, happend]
          exact ⟨u,rfl⟩

theorem gather_lapsed (hc : s.chunk ≠ some 0) {asks n place : Nat}
    (ha : n + s.interrupts.length ≤ asks) (hplace : place ∈ s.failAt)
    (hlt : max place s.position < s.position + n)
    (hreach : place ≤ s.position ∨ place ≤ s.data.size) :
    ∃ u, gather asks n s = (.error "injected failure",u) ∧ u.position = max place s.position := by
  induction asks generalizing n s with
  | zero => omega
  | succ asks ih =>
    obtain ⟨n,rfl⟩ : ∃ m, n = m + 1 := ⟨n - 1,by omega⟩
    have hwaits := s.asked_waits
    cases hi : s.interrupts.headD false with
    | true =>
      have hless := asked_waits_less hi
      rw [gather_interrupted hi]
      exact ih (s := s.asked) hc (by omega) hplace hlt hreach
    | false =>
      cases hf : s.failsHere with
      | true =>
        obtain ⟨place',hplace',hle⟩ := fails_here hf
        obtain rfl : place' = place := Option.mem_unique hplace' hplace
        have hcount : s.portion (n + 1) ≠ 0 := Nat.ne_of_gt (portion_pos hc (Nat.succ_pos n))
        refine ⟨s.asked,?_,by simp only [asked]; omega⟩
        simp only [gather_succ, deliver, hi, hf, bne_iff_ne.mpr hcount, Bool.and_self, if_true,
          Bool.false_eq_true, if_false]
      | false =>
        obtain ⟨part,hpos,hle,hbefore,hdel⟩ := deliver_part hc hi hf (Nat.succ_pos n)
        have hmore := hbefore place hplace
        have hlen := s.ahead_length part
        have hsome : s.ahead part ≠ [] := by
          intro hb
          rw [hb, List.length_nil] at hlen
          omega
        obtain ⟨u,hrest,hu⟩ := ih
          (s := { s.asked with position := s.position + (s.ahead part).length })
          (n := n + 1 - (s.ahead part).length) hc (by simp only; omega) hplace
          (by simp only; omega) (by simp only [asked]; omega)
        refine ⟨u,?_,?_⟩
        · rw [gather_part hdel hsome, hrest]
        · rw [hu]
          simp only
          omega

/-- A read that is not cut short by a failure comes to the bytes ahead, if they are enough. -/
theorem read_whole (hc : s.chunk ≠ some 0) {n : Nat} (hs : ¬s.Lapses n) :
    (read n s).1 = (if (s.ahead n).length = n then .ok (s.ahead n)
        else if (s.ahead n).isEmpty then .error .eof
        else .error (.short (s.ahead n).length n)) ∧
      (read n s).2.position = s.position + (s.ahead n).length := by
  obtain ⟨u,hg⟩ := gather_whole hc (Nat.le_refl (n + s.interrupts.length)) hs
  have hp := gather_moves hg
  rw [read_eq, hg]
  dsimp only
  split
  · exact ⟨rfl,hp⟩
  · split <;> exact ⟨rfl,hp⟩

theorem read_failed (hc : s.chunk ≠ some 0) {n place : Nat} (hplace : place ∈ s.failAt)
    (hlt : max place s.position < s.position + n)
    (hreach : place ≤ s.position ∨ place ≤ s.data.size) :
    (read n s).1 = .error (.io "injected failure") ∧
      (read n s).2.position = max place s.position := by
  obtain ⟨u,hg,hu⟩ := gather_lapsed hc (Nat.le_refl (n + s.interrupts.length)) hplace hlt hreach
  rw [read_eq, hg]
  exact ⟨rfl,hu⟩

theorem read_lapsed (hc : s.chunk ≠ some 0) {n : Nat} (hs : s.Lapses n) :
    s.failAt.isSome ∧ ∃ text, (read n s).1 = .error (.io text) := by
  obtain ⟨place,hplace,hlt,hreach⟩ := hs
  exact ⟨Option.isSome_of_mem hplace,_,(read_failed hc hplace hlt hreach).1⟩

structure Delivers (fail : Option Nat) (s t : Source) : Prop where
  memory : t.InMemory
  data : t.data = s.data
  position : t.position = s.position
  chunk : s.chunk ≠ some 0
  length : s.length = s.data.size
  failAt : s.failAt = fail

section
variable {fail : Option Nat}

theorem Delivers.moved (h : Delivers fail s t) (place : Nat) :
    Delivers fail { s with position := place } { t with position := place } :=
  ⟨h.memory.moved place,h.data,rfl,h.chunk,h.length,h.failAt⟩

theorem Delivers.ahead (h : Delivers fail s t) (n : Nat) : t.ahead n = s.ahead n := by
  simp only [Source.ahead, h.data, h.position]

theorem Delivers.read_alike (h : Delivers fail s t) {n : Nat} (hs : ¬s.Lapses n) :
    (read n t).1 = (read n s).1 ∧ Delivers fail (read n s).2 (read n t).2 := by
  obtain ⟨hresult,hposition⟩ := read_whole h.chunk hs
  have hfollows := read_follows n s
  rw [hresult, read_in_memory h.memory, h.ahead]
  exact ⟨rfl,h.memory.moved _,h.data.trans hfollows.data.symm,by rw [hposition, h.position],
    hfollows.chunk ▸ h.chunk,by rw [hfollows.length, hfollows.data, h.length],
    hfollows.failAt.trans h.failAt⟩

theorem Delivers.read (h : Delivers fail s t) (n : Nat) :
    (fail.isSome ∧ ∃ text, (read n s).1 = .error (.io text)) ∨
      ((read n t).1 = (read n s).1 ∧ Delivers fail (read n s).2 (read n t).2) := by
  by_cases hs : s.Lapses n
  · exact .inl (h.failAt ▸ read_lapsed h.chunk hs)
  · exact .inr (h.read_alike hs)

theorem Delivers.before (h : Delivers fail s t) {n : Nat} {bytes : List UInt8} {u : Source}
    (hread : Source.read n s = (.ok bytes,u)) :
    ∀ place ∈ fail, s.position + n ≤ max place s.position := by
  have hs : ¬s.Lapses n := by
    intro hlapsed
    obtain ⟨-,text,herror⟩ := read_lapsed h.chunk hlapsed
    rw [hread] at herror
    cases herror
  have hlen : (s.ahead n).length = n := by
    have hresult := (read_whole h.chunk hs).1
    rw [hread] at hresult
    split at hresult
    · next hlen => exact hlen
    · split at hresult <;> cases hresult
  rw [ahead_length] at hlen
  intro place hplace
  exact Nat.le_of_not_lt fun hlt => hs ⟨place,h.failAt ▸ hplace,hlt,by omega⟩

end

def calmed (s : Source) : Source := { s with interrupts := [] }

theorem deliver_calmed (hi : s.interrupts.headD false = false) (n : Nat) :
    (∃ text, deliver n s = (.failed text,s.asked) ∧
      deliver n s.calmed = (.failed text,s.calmed)) ∨
    ∃ bytes, deliver n s = (.bytes bytes,{ s.asked with position := s.position + bytes.length }) ∧
      deliver n s.calmed =
        (.bytes bytes,{ s.calmed with position := s.position + bytes.length }) := by
  cases hf : s.failsHere && s.portion n != 0 with
  | true =>
    refine .inl ⟨"injected failure",?_,?_⟩
    · simp only [deliver, hi, hf, if_true, Bool.false_eq_true, if_false]
    · exact if_pos hf
  | false =>
    refine .inr ⟨s.ahead (s.portion n),?_,?_⟩
    · simp only [deliver, hi, hf, Bool.false_eq_true, if_false]
    · exact if_neg (Bool.eq_false_iff.mp hf)

theorem gather_calmed {asks m n : Nat} (ha : n + s.interrupts.length ≤ asks) (hm : n ≤ m) :
    gather m n s.calmed = ((gather asks n s).1,(gather asks n s).2.calmed) := by
  have hnothing : ∀ asks m (s : Source),
      gather m 0 s.calmed = ((gather asks 0 s).1,(gather asks 0 s).2.calmed) := by
    intro asks m s
    cases asks <;> cases m <;> rfl
  induction asks generalizing m n s with
  | zero =>
    obtain rfl : n = 0 := by omega
    exact hnothing 0 m s
  | succ asks ih =>
    cases n with
    | zero => exact hnothing _ m s
    | succ n =>
      obtain ⟨k,rfl⟩ : ∃ k, m = k + 1 := ⟨m - 1,by omega⟩
      have hwaits := s.asked_waits
      cases hi : s.interrupts.headD false with
      | true =>
        have hless := asked_waits_less hi
        rw [gather_interrupted hi]
        exact ih (s := s.asked) (by omega) hm
      | false =>
        rcases deliver_calmed hi (n + 1) with ⟨text,hs,ht⟩ | ⟨bytes,hs,ht⟩
        · rw [gather_succ, gather_succ, hs, ht]
          rfl
        · by_cases hb : bytes = []
          · rw [gather_succ, gather_succ, hs, ht, hb]
            rfl
          · have hsome := List.length_pos_iff.mpr hb
            have hrest : gather k (n + 1 - bytes.length)
                { s.calmed with position := s.position + bytes.length } = _ :=
              ih (s := { s.asked with position := s.position + bytes.length })
                (n := n + 1 - bytes.length) (by simp only; omega) (by omega)
            rw [gather_part hs hb, gather_part ht hb, hrest]
            rcases gather asks (n + 1 - bytes.length)
              { s.asked with position := s.position + bytes.length } with ⟨_ | found,u⟩ <;> rfl

/-- The interruptions to come change nothing of what a read comes to. -/
theorem read_calmed (n : Nat) (s : Source) :
    read n s.calmed = ((read n s).1,(read n s).2.calmed) := by
  rw [read_eq n s, read_eq, gather_calmed (Nat.le_refl (n + s.interrupts.length))
    (Nat.le_add_right n _)]
  rcases gather (n + s.interrupts.length) n s with ⟨_ | bytes,u⟩
  · rfl
  · dsimp only
    split
    · rfl
    · split <;> rfl

theorem read_alike_calmed (h : t.calmed = s.calmed) (n : Nat) :
    (read n t).1 = (read n s).1 ∧ (read n t).2.calmed = (read n s).2.calmed := by
  have hboth := (read_calmed n t).symm.trans ((congrArg (read n) h).trans (read_calmed n s))
  exact Prod.mk.inj hboth

theorem position_calmed (h : t.calmed = s.calmed) : t.position = s.position := by
  show t.calmed.position = s.calmed.position
  rw [h]

theorem length_calmed (h : t.calmed = s.calmed) : t.length = s.length := by
  show t.calmed.length = s.calmed.length
  rw [h]

theorem moved_calmed (h : t.calmed = s.calmed) (place : Nat) :
    calmed { t with position := place } = calmed { s with position := place } :=
  congrArg (fun u : Source => { u with position := place }) h

theorem Still.calmed (h : Still s t) : t.calmed = s.calmed := by
  rw [Source.calmed, Source.calmed, h.data, h.position, h.chunk, h.claim, h.failAt]

end Source

def Value.Before (fail : Option Nat) (v : Value) : Prop :=
  ∀ place ∈ fail, v.finish ≤ max place v.offset

open Source

theorem Value.Before.blurred {fail : Option Nat} {v : Value} (hv : v.Before fail) :
    v.Blurred (Delivers fail) := by
  intro s t h
  have hs : ¬Lapses { s with position := v.offset } v.length := by
    rintro ⟨place,hplace,hlt,-⟩
    have hfinish := hv place (h.failAt ▸ hplace)
    simp only [Value.finish] at *
    omega
  obtain ⟨hresult,hsource⟩ := (h.moved v.offset).read_alike hs
  rw [readAt_eq, readAt_eq, h.position]
  exact ⟨hresult,hsource.moved _⟩

end ByteGrammar
