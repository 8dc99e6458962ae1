import ByteGrammar.Proofs.Action
import ByteGrammar.Source.Delivery

/-!
# What reads do to a source

A read moves the cursor and uses up interruptions; the data and the habits of the reader stay.
A read that succeeds has moved by exactly the bytes it returns, and a read at a place does not
move at all. Over bytes in memory the outcome of a read is a part of the data.
-/

set_option autoImplicit false

namespace ByteGrammar.Source

open Stepwise

structure Follows (s t : Source) : Prop where
  data : t.data = s.data
  chunk : t.chunk = s.chunk
  claim : t.claim = s.claim
  failAt : t.failAt = s.failAt
  interrupts : t.interrupts <:+ s.interrupts

structure Still (s t : Source) : Prop extends Follows s t where
  position : t.position = s.position

/-- A source over bytes in memory, wherever its cursor is. -/
structure InMemory (s : Source) : Prop where
  chunk : s.chunk = none
  claim : s.claim = none
  failAt : s.failAt = none
  interrupts : s.interrupts = []

variable {s t u : Source}

theorem Follows.refl (s : Source) : Follows s s := ⟨rfl,rfl,rfl,rfl,List.suffix_refl _⟩

theorem Follows.trans (h : Follows s t) (k : Follows t u) : Follows s u :=
  ⟨k.data.trans h.data,k.chunk.trans h.chunk,k.claim.trans h.claim,
    k.failAt.trans h.failAt,k.interrupts.trans h.interrupts⟩

theorem Follows.moved (h : Follows s t) (place : Nat) :
    Follows s { t with position := place } :=
  ⟨h.data,h.chunk,h.claim,h.failAt,h.interrupts⟩

theorem Follows.length (h : Follows s t) : t.length = s.length := by
  simp [Source.length, h.data, h.claim]

theorem Follows.in_memory (h : Follows s t) (hs : s.InMemory) : t.InMemory :=
  ⟨h.chunk.trans hs.chunk,h.claim.trans hs.claim,h.failAt.trans hs.failAt,
    List.suffix_nil.mp (hs.interrupts ▸ h.interrupts)⟩

theorem Follows.eq_moved (h : Follows s t) (hs : s.InMemory) :
    t = { s with position := t.position } := by
  have hi : t.interrupts = s.interrupts := (h.in_memory hs).interrupts.trans hs.interrupts.symm
  obtain ⟨hd,hc,hl,hf,_⟩ := h
  cases s
  cases t
  simp_all

theorem Still.refl (s : Source) : Still s s := ⟨Follows.refl s,rfl⟩

theorem Still.trans (h : Still s t) (k : Still t u) : Still s u :=
  ⟨h.toFollows.trans k.toFollows,k.position.trans h.position⟩

instance : Lasting Follows := ⟨Follows.refl,Follows.trans⟩

instance : Lasting Still := ⟨Still.refl,Still.trans⟩

theorem Still.eq (h : Still s t) (hs : s.InMemory) : t = s := by
  rw [h.toFollows.eq_moved hs, h.position]

theorem of_bytes_in_memory (data : Array UInt8) : (ofBytes data).InMemory := ⟨rfl,rfl,rfl,rfl⟩

theorem InMemory.moved (h : s.InMemory) (place : Nat) :
    InMemory { s with position := place } := ⟨h.chunk,h.claim,h.failAt,h.interrupts⟩

theorem InMemory.length (h : s.InMemory) : s.length = s.data.size := by
  simp [Source.length, h.claim]

theorem asked_follows (s : Source) : Follows s s.asked :=
  ⟨rfl,rfl,rfl,rfl,List.tail_suffix s.interrupts⟩

theorem deliver_follows (wanted : Nat) (s : Source) : Follows s (deliver wanted s).2 := by
  unfold deliver
  split
  · exact asked_follows s
  · dsimp only
    split
    · exact asked_follows s
    · exact (asked_follows s).moved _

theorem deliver_moves {wanted : Nat} {bytes : List UInt8}
    (h : deliver wanted s = (.bytes bytes,t)) : t.position = s.position + bytes.length := by
  unfold deliver at h
  split at h
  · cases h
  · dsimp only at h
    split at h
    · cases h
    · cases h
      rfl

theorem deliver_interrupted {wanted : Nat} (h : deliver wanted s = (.interrupted,t)) :
    t.position = s.position := by
  unfold deliver at h
  split at h
  · cases h
    rfl
  · dsimp only at h
    split at h <;> cases h

theorem gather_succ (asks wanted : Nat) (s : Source) :
    gather (asks + 1) (wanted + 1) s =
      match deliver (wanted + 1) s with
      | (.interrupted,t) => gather asks (wanted + 1) t
      | (.failed text,t) => (.error text,t)
      | (.bytes [],t) => (.ok [],t)
      | (.bytes (b :: bytes),t) =>
        match gather asks (wanted + 1 - (b :: bytes).length) t with
        | (.ok more,u) => (.ok (b :: bytes ++ more),u)
        | (.error text,u) => (.error text,u) := by
  rw [gather]
  · simp only [bind, StateT.bind]
    rcases deliver (wanted + 1) s with ⟨bytes | _ | _, t⟩
    · cases bytes with
      | nil => rfl
      | cons b bytes =>
        dsimp only
        rcases hg : gather asks (wanted + 1 - (b :: bytes).length) t with ⟨_ | _, u⟩ <;>
          simp only [StateT.bind, hg] <;> rfl
    · rfl
    · rfl
  · exact Nat.succ_ne_zero wanted

theorem gather_follows (asks wanted : Nat) (s : Source) :
    Follows s (gather asks wanted s).2 := by
  induction asks generalizing wanted s with
  | zero => cases wanted <;> exact Follows.refl s
  | succ asks ih =>
    cases wanted with
    | zero => exact Follows.refl s
    | succ wanted =>
      rw [gather_succ]
      have hd := deliver_follows (wanted + 1) s
      rcases hdel : deliver (wanted + 1) s with ⟨delivery, t⟩
      rw [hdel] at hd
      cases delivery with
      | interrupted => exact hd.trans (ih _ t)
      | failed text => exact hd
      | bytes bytes =>
        cases bytes with
        | nil => exact hd
        | cons b bytes =>
          have hg := ih (wanted + 1 - (b :: bytes).length) t
          dsimp only
          rcases hgat : gather asks (wanted + 1 - (b :: bytes).length) t with ⟨_ | _, u⟩ <;>
            rw [hgat] at hg <;> exact hd.trans hg

theorem gather_moves {asks wanted : Nat} {bytes : List UInt8}
    (h : gather asks wanted s = (.ok bytes,t)) : t.position = s.position + bytes.length := by
  induction asks generalizing wanted s bytes with
  | zero => cases wanted <;> cases h <;> rfl
  | succ asks ih =>
    cases wanted with
    | zero =>
      cases h
      rfl
    | succ wanted =>
      rw [gather_succ] at h
      rcases hdel : deliver (wanted + 1) s with ⟨delivery, v⟩
      rw [hdel] at h
      cases delivery with
      | interrupted => rw [ih h, deliver_interrupted hdel]
      | failed text => cases h
      | bytes first =>
        have hm := deliver_moves hdel
        cases first with
        | nil =>
          cases h
          exact hm
        | cons b first =>
          dsimp only at h
          rcases hgat : gather asks (wanted + 1 - (b :: first).length) v with ⟨_ | more, u⟩
          · rw [hgat] at h
            cases h
          · rw [hgat] at h
            cases h
            rw [ih hgat, hm]
            simp only [List.length_append, List.length_cons]
            omega

theorem read_eq (wanted : Nat) (s : Source) :
    read wanted s =
      match gather (wanted + s.interrupts.length) wanted s with
      | (.error text,t) => (.error (.io text),t)
      | (.ok bytes,t) =>
        if bytes.length = wanted then (.ok bytes,t)
        else if bytes.isEmpty then (.error .eof,t)
        else (.error (.short bytes.length wanted),t) := by
  unfold read
  simp only [bind_run, get_run, lift_run]
  rcases gather (wanted + s.interrupts.length) wanted s with ⟨_ | bytes, t⟩
  · rfl
  · dsimp only
    split
    · rfl
    · split <;> rfl

theorem read_follows (wanted : Nat) (s : Source) : Follows s (read wanted s).2 := by
  have hg := gather_follows (wanted + s.interrupts.length) wanted s
  rw [read_eq]
  rcases hr : gather (wanted + s.interrupts.length) wanted s with ⟨_ | bytes, t⟩ <;> rw [hr] at hg
  · exact hg
  · dsimp only
    split
    · exact hg
    · split <;> exact hg

theorem read_moves {wanted : Nat} {bytes : List UInt8} (h : read wanted s = (.ok bytes,t)) :
    bytes.length = wanted ∧ t.position = s.position + wanted := by
  rw [read_eq] at h
  rcases hr : gather (wanted + s.interrupts.length) wanted s with ⟨_ | found, u⟩
  · rw [hr] at h
    cases h
  · rw [hr] at h
    dsimp only at h
    split at h
    · next hlen =>
      cases h
      exact ⟨hlen,by rw [gather_moves hr, hlen]⟩
    · split at h <;> cases h

theorem readAt_eq (wanted place : Nat) (s : Source) :
    readAt wanted place s =
      ((read wanted { s with position := place }).1,
        { (read wanted { s with position := place }).2 with position := s.position }) := by
  unfold readAt
  simp only [bind_run, get_run, seekTo, modify_run, catch_run, map_run]
  rcases read wanted { s with position := place } with ⟨_ | bytes, t⟩ <;> rfl

theorem readAt_still (wanted place : Nat) (s : Source) : Still s (readAt wanted place s).2 := by
  rw [readAt_eq]
  exact ⟨(((Follows.refl s).moved place).trans (read_follows wanted _)).moved _,rfl⟩

theorem ahead_length (s : Source) (n : Nat) :
    (s.ahead n).length = min n (s.data.size - s.position) := by
  simp only [ahead, Array.length_toList, Array.size_extract]
  omega

theorem ahead_zero (s : Source) : s.ahead 0 = [] := by
  apply List.eq_nil_of_length_eq_zero
  rw [ahead_length]
  omega

theorem deliver_in_memory (hs : s.InMemory) (n : Nat) :
    deliver n s =
      (.bytes (s.ahead n),{ s with position := s.position + (s.ahead n).length }) := by
  simp [deliver, asked, hs.interrupts, portion, hs.chunk, hs.failAt, failsHere]

theorem gather_in_memory (hs : s.InMemory) {asks n : Nat} (ha : n ≤ asks) :
    gather asks n s =
      (.ok (s.ahead n),{ s with position := s.position + (s.ahead n).length }) := by
  induction asks generalizing n s with
  | zero =>
    obtain rfl : n = 0 := Nat.le_zero.mp ha
    rw [ahead_zero]
    rfl
  | succ asks ih =>
    cases n with
    | zero =>
      rw [ahead_zero]
      rfl
    | succ n =>
      rw [gather_succ, deliver_in_memory hs]
      have hlen := ahead_length s (n + 1)
      cases hb : s.ahead (n + 1) with
      | nil => rfl
      | cons b bytes =>
        rw [hb] at hlen
        have hrest := ih (hs.moved (s.position + (b :: bytes).length))
          (n := n + 1 - (b :: bytes).length) (by simp only [List.length_cons] at *; omega)
        -- The first delivery was all there is, so that nothing more comes.
        have hnil : Source.ahead { s with position := s.position + (b :: bytes).length }
            (n + 1 - (b :: bytes).length) = [] := by
          apply List.eq_nil_of_length_eq_zero
          rw [ahead_length]
          simp only at *
          omega
        rw [hnil] at hrest
        simp only [hrest, List.append_nil, List.length_nil, Nat.add_zero]

/-- In memory, a read returns the bytes ahead if they are enough. -/
theorem read_in_memory (hs : s.InMemory) (n : Nat) :
    read n s =
      (if (s.ahead n).length = n then .ok (s.ahead n)
        else if (s.ahead n).isEmpty then .error .eof
        else .error (.short (s.ahead n).length n),
        { s with position := s.position + (s.ahead n).length }) := by
  rw [read_eq, gather_in_memory hs (Nat.le_add_right _ _)]
  dsimp only
  split
  · rfl
  · split <;> rfl

theorem readAt_in_memory (hs : s.InMemory) {n place : Nat} {bytes : List UInt8}
    (h : (readAt n place s).1 = .ok bytes) :
    bytes = (s.data.extract place (place + n)).toList := by
  rw [readAt_eq, read_in_memory (hs.moved place)] at h
  dsimp only at h
  split at h
  · cases h
    rfl
  · split at h <;> cases h

end ByteGrammar.Source
