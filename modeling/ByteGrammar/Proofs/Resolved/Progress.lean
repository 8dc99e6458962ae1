import Mathlib.Data.Finset.Card
import ByteGrammar.Resolved.Base

/-!
# Tables of results

A search that remembers its results marks an element before it turns to what the result depends
on, and again when the result is known. Each mark leaves fewer elements that are still pending,
which bounds how deep a search can go.
-/

set_option autoImplicit false

namespace ByteGrammar

variable {α : Type}

def Progress.isPending : Progress α → Bool
  | .pending => true
  | _ => false

def pendings (known : Array (Progress α)) : Finset Nat :=
  (Finset.range known.size).filter fun i => known[i]?.any Progress.isPending

theorem mem_pendings {known : Array (Progress α)} {i : Nat} :
    i ∈ pendings known ↔ known[i]? = some .pending := by
  rw [pendings, Finset.mem_filter, Finset.mem_range]
  constructor
  · rintro ⟨-,h⟩
    cases hk : known[i]? with
    | none =>
      rw [hk] at h
      cases h
    | some progress =>
      rw [hk] at h
      cases progress with
      | pending => rfl
      | _ => cases h
  · intro h
    exact ⟨(Array.getElem?_eq_some_iff.mp h).1,by rw [h]; rfl⟩

theorem pendings_card_le (known : Array (Progress α)) : (pendings known).card ≤ known.size := by
  have h := Finset.card_filter_le (Finset.range known.size)
    fun i => known[i]?.any Progress.isPending
  rwa [Finset.card_range] at h

theorem start_pending {n i : Nat} {progress : Progress α}
    (h : (Array.replicate n (.pending : Progress α))[i]? = some progress) :
    progress = .pending := by
  rw [Array.getElem?_replicate] at h
  split at h
  · exact (Option.some.inj h).symm
  · cases h

structure Progressed (known known' : Array (Progress α)) : Prop where
  size : known'.size = known.size
  underway : ∀ i : Nat, known'[i]? = some .underway ↔ known[i]? = some .underway
  pending : pendings known' ⊆ pendings known
  done : ∀ (i : Nat) result, known[i]? = some (.done result) → known'[i]? = some (.done result)

theorem Progressed.refl (known : Array (Progress α)) : Progressed known known :=
  ⟨rfl,fun _ => Iff.rfl,Finset.Subset.refl _,fun _ _ h => h⟩

theorem Progressed.trans {known known' known'' : Array (Progress α)}
    (h : Progressed known known') (k : Progressed known' known'') : Progressed known known'' :=
  ⟨k.size.trans h.size,fun i => (k.underway i).trans (h.underway i),k.pending.trans h.pending,
    fun i result hi => k.done i result (h.done i result hi)⟩

theorem Progressed.card_lt {known known' : Array (Progress α)} (h : Progressed known known')
    {depth : Nat} (hd : (pendings known).card < depth) : (pendings known').card < depth :=
  Nat.lt_of_le_of_lt (Finset.card_le_card h.pending) hd

section
variable {known known' : Array (Progress α)} {id : Nat}

theorem marked_get (h : id < known.size) (progress : Progress α) (i : Nat) :
    (known.setIfInBounds id progress)[i]? = if id = i then some progress else known[i]? := by
  rw [Array.getElem?_setIfInBounds]
  by_cases hi : id = i
  · subst hi
    simp [h]
  · simp [hi]

theorem pending_lt (h : known[id]? = some .pending) : id < known.size :=
  (Array.getElem?_eq_some_iff.mp h).1

/-- Fewer elements are pending once a search has turned to one. -/
theorem underway_card (h : known[id]? = some .pending) :
    (pendings (known.setIfInBounds id .underway)).card < (pendings known).card := by
  refine Finset.card_lt_card ⟨?_,fun hsub => ?_⟩
  · intro i hi
    rw [mem_pendings, marked_get (pending_lt h)] at hi
    split at hi
    · cases hi
    · exact mem_pendings.mpr hi
  · have hid := mem_pendings.mp (hsub (mem_pendings.mpr h))
    rw [marked_get (pending_lt h), if_pos rfl] at hid
    cases hid

theorem underway_iff (h : known[id]? = some .pending) (i : Nat) :
    (known.setIfInBounds id .underway)[i]? = some .underway ↔
      i = id ∨ known[i]? = some .underway := by
  rw [marked_get (pending_lt h)]
  by_cases hi : id = i
  · simp [hi]
  · simp [hi, Ne.symm hi]

theorem underway_done (h : known[id]? = some .pending) {i : Nat} {result : α} :
    (known.setIfInBounds id .underway)[i]? = some (.done result) ↔
      known[i]? = some (.done result) := by
  rw [marked_get (pending_lt h)]
  by_cases hi : id = i
  · subst hi
    simp [h]
  · simp [hi]

theorem done_iff (h : known[id]? = some .pending)
    (hp : Progressed (known.setIfInBounds id .underway) known') (found : α) (i : Nat)
    (result : α) :
    (known'.setIfInBounds id (.done found))[i]? = some (.done result) ↔
      id = i ∧ found = result ∨ known'[i]? = some (.done result) := by
  have hsize : id < known'.size := by
    rw [hp.size, Array.size_setIfInBounds]
    exact pending_lt h
  have hid : known'[id]? = some .underway :=
    (hp.underway id).mpr ((underway_iff h id).mpr (.inl rfl))
  rw [marked_get hsize]
  by_cases hi : id = i
  · subst hi
    simp [hid]
  · simp [hi]

/-- A search that has marked an element and its result has only come further, and does not leave
the element pending. -/
theorem Progressed.finished (h : known[id]? = some .pending)
    (hp : Progressed (known.setIfInBounds id .underway) known') (found : α) :
    Progressed known (known'.setIfInBounds id (.done found)) ∧
      id ∉ pendings (known'.setIfInBounds id (.done found)) := by
  have hsize : id < known'.size := by
    rw [hp.size, Array.size_setIfInBounds]
    exact pending_lt h
  refine ⟨⟨?_,fun i => ?_,fun i hi => ?_,fun i result hi => ?_⟩,fun hi => ?_⟩
  · rw [Array.size_setIfInBounds, hp.size, Array.size_setIfInBounds]
  · rw [marked_get hsize]
    by_cases hi : id = i
    · subst hi
      simp [h]
    · rw [if_neg hi, hp.underway, underway_iff h]
      simp [Ne.symm hi]
  · rw [mem_pendings, marked_get hsize] at hi
    split at hi
    · cases hi
    · next hne =>
      have hbefore := mem_pendings.mp (hp.pending (mem_pendings.mpr hi))
      rw [marked_get (pending_lt h), if_neg hne] at hbefore
      exact mem_pendings.mpr hbefore
  · rw [marked_get hsize, if_neg]
    · exact hp.done i result ((underway_done h).mpr hi)
    · rintro rfl
      cases h.symm.trans hi
  · rw [mem_pendings, marked_get hsize, if_pos rfl] at hi
    cases hi

end

theorem done_of_finished {known : Array (Progress α)} {i : Nat} (hi : i < known.size)
    (hpending : i ∉ pendings known) (hunderway : known[i]? ≠ some .underway) :
    ∃ result, known[i]? = some (.done result) := by
  obtain ⟨progress,hk⟩ : ∃ progress, known[i]? = some progress :=
    ⟨_,Array.getElem?_eq_getElem hi⟩
  cases progress with
  | pending => exact absurd (mem_pendings.mpr hk) hpending
  | underway => exact absurd hk hunderway
  | done result => exact ⟨result,hk⟩

end ByteGrammar
