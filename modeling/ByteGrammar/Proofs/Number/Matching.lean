import Mathlib.Data.Nat.Digits.Lemmas
import ByteGrammar.Number.Display

/-!
# Matching a field with a fixed value

A field of one to eight bytes has an unsigned value and one in two's complement. The literals that
match it are these two, and each of them is shown as the field itself is.
-/

set_option autoImplicit false

namespace ByteGrammar

def ByteOrder.lowToHigh : ByteOrder → List UInt8 → List UInt8
  | .little, bytes => bytes
  | .big, bytes => bytes.reverse

def ByteOrder.unsigned (order : ByteOrder) (bytes : List UInt8) : Nat :=
  Nat.ofDigits 256 ((order.lowToHigh bytes).map UInt8.toNat)

def complement (width u : Nat) : Int :=
  if u < 2 ^ (8 * width - 1) then u else u - 2 ^ (8 * width)

theorem word_count_eq (bits : Nat) : wordCount bits = 2 ^ bits := rfl

theorem complement_low {width u : Nat} (h : u < wordCount (8 * width - 1)) :
    complement width u = u := if_pos h

theorem complement_high {width u : Nat} (h : wordCount (8 * width - 1) ≤ u) :
    complement width u = u - wordCount (8 * width) := by
  have hhigh : ¬u < 2 ^ (8 * width - 1) := Nat.not_lt.mpr h
  rw [complement, if_neg hhigh, word_count_eq]
  push_cast
  rfl

theorem low_first_eq (bytes : List UInt8) :
    lowFirst bytes = Nat.ofDigits 256 (bytes.map UInt8.toNat) := by
  induction bytes with
  | nil => rfl
  | cons b rest ih => rw [lowFirst, ih, List.map_cons, Nat.ofDigits_cons]

theorem value_of_eq (order : ByteOrder) (bytes : List UInt8) :
    order.valueOf bytes = order.unsigned bytes := by
  cases order <;> exact low_first_eq _

theorem unsigned_lt (order : ByteOrder) (bytes : List UInt8) :
    order.unsigned bytes < wordCount (8 * bytes.length) := by
  have hdigits : ∀ d ∈ (order.lowToHigh bytes).map UInt8.toNat, d < 256 := by
    intro d hd
    obtain ⟨b,-,rfl⟩ := List.mem_map.mp hd
    exact b.toNat_lt
  have hlength : ((order.lowToHigh bytes).map UInt8.toNat).length = bytes.length := by
    cases order <;> simp [ByteOrder.lowToHigh]
  have hlt := Nat.ofDigits_lt_base_pow_length (by decide) hdigits
  rw [hlength, show 256 = 2 ^ 8 from rfl, ← pow_mul] at hlt
  exact hlt

theorem low_bytes_length (count n : Nat) : (lowBytes count n).length = count := by
  induction count generalizing n with
  | zero => rfl
  | succ count ih => simp [lowBytes, ih]

theorem low_first_low_bytes (count n : Nat) :
    lowFirst (lowBytes count n) = n % wordCount (8 * count) := by
  induction count generalizing n with
  | zero => simp [lowBytes, lowFirst, word_count_eq, Nat.mod_one]
  | succ count ih =>
    have hbyte : n % 256 % 2 ^ 8 = n % 256 := Nat.mod_mod n 256
    rw [lowBytes, lowFirst, ih, UInt8.toNat_ofNat', hbyte]
    rw [word_count_eq, word_count_eq, Nat.mul_succ, pow_add, Nat.mul_comm (2 ^ (8 * count))]
    exact (Nat.mod_mul).symm

theorem word_count_half {width : Nat} (hw : 0 < width) :
    wordCount (8 * width) = 2 * wordCount (8 * width - 1) := by
  rw [← word_count_succ, Nat.sub_add_cancel (by omega)]

/-- Reduced to a word, the unsigned value counts in two's complement if the word is signed. -/
theorem wrap_unsigned {signed : Bool} {width u : Nat} (hw : 0 < width)
    (hu : u < wordCount (8 * width)) :
    wrap signed (8 * width) u = if signed then complement width u else u := by
  have hhalf := word_count_half hw
  have hmod : (u : Int) % wordCount (8 * width) = u := Int.emod_eq_of_lt (by omega) (by omega)
  cases signed with
  | false => exact hmod
  | true =>
    simp only [wrap, if_true, Int.bmod, hmod]
    by_cases h : u < wordCount (8 * width - 1)
    · rw [if_pos (by omega), complement_low h]
    · rw [if_neg (by omega), complement_high (by omega)]

theorem complement_emod {width u : Nat} (hu : u < wordCount (8 * width)) :
    complement width u % (wordCount (8 * width) : Int) = u := by
  have hmod : (u : Int) % wordCount (8 * width) = u := Int.emod_eq_of_lt (by omega) (by omega)
  by_cases h : u < wordCount (8 * width - 1)
  · rw [complement_low h, hmod]
  · rw [complement_high (by omega), Int.sub_emod_right, hmod]

/-- The literals in range with the remainder `u` are the two values. -/
theorem emod_eq_iff {width u : Nat} (hw : 0 < width) (hu : u < wordCount (8 * width)) {n : Int}
    (hlow : -(wordCount (8 * width - 1) : Int) ≤ n) (hhigh : n < wordCount (8 * width)) :
    n % (wordCount (8 * width) : Int) = u ↔ n = u ∨ n = complement width u := by
  constructor
  · intro h
    have hhalf := word_count_half hw
    by_cases hn : 0 ≤ n
    · rw [Int.emod_eq_of_lt hn hhigh] at h
      exact .inl h
    · rw [Int.emod_eq_add_self_emod, Int.emod_eq_of_lt (by omega) (by omega)] at h
      rw [complement_high (by omega)]
      omega
  · rintro (rfl | rfl)
    · exact Int.emod_eq_of_lt (by omega) hhigh
    · exact complement_emod hu

theorem holding_some {width : Nat} (hw : 0 < width) (hle : width ≤ 8) :
    ∃ size, Size.holding? width = some size ∧ 8 * width ≤ size.bits := by
  interval_cases width <;> exact ⟨_,rfl,by decide⟩

/-- `i` is the integer of a field of `width` bytes whose unsigned value is `u`. -/
structure FieldInt (signed : Bool) (width u : Nat) (i : MachineInt) : Prop where
  positive : 0 < width
  short : width ≤ 8
  small : u < wordCount (8 * width)
  signed_eq : i.signed = signed
  value_eq : i.value = if signed then complement width u else u

theorem of_bytes_field (order : ByteOrder) (signed : Bool) {bytes : List UInt8}
    (hpos : 0 < bytes.length) (hle : bytes.length ≤ 8) :
    ∃ i, MachineInt.ofBytes? order signed bytes = some i ∧
      FieldInt signed bytes.length (order.unsigned bytes) i := by
  obtain ⟨size,hsize,hbits⟩ := holding_some hpos hle
  have hsmall := unsigned_lt order bytes
  let word := wrap signed (8 * bytes.length) (order.valueOf bytes)
  have hfits : Fits signed size.bits word := (fits_wrap signed (by omega) _).wider hbits
  refine ⟨.ofInt size signed word,?_,hpos,hle,hsmall,rfl,?_⟩
  · rw [MachineInt.ofBytes?, hsize]
    rfl
  · show wrap signed size.bits word = _
    rw [wrap_of_fits size.bits_pos hfits, ← wrap_unsigned hpos hsmall, ← value_of_eq]

theorem MachineInt.value_selected (i : MachineInt) :
    (if i.signed then i.toSigned else (i.toUnsigned : Int)) = i.value := by
  have hfits := i.fits.wider i.size.bits_le
  cases hs : i.signed with
  | true =>
    rw [hs] at hfits
    exact wrap_of_fits (by decide) hfits
  | false =>
    rw [hs] at hfits
    have hself := wrap_of_fits (by decide) hfits
    simp only [MachineInt.toUnsigned, hself, Bool.false_eq_true, if_false]
    exact Int.toNat_of_nonneg hfits.1

namespace FieldInt

variable {signed : Bool} {width u : Nat} {i : MachineInt}

theorem width_eq (h : FieldInt signed width u i) : fieldWidth width = width := by
  have hpositive := h.positive
  have hshort := h.short
  unfold fieldWidth
  omega

theorem value_emod (h : FieldInt signed width u i) :
    i.value % (wordCount (8 * width) : Int) = u := by
  rw [h.value_eq]
  cases signed with
  | true => exact complement_emod h.small
  | false => exact Int.emod_eq_of_lt (by simp) (by simpa using h.small)

theorem pattern_eq (h : FieldInt signed width u i) : i.pattern width = u := by
  have hdvd : (wordCount (8 * width) : Int) ∣ wordCount 64 := by
    have hle : 8 * width ≤ 64 := Nat.mul_le_mul_left 8 h.short
    exact_mod_cast Nat.pow_dvd_pow 2 hle
  have hwide : ((i.toUnsigned : Nat) : Int) = i.value % wordCount 64 :=
    Int.toNat_of_nonneg (Int.emod_nonneg _ (by decide))
  have hmod : ((i.toUnsigned % wordCount (8 * width) : Nat) : Int) = u := by
    rw [Int.natCast_emod, hwide, Int.emod_emod_of_dvd _ hdvd, h.value_emod]
  rw [MachineInt.pattern, patternCount, Nat.min_eq_left h.short]
  exact_mod_cast hmod

theorem literal_pattern_iff (h : FieldInt signed width u i) {literal : Int} :
    literalPattern? literal width = some u ↔ literal = u ∨ literal = complement width u := by
  have hhalf := word_count_half h.positive
  have hsmall := h.small
  simp only [literalPattern?, h.width_eq, patternCount, Nat.min_eq_left h.short]
  by_cases hrange : -(wordCount (8 * width - 1) : Int) ≤ literal ∧ literal < wordCount (8 * width)
  · have hnonneg : 0 ≤ literal % (wordCount (8 * width) : Int) := Int.emod_nonneg _ (by omega)
    rw [if_pos hrange, Option.some.injEq, ← emod_eq_iff h.positive h.small hrange.1 hrange.2]
    omega
  · rw [if_neg hrange]
    refine ⟨nofun,fun hvalue => absurd ?_ hrange⟩
    rcases hvalue with rfl | rfl
    · omega
    · by_cases hlow : u < wordCount (8 * width - 1)
      · rw [complement_low hlow]
        omega
      · rw [complement_high (by omega)]
        omega

theorem is_match_iff (h : FieldInt signed width u i) {literal : Int} :
    i.isMatch literal width ↔ literal = u ∨ literal = complement width u := by
  rw [← h.literal_pattern_iff, MachineInt.isMatch, h.pattern_eq, beq_iff_eq]

theorem display_eq {i' : MachineInt} (h : FieldInt signed width u i)
    (h' : FieldInt signed width u i') (radix : Radix) :
    i.display radix width = i'.display radix width := by
  cases radix <;>
    simp only [MachineInt.display, h.width_eq, h.pattern_eq, h'.pattern_eq, h.value_eq, h'.value_eq]

theorem display_literal_eq (h : FieldInt signed width u i) {literal : Int}
    (hmatch : i.isMatch literal width) (radix : Radix) :
    displayLiteral literal radix width signed = i.display radix width := by
  -- a literal is shown through the bytes of its pattern, the lowest first
  have hpattern := h.literal_pattern_iff.mpr (h.is_match_iff.mp hmatch)
  have hlength := low_bytes_length width u
  have hpos : 0 < (lowBytes width u).length := Nat.lt_of_lt_of_eq h.positive hlength.symm
  obtain ⟨i',hi',hfield⟩ := of_bytes_field .little signed hpos (Nat.le_trans hlength.le h.short)
  have hvalue : ByteOrder.unsigned .little (lowBytes width u) = u := by
    rw [← value_of_eq, ByteOrder.valueOf, low_first_low_bytes, Nat.mod_eq_of_lt h.small]
  rw [hlength, hvalue] at hfield
  simp only [displayLiteral, hpattern, h.width_eq, Option.bind_some, hi']
  exact hfield.display_eq h radix

end FieldInt

/-- The literals that match a field are its unsigned value and the one in two's complement, and
both are shown as the field is. The value of the field is the one that its sign selects. -/
theorem field_matched (order : ByteOrder) (signed : Bool) (bytes : List UInt8)
    (hpos : 1 ≤ bytes.length) (hle : bytes.length ≤ 8) :
    ∃ i, MachineInt.ofBytes? order signed bytes = some i ∧
      (∀ literal : Int,
        (i.isMatch literal bytes.length ↔ literal = order.unsigned bytes ∨
          literal = complement bytes.length (order.unsigned bytes)) ∧
        (i.isMatch literal bytes.length → ∀ radix : Radix,
          displayLiteral literal radix bytes.length signed = i.display radix bytes.length)) ∧
      i.value = (if signed then complement bytes.length (order.unsigned bytes)
        else order.unsigned bytes) ∧
      (if i.signed then i.toSigned else (i.toUnsigned : Int)) = i.value := by
  obtain ⟨i,hi,hfield⟩ := of_bytes_field order signed hpos hle
  refine ⟨i,hi,fun literal => ⟨hfield.is_match_iff,?_⟩,hfield.value_eq,i.value_selected⟩
  exact hfield.display_literal_eq

theorem three_bytes_matched :
    ∃ i, MachineInt.ofBytes? .little true [0xfe,0xff,0xff] = some i ∧
      i.isMatch (-2) 3 ∧ i.isMatch 0xfffffe 3 ∧ ¬i.isMatch 0xfe 3 ∧
      displayLiteral 0xfffffe .hex 3 true = i.display .hex 3 ∧ i.value = -2 := by
  obtain ⟨i,hi,hmatch,hvalue,-⟩ :=
    field_matched .little true [0xfe,0xff,0xff] (by decide) (by decide)
  have hunsigned : ByteOrder.unsigned .little [0xfe,0xff,0xff] = 0xfffffe := by decide
  have hcomplement : complement 3 0xfffffe = -2 := by decide
  simp only [List.length_cons, List.length_nil, Nat.zero_add, Nat.reduceAdd, hunsigned,
    hcomplement] at hmatch hvalue
  have hhigh : i.isMatch 0xfffffe 3 := (hmatch _).1.mpr (.inl rfl)
  exact ⟨i,hi,(hmatch _).1.mpr (.inr rfl),hhigh,fun h => by simpa using (hmatch _).1.mp h,
    (hmatch _).2 hhigh .hex,hvalue⟩

end ByteGrammar
