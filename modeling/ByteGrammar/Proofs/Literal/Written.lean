import ByteGrammar.Grammar.Read
import ByteGrammar.Proofs.Literal.Spelling
import ByteGrammar.Proofs.Number.Matching

/-!
# Written numbers are read back

The texts in which numbers are written spell these numbers: decimals with their sign, and digits
padded to the width of a field. So what is shown of a field is a literal that matches it.
-/

set_option autoImplicit false

namespace ByteGrammar.Literal

section
variable {base : Nat} {c : Char} {d : Nat}

theorem Numeral.one (h : Denotes base c d) : Numeral base [c] d :=
  ⟨[d],List.cons_ne_nil _ _,.cons h .nil,Nat.ofDigits_singleton.symm⟩

theorem Numeral.snoc {cs : List Char} {m : Nat} (hcs : Numeral base cs m) (h : Denotes base c d) :
    Numeral base (cs ++ [c]) (d + base * m) := by
  obtain ⟨ds,-,hdigits,rfl⟩ := hcs
  refine ⟨ds ++ [d],by simp,List.rel_append hdigits (.cons h .nil),?_⟩
  rw [List.reverse_concat, Nat.ofDigits_cons]

theorem digit_char_denotes (hd : d < base) (hbase : base ≤ 16) :
    Denotes base (Text.digitChar d) d := by
  have hsmall := Nat.lt_of_lt_of_le hd hbase
  refine ⟨hd,.inl ?_⟩
  interval_cases d <;> rfl

theorem decimal_char_denotes (hd : d < 10) : Denotes 10 (Nat.digitChar d) d := by
  refine ⟨hd,.inl ?_⟩
  interval_cases d <;> rfl

end

theorem to_digits_numeral (n : Nat) : Numeral 10 (Nat.toDigits 10 n) n := by
  induction n using Nat.strongRecOn with
  | _ n ih =>
    rw [Nat.toDigits_eq_if (by decide)]
    by_cases hn : n < 10
    · rw [if_pos hn]
      exact .one (decimal_char_denotes hn)
    · rw [if_neg hn]
      have hmore := (ih (n / 10) (by omega)).snoc (decimal_char_denotes (Nat.mod_lt n (by decide)))
      rwa [Nat.mod_add_div] at hmore

theorem fixed_digits_length (base count n : Nat) :
    (Text.fixedDigits base count n).length = count := by
  induction count generalizing n with
  | zero => rfl
  | succ count ih => simp [Text.fixedDigits, ih]

theorem fixed_digits_numeral {base : Nat} (hpos : 0 < base) (hbase : base ≤ 16) (count n : Nat) :
    Numeral base (Text.fixedDigits base (count + 1) n) (n % base ^ (count + 1)) := by
  induction count generalizing n with
  | zero =>
    rw [Text.fixedDigits, Text.fixedDigits, List.nil_append, Nat.zero_add, pow_one]
    exact .one (digit_char_denotes (Nat.mod_lt n hpos) hbase)
  | succ count ih =>
    have hmore := (ih (n / base)).snoc (digit_char_denotes (Nat.mod_lt n hpos) hbase)
    rw [← Nat.mod_mul, ← pow_succ'] at hmore
    exact hmore

theorem gap_nil : Gap [] := nofun

theorem Body.spelled {cs : List Char} {m : Nat} (h : Body cs m) : Spelled cs m m :=
  ⟨[],[],cs,[],by simp,gap_nil,.none,h,gap_nil⟩

theorem to_string_spelled (n : Int) : Spelled (toString n).toList n.natAbs n := by
  have htext : toString n = n.repr := rfl
  rw [htext, Int.repr_eq_if]
  by_cases hn : 0 ≤ n
  · obtain ⟨m,rfl⟩ := Int.eq_ofNat_of_zero_le hn
    simpa using (Body.decimal (to_digits_numeral m)).spelled
  · obtain ⟨m,rfl⟩ : ∃ m : Nat, n = -m := ⟨n.natAbs,by omega⟩
    refine ⟨[],['-'],Nat.toDigits 10 m,[],?_,gap_nil,?_,.decimal ?_,gap_nil⟩
    · rw [if_neg hn]
      simp
    · simpa using Sign.minus (m := m)
    · simpa using to_digits_numeral m

end ByteGrammar.Literal

namespace ByteGrammar

open Literal

/-- `text` is read as `literal`, also for a fixed value of any name, and a field of `width` bytes
with the integer `i` matches it. -/
structure Matches (i : MachineInt) (width : Nat) (text : String) (literal : Int) : Prop where
  read : Grammar.readInteger text = .ok literal
  fixed : ∀ name, Grammar.readFixed name text = .ok { name, value := literal }
  isMatch : i.isMatch literal width

section
variable {signed : Bool} {width u : Nat} {i : MachineInt}

theorem FieldInt.digits (h : FieldInt signed width u i) {base bits : Nat} (hpos : 0 < base)
    (hbase : base ≤ 16) (hbits : base ^ (bits * width) = wordCount (8 * width))
    (hsome : 0 < bits) :
    Numeral base (Text.fixedDigits base (bits * width) u) u := by
  obtain ⟨count,hcount⟩ := Nat.exists_eq_add_of_lt (Nat.mul_pos hsome h.positive)
  have hnumeral := fixed_digits_numeral hpos hbase (0 + count) u
  rwa [← hcount, hbits, Nat.mod_eq_of_lt h.small] at hnumeral

theorem FieldInt.hex_text (h : FieldInt signed width u i) :
    (i.display .hex width).toList = '0' :: 'x' :: Text.fixedDigits 16 (2 * width) u ∧
      Numeral 16 (Text.fixedDigits 16 (2 * width) u) u := by
  constructor
  · simp only [MachineInt.display, h.width_eq, h.pattern_eq, String.toList_ofList]
  · apply h.digits (by decide) (by decide) ?_ (by decide)
    rw [word_count_eq, show 16 = 2 ^ 4 from rfl, ← pow_mul, ← Nat.mul_assoc]

theorem FieldInt.binary_text (h : FieldInt signed width u i) :
    (i.display .binary width).toList = Text.fixedDigits 2 (8 * width) u ∧
      Numeral 2 (Text.fixedDigits 2 (8 * width) u) u := by
  constructor
  · simp only [MachineInt.display, h.width_eq, h.pattern_eq, String.toList_ofList]
  · exact h.digits (by decide) (by decide) rfl (by decide)

theorem FieldInt.magnitude_le (h : FieldInt signed width u i) :
    u ≤ wordCount 64 ∧ i.value.natAbs ≤ wordCount 64 := by
  have hsmall := h.small
  have hwide : wordCount (8 * width) ≤ wordCount 64 := word_count_le (Nat.mul_le_mul_left 8 h.short)
  refine ⟨by omega,?_⟩
  rw [h.value_eq]
  cases signed with
  | false =>
    simp only [Bool.false_eq_true, if_false]
    omega
  | true =>
    simp only [if_true]
    by_cases hlow : u < wordCount (8 * width - 1)
    · rw [complement_low hlow]
      omega
    · rw [complement_high (by omega)]
      omega

/-- A text that spells one of the two values of a field is read as a literal that matches it. -/
theorem FieldInt.matched (h : FieldInt signed width u i) {text : String} {m : Nat} {n : Int}
    (hspelled : Spelled text.toList m n) (hm : m ≤ wordCount 64)
    (hn : n = u ∨ n = complement width u) : Matches i width text n := by
  have hlargest : wordCount 64 ≤ largestMagnitude := by decide
  have hparse : parseInteger text = .ok n :=
    parse_integer_iff.mpr ⟨m,hspelled,Nat.le_trans hm hlargest⟩
  have hread : Grammar.readInteger text = .ok n := by
    rw [Grammar.readInteger, hparse]
    rfl
  refine ⟨hread,fun name => ?_,h.is_match_iff.mpr hn⟩
  rw [Grammar.readFixed, hread]
  rfl

theorem FieldInt.decimal_matches (h : FieldInt signed width u i) :
    Matches i width (i.display .decimal width) i.value := by
  apply h.matched (to_string_spelled i.value) h.magnitude_le.2
  rw [h.value_eq]
  cases signed with
  | false => exact .inl rfl
  | true => exact .inr rfl

theorem FieldInt.pattern_matched (h : FieldInt signed width u i) {text : String}
    (hspelled : Spelled text.toList u u) : Matches i width text (i.pattern width) := by
  rw [h.pattern_eq]
  exact h.matched hspelled h.magnitude_le.1 (.inl rfl)

theorem FieldInt.hex_matches (h : FieldInt signed width u i) :
    Matches i width (i.display .hex width) (i.pattern width) := by
  obtain ⟨htext,hnumeral⟩ := h.hex_text
  apply h.pattern_matched
  rw [htext]
  exact (Body.hex (.inl rfl) hnumeral).spelled

theorem FieldInt.binary_matches (h : FieldInt signed width u i) :
    Matches i width ("0b" ++ i.display .binary width) (i.pattern width) := by
  obtain ⟨htext,hnumeral⟩ := h.binary_text
  apply h.pattern_matched
  rw [String.toList_append, htext]
  exact (Body.binary (.inl rfl) hnumeral).spelled

end

/-- What is shown of a field in any base is read as a literal that matches it: in decimal as its
value, in the other bases as its pattern, with so many digits as its bytes hold. -/
theorem shown_reads_back (order : ByteOrder) (signed : Bool) (bytes : List UInt8)
    (hpos : 1 ≤ bytes.length) (hle : bytes.length ≤ 8) :
    ∃ i, MachineInt.ofBytes? order signed bytes = some i ∧
      Matches i bytes.length (i.display .decimal bytes.length) i.value ∧
      Matches i bytes.length (i.display .hex bytes.length) (i.pattern bytes.length) ∧
      Matches i bytes.length ("0b" ++ i.display .binary bytes.length) (i.pattern bytes.length) ∧
      (∃ digits, (i.display .hex bytes.length).toList = '0' :: 'x' :: digits ∧
        digits.length = 2 * bytes.length ∧ ∀ c ∈ digits, ∃ d, Denotes 16 c d) ∧
      ∃ digits, (i.display .binary bytes.length).toList = digits ∧
        digits.length = 8 * bytes.length ∧ ∀ c ∈ digits, ∃ d, Denotes 2 c d := by
  obtain ⟨i,hi,hfield⟩ := of_bytes_field order signed hpos hle
  obtain ⟨hhex,hhexdigits⟩ := hfield.hex_text
  obtain ⟨hbinary,hbits⟩ := hfield.binary_text
  exact ⟨i,hi,hfield.decimal_matches,hfield.hex_matches,hfield.binary_matches,
    ⟨_,hhex,fixed_digits_length 16 _ _,hhexdigits.denotes⟩,
    ⟨_,hbinary,fixed_digits_length 2 _ _,hbits.denotes⟩⟩

theorem three_bytes_read_back :
    ∃ i, MachineInt.ofBytes? .little true [0xff,0x00,0x80] = some i ∧
      i.display .decimal 3 = "-8388353" ∧ Matches i 3 "-8388353" (-8388353) ∧
      i.display .hex 3 = "0x8000ff" ∧ Matches i 3 "0x8000ff" 0x8000ff := by
  obtain ⟨i,hi,hdecimal,hhex,-⟩ :=
    shown_reads_back .little true [0xff,0x00,0x80] (by decide) (by decide)
  have hthree : [(0xff : UInt8),0x00,0x80].length = 3 := rfl
  have hnumbers : i.value = -8388353 ∧ i.pattern 3 = 0x8000ff := by
    cases hi
    decide +kernel
  have htexts : i.display .decimal 3 = "-8388353" ∧ i.display .hex 3 = "0x8000ff" := by
    cases hi
    decide +kernel
  rw [hthree, htexts.1, hnumbers.1] at hdecimal
  rw [hthree, htexts.2, hnumbers.2] at hhex
  exact ⟨i,hi,htexts.1,hdecimal,htexts.2,hhex⟩

end ByteGrammar
