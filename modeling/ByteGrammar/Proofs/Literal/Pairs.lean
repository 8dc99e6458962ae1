import ByteGrammar.Proofs.Literal.Written

/-!
# How byte strings are spelled

The language of byte strings is stated apart from its reader: a gap, perhaps a mark, then a pair of
hexadecimal digits for each byte, with gaps around the pairs and none inside. A text is read just
if it is spelled so, and what is written for bytes is.
-/

set_option autoImplicit false

namespace ByteGrammar.Literal

def Pair (high low : Char) (b : UInt8) : Prop :=
  ∃ h l, Denotes 16 high h ∧ Denotes 16 low l ∧ b.toNat = 16 * h + l

/-- Bytes in order, each a pair behind a gap, and a gap at the end. -/
inductive Pairs : List Char → List UInt8 → Prop
  | nil {gap : List Char} (hgap : Gap gap) : Pairs gap []
  | cons {gap rest : List Char} {high low : Char} {b : UInt8} {bytes : List UInt8}
      (hgap : Gap gap) (pair : Pair high low b) (more : Pairs rest bytes) :
      Pairs (gap ++ high :: low :: rest) (b :: bytes)

def Marks (mark : List Char) : Prop := mark = [] ∨ mark = ['0', 'x'] ∨ mark = ['0', 'X']

def SpelledBytes (cs : List Char) (bytes : List UInt8) : Prop :=
  ∃ before mark body, cs = before ++ mark ++ body ∧ Gap before ∧ Marks mark ∧ Pairs body bytes

theorem byte_of_pair_iff {high low : Char} {b : UInt8} :
    byteOfPair? high low = some b ↔ Pair high low b := by
  have hbase : 16 ≤ 16 := Nat.le_refl 16
  constructor
  · intro h
    obtain ⟨hi,hhigh,h1⟩ := Option.bind_eq_some_iff.mp h
    obtain ⟨lo,hlow,h2⟩ := Option.bind_eq_some_iff.mp h1
    cases h2
    rw [← denotes_iff hbase] at hhigh hlow
    refine ⟨hi,lo,hhigh,hlow,?_⟩
    have hsizes := And.intro hhigh.1 hlow.1
    rw [UInt8.toNat_ofNat', Nat.mod_eq_of_lt (by omega)]
  · rintro ⟨hi,lo,hhigh,hlow,hb⟩
    rw [denotes_iff hbase] at hhigh hlow
    simp only [byteOfPair?, hhigh, hlow, bind, Option.bind, pure, ← hb, UInt8.ofNat_toNat]

theorem Denotes.not_gap {base : Nat} {c : Char} {d : Nat} (h : Denotes base c d) : ¬isGap c :=
  each_of_all (p := fun c => ¬isGap c) (by decide) h.mem

theorem Denotes.not_mark {base : Nat} {c : Char} {d : Nat} (h : Denotes base c d) :
    ¬(c = 'x' ∨ c = 'X') :=
  each_of_all (p := fun c => ¬(c = 'x' ∨ c = 'X')) (by decide) h.mem

theorem Gap.cons {c : Char} {cs : List Char} (hc : isGap c) (h : Gap cs) : Gap (c :: cs) :=
  List.forall_mem_cons.mpr ⟨is_gap_iff.mp hc,h⟩

theorem Pairs.gap {c : Char} {cs : List Char} {bytes : List UInt8} (hc : isGap c)
    (h : Pairs cs bytes) : Pairs (c :: cs) bytes := by
  cases h with
  | nil hgap => exact .nil (hgap.cons hc)
  | cons hgap pair more => exact .cons (hgap.cons hc) pair more

theorem pairs_gap {c : Char} (hc : isGap c) (cs : List Char) : pairs? (c :: cs) = pairs? cs := by
  cases cs <;> simp [pairs?, hc]

theorem pairs_pair {high : Char} (hc : ¬isGap high) (low : Char) (rest : List Char) :
    pairs? (high :: low :: rest) =
      (byteOfPair? high low).bind fun b => (pairs? rest).bind fun bytes => some (b :: bytes) := by
  simp only [pairs?, hc, Bool.false_eq_true, if_false]
  rfl

/-- Gaps before a pair do not matter. -/
theorem pairs_append {gap : List Char} (hgap : Gap gap) (cs : List Char) :
    pairs? (gap ++ cs) = pairs? cs := by
  induction gap with
  | nil => rfl
  | cons c gap ih =>
    obtain ⟨hc,hgap⟩ := List.forall_mem_cons.mp hgap
    rw [List.cons_append, pairs_gap (is_gap_iff.mpr hc), ih hgap]

theorem pairs_iff {cs : List Char} {bytes : List UInt8} :
    pairs? cs = some bytes ↔ Pairs cs bytes := by
  constructor
  · intro h
    fun_induction pairs? cs generalizing bytes with
    | case1 =>
      cases h
      exact .nil gap_nil
    | case2 c rest hc ih => exact (ih h).gap hc
    | case3 c hc => cases h
    | case4 c hc d later ih =>
      obtain ⟨b,hb,h1⟩ := Option.bind_eq_some_iff.mp h
      obtain ⟨more,hmore,h2⟩ := Option.bind_eq_some_iff.mp h1
      cases h2
      exact .cons gap_nil (byte_of_pair_iff.mp hb) (ih hmore)
  · intro h
    induction h with
    | @nil gap hgap => simpa [pairs?] using pairs_append hgap []
    | cons hgap pair more ih =>
      have hb := byte_of_pair_iff.mpr pair
      obtain ⟨_,_,hhigh,-⟩ := pair
      rw [pairs_append hgap, pairs_pair hhigh.not_gap, hb, ih]
      rfl

theorem after_mark_split (cs : List Char) : ∃ mark, cs = mark ++ afterMark cs ∧ Marks mark := by
  unfold afterMark
  split
  · next c rest =>
    split_ifs with hc
    · refine ⟨['0', c],rfl,?_⟩
      simp only [Bool.or_eq_true, beq_iff_eq] at hc
      rcases hc with rfl | rfl
      · exact .inr (.inl rfl)
      · exact .inr (.inr rfl)
    · exact ⟨[],rfl,.inl rfl⟩
  · exact ⟨[],rfl,.inl rfl⟩

theorem Pairs.unmarked {cs : List Char} {bytes : List UInt8} (h : Pairs cs bytes) :
    afterMark cs = cs := by
  unfold afterMark
  split
  · next c rest =>
    have hread := pairs_iff.mpr h
    rw [pairs_pair (by decide)] at hread
    obtain ⟨b,hb,-⟩ := Option.bind_eq_some_iff.mp hread
    obtain ⟨_,_,-,hlow,-⟩ := byte_of_pair_iff.mp hb
    rw [if_neg (by simpa using hlow.not_mark)]
  · rfl

theorem marked_pairs {mark body : List Char} {bytes : List UInt8} (hmark : Marks mark)
    (h : Pairs body bytes) : pairs? (afterMark (skipGaps (mark ++ body))) = some bytes := by
  rcases hmark with rfl | rfl | rfl
  · obtain ⟨gap,hsplit,hgap⟩ := skip_gaps_split body
    have hread : pairs? (skipGaps body) = some bytes := by
      rw [← pairs_append hgap, ← hsplit]
      exact pairs_iff.mpr h
    rw [List.nil_append, (pairs_iff.mp hread).unmarked, hread]
  · exact pairs_iff.mpr h
  · exact pairs_iff.mpr h

theorem parse_bytes_iff {text : String} {bytes : List UInt8} :
    parseBytes text = .ok bytes ↔ SpelledBytes text.toList bytes := by
  have hok : parseBytes text = .ok bytes ↔
      pairs? (afterMark (skipGaps text.toList)) = some bytes := by
    rw [parseBytes]
    cases pairs? (afterMark (skipGaps text.toList)) with
    | some found => simp
    | none => simp
  rw [hok]
  constructor
  · intro h
    obtain ⟨before,hbefore,hgap⟩ := skip_gaps_split text.toList
    obtain ⟨mark,hmarked,hmark⟩ := after_mark_split (skipGaps text.toList)
    refine ⟨before,mark,_,?_,hgap,hmark,pairs_iff.mp h⟩
    rw [List.append_assoc, ← hmarked, ← hbefore]
  · rintro ⟨before,mark,body,hcs,hgap,hmark,hbody⟩
    rw [hcs, List.append_assoc, skip_gaps_before hgap]
    exact marked_pairs hmark hbody

theorem hex_of_cons (b : UInt8) (bytes : List UInt8) :
    (Text.hexOf (b :: bytes)).toList =
      Text.digitChar (b.toNat / 16 % 16) :: Text.digitChar (b.toNat % 16) ::
        (Text.hexOf bytes).toList := by
  simp [Text.hexOf, Text.fixedDigits]

theorem hex_of_pairs (bytes : List UInt8) : Pairs (Text.hexOf bytes).toList bytes := by
  induction bytes with
  | nil => exact .nil gap_nil
  | cons b bytes ih =>
    have hsmall : b.toNat < 256 := b.toNat_lt
    rw [hex_of_cons]
    refine .cons gap_nil ⟨_,_,digit_char_denotes (Nat.mod_lt _ (by decide)) (by decide),
      digit_char_denotes (Nat.mod_lt _ (by decide)) (by decide),?_⟩ ih
    omega

theorem hex_of_spelled {mark : List Char} (hmark : Marks mark) (bytes : List UInt8) :
    SpelledBytes (mark ++ (Text.hexOf bytes).toList) bytes :=
  ⟨[],mark,_,by simp,gap_nil,hmark,hex_of_pairs bytes⟩

theorem read_bytes_iff {text : String} {bytes : List UInt8} :
    Grammar.readBytes text = .ok bytes ↔ SpelledBytes text.toList bytes :=
  Grammar.map_error_ok.trans parse_bytes_iff

/-- What is written for bytes is read back, with and without a mark, and the texts that are read
as bytes are those that are spelled as them. -/
theorem bytes_as_spelled (text : String) (bytes : List UInt8) :
    Grammar.readBytes (Text.hexOf bytes) = .ok bytes ∧
    Grammar.readBytes ("0x" ++ Text.hexOf bytes) = .ok bytes ∧
    (Grammar.readBytes text = .ok bytes ↔ SpelledBytes text.toList bytes) := by
  refine ⟨read_bytes_iff.mpr ?_,read_bytes_iff.mpr ?_,read_bytes_iff⟩
  · exact hex_of_spelled (.inl rfl) bytes
  · rw [String.toList_append]
    exact hex_of_spelled (.inr (.inl rfl)) bytes

end ByteGrammar.Literal
