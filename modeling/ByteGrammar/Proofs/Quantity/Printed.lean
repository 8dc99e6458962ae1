import ByteGrammar.Proofs.Literal.Written
import ByteGrammar.Proofs.Text.Trimming

/-!
# Printed quantities are read back

Printing brings a quantity into one form: a keyword in lower case, a number in decimal, a name
without blanks around it. A name runs to the end of the text, so that whatever it looks like, it
is read back as a name.
-/

set_option autoImplicit false

namespace ByteGrammar.Quantity

open Literal

/-- The quantities that a text may stand for: numbers that a signed word of 64 bits holds, and
names without blanks around them. -/
def Expressible : Quantity → Prop
  | literal n => -2 ^ 63 ≤ n ∧ n ≤ 2 ^ 63 - 1
  | prev name => Text.Bare name.toList
  | remaining | unlimited => True

def AnyCase (cs keyword : List Char) : Prop :=
  List.Forall₂ (fun c k => c = k ∨ c = k.toUpper) cs keyword

theorem after_keyword {keyword cs rest : List Char}
    (hlower : ∀ k ∈ keyword, k.toLower = k ∧ k.toUpper.toLower = k) (h : AnyCase cs keyword) :
    afterKeyword? keyword (cs ++ rest) = some rest := by
  induction h with
  | nil => rfl
  | @cons c k cs keyword hc _ ih =>
    obtain ⟨⟨hk,hupper⟩,hlower⟩ := List.forall_mem_cons.mp hlower
    have hsame : c.toLower = k := by
      rcases hc with rfl | rfl
      · exact hk
      · exact hupper
    rw [List.cons_append, afterKeyword?, hsame, if_pos (beq_self_eq_true k)]
    exact ih hlower

theorem after_other {k c : Char} (h : c.toLower ≠ k) (keyword cs : List Char) :
    afterKeyword? (k :: keyword) (c :: cs) = none := by
  rw [afterKeyword?, if_neg (by simpa using h)]

theorem named_of_trims {rest name : List Char} (h : Text.Trims rest name) :
    named rest = .ok (.prev (String.ofList name)) := by
  have hrest : rest.isEmpty = false := List.isEmpty_eq_false_iff.mpr h.ne_nil
  have hname : name.isEmpty = false := List.isEmpty_eq_false_iff.mpr h.bare.ne_nil
  simp only [named, hrest, h.trimmed, hname, Bool.false_eq_true, if_false]

theorem named_ok {rest : List Char} {q : Quantity} (h : named rest = .ok q) :
    ∃ name, Text.Trims rest name ∧ q = .prev (String.ofList name) := by
  simp only [named] at h
  split_ifs at h with hrest hname
  cases h
  exact ⟨_,Text.trims_trimmed (by simpa using hname),rfl⟩

/-- Behind `prev.` stands a name. -/
theorem parse_prev {text : String} {gap mark rest : List Char}
    (htext : text.toList = gap ++ mark ++ rest) (hgap : Gap gap)
    (hmark : AnyCase mark "prev.".toList) : parse text = named rest := by
  have hu : "unlimited".toList = 'u' :: "nlimited".toList := by decide
  have hr : "remaining".toList = 'r' :: "emaining".toList := by decide
  have hp : "prev.".toList = 'p' :: "rev.".toList := by decide
  have hlower : ∀ k ∈ "prev.".toList, k.toLower = k ∧ k.toUpper.toLower = k :=
    fun _ => each_of_all (p := fun k => k.toLower = k ∧ k.toUpper.toLower = k) (by decide)
  have hread : afterKeyword? "prev.".toList (mark ++ rest) = some rest :=
    after_keyword hlower hmark
  rw [hp] at hmark
  obtain ⟨c,tail,hc,-,rfl⟩ := List.forall₂_cons_right_iff.mp hmark
  have hbody : skipGaps text.toList = c :: tail ++ rest := by
    rw [htext, List.append_assoc]
    apply skip_gaps_append hgap
    rintro _ ⟨⟩
    rcases hc with rfl | rfl <;> decide
  have hother : c.toLower ≠ 'u' ∧ c.toLower ≠ 'r' := by rcases hc with rfl | rfl <;> decide
  simp only [parse]
  rw [hbody, hu, hr, hread, List.cons_append, after_other hother.1, after_other hother.2]

theorem alone_ok {q q' : Quantity} {rest : List Char} (h : alone q rest = .ok q') : q' = q := by
  rw [alone] at h
  split_ifs at h
  cases h
  rfl

theorem of_int_literal {r : Except LiteralFault Int} {q : Quantity} (h : r >>= ofInt = .ok q) :
    q.isLiteral := by
  cases r with
  | error fault => cases h
  | ok k =>
    have hk : ofInt k = .ok q := h
    rw [ofInt] at hk
    split_ifs at hk
    cases hk
    rfl

theorem parse_named {text name : String} (h : parse text = .ok (.prev name)) :
    ∃ rest, named rest = .ok (.prev name) := by
  simp only [parse] at h
  split at h
  · cases alone_ok h
  · split at h
    · cases alone_ok h
    · split at h
      · exact ⟨_,h⟩
      · cases of_int_literal h

theorem parse_expressible {text : String} {q : Quantity} (h : parse text = .ok q) :
    q.Expressible := by
  cases q with
  | literal n => exact (parse_literal_iff.mp h).2
  | remaining | unlimited => trivial
  | prev name =>
    obtain ⟨rest,hnamed⟩ := parse_named h
    obtain ⟨_,htrims,hname⟩ := named_ok hnamed
    obtain rfl := prev.inj hname
    rw [Expressible, String.toList_ofList]
    exact htrims.bare

theorem parse_to_text {q : Quantity} (h : q.Expressible) : parse q.toText = .ok q := by
  cases q with
  | literal n =>
    have hlargest : n.natAbs ≤ largestMagnitude := by
      have hcount : largestMagnitude = 2 ^ 127 - 1 := rfl
      obtain ⟨hlow,hhigh⟩ := h
      omega
    exact parse_literal_iff.mpr
      ⟨parse_integer_iff.mpr ⟨n.natAbs,to_string_spelled n,hlargest⟩,h⟩
  | remaining => decide
  | unlimited => decide
  | prev name =>
    have htext : (toText (.prev name)).toList = [] ++ "prev.".toList ++ name.toList := by
      rw [toText, String.toList_append, List.nil_append]
    have hmark : AnyCase "prev.".toList "prev.".toList :=
      List.forall₂_same.mpr fun _ _ => .inl rfl
    rw [parse_prev htext gap_nil hmark, named_of_trims (Text.Bare.trims h), String.ofList_toList]

/-- A quantity that was read is read back as it is printed, and so is every quantity that a text
may stand for, whatever its name looks like. Behind `prev.`, in any case and after any gap, all
that is not blank is read as a name, without the blanks around it. -/
theorem printed_reads_back :
    (∀ (text : String) (q : Quantity), Grammar.readQuantity text = .ok q →
      q.Expressible ∧ Grammar.readQuantity q.toText = .ok q) ∧
    (∀ q : Quantity, q.Expressible → Grammar.readQuantity q.toText = .ok q) ∧
    ∀ (text : String) (gap mark rest : List Char), text.toList = gap ++ mark ++ rest → Gap gap →
      AnyCase mark "prev.".toList → (∃ c ∈ rest, ¬Text.isBlank c) →
      ∃ name, Text.Trims rest name ∧
        Grammar.readQuantity text = .ok (.prev (String.ofList name)) := by
  simp only [Grammar.readQuantity, Grammar.map_error_ok]
  refine ⟨fun text q h => ?_,fun q => parse_to_text,fun text gap mark rest htext hgap hmark => ?_⟩
  · have hq := parse_expressible h
    exact ⟨hq,parse_to_text hq⟩
  · rintro ⟨c,hc,hblank⟩
    have htrims := Text.trims_trimmed fun hnil => hblank (Text.trimmed_nil.mp hnil c hc)
    exact ⟨_,htrims,by rw [parse_prev htext hgap hmark, named_of_trims htrims]⟩

theorem nested_prev_reads_back :
    Grammar.readQuantity "\t PrEV.\u3000prev.0x10\u00a0" = .ok (.prev "prev.0x10") ∧
    Grammar.readQuantity "prev.prev.0x10" = .ok (.prev "prev.0x10") ∧
    Grammar.readQuantity "-9223372036854775808" = .ok (.literal (-2 ^ 63)) := by
  obtain ⟨hread,hprint,hprev⟩ := printed_reads_back
  have htext : "\t PrEV.\u3000prev.0x10\u00a0".toList =
      ['\t', ' '] ++ "PrEV.".toList ++ "\u3000prev.0x10\u00a0".toList := by decide
  have hmark : AnyCase "PrEV.".toList "prev.".toList := by unfold AnyCase; decide
  obtain ⟨name,htrims,hname⟩ := hprev _ _ _ _ htext (by simp [Gap]) hmark
    ⟨'p',by decide,by decide⟩
  rw [← htrims.trimmed] at hname
  have hleast := hprint (.literal (-2 ^ 63)) ⟨by decide,by decide⟩
  have hdigits : toText (.literal (-2 ^ 63)) = "-9223372036854775808" := by decide
  rw [hdigits] at hleast
  exact ⟨hname,(hread _ _ hname).2,hleast⟩

end ByteGrammar.Quantity
