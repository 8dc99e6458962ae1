import Mathlib.Data.List.TakeWhile
import Mathlib.Data.Nat.Digits.Lemmas
import Mathlib.Tactic.IntervalCases
import ByteGrammar.Proofs.Text.Trimming
import ByteGrammar.Quantity.Basic

/-!
# How integers are spelled

The language of integer literals is stated apart from its reader: gaps, a sign, digits of a base,
gaps. A text is read just if it is spelled so and its magnitude is in range, and the same texts
with values in the range of a signed word of 64 bits are the literals among the quantities.
-/

set_option autoImplicit false

namespace ByteGrammar.Literal

def lowerDigits : List Char :=
  ['0', '1', '2', '3', '4', '5', '6', '7', '8', '9', 'a', 'b', 'c', 'd', 'e', 'f']

def upperDigits : List Char :=
  ['0', '1', '2', '3', '4', '5', '6', '7', '8', '9', 'A', 'B', 'C', 'D', 'E', 'F']

def Denotes (base : Nat) (c : Char) (d : Nat) : Prop :=
  d < base ∧ (lowerDigits[d]? = some c ∨ upperDigits[d]? = some c)

def Numeral (base : Nat) (cs : List Char) (m : Nat) : Prop :=
  ∃ ds, ds ≠ [] ∧ List.Forall₂ (Denotes base) cs ds ∧ m = Nat.ofDigits base ds.reverse

inductive Body : List Char → Nat → Prop
  | hex {mark : Char} {cs : List Char} {m : Nat} (marked : mark = 'x' ∨ mark = 'X')
      (digits : Numeral 16 cs m) : Body ('0' :: mark :: cs) m
  | binary {mark : Char} {cs : List Char} {m : Nat} (marked : mark = 'b' ∨ mark = 'B')
      (digits : Numeral 2 cs m) : Body ('0' :: mark :: cs) m
  | decimal {cs : List Char} {m : Nat} (digits : Numeral 10 cs m) : Body cs m

inductive Sign (m : Nat) : List Char → Int → Prop
  | none : Sign m [] m
  | plus : Sign m ['+'] m
  | minus : Sign m ['-'] (-m)

def Gap (cs : List Char) : Prop := ∀ c ∈ cs, c = ' ' ∨ c = '\t' ∨ c = '\r' ∨ c = '\n'

/-- A whole text that is spelled as `n`, whose magnitude is `m`. -/
def Spelled (cs : List Char) (m : Nat) (n : Int) : Prop :=
  ∃ before sign body after, cs = before ++ sign ++ body ++ after ∧
    Gap before ∧ Sign m sign n ∧ Body body m ∧ Gap after

theorem denotes_iff {base : Nat} (hbase : base ≤ 16) {c : Char} {d : Nat} :
    Denotes base c d ↔ Text.digitValue? base c = some d := by
  constructor
  · rintro ⟨hd,hc⟩
    have hsmall : d < 16 := Nat.lt_of_lt_of_le hd hbase
    interval_cases d <;> rcases hc with hc | hc <;> cases hc <;>
      simp [Text.digitValue?, Option.filter, hd]
  · intro h
    have hc := (Char.ofNat_toNat c).symm
    simp only [Text.digitValue?, Option.filter_eq_some_iff, decide_eq_true_eq] at h
    obtain ⟨hvalue,hd⟩ := h
    refine ⟨hd,?_⟩
    -- the three ranges of codes are small enough to go through them code by code
    generalize c.toNat = n at hvalue hc
    subst hc
    split_ifs at hvalue with hdigit hlower hupper
    · cases hvalue
      obtain ⟨hlow,hhigh⟩ := hdigit
      left
      interval_cases n <;> rfl
    · cases hvalue
      obtain ⟨hlow,hhigh⟩ := hlower
      left
      interval_cases n <;> rfl
    · cases hvalue
      obtain ⟨hlow,hhigh⟩ := hupper
      right
      interval_cases n <;> rfl

theorem digits_value_eq (base : Nat) (ds : List Nat) :
    digitsValue base ds = Nat.ofDigits base ds.reverse := by
  induction ds using List.reverseRecOn with
  | nil => rfl
  | append_singleton ds d ih =>
    rw [List.reverse_concat, Nat.ofDigits_cons, ← ih]
    simp only [digitsValue, List.foldl_append, List.foldl_cons, List.foldl_nil]
    ring

def Stops (base : Nat) (cs : List Char) : Prop := ∀ c ∈ cs.head?, ∀ d, ¬Denotes base c d

section
variable {base : Nat} (hbase : base ≤ 16)
include hbase

/-- The digits that are taken are all there are. -/
theorem take_digits_iff {cs : List Char} {ds : List Nat} {rest : List Char} :
    takeDigits base cs = (ds,rest) ↔
      ∃ body, cs = body ++ rest ∧ List.Forall₂ (Denotes base) body ds ∧ Stops base rest := by
  constructor
  · intro h
    induction cs generalizing ds with
    | nil =>
      cases h
      exact ⟨[],rfl,.nil,nofun⟩
    | cons c cs ih =>
      rw [takeDigits] at h
      cases hc : Text.digitValue? base c with
      | none =>
        rw [hc] at h
        cases h
        refine ⟨[],rfl,.nil,?_⟩
        rintro _ ⟨⟩ d hd
        rw [denotes_iff hbase, hc] at hd
        cases hd
      | some d =>
        rw [hc] at h
        cases h
        obtain ⟨body,hcs,hdigits,hstops⟩ := ih (Prod.mk.eta).symm
        exact ⟨c :: body,by rw [List.cons_append, ← hcs],.cons ((denotes_iff hbase).mpr hc) hdigits,
          hstops⟩
  · rintro ⟨body,rfl,hdigits,hstops⟩
    induction hdigits with
    | nil =>
      cases rest with
      | nil => rfl
      | cons c rest =>
        have hc : Text.digitValue? base c = none := by
          rw [Option.eq_none_iff_forall_ne_some]
          intro d hd
          exact hstops c rfl d ((denotes_iff hbase).mpr hd)
        simp [takeDigits, hc]
    | cons hc _ ih =>
      rw [denotes_iff hbase] at hc
      simp [takeDigits, hc, ih]

theorem digits_iff {cs : List Char} {m : Nat} {rest : List Char} :
    digits? base cs = some (m,rest) ↔
      ∃ body, cs = body ++ rest ∧ Numeral base body m ∧ Stops base rest := by
  constructor
  · intro h
    rw [digits?] at h
    cases htake : takeDigits base cs with
    | mk ds tail =>
      rw [htake] at h
      cases ds with
      | nil => cases h
      | cons d ds =>
        cases h
        obtain ⟨body,hcs,hdigits,hstops⟩ := (take_digits_iff hbase).mp htake
        exact ⟨body,hcs,⟨_,List.cons_ne_nil d ds,hdigits,digits_value_eq base _⟩,hstops⟩
  · rintro ⟨body,hcs,⟨ds,hne,hdigits,rfl⟩,hstops⟩
    have htake := (take_digits_iff hbase).mpr ⟨body,hcs,hdigits,hstops⟩
    cases ds with
    | nil => exact absurd rfl hne
    | cons d ds => rw [digits?, htake, ← digits_value_eq]

end

theorem is_gap_iff {c : Char} :
    isGap c ↔ c = ' ' ∨ c = '\t' ∨ c = '\r' ∨ c = '\n' := by
  simp [isGap, or_assoc]

theorem skip_gaps_nil {cs : List Char} : (skipGaps cs).isEmpty ↔ Gap cs := by
  simp only [skipGaps, List.isEmpty_iff, List.dropWhile_eq_nil_iff, Gap, is_gap_iff]

theorem skip_gaps_before {before : List Char} (hgap : Gap before) (cs : List Char) :
    skipGaps (before ++ cs) = skipGaps cs :=
  List.dropWhile_append_of_pos fun c hc => is_gap_iff.mpr (hgap c hc)

theorem skip_gaps_append {before cs : List Char} (hgap : Gap before)
    (hcs : ∀ c ∈ cs.head?, ¬isGap c) : skipGaps (before ++ cs) = cs :=
  Text.drop_while_append (fun c hc => is_gap_iff.mpr (hgap c hc)) hcs

theorem skip_gaps_split (cs : List Char) :
    ∃ before, cs = before ++ skipGaps cs ∧ Gap before := by
  refine ⟨cs.takeWhile isGap,List.takeWhile_append_dropWhile.symm,fun c hc => ?_⟩
  exact is_gap_iff.mp (List.mem_takeWhile_imp hc)

theorem Denotes.mem {base : Nat} {c : Char} {d : Nat} (h : Denotes base c d) :
    c ∈ lowerDigits ++ upperDigits := by
  rw [List.mem_append]
  exact h.2.imp List.mem_of_getElem? List.mem_of_getElem?

theorem Gap.stops {cs : List Char} (h : Gap cs) (base : Nat) : Stops base cs := by
  intro c hc d hd
  have hmem := hd.mem
  rcases h c (List.mem_of_mem_head? hc) with rfl | rfl | rfl | rfl <;> revert hmem <;> decide

def openers : List Char := ['-', '+', '0', '1', '2', '3', '4', '5', '6', '7', '8', '9']

theorem each_of_all {cs : List Char} {p : Char → Prop} [DecidablePred p]
    (h : cs.all fun c => p c) {c : Char} (hc : c ∈ cs) : p c :=
  of_decide_eq_true (List.all_eq_true.mp h c hc)

theorem Denotes.decimal {c : Char} {d : Nat} (h : Denotes 10 c d) : c ∈ openers.drop 2 := by
  obtain ⟨hd,hc⟩ := h
  interval_cases d <;> rcases hc with hc | hc <;> cases hc <;> decide

theorem Numeral.cons {base : Nat} {cs : List Char} {m : Nat} (h : Numeral base cs m) :
    ∃ c tail d, cs = c :: tail ∧ Denotes base c d := by
  obtain ⟨ds,hne,hdigits,-⟩ := h
  cases hdigits with
  | nil => exact absurd rfl hne
  | cons hc _ => exact ⟨_,_,_,rfl,hc⟩

theorem Numeral.denotes {base : Nat} {cs : List Char} {m : Nat} (h : Numeral base cs m) :
    ∀ c ∈ cs, ∃ d, Denotes base c d := by
  obtain ⟨ds,-,hdigits,-⟩ := h
  intro c hc
  induction hdigits with
  | nil => cases hc
  | cons hd _ ih =>
    rcases List.mem_cons.mp hc with rfl | hc
    · exact ⟨_,hd⟩
    · exact ih hc

theorem Numeral.decimal {cs : List Char} {m : Nat} (h : Numeral 10 cs m) :
    ∀ c ∈ cs, c ∈ openers.drop 2 := by
  intro c hc
  obtain ⟨d,hd⟩ := h.denotes c hc
  exact hd.decimal

theorem Body.cons {cs : List Char} {m : Nat} (h : Body cs m) :
    ∃ c tail, cs = c :: tail ∧ c ∈ openers.drop 2 := by
  cases h with
  | hex _ _ => exact ⟨_,_,rfl,by decide⟩
  | binary _ _ => exact ⟨_,_,rfl,by decide⟩
  | decimal digits =>
    obtain ⟨c,tail,d,rfl,hc⟩ := digits.cons
    exact ⟨c,tail,rfl,hc.decimal⟩

theorem marked_body {cs : List Char} {m : Nat} {rest : List Char}
    (h : marked? cs = some (m,rest)) : ∃ body, cs = body ++ rest ∧ Body body m := by
  unfold marked? at h
  split at h
  · next c tail =>
    by_cases hx : c = 'x' ∨ c = 'X'
    · simp only [Bool.or_eq_true, beq_iff_eq, hx, if_true] at h
      obtain ⟨digits,rfl,hdigits,-⟩ := (digits_iff (by decide)).mp h
      exact ⟨'0' :: c :: digits,rfl,.hex hx hdigits⟩
    · by_cases hb : c = 'b' ∨ c = 'B'
      · simp only [Bool.or_eq_true, beq_iff_eq, hx, hb, if_true, if_false] at h
        obtain ⟨digits,rfl,hdigits,-⟩ := (digits_iff (by decide)).mp h
        exact ⟨'0' :: c :: digits,rfl,.binary hb hdigits⟩
      · simp [hx, hb] at h
  · cases h

theorem unmarked {digits rest : List Char} (hdigits : ∀ c ∈ digits, c ∈ openers.drop 2)
    (hrest : Gap rest) : marked? (digits ++ rest) = none := by
  have hall : ∀ c ∈ digits ++ rest, ¬(c = 'x' ∨ c = 'X') ∧ ¬(c = 'b' ∨ c = 'B') := by
    intro c hc
    rcases List.mem_append.mp hc with hc | hc
    · exact each_of_all (p := fun c => ¬(c = 'x' ∨ c = 'X') ∧ ¬(c = 'b' ∨ c = 'B')) (by decide)
        (hdigits c hc)
    · rcases hrest c hc with rfl | rfl | rfl | rfl <;> decide
  generalize digits ++ rest = cs at hall
  unfold marked?
  split
  · next c tail =>
    have hc := hall c (by simp)
    simp [hc.1, hc.2]
  · rfl

theorem magnitude_body {cs : List Char} {m : Nat} {rest : List Char}
    (h : magnitude? cs = some (m,rest)) : ∃ body, cs = body ++ rest ∧ Body body m := by
  rw [magnitude?, Option.or_eq_some_iff] at h
  rcases h with h | ⟨-,h⟩
  · exact marked_body h
  · obtain ⟨body,hcs,hdigits,-⟩ := (digits_iff (by decide)).mp h
    exact ⟨body,hcs,.decimal hdigits⟩

theorem Body.magnitude {body : List Char} {m : Nat} (h : Body body m) {rest : List Char}
    (hrest : Gap rest) : magnitude? (body ++ rest) = some (m,rest) := by
  cases h with
  | @hex mark cs _ marked digits =>
    have hread := (digits_iff (by decide)).mpr ⟨cs,rfl,digits,hrest.stops 16⟩
    have hmark : marked? ('0' :: mark :: (cs ++ rest)) = some (m,rest) := by
      rcases marked with rfl | rfl <;> simp [marked?, hread]
    rw [List.cons_append, List.cons_append, magnitude?, hmark, Option.some_or]
  | @binary mark cs _ marked digits =>
    have hread := (digits_iff (by decide)).mpr ⟨cs,rfl,digits,hrest.stops 2⟩
    have hmark : marked? ('0' :: mark :: (cs ++ rest)) = some (m,rest) := by
      rcases marked with rfl | rfl <;> simp [marked?, hread]
    rw [List.cons_append, List.cons_append, magnitude?, hmark, Option.some_or]
  | decimal digits =>
    rw [magnitude?, unmarked digits.decimal hrest, Option.none_or]
    exact (digits_iff (by decide)).mpr ⟨body,rfl,digits,hrest.stops 10⟩

theorem Sign.opener {m : Nat} {sign body : List Char} {n : Int} (hs : Sign m sign n)
    (hb : Body body m) : ∃ c tail, sign ++ body = c :: tail ∧ c ∈ openers := by
  cases hs with
  | none =>
    obtain ⟨c,tail,rfl,hc⟩ := hb.cons
    exact ⟨c,tail,rfl,List.mem_of_mem_drop hc⟩
  | plus => exact ⟨_,_,rfl,by decide⟩
  | minus => exact ⟨_,_,rfl,by decide⟩

theorem Sign.magnitude {m : Nat} {sign : List Char} {n : Int} (h : Sign m sign n) :
    n.natAbs = m := by
  cases h <;> simp

theorem signed_body {sign tail rest : List Char} {fault : LiteralFault} {f : Nat → Int} {n : Int}
    (hsign : ∀ m, Sign m sign (f m))
    (h : (match magnitude? tail with
      | some (m,rest) => Except.ok (f m,rest)
      | none => Except.error fault) = .ok (n,rest)) :
    ∃ m body, sign ++ tail = sign ++ body ++ rest ∧ Sign m sign n ∧ Body body m := by
  cases hm : magnitude? tail with
  | none => simp [hm] at h
  | some r =>
    rw [hm] at h
    cases h
    obtain ⟨body,rfl,hbody⟩ := magnitude_body hm
    exact ⟨r.1,body,by simp,hsign r.1,hbody⟩

/-- An integer before a gap is a sign and a body. -/
theorem integer_iff {absent : LiteralFault} {cs : List Char} {n : Int} {rest : List Char}
    (hrest : Gap rest) :
    integer absent cs = .ok (n,rest) ↔
      ∃ sign m body, cs = sign ++ body ++ rest ∧ Sign m sign n ∧ Body body m := by
  constructor
  · intro h
    unfold integer at h
    split at h
    · exact ⟨_,signed_body (fun m => .minus (m := m)) h⟩
    · exact ⟨_,signed_body (fun m => .plus (m := m)) h⟩
    · exact ⟨_,signed_body (fun m => .none (m := m)) h⟩
  · rintro ⟨sign,m,body,rfl,hs,hb⟩
    have hread := hb.magnitude hrest
    cases hs with
    | minus =>
      show integer absent ('-' :: (body ++ rest)) = _
      simp [integer, hread]
    | plus =>
      show integer absent ('+' :: (body ++ rest)) = _
      simp [integer, hread]
    | none =>
      obtain ⟨c,tail,rfl,hc⟩ := hb.cons
      have hunsigned := each_of_all (p := fun c => c ≠ '-' ∧ c ≠ '+') (by decide) hc
      rw [List.nil_append, List.cons_append] at *
      unfold integer
      split
      · next h => exact absurd (List.cons.inj h).1 hunsigned.1
      · next h => exact absurd (List.cons.inj h).1 hunsigned.2
      · rw [hread]

theorem whole_integer_iff {absent : LiteralFault} {cs : List Char} {n : Int} :
    wholeInteger absent cs = .ok n ↔
      ∃ sign m body after, cs = sign ++ body ++ after ∧ Sign m sign n ∧ Body body m ∧ Gap after ∧
        m ≤ largestMagnitude := by
  constructor
  · intro h
    rw [wholeInteger] at h
    cases hread : integer absent cs with
    | error fault => simp [hread, bind, Except.bind] at h
    | ok r =>
      obtain ⟨k,after⟩ := r
      simp only [hread, bind, Except.bind] at h
      split_ifs at h with hafter hrange
      cases h
      have hgap := skip_gaps_nil.mp hafter
      obtain ⟨sign,m,body,hcs,hs,hb⟩ := (integer_iff hgap).mp hread
      rw [hs.magnitude] at hrange
      exact ⟨sign,m,body,after,hcs,hs,hb,hgap,hrange⟩
  · rintro ⟨sign,m,body,after,hcs,hs,hb,hgap,hrange⟩
    have hread : integer absent cs = .ok (n,after) :=
      (integer_iff hgap).mpr ⟨sign,m,body,hcs,hs,hb⟩
    rw [← hs.magnitude] at hrange
    simp [wholeInteger, hread, bind, Except.bind, skip_gaps_nil.mpr hgap, hrange]

theorem spelled_iff {absent : LiteralFault} {cs : List Char} {n : Int} :
    wholeInteger absent (skipGaps cs) = .ok n ↔ ∃ m, Spelled cs m n ∧ m ≤ largestMagnitude := by
  rw [whole_integer_iff]
  constructor
  · rintro ⟨sign,m,body,after,hcs,hs,hb,hgap,hrange⟩
    obtain ⟨before,hbefore,hgap'⟩ := skip_gaps_split cs
    rw [hcs] at hbefore
    exact ⟨m,⟨before,sign,body,after,by simp [hbefore],hgap',hs,hb,hgap⟩,hrange⟩
  · rintro ⟨m,⟨before,sign,body,after,rfl,hgap',hs,hb,hgap⟩,hrange⟩
    refine ⟨sign,m,body,after,?_,hs,hb,hgap,hrange⟩
    obtain ⟨c,tail,hopens,hc⟩ := hs.opener hb
    rw [List.append_assoc, List.append_assoc, ← List.append_assoc sign, hopens]
    apply skip_gaps_append hgap'
    rintro _ ⟨⟩
    exact each_of_all (p := fun c => ¬isGap c) (by decide) hc

theorem parse_integer_iff {text : String} {n : Int} :
    parseInteger text = .ok n ↔ ∃ m, Spelled text.toList m n ∧ m ≤ largestMagnitude :=
  spelled_iff

end ByteGrammar.Literal

namespace ByteGrammar.Quantity

open Literal

theorem keyword_head {k : Char} {keyword cs rest : List Char}
    (h : afterKeyword? (k :: keyword) cs = some rest) :
    ∃ c tail, cs = c :: tail ∧ c.toLower = k := by
  cases cs with
  | nil => cases h
  | cons c tail =>
    rw [afterKeyword?] at h
    split_ifs at h with hk
    exact ⟨c,tail,rfl,eq_of_beq hk⟩

/-- No keyword begins as an integer does. -/
theorem no_keyword {absent : LiteralFault} {k : Char} {keyword cs : List Char} {n : Int}
    (hk : k ∈ ['u', 'r', 'p']) (h : wholeInteger absent cs = .ok n) :
    afterKeyword? (k :: keyword) cs = none := by
  rw [Option.eq_none_iff_forall_ne_some]
  intro rest hkey
  obtain ⟨sign,m,body,after,hcs,hs,hb,-⟩ := whole_integer_iff.mp h
  obtain ⟨c,tail,hopens,hc⟩ := hs.opener hb
  obtain ⟨c',tail',hcs',hlower⟩ := keyword_head hkey
  rw [hcs, hopens] at hcs'
  obtain ⟨rfl,-⟩ := List.cons.inj hcs'
  rw [← hlower] at hk
  exact each_of_all (p := fun c => c.toLower ∉ ['u', 'r', 'p']) (by decide) hc hk

theorem alone_literal {q : Quantity} {rest : List Char} {n : Int}
    (h : alone q rest = .ok (.literal n)) : q.isLiteral := by
  rw [alone] at h
  split_ifs at h
  cases h
  rfl

theorem named_ne_literal {name : List Char} {n : Int} : named name ≠ .ok (.literal n) := by
  intro h
  simp only [named] at h
  split_ifs at h
  cases h

theorem of_int_iff {k n : Int} :
    ofInt k = .ok (.literal n) ↔ k = n ∧ -2 ^ 63 ≤ n ∧ n ≤ 2 ^ 63 - 1 := by
  have hcount : (wordCount 63 : Int) = 2 ^ 63 := rfl
  rw [ofInt, hcount]
  split_ifs with hrange
  · simp only [Except.ok.injEq, literal.injEq]
    omega
  · simp only [false_iff]
    omega

theorem parse_literal_iff {text : String} {n : Int} :
    parse text = .ok (.literal n) ↔
      parseInteger text = .ok n ∧ -2 ^ 63 ≤ n ∧ n ≤ 2 ^ 63 - 1 := by
  simp only [parse]
  constructor
  · intro h
    split at h
    · cases alone_literal h
    · split at h
      · cases alone_literal h
      · split at h
        · exact absurd h named_ne_literal
        · cases hw : wholeInteger (if (skipGaps text.toList).length = text.toList.length then
              LiteralFault.noQuantity else .noForm) (skipGaps text.toList) with
          | error fault => simp [hw, bind, Except.bind] at h
          | ok k =>
            simp only [hw, bind, Except.bind] at h
            obtain ⟨rfl,hrange⟩ := of_int_iff.mp h
            exact ⟨parse_integer_iff.mpr (spelled_iff.mp hw),hrange⟩
  · rintro ⟨h,hrange⟩
    -- the fault for a missing integer depends on the leading gap, what is read does not
    have hu : "unlimited".toList = 'u' :: "nlimited".toList := by decide
    have hr : "remaining".toList = 'r' :: "emaining".toList := by decide
    have hp : "prev.".toList = 'p' :: "rev.".toList := by decide
    have hread : ∀ absent, wholeInteger absent (skipGaps text.toList) = .ok n :=
      fun absent => spelled_iff.mpr (parse_integer_iff.mp h)
    have hnone : ∀ k ∈ ['u', 'r', 'p'], ∀ keyword,
        afterKeyword? (k :: keyword) (skipGaps text.toList) = none :=
      fun k hk keyword => no_keyword hk (hread .noInteger)
    rw [hu, hr, hp, hnone 'u' (by decide), hnone 'r' (by decide), hnone 'p' (by decide)]
    simp only [hread, bind, Except.bind]
    exact of_int_iff.mpr ⟨rfl,hrange⟩

/-- The texts that are read as integers are those that are spelled as one of a magnitude of 127
bits, and the literals among the quantities are those of them that a signed word of 64 bits
holds. -/
theorem integers_as_spelled (text : String) (n : Int) :
    (parseInteger text = .ok n ↔ ∃ m, Spelled text.toList m n ∧ m ≤ 2 ^ 127 - 1) ∧
    (parse text = .ok (.literal n) ↔
      parseInteger text = .ok n ∧ -2 ^ 63 ≤ n ∧ n ≤ 2 ^ 63 - 1) :=
  ⟨parse_integer_iff,parse_literal_iff⟩

end ByteGrammar.Quantity
