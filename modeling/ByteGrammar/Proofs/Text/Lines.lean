import ByteGrammar.Proofs.Text.Trimming

/-!
# Lines

Texts that are made of lines, each of which is ended by a line feed. If such a text begins with a
character that is not blank and none of its lines is all blank, then trimming takes away the last
line feed and the blanks before it, and leaves every other line as it is.
-/

set_option autoImplicit false

namespace ByteGrammar.Text

def OneLine (text : String) : Prop := '\n' ∉ text.toList

instance : DecidablePred OneLine := fun text => inferInstanceAs (Decidable ('\n' ∉ text.toList))

@[simp] theorem one_line_append (a b : String) : OneLine (a ++ b) ↔ OneLine a ∧ OneLine b := by
  simp [OneLine]

structure Ruled (text : String) (lines : List String) : Prop where
  single : ∀ line ∈ lines, OneLine line
  joined : text = String.join (lines.map (· ++ "\n"))

theorem Ruled.count_feeds {text : String} {lines : List String} (h : Ruled text lines) :
    text.toList.count '\n' = lines.length := by
  obtain ⟨hsingle,rfl⟩ := h
  induction lines with
  | nil => rfl
  | cons line rest ih =>
    obtain ⟨hline,hrest⟩ := List.forall_mem_cons.mp hsingle
    have hnone : line.toList.count '\n' = 0 := List.count_eq_zero.mpr hline
    have hmore := ih hrest
    simp only [String.toList_join] at hmore
    simp [hnone, hmore]

def endRows (rows : List (List Char)) : List Char := rows.flatMap (· ++ ['\n'])

@[simp] theorem end_rows_nil : endRows [] = [] := rfl

@[simp] theorem end_rows_cons (row : List Char) (rows : List (List Char)) :
    endRows (row :: rows) = row ++ '\n' :: endRows rows := by
  simp [endRows]

@[simp] theorem end_rows_append (rows more : List (List Char)) :
    endRows (rows ++ more) = endRows rows ++ endRows more := by
  simp [endRows]

theorem ruled_of_rows {text : String} {rows : List (List Char)} (htext : text.toList = endRows rows)
    (hrows : ∀ row ∈ rows, '\n' ∉ row) : Ruled text (rows.map String.ofList) := by
  constructor
  · intro line hline
    obtain ⟨row,hrow,rfl⟩ := List.mem_map.mp hline
    simpa [OneLine] using hrows row hrow
  · apply String.toList_injective
    simp [htext, endRows, String.toList_join, List.flatMap_map]

section
variable {c : Char} {cs before : List Char}

theorem trim_right_blank (h : isBlank c) : trimRight (cs ++ [c]) = trimRight cs := by
  simp [trimRight, h]

theorem trim_right_cons (h : ¬isBlank c) : trimRight (c :: cs) = c :: trimRight cs := by
  rw [trimRight, trimRight, List.reverse_cons, List.dropWhile_append]
  split
  · next hempty => simp [List.isEmpty_iff.mp hempty, h]
  · simp

theorem trim_right_append (h : ∃ c ∈ cs, ¬isBlank c) :
    trimRight (before ++ cs) = before ++ trimRight cs := by
  have hsome : ¬(cs.reverse.dropWhile isBlank).isEmpty := by
    rw [List.isEmpty_iff, List.dropWhile_eq_nil_iff]
    simpa using h
  rw [trimRight, List.reverse_append, List.dropWhile_append, if_neg hsome]
  simp [trimRight]

theorem trim_right_subset : trimRight cs ⊆ cs := (List.rdropWhile_prefix isBlank cs).subset

theorem trimmed_subset : trimmed cs ⊆ cs := fun _ hc =>
  (List.dropWhile_suffix isBlank).subset (trim_right_subset hc)

end

def trimLast : List (List Char) → List (List Char)
  | [] => []
  | [row] => [trimRight row]
  | row :: next :: rest => row :: trimLast (next :: rest)

section
variable {α : Type} {R : α → List Char → Prop} {xs : List α} {rows : List (List Char)}

theorem rel_rows {P : List Char → Prop} (h : List.Forall₂ R xs rows)
    (hR : ∀ a row, R a row → P row) : ∀ row ∈ rows, P row := by
  induction h with
  | nil => exact List.forall_mem_nil _
  | cons hrow _ ih => exact List.forall_mem_cons.mpr ⟨hR _ _ hrow,ih⟩

theorem rel_get {k : Nat} {row : List Char} (h : List.Forall₂ R xs rows)
    (hk : rows[k]? = some row) : ∃ a, xs[k]? = some a ∧ R a row := by
  induction h generalizing k with
  | nil => simp at hk
  | cons hrow _ ih =>
    cases k with
    | zero =>
      cases hk
      exact ⟨_,rfl,hrow⟩
    | succ k => exact ih hk

theorem trim_last_rel (hR : ∀ a row, R a row → R a (trimRight row))
    (h : List.Forall₂ R xs rows) : List.Forall₂ R xs (trimLast rows) := by
  induction h with
  | nil => exact .nil
  | cons hrow hrest ih =>
    cases hrest with
    | nil => exact .cons (hR _ _ hrow) .nil
    | cons => exact .cons hrow ih

end

theorem trim_last_cons (row : List Char) (rows : List (List Char)) :
    ∃ first ⊆ row, trimLast (row :: rows) = first :: trimLast rows := by
  cases rows with
  | nil => exact ⟨trimRight row,trim_right_subset,rfl⟩
  | cons next rest => exact ⟨row,List.Subset.refl row,rfl⟩

theorem trim_right_rows {rows : List (List Char)} (hne : rows ≠ [])
    (h : ∀ row ∈ rows, ∃ c ∈ row, ¬isBlank c) :
    trimRight (endRows rows) ++ ['\n'] = endRows (trimLast rows) := by
  induction rows using trimLast.induct with
  | case1 => contradiction
  | case2 row => simp [trimLast, trim_right_blank (show isBlank '\n' by decide)]
  | case3 row next rest ih =>
    -- the next row holds a character that is not blank, so trimming does not reach this one
    obtain ⟨-,hrest⟩ := List.forall_mem_cons.mp h
    obtain ⟨c,hc,hmark⟩ := hrest next List.mem_cons_self
    have hmore : ∃ c ∈ endRows (next :: rest), ¬isBlank c := ⟨c,by simp [hc],hmark⟩
    have hsplit : endRows (row :: next :: rest) = row ++ ['\n'] ++ endRows (next :: rest) := by
      simp
    rw [hsplit, trim_right_append hmore, List.append_assoc, ih (List.cons_ne_nil _ _) hrest,
      trimLast]
    simp

/-- Of a text of lines that begins with no blank, trimming takes only the end of the last line. -/
theorem trimmed_rows {rows : List (List Char)} (hne : rows ≠ [])
    (hfirst : ∀ c ∈ (endRows rows).head?, ¬isBlank c) (h : ∀ row ∈ rows, ∃ c ∈ row, ¬isBlank c) :
    trimmed (endRows rows) ++ ['\n'] = endRows (trimLast rows) := by
  have hleft : trimLeft ([] ++ endRows rows) = endRows rows :=
    drop_while_append (List.forall_mem_nil _) hfirst
  rw [List.nil_append] at hleft
  rw [trimmed, hleft, trim_right_rows hne h]

end ByteGrammar.Text
