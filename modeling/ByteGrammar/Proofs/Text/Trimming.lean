import Mathlib.Data.List.DropRight
import ByteGrammar.Text.Characters

/-!
# Trimming

What is left of a text without the blanks around it, stated apart from the trimming: it begins and
ends with a character that is not blank, and only blanks stand before and behind it. A text that is
not all blank is trimmed to just that.
-/

set_option autoImplicit false

namespace ByteGrammar.Text

theorem drop_while_append {p : Char → Bool} {before cs : List Char}
    (hbefore : ∀ c ∈ before, p c) (hcs : ∀ c ∈ cs.head?, ¬p c) :
    (before ++ cs).dropWhile p = cs := by
  rw [List.dropWhile_append_of_pos hbefore]
  cases cs with
  | nil => rfl
  | cons c cs => exact List.dropWhile_cons_of_neg (hcs c rfl)

structure Bare (cs : List Char) : Prop where
  ne_nil : cs ≠ []
  first : ∀ c ∈ cs.head?, ¬isBlank c
  last : ∀ c ∈ cs.getLast?, ¬isBlank c

def Trims (cs core : List Char) : Prop :=
  ∃ before after, cs = before ++ core ++ after ∧ (∀ c ∈ before, isBlank c) ∧ Bare core ∧
    ∀ c ∈ after, isBlank c

variable {cs core : List Char}

theorem Bare.trims (h : Bare cs) : Trims cs cs := ⟨[],[],by simp,nofun,h,nofun⟩

theorem Trims.bare (h : Trims cs core) : Bare core := by
  obtain ⟨-,-,-,-,hcore,-⟩ := h
  exact hcore

theorem Trims.ne_nil (h : Trims cs core) : cs ≠ [] := by
  obtain ⟨before,after,rfl,-,hcore,-⟩ := h
  simp [hcore.ne_nil]

theorem Trims.trimmed (h : Trims cs core) : trimmed cs = core := by
  obtain ⟨before,after,rfl,hbefore,hcore,hafter⟩ := h
  have hleft : trimLeft (before ++ core ++ after) = core ++ after := by
    rw [List.append_assoc]
    refine drop_while_append hbefore ?_
    rw [List.head?_append_of_ne_nil _ hcore.ne_nil]
    exact hcore.first
  have hright : trimRight (core ++ after) = core := by
    rw [trimRight, List.reverse_append, drop_while_append, List.reverse_reverse]
    · simpa using hafter
    · simpa using hcore.last
  rw [Text.trimmed, hleft, hright]

theorem trimmed_nil : trimmed cs = [] ↔ ∀ c ∈ cs, isBlank c := by
  have hright : trimmed cs = [] ↔ ∀ c ∈ trimLeft cs, isBlank c := List.rdropWhile_eq_nil_iff
  have hsplit : cs = cs.takeWhile isBlank ++ trimLeft cs := List.takeWhile_append_dropWhile.symm
  rw [hright]
  constructor
  · intro h c hc
    rw [hsplit, List.mem_append] at hc
    exact hc.elim List.mem_takeWhile_imp (h c)
  · intro h c hc
    exact h c ((List.dropWhile_suffix _).subset hc)

theorem trims_trimmed (h : trimmed cs ≠ []) : Trims cs (trimmed cs) := by
  have hleft : cs = cs.takeWhile isBlank ++ trimLeft cs := List.takeWhile_append_dropWhile.symm
  have hright : trimLeft cs = trimmed cs ++ (trimLeft cs).rtakeWhile isBlank :=
    List.rdropWhile_append_rtakeWhile.symm
  refine ⟨cs.takeWhile isBlank,(trimLeft cs).rtakeWhile isBlank,?_,fun c => List.mem_takeWhile_imp,
    ⟨h,?_,?_⟩,fun c => List.mem_rtakeWhile_imp⟩
  · rw [List.append_assoc, ← hright, ← hleft]
  · intro c hc
    have hfirst : c ∈ (trimLeft cs).head? := by
      rwa [hright, List.head?_append_of_ne_nil _ h]
    have hnot := List.head?_dropWhile_not isBlank cs
    rw [← trimLeft, Option.mem_def.mp hfirst] at hnot
    simpa using hnot
  · intro c hc
    have hnot : ¬isBlank ((trimmed cs).getLast h) :=
      List.rdropWhile_last_not isBlank (trimLeft cs) h
    rwa [List.getLast_of_mem_getLast? hc] at hnot

end ByteGrammar.Text
