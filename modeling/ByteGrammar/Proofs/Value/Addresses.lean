import Mathlib.Data.List.Lex
import Mathlib.Data.List.Nodup
import ByteGrammar.Proofs.Value.Tree

/-!
# Addresses of nodes

A node of a tree has an address: the positions among their siblings of the nodes that lead to it
from the root. The addresses of a tree, listed depth first, are in lexicographic order, so every
node has exactly one place in the list.
-/

set_option autoImplicit false

namespace ByteGrammar.Value

def below? : List Nat → Value → Option Value
  | [], v => some v
  | i :: path, v => v.children[i]?.bind (below? path)

mutual

def addressedFrom (path : List Nat) : Value → List (List Nat × Value)
  | ⟨element, offset, length, order, matched, children⟩ =>
    (path, ⟨element, offset, length, order, matched, children⟩) :: addressedAll path 0 children

def addressedAll (path : List Nat) (position : Nat) : List Value → List (List Nat × Value)
  | [] => []
  | v :: rest => addressedFrom (path ++ [position]) v ++ addressedAll path (position + 1) rest

end

def addressed (v : Value) : List (List Nat × Value) := v.addressedFrom []

theorem addressed_from_eq (path : List Nat) (v : Value) :
    v.addressedFrom path = (path,v) :: addressedAll path 0 v.children := by
  cases v
  rw [addressedFrom]

theorem addressed_from_visit (path : List Nat) (v : Value) :
    (v.addressedFrom path).map (fun node => (node.2,node.1.length)) =
      v.visit (fun _ _ => true) path.length := by
  induction v using tree_induct generalizing path with
  | node v ih =>
    have hall : ∀ values position, (∀ w ∈ values, w ∈ v.children) →
        (addressedAll path position values).map (fun node => (node.2,node.1.length)) =
          values.flatMap (visit (fun _ _ => true) (path.length + 1)) := by
      intro values
      induction values with
      | nil => simp [addressedAll]
      | cons w rest more =>
        intro position hmem
        obtain ⟨hw,hrest⟩ := List.forall_mem_cons.mp hmem
        simp [addressedAll, ih w hw, more (position + 1) hrest]
    rw [addressed_from_eq, visit_eq, if_pos rfl, List.map_cons, hall v.children 0 fun w hw => hw]

theorem addressed_outline (v : Value) :
    v.addressed.map (fun node => (node.2,node.1.length)) = v.outline none :=
  addressed_from_visit [] v

theorem mem_addressed_all {path address : List Nat} {values : List Value} {w : Value}
    (h : ∀ v ∈ values, ∀ path, (address,w) ∈ v.addressedFrom path ↔
      ∃ steps, address = path ++ steps ∧ v.below? steps = some w) (position : Nat) :
    (address,w) ∈ addressedAll path position values ↔
      ∃ i child steps, values[i]? = some child ∧ address = path ++ (position + i) :: steps ∧
        child.below? steps = some w := by
  induction values generalizing position with
  | nil => simp [addressedAll]
  | cons v rest ih =>
    obtain ⟨hv,hrest⟩ := List.forall_mem_cons.mp h
    rw [addressedAll, List.mem_append, hv, ih hrest]
    constructor
    · rintro (⟨steps,rfl,hw⟩ | ⟨i,child,steps,hi,rfl,hw⟩)
      · exact ⟨0,v,steps,rfl,by simp,hw⟩
      · exact ⟨i + 1,child,steps,hi,by simp; omega,hw⟩
    · rintro ⟨i,child,steps,hi,rfl,hw⟩
      cases i with
      | zero =>
        cases hi
        exact .inl ⟨steps,by simp,hw⟩
      | succ i => exact .inr ⟨i,child,steps,hi,by simp; omega,hw⟩

theorem mem_addressed_from {path address : List Nat} {v w : Value} :
    (address,w) ∈ v.addressedFrom path ↔
      ∃ steps, address = path ++ steps ∧ v.below? steps = some w := by
  induction v using tree_induct generalizing path with
  | node v ih =>
    rw [addressed_from_eq, List.mem_cons, mem_addressed_all fun u hu path => ih u hu]
    constructor
    · rintro (heq | ⟨i,child,steps,hi,rfl,hw⟩)
      · cases heq
        exact ⟨[],by simp,rfl⟩
      · exact ⟨i :: steps,by simp,by simp [below?, hi, hw]⟩
    · rintro ⟨steps,rfl,hw⟩
      cases steps with
      | nil =>
        cases hw
        exact .inl (by simp)
      | cons i steps =>
        obtain ⟨child,hi,hw⟩ := Option.bind_eq_some_iff.mp hw
        exact .inr ⟨i,child,steps,hi,by simp,hw⟩

/-- The nodes that are listed are those that some positions lead to. -/
theorem mem_addressed {path : List Nat} {v w : Value} :
    (path,w) ∈ v.addressed ↔ v.below? path = some w := by
  simp [addressed, mem_addressed_from]

theorem below_append {path more : List Nat} {v w : Value} :
    v.below? (path ++ more) = some w ↔
      ∃ u, v.below? path = some u ∧ u.below? more = some w := by
  induction path generalizing v with
  | nil => simp [below?]
  | cons i path ih =>
    simp only [List.cons_append, below?, Option.bind_eq_some_iff, ih]
    grind

theorem below_concat {path : List Nat} {i : Nat} {v w : Value} :
    v.below? (path ++ [i]) = some w ↔
      ∃ parent, v.below? path = some parent ∧ parent.children[i]? = some w := by
  simp [below_append, below?]

theorem addressed_all_sorted {path : List Nat} {values : List Value}
    (h : ∀ v ∈ values, ∀ path, ((v.addressedFrom path).map Prod.fst).Pairwise (· < ·))
    (position : Nat) : ((addressedAll path position values).map Prod.fst).Pairwise (· < ·) := by
  induction values generalizing position with
  | nil => simp [addressedAll]
  | cons v rest ih =>
    obtain ⟨hv,hrest⟩ := List.forall_mem_cons.mp h
    rw [addressedAll, List.map_append, List.pairwise_append]
    -- an address in this child and one in a later child part at the position of the child
    refine ⟨hv _,ih hrest _,fun address haddress later hlater => ?_⟩
    obtain ⟨⟨_,u⟩,hu,rfl⟩ := List.mem_map.mp haddress
    obtain ⟨⟨_,w⟩,hw,rfl⟩ := List.mem_map.mp hlater
    obtain ⟨steps,rfl,-⟩ := mem_addressed_from.mp hu
    obtain ⟨i,child,more,-,rfl,-⟩ :=
      (mem_addressed_all (fun _ _ _ => mem_addressed_from) _).mp hw
    rw [List.append_assoc]
    exact List.Lex.append_left _ (.rel (by omega)) path

/-- Each address stands before those that go on from it or turn to a later child. -/
theorem addressed_from_sorted (path : List Nat) (v : Value) :
    ((v.addressedFrom path).map Prod.fst).Pairwise (· < ·) := by
  induction v using tree_induct generalizing path with
  | node v ih =>
    rw [addressed_from_eq, List.map_cons, List.pairwise_cons]
    refine ⟨fun address haddress => ?_,addressed_all_sorted (fun w hw path => ih w hw path) 0⟩
    obtain ⟨⟨_,w⟩,hw,rfl⟩ := List.mem_map.mp haddress
    obtain ⟨i,child,steps,-,rfl,-⟩ :=
      (mem_addressed_all (fun _ _ _ => mem_addressed_from) _).mp hw
    simpa using List.Lex.append_left (· < ·) (List.Lex.nil (a := i) (l := steps)) path

theorem addressed_once {path : List Nat} {v w : Value} (h : v.below? path = some w) :
    ∃! k : Nat, v.addressed[k]? = some (path,w) := by
  have hnodup : v.addressed.Nodup :=
    List.Nodup.of_map Prod.fst ((addressed_from_sorted [] v).imp fun hlt => ne_of_lt hlt)
  obtain ⟨k,hk⟩ := List.mem_iff_getElem?.mp (mem_addressed.mpr h)
  obtain ⟨hlt,-⟩ := List.getElem?_eq_some_iff.mp hk
  exact ⟨k,hk,fun j hj => ((List.getElem?_inj hlt hnodup).mp (hk.trans hj.symm)).symm⟩

end ByteGrammar.Value
