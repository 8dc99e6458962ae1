import ByteGrammar.Value.Shape

/-!
# Trees of values

The nodes of a value in depth-first order, and what the checks of a value mean: children that
follow each other from the start of their parent to its end. Where this holds of every node, the
leaves of the whole tree follow each other in the same way.
-/

set_option autoImplicit false

namespace ByteGrammar.Value

def Tiles (place : Nat) : List Value → Nat → Prop
  | [], stop => place = stop
  | v :: rest, stop => v.offset = place ∧ Tiles v.finish rest stop

def leaves (v : Value) : List Value := v.preorder.filter fun w => w.children.isEmpty

def Tiled (v : Value) : Prop :=
  ∀ w ∈ v.preorder, w.children = [] ∨ Tiles w.offset w.children w.finish

theorem tree_induct {P : Value → Prop} (node : ∀ v, (∀ w ∈ v.children, P w) → P v) (v : Value) :
    P v :=
  @Value.rec P (fun values => ∀ w ∈ values, P w)
    (fun element offset length order matched children ih =>
      node ⟨element,offset,length,order,matched,children⟩ ih)
    nofun
    (fun v values hv hvalues => by
      intro w hw
      rcases List.mem_cons.mp hw with rfl | hw
      · exact hv
      · exact hvalues w hw)
    v

theorem visit_all_eq (descend : Value → Nat → Bool) (depth : Nat) (values : List Value) :
    visitAll descend depth values = values.flatMap (visit descend depth) := by
  induction values with
  | nil => rfl
  | cons v rest ih => rw [visitAll, ih, List.flatMap_cons]

theorem visit_eq (descend : Value → Nat → Bool) (depth : Nat) (v : Value) :
    v.visit descend depth = (v,depth) ::
      (if descend v depth then v.children.flatMap (visit descend (depth + 1)) else []) := by
  cases v
  rw [visit, visit_all_eq]

theorem visit_values (v : Value) (depth : Nat) :
    (v.visit (fun _ _ => true) depth).map Prod.fst = v.preorder := by
  induction v using tree_induct generalizing depth with
  | node v ih =>
    have hall : ∀ d, (v.visit (fun _ _ => true) d).map Prod.fst =
        v :: v.children.flatMap preorder := by
      intro d
      rw [visit_eq, if_pos rfl, List.map_cons, List.map_flatMap]
      congr 1
      simp only [List.flatMap_def]
      congr 1
      exact List.map_congr_left fun w hw => ih w hw (d + 1)
    rw [hall depth, preorder, hall 0]

theorem preorder_eq (v : Value) : v.preorder = v :: v.children.flatMap preorder := by
  rw [preorder, visit_eq, if_pos rfl, List.map_cons, List.map_flatMap]
  congr 1
  simp only [List.flatMap_def]
  congr 1
  exact List.map_congr_left fun w _ => visit_values w 1

theorem self_mem_preorder (v : Value) : v ∈ v.preorder := by
  rw [preorder_eq]
  exact List.mem_cons_self

theorem mem_preorder {v w : Value} :
    w ∈ v.preorder ↔ w = v ∨ ∃ child ∈ v.children, w ∈ child.preorder := by
  rw [preorder_eq, List.mem_cons, List.mem_flatMap]

theorem forall_preorder {P : Value → Prop} {v : Value} :
    (∀ w ∈ v.preorder, P w) ↔ P v ∧ ∀ child ∈ v.children, ∀ w ∈ child.preorder, P w := by
  rw [preorder_eq, List.forall_mem_cons, List.forall_mem_flatMap]

theorem forall_preorder_leaf {P : Value → Prop} {v : Value} (hv : P v) (hc : v.children = []) :
    ∀ w ∈ v.preorder, P w := by
  rw [forall_preorder, hc]
  exact ⟨hv,List.forall_mem_nil _⟩

theorem tiles_append {a b c : Nat} {vs ws : List Value} (hv : Tiles a vs b) (hw : Tiles b ws c) :
    Tiles a (vs ++ ws) c := by
  induction vs generalizing a with
  | nil => exact hv ▸ hw
  | cons v rest ih => exact ⟨hv.1,ih hv.2⟩

theorem tiles_snoc {a b : Nat} {vs : List Value} {v : Value} (hv : Tiles a vs b)
    (ho : v.offset = b) : Tiles a (vs ++ [v]) v.finish := tiles_append hv ⟨ho,rfl⟩

@[simp] theorem total_length_nil : totalLength [] = 0 := rfl

@[simp] theorem total_length_cons (v : Value) (vs : List Value) :
    totalLength (v :: vs) = v.length + totalLength vs := rfl

@[simp] theorem total_length_append (vs ws : List Value) :
    totalLength (vs ++ ws) = totalLength vs + totalLength ws := by
  induction vs with
  | nil => simp
  | cons v vs ih => simp [ih, Nat.add_assoc]

theorem tiles_length {a b : Nat} {vs : List Value} (h : Tiles a vs b) :
    a + totalLength vs = b := by
  induction vs generalizing a with
  | nil => exact h
  | cons v rest ih =>
    have hrest := ih h.2
    have ho := h.1
    simp only [total_length_cons, finish] at *
    omega

/-- Values that follow each other lie in the range that they fill. -/
theorem tiles_within {a b : Nat} {vs : List Value} (h : Tiles a vs b) :
    ∀ v ∈ vs, a ≤ v.offset ∧ v.finish ≤ b := by
  induction vs generalizing a with
  | nil => exact List.forall_mem_nil _
  | cons v rest ih =>
    obtain ⟨ho,hrest⟩ := h
    have hlength := tiles_length hrest
    refine List.forall_mem_cons.mpr ⟨⟨Nat.le_of_eq ho.symm,by omega⟩,fun w hw => ?_⟩
    obtain ⟨hstart,hstop⟩ := ih hrest w hw
    exact ⟨by simp only [finish] at *; omega,hstop⟩

theorem tiles_flatMap {a b : Nat} {vs : List Value} {f : Value → List Value}
    (hf : ∀ v ∈ vs, Tiles v.offset (f v) v.finish) (h : Tiles a vs b) :
    Tiles a (vs.flatMap f) b := by
  induction vs generalizing a with
  | nil => exact h
  | cons v rest ih =>
    rw [List.flatMap_cons]
    have hv := hf v List.mem_cons_self
    rw [h.1] at hv
    exact tiles_append hv (ih (fun w hw => hf w (List.mem_cons_of_mem v hw)) h.2)

theorem tiled_eq {v : Value} :
    v.Tiled ↔ (v.children = [] ∨ Tiles v.offset v.children v.finish) ∧
      ∀ w ∈ v.children, w.Tiled := forall_preorder

/-- Where children fill their parents, the leaves fill the whole tree. -/
theorem leaves_tile {v : Value} (h : v.Tiled) : Tiles v.offset v.leaves v.finish := by
  induction v using tree_induct with
  | node v ih =>
    obtain ⟨hv,hc⟩ := tiled_eq.mp h
    rw [leaves, preorder_eq, List.filter_cons, List.filter_flatMap]
    rcases hv with hv | hv
    · rw [hv]
      exact ⟨rfl,rfl⟩
    · by_cases he : v.children.isEmpty
      · rw [if_pos he, List.isEmpty_iff.mp he]
        exact ⟨rfl,rfl⟩
      · rw [if_neg he]
        exact tiles_flatMap (fun w hw => ih w hw (hc w hw)) hv

theorem check_children_ok (v : Value) (place stop : Nat) (children : List Value) :
    v.checkChildren place children = .ok stop ↔ Tiles place children stop := by
  induction children generalizing place with
  | nil => simp [checkChildren, Tiles]
  | cons child rest ih =>
    rw [checkChildren, Tiles, finish]
    by_cases ho : child.offset = place
    · rw [if_pos ho, ih, ho]
      exact ⟨fun h => ⟨rfl,h⟩,fun h => h.2⟩
    · rw [if_neg ho]
      exact ⟨nofun,fun h => absurd h.1 ho⟩

theorem check_ok {g : Resolved} {v : Value} :
    v.check g = .ok () ↔ (g.element? v.element).isSome ∧
      (v.children = [] ∨
        (g.kind v.element).isComposite ∧ Tiles v.offset v.children v.finish) := by
  unfold check
  cases he : g.element? v.element with
  | none => simp
  | some e =>
    have hk : g.kind v.element = e.kind := by
      simp only [Resolved.element?] at he
      simp [Resolved.kind, Resolved.element, Grammar.element, he]
    dsimp only
    rw [hk]
    by_cases hc : v.children.isEmpty
    · rw [if_pos hc]
      exact ⟨fun _ => ⟨rfl,.inl (List.isEmpty_iff.mp hc)⟩,fun _ => rfl⟩
    · have hne : v.children ≠ [] := fun h => hc (List.isEmpty_iff.mpr h)
      rw [if_neg hc]
      by_cases hcomp : e.kind.isComposite
      · rw [if_pos hcomp]
        cases hch : v.checkChildren v.offset v.children with
        | error fault =>
          refine ⟨nofun,fun h => ?_⟩
          have ht := (check_children_ok v _ _ _).mpr ((h.2.resolve_left hne).2)
          rw [hch] at ht
          cases ht
        | ok place =>
          have ht := (check_children_ok v _ _ _).mp hch
          dsimp only
          by_cases hp : place = v.finish
          · rw [if_pos hp]
            exact ⟨fun _ => ⟨rfl,.inr ⟨hcomp,hp ▸ ht⟩⟩,fun _ => rfl⟩
          · rw [if_neg hp]
            refine ⟨nofun,fun h => absurd ?_ hp⟩
            rw [← tiles_length ht, ← tiles_length (h.2.resolve_left hne).2]
      · rw [if_neg hcomp]
        exact ⟨nofun,fun h => absurd (h.2.resolve_left hne).1 hcomp⟩

theorem validate_all_ok {g : Resolved} {values : List Value} :
    validateAll g values = .ok () ↔ ∀ v ∈ values, v.validate g = .ok () := by
  induction values with
  | nil => simp [validateAll]
  | cons v rest ih =>
    rw [validateAll, List.forall_mem_cons, ← ih]
    cases v.validate g with
    | error fault => exact ⟨nofun,fun h => nomatch h.1⟩
    | ok _ => exact ⟨fun h => ⟨rfl,h⟩,fun h => h.2⟩

theorem validate_ok {g : Resolved} {v : Value} :
    v.validate g = .ok () ↔ ∀ w ∈ v.preorder, w.check g = .ok () := by
  induction v using tree_induct with
  | node v ih =>
    have hv : v.validate g = .ok () ↔
        v.check g = .ok () ∧ ∀ w ∈ v.children, w.validate g = .ok () := by
      rw [← validate_all_ok]
      cases v with
      | mk element offset length order matched children =>
        rw [validate]
        cases check g ⟨element,offset,length,order,matched,children⟩ with
        | error fault => exact ⟨nofun,fun h => nomatch h.1⟩
        | ok _ => exact ⟨fun h => ⟨rfl,h⟩,fun h => h.2⟩
    rw [hv, forall_preorder]
    exact and_congr_right fun _ => forall₂_congr ih

end ByteGrammar.Value
