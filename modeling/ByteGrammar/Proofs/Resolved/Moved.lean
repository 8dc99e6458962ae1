import ByteGrammar.Proofs.Resolved.Derived

/-!
# Attributes of elements in other places

The same elements, linked in the same way, may stand in other places of another grammar. As long as
the two searches for attributes turn to the same elements in the same order, they know the same,
also where an element comes back to itself and its attributes are cut short.
-/

set_option autoImplicit false

namespace ByteGrammar

def Attributes.moved (ρ : Nat → Nat) (a : Attributes) : Attributes :=
  { a with
    parent := a.parent.map ρ
    base := a.base.map ρ
    target := a.target.map ρ
    valuesFrom := ρ a.valuesFrom }

def Progress.map {α β : Type} (f : α → β) : Progress α → Progress β
  | .pending => .pending
  | .underway => .underway
  | .done result => .done (f result)

namespace Links

structure Moves (ρ : Nat → Nat) (l l' : Links) : Prop where
  injective : Function.Injective ρ
  element : ∀ id, l'.grammar.element (ρ id) = l.grammar.element id
  base : ∀ id, l'.base? (ρ id) = (l.base? id).map ρ
  parent : ∀ id, l'.parent? (ρ id) = (l.parent? id).map ρ

def Copied (ρ : Nat → Nat) (known known' : Known) : Prop :=
  ∀ i : Nat, known'[ρ i]? = known[i]?.map (Progress.map (Attributes.moved ρ))

def SearchesAlike (ρ : Nat → Nat) (l : Links) (depth : Nat)
    (search search' : ElementId → StateM Known Attributes) : Prop :=
  ∀ (id : Nat) (known known' : Known), known.size = l.grammar.size →
    (pendings known).card < depth → Copied ρ known known' →
    (search' (ρ id) known').1 = (search id known).1.moved ρ ∧
      Copied ρ (search id known).2 (search' (ρ id) known').2 ∧
      Progressed known (search id known).2

theorem any_handed (l : Links) : Handed l (fun _ _ => True) fun _ _ _ => True where
  base := fun _ => trivial
  parent := fun _ => trivial
  settled := fun _ _ _ => trivial
  outside := fun _ => trivial
  kept := fun _ _ => trivial

theorem worked_any {l : Links} {known : Known} (h : known.size = l.grammar.size) :
    Worked l (fun _ _ _ => True) known := ⟨h,fun _ => trivial⟩

theorem attributes_progress {l : Links} {known : Known} {depth : Nat}
    (hsize : known.size = l.grammar.size) (hdepth : (pendings known).card < depth) (id : Nat) :
    Progressed known (l.attributesOf depth id known).2 ∧
      id ∉ pendings (l.attributesOf depth id known).2 :=
  let h := attributes_of_works (any_handed l) depth id known (worked_any hsize)
    (fun _ _ => .single trivial) hdepth
  ⟨h.progressed,h.met⟩

section
variable {ρ : Nat → Nat} {l l' : Links} {known known' : Known}

theorem Copied.marked (h : Copied ρ known known') (hρ : Function.Injective ρ) {id : Nat}
    (hid : id < known.size) (progress : Progress Attributes) :
    Copied ρ (known.setIfInBounds id progress)
      (known'.setIfInBounds (ρ id) (progress.map (Attributes.moved ρ))) := by
  have hid' : ρ id < known'.size := by
    by_contra hout
    have hnone := h id
    rw [Array.getElem?_eq_none (Nat.le_of_not_lt hout), Array.getElem?_eq_getElem hid] at hnone
    cases hnone
  intro i
  rw [marked_get hid, marked_get hid']
  by_cases hi : id = i
  · rw [if_pos hi, if_pos (congrArg ρ hi)]
    rfl
  · rw [if_neg hi, if_neg (mt (@hρ id i) hi), h i]

theorem Copied.marked_other (h : Copied ρ known known') {other : Nat} (ho : ∀ i, ρ i ≠ other)
    (progress : Progress Attributes) :
    Copied ρ known (known'.setIfInBounds other progress) := by
  intro i
  rw [Array.getElem?_setIfInBounds, if_neg (Ne.symm (ho i))]
  exact h i

theorem Moves.settle (h : Moves ρ l l') (id : Nat) (inherited : Option (ElementId × Attributes))
    (parent : Option Attributes) :
    l'.settle (ρ id) (inherited.map (Prod.map ρ (Attributes.moved ρ)))
      (parent.map (Attributes.moved ρ)) = (l.settle id inherited parent).moved ρ := by
  cases inherited with
  | none =>
    cases parent <;>
      simp [Links.settle, unbased, Settings.within, Attributes.moved, h.element, h.parent]
  | some found =>
    simp [Links.settle, Settings.inheriting, Attributes.moved, h.element, h.parent, apply_ite ρ]

theorem Copied.found {depth : Nat} {search search' : ElementId → StateM Known Attributes}
    (hsearch : SearchesAlike ρ l depth search search') (wanted : Option Nat)
    (hsize : known.size = l.grammar.size) (hdepth : (pendings known).card < depth)
    (hk : Copied ρ known known') :
    (attributesOf? search' (wanted.map ρ) known').1 =
      (attributesOf? search wanted known).1.map (Prod.map ρ (Attributes.moved ρ)) ∧
    Copied ρ (attributesOf? search wanted known).2 (attributesOf? search' (wanted.map ρ) known').2 ∧
    Progressed known (attributesOf? search wanted known).2 := by
  cases wanted with
  | none => exact ⟨rfl,hk,Progressed.refl _⟩
  | some i =>
    obtain ⟨hsame,hcopied,hprogressed⟩ := hsearch i known known' hsize hdepth hk
    exact ⟨congrArg (fun a => some (ρ i,a)) hsame,hcopied,hprogressed⟩

/-- To whatever depth they go, the two searches find the same. -/
theorem Moves.attributes_of (h : Moves ρ l l') {depth depth' : Nat} (hle : depth ≤ depth') :
    SearchesAlike ρ l depth (l.attributesOf depth) (l'.attributesOf depth') := by
  -- Each call marks an element, so that what is pending becomes less with the depth.
  induction depth generalizing depth' with
  | zero => exact fun _ _ _ _ hdepth => absurd hdepth (Nat.not_lt_zero _)
  | succ depth ih =>
    intro id known known' hsize hdepth hk
    obtain ⟨depth',rfl⟩ : ∃ more, depth' = more + 1 := ⟨depth' - 1,by omega⟩
    have hsearch := ih (Nat.le_of_succ_le_succ hle)
    have hprogress := (attributes_progress hsize hdepth id).1
    have hcut : l'.unbased (ρ id) none = (l.unbased id none).moved ρ := h.settle id none none
    rw [← and_assoc]
    refine ⟨?_,hprogress⟩
    rw [attributes_of_run, attributes_of_run, hk id, h.base, h.parent]
    rcases hid : known[id]? with - | (- | - | a)
    · exact ⟨hcut,hk⟩
    · have hcard : (pendings (known.setIfInBounds id .underway)).card < depth :=
        Nat.lt_of_lt_of_le (underway_card hid) (Nat.le_of_lt_succ hdepth)
      have hend : id < (known.setIfInBounds id .underway).size := by
        rw [Array.size_setIfInBounds]
        exact pending_lt hid
      obtain ⟨hinherited,hk₁,hp₁⟩ := (hk.marked h.injective (pending_lt hid) .underway).found
        hsearch (l.base? id) (by rw [Array.size_setIfInBounds, hsize]) hcard
      obtain ⟨hparent,hk₂,hp₂⟩ := hk₁.found hsearch (l.parent? id)
        (by rw [hp₁.size, Array.size_setIfInBounds, hsize]) (hp₁.card_lt hcard)
      simp only [Option.map_some, Progress.map] at hinherited hk₁ hparent hk₂ ⊢
      generalize attributesOf? (l.attributesOf depth) (l.base? id)
        (known.setIfInBounds id .underway) = inherited at *
      generalize attributesOf? (l'.attributesOf depth') ((l.base? id).map ρ)
        (known'.setIfInBounds (ρ id) .underway) = inherited' at *
      generalize attributesOf? (l.attributesOf depth) (l.parent? id) inherited.2 = parent at *
      generalize attributesOf? (l'.attributesOf depth') ((l.parent? id).map ρ) inherited'.2 =
        parent' at *
      have hsettled : l'.settle (ρ id) inherited'.1 (parent'.1.map Prod.snd) =
          (l.settle id inherited.1 (parent.1.map Prod.snd)).moved ρ := by
        rw [hinherited, hparent, ← h.settle, Option.map_map, Option.map_map]
        rfl
      rw [← hp₁.size, ← hp₂.size] at hend
      rw [hsettled]
      exact ⟨rfl,hk₂.marked h.injective hend (.done _)⟩
    · exact ⟨hcut,hk⟩
    · exact ⟨rfl,hk⟩

/-- An element outside of the first grammar is worked out without a mark on any inside, if it has
no base and its structure is known. -/
theorem Copied.beside (hk : Copied ρ known known') {other s : Nat} (ho : ∀ i, ρ i ≠ other)
    (hbase : l'.base? other = none) (hparent : l'.parent? other = some (ρ s))
    (hs : ∃ a, known[s]? = some (.done a)) (depth : Nat) :
    Copied ρ known (l'.attributesOf (depth + 2) other known').2 := by
  obtain ⟨a,ha⟩ := hs
  rw [attributes_of_run, hbase, hparent]
  rcases known'[other]? with - | (- | - | b)
  · exact hk
  · have hmarked := hk.marked_other ho .underway
    have hknown := hmarked s
    rw [ha] at hknown
    simp only [attributesOf?, attributes_of_run l' depth, hknown, Option.map_some, Progress.map]
    exact hmarked.marked_other ho _
  · exact hk
  · exact hk

def workThrough (l : Links) (order : List ElementId) (known : Known) : List Attributes × Known :=
  order.mapM (fun id => l.attributesOf (l.grammar.size + 1) id) known

theorem work_through_cons (l : Links) (id : ElementId) (rest : List ElementId) (known : Known) :
    l.workThrough (id :: rest) known =
      ((l.attributesOf (l.grammar.size + 1) id known).1 ::
        (l.workThrough rest (l.attributesOf (l.grammar.size + 1) id known).2).1,
        (l.workThrough rest (l.attributesOf (l.grammar.size + 1) id known).2).2) := by
  rw [workThrough, List.mapM_cons]
  rfl

theorem work_through_append (l : Links) (front back : List ElementId) (known : Known) :
    l.workThrough (front ++ back) known =
      ((l.workThrough front known).1 ++ (l.workThrough back (l.workThrough front known).2).1,
        (l.workThrough back (l.workThrough front known).2).2) := by
  induction front generalizing known with
  | nil => rfl
  | cons id rest ih => rw [List.cons_append, work_through_cons, work_through_cons, ih]; rfl

/-- In the same order the attributes are worked out alike, and those of no element of the order are
pending then. -/
theorem Moves.work_through (h : Moves ρ l l') (hle : l.grammar.size ≤ l'.grammar.size)
    (order : List ElementId) (hsize : known.size = l.grammar.size) (hk : Copied ρ known known') :
    (l'.workThrough (order.map ρ) known').1 =
        (l.workThrough order known).1.map (Attributes.moved ρ) ∧
      Copied ρ (l.workThrough order known).2 (l'.workThrough (order.map ρ) known').2 ∧
      Progressed known (l.workThrough order known).2 ∧
      ∀ id ∈ order, id ∉ pendings (l.workThrough order known).2 := by
  induction order generalizing known known' with
  | nil => exact ⟨rfl,hk,Progressed.refl _,nofun⟩
  | cons id rest ih =>
    have hdepth := Nat.lt_succ_of_le (hsize ▸ pendings_card_le known)
    obtain ⟨hsame,hk₁,hp₁⟩ :=
      h.attributes_of (Nat.succ_le_succ hle) id known known' hsize hdepth hk
    have hmet := (attributes_progress hsize hdepth id).2
    obtain ⟨hrest,hk₂,hp₂,hall⟩ := ih (hp₁.size.trans hsize) hk₁
    rw [List.map_cons, work_through_cons, work_through_cons, hsame, hrest]
    refine ⟨rfl,hk₂,hp₁.trans hp₂,fun i hi => ?_⟩
    rcases List.mem_cons.mp hi with rfl | hi
    · exact fun hpending => hmet (hp₂.pending hpending)
    · exact hall i hi

theorem Moves.attributes_beside (h : Moves ρ l l') {front back : List Nat} {other s : Nat}
    (horder : List.range l.grammar.size = front ++ back)
    (horder' : List.range l'.grammar.size = front.map ρ ++ other :: back.map ρ)
    (ho : ∀ i, ρ i ≠ other) (hbase : l'.base? other = none)
    (hparent : l'.parent? other = some (ρ s)) (hs : s ∈ front) :
    ∃ xs ys a, xs.length = front.length ∧ l.attributes = xs ++ ys ∧
      l'.attributes = xs.map (Attributes.moved ρ) ++ a :: ys.map (Attributes.moved ρ) := by
  have hlength : l'.grammar.size = l.grammar.size + 1 := by
    rw [← List.length_range (n := l'.grammar.size), horder',
      ← List.length_range (n := l.grammar.size), horder]
    simp
    omega
  have hplace : ∀ i, ρ i < l'.grammar.size ↔ i < l.grammar.size := by
    intro i
    rw [← List.mem_range, horder', ← List.mem_range, horder]
    simp [ho i, h.injective.eq_iff]
  have hstart : Copied ρ l.unknown l'.unknown := by
    intro i
    simp only [unknown, Array.getElem?_replicate, hplace i]
    split <;> rfl
  have hsize : l.unknown.size = l.grammar.size := Array.size_replicate
  have hle : l.grammar.size ≤ l'.grammar.size := by omega
  obtain ⟨hfront,hk₁,hp₁,hmet⟩ := h.work_through hle front hsize hstart
  have hdone : ∃ a, (l.workThrough front l.unknown).2[s]? = some (.done a) := by
    refine done_of_finished ?_ (hmet s hs) fun hunderway => ?_
    · rw [hp₁.size, hsize, ← List.mem_range, horder]
      exact List.mem_append_left _ hs
    · exact absurd (start_pending ((hp₁.underway s).mp hunderway)) nofun
  have hk₂ := hk₁.beside ho hbase hparent hdone l.grammar.size
  obtain ⟨hback,-,-,-⟩ := h.work_through hle back (hp₁.size.trans hsize) hk₂
  have hold : l.attributes = (l.workThrough (front ++ back) l.unknown).1 := by
    rw [attributes_eq, horder]
    rfl
  have hnew : l'.attributes =
      (l'.workThrough (front.map ρ ++ other :: back.map ρ) l'.unknown).1 := by
    rw [attributes_eq, horder']
    rfl
  rw [work_through_append] at hold hnew
  rw [work_through_cons, hfront, hlength, hback] at hnew
  exact ⟨_,_,_,Grammar.map_m_length _ _ _,hold,hnew⟩

end

end Links
end ByteGrammar
