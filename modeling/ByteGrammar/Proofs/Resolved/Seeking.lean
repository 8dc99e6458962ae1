import ByteGrammar.Proofs.Resolved.BaseSearch

/-!
# Seeking bases without a bound

The search for bases as it goes if nothing bounds how deep it gets and how far it follows the
bases: what cuts it short are the marks of elements whose bases are being sought, and that no place
is visited twice on the way to a child. Every such search comes to an end, on cyclic bases as well,
and the bounded one comes to the same.
-/

set_option autoImplicit false

namespace ByteGrammar

inductive InOrder {σ α : Type} (R : ElementId → σ → α → σ → Prop) :
    List ElementId → σ → List α → σ → Prop
  | nil {s : σ} : InOrder R [] s [] s
  | cons {id : ElementId} {ids : List ElementId} {s t u : σ} {a : α} {results : List α}
      (first : R id s a t) (others : InOrder R ids t results u) :
      InOrder R (id :: ids) s (a :: results) u

def Settling {σ α : Type} (R : ElementId → σ → α → σ → Prop) : Prop :=
  ∀ ⦃id s a t a' t'⦄, R id s a t → R id s a' t' → a = a' ∧ t = t'

theorem InOrder.unique {σ α : Type} {R : ElementId → σ → α → σ → Prop} (hR : Settling R)
    {ids : List ElementId} {s t t' : σ} {as as' : List α} (h : InOrder R ids s as t)
    (k : InOrder R ids s as' t') : as = as' ∧ t = t' := by
  induction h generalizing as' t' with
  | nil =>
    cases k
    exact ⟨rfl,rfl⟩
  | cons first _ ih =>
    cases k with
    | cons first' others' =>
      obtain ⟨rfl,rfl⟩ := hR first first'
      obtain ⟨rfl,rfl⟩ := ih others'
      exact ⟨rfl,rfl⟩

theorem in_order_goes {σ α : Type} {R : ElementId → σ → α → σ → Prop} {I : σ → Prop}
    (hR : ∀ id s, I s → ∃ a t, R id s a t ∧ I t) (ids : List ElementId) {s : σ} (hs : I s) :
    ∃ as t, InOrder R ids s as t ∧ I t := by
  induction ids generalizing s with
  | nil => exact ⟨[],s,.nil,hs⟩
  | cons id rest ih =>
    obtain ⟨a,t,hfirst,ht⟩ := hR id s hs
    obtain ⟨as,u,hothers,hu⟩ := ih ht
    exact ⟨a :: as,u,.cons hfirst hothers,hu⟩

section
variable {σ α : Type} {R : ElementId → σ → α → σ → Prop} {I : σ → Prop}
  {f : ElementId → StateM σ α}
  (hf : ∀ id s, I s → R id s (f id s).1 (f id s).2 ∧ I (f id s).2)

include hf

theorem map_m_in_order (ids : List ElementId) {s : σ} (hs : I s) :
    InOrder R ids s (ids.mapM f s).1 (ids.mapM f s).2 := by
  induction ids generalizing s with
  | nil => exact .nil
  | cons id rest ih =>
    obtain ⟨hfirst,ht⟩ := hf id s hs
    rw [List.mapM_cons]
    exact .cons hfirst (ih ht)

theorem in_order_iff (hR : Settling R) (ids : List ElementId) {s t : σ} (hs : I s)
    {as : List α} : InOrder R ids s as t ↔ (ids.mapM f s).1 = as ∧ (ids.mapM f s).2 = t := by
  have hgoes := map_m_in_order hf ids hs
  constructor
  · exact fun h => hgoes.unique hR h
  · rintro ⟨rfl,rfl⟩
    exact hgoes

end

theorem for_m_discard {σ α : Type} (f : ElementId → StateM σ α) (ids : List ElementId) (s : σ) :
    (ids.forM (fun id => discard (f id)) s).2 = (ids.mapM f s).2 := by
  induction ids generalizing s with
  | nil => rfl
  | cons id rest ih =>
    rw [List.mapM_cons]
    exact ih (f id s).2

namespace BaseSearch

def adoption (g : Grammar) (id : ElementId) (found : Option ElementId) (s : BaseSearch) :
    Option ElementId × BaseSearch :=
  match found with
  | none => (none,s)
  | some child =>
    if child == id then (none,s)
    else if (g.element child).kind.agrees (g.element id).kind then (some child,s)
    else (none,report (.incompatibleBase (g.element id).label (g.label child)) s)

section
variable (g : Grammar) (parents stated : Array (Option ElementId))

mutual

/-- A search for the base of `id`: from the state `s` it ends with `base` and leaves `t`. -/
inductive Seeks : ElementId → BaseSearch → Option ElementId → BaseSearch → Prop
  | known {id : ElementId} {s : BaseSearch} {base : Option ElementId}
      (hk : s.known[id]? = some (.done base)) : Seeks id s base s
  | underway {id : ElementId} {s : BaseSearch} (hk : s.known[id]? = some .underway) :
      Seeks id s none s
  | outside {id : ElementId} {s : BaseSearch} (hk : s.known[id]? = none) : Seeks id s none s
  | turned {id : ElementId} {s t : BaseSearch} {base : Option ElementId}
      (hk : s.known[id]? = some .pending)
      (choice : Chooses stated[id]?.join parents[id]?.join id (mark id .underway s) base t) :
      Seeks id s base (mark id (.done base) t)

inductive Chooses : Option ElementId → Option ElementId → ElementId → BaseSearch →
    Option ElementId → BaseSearch → Prop
  | stated {target id : ElementId} {parent : Option ElementId} {s : BaseSearch} :
      Chooses (some target) parent id s (some target) s
  | alone {id : ElementId} {s : BaseSearch} : Chooses none none id s none s
  | baseless {p id : ElementId} {s t : BaseSearch} (above : Seeks p s none t) :
      Chooses none (some p) id s none t
  | adopted {p id a : ElementId} {s t u : BaseSearch} {found : Option ElementId}
      (above : Seeks p s (some a) t) (child : SeeksChild (g.element id).name ∅ a t found u) :
      Chooses none (some p) id s (adoption g id found u).1 (adoption g id found u).2

inductive SeeksChild : String → Finset ElementId → ElementId → BaseSearch →
    Option ElementId → BaseSearch → Prop
  | again {name : String} {seen : Finset ElementId} {place : ElementId} {s : BaseSearch}
      (hseen : place ∈ seen) : SeeksChild name seen place s none s
  | own {name : String} {seen : Finset ElementId} {place child : ElementId} {s : BaseSearch}
      (hseen : place ∉ seen) (hchild : g.childNamed? place name = some child) :
      SeeksChild name seen place s (some child) s
  | ended {name : String} {seen : Finset ElementId} {place : ElementId} {s t : BaseSearch}
      (hseen : place ∉ seen) (hchild : g.childNamed? place name = none)
      (base : Seeks place s none t) : SeeksChild name seen place s none t
  | along {name : String} {seen : Finset ElementId} {place next : ElementId} {s t u : BaseSearch}
      {found : Option ElementId} (hseen : place ∉ seen)
      (hchild : g.childNamed? place name = none) (base : Seeks place s (some next) t)
      (rest : SeeksChild name (insert place seen) next t found u) :
      SeeksChild name seen place s found u

end

end

structure Advances (s t : BaseSearch) : Prop where
  progressed : Progressed s.known t.known
  faults : ∀ fault ∈ t.faults, fault ∈ s.faults ∨ ∃ e b, fault = .incompatibleBase e b

theorem Advances.refl (s : BaseSearch) : Advances s s :=
  ⟨Progressed.refl _,fun _ h => .inl h⟩

theorem Advances.trans {s t u : BaseSearch} (h : Advances s t) (k : Advances t u) :
    Advances s u where
  progressed := h.progressed.trans k.progressed
  faults := fun fault hf => (k.faults fault hf).elim (h.faults fault) .inr

section
variable {g : Grammar} {parents stated : Array (Option ElementId)}

theorem adoption_advances (id : ElementId) (found : Option ElementId) (s : BaseSearch) :
    Advances s (adoption g id found s).2 := by
  unfold adoption
  split
  · exact .refl s
  · split
    · exact .refl s
    · split
      · exact .refl s
      · refine ⟨Progressed.refl _,fun fault hf => ?_⟩
        exact (Array.mem_push.mp hf).imp_right fun h => ⟨_,_,h⟩

theorem Advances.finished {id : ElementId} {s t : BaseSearch} {base : Option ElementId}
    (hk : s.known[id]? = some .pending) (h : Advances (mark id .underway s) t) :
    Advances s (mark id (.done base) t) :=
  ⟨(Progressed.finished hk h.progressed base).1,h.faults⟩

mutual

theorem Seeks.advances {id : ElementId} {s t : BaseSearch} {base : Option ElementId} :
    Seeks g parents stated id s base t → Advances s t
  | .known _ | .underway _ | .outside _ => .refl s
  | .turned hk choice => choice.advances.finished hk

theorem Chooses.advances {b p : Option ElementId} {id : ElementId} {s t : BaseSearch}
    {base : Option ElementId} : Chooses g parents stated b p id s base t → Advances s t
  | .stated | .alone => .refl s
  | .baseless above => above.advances
  | .adopted above child =>
    (above.advances.trans child.advances).trans (adoption_advances id _ _)

theorem SeeksChild.advances {name : String} {seen : Finset ElementId} {place : ElementId}
    {s t : BaseSearch} {found : Option ElementId} :
    SeeksChild g parents stated name seen place s found t → Advances s t
  | .again _ | .own _ _ => .refl s
  | .ended _ _ base => base.advances
  | .along _ _ base rest => base.advances.trans rest.advances

end

theorem Seeks.remembered {id b : ElementId} {s t : BaseSearch}
    (h : Seeks g parents stated id s (some b) t) : t.known[id]? = some (.done (some b)) := by
  cases h with
  | known hk => exact hk
  | turned hk choice =>
    exact (done_iff hk choice.advances.progressed (some b) id (some b)).mpr (.inl ⟨rfl,rfl⟩)

theorem Seeks.of_known {id : ElementId} {s t : BaseSearch} {base found : Option ElementId}
    (h : Seeks g parents stated id s found t) (hk : s.known[id]? = some (.done base)) :
    found = base ∧ t = s := by
  cases h with
  | known hk' =>
    cases hk.symm.trans hk'
    exact ⟨rfl,rfl⟩
  | underway hk' => cases hk.symm.trans hk'
  | outside hk' => cases hk.symm.trans hk'
  | turned hk' _ => cases hk.symm.trans hk'

mutual

theorem Seeks.unique {id : ElementId} {s t t' : BaseSearch} {base base' : Option ElementId} :
    Seeks g parents stated id s base t → Seeks g parents stated id s base' t' →
      base = base' ∧ t = t'
  | .known hk, k => by
    obtain ⟨rfl,rfl⟩ := k.of_known hk
    exact ⟨rfl,rfl⟩
  | .underway hk, k => by
    cases k with
    | underway _ => exact ⟨rfl,rfl⟩
    | known hk' | outside hk' | turned hk' _ => cases hk.symm.trans hk'
  | .outside hk, k => by
    cases k with
    | outside _ => exact ⟨rfl,rfl⟩
    | known hk' | underway hk' | turned hk' _ => cases hk.symm.trans hk'
  | .turned hk choice, k => by
    cases k with
    | turned _ choice' =>
      obtain ⟨rfl,rfl⟩ := choice.unique choice'
      exact ⟨rfl,rfl⟩
    | known hk' | underway hk' | outside hk' => cases hk.symm.trans hk'

theorem Chooses.unique {b p : Option ElementId} {id : ElementId} {s t t' : BaseSearch}
    {base base' : Option ElementId} : Chooses g parents stated b p id s base t →
      Chooses g parents stated b p id s base' t' → base = base' ∧ t = t'
  | .stated, k => by
    cases k
    exact ⟨rfl,rfl⟩
  | .alone, k => by
    cases k
    exact ⟨rfl,rfl⟩
  | .baseless above, k => by
    cases k with
    | baseless above' => exact ⟨rfl,(above.unique above').2⟩
    | adopted above' _ => cases (above.unique above').1
  | .adopted above child, k => by
    cases k with
    | baseless above' => cases (above.unique above').1
    | adopted above' child' =>
      obtain ⟨ha,rfl⟩ := above.unique above'
      cases ha
      obtain ⟨rfl,rfl⟩ := child.unique child'
      exact ⟨rfl,rfl⟩

theorem SeeksChild.unique {name : String} {seen : Finset ElementId} {place : ElementId}
    {s t t' : BaseSearch} {found found' : Option ElementId} :
    SeeksChild g parents stated name seen place s found t →
      SeeksChild g parents stated name seen place s found' t' → found = found' ∧ t = t'
  | .again hseen, k => by
    cases k with
    | again _ => exact ⟨rfl,rfl⟩
    | own hnew _ | ended hnew _ _ | along hnew _ _ _ => exact absurd hseen hnew
  | .own hnew hchild, k => by
    cases k with
    | own _ hchild' =>
      cases hchild.symm.trans hchild'
      exact ⟨rfl,rfl⟩
    | again hseen => exact absurd hseen hnew
    | ended _ hnone _ | along _ hnone _ _ => cases hchild.symm.trans hnone
  | .ended hnew hnone base, k => by
    cases k with
    | ended _ _ base' => exact base.unique base'
    | again hseen => exact absurd hseen hnew
    | own _ hchild => cases hchild.symm.trans hnone
    | along _ _ base' _ => cases (base.unique base').1
  | .along hnew hnone base rest, k => by
    cases k with
    | along _ _ base' rest' =>
      obtain ⟨hb,rfl⟩ := base.unique base'
      cases hb
      exact rest.unique rest'
    | again hseen => exact absurd hseen hnew
    | own _ hchild => cases hchild.symm.trans hnone
    | ended _ _ base' => cases (base.unique base').1

end

theorem seeks_settling : Settling (Seeks g parents stated) :=
  fun _ _ _ _ _ _ h k => h.unique k

end

def SeeksBases (g : Grammar) (parents stated : Array (Option ElementId)) (depth : Nat)
    (search : ElementId → StateM BaseSearch (Option ElementId)) : Prop :=
  ∀ (id : Nat) (s : BaseSearch), s.known.size = g.size → (pendings s.known).card < depth →
    Seeks g parents stated id s (search id s).1 (search id s).2

def SeenUpTo (g : Grammar) (name : String) (s : BaseSearch) (seen : Finset ElementId)
    (place : ElementId) : Prop :=
  ∀ v ∈ seen, g.childNamed? v name = none ∧
    ∃ b, s.known[v]? = some (.done (some b)) ∧ (b ∈ seen ∨ b = place)

section
variable {g : Grammar} {name : String} {seen : Finset ElementId} {place : ElementId}
  {s : BaseSearch}

theorem SeenUpTo.outside (h : SeenUpTo g name s seen place) (hsize : s.known.size = g.size)
    (hfull : g.size ≤ seen.card) (hplace : place ∉ seen) : g.size ≤ place := by
  have hall : seen = Finset.range g.size := by
    refine Finset.eq_of_subset_of_card_le (fun v hv => ?_) ?_
    · obtain ⟨-,b,hk,-⟩ := h v hv
      exact Finset.mem_range.mpr (hsize ▸ (Array.getElem?_eq_some_iff.mp hk).1)
    · rw [Finset.card_range]
      exact hfull
  rw [hall, Finset.mem_range] at hplace
  exact Nat.le_of_not_lt hplace

theorem SeenUpTo.step {t : BaseSearch} {next : ElementId} (h : SeenUpTo g name s seen place)
    (hp : Progressed s.known t.known) (hnone : g.childNamed? place name = none)
    (hk : t.known[place]? = some (.done (some next))) :
    SeenUpTo g name t (insert place seen) next := by
  intro v hv
  rcases Finset.mem_insert.mp hv with rfl | hv
  · exact ⟨hnone,next,hk,.inr rfl⟩
  · obtain ⟨hnone',b,hk',hb⟩ := h v hv
    exact ⟨hnone',b,hp.done v _ hk',.inl (Finset.mem_insert.mpr hb.symm)⟩

end

section
variable {g : Grammar} {parents stated : Array (Option ElementId)} {depth : Nat}
  {search : ElementId → StateM BaseSearch (Option ElementId)}
  (hsearch : SeeksBases g parents stated depth search)

include hsearch

theorem circle_run {name : String} {seen : Finset ElementId} {place : ElementId}
    {s : BaseSearch} (hsize : s.known.size = g.size) (hd : (pendings s.known).card < depth)
    (hseen : SeenUpTo g name s seen place) (hplace : place ∈ seen) (steps : Nat) :
    inheritedChild g search name steps place s = (none,s) := by
  suffices hall : ∀ steps, ∀ v ∈ seen, inheritedChild g search name steps v s = (none,s) from
    hall steps place hplace
  intro steps
  induction steps with
  | zero => exact fun _ _ => rfl
  | succ steps ih =>
    intro v hv
    obtain ⟨hnone,b,hk,hb⟩ := hseen v hv
    obtain ⟨hfound,hleft⟩ := (hsearch v s hsize hd).of_known hk
    rw [inherited_child_run hnone, hfound, hleft]
    exact ih b (hb.elim id fun heq => heq ▸ hplace)

/-- A place is met again before the steps run out: each step goes past one more place. -/
theorem inherited_child_seeks {name : String} {steps : Nat} {seen : Finset ElementId}
    {place : ElementId} {s : BaseSearch} (hsize : s.known.size = g.size)
    (hd : (pendings s.known).card < depth) (hsteps : g.size ≤ seen.card + steps)
    (hseen : SeenUpTo g name s seen place) :
    SeeksChild g parents stated name seen place s
      (inheritedChild g search name steps place s).1
      (inheritedChild g search name steps place s).2 := by
  induction steps generalizing seen place s with
  | zero =>
    by_cases hplace : place ∈ seen
    · exact .again hplace
    · have hout := hseen.outside hsize hsteps hplace
      refine .ended hplace ?_ (.outside (Array.getElem?_eq_none (hsize ▸ hout)))
      rw [Grammar.childNamed?, Grammar.children_outside g place hout]
      rfl
  | succ steps ih =>
    by_cases hplace : place ∈ seen
    · rw [circle_run hsearch hsize hd hseen hplace]
      exact .again hplace
    · cases hchild : g.childNamed? place name with
      | some child =>
        rw [inheritedChild, hchild]
        exact .own hplace hchild
      | none =>
        have hbase := hsearch place s hsize hd
        rw [inherited_child_run hchild]
        cases hfound : (search place s).1 with
        | none =>
          rw [hfound] at hbase
          exact .ended hplace hchild hbase
        | some next =>
          rw [hfound] at hbase
          have hp := hbase.advances.progressed
          refine .along hplace hchild hbase ?_
          refine ih (hp.size.trans hsize) (hp.card_lt hd) ?_
            (hseen.step hp hchild hbase.remembered)
          rw [Finset.card_insert_of_notMem hplace]
          omega

theorem adopt_seeks (id a : ElementId) {s : BaseSearch} (hsize : s.known.size = g.size)
    (hd : (pendings s.known).card < depth) :
    ∃ found t, SeeksChild g parents stated (g.element id).name ∅ a s found t ∧
      adopt g search id a s = adoption g id found t := by
  have hchild : SeeksChild g parents stated (g.element id).name ∅ a s
      (inheritedChild g search (g.element id).name g.size a s).1
      (inheritedChild g search (g.element id).name g.size a s).2 :=
    inherited_child_seeks hsearch hsize hd (Nat.le_add_left _ _) fun v hv =>
      absurd hv (Finset.notMem_empty v)
  exact ⟨_,_,hchild,adopt_run search id a s⟩

theorem choose_goes {b p : Option ElementId} {id : ElementId} {s : BaseSearch}
    (hsize : s.known.size = g.size) (hd : (pendings s.known).card < depth) :
    Chooses g parents stated b p id s (choose g search b p id s).1
      (choose g search b p id s).2 := by
  cases b with
  | some target => exact .stated
  | none =>
    cases p with
    | none => exact .alone
    | some p =>
      have habove := hsearch p s hsize hd
      rw [choose_parent_run]
      cases hfound : (search p s).1 with
      | none =>
        rw [hfound] at habove
        exact .baseless habove
      | some a =>
        rw [hfound] at habove
        have hp := habove.advances.progressed
        obtain ⟨found,t,hchild,hadopt⟩ :=
          adopt_seeks hsearch id a (hp.size.trans hsize) (hp.card_lt hd)
        dsimp only
        rw [hadopt]
        exact .adopted habove hchild

end

section
variable (g : Grammar) (parents stated : Array (Option ElementId))

/-- The depth of the search never runs out: each level has turned to an element that was pending. -/
theorem base_of_seeks (depth : Nat) :
    SeeksBases g parents stated depth (baseOf g parents stated depth) := by
  induction depth with
  | zero => exact fun _ _ _ hd => absurd hd (Nat.not_lt_zero _)
  | succ depth ih =>
    intro id s hsize hd
    rw [base_of_run]
    cases hk : s.known[id]? with
    | none => exact .outside hk
    | some progress =>
      cases progress with
      | underway => exact .underway hk
      | done base => exact .known hk
      | pending =>
        refine .turned hk (choose_goes ih ?_ ?_)
        · rw [mark, Array.size_setIfInBounds, hsize]
        · exact Nat.lt_of_lt_of_le (underway_card hk) (Nat.le_of_lt_succ hd)

/-- Searches for the bases of the whole arena come to an end, all with one outcome: that of the
bounded search. -/
theorem run_seeks (t : BaseSearch) :
    (∃ results, InOrder (Seeks g parents stated) (List.range g.size) (start g) results t) ↔
      t = run g parents stated := by
  have hstep : ∀ id s, s.known.size = g.size →
      Seeks g parents stated id s (baseOf g parents stated (g.size + 1) id s).1
          (baseOf g parents stated (g.size + 1) id s).2 ∧
        (baseOf g parents stated (g.size + 1) id s).2.known.size = g.size := by
    intro id s hsize
    have hcard := pendings_card_le s.known
    rw [hsize] at hcard
    have hseeks := base_of_seeks g parents stated (g.size + 1) id s hsize
      (Nat.lt_succ_of_le hcard)
    exact ⟨hseeks,hseeks.advances.progressed.size.trans hsize⟩
  have hstart : (start g).known.size = g.size := Array.size_replicate
  have hlast : run g parents stated = _ :=
    for_m_discard (baseOf g parents stated (g.size + 1)) (List.range g.size) (start g)
  simp only [in_order_iff hstep seeks_settling (List.range g.size) hstart, hlast]
  exact ⟨fun ⟨_,_,h⟩ => h.symm,fun h => ⟨_,rfl,h.symm⟩⟩

theorem run_faults {fault : GrammarFault} (h : fault ∈ (run g parents stated).faults) :
    ∃ e b, fault = .incompatibleBase e b := by
  obtain ⟨results,hrun⟩ := (run_seeks g parents stated _).mpr rfl
  have hadvances : ∀ {ids s results t},
      InOrder (Seeks g parents stated) ids s results t → Advances s t := by
    intro ids s results t h
    induction h with
    | nil => exact .refl _
    | cons first _ ih => exact first.advances.trans ih
  exact ((hadvances hrun).faults fault h).elim (fun h => absurd h (Array.not_mem_empty _)) id

end

end BaseSearch
end ByteGrammar
