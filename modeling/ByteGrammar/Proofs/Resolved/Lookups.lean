import ByteGrammar.Proofs.Resolved.Merging
import ByteGrammar.Proofs.Resolved.Nesting
import ByteGrammar.Proofs.Resolved.Seeking
import ByteGrammar.Proofs.Resolved.Worked

/-!
# Look-ups without bounds

The other look-ups of a resolution as they go if nothing bounds them: of attributes and members,
which remember what they found and are cut short by the marks of what they are at, of cycles, which
stop where they were before, and the walk through the grammar, which nothing cuts short. They all
come to an end. What is worked out in the bounded way is the same, for members unless there are
cycles, and then nobody sees them.
-/

set_option autoImplicit false

namespace ByteGrammar

namespace Links

section
variable (l : Links)

mutual

inductive Derives : ElementId → Known → Attributes → Known → Prop
  | known {id : ElementId} {known : Known} {a : Attributes}
      (hk : known[id]? = some (.done a)) : Derives id known a known
  | underway {id : ElementId} {known : Known} (hk : known[id]? = some .underway) :
      Derives id known (l.unbased id none) known
  | outside {id : ElementId} {known : Known} (hk : known[id]? = none) :
      Derives id known (l.unbased id none) known
  | settled {id : ElementId} {known known' known'' : Known}
      {inherited parent : Option (ElementId × Attributes)} (hk : known[id]? = some .pending)
      (base : DerivesAny (l.base? id) (known.setIfInBounds id .underway) inherited known')
      (place : DerivesAny (l.parent? id) known' parent known'') :
      Derives id known (l.settle id inherited (parent.map Prod.snd))
        (known''.setIfInBounds id (.done (l.settle id inherited (parent.map Prod.snd))))

inductive DerivesAny : Option ElementId → Known → Option (ElementId × Attributes) → Known → Prop
  | none {known : Known} : DerivesAny none known none known
  | some {id : ElementId} {known known' : Known} {a : Attributes}
      (one : Derives id known a known') : DerivesAny (some id) known (some (id,a)) known'

end

end

section
variable {l : Links}

mutual

theorem Derives.progressed {id : ElementId} {known known' : Known} {a : Attributes} :
    Derives l id known a known' → Progressed known known'
  | .known _ | .underway _ | .outside _ => .refl known
  | .settled hk base place => (Progressed.finished hk (base.progressed.trans place.progressed) _).1

theorem DerivesAny.progressed {wanted : Option ElementId} {known known' : Known}
    {found : Option (ElementId × Attributes)} :
    DerivesAny l wanted known found known' → Progressed known known'
  | .none => .refl known
  | .some one => one.progressed

end

mutual

theorem Derives.unique {id : ElementId} {known t t' : Known} {a a' : Attributes} :
    Derives l id known a t → Derives l id known a' t' → a = a' ∧ t = t'
  | .known hk, k => by
    cases k with
    | known hk' =>
      cases hk.symm.trans hk'
      exact ⟨rfl,rfl⟩
    | underway hk' | outside hk' | settled hk' _ _ => cases hk.symm.trans hk'
  | .underway hk, k => by
    cases k with
    | underway _ => exact ⟨rfl,rfl⟩
    | known hk' | outside hk' | settled hk' _ _ => cases hk.symm.trans hk'
  | .outside hk, k => by
    cases k with
    | outside _ => exact ⟨rfl,rfl⟩
    | known hk' | underway hk' | settled hk' _ _ => cases hk.symm.trans hk'
  | .settled hk base place, k => by
    cases k with
    | settled _ base' place' =>
      obtain ⟨rfl,rfl⟩ := base.unique base'
      obtain ⟨rfl,rfl⟩ := place.unique place'
      exact ⟨rfl,rfl⟩
    | known hk' | underway hk' | outside hk' => cases hk.symm.trans hk'

theorem DerivesAny.unique {wanted : Option ElementId} {known t t' : Known}
    {found found' : Option (ElementId × Attributes)} :
    DerivesAny l wanted known found t → DerivesAny l wanted known found' t' →
      found = found' ∧ t = t'
  | .none, k => by
    cases k
    exact ⟨rfl,rfl⟩
  | .some one, k => by
    cases k with
    | some one' =>
      obtain ⟨rfl,rfl⟩ := one.unique one'
      exact ⟨rfl,rfl⟩

end

theorem derives_settling : Settling (Derives l) := fun _ _ _ _ _ _ h k => h.unique k

theorem derives_any {search : ElementId → StateM Known Attributes}
    (wanted : Option ElementId) {known : Known}
    (h : ∀ id : ElementId, Derives l id known (search id known).1 (search id known).2) :
    DerivesAny l wanted known (attributesOf? search wanted known).1
      (attributesOf? search wanted known).2 := by
  cases wanted with
  | none => exact .none
  | some id => exact .some (h id)

theorem attributes_of_derives (depth : Nat) (id : ElementId) (known : Known)
    (hd : (pendings known).card < depth) :
    Derives l id known (l.attributesOf depth id known).1 (l.attributesOf depth id known).2 := by
  induction depth generalizing id known with
  | zero => exact absurd hd (Nat.not_lt_zero _)
  | succ depth ih =>
    rw [attributes_of_run]
    cases hk : known[id]? with
    | none => exact .outside hk
    | some progress =>
      cases progress with
      | underway => exact .underway hk
      | done a => exact .known hk
      | pending =>
        have hcard := Nat.lt_of_lt_of_le (underway_card hk) (Nat.le_of_lt_succ hd)
        have hbase := derives_any (l.base? id) fun i => ih i _ hcard
        exact .settled hk hbase (derives_any (l.parent? id) fun i =>
          ih i _ (hbase.progressed.card_lt hcard))

/-- Look-ups of the attributes of the whole arena come to an end, all with one outcome: what is
found in the bounded way. -/
theorem attributes_derived (as : List Attributes) :
    (∃ known, InOrder (Derives l) (List.range l.grammar.size) l.unknown as known) ↔
      as = l.attributes := by
  have hstep : ∀ id known, known.size = l.grammar.size →
      Derives l id known (l.attributesOf (l.grammar.size + 1) id known).1
          (l.attributesOf (l.grammar.size + 1) id known).2 ∧
        (l.attributesOf (l.grammar.size + 1) id known).2.size = l.grammar.size := by
    intro id known hsize
    have hcard := pendings_card_le known
    rw [hsize] at hcard
    have hderives := attributes_of_derives (l := l) (l.grammar.size + 1) id known
      (Nat.lt_succ_of_le hcard)
    exact ⟨hderives,hderives.progressed.size.trans hsize⟩
  have hstart : l.unknown.size = l.grammar.size := Array.size_replicate
  simp only [in_order_iff hstep derives_settling (List.range l.grammar.size) hstart]
  exact ⟨fun ⟨_,h,_⟩ => h.symm,fun h => ⟨_,h.symm,rfl⟩⟩

end

end Links

namespace Grammar

inductive Gathers (g : Grammar) (bases : Array (Option ElementId)) :
    ElementId → Array (Progress (List ElementId)) → List ElementId →
      Array (Progress (List ElementId)) → Prop
  | known {id : ElementId} {t : Array (Progress (List ElementId))} {members : List ElementId}
      (hk : t[id]? = some (.done members)) : Gathers g bases id t members t
  | underway {id : ElementId} {t : Array (Progress (List ElementId))}
      (hk : t[id]? = some .underway) : Gathers g bases id t (g.children id) t
  | outside {id : ElementId} {t : Array (Progress (List ElementId))} (hk : t[id]? = none) :
      Gathers g bases id t (g.children id) t
  | own {id : ElementId} {t : Array (Progress (List ElementId))} (hk : t[id]? = some .pending)
      (hb : bases[id]?.join = none) : Gathers g bases id t (g.children id)
        ((t.setIfInBounds id .underway).setIfInBounds id (.done (g.children id)))
  | merged {id base : ElementId} {t t' : Array (Progress (List ElementId))}
      {members : List ElementId} (hk : t[id]? = some .pending)
      (hb : bases[id]?.join = some base)
      (inherited : Gathers g bases base (t.setIfInBounds id .underway) members t') :
      Gathers g bases id t (g.mergeMembers members (g.children id))
        (t'.setIfInBounds id (.done (g.mergeMembers members (g.children id))))

section
variable {g : Grammar} {bases : Array (Option ElementId)} {id : ElementId}
  {t t' : Array (Progress (List ElementId))} {members members' : List ElementId}

theorem Gathers.progressed (h : g.Gathers bases id t members t') : Progressed t t' := by
  induction h with
  | known _ | underway _ | outside _ => exact .refl _
  | own hk _ => exact (Progressed.finished hk (.refl _) _).1
  | merged hk _ _ ih => exact (Progressed.finished hk ih _).1

theorem Gathers.unique {t'' : Array (Progress (List ElementId))}
    (h : g.Gathers bases id t members t') (k : g.Gathers bases id t members' t'') :
    members = members' ∧ t' = t'' := by
  induction h generalizing members' t'' with
  | known hk =>
    cases k with
    | known hk' =>
      cases hk.symm.trans hk'
      exact ⟨rfl,rfl⟩
    | underway hk' | outside hk' | own hk' _ | merged hk' _ _ => cases hk.symm.trans hk'
  | underway hk =>
    cases k with
    | underway _ => exact ⟨rfl,rfl⟩
    | known hk' | outside hk' | own hk' _ | merged hk' _ _ => cases hk.symm.trans hk'
  | outside hk =>
    cases k with
    | outside _ => exact ⟨rfl,rfl⟩
    | known hk' | underway hk' | own hk' _ | merged hk' _ _ => cases hk.symm.trans hk'
  | own hk hb =>
    cases k with
    | own _ _ => exact ⟨rfl,rfl⟩
    | merged _ hb' _ => cases hb.symm.trans hb'
    | known hk' | underway hk' | outside hk' => cases hk.symm.trans hk'
  | merged hk hb _ ih =>
    cases k with
    | merged _ hb' inherited' =>
      cases hb.symm.trans hb'
      obtain ⟨rfl,rfl⟩ := ih inherited'
      exact ⟨rfl,rfl⟩
    | own _ hb' => cases hb.symm.trans hb'
    | known hk' | underway hk' | outside hk' => cases hk.symm.trans hk'

theorem gathers_settling : Settling (g.Gathers bases) := fun _ _ _ _ _ _ h k => h.unique k

/-- Every look-up of members comes to an end: each one that it makes in turn is at one element more
that was pending. -/
theorem gathers_goes (g : Grammar) (bases : Array (Option ElementId)) (id : ElementId)
    (t : Array (Progress (List ElementId))) : ∃ members t', g.Gathers bases id t members t' := by
  induction hn : (pendings t).card using Nat.strong_induction_on generalizing id t with
  | _ n ih =>
    cases hk : t[id]? with
    | none => exact ⟨_,_,.outside hk⟩
    | some progress =>
      cases progress with
      | underway => exact ⟨_,_,.underway hk⟩
      | done members => exact ⟨_,_,.known hk⟩
      | pending =>
        cases hb : bases[id]?.join with
        | none => exact ⟨_,_,.own hk hb⟩
        | some base =>
          obtain ⟨members,t',h⟩ := ih _ (hn ▸ underway_card hk) base _ rfl
          exact ⟨_,_,.merged hk hb h⟩

/-- Without cycles nothing is cut short: whatever is underway has what is looked for further along
its bases, and so the members are those that follow the bases to their ends. -/
theorem Gathers.right (hacyclic : Acyclic bases) (h : g.Gathers bases id t members t')
    (hsize : t.size = bases.size)
    (hright : ∀ (i : Nat) ms, t[i]? = some (.done ms) → ms = g.membersOf bases bases.size i)
    (hback : ∀ y : Nat, t[y]? = some .underway →
      Relation.TransGen (fun x b => bases[x]?.join = some b) y id) :
    members = g.membersOf bases bases.size id ∧
      ∀ (i : Nat) ms, t'[i]? = some (.done ms) → ms = g.membersOf bases bases.size i := by
  induction h with
  | known hk => exact ⟨hright _ _ hk,hright⟩
  | underway hk => exact absurd (hback _ hk) ((acyclic_iff fun _ _ => Iff.rfl).mp hacyclic _)
  | @outside id t hk =>
    refine ⟨?_,hright⟩
    have hnone : bases[id]?.join = none := by
      rw [Array.getElem?_eq_none (hsize ▸ Array.getElem?_eq_none_iff.mp hk)]
      rfl
    rw [g.members_of_base hacyclic, hnone]
  | @own id t hk hb =>
    have hself : g.children id = g.membersOf bases bases.size id := by
      rw [g.members_of_base hacyclic, hb]
    refine ⟨hself,fun i ms hi => ?_⟩
    rcases (done_iff hk (.refl _) _ i ms).mp hi with ⟨rfl,rfl⟩ | hi
    · exact hself
    · exact hright i ms ((underway_done hk).mp hi)
  | @merged id base t t' members hk hb hinherited ih =>
    obtain ⟨hmembers,hright'⟩ := ih (by rw [Array.size_setIfInBounds, hsize])
      (fun i ms hi => hright i ms ((underway_done hk).mp hi)) (fun y hy => by
        rcases (underway_iff hk y).mp hy with rfl | hy
        · exact .single hb
        · exact .tail (hback y hy) hb)
    have hself : g.mergeMembers members (g.children id) = g.membersOf bases bases.size id := by
      rw [g.members_of_base hacyclic, hb, hmembers]
    refine ⟨hself,fun i ms hi => ?_⟩
    rcases (done_iff hk hinherited.progressed _ i ms).mp hi with ⟨rfl,rfl⟩ | hi
    · exact hself
    · exact hright' i ms hi

theorem gathered_right (hacyclic : Acyclic bases) {ids : List ElementId}
    {lists : List (List ElementId)} (h : InOrder (g.Gathers bases) ids t lists t')
    (hsize : t.size = bases.size)
    (hright : ∀ (i : Nat) ms, t[i]? = some (.done ms) → ms = g.membersOf bases bases.size i)
    (hidle : ∀ y : Nat, t[y]? ≠ some .underway) :
    lists = ids.map (g.membersOf bases bases.size) := by
  induction h with
  | nil => rfl
  | cons first _ ih =>
    obtain ⟨hself,hright'⟩ := first.right hacyclic hsize hright fun y hy => absurd hy (hidle y)
    have hp := first.progressed
    rw [List.map_cons, hself, ih (hp.size.trans hsize) hright'
      fun y hy => hidle y ((hp.underway y).mp hy)]

/-- Look-ups of the members of the whole arena come to an end, all with one outcome, which without
cycles is what is worked out in the bounded way. -/
theorem members_gathered (g : Grammar) (hsize : bases.size = g.size) :
    ∃ lists, (∀ found, (∃ t, InOrder (g.Gathers bases) (List.range g.size)
        (Array.replicate g.size .pending) found t) ↔ found = lists) ∧
      (Acyclic bases → lists = (List.range g.size).map (g.membersOf bases g.size)) := by
  obtain ⟨lists,last,hgoes,-⟩ := in_order_goes (I := fun _ => True)
    (fun id t _ => (gathers_goes g bases id t).imp fun _ => Exists.imp fun _ h => ⟨h,trivial⟩)
    (List.range g.size) (s := Array.replicate g.size .pending) trivial
  refine ⟨lists,fun found => ⟨?_,?_⟩,fun hacyclic => ?_⟩
  · rintro ⟨t,h⟩
    exact (h.unique gathers_settling hgoes).1
  · rintro rfl
    exact ⟨last,hgoes⟩
  · rw [← hsize]
    rw [← hsize] at hgoes
    refine gathered_right hacyclic hgoes Array.size_replicate ?_ ?_
    · exact fun i ms hi => nomatch start_pending hi
    · exact fun y hy => nomatch start_pending hy

end

mutual

inductive Walks (g : Grammar) :
    Option ElementId → ElementId → List (ElementId × Option ElementId) → Prop
  | node {parent : Option ElementId} {id : ElementId} {below : List (ElementId × Option ElementId)}
      (children : WalksAll g (some id) (g.children id) below) :
      Walks g parent id ((id,parent) :: below)

inductive WalksAll (g : Grammar) :
    Option ElementId → List ElementId → List (ElementId × Option ElementId) → Prop
  | nil {parent : Option ElementId} : WalksAll g parent [] []
  | cons {parent : Option ElementId} {id : ElementId} {ids : List ElementId}
      {first others : List (ElementId × Option ElementId)} (one : Walks g parent id first)
      (rest : WalksAll g parent ids others) : WalksAll g parent (id :: ids) (first ++ others)

end

section
variable {g : Grammar}

mutual

theorem Walks.unique {parent : Option ElementId} {id : ElementId}
    {xs ys : List (ElementId × Option ElementId)} :
    Walks g parent id xs → Walks g parent id ys → xs = ys
  | .node children, k => by
    cases k with
    | node children' => rw [children.unique children']

theorem WalksAll.unique {parent : Option ElementId} {ids : List ElementId}
    {xs ys : List (ElementId × Option ElementId)} :
    WalksAll g parent ids xs → WalksAll g parent ids ys → xs = ys
  | .nil, k => by
    cases k
    rfl
  | .cons one rest, k => by
    cases k with
    | cons one' rest' => rw [one.unique one', rest.unique rest']

end

theorem walks_all {parent : Option ElementId}
    {f : ElementId → List (ElementId × Option ElementId)} {ids : List ElementId}
    (h : ∀ id ∈ ids, Walks g parent id (f id)) : WalksAll g parent ids (ids.flatMap f) := by
  induction ids with
  | nil => exact .nil
  | cons id rest ih =>
    rw [List.flatMap_cons]
    exact .cons (h id List.mem_cons_self) (ih fun x hx => h x (List.mem_cons_of_mem id hx))

/-- No walk goes deeper than the arena is large: what stands in a structure comes behind it. -/
theorem walk_from_walks (hn : g.Nested) (hg : g.Contained) {depth id : Nat}
    (parent : Option ElementId) (hid : id < g.size) (hd : g.size ≤ id + depth) :
    Walks g parent id (g.walkFrom depth parent id) := by
  induction depth generalizing id parent with
  | zero => omega
  | succ depth ih =>
    rw [walk_from_succ]
    refine .node (walks_all fun child hchild => ih (some id) (hg.below hchild) ?_)
    have hbefore := hn.before hchild
    omega

theorem walk_walks (hn : g.Nested) (hg : g.Contained)
    (xs : List (ElementId × Option ElementId)) : WalksAll g none g.topLevel xs ↔ xs = g.walk := by
  have hwalks : WalksAll g none g.topLevel g.walk :=
    walks_all fun t ht => walk_from_walks hn hg none (hg.top ht) (Nat.le_add_left _ _)
  exact ⟨fun h => h.unique hwalks,fun h => h ▸ hwalks⟩

end

end Grammar

inductive Circles (bases : Array (Option ElementId)) (start : ElementId) :
    Finset ElementId → Option ElementId → Bool → Prop
  | ended {seen : Finset ElementId} : Circles bases start seen none false
  | back {seen : Finset ElementId} :
      Circles bases start seen (some start) (decide (∀ x ∈ seen, start < x))
  | again {seen : Finset ElementId} {place : ElementId} (hne : place ≠ start)
      (hseen : place ∈ seen) : Circles bases start seen (some place) false
  | along {seen : Finset ElementId} {place : ElementId} {leads : Bool} (hne : place ≠ start)
      (hseen : place ∉ seen) (rest : Circles bases start (insert place seen)
        bases[place]?.join leads) : Circles bases start seen (some place) leads

def leadsPast (start : ElementId) (seen : Finset ElementId) (way : List ElementId) : Bool :=
  way.contains start &&
    (decide (∀ x ∈ seen, start < x) && (way.takeWhile (· != start)).all (start < ·))

section
variable {bases : Array (Option ElementId)} {start : ElementId} {seen : Finset ElementId}

theorem Circles.unique {place : Option ElementId} {leads leads' : Bool}
    (h : Circles bases start seen place leads) (k : Circles bases start seen place leads') :
    leads = leads' := by
  induction h with
  | ended =>
    cases k
    rfl
  | back =>
    cases k with
    | back => rfl
    | again hne _ | along hne _ _ => exact absurd rfl hne
  | again hne hseen =>
    cases k with
    | back => exact absurd rfl hne
    | again _ _ => rfl
    | along _ hnew _ => exact absurd hseen hnew
  | along hne hnew _ ih =>
    cases k with
    | back => exact absurd rfl hne
    | again _ hseen => exact absurd hseen hnew
    | along _ _ rest' => exact ih rest'

theorem leads_past_away {way : List ElementId} (h : start ∉ way) :
    leadsPast start seen way = false := by
  rw [leadsPast, Bool.and_eq_false_iff]
  exact .inl (by simpa using h)

theorem leads_past_back (way : List ElementId) :
    leadsPast start seen (start :: way) = decide (∀ x ∈ seen, start < x) := by
  simp [leadsPast]

theorem leads_past_along {place : ElementId} (hne : place ≠ start) (way : List ElementId) :
    leadsPast start seen (place :: way) = leadsPast start (insert place seen) way := by
  have hskip : (place :: way).takeWhile (· != start) = place :: way.takeWhile (· != start) :=
    List.takeWhile_cons_of_pos (bne_iff_ne.mpr hne)
  rw [Bool.eq_iff_iff, leadsPast, leadsPast, hskip]
  simp only [Bool.and_eq_true, List.contains_iff_mem, List.mem_cons, hne.symm, false_or,
    decide_eq_true_eq, List.all_cons, Finset.forall_mem_insert]
  tauto

theorem base_chain_seen {place : ElementId} (hplace : place ∈ seen)
    (hseen : ∀ v ∈ seen, ∃ b, bases[v]?.join = some b ∧ b ∈ seen) (steps : Nat) :
    ∀ x ∈ baseChain bases steps place, x ∈ seen := by
  induction steps generalizing place with
  | zero => exact fun x hx => absurd hx List.not_mem_nil
  | succ steps ih =>
    intro x hx
    obtain ⟨b,hb,hin⟩ := hseen place hplace
    rw [baseChain, hb] at hx
    rcases List.mem_cons.mp hx with rfl | hx
    · exact hin
    · exact ih hin x hx

def Passed (bases : Array (Option ElementId)) (start : ElementId) (seen : Finset ElementId)
    (place : ElementId) : Prop :=
  ∀ v ∈ seen, v ≠ start ∧ ∃ b, bases[v]?.join = some b ∧ (b ∈ seen ∨ b = place)

theorem Passed.step {place next : ElementId} (h : Passed bases start seen place)
    (hne : place ≠ start) (hb : bases[place]?.join = some next) :
    Passed bases start (insert place seen) next := by
  intro v hv
  rcases Finset.mem_insert.mp hv with rfl | hv
  · exact ⟨hne,next,hb,.inr rfl⟩
  · obtain ⟨hv,b,hb,hin⟩ := h v hv
    exact ⟨hv,b,hb,.inl (Finset.mem_insert.mpr hin.symm)⟩

/-- Fewer places are passed than have bases, the start being none of them. -/
theorem Passed.card_lt {place : ElementId} (h : Passed bases start seen place)
    (hstart : start < bases.size) : seen.card < bases.size := by
  have hpos : 0 < bases.size := Nat.zero_lt_of_lt hstart
  have hsub : seen ⊆ (Finset.range bases.size).erase start := by
    intro v hv
    obtain ⟨hne,b,hb,-⟩ := h v hv
    refine Finset.mem_erase.mpr ⟨hne,Finset.mem_range.mpr ?_⟩
    by_contra hlt
    rw [Array.getElem?_eq_none (Nat.le_of_not_lt hlt)] at hb
    cases hb
  have hcard := Finset.card_le_card hsub
  rw [Finset.card_erase_of_mem (Finset.mem_range.mpr hstart), Finset.card_range] at hcard
  omega

theorem base_chain_end {place : ElementId} (hb : bases[place]?.join = none) (steps : Nat) :
    baseChain bases steps place = [] := by
  cases steps with
  | zero => rfl
  | succ steps => rw [baseChain, hb]

theorem circles_step {steps : Nat} {place : ElementId} (hseen : Passed bases start seen place)
    (hnext : ∀ next, bases[place]?.join = some next → place ≠ start → place ∉ seen →
      Circles bases start (insert place seen) (some next)
        (leadsPast start (insert place seen) (baseChain bases steps place))) :
    Circles bases start seen (some place)
      (leadsPast start seen (place :: baseChain bases steps place)) := by
  by_cases hne : place = start
  · rw [hne, leads_past_back]
    exact .back
  by_cases hin : place ∈ seen
  · -- Whatever comes next was seen, and the start was not.
    rw [leads_past_away]
    · exact .again hne hin
    · have hclosed : ∀ v ∈ seen, ∃ b, bases[v]?.join = some b ∧ b ∈ seen := by
        intro v hv
        obtain ⟨-,b,hb,hb'⟩ := hseen v hv
        exact ⟨b,hb,hb'.elim id fun heq => heq ▸ hin⟩
      intro hback
      rcases List.mem_cons.mp hback with heq | hback
      · exact hne heq.symm
      · exact (hseen start (base_chain_seen hin hclosed steps start hback)).1 rfl
  · rw [leads_past_along hne]
    refine .along hne hin ?_
    cases hb : bases[place]?.join with
    | none =>
      rw [base_chain_end hb, leads_past_away List.not_mem_nil]
      exact .ended
    | some next => exact hnext next hb hne hin

/-- The way is followed far enough: it comes back to the start, or meets a place again, before as
many places are passed as have bases. -/
theorem circles_goes (hstart : start < bases.size) {steps : Nat} {place : ElementId}
    (hsteps : bases.size ≤ seen.card + (steps + 1)) (hseen : Passed bases start seen place) :
    Circles bases start seen (some place)
      (leadsPast start seen (place :: baseChain bases steps place)) := by
  induction steps generalizing seen place with
  | zero =>
    refine circles_step hseen fun next hb hne hnew => ?_
    have hcard := (hseen.step hne hb).card_lt hstart
    rw [Finset.card_insert_of_notMem hnew] at hcard
    omega
  | succ steps ih =>
    refine circles_step hseen fun next hb hne hnew => ?_
    rw [baseChain, hb]
    refine ih ?_ (hseen.step hne hb)
    rw [Finset.card_insert_of_notMem hnew]
    omega

theorem circles_iff {id : ElementId} {leads : Bool} :
    Circles bases id ∅ bases[id]?.join leads ↔ leads = leadsCycle bases id := by
  suffices hgoes : Circles bases id ∅ bases[id]?.join (leadsCycle bases id) from
    ⟨fun h => h.unique hgoes,fun h => h ▸ hgoes⟩
  have hleads : leadsCycle bases id = leadsPast id ∅ (baseChain bases bases.size id) := by
    simp [leadsCycle, leadsPast]
  rw [hleads]
  cases hb : bases[id]?.join with
  | none =>
    rw [base_chain_end hb, leads_past_away List.not_mem_nil]
    exact .ended
  | some first =>
    have hid : id < bases.size := by
      by_contra hlt
      rw [Array.getElem?_eq_none (Nat.le_of_not_lt hlt)] at hb
      cases hb
    obtain ⟨steps,hsteps⟩ := Nat.exists_eq_succ_of_ne_zero (Nat.ne_zero_of_lt hid)
    rw [hsteps, baseChain, hb]
    exact circles_goes hid (hsteps ▸ Nat.le_add_left _ _) fun v hv =>
      absurd hv (Finset.notMem_empty v)

end

end ByteGrammar
