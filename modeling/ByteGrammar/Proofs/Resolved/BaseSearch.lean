import ByteGrammar.Proofs.Resolved.Extends
import ByteGrammar.Proofs.Resolved.Progress

/-!
# The search for bases is right

What the search finds for an element is what it extends. A search that comes upon an element whose
own base is being sought takes it to have none, and it has none: it is only come upon because its
base depends on itself. Nor does the depth of the search ever run out, since each level has turned
to an element that was pending.
-/

set_option autoImplicit false

namespace ByteGrammar.BaseSearch

structure Settles (g : Grammar) (s : BaseSearch) : Prop where
  size : s.known.size = g.size
  right : ∀ {id : Nat} {base}, s.known[id]? = some (.done base) →
    ∀ b, base = some b ↔ g.Extends id b
  faults : s.faults = #[] ↔
    ∀ (id : Nat) base, s.known[id]? = some (.done base) → ¬g.Clashes id

def Ripe (g : Grammar) (id : Nat) (s : BaseSearch) : Prop :=
  ∀ y : Nat, s.known[y]? = some .underway → Relation.TransGen g.Precedes id y

structure Settled (g : Grammar) (id : Nat) (s : BaseSearch) (base : Option ElementId)
    (t : BaseSearch) : Prop where
  progressed : Progressed s.known t.known
  settles : Settles g t
  base : ∀ b, base = some b ↔ g.Extends id b
  met : id ∉ pendings t.known

structure Chosen (g : Grammar) (id : Nat) (s : BaseSearch) (base : Option ElementId)
    (t : BaseSearch) : Prop where
  progressed : Progressed s.known t.known
  size : t.known.size = g.size
  right : ∀ {i : Nat} {found}, t.known[i]? = some (.done found) →
    ∀ b, found = some b ↔ g.Extends i b
  faults : t.faults = #[] ↔
    (∀ (i : Nat) found, t.known[i]? = some (.done found) → ¬g.Clashes i) ∧ ¬g.Clashes id
  base : ∀ b, base = some b ↔ g.Extends id b

structure FoundChild (g : Grammar) (name : String) (steps place : Nat) (s : BaseSearch)
    (child : Option ElementId) (t : BaseSearch) : Prop where
  progressed : Progressed s.known t.known
  settles : Settles g t
  sound : ∀ c, child = some c → g.Nearest name place c
  complete : ∀ behind : Finset Nat,
    (∀ v ∈ behind, v < g.size ∧ Relation.TransGen (g.Passes name) v place) →
    g.size ≤ behind.card + steps → ∀ c, g.Nearest name place c → child = some c

def SettlesBases (g : Grammar) (depth : Nat)
    (search : ElementId → StateM BaseSearch (Option ElementId)) : Prop :=
  ∀ (id : Nat) (s : BaseSearch), Settles g s → Ripe g id s → (pendings s.known).card < depth →
    Settled g id s (search id s).1 (search id s).2

section
variable {g : Grammar}

theorem Ripe.progressed {id : Nat} {s t : BaseSearch} (h : Ripe g id s)
    (hp : Progressed s.known t.known) : Ripe g id t :=
  fun y hy => h y ((hp.underway y).mp hy)

theorem Settles.chosen {id : Nat} {s t : BaseSearch} {base : Option ElementId}
    (ht : Settles g t) (hp : Progressed s.known t.known) (hclash : ¬g.Clashes id)
    (hbase : ∀ b, base = some b ↔ g.Extends id b) : Chosen g id s base t where
  progressed := hp
  size := ht.size
  right := ht.right
  faults := ht.faults.trans ⟨fun h => ⟨h,hclash⟩,fun h => h.1⟩
  base := hbase

theorem Settles.chosen_none {id : Nat} {s t : BaseSearch} (ht : Settles g t)
    (hp : Progressed s.known t.known) (h : (∀ b, ¬g.Extends id b) ∧ ¬g.Clashes id) :
    Chosen g id s none t :=
  ht.chosen hp h.2 fun b => ⟨nofun,fun hb => absurd hb (h.1 b)⟩

theorem no_steps_left {name : String} {place c : Nat} (hplace : place < g.size)
    {behind : Finset Nat}
    (hbehind : ∀ v ∈ behind, v < g.size ∧ Relation.TransGen (g.Passes name) v place)
    (hfull : g.size ≤ behind.card) : ¬g.Nearest name place c := by
  intro hc
  have hnew : place ∉ behind := fun hin => Grammar.not_nearest_of_loop (hbehind place hin).2 hc
  have hsub : insert place behind ⊆ Finset.range g.size := by
    intro v hv
    rcases Finset.mem_insert.mp hv with rfl | hv
    · exact Finset.mem_range.mpr hplace
    · exact Finset.mem_range.mpr (hbehind v hv).1
  have hcard := Finset.card_le_card hsub
  rw [Finset.card_insert_of_notMem hnew, Finset.card_range] at hcard
  omega

theorem inherited_child_run {search : ElementId → StateM BaseSearch (Option ElementId)}
    {name : String} {place : ElementId} (hnone : g.childNamed? place name = none) (steps : Nat)
    (s : BaseSearch) :
    inheritedChild g search name (steps + 1) place s =
      match (search place s).1 with
      | some next => inheritedChild g search name steps next (search place s).2
      | none => (none,(search place s).2) := by
  rw [inheritedChild, hnone]
  show (match (search place s).1 with
    | some next => inheritedChild g search name steps next
    | none => pure none : StateM BaseSearch _) (search place s).2 = _
  cases (search place s).1 <;> rfl

theorem adopt_run (search : ElementId → StateM BaseSearch (Option ElementId))
    (id a : ElementId) (s : BaseSearch) :
    adopt g search id a s =
      match (inheritedChild g search (g.element id).name g.size a s).1 with
      | none => (none,(inheritedChild g search (g.element id).name g.size a s).2)
      | some child =>
        if child == id then (none,(inheritedChild g search (g.element id).name g.size a s).2)
        else if (g.element child).kind.agrees (g.element id).kind then
          (some child,(inheritedChild g search (g.element id).name g.size a s).2)
        else (none,report (.incompatibleBase (g.element id).label (g.label child))
          (inheritedChild g search (g.element id).name g.size a s).2) := by
  show (match (inheritedChild g search (g.element id).name g.size a s).1 with
    | none => pure none
    | some child => _ : StateM BaseSearch _)
      (inheritedChild g search (g.element id).name g.size a s).2 = _
  cases (inheritedChild g search (g.element id).name g.size a s).1 with
  | none => rfl
  | some child =>
    dsimp only
    split
    · rfl
    · split <;> rfl

def choose (g : Grammar) (search : ElementId → StateM BaseSearch (Option ElementId))
    (stated parent : Option ElementId) (id : ElementId) : StateM BaseSearch (Option ElementId) :=
  match stated, parent with
  | some target, _ => pure (some target)
  | none, none => pure none
  | none, some parent => do
    match ← search parent with
    | none => pure none
    | some ancestor => adopt g search id ancestor

theorem choose_parent_run (search : ElementId → StateM BaseSearch (Option ElementId))
    (p id : ElementId) (s : BaseSearch) :
    choose g search none (some p) id s = match (search p s).1 with
      | none => (none,(search p s).2)
      | some ancestor => adopt g search id ancestor (search p s).2 := by
  show (match (search p s).1 with
    | none => pure none
    | some ancestor => adopt g search id ancestor : StateM BaseSearch _) (search p s).2 = _
  cases (search p s).1 <;> rfl

variable (hg : g.Contained)

include hg

theorem inherited_child_found {depth : Nat}
    {search : ElementId → StateM BaseSearch (Option ElementId)}
    (hsearch : SettlesBases g depth search) {name : String} {steps place : Nat}
    {s : BaseSearch} (hplace : place < g.size) (hs : Settles g s)
    (hd : (pendings s.known).card < depth)
    (hripe : ∀ y, Relation.ReflTransGen (g.Passes name) place y →
      g.childNamed? y name = none → Ripe g y s) :
    FoundChild g name steps place s (inheritedChild g search name steps place s).1
      (inheritedChild g search name steps place s).2 := by
  induction steps generalizing place s with
  | zero =>
    refine ⟨Progressed.refl _,hs,nofun,fun behind hbehind hfull c hc => ?_⟩
    exact absurd hc (no_steps_left hplace hbehind hfull)
  | succ steps ih =>
    cases hchild : g.childNamed? place name with
    | some child =>
      rw [inheritedChild, hchild]
      refine ⟨Progressed.refl _,hs,fun c hc => ?_,fun _ _ _ c hc => ?_⟩
      · cases hc
        exact .own hchild
      · exact congrArg some ((Grammar.Finds.own hchild).unique hc)
    | none =>
      have hbase := hsearch place s hs (hripe place .refl hchild) hd
      rw [inherited_child_run hchild]
      cases hfound : (search place s).1 with
      | none =>
        refine ⟨hbase.progressed,hbase.settles,nofun,fun _ _ _ c hc => ?_⟩
        cases hc with
        | own hown => cases hchild.symm.trans hown
        | along _ hext _ => cases hfound.symm.trans ((hbase.base _).mpr hext)
      | some next =>
        have hext : g.Extends place next := (hbase.base next).mp hfound
        have hpass : g.Passes name place next := ⟨hchild,hext⟩
        have hnext := ih (hg.found_lt hext) hbase.settles (hbase.progressed.card_lt hd)
          fun y htrail hy => (hripe y (.head hpass htrail) hy).progressed hbase.progressed
        refine ⟨hbase.progressed.trans hnext.progressed,hnext.settles,?_,?_⟩
        · exact fun c hc => .along hchild hext (hnext.sound c hc)
        · intro behind hbehind hsteps c hc
          -- Were `place` behind already, the chain would loop without an element of the name.
          have hnew : place ∉ behind :=
            fun hin => Grammar.not_nearest_of_loop (hbehind place hin).2 hc
          refine hnext.complete (insert place behind) (fun v hv => ?_) ?_ c ?_
          · rcases Finset.mem_insert.mp hv with rfl | hv
            · exact ⟨hplace,.single hpass⟩
            · exact ⟨(hbehind v hv).1,.tail (hbehind v hv).2 hpass⟩
          · rw [Finset.card_insert_of_notMem hnew]
            omega
          · cases hc with
            | own hown => cases hchild.symm.trans hown
            | along _ hext' hrest =>
              obtain rfl := hext.unique hext'
              exact hrest

theorem adopt_chosen {depth : Nat}
    {search : ElementId → StateM BaseSearch (Option ElementId)}
    (hsearch : SettlesBases g depth search) {id p a : Nat} {s : BaseSearch}
    (hbase : (g.element id).base = none) (hparent : g.parent? id = some p)
    (habove : g.Extends p a) (hs : Settles g s) (hd : (pendings s.known).card < depth)
    (hripe : ∀ y, g.Precedes y id → Ripe g y s) :
    Chosen g id s (adopt g search id a s).1 (adopt g search id a s).2 := by
  have hchild : FoundChild g (g.element id).name g.size a s
      (inheritedChild g search (g.element id).name g.size a s).1
      (inheritedChild g search (g.element id).name g.size a s).2 :=
    inherited_child_found hg hsearch (hg.found_lt habove) hs hd
      fun y htrail hy => hripe y (.along hbase hparent habove htrail hy)
  rw [adopt_run]
  cases hfound : (inheritedChild g search (g.element id).name g.size a s).1 with
  | none =>
    refine hchild.settles.chosen_none hchild.progressed (Grammar.nothing_adopted hbase ?_)
    intro p' a' c hparent' habove' hnearest
    cases hparent.symm.trans hparent'
    obtain rfl := habove.unique habove'
    cases hfound.symm.trans (hchild.complete ∅ (by simp) (by simp) c hnearest)
  | some child =>
    obtain ⟨hextends,hclashes⟩ :=
      Grammar.nearest_adopted hbase hparent habove (hchild.sound child hfound)
    dsimp only
    by_cases hself : child = id
    · rw [if_pos (beq_iff_eq.mpr hself)]
      refine hchild.settles.chosen_none hchild.progressed ⟨fun b hb => ?_,fun hclash => ?_⟩
      · exact ((hextends b).mp hb).2.1 hself
      · exact (hclashes.mp hclash).1 hself
    · rw [if_neg (by simp [hself])]
      by_cases hkind : (g.element child).kind.agrees (g.element id).kind
      · rw [if_pos hkind]
        refine hchild.settles.chosen hchild.progressed (fun hclash => ?_) fun b => ?_
        · exact absurd (hkind.symm.trans (hclashes.mp hclash).2) (by decide)
        · rw [hextends b, Option.some_inj]
          exact (and_iff_left ⟨hself,hkind⟩).symm
      · rw [if_neg hkind]
        have hclash : g.Clashes id := hclashes.mpr ⟨hself,Bool.eq_false_iff.mpr hkind⟩
        refine ⟨hchild.progressed,hchild.settles.size,hchild.settles.right,
          ⟨fun h => ?_,fun h => absurd hclash h.2⟩,fun b => ⟨nofun,fun hb => ?_⟩⟩
        · exact absurd (congrArg Array.size h) (by simp [report])
        · exact absurd ((hextends b).mp hb).2.2 hkind

theorem choose_chosen (hstates : g.StatesBases) {depth : Nat}
    {search : ElementId → StateM BaseSearch (Option ElementId)}
    (hsearch : SettlesBases g depth search) {id : Nat} {s : BaseSearch} (hs : Settles g s)
    (hd : (pendings s.known).card < depth) (hripe : ∀ y, g.Precedes y id → Ripe g y s) :
    Chosen g id s (choose g search (g.statedBase? id) (g.parent? id) id s).1
      (choose g search (g.statedBase? id) (g.parent? id) id s).2 := by
  have hstated := hstates.base_eq id
  cases hbase : (g.element id).base with
  | some reference =>
    rw [hbase] at hstated
    obtain ⟨b,hfind,hb⟩ := hstated
    obtain ⟨hextends,hclash⟩ := Grammar.stated_extends hbase hfind
    rw [hb]
    exact hs.chosen (Progressed.refl _) hclash fun b' =>
      Option.some_inj.trans (hextends b').symm
  | none =>
    rw [hbase] at hstated
    rw [show g.statedBase? id = none from hstated]
    cases hparent : g.parent? id with
    | none =>
      refine hs.chosen_none (Progressed.refl _) (Grammar.nothing_adopted hbase ?_)
      intro p a c hsome
      cases hparent.symm.trans hsome
    | some p =>
      have habove := hsearch p s hs (hripe p (.parent hbase hparent)) hd
      rw [choose_parent_run]
      cases hfound : (search p s).1 with
      | none =>
        refine habove.settles.chosen_none habove.progressed (Grammar.nothing_adopted hbase ?_)
        intro p' a c hparent' ha
        cases hparent.symm.trans hparent'
        cases hfound.symm.trans ((habove.base a).mpr ha)
      | some a =>
        have hadopt := adopt_chosen hg hsearch hbase hparent ((habove.base a).mp hfound)
          habove.settles (habove.progressed.card_lt hd)
          fun y hy => (hripe y hy).progressed habove.progressed
        exact { hadopt with progressed := habove.progressed.trans hadopt.progressed }

end

section
variable {g : Grammar} {parents stated : Array (Option ElementId)}

theorem base_of_run (depth : Nat) (id : ElementId) (s : BaseSearch) :
    baseOf g parents stated (depth + 1) id s = match s.known[id]? with
      | some (.done base) => (base,s)
      | some .pending =>
        ((choose g (baseOf g parents stated depth) stated[id]?.join parents[id]?.join id
            (mark id .underway s)).1,
          mark id (.done (choose g (baseOf g parents stated depth) stated[id]?.join
            parents[id]?.join id (mark id .underway s)).1)
            (choose g (baseOf g parents stated depth) stated[id]?.join parents[id]?.join id
              (mark id .underway s)).2)
      | _ => (none,s) := by
  rw [baseOf]
  show (match s.known[id]? with
    | some (.done base) => pure base
    | some .pending => _
    | _ => pure none : StateM BaseSearch _) s = _
  rcases s.known[id]? with - | (- | - | base)
  · rfl
  · dsimp only
    cases stated[id]?.join with
    | some target => rfl
    | none =>
      cases parents[id]?.join with
      | none => rfl
      | some parent =>
        rw [choose_parent_run]
        show (match (baseOf g parents stated depth parent (mark id .underway s)).1 with
          | none => _
          | some ancestor => _ : StateM BaseSearch _)
            (baseOf g parents stated depth parent (mark id .underway s)).2 = _
        cases (baseOf g parents stated depth parent (mark id .underway s)).1 <;> rfl
  · rfl
  · rfl

theorem Settles.turned {id : Nat} {s : BaseSearch} (hs : Settles g s)
    (hk : s.known[id]? = some .pending) : Settles g (mark id .underway s) where
  size := by rw [mark, Array.size_setIfInBounds, hs.size]
  right := fun hi => hs.right ((underway_done hk).mp hi)
  faults := hs.faults.trans
    ⟨fun h i base hi => h i base ((underway_done hk).mp hi),
      fun h i base hi => h i base ((underway_done hk).mpr hi)⟩

theorem Ripe.turned {id y : Nat} {s : BaseSearch} (h : Ripe g id s)
    (hk : s.known[id]? = some .pending) (hy : g.Precedes y id) :
    Ripe g y (mark id .underway s) := by
  intro z hz
  rcases (underway_iff hk z).mp hz with rfl | hz
  · exact .single hy
  · exact .head hy (h z hz)

theorem Chosen.settled {id : Nat} {s t : BaseSearch} {base : Option ElementId}
    (hk : s.known[id]? = some .pending) (h : Chosen g id (mark id .underway s) base t) :
    Settled g id s base (mark id (.done base) t) := by
  obtain ⟨hprogressed,hmet⟩ := Progressed.finished hk h.progressed base
  have hdone : ∀ (i : Nat) found, (mark id (.done base) t).known[i]? = some (.done found) ↔
      id = i ∧ base = found ∨ t.known[i]? = some (.done found) :=
    fun i found => done_iff hk h.progressed base i found
  refine ⟨hprogressed,⟨?_,fun hi => ?_,h.faults.trans ⟨?_,?_⟩⟩,h.base,hmet⟩
  · rw [mark, Array.size_setIfInBounds, h.size]
  · rcases (hdone _ _).mp hi with ⟨rfl,rfl⟩ | hi
    · exact h.base
    · exact h.right hi
  · rintro ⟨hothers,hself⟩ i found hi
    rcases (hdone i found).mp hi with ⟨rfl,-⟩ | hi
    · exact hself
    · exact hothers i found hi
  · intro hall
    exact ⟨fun i found hi => hall i found ((hdone i found).mpr (.inr hi)),
      hall id base ((hdone id base).mpr (.inl ⟨rfl,rfl⟩))⟩

variable (hg : g.Contained) (hstates : g.StatesBases)
  (hstated : ∀ id : Nat, id < g.size → stated[id]?.join = g.statedBase? id)
  (hparents : ∀ id : Nat, id < g.size → parents[id]?.join = g.parent? id)

include hg hstates hstated hparents

/-- The search settles the base of every element, however deep it goes. -/
theorem base_of_settles (depth : Nat) : SettlesBases g depth (baseOf g parents stated depth) := by
  induction depth with
  | zero => exact fun _ _ _ _ hd => absurd hd (Nat.not_lt_zero _)
  | succ depth ih =>
    intro id s hs hripe hd
    rw [base_of_run]
    cases hk : s.known[id]? with
    | none =>
      refine ⟨Progressed.refl _,hs,fun b => ⟨nofun,fun hb => ?_⟩,fun hp => ?_⟩
      · have hlt := hg.extends_lt hb
        rw [← hs.size] at hlt
        rw [Array.getElem?_eq_getElem hlt] at hk
        cases hk
      · cases hk.symm.trans (mem_pendings.mp hp)
    | some progress =>
      cases progress with
      | underway =>
        refine ⟨Progressed.refl _,hs,fun b => ⟨nofun,fun hb => ?_⟩,fun hp => ?_⟩
        · exact absurd hb (Grammar.not_extends_of_loop (hripe id hk))
        · cases hk.symm.trans (mem_pendings.mp hp)
      | done base =>
        refine ⟨Progressed.refl _,hs,hs.right hk,fun hp => ?_⟩
        cases hk.symm.trans (mem_pendings.mp hp)
      | pending =>
        have hlt : id < g.size := hs.size ▸ pending_lt hk
        dsimp only
        rw [hstated id hlt, hparents id hlt]
        have hcard : (pendings (mark id .underway s).known).card < depth :=
          Nat.lt_of_lt_of_le (underway_card hk) (Nat.le_of_lt_succ hd)
        exact (choose_chosen hg hstates ih (hs.turned hk) hcard
          fun y hy => hripe.turned hk hy).settled hk

theorem run_settles (ids : List ElementId) {s : BaseSearch} (hs : Settles g s)
    (hidle : ∀ i : Nat, s.known[i]? ≠ some .underway) :
    Settles g (ids.forM (fun id => discard (baseOf g parents stated (g.size + 1) id)) s).2 ∧
      Progressed s.known
        (ids.forM (fun id => discard (baseOf g parents stated (g.size + 1) id)) s).2.known ∧
      ∀ id : Nat, id ∈ ids → id ∉ pendings
        (ids.forM (fun id => discard (baseOf g parents stated (g.size + 1) id)) s).2.known := by
  induction ids generalizing s with
  | nil => exact ⟨hs,Progressed.refl _,nofun⟩
  | cons first rest ih =>
    have hcard := pendings_card_le s.known
    have hfirst := base_of_settles hg hstates hstated hparents (g.size + 1) first s hs
      (fun y hy => absurd hy (hidle y)) (by rw [hs.size] at hcard; omega)
    obtain ⟨hsettles,hprogressed,hmet⟩ := ih hfirst.settles
      fun i hi => hidle i ((hfirst.progressed.underway i).mp hi)
    refine ⟨hsettles,hfirst.progressed.trans hprogressed,fun id hid => ?_⟩
    rcases List.mem_cons.mp hid with rfl | hid
    · exact fun hp => hfirst.met (hprogressed.pending hp)
    · exact hmet id hid

/-- The bases that are found are those that the elements extend, and there are faults just if some
element clashes. -/
theorem run_right :
    (∀ (id : Nat) (b : ElementId), (run g parents stated).bases[id]?.join = some b ↔
      g.Extends id b) ∧
      ((run g parents stated).faults = #[] ↔ ∀ id, ¬g.Clashes id) := by
  have hstart : Settles g (start g) :=
    ⟨Array.size_replicate,fun h => absurd (start_pending h) nofun,
      ⟨fun _ i base h => absurd (start_pending h) nofun,fun _ => rfl⟩⟩
  have hidle : ∀ i : Nat, (start g).known[i]? ≠ some .underway :=
    fun i h => absurd (start_pending h) nofun
  obtain ⟨hsettles,hprogressed,hmet⟩ :=
    run_settles hg hstates hstated hparents (List.range g.size) hstart hidle
  have hdone : ∀ id : Nat, id < g.size →
      ∃ base, (run g parents stated).known[id]? = some (.done base) := by
    intro id hid
    refine done_of_finished (hsettles.size.symm ▸ hid) (hmet id (List.mem_range.mpr hid)) ?_
    exact fun h => hidle id ((hprogressed.underway id).mp h)
  constructor
  · intro id b
    by_cases hid : id < g.size
    · obtain ⟨base,hbase⟩ := hdone id hid
      rw [bases, Array.getElem?_map, hbase]
      exact hsettles.right hbase b
    · rw [bases, Array.getElem?_map, Array.getElem?_eq_none (by
        rw [show (run g parents stated).known.size = g.size from hsettles.size]
        exact Nat.le_of_not_lt hid)]
      exact ⟨nofun,fun h => absurd (hg.extends_lt h) hid⟩
  · refine hsettles.faults.trans ⟨fun h id hclash => ?_,fun h id _ _ => h id⟩
    have hwitness := hclash
    obtain ⟨p,-,-,-,hparent,-⟩ := hwitness
    obtain ⟨base,hbase⟩ := hdone id (hg.below (Grammar.parent_children hparent))
    exact h id base hbase hclash

end

end ByteGrammar.BaseSearch
