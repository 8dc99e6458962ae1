import ByteGrammar.Proofs.Resolved.Derived
import ByteGrammar.Proofs.Resolved.Merging
import ByteGrammar.Proofs.Resolved.WellFormed

/-!
# Structures over their bases

A structure that extends another one has the members of that, with its own children put over them
by name. The members of the base under the names of its children are also what the children extend,
unless they state something else: two searches that know nothing of each other come to the same.
-/

set_option autoImplicit false

namespace ByteGrammar

/-- What becomes of the children of a structure. Of those with one name the last is kept, where the
base has the first of that name or behind all that it has. -/
structure Resolved.Kept (g : Resolved) (id : ElementId) : Prop where
  alone : (g.attributesOf id).base = none → g.membersOf id = g.grammar.children id
  once : ∀ child ∈ g.grammar.children id, (g.membersOf id).count child =
    if (g.attributesOf id).base = none ∨
      g.grammar.lastNamed (g.element child).name (g.grammar.children id) = some child then 1 else 0
  place : ∀ a, (g.attributesOf id).base = some a → ∀ child,
    g.grammar.lastNamed (g.element child).name (g.grammar.children id) = some child →
    ∃ i : Nat, (g.membersOf id)[i]? = some child ∧
      match g.grammar.firstNamed (g.element child).name (g.membersOf a) with
      | some replaced => (g.membersOf a)[i]? = some replaced
      | none => (g.membersOf a).length ≤ i

/-- What a structure has from its base and of its own, where no two children have one name. -/
structure Resolved.Overlaid (g : Resolved) (id : ElementId) : Prop where
  alone : (g.attributesOf id).base = none → g.membersOf id = g.grammar.children id
  names : ∀ a, (g.attributesOf id).base = some a →
    g.grammar.names (g.membersOf id) = g.grammar.names (g.membersOf a) ++
      (g.grammar.names (g.grammar.children id)).filter (· ∉ g.grammar.names (g.membersOf a))
  distinct : (g.grammar.names (g.membersOf id)).Nodup
  /-- Under each name stands the structure's own child, or else what the base has. -/
  chosen : ∀ a, (g.attributesOf id).base = some a → ∀ name,
    g.grammar.firstNamed name (g.membersOf id) =
      (g.grammar.firstNamed name (g.grammar.children id)).or
        (g.grammar.firstNamed name (g.membersOf a))
  /-- A child that states no base extends what the base of the structure has under its name. -/
  adopted : ∀ a, (g.attributesOf id).base = some a → ∀ child ∈ g.grammar.children id,
    (g.element child).base = none →
    (g.attributesOf child).base = g.grammar.firstNamed (g.element child).name (g.membersOf a)

namespace Grammar

section
variable {authored : Grammar}

theorem linked_members (hlink : authored.link.2 = []) (id : ElementId) :
    authored.link.1.membersOf id = match (authored.link.1.attributesOf id).base with
      | none => authored.arena.children id
      | some a =>
        authored.arena.mergeMembers (authored.link.1.membersOf a) (authored.arena.children id) := by
  have hsize : authored.linkedBases.size = authored.arena.size := BaseSearch.bases_size _ _ _
  have hbase : (authored.link.1.attributesOf id).base = authored.linkedBases[id]?.join :=
    (link_placed id).2
  simp only [linked_members_of, hbase, ← hsize]
  exact authored.arena.members_of_base (linked_acyclic hlink) id

theorem linked_alone (hlink : authored.link.2 = []) {id : ElementId}
    (hbase : (authored.link.1.attributesOf id).base = none) :
    authored.link.1.membersOf id = authored.arena.children id := by
  rw [linked_members hlink, hbase]

theorem linked_merged (hlink : authored.link.2 = []) {id a : ElementId}
    (hbase : (authored.link.1.attributesOf id).base = some a) : authored.link.1.membersOf id =
      authored.arena.mergeMembers (authored.link.1.membersOf a) (authored.arena.children id) := by
  rw [linked_members hlink, hbase]

theorem linked_not_inherited (hb : authored.Built) (hlink : authored.link.2 = [])
    {id a child : ElementId} (hbase : (authored.link.1.attributesOf id).base = some a)
    (hown : child ∈ authored.arena.children id) : child ∉ authored.link.1.membersOf a := by
  rw [linked_members_of]
  exact authored.arena.own_not_inherited ((built_forest hb).push .padding) (linked_acyclic hlink)
    ((link_placed id).2.symm.trans hbase) hown _

/-- A structure without a base keeps its children. With one it keeps each child that is the last of
its name, and loses the others. -/
theorem children_kept {g : Resolved} (hb : authored.Built) (h : authored.resolve = .ok g)
    (id : ElementId) : g.Kept id := by
  have hnodup := (resolve_assembled hb h).nodup
  obtain ⟨rfl,hlink,-⟩ := resolve_ok h
  refine ⟨linked_alone hlink,fun child hown => ?_,fun a hbase child hlast => ?_⟩
  · rw [(hnodup id).count]
    refine if_congr ?_ rfl rfl
    cases hbase : (authored.link.1.attributesOf id).base with
    | none =>
      rw [linked_alone hlink hbase]
      exact iff_of_true hown (.inl rfl)
    | some a =>
      rw [linked_merged hlink hbase, authored.arena.mem_merge_own (hnodup a)
        (((built_forest hb).push .padding).nodup id)
        (fun _ => linked_not_inherited hb hlink hbase) hown]
      exact (or_iff_right nofun).symm
  · rw [linked_merged hlink hbase]
    exact authored.arena.merge_place hlast

end

def doubled : Grammar :=
  let g := (Grammar.new "doubled").add (Element.struct "plain")
  let g := (g.addChildren 1 [(Element.number "a").withLength (.literal 1)]).toOption.getD g
  let g := g.add ((Element.struct "wide").withBase (.name "plain"))
  let g := (g.addChildren 3 [(Element.number "n").withLength (.literal 1),
    (Element.number "n").withLength (.literal 1)]).toOption.getD g
  g.setStart (.name "wide")

theorem doubled_built : doubled.Built :=
  .setStart _ (.grown (.add _ (.grown (.add _ (.new _)) 1 _)) 3 _)

theorem doubled_resolves : doubled.resolve = .ok doubled.link.1 := resolve_sound (by decide +kernel)

theorem doubled_kept : doubled.link.1.Kept 3 ∧ (doubled.link.1.membersOf 3).count 5 = 1 :=
  ⟨children_kept doubled_built doubled_resolves 3,by decide +kernel⟩

/-- The first of the numbers is lost, although the other structure has none of its name. -/
theorem doubled_lost : doubled.Built ∧ doubled.resolve = .ok doubled.link.1 ∧
    (doubled.link.1.attributesOf 3).base = some 1 ∧ (doubled.link.1.membersOf 1) = [2] ∧
    doubled.link.1.grammar.children 3 = [4,5] ∧
    (doubled.link.1.element 4).name = (doubled.link.1.element 5).name ∧
    (doubled.link.1.element 4).name ≠ (doubled.link.1.element 2).name ∧
    (doubled.link.1.membersOf 3).count 4 = 0 :=
  ⟨doubled_built,doubled_resolves,by decide +kernel⟩

section
variable {g : Grammar} {bases : Array (Option ElementId)}
  (hextends : ∀ id b, bases[id]?.join = some b ↔ g.Extends id b)
  (hdistinct : ∀ id, (g.names (g.children id)).Nodup)

include hdistinct in
theorem first_named_members (name : String) (steps : Nat) (place : ElementId) :
    g.firstNamed name (g.membersOf bases (steps + 1) place) =
      (g.childNamed? place name).or
        (bases[place]?.join.bind fun b => g.firstNamed name (g.membersOf bases steps b)) := by
  rw [membersOf]
  cases bases[place]?.join with
  | none => exact Option.or_none.symm
  | some b =>
    dsimp only
    rw [first_named_merge, last_named_distinct _ (hdistinct place)]
    rfl

include hextends hdistinct

/-- What the members have under a name is the nearest child of that name. -/
theorem nearest_of_member {name : String} {steps : Nat} {place c : ElementId}
    (h : g.firstNamed name (g.membersOf bases steps place) = some c) :
    g.Nearest name place c := by
  induction steps generalizing place with
  | zero => exact .own h
  | succ steps ih =>
    rw [first_named_members hdistinct] at h
    cases hchild : g.childNamed? place name with
    | some child =>
      rw [hchild] at h
      exact .own (hchild.trans h)
    | none =>
      rw [hchild, Option.none_or] at h
      obtain ⟨b,hb,hrest⟩ := Option.bind_eq_some_iff.mp h
      exact .along hchild ((hextends place b).mp hb) (ih hrest)

theorem member_of_nearest (hb : Acyclic bases) {name : String} {place c : ElementId}
    (h : g.Nearest name place c) :
    g.firstNamed name (g.membersOf bases bases.size place) = some c := by
  -- No chain of bases is longer than the table, so one more step changes nothing.
  have hstep : ∀ place, g.firstNamed name (g.membersOf bases bases.size place) =
      (g.childNamed? place name).or (bases[place]?.join.bind fun b =>
        g.firstNamed name (g.membersOf bases bases.size b)) := by
    intro place
    rw [← g.members_of_more (chain_length_le hb _ place), first_named_members hdistinct]
  unfold Nearest at h
  generalize hs : Sought.child name place = sought at h
  induction h generalizing place with
  | stated _ _ => cases hs
  | adopted _ _ _ _ _ _ _ _ => cases hs
  | own hchild =>
    cases hs
    rw [hstep, hchild]
    rfl
  | along hnone base _ _ ihrest =>
    cases hs
    rw [hstep, hnone, (hextends _ _).mpr base]
    exact ihrest rfl

end

section
variable {authored : Grammar}

theorem linked_adopted (hb : authored.Built) (hlink : authored.link.2 = [])
    (hdistinct : ∀ id, (authored.arena.names (authored.arena.children id)).Nodup)
    {id a child : ElementId} (hbase : (authored.link.1.attributesOf id).base = some a)
    (hown : child ∈ authored.arena.children id)
    (hopen : (authored.arena.element child).base = none) :
    (authored.link.1.attributesOf child).base = authored.arena.firstNamed
      (authored.arena.element child).name (authored.link.1.membersOf a) := by
  obtain ⟨hstated,-,hfaults,-⟩ := (link_faults_nil authored).mp hlink
  obtain ⟨hextends,hclashes⟩ := linked_bases_extend hb (stated_faults_nil.mp hstated)
  have hlinked : ∀ {id b}, (authored.link.1.attributesOf id).base = some b ↔
      authored.arena.Extends id b := by
    intro id b
    rw [(link_placed id).2]
    exact hextends id b
  have hplace := child_parent ((built_forest hb).push .padding) hown
  have habove := hlinked.mp hbase
  have hsize : authored.linkedBases.size = authored.arena.size := BaseSearch.bases_size _ _ _
  rw [linked_members_of]
  cases hfirst : authored.arena.firstNamed (authored.arena.element child).name
      (authored.arena.membersOf authored.linkedBases authored.arena.size a) with
  | some c =>
    have hnearest := nearest_of_member hextends hdistinct hfirst
    obtain ⟨hiff,hclash⟩ := nearest_adopted hopen hplace habove hnearest
    have hother : c ≠ child := by
      rintro rfl
      refine linked_not_inherited hb hlink hbase hown ?_
      rw [linked_members_of]
      exact first_named_mem _ hfirst
    have hkind : (authored.arena.element c).kind.agrees (authored.arena.element child).kind := by
      by_contra hnot
      exact hclashes.mp hfaults child (hclash.mpr ⟨hother,Bool.eq_false_iff.mpr hnot⟩)
    exact hlinked.mpr ((hiff c).mpr ⟨rfl,hother,hkind⟩)
  | none =>
    have hnone := (nothing_adopted hopen fun p x c hp hx hc => ?_).1
    · cases hchild : (authored.link.1.attributesOf child).base with
      | none => rfl
      | some b => exact absurd (hlinked.mp hchild) (hnone b)
    · cases hplace.symm.trans hp
      obtain rfl := habove.unique hx
      have hmember := member_of_nearest hextends hdistinct (linked_acyclic hlink) hc
      rw [hsize] at hmember
      cases hfirst.symm.trans hmember

/-- Where no two children of a structure have one name, its members are those of its base under
their names in their places, and behind them its children under other names. -/
theorem members_overlaid {g : Resolved} (hb : authored.Built) (h : authored.resolve = .ok g)
    (hdistinct : ∀ id, (g.grammar.names (g.grammar.children id)).Nodup) (id : ElementId) :
    g.Overlaid id := by
  obtain ⟨rfl,hlink,-⟩ := resolve_ok h
  change ∀ id, (authored.arena.names (authored.arena.children id)).Nodup at hdistinct
  refine ⟨linked_alone hlink,fun a hbase => ?_,?_,fun a hbase name => ?_,
    fun a hbase child hown hopen => linked_adopted hb hlink hdistinct hbase hown hopen⟩
  · rw [linked_merged hlink hbase]
    exact names_merge _ _ (hdistinct id)
  · rw [linked_members_of]
    exact names_members_of_nodup _ hdistinct _ id
  · rw [linked_merged hlink hbase]
    refine (authored.arena.first_named_merge name _ _).trans ?_
    rw [last_named_distinct _ (hdistinct id)]
    rfl

end

theorem boxed_built : boxed.Built :=
  .setStart _ (.grown (.add _ (.grown (.add _ (.new _)) 1 _)) 3 _)

theorem boxed_overlaid : boxed.link.1.Overlaid 3 ∧ boxed.link.1.membersOf 1 = [2] ∧
    boxed.link.1.membersOf 3 = [4,5,6] ∧ (boxed.link.1.attributesOf 4).base = some 2 := by
  refine ⟨members_overlaid boxed_built (resolve_sound (by decide +kernel)) (fun id => ?_) 3,
    by decide +kernel⟩
  have hall : ∀ id < boxed.arena.size, (boxed.arena.names (boxed.arena.children id)).Nodup := by
    decide +kernel
  rcases Nat.lt_or_ge id boxed.arena.size with hid | hid
  · exact hall id hid
  · rw [show boxed.link.1.grammar.children id = [] from children_outside _ _ hid]
    exact List.nodup_nil

end Grammar
end ByteGrammar
