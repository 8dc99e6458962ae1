import ByteGrammar.Proofs.Resolved.Lookups
import ByteGrammar.Proofs.Resolved.WellFormed

/-!
# Resolution without bounds

A resolution whose look-ups are bounded by nothing but their marks and by what they have seen. On
every grammar that was built it comes to an end, with one outcome: that of resolution.
-/

set_option autoImplicit false

namespace ByteGrammar.Grammar

def places (authored : Grammar) : List ElementId := List.range authored.arena.size

structure Lookups where
  search : BaseSearch
  leads : List Bool
  members : List (List ElementId)
  attributes : List Attributes
  walk : List (ElementId × Option ElementId)

def resolvedBy (authored : Grammar) (found : Lookups) : Resolved :=
  let attributes := (found.attributes.zip authored.places).map fun (a, id) =>
    { a with target := authored.arena.target? id }
  { grammar := authored.arena
    start := authored.arena.startPlace.toOption.getD root
    padding := authored.size
    attributes := ((attributes.zip authored.places).map fun (a, id) =>
      authored.arena.completeReference attributes.toArray id a).toArray
    members := found.members.toArray }

def faultsBy (authored : Grammar) (found : Lookups) : List GrammarFault :=
  authored.arena.statedBaseFaults ++
    (match authored.arena.startPlace with
      | .ok _ => []
      | .error fault => [fault]) ++ found.search.faults.toList ++
    ((authored.places.zip found.leads).filter Prod.snd).map
      (fun x => .baseCycle (authored.arena.label x.1)) ++
    authored.places.flatMap authored.arena.targetFaults ++
    (authored.resolvedBy found).checkElements [] (found.walk.map Prod.fst)

def outcomeBy (authored : Grammar) (found : Lookups) : Except (List GrammarFault) Resolved :=
  match authored.faultsBy found with
  | [] => .ok (authored.resolvedBy found)
  | faults => .error faults

structure Finishes (authored : Grammar) (found : Lookups) : Prop where
  bases : ∃ results, InOrder (BaseSearch.Seeks authored.arena
    (authored.places.map authored.arena.parent?).toArray
    (authored.places.map authored.arena.statedBase?).toArray) authored.places
    (BaseSearch.start authored.arena) results found.search
  cycles : List.Forall₂ (fun id leads => Circles found.search.bases id ∅
    found.search.bases[id]?.join leads) authored.places found.leads
  members : ∃ table, InOrder (authored.arena.Gathers found.search.bases) authored.places
    (Array.replicate authored.arena.size .pending) found.members table
  attributes : ∃ known, InOrder (Links.Derives ⟨authored.arena,
    (authored.places.map authored.arena.parent?).toArray,found.search.bases⟩) authored.places
    (Array.replicate authored.arena.size .pending) found.attributes known
  walk : WalksAll authored.arena none authored.arena.topLevel found.walk

/-- That a resolution without bounds comes to an end with this outcome. -/
def Resolves (authored : Grammar) (outcome : Except (List GrammarFault) Resolved) : Prop :=
  ∃ found, authored.Finishes found ∧ outcome = authored.outcomeBy found

section
variable {authored : Grammar}

def foundWith (authored : Grammar) (members : List (List ElementId)) : Lookups where
  search := authored.baseSearch
  leads := authored.places.map (leadsCycle authored.linkedBases)
  members := members
  attributes := authored.links.attributes
  walk := authored.arena.walk

theorem check_elements_members (g : Resolved) (members : Array (List ElementId))
    (seen ids : List ElementId) :
    { g with members := members }.checkElements seen ids = g.checkElements seen ids := by
  induction ids generalizing seen with
  | nil => rfl
  | cons id rest ih =>
    rw [Resolved.checkElements, Resolved.checkElements, ih, ih]
    rfl

theorem map_zip_filter {α β : Type} (p : α → Bool) (f : α → β) (xs : List α) :
    ((xs.zip (xs.map p)).filter Prod.snd).map (fun x => f x.1) = (xs.filter p).map f := by
  induction xs with
  | nil => rfl
  | cons x rest ih =>
    rw [List.map_cons, List.zip_cons_cons]
    by_cases hp : p x
    · rw [List.filter_cons_of_pos hp, List.filter_cons_of_pos (by simpa using hp), List.map_cons,
        List.map_cons, ih]
    · rw [List.filter_cons_of_neg hp, List.filter_cons_of_neg (by simpa using hp), ih]

/-- Whatever the members, the faults are those of resolution. -/
theorem faults_found (members : List (List ElementId)) :
    authored.faultsBy (authored.foundWith members) = authored.link.2 ++ authored.link.1.check := by
  have hcycles : ((authored.places.zip (authored.foundWith members).leads).filter Prod.snd).map
      (fun x => GrammarFault.baseCycle (authored.arena.label x.1)) =
        authored.arena.cycleFaults authored.linkedBases :=
    map_zip_filter (leadsCycle authored.linkedBases)
      (fun id => GrammarFault.baseCycle (authored.arena.label id)) authored.places
  rw [faultsBy, hcycles, link_faults_eq]
  exact congrArg _ (check_elements_members authored.link.1 members.toArray [] _)

/-- With the members that resolution finds if there are no faults, the outcome is that of
resolution. -/
theorem outcome_found {members : List (List ElementId)}
    (h : authored.link.2 = [] → members = authored.places.map
      (authored.arena.membersOf authored.linkedBases authored.arena.size)) :
    authored.outcomeBy (authored.foundWith members) = authored.resolve := by
  rw [outcomeBy, faults_found, resolve]
  dsimp only
  cases hfaults : authored.link.2 ++ authored.link.1.check with
  | nil =>
    rw [h (List.append_eq_nil_iff.mp hfaults).1]
    rfl
  | cons fault rest => rfl

/-- The look-ups of a grammar that was built come to an end, and what they find is what resolution
finds, for the members if there are no faults. -/
theorem finishes_iff (hb : authored.Built) : ∃ members,
    (authored.link.2 = [] → members = authored.places.map
      (authored.arena.membersOf authored.linkedBases authored.arena.size)) ∧
    ∀ found, authored.Finishes found ↔ found = authored.foundWith members := by
  have hbases := BaseSearch.run_seeks authored.arena
    (authored.places.map authored.arena.parent?).toArray
    (authored.places.map authored.arena.statedBase?).toArray
  have hsize : authored.linkedBases.size = authored.arena.size := BaseSearch.bases_size _ _ _
  obtain ⟨members,hmembers,hright⟩ := members_gathered authored.arena hsize
  have hattributes := authored.links.attributes_derived
  have hwalk := walk_walks (hb.nested .padding) (hb.contained .padding)
  have hcycles : ∀ leads, List.Forall₂ (fun id leads => Circles authored.linkedBases id ∅
      authored.linkedBases[id]?.join leads) authored.places leads ↔
      leads = authored.places.map (leadsCycle authored.linkedBases) := by
    intro leads
    have hflip : (fun id leads => Circles authored.linkedBases id ∅
        authored.linkedBases[id]?.join leads) =
        fun id leads => leadsCycle authored.linkedBases id = leads :=
      funext fun id => funext fun leads => propext (circles_iff.trans eq_comm)
    rw [hflip, ← List.forall₂_map_left_iff (f := leadsCycle authored.linkedBases),
      List.forall₂_eq_eq_eq, eq_comm]
  refine ⟨members,fun hlink => hright (linked_acyclic hlink),?_⟩
  rintro ⟨search,leads,lists,attributes,walk⟩
  constructor
  · intro h
    obtain rfl : search = authored.baseSearch := (hbases search).mp h.bases
    obtain rfl := (hcycles leads).mp h.cycles
    obtain rfl := (hmembers lists).mp h.members
    obtain rfl : attributes = authored.links.attributes := (hattributes attributes).mp h.attributes
    obtain rfl := (hwalk walk).mp h.walk
    rfl
  · intro h
    cases h
    exact ⟨(hbases _).mpr rfl,(hcycles _).mpr rfl,(hmembers _).mpr rfl,(hattributes _).mpr rfl,
      (hwalk _).mpr rfl⟩

theorem resolves_iff_resolve (hb : authored.Built)
    (outcome : Except (List GrammarFault) Resolved) :
    authored.Resolves outcome ↔ outcome = authored.resolve := by
  obtain ⟨members,hmembers,hfinishes⟩ := finishes_iff hb
  rw [← outcome_found hmembers]
  simp only [Resolves, hfinishes, exists_eq_left]

end

end ByteGrammar.Grammar
