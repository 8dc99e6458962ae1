import ByteGrammar.Proofs.Resolved.Bases
import ByteGrammar.Proofs.Resolved.BaseSearch
import ByteGrammar.Proofs.Resolved.InForce
import ByteGrammar.Proofs.Resolved.Ready

/-!
# What resolves

A grammar that only grew resolves just if it is well-formed: what it refers to can be found and is
of the kind that is asked for, nothing extends itself, no number stands for two elements, and every
element that needs a length has one in force.
-/

set_option autoImplicit false

namespace ByteGrammar.Grammar

abbrev arena (authored : Grammar) : Grammar := authored.push .padding

def Measured (g : Grammar) (id : ElementId) : Prop :=
  match (g.element id).kind with
  | .number _ | .binary _ | .custom _ | .offset _ => True
  | .text _ => g.InForce Settings.textKind id .fixedLength
  | _ => False

/-- What is asked of a grammar. Its elements must find what they refer to, and their bases are
those of the relation `Extends`, which knows of no search and no order. -/
structure WellFormed (authored : Grammar) : Prop where
  start : ∃ reference id, authored.start = some reference ∧
    authored.arena.find? reference = some id
  bases : ∀ id reference, (authored.arena.element id).base = some reference →
    ∃ b, authored.arena.find? reference = some b ∧
      (authored.arena.element b).kind.agrees (authored.arena.element id).kind
  /-- The nearest child of its name is no obstacle to an element that states no base. -/
  adopted : ∀ id p a c, (authored.arena.element id).base = none →
    authored.arena.parent? id = some p → authored.arena.Extends p a →
    authored.arena.Nearest (authored.arena.element id).name a c →
    c = id ∨ (authored.arena.element c).kind.agrees (authored.arena.element id).kind
  acyclic : ∀ id, ¬Relation.TransGen authored.arena.Extends id id
  /-- References to structures and links to scripts lead to such. -/
  links : ∀ id designator aim, (authored.arena.element id).link? = some (designator,aim) →
    ∃ t, authored.arena.findTarget? id aim designator = some t ∧
      aim.admits (authored.arena.element t).kind
  anchors : ∀ id, ∀ anchor ∈ (authored.arena.element id).anchors,
    ∃ t, authored.arena.find? anchor = some t
  distinct : ∀ id id', authored.Added id → authored.Added id' → (authored.element id).id ≠ 0 →
    (authored.element id).id = (authored.element id').id → id = id'
  lengths : ∀ id, authored.Added id → authored.arena.Measured id →
    ∃ q, authored.arena.InForce Settings.length id q

theorem resolves_iff (authored : Grammar) :
    (∃ g, authored.resolve = .ok g) ↔ authored.link.2 = [] ∧ authored.link.1.check = [] := by
  constructor
  · rintro ⟨g,h⟩
    obtain ⟨rfl,hlink,hcheck⟩ := resolve_ok h
    exact ⟨hlink,hcheck⟩
  · rintro ⟨hlink,hcheck⟩
    exact ⟨_,resolve_sound (by rw [hlink, hcheck]; rfl)⟩

theorem start_place_iff (g : Grammar) :
    (∃ id, g.startPlace = .ok id) ↔
      ∃ reference id, g.start = some reference ∧ g.find? reference = some id := by
  unfold startPlace
  cases hs : g.start with
  | none => simp
  | some reference =>
    cases hf : g.find? reference with
    | none => simp [hf]
    | some id => simp [hf]

theorem not_clashes_iff (g : Grammar) (id : ElementId) :
    ¬g.Clashes id ↔ ∀ p a c, (g.element id).base = none → g.parent? id = some p →
      g.Extends p a → g.Nearest (g.element id).name a c →
      c = id ∨ (g.element c).kind.agrees (g.element id).kind := by
  constructor
  · intro h p a c hbase hparent habove hnearest
    by_contra hnot
    obtain ⟨hother,hkind⟩ := not_or.mp hnot
    exact h ⟨p,a,c,hbase,hparent,habove,hnearest,hother,Bool.eq_false_iff.mpr hkind⟩
  · rintro h ⟨p,a,c,hbase,hparent,habove,hnearest,hother,hkind⟩
    rcases h p a c hbase hparent habove hnearest with rfl | hagrees
    · exact hother rfl
    · rw [hkind] at hagrees
      cases hagrees

theorem follow_iff (g : Grammar) (id : ElementId) (aim : Aim) (designator : Designator) :
    (∃ t, g.follow id aim designator = .ok t) ↔
      ∃ t, g.findTarget? id aim designator = some t ∧ aim.admits (g.element t).kind := by
  constructor
  · rintro ⟨t,ht⟩
    exact ⟨t,follow_ok ht⟩
  · rintro ⟨t,hfound,hadmits⟩
    exact ⟨t,by simp only [follow, hfound, if_pos hadmits]⟩

theorem targets_iff (g : Grammar) :
    (∀ id : Nat, id < g.size → g.targetFaults id = []) ↔
      (∀ id designator aim, (g.element id).link? = some (designator,aim) →
        ∃ t, g.findTarget? id aim designator = some t ∧ aim.admits (g.element t).kind) ∧
      ∀ id, ∀ anchor ∈ (g.element id).anchors, ∃ t, g.find? anchor = some t := by
  simp only [target_faults_nil, follow_iff, Option.isSome_iff_exists]
  constructor
  · intro h
    refine ⟨fun id designator aim hlink => ?_,fun id anchor hanchor => ?_⟩
    · by_cases hid : id < g.size
      · exact (h id hid).2 designator aim hlink
      · rw [element_outside g id (Nat.le_of_not_lt hid)] at hlink
        cases hlink
    · by_cases hid : id < g.size
      · exact (h id hid).1 anchor hanchor
      · rw [element_outside g id (Nat.le_of_not_lt hid)] at hanchor
        cases hanchor
  · exact fun h id _ => ⟨h.2 id,h.1 id⟩

/-- The bases that linking finds are those that the elements extend, and the search for them finds
fault just if some element clashes. -/
theorem linked_bases_extend {authored : Grammar} (hb : authored.Built)
    (hstates : authored.arena.StatesBases) :
    (∀ (id : Nat) (b : ElementId), authored.linkedBases[id]?.join = some b ↔
      authored.arena.Extends id b) ∧
      (authored.baseSearch.faults = #[] ↔ ∀ id, ¬authored.arena.Clashes id) := by
  exact BaseSearch.run_right (hb.contained _) hstates
    (fun _ hid => congrArg Option.join (table_get authored.arena.statedBase? hid))
    (fun _ hid => congrArg Option.join (table_get authored.arena.parent? hid))

section
variable {authored : Grammar} (hgrown : authored.Grown)

include hgrown

theorem cycles_iff (hstates : authored.arena.StatesBases) :
    authored.arena.cycleFaults authored.linkedBases = [] ↔
      ∀ id, ¬Relation.TransGen authored.arena.Extends id id := by
  rw [← acyclic_iff (linked_bases_extend hgrown.built hstates).1]
  exact ⟨no_cycles (BaseSearch.bases_size _ _ _),cycle_faults_of_acyclic _⟩

theorem parent_struct {id p : Nat} (h : authored.arena.parent? id = some p) :
    (authored.arena.element p).kind.isStruct := by
  have hchild := parent_children h
  rw [children_push] at hchild
  obtain ⟨-,hlt,hsize⟩ := (grown_rooted hgrown).below hchild
  rw [element_of_push _ (Nat.lt_trans hlt hsize)]
  exact hgrown.holder hchild

theorem links_obeyed (hstates : authored.arena.StatesBases)
    (hacyclic : ∀ id, ¬Relation.TransGen authored.arena.Extends id id) {id : Nat}
    {a : Attributes} (ha : authored.links.attributes[id]? = some a)
    (hid : (authored.arena.element id).kind.isStruct = false) : authored.arena.Obeyed id a := by
  refine Links.attributes_obeyed (l := authored.links) (hgrown.built.contained _)
    hstates (linked_bases_extend hgrown.built hstates).1 ?_ hacyclic ha hid
  intro i p hparent
  by_cases hi : i < authored.arena.size
  · have htable : authored.links.parent? i = authored.arena.parent? i :=
      congrArg Option.join (table_get authored.arena.parent? hi)
    exact parent_struct hgrown (htable ▸ hparent)
  · have htable : authored.links.parent? i = none :=
      congrArg Option.join (Array.getElem?_eq_none (by simpa [links] using hi))
    cases htable.symm.trans hparent

/-- What is no reference is not completed, so it keeps the settings in force. -/
theorem link_obeyed (hstates : authored.arena.StatesBases)
    (hacyclic : ∀ id, ¬Relation.TransGen authored.arena.Extends id id) {id : Nat}
    (hid : id < authored.size + 1) (hstruct : (authored.arena.element id).kind.isStruct = false)
    (hlink : ∀ link, (authored.arena.element id).kind ≠ .structRef link) :
    authored.arena.Obeyed id (authored.link.1.attributesOf id) := by
  obtain ⟨a,ha⟩ := links_known hid
  have hobeyed := links_obeyed hgrown hstates hacyclic ha hstruct
  rw [link_attributes ha, complete_reference_other _ _ _ (.inl hlink)]
  exact ⟨hobeyed.length,hobeyed.textKind⟩

theorem length_faults_iff (hstates : authored.arena.StatesBases)
    (hacyclic : ∀ id, ¬Relation.TransGen authored.arena.Extends id id) {id : Nat}
    (hid : id < authored.size + 1) : authored.link.1.lengthFaults id = [] ↔
      (authored.arena.Measured id → ∃ q, authored.arena.InForce Settings.length id q) := by
  have hobeyed := link_obeyed hgrown hstates hacyclic hid
  have hkind : authored.link.1.kind id = (authored.arena.element id).kind := rfl
  have hlength : authored.arena.Obeyed id (authored.link.1.attributesOf id) →
      ((authored.link.1.attributesOf id).length.isSome ↔
        ∃ q, authored.arena.InForce Settings.length id q) := fun h =>
    Option.isSome_iff_exists.trans (exists_congr h.length)
  rw [Resolved.length_faults_nil, Resolved.needsLength, Measured, hkind]
  cases hk : (authored.arena.element id).kind with
  | number s | binary s | custom s | offset s =>
    rw [hk] at hobeyed
    exact imp_congr (iff_of_true rfl trivial) (hlength (hobeyed rfl nofun))
  | text s =>
    rw [hk] at hobeyed
    have htext := hobeyed rfl nofun
    exact imp_congr (beq_iff_eq.trans (htext.textKind .fixedLength nofun)) (hlength htext)
  | _ => simp

/-- The checks find nothing just if every element has the length that it needs, and no number
stands for two elements. -/
theorem check_iff (hstates : authored.arena.StatesBases)
    (hacyclic : ∀ id, ¬Relation.TransGen authored.arena.Extends id id) :
    authored.link.1.check = [] ↔
      (∀ id, authored.Added id → authored.arena.Measured id →
        ∃ q, authored.arena.InForce Settings.length id q) ∧
      ∀ id id', authored.Added id → authored.Added id' → (authored.element id).id ≠ 0 →
        (authored.element id).id = (authored.element id').id → id = id' := by
  obtain ⟨hmem,hnodup⟩ := (grown_rooted hgrown).walk (built_forest hgrown.built) .padding
  have hnumber : ∀ {id : Nat}, authored.Added id →
      (authored.link.1.element id).id = (authored.element id).id := fun hid => by
    rw [link_element hid.2]
  have hsymm : Std.Symm fun first id : ElementId => (authored.link.1.element id).id ≠ 0 →
      (authored.link.1.element first).id ≠ (authored.link.1.element id).id :=
    ⟨fun first id h hne heq => h (heq ▸ hne) heq.symm⟩
  rw [Resolved.check, link_grammar, Resolved.check_elements_nil]
  constructor
  · rintro ⟨hlengths,-,hnumbers⟩
    refine ⟨fun id hid => ?_,fun id id' hid hid' hne heq => ?_⟩
    · exact (length_faults_iff hgrown hstates hacyclic (Nat.lt_succ_of_lt hid.2)).mp
        (hlengths id ((hmem id).mpr hid))
    · by_contra hother
      rw [← hnumber hid, ← hnumber hid'] at heq
      rw [← hnumber hid, heq] at hne
      exact hnumbers.forall ((hmem id).mpr hid) ((hmem id').mpr hid') hother hne heq
  · rintro ⟨hlengths,hnumbers⟩
    refine ⟨fun id hid => ?_,fun _ _ => nofun,hnodup.pairwise_of_forall_ne ?_⟩
    · have hadded := (hmem id).mp hid
      exact (length_faults_iff hgrown hstates hacyclic (Nat.lt_succ_of_lt hadded.2)).mpr
        (hlengths id hadded)
    · intro first hfirst id hid hother hne heq
      have hadded := (hmem first).mp hfirst
      have hadded' := (hmem id).mp hid
      rw [← heq, hnumber hadded] at hne
      rw [hnumber hadded, hnumber hadded'] at heq
      exact hother (hnumbers first id hadded hadded' hne heq)

/-- The well-formed grammars are those that resolve. -/
theorem resolves_iff_well_formed : (∃ g, authored.resolve = .ok g) ↔ authored.WellFormed := by
  rw [resolves_iff, link_faults_nil, stated_faults_nil, start_place_iff]
  constructor
  · rintro ⟨⟨hstates,hstart,hfaults,hcycles,htargets⟩,hcheck⟩
    have hacyclic := (cycles_iff hgrown hstates).mp hcycles
    obtain ⟨hlinks,hanchors⟩ := (targets_iff authored.arena).mp fun id hid =>
      htargets id (Nat.lt_of_lt_of_eq hid (size_push _ _))
    obtain ⟨hlengths,hdistinct⟩ := (check_iff hgrown hstates hacyclic).mp hcheck
    have hadopted := (linked_bases_extend hgrown.built hstates).2.mp hfaults
    exact ⟨hstart,hstates,fun id => (not_clashes_iff _ id).mp (hadopted id),hacyclic,hlinks,
      hanchors,hdistinct,hlengths⟩
  · intro h
    refine ⟨⟨h.bases,h.start,?_,(cycles_iff hgrown h.bases).mpr h.acyclic,fun id hid => ?_⟩,
      (check_iff hgrown h.bases h.acyclic).mpr ⟨h.lengths,h.distinct⟩⟩
    · exact (linked_bases_extend hgrown.built h.bases).2.mpr fun id =>
        (not_clashes_iff _ id).mpr (h.adopted id)
    · exact (targets_iff authored.arena).mpr ⟨h.links,h.anchors⟩ id
        (Nat.lt_of_lt_of_eq hid (size_push _ _).symm)

end

def widened (base : String) : Grammar :=
  let g := ((Grammar.new "widened").add (Element.struct "blank")).add (Element.struct "plain")
  let g := (g.addChildren 2 [(Element.number "n").withLength (.literal 2)]).toOption.getD g
  let g := g.add ((Element.struct "wide").withBase (.name base))
  let g := (g.addChildren 4 [Element.number "n",
    Element.structRef "each" (some (.name "plain"))]).toOption.getD g
  g.setStart (.name "wide")

theorem widened_grown (base : String) : (widened base).Grown :=
  .setStart _ (.grown (.add _ (.grown (.add _ (.add _ (.new _))) 2 _)) 4 _)

theorem widened_well_formed :
    (widened "plain").WellFormed ∧ ¬(widened "blank").WellFormed := by
  constructor
  · exact (resolves_iff_well_formed (widened_grown "plain")).mp
      ⟨_,resolve_sound (by decide +kernel)⟩
  · intro h
    obtain ⟨g,hg⟩ := (resolves_iff_well_formed (widened_grown "blank")).mpr h
    have hnone : (widened "blank").resolve.toOption.isNone := by decide +kernel
    rw [hg] at hnone
    cases hnone

end ByteGrammar.Grammar
