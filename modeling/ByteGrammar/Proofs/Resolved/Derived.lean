import ByteGrammar.Proofs.Resolved.Bases
import ByteGrammar.Proofs.Resolved.Linked
import ByteGrammar.Proofs.Resolved.Worked

/-!
# Where attributes come from

An attribute of an element is its own setting, or else what its base has, or else, for some of
them, what the enclosing structure has, or else a default. Where no element comes back to itself
along bases and structures, the attributes of a resolved grammar follow this rule, in whatever
order they are worked out. References to structures take a length only after that.
-/

set_option autoImplicit false

namespace ByteGrammar

section
variable {α : Type} (has : ElementId → Attributes) (id : ElementId) (own : Option α)
  (field : Attributes → α) (standard : α)

def inherited : α :=
  match own, (has id).base with
  | some x, _ => x
  | none, some b => field (has b)
  | none, none => standard

def shared : α :=
  inherited has id own field <|
    match (has id).parent with
    | some p => field (has p)
    | none => standard

theorem inherited_based {b : ElementId} (h : (has id).base = some b) :
    inherited has id own field standard = own.getD (field (has b)) := by
  unfold inherited
  rw [h]
  cases own <;> rfl

theorem inherited_alone (h : (has id).base = none) :
    inherited has id own field standard = own.getD standard := by
  unfold inherited
  rw [h]
  cases own <;> rfl

theorem shared_based {b : ElementId} (h : (has id).base = some b) :
    shared has id own field standard = own.getD (field (has b)) :=
  inherited_based has id own field _ h

theorem shared_within {parent : Option ElementId} (h : (has id).base = none)
    (hparent : (has id).parent = parent) : shared has id own field standard =
      (own.or ((parent.map has).map field)).getD standard := by
  rw [shared, inherited_alone has id own field _ h, hparent]
  cases own <;> cases parent <;> rfl

end

/-- The rule for all the attributes of an element, targets aside. -/
structure Grammar.Ruled (g : Grammar) (has : ElementId → Attributes) (id : ElementId) : Prop where
  parent : (has id).parent = g.parent? id
  least : (has id).least =
    inherited has id (g.element id).settings.least Attributes.least (.literal 1)
  most : (has id).most =
    inherited has id (g.element id).settings.most Attributes.most (.literal 1)
  length : (has id).length =
    inherited has id ((g.element id).settings.length.map some) Attributes.length none
  unit : (has id).unit = shared has id (g.element id).settings.unit Attributes.unit .byte
  endian : (has id).endian = shared has id (g.element id).settings.endian Attributes.endian .little
  signed : (has id).signed = shared has id (g.element id).settings.signed Attributes.signed true
  encoding : (has id).encoding =
    shared has id (g.element id).settings.encoding Attributes.encoding "UTF-8"
  radix : (has id).radix = shared has id (g.element id).settings.radix Attributes.radix .decimal
  arrangement : (has id).arrangement =
    inherited has id (g.element id).settings.arrangement Attributes.arrangement .fixed
  mustMatch : (has id).mustMatch =
    inherited has id (g.element id).settings.mustMatch Attributes.mustMatch true
  textKind : (has id).textKind =
    inherited has id (g.element id).settings.textKind Attributes.textKind .zeroTerminated
  valuesFrom : (has id).valuesFrom = match (has id).base with
    | some b => if (g.element id).settings.hasValues then id else (has b).valuesFrom
    | none => id

namespace Links

variable {l : Links}

def Turns (l : Links) (id i : ElementId) : Prop := l.base? id = some i ∨ l.parent? id = some i

inductive Derived (l : Links) : ElementId → Attributes → Prop
  | based {id b : ElementId} {a : Attributes} (hbase : l.base? id = some b)
      (rest : Derived l b a) :
      Derived l id ((l.grammar.element id).settings.inheriting id (l.parent? id) b a)
  | placed {id p : ElementId} {a : Attributes} (hbase : l.base? id = none)
      (hparent : l.parent? id = some p) (rest : Derived l p a) :
      Derived l id (l.unbased id (some a))
  | alone {id : ElementId} (hbase : l.base? id = none) (hparent : l.parent? id = none) :
      Derived l id (l.unbased id none)

theorem Derived.unique {id : ElementId} {a a' : Attributes} (h : Derived l id a)
    (k : Derived l id a') : a = a' := by
  induction h generalizing a' with
  | based hbase _ ih =>
    cases k with
    | based hbase' rest' =>
      cases hbase.symm.trans hbase'
      rw [ih rest']
    | placed hbase' _ _ => cases hbase.symm.trans hbase'
    | alone hbase' _ => cases hbase.symm.trans hbase'
  | placed hbase hparent _ ih =>
    cases k with
    | based hbase' _ => cases hbase.symm.trans hbase'
    | placed _ hparent' rest' =>
      cases hparent.symm.trans hparent'
      rw [ih rest']
    | alone _ hparent' => cases hparent.symm.trans hparent'
  | alone hbase hparent =>
    cases k with
    | based hbase' _ => cases hbase.symm.trans hbase'
    | placed _ hparent' _ => cases hparent.symm.trans hparent'
    | alone _ _ => rfl

structure Sized (l : Links) : Prop where
  parents : l.parents.size = l.grammar.size
  bases : l.bases.size = l.grammar.size

theorem Sized.outside (h : Sized l) {id : Nat} (hid : l.grammar.size ≤ id) :
    l.base? id = none ∧ l.parent? id = none := by
  constructor
  · rw [base?, Array.getElem?_eq_none (h.bases ▸ hid)]
    rfl
  · rw [parent?, Array.getElem?_eq_none (h.parents ▸ hid)]
    rfl

/-- An element knows its structure and its base, whatever it turned to: where everything counts as
leading back, nothing is asked of what was found. -/
theorem placed_handed (hs : Sized l) : Handed l (fun _ _ => True)
    fun _ id a => a.parent = l.parent? id ∧ a.base = l.base? id where
  base := fun _ => trivial
  parent := fun _ => trivial
  settled := by
    intro _ id inherited parent _ hinherited _
    cases hbase : l.base? id with
    | none =>
      rw [hbase] at hinherited
      obtain rfl : inherited = none := hinherited
      exact ⟨rfl,rfl⟩
    | some b =>
      rw [hbase] at hinherited
      obtain ⟨a,rfl,-⟩ := hinherited
      exact ⟨rfl,rfl⟩
  outside := fun hid => ⟨rfl,(hs.outside hid).1.symm⟩
  kept := fun _ h => h

theorem unbased_handed : Handed l (fun _ _ => True)
    fun _ id a => l.base? id = none → ∃ parent, a = l.unbased id parent where
  base := fun _ => trivial
  parent := fun _ => trivial
  settled := by
    intro _ id inherited parent _ hinherited _ hbase
    rw [hbase] at hinherited
    obtain rfl : inherited = none := hinherited
    exact ⟨_,rfl⟩
  outside := fun _ _ => ⟨none,rfl⟩
  kept := fun _ h => h

theorem ruled_of_settled {has : ElementId → Attributes} {id : ElementId}
    (hplace : l.parent? id = l.grammar.parent? id)
    (heq : has id = match l.base? id with
      | some b => (l.grammar.element id).settings.inheriting id (l.parent? id) b (has b)
      | none => l.unbased id ((l.parent? id).map has)) :
    l.grammar.Ruled has id := by
  cases hb : l.base? id with
  | some b =>
    rw [hb] at heq
    have hbase : (has id).base = some b := by rw [heq]; rfl
    constructor
    case parent => rw [heq]; exact hplace
    case valuesFrom => rw [hbase, heq]; rfl
    case length =>
      rw [inherited_based _ _ _ _ _ hbase, heq]
      show (l.grammar.element id).settings.length.or (has b).length = _
      cases (l.grammar.element id).settings.length <;> rfl
    case unit | endian | signed | encoding | radix =>
      rw [shared_based _ _ _ _ _ hbase, heq]
      rfl
    all_goals
      rw [inherited_based _ _ _ _ _ hbase, heq]
      rfl
  | none =>
    rw [hb] at heq
    have hbase : (has id).base = none := by rw [heq]; rfl
    have hparent : (has id).parent = l.parent? id := by rw [heq]; rfl
    constructor
    case parent => rw [heq]; exact hplace
    case valuesFrom => rw [hbase, heq]; rfl
    case length =>
      rw [inherited_alone _ _ _ _ _ hbase, heq]
      show (l.grammar.element id).settings.length = _
      cases (l.grammar.element id).settings.length <;> rfl
    case unit | endian | signed | encoding | radix =>
      rw [shared_within _ _ _ _ _ hbase hparent, heq]
      rfl
    all_goals
      rw [inherited_alone _ _ _ _ _ hbase, heq]
      rfl

section
variable (hs : Sized l) (hacyclic : ∀ id, ¬Relation.TransGen l.Turns id id)

include hs hacyclic

theorem derived_handed : Handed l l.Turns fun _ => l.Derived where
  base := .inl
  parent := .inr
  settled := by
    intro _ id inherited parent _ hinherited hparent
    have hback : ∀ {i}, l.Turns id i → ¬Relation.ReflTransGen l.Turns i id :=
      fun hi h => hacyclic id (.head' hi h)
    cases hb : l.base? id with
    | some b =>
      rw [hb] at hinherited
      obtain ⟨a,rfl,ha⟩ := hinherited
      exact .based hb (ha (hback (.inl hb)))
    | none =>
      rw [hb] at hinherited
      obtain rfl : inherited = none := hinherited
      cases hp : l.parent? id with
      | some p =>
        rw [hp] at hparent
        obtain ⟨a,rfl,ha⟩ := hparent
        exact .placed hb hp (ha (hback (.inr hp)))
      | none =>
        rw [hp] at hparent
        obtain rfl : parent = none := hparent
        exact .alone hb hp
  outside := fun hid => .alone (hs.outside hid).1 (hs.outside hid).2
  kept := fun _ h => h

def first (l : Links) (id : ElementId) : Attributes :=
  (l.attributesOf (l.grammar.size + 1) id l.unknown).1

theorem first_derived (id : ElementId) : l.Derived id (l.first id) := by
  obtain ⟨-,-,hone⟩ := attributes_in_order (derived_handed hs hacyclic) [id]
  cases hone with
  | cons h _ => exact h

/-- In whatever order the attributes are worked out, they are the same. -/
theorem in_order_first (order : List ElementId) : l.inOrder order = order.map l.first := by
  obtain ⟨-,-,hall⟩ := attributes_in_order (derived_handed hs hacyclic) order
  have hsame := hall.imp fun id _ h => (h.unique (first_derived hs hacyclic id)).symm
  exact (List.forall₂_eq_eq_eq ▸ List.forall₂_map_left_iff.mpr hsame).symm

theorem first_eq (id : ElementId) : l.first id = match l.base? id with
    | some b => (l.grammar.element id).settings.inheriting id (l.parent? id) b (l.first b)
    | none => l.unbased id ((l.parent? id).map l.first) := by
  have hall := first_derived hs hacyclic
  have hid := hall id
  generalize l.first id = a at hid ⊢
  cases hid with
  | based hbase rest => rw [hbase, rest.unique (hall _)]
  | placed hbase hparent rest => rw [hbase, hparent, rest.unique (hall _), Option.map_some]
  | alone hbase hparent => rw [hbase, hparent, Option.map_none]

/-- The attributes follow the rule. -/
theorem first_ruled {id : ElementId} (hplace : l.parent? id = l.grammar.parent? id) :
    l.grammar.Ruled l.first id :=
  ruled_of_settled hplace (first_eq hs hacyclic id)

end

end Links

def Resolved.DependsOn (g : Resolved) (id i : ElementId) : Prop :=
  (g.attributesOf id).base = some i ∨ (g.attributesOf id).parent = some i

/-- How the attributes of a resolved grammar come about, of which `plain` are those without targets
and without what references take from them. -/
structure Resolved.Explained (g : Resolved) (links : Links) (plain : ElementId → Attributes) :
    Prop where
  ruled : ∀ id : Nat, id < g.size → g.grammar.Ruled plain id
  /-- Scripts take up no bytes, whatever length they state. -/
  script : ∀ id : Nat, id < g.size →
    ((∃ s, g.kind id = .script s) ∨ ∃ link, g.kind id = .scriptElement link) →
    (g.attributesOf id).length = some (.literal 0)
  /-- A reference that is left without a length has that of its structure, and the unit. -/
  reference : ∀ id : Nat, id < g.size → ∀ link, g.kind id = .structRef link →
    (plain id).length = none → ∃ t, (g.attributesOf id).target = some t ∧
      (g.kind t).isStruct ∧ g.attributesOf id = { plain id with
        target := some t
        length := (g.attributesOf t).length
        unit := (g.attributesOf t).unit }
  other : ∀ id : Nat, id < g.size →
    ((∀ link, g.kind id ≠ .structRef link) ∨ (plain id).length ≠ none) →
    g.attributesOf id = { plain id with target := (g.attributesOf id).target }
  /-- Whichever elements come first, the search gives each of them the same attributes. -/
  order : ∀ order, links.inOrder order = order.map plain

namespace Grammar

section
variable {authored : Grammar}

theorem links_sized (authored : Grammar) : authored.links.Sized where
  parents := by simp [links]
  bases := BaseSearch.bases_size _ _ _

theorem link_placed (id : ElementId) :
    (authored.link.1.attributesOf id).parent = authored.links.parent? id ∧
      (authored.link.1.attributesOf id).base = authored.links.base? id := by
  rcases Nat.lt_or_ge id (authored.size + 1) with hid | hid
  · obtain ⟨a,ha⟩ := links_known hid
    obtain ⟨-,-,hall⟩ := Links.attributes_handed (Links.placed_handed (links_sized authored))
    obtain ⟨hparent,hbase⟩ := hall ha
    rw [link_attributes ha, (complete_reference_placed _ _ _ _).1,
      (complete_reference_placed _ _ _ _).2]
    exact ⟨hparent,hbase⟩
  · obtain ⟨hbase,hparent⟩ := (links_sized authored).outside
      ((size_push authored .padding).trans_le hid)
    rw [link_attributes_outside hid, hbase, hparent]
    exact ⟨rfl,rfl⟩

theorem link_depends_on : authored.link.1.DependsOn = authored.links.Turns := by
  funext id i
  rw [Resolved.DependsOn, Links.Turns, (link_placed id).1, (link_placed id).2]

theorem link_reference (hlink : authored.link.2 = []) {id : Nat} (hid : id < authored.size + 1)
    {link : Option Designator} (hk : authored.link.1.kind id = .structRef link) :
    ∃ t, (authored.link.1.attributesOf id).target = some t ∧
      (authored.link.1.kind t).isStruct := by
  obtain ⟨-,-,-,-,htargets⟩ := (link_faults_nil authored).mp hlink
  have hlinked : ((authored.push .padding).element id).link? =
      some (link.getD (.name ((authored.push .padding).element id).name),.struct) := by
    rw [Element.link?, show ((authored.push .padding).element id).kind = _ from hk]
  obtain ⟨t,ht⟩ := (target_faults_nil.mp (htargets id hid)).2 _ _ hlinked
  have htarget := target_followed hlinked ht
  exact ⟨t,(link_target_eq hid).trans htarget,target_is_struct hk htarget⟩

theorem link_other {id : Nat} {a : Attributes} (ha : authored.links.attributes[id]? = some a)
    (h : (∀ link, authored.link.1.kind id ≠ .structRef link) ∨ a.length ≠ none) :
    authored.link.1.attributesOf id =
      { a with target := (authored.push .padding).target? id } :=
  (link_attributes ha).trans (complete_reference_other _ _ _ h)

theorem link_completed {id t : Nat} {a : Attributes} {link : Option Designator}
    (ha : authored.links.attributes[id]? = some a) (hk : authored.link.1.kind id = .structRef link)
    (hlength : a.length = none) (ht : (authored.link.1.attributesOf id).target = some t)
    (hstruct : (authored.link.1.kind t).isStruct) :
    authored.link.1.attributesOf id = { a with
      target := some t
      length := (authored.link.1.attributesOf t).length
      unit := (authored.link.1.attributesOf t).unit } := by
  have hknown : t < authored.size + 1 := by
    refine link_lt fun h => ?_
    rw [h] at hstruct
    cases hstruct
  obtain ⟨b,hb⟩ := links_known hknown
  have hother : authored.link.1.attributesOf t =
      { b with target := (authored.push .padding).target? t } := by
    refine link_other hb (.inl fun other hk' => ?_)
    rw [hk'] at hstruct
    cases hstruct
  have htable : authored.targeted.toArray.getD t default =
      { b with target := (authored.push .padding).target? t } := by
    rw [Array.getD_eq_getD_getElem?, List.getElem?_toArray, targeted_get hb]
    rfl
  have hkind : ((authored.push .padding).element id).kind = .structRef link := hk
  rw [link_attributes ha, link_target ht, hother]
  simp only [completeReference, hkind, hlength, htable]

/-- The attributes of a grammar that resolves follow the rule, if no element comes back to itself
along bases and enclosing structures. -/
theorem attributes_explained {g : Resolved} (h : authored.resolve = .ok g)
    (hacyclic : ∀ id, ¬Relation.TransGen g.DependsOn id id) :
    ∃ plain, g.Explained authored.links plain := by
  obtain ⟨rfl,hlink,-⟩ := resolve_ok h
  rw [link_depends_on] at hacyclic
  have hs := links_sized authored
  have hsize : ∀ {id : Nat}, id < authored.link.1.size → id < authored.size + 1 :=
    fun hid => Nat.lt_of_lt_of_eq hid (size_push authored .padding)
  have hplain : ∀ {id : Nat}, id < authored.link.1.size →
      authored.links.attributes[id]? = some (authored.links.first id) := by
    intro id hid
    obtain ⟨a,ha⟩ := links_known (hsize hid)
    obtain ⟨-,-,hall⟩ := Links.attributes_handed (Links.derived_handed hs hacyclic)
    have hderived := hall ha
    rw [ha, hderived.unique (Links.first_derived hs hacyclic id)]
  have hruled : ∀ id : Nat, id < authored.link.1.size →
      authored.link.1.grammar.Ruled authored.links.first id := fun id hid =>
    Links.first_ruled hs hacyclic
      (congrArg Option.join (table_get (authored.push .padding).parent? hid))
  refine ⟨authored.links.first,hruled,fun id hid hkind => ?_,fun id hid link hk hlength => ?_,
    fun id hid hnot => ?_,Links.in_order_first hs hacyclic⟩
  · have hother : ∀ link, authored.link.1.kind id ≠ .structRef link := by
      rintro link hk
      rcases hkind with ⟨_,hs⟩ | ⟨_,hs⟩ <;> cases hk.symm.trans hs
    have hown : (authored.link.1.grammar.element id).settings.length = some (.literal 0) := by
      rcases hkind with ⟨_,hs⟩ | ⟨_,hs⟩ <;>
        simp only [Element.settings, show (authored.link.1.grammar.element id).kind = _ from hs]
    rw [link_other (hplain hid) (.inl hother)]
    refine (hruled id hid).length.trans ?_
    rw [hown]
    rfl
  · obtain ⟨t,ht,hstruct⟩ := link_reference hlink (hsize hid) hk
    exact ⟨t,ht,hstruct,link_completed (hplain hid) hk hlength ht hstruct⟩
  · rw [link_target_eq (hsize hid)]
    exact link_other (hplain hid) hnot

end

def boxed : Grammar :=
  let box := ((Element.struct "box").withLength (.literal 4)).withEndian .big
  let g := (Grammar.new "boxed").add box
  let g := (g.addChildren 1 [(Element.number "n").withLength (.literal 2)]).toOption.getD g
  let g := g.add ((Element.struct "crate").withBase (.name "box"))
  let g := (g.addChildren 3 [Element.number "n", Element.structRef "spare" (some (.name "box")),
    Element.script "check" "none" ""]).toOption.getD g
  g.setStart (.name "crate")

theorem boxed_backward {id i : ElementId} (h : Relation.TransGen boxed.link.1.DependsOn id i) :
    i < id := by
  have hone : ∀ {id i : Nat}, boxed.link.1.DependsOn id i → i < id := by
    intro id i h
    have hall : ∀ id < boxed.size + 1, ∀ i ∈ (boxed.link.1.attributesOf id).base.toList ++
        (boxed.link.1.attributesOf id).parent.toList, i < id := by decide +kernel
    rcases Nat.lt_or_ge id (boxed.size + 1) with hid | hid
    · refine hall id hid i (List.mem_append.mpr ?_)
      exact h.imp Option.mem_toList.mpr Option.mem_toList.mpr
    · rw [Resolved.DependsOn, link_attributes_outside hid] at h
      rcases h with h | h <;> cases h
  induction h with
  | single h => exact hone h
  | tail _ h ih => exact Nat.lt_trans (hone h) ih

theorem boxed_explained : (∃ plain, boxed.link.1.Explained boxed.links plain) ∧
    (boxed.link.1.attributesOf 4).length = some (.literal 2) ∧
    (boxed.link.1.attributesOf 4).endian = .big ∧
    (boxed.link.1.attributesOf 5).length = some (.literal 4) :=
  ⟨attributes_explained (resolve_sound (by decide +kernel))
      fun _ h => Nat.lt_irrefl _ (boxed_backward h),
    by decide +kernel⟩

end Grammar
end ByteGrammar
