import ByteGrammar.Proofs.Resolved.Derived
import ByteGrammar.Proofs.Resolved.Nesting
import ByteGrammar.Proofs.Resolved.WellFormed

/-!
# Elements that come back to themselves

Resolution refuses an element that is its own base in the end. One that comes back to itself along
bases and structures together is not refused, and its attributes are cut short on the way. This
takes an element that states a base which stands deeper than itself. Whatever else the grammar
holds, the attributes of an element that does not come back to itself follow the rule.
-/

set_option autoImplicit false

namespace ByteGrammar

namespace Links

variable {l : Links}

def Stored (l : Links) (known : Known) (id : Nat) (a : Attributes) : Prop :=
  l.grammar.size ≤ id ∨ known[id]? = some (.done a)

def Rests (l : Links) (known : Known) (id : Nat) (a : Attributes) : Prop :=
  ∃ inherited parent, Found l.Turns l.Stored known id (l.base? id) inherited ∧
    Found l.Turns l.Stored known id (l.parent? id) parent ∧
    a = l.settle id inherited (parent.map Prod.snd)

theorem rests_handed (hs : Sized l) : Handed l l.Turns fun known id a =>
    l.Stored known id a ∧ l.Rests known id a where
  base := .inl
  parent := .inr
  settled := by
    intro known id inherited parent hid hinherited hparent
    have hstored : ∀ i a, i ≠ id → l.Stored known i a ∧ l.Rests known i a → l.Stored
        (known.setIfInBounds id (.done (l.settle id inherited (parent.map Prod.snd)))) i a := by
      rintro i a hne ⟨hout | hdone,-⟩
      · exact .inl hout
      · exact .inr (by rw [marked_get hid, if_neg hne.symm, hdone])
    exact ⟨.inr (by rw [marked_get hid, if_pos rfl]),inherited,parent,hinherited.imp hstored,
      hparent.imp hstored,rfl⟩
  outside := by
    intro known id hid
    obtain ⟨hbase,hparent⟩ := hs.outside hid
    refine ⟨.inl hid,none,none,?_,?_,rfl⟩
    · rw [hbase]
      rfl
    · rw [hparent]
      rfl
  kept := by
    rintro known known' id a hkept ⟨hstored,inherited,parent,hinherited,hparent,heq⟩
    have hlater : ∀ i a, l.Stored known i a → l.Stored known' i a :=
      fun i a h => h.imp_right (hkept i a)
    exact ⟨hlater id a hstored,inherited,parent,hinherited.imp fun i a _ => hlater i a,
      hparent.imp fun i a _ => hlater i a,heq⟩

def last (l : Links) (id : Nat) : Attributes := (l.attributes[id]?).getD default

theorem last_get {id : Nat} (hid : id < l.grammar.size) :
    l.attributes[id]? = some (l.last id) := by
  have hlength : id < l.attributes.length := by
    rw [Grammar.links_attributes_length]
    exact hid
  rw [last, List.getElem?_eq_getElem hlength]
  rfl

/-- The attributes of an element that does not come back to itself are settled from those that its
base and its structure have in the end. -/
theorem last_eq (hs : Sized l) (hknown : ∀ {id i : Nat}, l.Turns id i → i < l.grammar.size)
    {id : Nat} (hid : id < l.grammar.size) (hoff : ¬Relation.TransGen l.Turns id id) :
    l.last id = match l.base? id with
      | some b => (l.grammar.element id).settings.inheriting id (l.parent? id) b (l.last b)
      | none => l.unbased id ((l.parent? id).map l.last) := by
  obtain ⟨known,-,hall⟩ := attributes_handed (rests_handed hs)
  have hstored : ∀ {i : Nat} {a}, l.Turns id i →
      (¬Relation.ReflTransGen l.Turns i id → l.Stored known i a) → a = l.last i := by
    intro i a hturn h
    have hi := hknown hturn
    rcases h fun hback => hoff (.head' hturn hback) with hout | hdone
    · omega
    · rcases (hall (last_get hi)).1 with hout | hlast
      · omega
      · rw [hdone] at hlast
        simpa using hlast
  obtain ⟨-,inherited,parent,hinherited,hparent,heq⟩ := hall (last_get hid)
  rw [heq]
  cases hb : l.base? id with
  | some b =>
    rw [hb] at hinherited
    obtain ⟨a,rfl,ha⟩ := hinherited
    rw [settle, hstored (.inl hb) ha]
  | none =>
    rw [hb] at hinherited
    obtain rfl : inherited = none := hinherited
    rw [settle]
    cases hp : l.parent? id with
    | some p =>
      rw [hp] at hparent
      obtain ⟨a,rfl,ha⟩ := hparent
      rw [Option.map_some, Option.map_some, hstored (.inr hp) ha]
    | none =>
      rw [hp] at hparent
      obtain rfl : parent = none := hparent
      rfl

end Links

/-- How far the links of a resolved grammar are free of cycles, and what that means for its
attributes, of which `plain` are those without targets and without what references take from
them. -/
structure Resolved.Disentangled (g : Resolved) (plain : ElementId → Attributes) : Prop where
  /-- Bases alone never lead back, nor do structures alone. -/
  bases : ∀ id, ¬Relation.TransGen (fun id i => (g.attributesOf id).base = some i) id id
  structures : ∀ id, ¬Relation.TransGen (fun id i => (g.attributesOf id).parent = some i) id id
  /-- Whoever comes back along both meets an element that states a base deeper than itself. -/
  returns : ∀ id, Relation.TransGen g.DependsOn id id →
    ∃ f b, Relation.ReflTransGen g.DependsOn id f ∧ g.grammar.Dips f b
  /-- What does not come back has attributes after the rule. -/
  ruled : ∀ id : Nat, id < g.size → ¬Relation.TransGen g.DependsOn id id →
    g.grammar.Ruled plain id
  /-- The length of a structure that extends another one is its own, or else that of the other. -/
  length : ∀ id b : Nat, (g.kind id).isStruct → (g.attributesOf id).base = some b →
    ¬Relation.TransGen g.DependsOn id id →
    (g.attributesOf id).length = (g.element id).length.or (g.attributesOf b).length
  reference : ∀ id : Nat, id < g.size → ∀ link, g.kind id = .structRef link →
    (plain id).length = none → ∃ t, (g.attributesOf id).target = some t ∧
      (g.kind t).isStruct ∧ g.attributesOf id = { plain id with
        target := some t
        length := (g.attributesOf t).length
        unit := (g.attributesOf t).unit }
  other : ∀ id : Nat, id < g.size →
    ((∀ link, g.kind id ≠ .structRef link) ∨ (plain id).length ≠ none) →
    g.attributesOf id = { plain id with target := (g.attributesOf id).target }

namespace Grammar

section
variable {authored : Grammar}

theorem links_turn (hb : authored.Built) (hstates : authored.arena.StatesBases) {id i : Nat} :
    (authored.links.base? id = some i ↔ authored.arena.Extends id i) ∧
      (authored.links.parent? id = some i ↔ authored.arena.parent? id = some i) := by
  refine ⟨(linked_bases_extend hb hstates).1 id i,?_⟩
  by_cases hid : id < authored.arena.size
  · rw [show authored.links.parent? id = authored.arena.parent? id from
      congrArg Option.join (table_get authored.arena.parent? hid)]
  · rw [((links_sized authored).outside (Nat.le_of_not_lt hid)).2]
    exact ⟨nofun,fun h => absurd ((hb.contained .padding).below (parent_children h)) hid⟩

theorem no_reference_of_struct {k : Kind} (h : k.isStruct) (link : Option Designator) :
    k ≠ .structRef link := by
  rintro rfl
  cases h

theorem struct_settings_length {e : Element} (h : e.kind.isStruct) :
    e.settings.length = e.length := by
  unfold Element.settings
  cases hk : e.kind <;> simp_all [Kind.isStruct]

theorem turns_known (hb : authored.Built) (hstates : authored.arena.StatesBases) {id i : Nat}
    (h : authored.links.Turns id i) : i < authored.arena.size := by
  rcases h with hbase | hparent
  · exact (hb.contained .padding).found_lt ((links_turn hb hstates).1.mp hbase)
  · have hp := (links_turn hb hstates).2.mp hparent
    exact Nat.lt_trans ((hb.nested .padding).parent_lt hp)
      ((hb.contained .padding).below (parent_children hp))

/-- Structures come before what is in them. -/
theorem structures_before (hb : authored.Built) (hstates : authored.arena.StatesBases) {id i : Nat}
    (h : Relation.TransGen (fun id i => (authored.link.1.attributesOf id).parent = some i) id i) :
    i < id := by
  have hlt : ∀ {id i : Nat}, (authored.link.1.attributesOf id).parent = some i → i < id := by
    intro id i hparent
    rw [(link_placed id).1] at hparent
    exact (hb.nested .padding).parent_lt ((links_turn hb hstates).2.mp hparent)
  induction h with
  | single hparent => exact hlt hparent
  | tail _ hparent ih => exact Nat.lt_trans (hlt hparent) ih

theorem link_ruled (hb : authored.Built) (hstates : authored.arena.StatesBases) {id : Nat}
    (hid : id < authored.link.1.size)
    (hoff : ¬Relation.TransGen authored.link.1.DependsOn id id) :
    authored.arena.Ruled authored.links.last id := by
  rw [link_depends_on] at hoff
  exact Links.ruled_of_settled (l := authored.links)
    (congrArg Option.join (table_get authored.arena.parent? hid))
    (Links.last_eq (links_sized authored) (turns_known hb hstates) hid hoff)

theorem link_struct {id : Nat} (hid : id < authored.link.1.size)
    (hstruct : (authored.link.1.kind id).isStruct) : authored.link.1.attributesOf id =
      { authored.links.last id with target := (authored.push .padding).target? id } :=
  link_other (Links.last_get hid) (.inl (no_reference_of_struct hstruct))

theorem link_struct_length (hb : authored.Built) (hstates : authored.arena.StatesBases)
    {id b : Nat} (hstruct : (authored.link.1.kind id).isStruct)
    (hbase : (authored.link.1.attributesOf id).base = some b)
    (hoff : ¬Relation.TransGen authored.link.1.DependsOn id id) :
    (authored.link.1.attributesOf id).length =
      (authored.link.1.element id).length.or (authored.link.1.attributesOf b).length := by
  have hext := (links_turn hb hstates).1.mp ((link_placed id).2.symm.trans hbase)
  have hid := (hb.contained .padding).extends_lt hext
  have hbstruct : (authored.link.1.kind b).isStruct :=
    (agrees_struct (hstates.kind hext)).trans hstruct
  have hlength := (link_ruled hb hstates hid hoff).length
  have hown : (authored.arena.element id).settings.length =
      (authored.arena.element id).length := struct_settings_length hstruct
  have hlast : (authored.links.last id).base = some b := by
    rw [link_struct hid hstruct] at hbase
    exact hbase
  rw [inherited_based _ _ _ _ _ hlast, hown] at hlength
  rw [link_struct hid hstruct, link_struct ((hb.contained .padding).found_lt hext) hbstruct]
  dsimp only
  rw [hlength]
  show _ = (authored.arena.element id).length.or _
  cases (authored.arena.element id).length <;> rfl

/-- Resolution keeps bases from leading back, and structures do not. Both together lead back only
past a base that stands deeper than the element that states it, and where they do not, the
attributes follow the rule. -/
theorem disentangled {g : Resolved} (hb : authored.Built) (h : authored.resolve = .ok g) :
    ∃ plain, g.Disentangled plain := by
  obtain ⟨rfl,hlink,-⟩ := resolve_ok h
  obtain ⟨hfaults,-⟩ := (link_faults_nil authored).mp hlink
  have hstates := stated_faults_nil.mp hfaults
  have hturns : authored.link.1.DependsOn = authored.arena.Turned := by
    rw [link_depends_on]
    funext id i
    exact propext (or_congr (links_turn hb hstates).1 (links_turn hb hstates).2)
  have hsize : ∀ {id : Nat}, id < authored.link.1.size → id < authored.size + 1 :=
    fun hid => Nat.lt_of_lt_of_eq hid (size_push authored .padding)
  have hacyclic : ∀ id, ¬Relation.TransGen authored.arena.Extends id id :=
    (acyclic_iff (linked_bases_extend hb hstates).1).mp (linked_acyclic hlink)
  refine ⟨authored.links.last,?_,?_,?_,fun id => link_ruled hb hstates,
    fun id b => link_struct_length hb hstates,?_,?_⟩
  · intro id hback
    refine hacyclic id (Relation.TransGen.mono (fun i b hbase => ?_) id id hback)
    rw [(link_placed i).2] at hbase
    exact (links_turn hb hstates).1.mp hbase
  · exact fun id hback => Nat.lt_irrefl id (structures_before hb hstates hback)
  · rw [hturns]
    exact fun id hback => (hb.nested .padding).returns_dip hacyclic hback
  · intro id hid link hk hlength
    obtain ⟨t,ht,hstruct⟩ := link_reference hlink (hsize hid) hk
    exact ⟨t,ht,hstruct,link_completed (Links.last_get hid) hk hlength ht hstruct⟩
  · intro id hid hnot
    rw [link_target_eq (hsize hid)]
    exact link_other (Links.last_get hid) hnot

end

def tangled : Grammar :=
  let g := (Grammar.new "tangled").add ((Element.struct "copy").withBase (.name "inner"))
  let g := g.add ((Element.struct "outer").withBase (.name "inner"))
  let g := (g.addChildren 2 [(Element.struct "inner").withBase (.name "plain")]).toOption.getD g
  let g := g.add ((Element.struct "plain").withLength (.literal 4))
  g.setStart (.name "plain")

theorem tangled_built : tangled.Built :=
  .setStart _ (.add _ (.grown (.add _ (.add _ (.new _))) 2 _))

theorem tangled_disentangled : (∃ plain, tangled.link.1.Disentangled plain) ∧
    (tangled.link.1.attributesOf 1).base = some 3 ∧
    (tangled.link.1.attributesOf 1).length = some (.literal 4) :=
  ⟨disentangled tangled_built (resolve_sound (by decide +kernel)),by decide +kernel⟩

/-- The structure comes back to itself through the one that is nested in it, whose length it misses:
that one was being worked out, for the copy, when the structure turned to it. -/
theorem tangled_cut_short : ∃ g, tangled.resolve = .ok g ∧ Relation.TransGen g.DependsOn 2 2 ∧
    (g.kind 2).isStruct ∧ (g.attributesOf 2).base = some 3 ∧ (g.element 2).length = none ∧
    (g.attributesOf 3).length = some (.literal 4) ∧ (g.attributesOf 2).length = none := by
  have hback : tangled.link.1.DependsOn 2 3 ∧ tangled.link.1.DependsOn 3 2 :=
    ⟨.inl (by decide +kernel),.inr (by decide +kernel)⟩
  exact ⟨_,resolve_sound (by decide +kernel),.head hback.1 (.single hback.2),by decide +kernel⟩

end Grammar
end ByteGrammar
