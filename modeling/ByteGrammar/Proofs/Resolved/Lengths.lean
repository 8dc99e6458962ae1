import ByteGrammar.Proofs.Resolved.Derived

/-!
# Where lengths come from

An element that states a length has it, and one that ends up with a length has it from a statement
along its bases, references apart that take the length of their structure. This holds of elements
that come back to themselves too: the search for attributes takes a short cut there, on which an
element counts with its own settings.
-/

set_option autoImplicit false

namespace ByteGrammar

abbrev Resolved.Line (g : Resolved) : ElementId → ElementId → Prop :=
  Relation.ReflTransGen fun id b => (g.attributesOf id).base = some b

namespace Links

variable {l : Links} {P : ElementId → Attributes → Prop}

structure Passed (l : Links) (P : ElementId → Attributes → Prop) : Prop where
  unbased : ∀ id parent, P id (l.unbased id parent)
  inherited : ∀ {id b a}, l.base? id = some b → P b a →
    P id ((l.grammar.element id).settings.inheriting id (l.parent? id) b a)

def Holds (P : ElementId → Attributes → Prop) (known : Known) : Prop :=
  ∀ (id : Nat) a, known[id]? = some (.done a) → P id a

theorem Holds.marked {known : Known} (h : Holds P known) {id : Nat} {progress : Progress Attributes}
    (hp : ∀ a, progress = .done a → P id a) : Holds P (known.setIfInBounds id progress) := by
  intro i a hi
  rw [Array.getElem?_setIfInBounds] at hi
  split at hi
  · next heq =>
    subst heq
    split at hi
    · exact hp a (Option.some.inj hi)
    · cases hi
  · exact h i a hi

theorem attributes_of_passed (h : Passed l P) (depth : Nat) (id : ElementId) {known : Known}
    (hk : Holds P known) :
    P id (l.attributesOf depth id known).1 ∧ Holds P (l.attributesOf depth id known).2 := by
  induction depth generalizing id known with
  | zero => exact ⟨h.unbased id none,hk⟩
  | succ depth ih =>
    rw [attributes_of_run]
    cases hid : known[id]? with
    | none => exact ⟨h.unbased id none,hk⟩
    | some progress =>
      cases progress with
      | done a => exact ⟨hk id a hid,hk⟩
      | underway => exact ⟨h.unbased id none,hk⟩
      | pending =>
        have hturned : Holds P (known.setIfInBounds id .underway) :=
          hk.marked fun a ha => by cases ha
        have hdone : ∀ {known : Known} {a}, P id a → Holds P known →
            P id a ∧ Holds P (known.setIfInBounds id (.done a)) := by
          refine fun ha hknown => ⟨ha,hknown.marked fun a' ha' => ?_⟩
          cases ha'
          exact ha
        dsimp only
        -- whatever the structure comes to, the property holds: only the table goes through it
        obtain ⟨hsettled,hknown⟩ : (∀ parent, P id (l.settle id (attributesOf?
            (l.attributesOf depth) (l.base? id) (known.setIfInBounds id .underway)).1 parent)) ∧
            Holds P (attributesOf? (l.attributesOf depth) (l.base? id)
              (known.setIfInBounds id .underway)).2 := by
          cases hbase : l.base? id with
          | none => exact ⟨h.unbased id,hturned⟩
          | some b =>
            obtain ⟨hb,hknown⟩ := ih b hturned
            exact ⟨fun _ => h.inherited hbase hb,hknown⟩
        refine hdone (hsettled _) ?_
        cases l.parent? id with
        | none => exact hknown
        | some p => exact (ih p hknown).2

/-- The attributes of every element have the property in the end. -/
theorem attributes_passed (h : Passed l P) {id : Nat} {a : Attributes}
    (ha : l.attributes[id]? = some a) : P id a := by
  have hrun : ∀ (order : List ElementId) {known : Known}, Holds P known →
      List.Forall₂ P order
        (order.mapM (fun id => l.attributesOf (l.grammar.size + 1) id) known).1 := by
    intro order
    induction order with
    | nil => exact fun _ => .nil
    | cons id rest ih =>
      intro known hk
      obtain ⟨hid,hlater⟩ := attributes_of_passed h (l.grammar.size + 1) id hk
      rw [List.mapM_cons]
      exact .cons hid (ih hlater)
  have hstart : Holds P l.unknown := fun _ _ hi => absurd (start_pending hi) nofun
  exact attributes_each (hrun _ hstart) ha

theorem stated_passed : Passed l fun id a =>
    ∀ q, (l.grammar.element id).settings.length = some q → a.length = some q where
  unbased := fun _ _ _ hq => hq
  inherited := by
    intro id b a _ _ q hq
    show (l.grammar.element id).settings.length.or a.length = some q
    rw [hq]
    rfl

theorem traced_passed : Passed l fun id a => ∀ q, a.length = some q →
    ∃ b, Relation.ReflTransGen (fun id b => l.base? id = some b) id b ∧
      (l.grammar.element b).settings.length = some q where
  unbased := fun id _ _ hq => ⟨id,.refl,hq⟩
  inherited := by
    intro id b a hbase ha q hq
    have hlength : (l.grammar.element id).settings.length.or a.length = some q := hq
    cases hown : (l.grammar.element id).settings.length with
    | some own =>
      rw [hown] at hlength
      exact ⟨id,.refl,hown.trans hlength⟩
    | none =>
      rw [hown] at hlength
      obtain ⟨c,hline,hc⟩ := ha q hlength
      exact ⟨c,.head hbase hline,hc⟩

end Links

namespace Grammar

variable {authored : Grammar} {id : Nat}

theorem link_stated_length {q : Quantity} (hid : id < authored.size + 1)
    (hq : (authored.link.1.element id).settings.length = some q) :
    (authored.link.1.attributesOf id).length = some q := by
  obtain ⟨a,ha⟩ := links_known hid
  have hlength : a.length = some q := Links.attributes_passed Links.stated_passed ha q hq
  have hsome : a.length ≠ none := by rw [hlength]; nofun
  rw [link_other ha (.inr hsome)]
  exact hlength

/-- A reference takes the length and the unit of its structure if no length is stated along its
bases. -/
theorem link_open_length {t : ElementId} {link : Option Designator}
    (hk : authored.link.1.kind id = .structRef link)
    (hopen : ∀ b, authored.link.1.Line id b →
      (authored.link.1.element b).settings.length = none)
    (ht : (authored.link.1.attributesOf id).target = some t) :
    (authored.link.1.attributesOf id).length = (authored.link.1.attributesOf t).length ∧
      (authored.link.1.attributesOf id).unit = (authored.link.1.attributesOf t).unit := by
  obtain ⟨a,ha⟩ := links_known (link_lt (by rw [hk]; nofun))
  have hnone : a.length = none := by
    by_contra hsome
    obtain ⟨q,hq⟩ := Option.ne_none_iff_exists'.mp hsome
    obtain ⟨b,hline,hb⟩ := Links.attributes_passed Links.traced_passed ha q hq
    refine absurd (hopen b (Relation.ReflTransGen.mono (fun i c hc => ?_) id b hline)) ?_
    · exact (link_placed i).2.trans hc
    · exact fun h => nomatch h.symm.trans hb
  rw [link_completed ha hk hnone ht ((link_linked authored).target hk ht)]
  exact ⟨rfl,rfl⟩

end Grammar
end ByteGrammar
