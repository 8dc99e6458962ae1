import ByteGrammar.Proofs.Resolved.Extends
import ByteGrammar.Proofs.Resolved.Worked

/-!
# Settings in force

What an element that is no structure ends up with for a length and for the kind of its text is its
own setting, or else that of the nearest base that makes one. The search for attributes takes a
short cut where it comes back to an element that is being worked out, but no such element comes
back to itself: it would have to do so along its bases.
-/

set_option autoImplicit false

namespace ByteGrammar

/-- What is in force for an element: its own setting, or else what is in force for its base. -/
inductive Grammar.InForce {α : Type} (g : Grammar) (setting : Settings → Option α) :
    ElementId → α → Prop
  | own {id : ElementId} {x : α} (hset : setting (g.element id).settings = some x) :
      InForce g setting id x
  | inherited {id b : ElementId} {x : α} (hopen : setting (g.element id).settings = none)
      (hbase : g.Extends id b) (rest : InForce g setting b x) : InForce g setting id x

structure Grammar.Obeyed (g : Grammar) (id : ElementId) (a : Attributes) : Prop where
  length : ∀ q, a.length = some q ↔ g.InForce Settings.length id q
  textKind : ∀ kind, kind ≠ .zeroTerminated →
    (a.textKind = kind ↔ g.InForce Settings.textKind id kind)

namespace Grammar

section
variable {α : Type} {g : Grammar} {setting : Settings → Option α} {id : ElementId}

theorem in_force_stated {x y : α} (hset : setting (g.element id).settings = some x) :
    g.InForce setting id y ↔ x = y := by
  constructor
  · intro h
    cases h with
    | own hset' => exact Option.some.inj (hset.symm.trans hset')
    | inherited hopen _ _ => cases hset.symm.trans hopen
  · rintro rfl
    exact .own hset

theorem in_force_open {b : ElementId} {x : α} (hopen : setting (g.element id).settings = none)
    (hbase : g.Extends id b) : g.InForce setting id x ↔ g.InForce setting b x := by
  constructor
  · intro h
    cases h with
    | own hset => cases hopen.symm.trans hset
    | inherited _ hbase' rest =>
      obtain rfl := hbase.unique hbase'
      exact rest
  · exact .inherited hopen hbase

theorem not_in_force {x : α} (hopen : setting (g.element id).settings = none)
    (hbase : ∀ b, ¬g.Extends id b) : ¬g.InForce setting id x := by
  intro h
  cases h with
  | own hset => cases hopen.symm.trans hset
  | inherited _ hbase' _ => exact hbase _ hbase'

end

theorem obeyed_within {g : Grammar} {id : ElementId} (hbase : ∀ b, ¬g.Extends id b)
    (place : Option ElementId) (parent : Option Attributes) :
    g.Obeyed id ((g.element id).settings.within id place parent) where
  length := by
    intro q
    show (g.element id).settings.length = some q ↔ _
    cases hset : (g.element id).settings.length with
    | none => exact ⟨nofun,fun h => absurd h (not_in_force hset hbase)⟩
    | some own => exact Option.some_inj.trans (in_force_stated hset).symm
  textKind := by
    intro kind hkind
    show (g.element id).settings.textKind.getD .zeroTerminated = kind ↔ _
    cases hset : (g.element id).settings.textKind with
    | none => exact ⟨fun h => absurd h.symm hkind,fun h => absurd h (not_in_force hset hbase)⟩
    | some own => exact (in_force_stated hset).symm

theorem obeyed_inheriting {g : Grammar} {id b : ElementId} {a : Attributes}
    (hbase : g.Extends id b) (ha : g.Obeyed b a) (place : Option ElementId) :
    g.Obeyed id ((g.element id).settings.inheriting id place b a) where
  length := by
    intro q
    show (g.element id).settings.length.or a.length = some q ↔ _
    cases hset : (g.element id).settings.length with
    | none => exact (ha.length q).trans (in_force_open hset hbase).symm
    | some own => exact Option.some_inj.trans (in_force_stated hset).symm
  textKind := by
    intro kind hkind
    show (g.element id).settings.textKind.getD a.textKind = kind ↔ _
    cases hset : (g.element id).settings.textKind with
    | none => exact (ha.textKind kind hkind).trans (in_force_open hset hbase).symm
    | some own => exact (in_force_stated hset).symm

end Grammar

namespace Links

def Leads (g : Grammar) (id i : ElementId) : Prop :=
  (g.element i).kind.isStruct = false → g.Extends id i

/-- Whatever leads to an element that is no structure does so along its bases. -/
theorem extends_of_leads {g : Grammar} (hstates : g.StatesBases) {i id : ElementId}
    (h : Relation.ReflTransGen (Leads g) i id) (hid : (g.element id).kind.isStruct = false) :
    Relation.ReflTransGen g.Extends i id := by
  induction h with
  | refl => exact .refl
  | tail _ hlast ih =>
    have hext := hlast hid
    exact .tail (ih ((Grammar.agrees_struct (hstates.kind hext)).symm.trans hid)) hext

section
variable {l : Links} (hcontained : l.grammar.Contained) (hstates : l.grammar.StatesBases)
  (hbases : ∀ id b, l.base? id = some b ↔ l.grammar.Extends id b)
  (hparents : ∀ id p : Nat, l.parent? id = some p → (l.grammar.element p).kind.isStruct)
  (hacyclic : ∀ id, ¬Relation.TransGen l.grammar.Extends id id)

include hcontained hstates hbases hparents hacyclic

theorem obeyed_handed : Handed l (Leads l.grammar)
    fun _ id a => (l.grammar.element id).kind.isStruct = false → l.grammar.Obeyed id a where
  base := fun hbase _ => (hbases _ _).mp hbase
  parent := fun hparent hp => absurd ((hparents _ _ hparent).symm.trans hp) (by decide)
  settled := by
    intro _ id inherited parent _ hinherited _ hid
    cases hbase : l.base? id with
    | none =>
      rw [hbase] at hinherited
      obtain rfl : inherited = none := hinherited
      refine Grammar.obeyed_within (fun b hb => ?_) _ _
      cases hbase.symm.trans ((hbases id b).mpr hb)
    | some b =>
      rw [hbase] at hinherited
      obtain ⟨a,rfl,ha⟩ := hinherited
      have hext := (hbases id b).mp hbase
      refine Grammar.obeyed_inheriting hext (ha (fun hback => ?_) ?_) _
      · exact hacyclic id (.head' hext (extends_of_leads hstates hback hid))
      · exact (Grammar.agrees_struct (hstates.kind hext)).trans hid
  outside := fun hid _ => Grammar.obeyed_within
    (fun _ hb => Nat.not_lt_of_le hid (hcontained.extends_lt hb)) _ _
  kept := fun _ h => h

theorem attributes_obeyed {id : Nat} {a : Attributes} (h : l.attributes[id]? = some a)
    (hid : (l.grammar.element id).kind.isStruct = false) : l.grammar.Obeyed id a :=
  let ⟨_,_,hall⟩ := attributes_handed (obeyed_handed hcontained hstates hbases hparents hacyclic)
  hall h hid

end

end Links
end ByteGrammar
