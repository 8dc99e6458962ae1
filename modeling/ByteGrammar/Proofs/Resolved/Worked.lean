import Mathlib.Logic.Relation
import ByteGrammar.Proofs.Resolved.Progress
import ByteGrammar.Resolved.Inheritance

/-!
# Working out attributes

The attributes of an element are settled from those of its base and of its structure, and what is
settled is remembered. The search takes a short cut where it comes back to an element that is being
worked out, so what it turns to on the way there may be unsettled. Whatever holds of attributes
that are settled from what does not lead back holds of all the attributes in the end.
-/

set_option autoImplicit false

namespace ByteGrammar

namespace Links

def settle (l : Links) (id : ElementId) (inherited : Option (ElementId × Attributes))
    (parent : Option Attributes) : Attributes :=
  match inherited with
  | some (base, attributes) =>
    (l.grammar.element id).settings.inheriting id (l.parent? id) base attributes
  | none => l.unbased id parent

def attributesOf? (search : ElementId → StateM Known Attributes) (id : Option ElementId)
    (known : Known) : Option (ElementId × Attributes) × Known :=
  match id with
  | none => (none,known)
  | some id => (some (id,(search id known).1),(search id known).2)

def unknown (l : Links) : Known := Array.replicate l.grammar.size .pending

def inOrder (l : Links) (order : List ElementId) : List Attributes :=
  ((order.mapM fun id => l.attributesOf (l.grammar.size + 1) id).run l.unknown).1

theorem attributes_eq (l : Links) : l.attributes = l.inOrder (List.range l.grammar.size) := rfl

theorem attributes_each {l : Links} {P : ElementId → Attributes → Prop}
    (h : List.Forall₂ P (List.range l.grammar.size) l.attributes) {id : Nat} {a : Attributes}
    (ha : l.attributes[id]? = some a) : P id a := by
  obtain ⟨hlt,rfl⟩ := List.getElem?_eq_some_iff.mp ha
  have hid : id < (List.range l.grammar.size).length := h.length_eq ▸ hlt
  have hone := h.get hid hlt
  rwa [List.get_eq_getElem, List.get_eq_getElem, List.getElem_range] at hone

theorem attributes_of_run (l : Links) (depth : Nat) (id : ElementId) (known : Known) :
    l.attributesOf (depth + 1) id known = match known[id]? with
      | some (.done attributes) => (attributes,known)
      | some .pending =>
        let inherited := attributesOf? (l.attributesOf depth) (l.base? id)
          (known.setIfInBounds id .underway)
        let parent := attributesOf? (l.attributesOf depth) (l.parent? id) inherited.2
        (l.settle id inherited.1 (parent.1.map Prod.snd),
          parent.2.setIfInBounds id (.done (l.settle id inherited.1 (parent.1.map Prod.snd))))
      | _ => (l.unbased id none,known) := by
  rw [attributesOf]
  show (match known[id]? with
    | some (.done attributes) => pure attributes
    | some .pending => _
    | _ => pure (l.unbased id none) : StateM Known _) known = _
  rcases known[id]? with - | (- | - | attributes)
  · rfl
  · simp only [settle]
    cases l.base? id <;> cases l.parent? id <;> rfl
  · rfl
  · rfl

def Found (leads : ElementId → ElementId → Prop) (P : Known → ElementId → Attributes → Prop)
    (known : Known) (id : ElementId) (wanted : Option ElementId)
    (found : Option (ElementId × Attributes)) : Prop :=
  match wanted with
  | none => found = none
  | some i => ∃ a, found = some (i,a) ∧ (¬Relation.ReflTransGen leads i id → P known i a)

structure Handed (l : Links) (leads : ElementId → ElementId → Prop)
    (P : Known → ElementId → Attributes → Prop) : Prop where
  base : ∀ {id b}, l.base? id = some b → leads id b
  parent : ∀ {id p}, l.parent? id = some p → leads id p
  settled : ∀ {known : Known} {id : Nat} {inherited parent}, id < known.size →
    Found leads P known id (l.base? id) inherited → Found leads P known id (l.parent? id) parent →
    P (known.setIfInBounds id (.done (l.settle id inherited (parent.map Prod.snd)))) id
      (l.settle id inherited (parent.map Prod.snd))
  outside : ∀ {known} {id : Nat}, l.grammar.size ≤ id → P known id (l.unbased id none)
  kept : ∀ {known known' : Known} {id a},
    (∀ (i : Nat) b, known[i]? = some (.done b) → known'[i]? = some (.done b)) →
    P known id a → P known' id a

structure Worked (l : Links) (P : Known → ElementId → Attributes → Prop) (known : Known) :
    Prop where
  size : known.size = l.grammar.size
  right : ∀ {id : Nat} {a}, known[id]? = some (.done a) → P known id a

def Due (leads : ElementId → ElementId → Prop) (id : Nat) (known : Known) : Prop :=
  ∀ y : Nat, known[y]? = some .underway → Relation.TransGen leads y id

structure WorksOut (l : Links) (P : Known → ElementId → Attributes → Prop) (id : Nat)
    (known : Known) (a : Attributes) (known' : Known) : Prop where
  progressed : Progressed known known'
  worked : Worked l P known'
  right : known[id]? ≠ some .underway → P known' id a
  met : id ∉ pendings known'

def WorksOutAll (l : Links) (leads : ElementId → ElementId → Prop)
    (P : Known → ElementId → Attributes → Prop) (depth : Nat)
    (search : ElementId → StateM Known Attributes) : Prop :=
  ∀ (id : Nat) (known : Known), Worked l P known → Due leads id known →
    (pendings known).card < depth → WorksOut l P id known (search id known).1 (search id known).2

section
variable {l : Links} {leads : ElementId → ElementId → Prop}
  {P : Known → ElementId → Attributes → Prop} {known known' : Known} {id : Nat}

theorem Worked.turned (h : Handed l leads P) (hw : Worked l P known)
    (hk : known[id]? = some .pending) : Worked l P (known.setIfInBounds id .underway) where
  size := by rw [Array.size_setIfInBounds, hw.size]
  right := fun hi => h.kept (fun _ _ hj => (underway_done hk).mpr hj)
    (hw.right ((underway_done hk).mp hi))

theorem Found.imp {P' : Known → ElementId → Attributes → Prop} {wanted : Option ElementId}
    {found : Option (ElementId × Attributes)}
    (h : ∀ i a, i ≠ id → P known i a → P' known' i a) (hf : Found leads P known id wanted found) :
    Found leads P' known' id wanted found := by
  cases wanted with
  | none => exact hf
  | some i =>
    obtain ⟨a,rfl,ha⟩ := hf
    refine ⟨a,rfl,fun hnot => h i a ?_ (ha hnot)⟩
    rintro rfl
    exact hnot .refl

theorem works_out_settled (h : Handed l leads P) {a : Attributes}
    (hk : known[id]? = some .pending)
    (hp : Progressed (known.setIfInBounds id .underway) known') (hw : Worked l P known')
    (ha : P (known'.setIfInBounds id (.done a)) id a) :
    WorksOut l P id known a (known'.setIfInBounds id (.done a)) := by
  obtain ⟨hprogressed,hmet⟩ := hp.finished hk a
  refine ⟨hprogressed,⟨?_,fun {i b} hi => ?_⟩,fun _ => ha,hmet⟩
  · rw [Array.size_setIfInBounds, hw.size]
  · rcases (done_iff hk hp a i b).mp hi with ⟨rfl,rfl⟩ | hi
    · exact ha
    · exact h.kept (fun j c hj => (done_iff hk hp a j c).mpr (.inr hj)) (hw.right hi)

theorem attributes_found {depth : Nat} {search : ElementId → StateM Known Attributes}
    (hsearch : WorksOutAll l leads P depth search) {wanted : Option ElementId}
    (hw : Worked l P known) (hleads : ∀ i, wanted = some i → leads id i)
    (hback : ∀ y : Nat, known[y]? = some .underway → Relation.ReflTransGen leads y id)
    (hd : (pendings known).card < depth) :
    Progressed known (attributesOf? search wanted known).2 ∧
      Worked l P (attributesOf? search wanted known).2 ∧
      Found leads P (attributesOf? search wanted known).2 id wanted
        (attributesOf? search wanted known).1 := by
  cases wanted with
  | none => exact ⟨Progressed.refl _,hw,rfl⟩
  | some i =>
    have hi := hsearch i known hw (fun y hy => .tail' (hback y hy) (hleads i rfl)) hd
    refine ⟨hi.progressed,hi.worked,_,rfl,fun hnot => hi.right fun hunderway => ?_⟩
    exact hnot (hback i hunderway)

/-- The depth of the search never runs out, and the table keeps what is known. -/
theorem attributes_of_works (h : Handed l leads P) (depth : Nat) :
    WorksOutAll l leads P depth (l.attributesOf depth) := by
  induction depth with
  | zero => exact fun _ _ _ _ hd => absurd hd (Nat.not_lt_zero _)
  | succ depth ih =>
    intro id known hw hdue hd
    have hmet : known[id]? ≠ some .pending → id ∉ pendings known := mt mem_pendings.mp
    rw [attributes_of_run]
    cases hk : known[id]? with
    | none =>
      refine ⟨Progressed.refl _,hw,fun _ => h.outside ?_,hmet (by rw [hk]; nofun)⟩
      exact hw.size ▸ Array.getElem?_eq_none_iff.mp hk
    | some progress =>
      cases progress with
      | underway =>
        exact ⟨Progressed.refl _,hw,fun hnot => absurd hk hnot,hmet (by rw [hk]; nofun)⟩
      | done a => exact ⟨Progressed.refl _,hw,fun _ => hw.right hk,hmet (by rw [hk]; nofun)⟩
      | pending =>
        dsimp only
        have hcard : (pendings (known.setIfInBounds id .underway)).card < depth :=
          Nat.lt_of_lt_of_le (underway_card hk) (Nat.le_of_lt_succ hd)
        -- Whatever is underway now leads to `id`, so only what leads back can be cut short.
        have hback : ∀ y : Nat, (known.setIfInBounds id .underway)[y]? = some .underway →
            Relation.ReflTransGen leads y id := by
          intro y hy
          rcases (underway_iff hk y).mp hy with rfl | hy
          · exact .refl
          · exact (hdue y hy).to_reflTransGen
        obtain ⟨hp,hw',hinherited⟩ := attributes_found ih (hw.turned h hk)
          (fun b (hb : l.base? id = some b) => h.base hb) hback hcard
        obtain ⟨hp',hw'',hparent⟩ := attributes_found ih hw'
          (fun p (hparent : l.parent? id = some p) => h.parent hparent)
          (fun y hy => hback y ((hp.underway y).mp hy)) (hp.card_lt hcard)
        have hsize : id < known.size := pending_lt hk
        have hlater := hinherited.imp fun i a _ hP => h.kept hp'.done hP
        refine works_out_settled h hk (hp.trans hp') hw'' (h.settled ?_ hlater hparent)
        rwa [(hp.trans hp').size, Array.size_setIfInBounds]

/-- In whatever order the attributes are worked out, they are as they should be by what is known in
the end. -/
theorem attributes_in_order (h : Handed l leads P) (order : List ElementId) :
    ∃ known, Worked l P known ∧ List.Forall₂ (P known) order (l.inOrder order) := by
  suffices hrun : ∀ known, Worked l P known → (∀ i : Nat, known[i]? ≠ some .underway) →
      ∃ known', Progressed known known' ∧ Worked l P known' ∧ List.Forall₂ (P known') order
        (order.mapM (fun id => l.attributesOf (l.grammar.size + 1) id) known).1 by
    obtain ⟨known,-,hw,hall⟩ := hrun l.unknown
      ⟨Array.size_replicate,fun hi => absurd (start_pending hi) nofun⟩
      (fun i hi => absurd (start_pending hi) nofun)
    exact ⟨known,hw,hall⟩
  induction order with
  | nil => exact fun known hw _ => ⟨known,Progressed.refl _,hw,.nil⟩
  | cons id rest ih =>
    intro known hw hnone
    have hcard := pendings_card_le known
    rw [hw.size] at hcard
    have hworks := attributes_of_works h (l.grammar.size + 1) id known hw
      (fun y hy => absurd hy (hnone y)) (Nat.lt_succ_of_le hcard)
    obtain ⟨known',hp,hw',hrest⟩ := ih _ hworks.worked
      (fun i hi => hnone i ((hworks.progressed.underway i).mp hi))
    refine ⟨known',hworks.progressed.trans hp,hw',?_⟩
    rw [List.mapM_cons]
    exact .cons (h.kept hp.done (hworks.right (hnone id))) hrest

theorem attributes_handed (h : Handed l leads P) : ∃ known, Worked l P known ∧
    ∀ {id : Nat} {a : Attributes}, l.attributes[id]? = some a → P known id a := by
  obtain ⟨known,hw,hall⟩ := attributes_in_order h (List.range l.grammar.size)
  exact ⟨known,hw,attributes_each hall⟩

end

end Links
end ByteGrammar
