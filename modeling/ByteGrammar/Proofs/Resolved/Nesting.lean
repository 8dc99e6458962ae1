import ByteGrammar.Proofs.Resolved.Extends

/-!
# How deep elements stand

An element that takes its base from that of its structure stands no less deep than what it takes.
So along bases and structures nobody comes to stand deeper, unless some element states a base that
stands deeper than itself. Where none does, a way back to the start leads along bases alone.
-/

set_option autoImplicit false

namespace ByteGrammar.Grammar

def levelWithin (g : Grammar) : Nat → ElementId → Nat
  | 0, _ => 0
  | steps + 1, id =>
    match g.parent? id with
    | none => 0
    | some p => g.levelWithin steps p + 1

def level (g : Grammar) (id : ElementId) : Nat := g.levelWithin id id

def Dips (g : Grammar) (id b : ElementId) : Prop :=
  (∃ reference, (g.element id).base = some reference ∧ g.find? reference = some b) ∧
    g.level id < g.level b

def Turned (g : Grammar) (id i : ElementId) : Prop := g.Extends id i ∨ g.parent? id = some i

structure Nested (g : Grammar) : Prop where
  forest : g.Forest
  before : ∀ {p child : Nat}, child ∈ g.children p → p < child

/-- A structure that was built comes before what stands in it. -/
theorem built_before {g : Grammar} (h : g.Built) {p child : Nat} (hc : child ∈ g.children p) :
    p < child := by
  induction h with
  | new name => simp [new_children] at hc
  | @add g e _ ih => exact ih (children_push g p e ▸ hc)
  | @addChild g g' parent e added _ ih =>
    obtain ⟨-,-,hchildren⟩ := add_child_ok added
    obtain ⟨⟨own,hown,-⟩,-⟩ := add_child_parent added
    rw [hchildren, List.mem_append] at hc
    rcases hc with hc | hc
    · exact ih hc
    · split at hc
      · next hp =>
        rw [List.mem_singleton.mp hc, ← hp]
        exact element_known hown
      · cases hc
  | setStart start _ ih => exact ih hc
  | modify _ _ ih => exact ih (by simpa using hc)
  | replace e _ _ ih =>
    rw [children_replace] at hc
    split at hc
    · cases hc
    · exact ih hc

theorem Built.nested {authored : Grammar} (h : authored.Built) (e : Element) :
    (authored.push e).Nested where
  forest := (built_forest h).push e
  before := fun hc => built_before h (children_push authored _ e ▸ hc)

section
variable {g : Grammar} (hn : g.Nested)

include hn

theorem Nested.parent_lt {id p : Nat} (h : g.parent? id = some p) : p < id :=
  hn.before (parent_children h)

theorem Nested.level_within {steps id : Nat} (h : id ≤ steps) :
    g.levelWithin steps id = g.level id := by
  suffices hall : ∀ n m, id ≤ n → id ≤ m → g.levelWithin n id = g.levelWithin m id from
    hall steps id h (Nat.le_refl id)
  induction id using Nat.strong_induction_on with
  | _ id ih =>
    intro n m hle hle'
    cases hp : g.parent? id with
    | none => cases n <;> cases m <;> simp [levelWithin, hp]
    | some p =>
      have hlt := hn.parent_lt hp
      obtain ⟨n,rfl⟩ : ∃ k, n = k + 1 := ⟨n - 1,by omega⟩
      obtain ⟨m,rfl⟩ : ∃ k, m = k + 1 := ⟨m - 1,by omega⟩
      simp only [levelWithin, hp]
      rw [ih p hlt (by omega) n m (by omega) (by omega)]

theorem Nested.level_parent {id p : Nat} (h : g.parent? id = some p) :
    g.level id = g.level p + 1 := by
  have hlt := hn.parent_lt h
  obtain ⟨n,rfl⟩ : ∃ n, id = n + 1 := ⟨id - 1,by omega⟩
  rw [level, levelWithin, h]
  exact congrArg (· + 1) (hn.level_within (by omega))

variable {P : ElementId → Prop} (hclosed : ∀ {id i}, g.Turned id i → P id → P i)
  (hflat : ∀ {id b}, P id → ¬g.Dips id b)

include hclosed hflat

/-- Where no base is stated that stands deeper, no base does: a child that is taken from the base
of the structure stands one level below that. -/
theorem Nested.found_level {sought : Sought} {x : Nat} (h : g.Finds sought x) :
    match sought with
    | .base id => P id → g.level x ≤ g.level id
    | .child _ place => P place → g.level x ≤ g.level place + 1 := by
  induction h with
  | stated hbase hfind =>
    intro hid
    by_contra hlt
    exact hflat hid ⟨⟨_,hbase,hfind⟩,Nat.lt_of_not_le hlt⟩
  | adopted _ hplace above _ _ _ ihabove ihnearest =>
    intro hid
    have hp := hclosed (.inr hplace) hid
    have habove := ihabove hp
    have hnearest := ihnearest (hclosed (.inl above) hp)
    have hlevel := hn.level_parent hplace
    omega
  | own hchild =>
    intro _
    exact (hn.level_parent (child_parent hn.forest (List.mem_of_find?_eq_some hchild))).le
  | along _ base _ ihbase ihrest =>
    intro hplace
    have hnext := ihbase hplace
    have hrest := ihrest (hclosed (.inl base) hplace)
    omega

theorem Nested.turned_level {id i : Nat} (hid : P id) (h : Relation.TransGen g.Turned id i) :
    P i ∧ g.level i ≤ g.level id ∧
      (g.level i = g.level id → Relation.TransGen g.Extends id i) := by
  have hstep : ∀ {x y : Nat}, P x → g.Turned x y →
      g.level y ≤ g.level x ∧ (g.level y = g.level x → g.Extends x y) := by
    rintro x y hx (hext | hplace)
    · exact ⟨hn.found_level hclosed hflat hext hx,fun _ => hext⟩
    · have hlevel := hn.level_parent hplace
      exact ⟨by omega,by omega⟩
  induction h with
  | single h =>
    obtain ⟨hle,hext⟩ := hstep hid h
    exact ⟨hclosed h hid,hle,fun heq => .single (hext heq)⟩
  | tail _ h ih =>
    obtain ⟨hp,hle,hway⟩ := ih
    obtain ⟨hle',hext⟩ := hstep hp h
    exact ⟨hclosed h hp,by omega,fun heq => .tail (hway (by omega)) (hext (by omega))⟩

end

/-- Where no element is its own base, whoever comes back has met an element that states a base
which stands deeper than itself. -/
theorem Nested.returns_dip {g : Grammar} (hn : g.Nested)
    (hacyclic : ∀ id, ¬Relation.TransGen g.Extends id id) {id : Nat}
    (h : Relation.TransGen g.Turned id id) :
    ∃ f b, Relation.ReflTransGen g.Turned id f ∧ g.Dips f b := by
  -- Without a dip the level never rises, so that it never falls on the way back.
  by_contra hnone
  simp only [not_exists, not_and] at hnone
  obtain ⟨-,-,hway⟩ := hn.turned_level (P := Relation.ReflTransGen g.Turned id)
    (fun hturn hway => hway.tail hturn) (fun hway => hnone _ _ hway) .refl h
  exact hacyclic id (hway rfl)

end ByteGrammar.Grammar
