import ByteGrammar.Proofs.Decode.State

/-!
# The course of a decode

What a decode does on its way, act by act: which elements it begins, where its leaves take bytes,
which scripts it runs, what it counts and which candidates it gives up. A course relates the state
that an action begins in to such acts and to its outcome. The courses of a decode follow its
definition, but their searches and rounds go on for as long as they do: no budget ends them. Each
of them comes to the outcome of the definition, and there always is one.
-/

set_option autoImplicit false

namespace ByteGrammar

open Stepwise DecodeM Source

variable {μ α β : Type}

inductive Act where
  | read (room : Nat) (element : ElementId)
  | take (fault : Option SourceFault)
  | run (script : Script) (location : String) (reason : Option String)
  | count (values : Nat)
  /-- An element that could not be read is given up for what comes next. The dynamic byte order
  was `before` when it was begun and is `now`. -/
  | giveUp (element : ElementId) (before now : ByteOrder)

def Act.isRead : Act → Bool
  | read .. => true
  | _ => false

/-- The acts of an action, and what it comes to, from a state. -/
def Course (μ α : Type) : Type := State μ → List Act → Except DecodeFault α × State μ → Prop

namespace Course

def performing (acts : State μ → List Act) (action : DecodeM μ α) : Course μ α :=
  fun σ done r => done = acts σ ∧ r = action σ

def silent (action : DecodeM μ α) : Course μ α := performing (fun _ => []) action

def tell (act : State μ → Act) : Course μ Unit := performing (fun σ => [act σ]) (pure ())

instance : Monad (Course μ) where
  pure a := silent (pure a)
  bind c f := fun σ acts r =>
    (∃ fault τ, c σ acts (.error fault,τ) ∧ r = (.error fault,τ)) ∨
    ∃ a υ first rest, c σ first (.ok a,υ) ∧ f a υ rest r ∧ acts = first ++ rest

def attempted (c : Course μ α) : Course μ (Except DecodeFault α) :=
  fun σ acts r => ∃ result τ, c σ acts (result,τ) ∧ r = (.ok result,τ)

def noting (c : Course μ α) (act : State μ → Act) : Course μ α := do
  let a ← c
  tell act
  pure a

inductive Turn (S B : Type) where
  | on (s : S)
  | ended (b : B)

inductive Loops {S T B : Type} (view : T → Turn S B) (turn : S → Course μ T) :
    S → State μ → List Act → Except DecodeFault B × State μ → Prop
  | ended {s : S} {σ τ : State μ} {acts : List Act} {t : T} {b : B}
      (last : turn s σ acts (.ok t,τ)) (leads : view t = .ended b) :
      Loops view turn s σ acts (.ok b,τ)
  | failed {s : S} {σ τ : State μ} {acts : List Act} {fault : DecodeFault}
      (last : turn s σ acts (.error fault,τ)) : Loops view turn s σ acts (.error fault,τ)
  | on {s s' : S} {σ υ : State μ} {acts more : List Act} {t : T}
      {r : Except DecodeFault B × State μ} (first : turn s σ acts (.ok t,υ))
      (leads : view t = .on s') (rest : Loops view turn s' υ more r) :
      Loops view turn s σ (acts ++ more) r

def loop {S T B : Type} (view : T → Turn S B) (turn : S → Course μ T) (s : S) : Course μ B :=
  Loops view turn s

structure Along (c : Course μ α) (action : DecodeM μ α) (σ : State μ) : Prop where
  sound : ∀ {acts r}, c σ acts r → r = action σ
  goes : ∃ acts, c σ acts (action σ)

/-- The course goes where the action does, from every state. -/
def Tracks (c : Course μ α) (action : DecodeM μ α) : Prop := ∀ σ, Along c action σ

section
variable {c : Course μ α} {action : DecodeM μ α} {f : α → Course μ β} {σ : State μ}
  {acts : List Act}

theorem bind_iff {r : Except DecodeFault β × State μ} :
    (c >>= f) σ acts r ↔ (∃ fault τ, c σ acts (.error fault,τ) ∧ r = (.error fault,τ)) ∨
      ∃ a υ first rest, c σ first (.ok a,υ) ∧ f a υ rest r ∧ acts = first ++ rest := Iff.rfl

theorem silent_bind {r : Except DecodeFault β × State μ} :
    (silent action >>= f) σ acts r ↔ match action σ with
      | (.ok a,υ) => f a υ acts r
      | (.error fault,τ) => acts = [] ∧ r = (.error fault,τ) := by
  rw [bind_iff]
  rcases h : action σ with ⟨fault | a, υ⟩
  · constructor
    · rintro (⟨_,_,⟨rfl,hc⟩,rfl⟩ | ⟨_,_,_,_,⟨-,hc⟩,-,-⟩) <;> cases hc.trans h
      exact ⟨rfl,rfl⟩
    · rintro ⟨rfl,rfl⟩
      exact .inl ⟨fault,υ,⟨rfl,h.symm⟩,rfl⟩
  · constructor
    · rintro (⟨_,_,⟨-,hc⟩,-⟩ | ⟨_,_,_,_,⟨rfl,hc⟩,hf,rfl⟩) <;> cases hc.trans h
      exact hf
    · exact fun hf => .inr ⟨a,υ,[],acts,⟨rfl,h.symm⟩,hf,rfl⟩

theorem tell_bind {act : State μ → Act} {f : Unit → Course μ β}
    {r : Except DecodeFault β × State μ} :
    (tell act >>= f) σ acts r ↔ ∃ rest, f () σ rest r ∧ acts = act σ :: rest := by
  rw [bind_iff]
  constructor
  · rintro (⟨_,_,⟨-,hc⟩,-⟩ | ⟨_,_,_,rest,⟨rfl,hc⟩,hf,rfl⟩) <;> cases hc
    exact ⟨rest,hf,rfl⟩
  · rintro ⟨rest,hf,rfl⟩
    exact .inr ⟨(),σ,_,rest,⟨rfl,rfl⟩,hf,rfl⟩

theorem attempted_bind {f : Except DecodeFault α → Course μ β}
    {r : Except DecodeFault β × State μ} :
    (attempted c >>= f) σ acts r ↔ ∃ result υ first rest, c σ first (result,υ) ∧
      f result υ rest r ∧ acts = first ++ rest := by
  rw [bind_iff]
  constructor
  · rintro (⟨_,_,⟨_,_,-,hc⟩,-⟩ | ⟨_,_,first,rest,⟨_,_,hc,hr⟩,hf,rfl⟩)
    · cases hc
    · cases hr
      exact ⟨_,_,first,rest,hc,hf,rfl⟩
  · rintro ⟨result,υ,first,rest,hc,hf,rfl⟩
    exact .inr ⟨result,υ,first,rest,⟨result,υ,hc,rfl⟩,hf,rfl⟩

theorem noting_iff {act : State μ → Act} {r : Except DecodeFault α × State μ} :
    noting c act σ acts r ↔ ∃ first, c σ first r ∧
      acts = first ++ match r with
        | (.ok _,τ) => [act τ]
        | (.error _,_) => [] := by
  unfold noting
  rw [bind_iff]
  constructor
  · rintro (⟨fault,τ,hc,rfl⟩ | ⟨a,υ,first,rest,hc,hrest,rfl⟩)
    · exact ⟨acts,hc,(List.append_nil _).symm⟩
    · obtain ⟨_,⟨rfl,rfl⟩,rfl⟩ := tell_bind.mp hrest
      exact ⟨first,hc,rfl⟩
  · rintro ⟨first,hc,rfl⟩
    rcases r with ⟨fault | a, τ⟩
    · exact .inl ⟨fault,τ,by rwa [List.append_nil],rfl⟩
    · exact .inr ⟨a,τ,first,_,hc,tell_bind.mpr ⟨[],⟨rfl,rfl⟩,rfl⟩,rfl⟩

end

section
variable {c : Course μ α} {action : DecodeM μ α}

theorem performing_tracks (acts : State μ → List Act) (action : DecodeM μ α) :
    Tracks (performing acts action) action := fun σ => ⟨fun h => h.2,acts σ,rfl,rfl⟩

theorem silent_tracks (action : DecodeM μ α) : Tracks (silent action) action :=
  performing_tracks _ action

theorem Along.bind {f : α → Course μ β} {g : α → DecodeM μ β} {σ : State μ}
    (hc : Along c action σ) (hf : ∀ a, Tracks (f a) (g a)) :
    Along (c >>= f) (action >>= g) σ := by
  constructor
  · intro acts r h
    rw [bind_run]
    rcases bind_iff.mp h with ⟨fault,τ,hfirst,rfl⟩ | ⟨a,υ,first,rest,hfirst,hrest,-⟩
    · rw [← hc.sound hfirst]
    · rw [← hc.sound hfirst]
      exact (hf a υ).sound hrest
  · obtain ⟨first,hfirst⟩ := hc.goes
    rw [bind_run]
    rcases h : action σ with ⟨fault | a, υ⟩ <;> rw [h] at hfirst
    · exact ⟨first,bind_iff.mpr (.inl ⟨fault,υ,hfirst,rfl⟩)⟩
    · obtain ⟨rest,hrest⟩ := (hf a υ).goes
      exact ⟨first ++ rest,bind_iff.mpr (.inr ⟨a,υ,first,rest,hfirst,hrest,rfl⟩)⟩

theorem bind_tracks {f : α → Course μ β} {g : α → DecodeM μ β} (hc : Tracks c action)
    (hf : ∀ a, Tracks (f a) (g a)) : Tracks (c >>= f) (action >>= g) := fun σ => (hc σ).bind hf

theorem tell_bind_tracks {act : State μ → Act} {f : Unit → Course μ α}
    (h : Tracks (f ()) action) : Tracks (tell act >>= f) action := by
  intro σ
  constructor
  · intro acts r hr
    obtain ⟨rest,hrest,-⟩ := tell_bind.mp hr
    exact (h σ).sound hrest
  · obtain ⟨rest,hrest⟩ := (h σ).goes
    exact ⟨act σ :: rest,tell_bind.mpr ⟨rest,hrest,rfl⟩⟩

theorem noting_tracks (act : State μ → Act) (h : Tracks c action) :
    Tracks (noting c act) action := by
  intro σ
  constructor
  · intro acts r hr
    obtain ⟨first,hfirst,-⟩ := noting_iff.mp hr
    exact (h σ).sound hfirst
  · obtain ⟨first,hfirst⟩ := (h σ).goes
    exact ⟨_,noting_iff.mpr ⟨first,hfirst,rfl⟩⟩

theorem attempted_tracks (h : Tracks c action) : Tracks (attempted c) (outcome action) := by
  intro σ
  constructor
  · rintro acts r ⟨result,τ,hc,rfl⟩
    rw [outcome_run, ← (h σ).sound hc]
  · obtain ⟨acts,hacts⟩ := (h σ).goes
    exact ⟨acts,_,_,hacts,outcome_run action σ⟩

/-- A loop goes where a bounded one, `g`, does whose budget suffices: every turn that goes on takes
from what is still needed, which is `N`. -/
theorem loop_along {S T B : Type} {view : T → Turn S B} {turn : S → Course μ T}
    {turning : S → DecodeM μ T} {g : Nat → S → DecodeM μ B}
    (hturn : ∀ s, Tracks (turn s) (turning s))
    (hbounded : ∀ n s, g (n + 1) s = turning s >>= fun t =>
      match view t with
      | .on s' => g n s'
      | .ended b => pure b)
    {I : S → Prop} {N : S → State μ → Nat}
    (hneed : ∀ {s s' σ t τ}, I s → turning s σ = (.ok t,τ) → view t = .on s' →
      I s' ∧ N s' τ < N s σ)
    {s : S} {σ : State μ} {n : Nat} (hs : I s) (hn : N s σ < n) :
    Along (loop view turn s) (g n s) σ := by
  induction n generalizing s σ with
  | zero => omega
  | succ n ih =>
    rw [hbounded]
    constructor
    · intro acts r h
      rw [bind_run]
      cases h with
      | ended last leads =>
        rw [← (hturn s σ).sound last]
        simp only [leads]
        rfl
      | failed last => rw [← (hturn s σ).sound last]
      | on first leads rest =>
        have hrun := (hturn s σ).sound first
        obtain ⟨hs',hless⟩ := hneed hs hrun.symm leads
        rw [← hrun]
        simp only [leads]
        exact (ih hs' (by omega)).sound rest
    · obtain ⟨acts,hacts⟩ := (hturn s σ).goes
      rw [bind_run]
      rcases h : turning s σ with ⟨fault | t, υ⟩ <;> rw [h] at hacts
      · exact ⟨acts,.failed hacts⟩
      · dsimp only
        cases leads : view t with
        | on s' =>
          obtain ⟨hs',hless⟩ := hneed hs h leads
          obtain ⟨more,hmore⟩ := (ih (σ := υ) hs' (by omega)).goes
          exact ⟨acts ++ more,.on hacts leads hmore⟩
        | ended b => exact ⟨acts,.ended hacts leads⟩

end

end Course
end ByteGrammar
