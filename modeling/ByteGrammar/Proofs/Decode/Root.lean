import ByteGrammar.Proofs.Decode.Reading
import ByteGrammar.Resolved.Resolve

/-!
# How a source is decoded

A decode begins with nothing recorded. That of a source reads the start element round by round,
and what every round preserves holds at its end.
-/

set_option autoImplicit false

namespace ByteGrammar

open Stepwise DecodeM Source

variable {μ : Type}

inductive Rounds (attempt : DecodeM μ Value) (most : Option Nat) (length : Nat) :
    Array Value → Nat → State μ → Array Value → Nat → State μ → Prop
  | stop {children : Array Value} {consumed : Nat} {σ τ : State μ}
      (resumed : State.Resumed σ τ) :
      Rounds attempt most length children consumed σ children consumed τ
  | round {children last : Array Value} {consumed finish : Nat} {σ τ υ : State μ} {v : Value}
      (room : reached children.size most = false) (inside : consumed < length)
      (read : attempt (σ.moved consumed) = (.ok v,τ))
      (rest : Rounds attempt most length (children.push v) (consumed + v.length) τ last finish υ) :
      Rounds attempt most length children consumed σ last finish υ

section
variable {setup : Setup μ} {attempt : DecodeM μ Value} {least : Nat} {most : Option Nat}
  {length : Nat}

theorem Rounds.preserves {I : Array Value → Nat → State μ → Prop}
    (stop : ∀ {children consumed σ τ}, State.Resumed σ τ → I children consumed σ →
      I children consumed τ)
    (round : ∀ {children consumed σ v τ}, attempt (σ.moved consumed) = (.ok v,τ) →
      I children consumed σ → I (children.push v) (consumed + v.length) τ)
    {children last : Array Value} {consumed finish : Nat} {σ τ : State μ}
    (h : Rounds attempt most length children consumed σ last finish τ)
    (hs : I children consumed σ) : I last finish τ := by
  induction h with
  | stop resumed => exact stop resumed hs
  | round room inside read rest ih => exact ih (round read hs)

/-- What holds of whatever a round reads holds of the children of the root. -/
theorem Rounds.forall_children {Q : Value → Prop}
    (read : ∀ {σ v τ}, attempt σ = (.ok v,τ) → Q v) {children last : Array Value}
    {consumed finish : Nat} {σ τ : State μ}
    (h : Rounds attempt most length children consumed σ last finish τ)
    (hs : ∀ w ∈ children.toList, Q w) : ∀ w ∈ last.toList, Q w := by
  refine h.preserves (I := fun children _ _ => ∀ w ∈ children.toList, Q w) (fun _ hs => hs) ?_ hs
  intro children consumed σ v τ hread hs
  rw [Array.toList_push]
  exact List.forall_mem_append.mpr ⟨hs,List.forall_mem_singleton.mpr (read hread)⟩

def stopAfter (least : Nat) (children : Array Value) (consumed : Nat) (saved : List Value)
    (fault : DecodeFault) : DecodeM μ (Array Value × Nat) :=
  if fault.isFatal then throw fault
  else if fault.isEof then do
    restore saved
    pure (children,consumed)
  else if least ≤ children.size then do
    log (.stopping consumed children.size fault)
    restore saved
    pure (children,consumed)
  else throw fault

theorem stop_after_holds {R : State μ → State μ → Prop} [State.Holding R] (least : Nat)
    (children : Array Value) (consumed : Nat) (saved : List Value) (fault : DecodeFault) :
    Keeps R (stopAfter least children consumed saved fault : DecodeM μ _) := by
  have hback : Keeps R (restore saved >>= fun _ => pure (children,consumed) : DecodeM μ _) :=
    bind_keeps (fun s => State.Holding.restored s saved) fun _ => pure_keeps _
  unfold stopAfter
  split
  · exact throw_keeps _
  · split
    · exact hback
    · split
      · exact bind_keeps (quiet_holds (log_quiet _)) fun _ => hback
      · exact throw_keeps _

/-- A round that fails and does not end the decode leaves what was read before. What it has recorded
is taken back. -/
theorem stop_after_settles {children last : Array Value} {consumed finish : Nat}
    {saved : List Value} {fault : DecodeFault} {σ τ : State μ}
    (h : stopAfter least children consumed saved fault σ = (.ok (last,finish),τ)) :
    last = children ∧ finish = consumed ∧ fault.isFatal = false ∧
      State.Quiet { σ with history := saved } τ := by
  unfold stopAfter at h
  split at h
  · cases h
  · next hfatal =>
    have hmild : fault.isFatal = false := Bool.eq_false_iff.mpr hfatal
    split at h
    · obtain ⟨_,_,hr,h1⟩ := bind_ok.mp h
      cases hr
      obtain ⟨hc,rfl⟩ := pure_ok.mp h1
      cases hc
      exact ⟨rfl,rfl,hmild,State.Quiet.refl _⟩
    · split at h
      · obtain ⟨_,_,hl,h1⟩ := bind_ok.mp h
        obtain rfl := log_ok hl
        obtain ⟨_,_,hr,h2⟩ := bind_ok.mp h1
        cases hr
        obtain ⟨hc,rfl⟩ := pure_ok.mp h2
        cases hc
        exact ⟨rfl,rfl,hmild,State.noted_quiet { σ with history := saved } _⟩
      · cases h

theorem stop_after_ok {children last : Array Value} {consumed finish : Nat} {saved : List Value}
    {fault : DecodeFault} {σ τ : State μ}
    (h : stopAfter least children consumed saved fault σ = (.ok (last,finish),τ)) :
    last = children ∧ finish = consumed ∧ State.Resumed { σ with history := saved } τ := by
  obtain ⟨hlast,hfinish,-,hquiet⟩ := stop_after_settles h
  exact ⟨hlast,hfinish,hquiet.kept.resumed⟩

theorem repeat_start_refused {rounds : Nat} {children : Array Value} {consumed : Nat}
    {σ φ : State μ} {fault : DecodeFault} (room : reached children.size most = false)
    (inside : consumed < length) (read : attempt (σ.moved consumed) = (.error fault,φ)) :
    repeatStart setup attempt least most length (rounds + 1) children consumed σ =
      stopAfter least children consumed σ.history fault φ := by
  have hseek : seekTo consumed σ = (.ok ⟨⟩,σ.moved consumed) := rfl
  have hgo : (reached children.size most || decide (length ≤ consumed)) = false := by
    simp [room, inside]
  rw [repeatStart, if_neg (by simp [hgo])]
  simp only [bind_run, hseek, get_run, outcome_run, read]
  rfl

theorem repeat_start_ok (ha : Keeps State.Onward attempt) {rounds : Nat}
    {children last : Array Value} {consumed finish : Nat} {σ τ : State μ}
    (h : repeatStart setup attempt least most length rounds children consumed σ =
      (.ok (last,finish),τ)) : Rounds attempt most length children consumed σ last finish τ := by
  induction rounds generalizing children consumed σ with
  | zero =>
    obtain ⟨hc,rfl⟩ := pure_ok.mp h
    cases hc
    exact .stop (State.Resumed.refl σ)
  | succ rounds ih =>
    rw [repeatStart] at h
    by_cases hfull : reached children.size most || length ≤ consumed
    · rw [if_pos hfull] at h
      obtain ⟨hc,rfl⟩ := pure_ok.mp h
      cases hc
      exact .stop (State.Resumed.refl σ)
    · rw [if_neg hfull] at h
      obtain ⟨hroom,hin⟩ : reached children.size most = false ∧ consumed < length := by
        simpa using hfull
      obtain ⟨_,_,hs,h1⟩ := bind_ok.mp h
      obtain rfl := seek_ok hs
      obtain ⟨_,_,hget,h2⟩ := bind_ok.mp h1
      cases hget
      obtain ⟨result,υ,hout,h3⟩ := bind_ok.mp h2
      have hread := outcome_ok hout
      cases result with
      | ok v =>
        dsimp only at h3
        by_cases hz : v.length = 0
        · rw [if_pos hz] at h3
          obtain ⟨hc,rfl⟩ := pure_ok.mp h3
          cases hc
          exact .round hroom hin hread (.stop (State.Resumed.refl _))
        · rw [if_neg hz] at h3
          exact .round hroom hin hread (ih h3)
      | error fault =>
        have hsaved : State.Onward (σ.moved consumed) υ := ha.of_run hread
        have hback := ((State.Resumed.refl σ).moved consumed).trans hsaved.restored
        have hstop : stopAfter least children consumed σ.history fault υ =
            (.ok (last,finish),τ) := h3
        obtain ⟨rfl,rfl,hlast⟩ := stop_after_ok hstop
        exact .stop (hback.trans hlast)

end

def bytesState (data : Array UInt8) : State Unit := State.new {} (ofBytes data) () false

def Setup.plain (authored : Grammar) : Setup Unit :=
  { grammar := authored.link.1, encodings := Text.Encodings.common }

structure Begun (σ ρ : State μ) (place : Nat) : Prop where
  reader : State.SameReader σ ρ
  history : ρ.history = []
  position : ρ.source.position = place

def State.begun (setup : Setup μ) (s : State μ) (place : Nat) : State μ :=
  State.moved { s with history := [], values := 0, order := setup.options.order } place

theorem begun_begun (setup : Setup μ) (s : State μ) (place : Nat) :
    Begun s (s.begun setup place) place := ⟨(Follows.refl s.source).moved place,rfl,rfl⟩

theorem decode_element_eq (setup : Setup μ) (id : ElementId) (offset : Nat) (σ : State μ) :
    decodeElement setup id offset σ =
      readInRoot setup σ.source.length id (σ.begun setup offset) := rfl

theorem decode_element_ok {setup : Setup μ} {id : ElementId} {offset : Nat} {σ τ : State μ}
    {v : Value} (h : decodeElement setup id offset σ = (.ok v,τ)) :
    ∃ ρ, Begun σ ρ offset ∧ readInRoot setup σ.source.length id ρ = (.ok v,τ) :=
  ⟨_,begun_begun setup σ offset,h⟩

theorem read_root_repeats {setup : Setup μ} {length : Nat} {σ τ : State μ} {v : Value}
    (h : readRoot setup length σ = (.ok v,τ)) :
    ∃ least most ρ υ children consumed ω,
      leastCount setup [⟨Grammar.root,0,length⟩] setup.grammar.start σ = (.ok least,ρ) ∧
      mostCount setup [⟨Grammar.root,0,length⟩] setup.grammar.start ρ = (.ok most,υ) ∧
      repeatStart setup (readInRoot setup length setup.grammar.start) least most length length #[]
        0 υ = (.ok (children,consumed),ω) ∧
      least ≤ children.size ∧ v = Value.spanning Grammar.root 0 children.toList ∧
      τ = ω.moved consumed := by
  obtain ⟨least,ρ,hleast,h1⟩ := bind_ok.mp h
  obtain ⟨most,υ,hmost,h2⟩ := bind_ok.mp h1
  obtain ⟨⟨children,consumed⟩,ω,hrounds,h3⟩ := bind_ok.mp h2
  dsimp only at h3
  split at h3
  · split at h3
    · cases h3
    · cases h3
  · next hfew =>
    obtain ⟨_,_,hs,h4⟩ := bind_ok.mp h3
    obtain ⟨rfl,rfl⟩ := pure_ok.mp h4
    exact ⟨least,most,ρ,υ,children,consumed,ω,hleast,hmost,hrounds,Nat.le_of_not_lt hfew,rfl,
      (seek_ok hs).symm⟩

theorem read_root_ok {setup : Setup μ} {length : Nat} {σ τ : State μ} {v : Value}
    (h : readRoot setup length σ = (.ok v,τ)) :
    ∃ ρ most children consumed υ, State.Resumed σ ρ ∧
      Rounds (readInRoot setup length setup.grammar.start) most length #[] 0 ρ children consumed
        υ ∧ v = Value.spanning Grammar.root 0 children.toList ∧ State.Resumed υ τ ∧
      τ.source.position = consumed := by
  obtain ⟨least,most,ρ,υ,children,consumed,ω,hleast,hmost,hrounds,-,rfl,rfl⟩ :=
    read_root_repeats h
  have hυ := ((bound_quiet setup _ _ _ _).of_run hleast).trans
    ((bound_quiet setup _ _ _ _).of_run hmost)
  exact ⟨υ,most,children,consumed,ω,hυ.kept.resumed,
    repeat_start_ok (read_element_reader setup _ _ _) hrounds,rfl,
    (State.Resumed.refl ω).moved consumed,rfl⟩

theorem read_root_element {setup : Setup μ} {length : Nat} {σ τ : State μ} {v : Value}
    (h : readRoot setup length σ = (.ok v,τ)) : v.element = Grammar.root := by
  obtain ⟨ρ,most,children,consumed,υ,-,-,rfl,-,-⟩ := read_root_ok h
  rfl

def checkRoot (setup : Setup μ) (v : Value) : DecodeM μ Value :=
  if setup.options.checkShape then
    match v.validate setup.grammar with
    | .ok () => pure v
    | .error fault => throw (.breach (.shape (fault.message setup.grammar)))
  else pure v

theorem check_root_ok {setup : Setup μ} {v w : Value} {s t : State μ}
    (h : checkRoot setup v s = (.ok w,t)) : v = w ∧ s = t := by
  unfold checkRoot at h
  split at h
  · rcases hv : v.validate setup.grammar with fault | _ <;> rw [hv] at h
    · cases h
    · exact pure_ok.mp h
  · exact pure_ok.mp h

theorem check_root_state (setup : Setup μ) (v : Value) (s : State μ) :
    (checkRoot setup v s).2 = s := by
  unfold checkRoot
  split
  · cases v.validate setup.grammar <;> rfl
  · rfl

theorem decode_eq (setup : Setup μ) (σ : State μ) :
    decode setup σ = (readRoot setup σ.source.length >>= checkRoot setup)
      ((σ.begun setup 0).noted (.decoding σ.source.length)) := rfl

theorem decode_ok {setup : Setup μ} {σ τ : State μ} {v : Value}
    (h : decode setup σ = (.ok v,τ)) :
    ∃ ρ, Begun σ ρ 0 ∧ readRoot setup σ.source.length ρ = (.ok v,τ) := by
  rw [decode_eq] at h
  obtain ⟨w,υ,hroot,hcheck⟩ := bind_ok.mp h
  obtain ⟨rfl,rfl⟩ := check_root_ok hcheck
  have hbegun := begun_begun setup σ 0
  exact ⟨(σ.begun setup 0).noted (.decoding σ.source.length),
    ⟨hbegun.reader,hbegun.history,hbegun.position⟩,hroot⟩

end ByteGrammar
