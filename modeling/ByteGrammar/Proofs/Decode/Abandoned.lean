import ByteGrammar.Proofs.Decode.Rounds
import ByteGrammar.Proofs.Decode.Sweep

/-!
# Abandoned elements

Without a runtime, whatever is read leaves the dynamic byte order as it is and only adds to what
was recorded before, however it ends. So where an element cannot be read and the search or the root
goes on without it or comes to its end there, nothing is left of it but a larger count of values.
-/

set_option autoImplicit false

namespace ByteGrammar

open Stepwise DecodeM Source

variable {μ α : Type}

namespace State

variable {s t u : State μ}

structure Continued (s t : State μ) : Prop where
  reader : SameReader s t
  recorded : ∃ newer, t.history = newer ++ s.history
  order : t.order = s.order
  memory : t.memory = s.memory
  values : s.values ≤ t.values

/-- Wherever the cursor is moved next, nothing is left of what was done since but its count and
what the journal tells of it. -/
structure Undone (s t : State μ) : Prop where
  values : s.values ≤ t.values
  moved : ∀ place,
    t.moved place = { s.moved place with values := t.values, journal := t.journal }

theorem Quiet.continued (h : Quiet s t) : Continued s t :=
  ⟨h.reader,⟨[],h.history⟩,h.order,h.memory,Nat.le_of_eq h.values.symm⟩

theorem Continued.trans (h : Continued s t) (k : Continued t u) : Continued s u := by
  obtain ⟨first,hfirst⟩ := h.recorded
  obtain ⟨more,hmore⟩ := k.recorded
  refine ⟨Lasting.trans h.reader k.reader,⟨more ++ first,?_⟩,k.order.trans h.order,
    k.memory.trans h.memory,Nat.le_trans h.values k.values⟩
  rw [hmore, hfirst, List.append_assoc]

instance : Enduring (Continued (μ := μ)) where
  refl s := (Quiet.refl s).continued
  trans := Continued.trans
  source h := ⟨h,⟨[],rfl⟩,rfl,rfl,Nat.le_refl _⟩
  quiet := Quiet.continued
  revoked h := ⟨h.reader,⟨[],rfl⟩,h.order,h.memory,h.values⟩
  counted s := ⟨Follows.refl s.source,⟨[],rfl⟩,rfl,rfl,Nat.le_succ _⟩
  recorded s v := ⟨Follows.refl s.source,⟨[v],rfl⟩,rfl,rfl,Nat.le_refl _⟩

theorem Continued.undone (h : Continued s t) (hs : s.source.InMemory)
    (hh : t.history = s.history) : Undone s t := by
  refine ⟨h.values,fun place => ?_⟩
  have hsource := Follows.eq_moved h.reader hs
  obtain ⟨source,history,order,values,memory,journal⟩ := t
  obtain ⟨-,-,horder,hmemory,-⟩ := h
  simp only [moved] at *
  rw [hsource, hh, horder, hmemory]

theorem Undone.trans (h : Undone s t) (k : Undone t u) : Undone s u := by
  refine ⟨Nat.le_trans h.values k.values,fun place => ?_⟩
  rw [k.moved place, h.moved place]

theorem undone_moved (s : State μ) (place : Nat) : Undone s (s.moved place) :=
  ⟨Nat.le_refl _,fun _ => rfl⟩

theorem Undone.behind (h : Undone s t) (place : Nat) : Undone (s.moved place) t :=
  ⟨h.values,h.moved⟩

theorem Undone.in_memory (h : Undone s t) (hs : s.source.InMemory) : t.source.InMemory := by
  have hsource : (t.moved 0).source = (s.moved 0).source := by rw [h.moved 0]
  have hmoved : (t.moved 0).source.InMemory := hsource ▸ hs.moved 0
  exact ⟨hmoved.chunk,hmoved.claim,hmoved.failAt,hmoved.interrupts⟩

end State

section
variable {setup : Setup μ}

theorem run_script_continued (hr : setup.runtime = none) (id : ElementId)
    (current : Option Value) : Keeps State.Continued (runScript setup id current) := by
  unfold runScript
  dsimp only
  cases setup.grammar.script? id with
  | none => exact throw_keeps _
  | some script =>
    rw [hr]
    exact quiet_endures (log_quiet _)

/-- Whatever comes of an element, its reading has only gone on from the state before. -/
theorem read_element_continued (hr : setup.runtime = none) (room : Nat) (frames : List Frame)
    (id : ElementId) : Keeps State.Continued (readElement setup room frames id) :=
  read_element_keeps (run_script_continued hr) room frames id

theorem Approach.in_memory {members : Array ElementId} {frame : Frame} {frames : List Frame}
    {s : Search} {σ υ : State μ} {member : ElementId} {least : Nat}
    (h : Approach setup members frame frames s σ member least υ) (hσ : σ.source.InMemory) :
    υ = σ.moved (frame.start + s.consumed) := by
  have hmoved : (σ.moved (frame.start + s.consumed)).source.InMemory := hσ.moved _
  obtain ⟨most,ρ,hmost,-,hleast⟩ := h.bounds
  obtain ⟨rfl,-⟩ := bound_in_memory hmoved hmost
  exact (bound_in_memory hmoved hleast).1

theorem State.Continued.abandoned {σ φ τ : State μ} (h : State.Continued σ φ)
    (hσ : σ.source.InMemory) (hback : State.Quiet { φ with history := σ.history } τ) :
    State.Undone σ τ := by
  have hrevoked : State.Continued σ { φ with history := σ.history } := State.Enduring.revoked h
  exact (hrevoked.trans hback.continued).undone hσ hback.history

theorem State.Undone.evaluate {σ τ : State μ} (h : State.Undone σ τ) (frames : List Frame)
    (id : ElementId) (q : Quantity) (place : Nat) :
    (evaluate setup frames id q (τ.moved place)).1 =
      (evaluate setup frames id q (σ.moved place)).1 := by
  rw [h.moved place, evaluate_run, evaluate_run]
  rcases q.eval setup.grammar (σ.moved place).history frames (σ.moved place).source.position
    (σ.moved place).source with ⟨_ | _, _⟩ <;> rfl

variable {room : Nat} {arrangement : Arrangement} {members : Array ElementId} {frame : Frame}
  {frames : List Frame} {s s' : Search} {σ υ φ τ : State μ} {member : ElementId} {least : Nat}
  {fault : DecodeFault}

/-- A search that goes on without a member or ends there has undone its reading. -/
theorem search_step_undone (hr : setup.runtime = none) (hσ : σ.source.InMemory)
    {stage : Search.Stage} (approach : Approach setup members frame frames s σ member least υ)
    (read : readElement setup room frames member υ = (.error fault,φ))
    (step : searchStep setup (readElement setup room frames) arrangement members frame frames s
      σ = (.ok stage,τ)) :
    (stage = .ended s true ∧ fault = .eof ∨
      stage = .searching s.next ∧ fault.isFatal = false ∧ fault.isEof = false) ∧
      State.Undone σ τ := by
  have hread := (read_element_continued hr room frames member).of_run read
  rw [approach.step, bind_run, outcome_run, read] at step
  obtain ⟨hstage,hquiet⟩ := after_attempt_settles step
  rw [approach.in_memory hσ] at hread hquiet
  exact ⟨hstage,(State.undone_moved σ _).trans (hread.abandoned (hσ.moved _) hquiet)⟩

theorem Trials.undone (hr : setup.runtime = none) (hσ : σ.source.InMemory) {trials : List Trial}
    (h : Trials setup (readElement setup room frames) arrangement members frame frames s σ trials
      s' τ) (hnone : ∀ t ∈ trials, t.verdict.child? = none) : State.Undone σ τ := by
  induction h with
  | done s σ => exact ⟨Nat.le_refl _,fun _ => rfl⟩
  | @more s _ _ σ ρ τ t trials first rest ih =>
    have hfirst : State.Undone σ ρ := by
      have hstep := search_step_goes.mpr ⟨t,first⟩
      cases first with
      | full next hmost filled =>
        have hmoved : (σ.moved (frame.start + s.consumed)).source.InMemory := hσ.moved _
        obtain ⟨rfl,-⟩ := bound_in_memory hmoved hmost
        exact State.undone_moved σ _
      | refused approach read after => exact (search_step_undone hr hσ approach read hstep).2
      | taken approach read => cases hnone _ List.mem_cons_self
    exact hfirst.trans (ih (hfirst.in_memory hσ) fun t ht => hnone t (List.mem_cons_of_mem _ ht))

theorem repeat_start_undone (hr : setup.runtime = none) (hσ : σ.source.InMemory)
    {most : Option Nat} {length rounds consumed finish : Nat} {children last : Array Value}
    {id : ElementId} (hroom : reached children.size most = false) (inside : consumed < length)
    (read : readInRoot setup length id (σ.moved consumed) = (.error fault,φ))
    (h : repeatStart setup (readInRoot setup length id) least most length (rounds + 1) children
      consumed σ = (.ok (last,finish),τ)) :
    last = children ∧ finish = consumed ∧ fault.isFatal = false ∧ State.Undone σ τ := by
  have hread : State.Continued (σ.moved consumed) φ :=
    (read_element_continued hr _ _ id).of_run read
  rw [repeat_start_refused hroom inside read] at h
  obtain ⟨hlast,hfinish,hmild,hquiet⟩ := stop_after_settles h
  exact ⟨hlast,hfinish,hmild,
    (State.undone_moved σ consumed).trans (hread.abandoned (hσ.moved _) hquiet)⟩

end

/-- An element that is abandoned is undone. Let the bytes lie in memory and no runtime run scripts,
and let the reading of a member fail, wherever inside of it, having gone on from the state before.
If the search goes on all the same or ends at the end of the data, it does so within the same
frames, and from where the cursor is moved next the state is what it was before the member was
tried, but for the count of values and the journal. So quantities come to the same as before. This
also holds for members that are passed over one after the other, and for the root, where its rounds
end with one that failed. -/
theorem abandoned_undone {setup : Setup μ} (hr : setup.runtime = none) {σ : State μ}
    (hσ : σ.source.InMemory) :
    (∀ room arrangement members frame frames s member least υ fault φ stage τ,
      Approach setup members frame frames s σ member least υ →
      readElement setup room frames member υ = (.error fault,φ) →
      searchStep setup (readElement setup room frames) arrangement members frame frames s σ =
        (.ok stage,τ) →
      (stage = .ended s true ∧ fault = .eof ∨
        stage = .searching s.next ∧ fault.isFatal = false ∧ fault.isEof = false ∧ ∀ steps,
          search setup (readElement setup room frames) arrangement members frame frames
            (steps + 1) s σ =
          search setup (readElement setup room frames) arrangement members frame frames steps
            s.next τ) ∧
      State.Continued υ φ ∧ State.Undone υ τ ∧
      ∀ id q place, (evaluate setup frames id q (τ.moved place)).1 =
        (evaluate setup frames id q (υ.moved place)).1) ∧
    (∀ room arrangement members frame frames s trials s' τ,
      Trials setup (readElement setup room frames) arrangement members frame frames s σ trials s'
        τ → (∀ t ∈ trials, t.verdict.child? = none) → State.Undone σ τ) ∧
    ∀ least most length rounds children consumed id fault φ last finish τ,
      reached children.size most = false → consumed < length →
      readInRoot setup length id (σ.moved consumed) = (.error fault,φ) →
      repeatStart setup (readInRoot setup length id) least most length (rounds + 1) children
        consumed σ = (.ok (last,finish),τ) →
      last = children ∧ finish = consumed ∧ fault.isFatal = false ∧
        State.Continued (σ.moved consumed) φ ∧ State.Undone (σ.moved consumed) τ := by
  refine ⟨?_,fun _ _ _ _ _ _ _ _ _ h hnone => h.undone hr hσ hnone,?_⟩
  · intro room arrangement members frame frames s member least υ fault φ stage τ approach read step
    obtain ⟨hstage,hundone⟩ := search_step_undone hr hσ approach read step
    have hυ := hundone.behind (frame.start + s.consumed)
    rw [← approach.in_memory hσ] at hυ
    refine ⟨hstage.imp_right fun ⟨hnext,hmild,hdata⟩ => ⟨hnext,hmild,hdata,fun steps => ?_⟩,
      (read_element_continued hr room frames member).of_run read,hυ,hυ.evaluate frames⟩
    subst hnext
    rw [search, bind_run, step]
  · intro least most length rounds children consumed id fault φ last finish τ hroom inside read h
    obtain ⟨hlast,hfinish,hmild,hundone⟩ := repeat_start_undone hr hσ hroom inside read h
    exact ⟨hlast,hfinish,hmild,(read_element_continued hr _ _ id).of_run read,
      hundone.behind consumed⟩

def boxes : Grammar :=
  let g := (Grammar.new "boxes").add ((Element.struct "box").withArrangement .variable)
  let g := (g.addChildren 1 [Element.struct "pair",
    (Element.binary "raw").withLength (.literal 2)]).toOption.getD g
  let g := (g.addChildren 2 [(Element.number "first").withLength (.literal 1),
    ((Element.number "second").withLength (.literal 1)).withValue ⟨"nine",9⟩]).toOption.getD g
  g.setStart (.index 1)

def boxesSetup : Setup Unit := Setup.plain boxes

def tryPair : DecodeM Unit Search.Stage :=
  searchStep boxesSetup (readElement boxesSetup 8 [⟨1,0,2⟩]) .variable #[2, 3] ⟨1,0,2⟩ [⟨1,0,2⟩]
    (Search.start [2, 3])

theorem pair_undone :
    ∃ fault φ τ, readElement boxesSetup 8 [⟨1,0,2⟩] 2 ((bytesState #[1, 2]).moved 0) =
        (.error fault,φ) ∧ φ.history.length = 1 ∧
      tryPair (bytesState #[1, 2]) = (.ok (.searching (Search.start [2, 3]).next),τ) ∧
      State.Undone ((bytesState #[1, 2]).moved 0) τ := by
  have hleast : (boxesSetup.grammar.attributesOf 2).least = .literal 1 := by decide +kernel
  have hmost : (boxesSetup.grammar.attributesOf 2).most = .literal 1 := by decide +kernel
  have happroach : Approach boxesSetup #[2, 3] ⟨1,0,2⟩ [⟨1,0,2⟩] (Search.start [2, 3])
      (bytesState #[1, 2]) 2 1 ((bytesState #[1, 2]).moved 0) :=
    ⟨rfl,some 1,_,most_count_literal hmost (by decide),rfl,bound_literal hleast⟩
  obtain ⟨fault,φ,hread⟩ := run_fault
    (r := readElement boxesSetup 8 [⟨1,0,2⟩] 2 ((bytesState #[1, 2]).moved 0)) (by decide +kernel)
  have hrecorded : (readElement boxesSetup 8 [⟨1,0,2⟩] 2
      ((bytesState #[1, 2]).moved 0)).2.history.length = 1 := by decide +kernel
  rw [hread] at hrecorded
  obtain ⟨stage,τ,hstep⟩ := run_ok (r := tryPair (bytesState #[1, 2])) (by decide +kernel)
  have hon : (tryPair (bytesState #[1, 2])).1.toOption.any
      (fun stage => stage.turn matches .on _) := by decide +kernel
  rw [hstep] at hon
  obtain ⟨hstage,-,hundone,-⟩ := (abandoned_undone rfl (of_bytes_in_memory _)).1 8 .variable _ _ _
    _ 2 1 _ fault φ stage τ happroach hread hstep
  rcases hstage with ⟨rfl,-⟩ | ⟨rfl,-⟩
  · cases hon
  · exact ⟨fault,φ,τ,hread,hrecorded,hstep,hundone⟩

end ByteGrammar
