import ByteGrammar.Proofs.Decode.Relabelled
import ByteGrammar.Proofs.Decode.Traced

/-!
# Elements under another grammar

Elements that stand in another grammar with all that they are made of are read there as they were
before: each step of a search turns to the same member, and the tree that comes of it is the same
but for the labels.
-/

set_option autoImplicit false

namespace ByteGrammar

open Stepwise DecodeM

variable {μ : Type}

structure Resolved.Copied (ρ : Nat → Nat) (g g' : Resolved) (A : Nat → Prop) : Prop where
  moves : g.Moves ρ g'
  known : ∀ {id : Nat}, A id → id < g.size
  members : ∀ {id : Nat}, A id → g'.membersOf (ρ id) = (g.membersOf id).map ρ
  member : ∀ {id m : Nat}, A id → m ∈ g.membersOf id → A m
  target : ∀ {id t : Nat} {link}, A id → g.kind id = .structRef link →
    (g.attributesOf id).target = some t → A t

namespace Search

def relabelled (ρ : Nat → Nat) (extra : Nat) (s : Search) : Search :=
  { s with
    counts := s.counts ++ Array.replicate extra 0
    children := s.children.map (Value.relabelled ρ) }

def Stage.relabelled (ρ : Nat → Nat) (extra : Nat) : Stage → Stage
  | searching s => searching (s.relabelled ρ extra)
  | ended s dry => ended (s.relabelled ρ extra) dry

section
variable (ρ : Nat → Nat) (extra : Nat) (s : Search)

theorem relabelled_count (index : Nat) : (s.relabelled ρ extra).count index = s.count index := by
  simp only [count, relabelled, Array.getD_eq_getD_getElem?]
  rcases Nat.lt_or_ge index s.counts.size with h | h
  · rw [Array.getElem?_append_left h]
  · rw [Array.getElem?_append_right h, Array.getElem?_eq_none h, Array.getElem?_replicate]
    split <;> rfl

theorem relabelled_accept (arrangement : Arrangement) (least : Nat) (v : Value)
    (h : s.index < s.counts.size ∨ extra = 0) :
    (s.relabelled ρ extra).accept arrangement least (v.relabelled ρ) =
      (s.accept arrangement least v).relabelled ρ extra := by
  have hcounts : ∀ n, (s.counts ++ Array.replicate extra 0).setIfInBounds s.index n =
      s.counts.setIfInBounds s.index n ++ Array.replicate extra 0 := by
    intro n
    rcases h with h | rfl
    · rw [Array.setIfInBounds_append_left h]
    · simp
  have hcount := s.relabelled_count ρ extra s.index
  simp only [relabelled] at hcount
  simp only [accept, relabelled, Value.relabelled_length, hcount, hcounts, Array.map_push]

end

theorem relabelled_start (ρ : Nat → Nat) (members : List Nat) :
    (start members).relabelled ρ 0 = start (members.map ρ) := by
  simp [start, relabelled]

end Search

theorem check_read_off (setup : Setup μ) (h : setup.options.checkShape = false) (v : Value) :
    checkRead setup v = pure ⟨⟩ := by
  simp only [checkRead, h]
  rfl

def closing (setup : Setup μ) (id : ElementId) (start : Nat) :
    Except DecodeFault Value → DecodeM μ Value
  | .error fault => do
    log (.failed start id fault)
    throw fault
  | .ok v => do
    log (.read start v.element v.offset v.length)
    checkRead setup v
    recordValue setup id v
    pure v

theorem read_with_closing (setup : Setup μ) (attempt : List Frame → ElementId → DecodeM μ Value)
    (frames : List Frame) (id : ElementId) :
    readWith setup attempt frames id = opening setup frames id >>= fun opened =>
      outcome (readKind setup (attempt (opened.1 :: frames)) opened.1 (opened.1 :: frames) id
        opened.2) >>= closing setup id opened.1.start := by
  rw [read_with_eq]
  rfl

section
variable {setup : Setup μ} {frames : List Frame} {id : ElementId} {σ τ : State μ} {v : Value}

theorem opening_run {declared : Option Nat}
    (h : byteLength setup frames id σ = (.ok declared,τ)) :
    opening setup frames id σ =
      (.ok (Frame.opened id σ.source.position (limitAt frames σ) declared,declared),
        τ.noted (.reading σ.source.position id)) := by
  simp only [opening, bind_run, cursor_run, limit_of_run, h, log_run, pure_run]

theorem opening_fault {fault : DecodeFault}
    (h : byteLength setup frames id σ = (.error fault,τ)) :
    opening setup frames id σ = (.error fault,τ) := by
  simp only [opening, bind_run, cursor_run, limit_of_run, h]

theorem byte_length_run {q : Quantity} {k : Int} {r : Except DecodeFault Nat}
    (hq : (setup.grammar.attributesOf id).length = some q)
    (hk : evaluate setup frames id q σ = (.ok k,τ)) (hb : bytesOf setup id k = r) :
    byteLength setup frames id σ = (r.map some,τ) := by
  rw [byte_length_some hq, bind_run, hk]
  dsimp only
  rw [hb]
  cases r <;> rfl

theorem byte_length_empty (frames : List Frame)
    (h : (setup.grammar.attributesOf id).length = some (.literal 0)) (σ : State μ) :
    byteLength setup frames id σ = (.ok (some 0),σ) := by
  refine byte_length_run (r := .ok 0) h (evaluate_literal ..) ?_
  unfold bytesOf
  cases (setup.grammar.attributesOf id).unit <;> rfl

theorem closing_run (id : ElementId) (start : Nat)
    (h : checkRead setup v (σ.noted (.read start v.element v.offset v.length)) =
      (.ok ⟨⟩,σ.noted (.read start v.element v.offset v.length))) :
    closing setup id start (.ok v) σ =
      if setup.options.maxValues < σ.values + 1 then
        (.error (.valuesExceeded setup.options.maxValues),
          { σ.noted (.read start v.element v.offset v.length) with values := σ.values + 1 })
      else
        (.ok v,{ σ.noted (.read start v.element v.offset v.length) with
          values := σ.values + 1
          history := if (setup.grammar.kind id).isRecorded then v :: σ.history
            else σ.history }) := by
  simp only [closing, bind_run, log_run, h, record_value_run, pure_run]
  by_cases hover : setup.options.maxValues < σ.values + 1
  · rw [if_pos hover, if_pos (show _ < (σ.noted _).values + 1 from hover)]
    rfl
  · rw [if_neg hover, if_neg (show ¬_ < (σ.noted _).values + 1 from hover)]
    rfl

theorem closing_pass (id : ElementId) (hv : v.check setup.grammar = .ok ())
    (hp : σ.source.position = v.finish) (hmore : σ.values < setup.options.maxValues)
    (start : Nat) :
    ∃ τ, closing setup id start (.ok v) σ = (.ok v,τ) ∧ Closing setup id v σ τ := by
  have hcheck : checkRead setup v (σ.noted (.read start v.element v.offset v.length)) =
      (.ok ⟨⟩,σ.noted (.read start v.element v.offset v.length)) := check_read_pass hv hp
  rw [closing_run id start hcheck, if_neg (Nat.not_lt.mpr hmore)]
  exact ⟨_,rfl,Source.Still.refl _,rfl,rfl,hmore⟩

theorem read_unmeasured {fault : DecodeFault}
    (h : byteLength setup frames id σ = (.error fault,τ)) (room : Nat) :
    readElement setup (room + 1) frames id σ = (.error fault,τ) := by
  rw [readElement, read_with_closing, bind_run, opening_fault h]

section
variable {declared : Option Nat} {ρ υ : State μ} {result : Except DecodeFault Value}

theorem read_opened (room : Nat) (hlength : byteLength setup frames id σ = (.ok declared,ρ))
    (hread : readKind setup
      (readElement setup room (.opened id σ.source.position (limitAt frames σ) declared :: frames))
      (.opened id σ.source.position (limitAt frames σ) declared)
      (.opened id σ.source.position (limitAt frames σ) declared :: frames) id declared
      (ρ.noted (.reading σ.source.position id)) = (result,υ)) :
    readElement setup (room + 1) frames id σ =
      closing setup id σ.source.position result υ := by
  rw [readElement, read_with_closing, bind_run, opening_run hlength]
  simp only [bind_run, outcome_run, hread]
  rfl

end

end

section
variable {ρ : Nat → Nat} {surplus : Nat}

theorem after_attempt_copies (arrangement : Arrangement) (frame : Frame) {s : Search} {extra : Nat}
    (hs : s.index < s.counts.size ∨ extra = 0) (member least : Nat) (saved : List Value)
    (result : Except DecodeFault Value) :
    Copies ρ surplus (Search.Stage.relabelled ρ extra)
      (afterAttempt arrangement frame s member least saved result : DecodeM μ _)
      (afterAttempt arrangement (frame.relabelled ρ) (s.relabelled ρ extra) (ρ member) least
        (saved.map (Value.relabelled ρ)) (result.map (Value.relabelled ρ))) := by
  cases result with
  | ok v => exact pure_mirrors (congrArg _ (s.relabelled_accept ρ extra arrangement least v hs))
  | error fault =>
    simp only [afterAttempt, Except.map]
    split
    · exact throw_bind_mirrors _
    · refine bind_mirrors (restore_concurs saved) fun _ => ?_
      split
      · exact pure_mirrors rfl
      · cases arrangement with
        | fixed =>
          dsimp only
          rw [show (s.relabelled ρ extra).count (s.relabelled ρ extra).index = s.count s.index
            from s.relabelled_count ρ extra s.index]
          split
          · exact pure_mirrors rfl
          · exact throw_mirrors _
        | «variable» => exact bind_mirrors (log_concurs _ _) fun _ => pure_mirrors rfl

end

section
variable {setup : Setup μ} {g' : Resolved} {ρ : Nat → Nat} {surplus : Nat}
  (hm : setup.grammar.Moves ρ g')

include hm

section
variable {attempt attempt' : ElementId → DecodeM μ Value} {members members' : Array ElementId}
  (hknown : ∀ m ∈ members, m < setup.grammar.size)
  (hattempt : ∀ m ∈ members,
    Copies ρ 0 (Value.relabelled ρ) (attempt m) (attempt' (ρ m)))
  (arrangement : Arrangement) (frame : Frame) (frames : List Frame)

include hknown hattempt

theorem search_step_copies {s : Search} {extra : Nat}
    (hs : s.index < s.counts.size ∨ extra = 0)
    (hmember : members'[s.index]? = members[s.index]?.map ρ) :
    Copies ρ 0 (Search.Stage.relabelled ρ extra)
      (searchStep setup attempt arrangement members frame frames s)
      (searchStep (setup.over g') attempt' arrangement members' (frame.relabelled ρ)
        (frames.map (Frame.relabelled ρ)) (s.relabelled ρ extra)) := by
  rw [search_step_eq, search_step_eq,
    show members'[(s.relabelled ρ extra).index]? = _ from hmember]
  cases hfound : members[s.index]? with
  | none => exact pure_mirrors rfl
  | some member =>
    have hin : member ∈ members := Array.mem_of_getElem? hfound
    have hid := hknown member hin
    have hcount : (s.relabelled ρ extra).count (s.relabelled ρ extra).index = s.count s.index :=
      s.relabelled_count ρ extra s.index
    simp only [Option.map_some, hcount]
    refine bind_mirrors (seek_concurs _) fun _ => ?_
    refine bind_mirrors (bound_concurs hm hid (fun _ => rfl) _ frames) fun most => ?_
    dsimp only [id_eq]
    split
    · exact pure_mirrors rfl
    · refine bind_mirrors (bound_concurs hm hid (fun _ => rfl) _ frames) fun least => ?_
      intro σ τ hst
      rw [bind_run, bind_run, get_run, get_run]
      dsimp only
      rw [hst.history]
      exact bind_mirrors (outcome_copies (hattempt member hin)) (fun result =>
        after_attempt_copies arrangement frame hs member least σ.history result) σ τ hst

theorem search_copies (steps : Nat) (s : Search) :
    Copies ρ 0 (Prod.map (Search.relabelled ρ 0) id)
      (search setup attempt arrangement members frame frames steps s)
      (search (setup.over g') attempt' arrangement (members.map ρ) (frame.relabelled ρ)
        (frames.map (Frame.relabelled ρ)) steps (s.relabelled ρ 0)) := by
  induction steps generalizing s with
  | zero => exact throw_mirrors _
  | succ steps ih =>
    rw [search, search]
    refine bind_mirrors (search_step_copies hm hknown hattempt arrangement frame frames (.inr rfl)
      (Array.getElem?_map ..)) fun stage => ?_
    cases stage with
    | searching next => exact ih next
    | ended last dry => exact pure_mirrors rfl

end

theorem check_counts_concurs (frames : List Frame) {id : Nat} (hid : id < setup.grammar.size)
    (absent : Bool) {s s' : Search} (index : Nat) {members : List ElementId}
    (hknown : ∀ m ∈ members, m < setup.grammar.size)
    (hcount : ∀ i < index + members.length, s'.count i = s.count i) :
    Concurs ρ surplus (checkCounts setup frames id absent s index members)
      (checkCounts (setup.over g') (frames.map (Frame.relabelled ρ)) (ρ id) absent s' index
        (members.map ρ)) := by
  induction members generalizing index with
  | nil => exact pure_mirrors rfl
  | cons member rest ih =>
    obtain ⟨hmember,hrest⟩ := List.forall_mem_cons.mp hknown
    rw [List.length_cons] at hcount
    rw [List.map_cons, checkCounts, checkCounts]
    refine bind_mirrors (bound_concurs hm hmember (fun _ => rfl) _ frames) fun least => ?_
    simp only [id_eq, hcount index (by omega), Setup.over, hm.label hid, hm.label hmember]
    split
    · split
      · exact throw_bind_mirrors _
      · exact throw_bind_mirrors _
    · exact ih _ hrest fun i hi => hcount i (by omega)

theorem padding_of_copies (frame : Frame) {id : Nat} (hid : id < setup.grammar.size)
    (declared : Option Nat) (consumed : Nat) :
    Copies ρ surplus (List.map (Value.relabelled ρ)) (paddingOf setup frame id declared consumed)
      (paddingOf (setup.over g') (frame.relabelled ρ) (ρ id) declared consumed) := by
  cases declared with
  | none => exact pure_mirrors rfl
  | some declared =>
    simp only [paddingOf, Setup.over, hm.label hid, hm.padding, Frame.relabelled]
    split
    · exact pure_mirrors rfl
    · split
      · exact pure_mirrors rfl
      · split <;> exact throw_mirrors _

theorem record_value_concurs (id : Nat) (v : Value) :
    Concurs ρ 0 (recordValue setup id v)
      (recordValue (setup.over g') (ρ id) (v.relabelled ρ)) := by
  intro σ τ h
  rw [record_value_run, record_value_run, h.values]
  simp only [Setup.over, hm.kind, h.history, Nat.add_zero]
  split
  · exact ⟨rfl,h.source,rfl,h.order,rfl⟩
  · refine ⟨rfl,h.source,?_,h.order,rfl⟩
    split <;> rfl

theorem closing_copies (hs : setup.options.checkShape = false) (id : Nat) (start : Nat)
    (result : Except DecodeFault Value) : Copies ρ 0 (Value.relabelled ρ)
    (closing setup id start result)
    (closing (setup.over g') (ρ id) start (result.map (Value.relabelled ρ))) := by
  cases result with
  | error fault => exact bind_mirrors (log_concurs _ _) fun _ => throw_mirrors _
  | ok v =>
    refine bind_mirrors (log_concurs _ _) fun _ => ?_
    rw [check_read_off setup hs, check_read_off (setup.over g') hs]
    refine bind_mirrors (f := fun u => u) (pure_mirrors rfl) fun _ => ?_
    exact bind_mirrors (record_value_concurs hm id v) fun _ => pure_mirrors rfl

theorem opening_copies {id : Nat} (hid : id < setup.grammar.size) (frames : List Frame) :
    Copies ρ surplus (Prod.map (Frame.relabelled ρ) (fun declared => declared))
      (opening setup frames id)
      (opening (setup.over g') (frames.map (Frame.relabelled ρ)) (ρ id)) := by
  refine bind_mirrors cursor_concurs fun start => ?_
  refine bind_mirrors (f := fun limit => limit) ?_ fun limit => ?_
  · cases frames with
    | nil => exact source_length_concurs
    | cons frame outer => exact pure_mirrors rfl
  refine bind_mirrors (byte_length_concurs hm hid frames) fun declared => ?_
  exact bind_mirrors (log_concurs _ _) fun _ => pure_mirrors rfl

end

section
variable {setup : Setup μ} {g' : Resolved} {ρ : Nat → Nat} {A : Nat → Prop}
  (hc : setup.grammar.Copied ρ g' A)

include hc

theorem finish_struct_copies {id : Nat} (hid : A id) (frame : Frame) (frames : List Frame)
    (declared : Option Nat) (found : Search × Bool) : Copies ρ 0 (Value.relabelled ρ)
    (finishStruct setup frame frames id declared found)
    (finishStruct (setup.over g') (frame.relabelled ρ) (frames.map (Frame.relabelled ρ)) (ρ id)
      declared (found.map (Search.relabelled ρ 0) (fun dry => dry))) := by
  obtain ⟨s,dry⟩ := found
  have hmembers : (setup.over g').grammar.membersOf (ρ id) =
      (setup.grammar.membersOf id).map ρ := hc.members hid
  have hknown : ∀ m ∈ setup.grammar.membersOf id, m < setup.grammar.size :=
    fun m hm => hc.known (hc.member hid hm)
  have hempty : (s.relabelled ρ 0).children.isEmpty = s.children.isEmpty := by
    simp only [Search.relabelled, Array.isEmpty, Array.size_map]
  refine bind_mirrors (seek_concurs _) fun _ => ?_
  dsimp only [Prod.map]
  rw [hmembers, hempty]
  refine bind_mirrors (check_counts_concurs hc.moves frames (hc.known hid) _ 0 hknown
    fun i _ => s.relabelled_count ρ 0 i) fun _ => ?_
  refine bind_mirrors (padding_of_copies hc.moves frame (hc.known hid) declared _)
    fun padding => ?_
  have hv : (Value.spanning id frame.start (s.children.toList ++ padding)).relabelled ρ =
      Value.spanning (ρ id) (frame.relabelled ρ).start
        ((s.relabelled ρ 0).children.toList ++ padding.map (Value.relabelled ρ)) := by
    rw [Value.relabelled_spanning]
    simp [Search.relabelled, Frame.relabelled]
  rw [← hv, Value.finish, Value.finish, Value.relabelled_offset, Value.relabelled_length]
  exact bind_mirrors (seek_concurs _) fun _ => pure_mirrors rfl

section
variable {attempt attempt' : ElementId → DecodeM μ Value}
  (hattempt : ∀ m, A m → Copies ρ 0 (Value.relabelled ρ) (attempt m) (attempt' (ρ m)))
  {id : Nat} (hid : A id) (frame : Frame) (frames : List Frame) (declared : Option Nat)

include hattempt hid

theorem read_struct_copies : Copies ρ 0 (Value.relabelled ρ)
    (readStruct setup attempt frame frames id declared)
    (readStruct (setup.over g') attempt' (frame.relabelled ρ) (frames.map (Frame.relabelled ρ))
      (ρ id) declared) := by
  have hin : ∀ m ∈ (setup.grammar.membersOf id).toArray, A m :=
    fun m hm => hc.member hid (List.mem_toArray.mp hm)
  have hmembers : (setup.over g').grammar.membersOf (ρ id) =
      (setup.grammar.membersOf id).map ρ := hc.members hid
  have harrangement : ((setup.over g').grammar.attributesOf (ρ id)).arrangement =
      (setup.grammar.attributesOf id).arrangement := by
    simp only [Setup.over, hc.moves.attributes, Attributes.moved]
  intro σ τ h
  rw [read_struct_run, read_struct_run, h.values, hmembers, harrangement, ← List.map_toArray,
    Array.size_map, ← Search.relabelled_start]
  refine bind_mirrors (search_copies hc.moves (fun m hm => hc.known (hin m hm))
    (fun m hm => hattempt m (hin m hm)) _ frame frames _ _) (fun found => ?_) σ τ h
  exact finish_struct_copies hc hid frame frames declared found

theorem read_reference_copies {link} (hk : setup.grammar.kind id = .structRef link) :
    Copies ρ 0 (Value.relabelled ρ) (readReference setup attempt id)
      (readReference (setup.over g') attempt' (ρ id)) := by
  simp only [readReference, Setup.over, hc.moves.attributes, hc.moves.label (hc.known hid),
    Attributes.moved]
  cases ht : (setup.grammar.attributesOf id).target with
  | none => exact throw_mirrors _
  | some target =>
    refine bind_mirrors (hattempt target (hc.target hid hk ht)) fun v => pure_mirrors ?_
    simp only [Value.relabelled_eq]

theorem read_kind_copies (hr : setup.runtime = none) : Copies ρ 0 (Value.relabelled ρ)
    (readKind setup attempt frame frames id declared)
    (readKind (setup.over g') attempt' (frame.relabelled ρ) (frames.map (Frame.relabelled ρ))
      (ρ id) declared) := by
  have hm := hc.moves
  have hknown := hc.known hid
  have hlabel : (setup.over g').grammar.label (ρ id) = setup.grammar.label id := hm.label hknown
  have hkind : (setup.over g').grammar.kind (ρ id) = setup.grammar.kind id := hm.kind id
  rw [readKind, readKind, hkind]
  cases hk : setup.grammar.kind id with
  | struct settings => exact read_struct_copies hc hattempt hid frame frames declared
  | structRef link => exact read_reference_copies hc hattempt hid hk
  | number settings => exact read_number_copies hm hknown frame declared
  | text settings => exact read_text_copies hm hknown frame declared
  | binary settings => exact read_binary_copies hm hknown frame declared
  | offset settings => exact read_offset_copies hm hknown frame declared
  | custom script => exact read_custom_copies hm hknown hr frame declared
  | script script => exact read_script_copies hm hknown hr
  | scriptElement script => exact read_script_copies hm hknown hr
  | _ =>
    rw [hlabel]
    exact throw_mirrors _

end

variable (hr : setup.runtime = none) (hs : setup.options.checkShape = false)

include hr hs

theorem read_with_copies {attempt attempt' : List Frame → ElementId → DecodeM μ Value}
    (hattempt : ∀ (frames : List Frame) (m : Nat), A m → Copies ρ 0 (Value.relabelled ρ)
      (attempt frames m) (attempt' (frames.map (Frame.relabelled ρ)) (ρ m)))
    (frames : List Frame) {id : Nat} (hid : A id) :
    Copies ρ 0 (Value.relabelled ρ) (readWith setup attempt frames id)
      (readWith (setup.over g') attempt' (frames.map (Frame.relabelled ρ)) (ρ id)) := by
  rw [read_with_closing, read_with_closing]
  refine bind_mirrors (opening_copies hc.moves (hc.known hid) frames) fun opened => ?_
  refine bind_mirrors (outcome_copies (read_kind_copies hc (hattempt _) hid opened.1 _ opened.2 hr))
    fun result => ?_
  exact closing_copies hc.moves hs id opened.1.start result

/-- An element is read as under the grammar in which it stood before. -/
theorem read_element_copies (room : Nat) (frames : List Frame) {id : Nat} (hid : A id) :
    Copies ρ 0 (Value.relabelled ρ) (readElement setup room frames id)
      (readElement (setup.over g') room (frames.map (Frame.relabelled ρ)) (ρ id)) := by
  induction room generalizing frames id with
  | zero => exact throw_mirrors _
  | succ room ih =>
    exact read_with_copies hc hr hs (fun frames m hm => ih frames hm) frames hid

end
end ByteGrammar
