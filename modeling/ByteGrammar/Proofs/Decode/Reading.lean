import ByteGrammar.Proofs.Decode.Leaf
import ByteGrammar.Proofs.Decode.Search

/-!
# How elements are read

An element that is read at all is read as a leaf, as the structure that a reference stands for, or
as a structure whose search has come to its end. What these three establish from the attempts on
the elements inside holds of every element that is read.
-/

set_option autoImplicit false

namespace ByteGrammar

open Stepwise DecodeM Source

variable {μ : Type}

theorem search_steps_quiet (setup : Setup μ) (members : Array ElementId) :
    Keeps State.Quiet (searchSteps setup members) :=
  bind_keeps get_keeps fun _ => pure_keeps _

def limitAt (frames : List Frame) (σ : State μ) : Nat :=
  match frames with
  | frame :: _ => frame.finish
  | [] => σ.source.length

theorem limit_at_cons (frame : Frame) (frames : List Frame) (σ : State μ) :
    limitAt (frame :: frames) σ = frame.finish := rfl

theorem limit_of_run (frames : List Frame) (σ : State μ) :
    limitOf frames σ = (.ok (limitAt frames σ),σ) := by
  cases frames <;> rfl

structure Opening (setup : Setup μ) (frames : List Frame) (id : ElementId) (σ : State μ)
    (frame : Frame) (declared : Option Nat) (ρ : State μ) : Prop where
  frame : frame = Frame.opened id σ.source.position (limitAt frames σ) declared
  length : ∃ ρ', byteLength setup frames id σ = (.ok declared,ρ')
  quiet : State.Quiet σ ρ

theorem opened_bounds (id : ElementId) (start limit : Nat) (declared : Option Nat) :
    start ≤ (Frame.opened id start limit declared).finish ∧
      (Frame.opened id start limit declared).finish ≤ max start limit := by
  simp only [Frame.opened]
  cases declared <;> simp only <;> omega

theorem Opening.position {setup : Setup μ} {frames : List Frame} {id : ElementId}
    {σ ρ : State μ} {frame : Frame} {declared : Option Nat}
    (h : Opening setup frames id σ frame declared ρ) :
    ρ.source.position = σ.source.position := h.quiet.position

theorem Opening.bounds {setup : Setup μ} {frames : List Frame} {id : ElementId}
    {σ ρ : State μ} {frame : Frame} {declared : Option Nat}
    (h : Opening setup frames id σ frame declared ρ) :
    frame.start = σ.source.position ∧ frame.start ≤ frame.finish ∧
      frame.finish ≤ max σ.source.position (limitAt frames σ) := by
  rw [h.frame]
  exact ⟨rfl,opened_bounds _ _ _ _⟩

structure Closing (setup : Setup μ) (id : ElementId) (v : Value) (υ τ : State μ) : Prop where
  source : Still υ.source τ.source
  history : τ.history =
    if (setup.grammar.kind id).isRecorded then v :: υ.history else υ.history
  values : τ.values = υ.values + 1
  allowed : τ.values ≤ setup.options.maxValues

theorem Closing.after {setup : Setup μ} {id : ElementId} {v : Value} {ρ υ τ : State μ}
    (h : Closing setup id v υ τ) (hq : State.Quiet ρ υ) : Closing setup id v ρ τ :=
  ⟨hq.source.trans h.source,by rw [h.history, hq.history],by rw [h.values, hq.values],h.allowed⟩

theorem Closing.position {setup : Setup μ} {id : ElementId} {v : Value} {υ τ : State μ}
    (h : Closing setup id v υ τ) : τ.source.position = υ.source.position := h.source.position

structure Gathered (setup : Setup μ) (frame : Frame) (frames : List Frame) (id : ElementId)
    (declared : Option Nat) (s : Search) (ρ : State μ) (padding : List Value) (υ : State μ) :
    Prop where
  least : ∀ {i member}, (setup.grammar.membersOf id)[i]? = some member →
    ∃ least σ τ, leastCount setup frames member σ = (.ok least,τ) ∧ least ≤ s.count i
  filled : (padding = [] ∧ ∀ length ∈ declared, length ≤ s.consumed) ∨
    ∃ length, declared = some length ∧ s.consumed < length ∧
      length ≤ frame.finish - frame.start ∧
      padding = [Value.leaf setup.grammar.padding (frame.start + s.consumed)
        (length - s.consumed)]
  resumed : State.Resumed ρ υ
  position : υ.source.position =
    (Value.spanning id frame.start (s.children.toList ++ padding)).finish

section
variable {setup : Setup μ} {attempt : ElementId → DecodeM μ Value} {frame : Frame}
  {frames : List Frame} {id : ElementId} {declared : Option Nat}

def finishStruct (setup : Setup μ) (frame : Frame) (frames : List Frame) (id : ElementId)
    (declared : Option Nat) (found : Search × Bool) : DecodeM μ Value := do
  let (s, dry) := found
  seekTo (frame.start + s.consumed)
  let absent := s.children.isEmpty && (dry || frame.finish - frame.start == 0)
  checkCounts setup frames id absent s 0 (setup.grammar.membersOf id)
  let padding ← paddingOf setup frame id declared s.consumed
  let v := Value.spanning id frame.start (s.children.toList ++ padding)
  seekTo v.finish
  pure v

theorem read_struct_run (σ : State μ) :
    readStruct setup attempt frame frames id declared σ =
      (search setup attempt (setup.grammar.attributesOf id).arrangement
        (setup.grammar.membersOf id).toArray frame frames
        ((setup.options.maxValues - σ.values + 1) *
          ((setup.grammar.membersOf id).toArray.size + 1))
        (Search.start (setup.grammar.membersOf id)) >>=
        finishStruct setup frame frames id declared) σ := rfl

theorem finish_struct_run (found : Search × Bool) (ω : State μ) :
    finishStruct setup frame frames id declared found ω =
      (checkCounts setup frames id
        (found.1.children.isEmpty && (found.2 || frame.finish - frame.start == 0)) found.1 0
        (setup.grammar.membersOf id) >>= fun _ =>
        paddingOf setup frame id declared found.1.consumed >>= fun padding =>
          seekTo (Value.spanning id frame.start (found.1.children.toList ++ padding)).finish >>=
            fun _ => pure (Value.spanning id frame.start (found.1.children.toList ++ padding)))
        (ω.moved (frame.start + found.1.consumed)) := rfl

theorem finish_struct_ok {found : Search × Bool} {ω υ : State μ} {v : Value}
    (h : finishStruct setup frame frames id declared found ω = (.ok v,υ)) : ∃ χ padding,
      checkCounts setup frames id
        (found.1.children.isEmpty && (found.2 || frame.finish - frame.start == 0)) found.1 0
        (setup.grammar.membersOf id) (ω.moved (frame.start + found.1.consumed)) = (.ok ⟨⟩,χ) ∧
      paddingOf setup frame id declared found.1.consumed χ = (.ok padding,χ) ∧
      v = Value.spanning id frame.start (found.1.children.toList ++ padding) ∧
      υ = χ.moved v.finish := by
  rw [finish_struct_run] at h
  obtain ⟨_,χ,hcounts,h1⟩ := bind_ok.mp h
  obtain ⟨padding,χ',hpadding,h2⟩ := bind_ok.mp h1
  obtain ⟨rfl,-⟩ := padding_of_ok hpadding
  obtain ⟨_,_,hseek,h3⟩ := bind_ok.mp h2
  obtain ⟨rfl,rfl⟩ := pure_ok.mp h3
  exact ⟨χ,padding,hcounts,hpadding,rfl,(seek_ok hseek).symm⟩

theorem padding_labels {consumed : Nat} {σ τ : State μ} {padding : List Value}
    (h : paddingOf setup frame id declared consumed σ = (.ok padding,τ)) :
    ∀ w ∈ padding, w.element = setup.grammar.padding ∧ w.children = [] := by
  rcases (padding_of_ok h).2 with ⟨rfl,-⟩ | ⟨length,-,-,-,rfl⟩
  · exact List.forall_mem_nil _
  · exact List.forall_mem_singleton.mpr ⟨rfl,rfl⟩

theorem read_struct_ok (ha : KeepsReader attempt) {σ τ : State μ} {v : Value}
    (h : readStruct setup attempt frame frames id declared σ = (.ok v,τ)) :
    ∃ s ρ padding,
      Advances setup attempt (setup.grammar.attributesOf id).arrangement
        (setup.grammar.membersOf id).toArray frame frames
        (Search.start (setup.grammar.membersOf id)) σ s ρ ∧
      Gathered setup frame frames id declared s ρ padding τ ∧
      v = Value.spanning id frame.start (s.children.toList ++ padding) := by
  rw [read_struct_run] at h
  obtain ⟨⟨s,dry⟩,ρ,hsearch,hfinish⟩ := bind_ok.mp h
  obtain ⟨χ,padding,hcounts,hpadding,rfl,rfl⟩ := finish_struct_ok hfinish
  have hquiet := (check_counts_quiet _ _ _ _ _ _ _).of_run hcounts
  refine ⟨s,ρ,padding,search_ok ha hsearch,
    ⟨fun hi => ?_,(padding_of_ok hpadding).2,?_,rfl⟩,rfl⟩
  · obtain ⟨least,χ',ψ,-,hleast,hle⟩ := check_counts_ok hcounts hi
    rw [Nat.zero_add] at hle
    exact ⟨least,χ',ψ,hleast,hle⟩
  · exact (((State.Resumed.refl ρ).moved _).trans hquiet.kept.resumed).moved _

theorem read_struct_keeps {R : State μ → State μ → Prop} [State.Enduring R]
    (ha : ∀ id, Keeps R (attempt id)) (frame : Frame) (frames : List Frame) (id : ElementId)
    (declared : Option Nat) :
    Keeps R (readStruct setup attempt frame frames id declared) := by
  refine bind_keeps (quiet_endures (search_steps_quiet _ _)) fun steps => ?_
  refine bind_keeps (search_keeps ha _ _ _ _ _ _) fun found => ?_
  refine bind_keeps (seek_keeps _) fun _ => ?_
  refine bind_keeps (quiet_endures (check_counts_quiet _ _ _ _ _ _ _)) fun _ => ?_
  refine bind_keeps (quiet_endures (padding_of_quiet _ _ _ _ _)) fun padding => ?_
  exact bind_keeps (seek_keeps _) fun _ => pure_keeps _

theorem read_reference_ok {σ τ : State μ} {v : Value}
    (h : readReference setup attempt id σ = (.ok v,τ)) :
    ∃ target w, (setup.grammar.attributesOf id).target = some target ∧
      attempt target σ = (.ok w,τ) ∧ v = { w with element := id } := by
  unfold readReference at h
  cases ht : (setup.grammar.attributesOf id).target with
  | none =>
    rw [ht] at h
    cases h
  | some target =>
    rw [ht] at h
    obtain ⟨w,υ,hw,h1⟩ := bind_ok.mp h
    obtain ⟨rfl,rfl⟩ := pure_ok.mp h1
    exact ⟨target,w,rfl,hw,rfl⟩

theorem read_reference_keeps {R : State μ → State μ → Prop} [Lasting R]
    (ha : ∀ id, Keeps R (attempt id)) (id : ElementId) :
    Keeps R (readReference setup attempt id) := by
  unfold readReference
  cases (setup.grammar.attributesOf id).target with
  | none => exact throw_keeps _
  | some target => exact bind_keeps (ha target) fun w => pure_keeps _

end

def Kind.isLeaf : Kind → Bool
  | .number _ | .text _ | .binary _ | .custom _ | .offset _ | .script _ | .scriptElement _ => true
  | _ => false

section
variable (setup : Setup μ) (attempt : ElementId → DecodeM μ Value) (frame : Frame)
  (frames : List Frame) (id : ElementId) (declared : Option Nat) (ρ : State μ)

inductive Reads : Value → State μ → Prop
  | leaf {v : Value} {υ : State μ} (simple : (setup.grammar.kind id).isLeaf)
      (read : LeafRead setup frame id declared ρ v υ) (kept : State.Kept ρ υ) : Reads v υ
  | reference {v : Value} {υ : State μ} {link : Option Designator} {target : ElementId}
      (kind : setup.grammar.kind id = .structRef link)
      (linked : (setup.grammar.attributesOf id).target = some target)
      (read : attempt target ρ = (.ok v,υ)) : Reads { v with element := id } υ
  | struct {s : Search} {ω υ : State μ} {padding : List Value} {settings : StructSettings}
      (kind : setup.grammar.kind id = .struct settings)
      (search : Advances setup attempt (setup.grammar.attributesOf id).arrangement
        (setup.grammar.membersOf id).toArray frame frames
        (Search.start (setup.grammar.membersOf id)) ρ s ω)
      (gathered : Gathered setup frame frames id declared s ω padding υ) :
      Reads (Value.spanning id frame.start (s.children.toList ++ padding)) υ

end

section
variable {setup : Setup μ} {attempt : ElementId → DecodeM μ Value} {frame : Frame}
  {frames : List Frame} {id : ElementId} {declared : Option Nat}

theorem read_kind_ok (ha : KeepsReader attempt) {σ τ : State μ} {v : Value}
    (h : readKind setup attempt frame frames id declared σ = (.ok v,τ)) :
    Reads setup attempt frame frames id declared σ v τ := by
  unfold readKind at h
  cases hkind : setup.grammar.kind id with
  | grammar =>
    rw [hkind] at h
    cases h
  | padding =>
    rw [hkind] at h
    cases h
  | grammarRef file =>
    rw [hkind] at h
    cases h
  | struct settings =>
    rw [hkind] at h
    obtain ⟨s,ω,padding,hsearch,hgathered,rfl⟩ := read_struct_ok ha h
    exact .struct hkind hsearch hgathered
  | structRef link =>
    rw [hkind] at h
    obtain ⟨target,w,htarget,hw,rfl⟩ := read_reference_ok h
    exact .reference hkind htarget hw
  | number settings =>
    rw [hkind] at h
    exact .leaf (by rw [hkind]; rfl) (read_number_ok h) ((read_number_keeps _ _ _ _).of_run h)
  | text settings =>
    rw [hkind] at h
    exact .leaf (by rw [hkind]; rfl) (read_text_ok hkind h) ((read_text_keeps _ _ _ _).of_run h)
  | binary settings =>
    rw [hkind] at h
    exact .leaf (by rw [hkind]; rfl) (read_binary_ok h) ((read_binary_keeps _ _ _ _).of_run h)
  | custom script =>
    rw [hkind] at h
    exact .leaf (by rw [hkind]; rfl) (read_custom_ok h) ((read_custom_kept _ _ _ _).of_run h)
  | offset settings =>
    rw [hkind] at h
    exact .leaf (by rw [hkind]; rfl) (read_offset_ok h) ((read_offset_keeps _ _ _ _).of_run h)
  | script script =>
    rw [hkind] at h
    exact .leaf (by rw [hkind]; rfl) (read_script_ok (by simp [Resolved.needsLength, hkind]) h)
      ((read_script_kept _ _).of_run h)
  | scriptElement script =>
    rw [hkind] at h
    exact .leaf (by rw [hkind]; rfl) (read_script_ok (by simp [Resolved.needsLength, hkind]) h)
      ((read_script_kept _ _).of_run h)

theorem Reads.counts (ha : KeepsReader attempt) {ρ υ : State μ} {v : Value}
    (h : Reads setup attempt frame frames id declared ρ v υ) : ρ.values ≤ υ.values := by
  cases h with
  | leaf simple read kept => exact Nat.le_of_eq kept.values.symm
  | reference kind linked read => exact ((ha _).of_run read).values
  | struct kind search gathered =>
    refine Nat.le_trans ?_ gathered.resumed.values
    refine search.preserves (I := fun _ σ => ρ.values ≤ σ.values) (fun hadv hs => ?_)
      (Nat.le_refl _)
    cases hadv with
    | passed same later resumed => exact Nat.le_trans hs resumed.values
    | child hmember hmost open_ hleast hread =>
      have hquiet := (child_quiet hmost hleast).values
      have hcount := ((ha _).of_run hread).values
      rw [hquiet] at hcount
      exact Nat.le_trans hs hcount

theorem read_kind_keeps {R : State μ → State μ → Prop} [State.Enduring R]
    (hs : ∀ id current, Keeps R (runScript setup id current))
    (ha : ∀ id, Keeps R (attempt id)) (frame : Frame) (frames : List Frame) (id : ElementId)
    (declared : Option Nat) : Keeps R (readKind setup attempt frame frames id declared) := by
  unfold readKind
  cases setup.grammar.kind id with
  | struct settings => exact read_struct_keeps ha frame frames id declared
  | structRef target => exact read_reference_keeps ha id
  | number settings => exact read_number_keeps _ _ _ _
  | text settings => exact read_text_keeps _ _ _ _
  | binary settings => exact read_binary_keeps _ _ _ _
  | custom script => exact read_custom_keeps (hs id) _ _
  | offset settings => exact read_offset_keeps _ _ _ _
  | script script => exact read_script_keeps (hs id none)
  | scriptElement script => exact read_script_keeps (hs id none)
  | grammar => exact throw_keeps _
  | padding => exact throw_keeps _
  | grammarRef file => exact throw_keeps _

end

theorem check_read_quiet (setup : Setup μ) (v : Value) :
    Keeps State.Quiet (checkRead setup v) := by
  unfold checkRead
  split
  · cases v.check setup.grammar with
    | error fault => exact throw_keeps _
    | ok _ =>
      refine bind_keeps (fun s => State.Quiet.refl s) fun place => ?_
      split
      · exact throw_keeps _
      · exact pure_keeps _
  · exact pure_keeps _

theorem record_value_run (setup : Setup μ) (id : ElementId) (v : Value) (s : State μ) :
    recordValue setup id v s =
      if setup.options.maxValues < s.values + 1 then
        (.error (.valuesExceeded setup.options.maxValues),{ s with values := s.values + 1 })
      else
        (.ok ⟨⟩,{ s with
          values := s.values + 1
          history := if (setup.grammar.kind id).isRecorded then v :: s.history
            else s.history }) := by
  unfold recordValue
  simp only [bind_run, modify_run, get_run]
  by_cases hv : setup.options.maxValues < s.values + 1
  · rw [if_pos hv, if_pos hv]
    rfl
  · rw [if_neg hv, if_neg hv]
    cases hr : (setup.grammar.kind id).isRecorded <;> rfl

theorem record_value_ok {setup : Setup μ} {id : ElementId} {v : Value} {s t : State μ}
    {u : Unit} (h : recordValue setup id v s = (.ok u,t)) : Closing setup id v s t := by
  rw [record_value_run] at h
  split at h
  · cases h
  · next hallowed =>
    cases h
    exact ⟨Still.refl _,rfl,rfl,Nat.le_of_not_lt hallowed⟩

theorem record_value_keeps {R : State μ → State μ → Prop} [State.Enduring R] (setup : Setup μ)
    (id : ElementId) (v : Value) : Keeps R (recordValue setup id v) := by
  intro s
  rw [record_value_run]
  have hcounted := State.Enduring.counted (R := R) s
  split
  · exact hcounted
  · cases (setup.grammar.kind id).isRecorded with
    | false => exact hcounted
    | true =>
      exact Lasting.trans hcounted (State.Enduring.recorded { s with values := s.values + 1 } v)

section
variable {setup : Setup μ} {attempt : List Frame → ElementId → DecodeM μ Value}

theorem read_with_kind {frames : List Frame} {id : ElementId} {σ τ : State μ} {v : Value}
    (h : readWith setup attempt frames id σ = (.ok v,τ)) :
    ∃ frame declared ρ υ, Opening setup frames id σ frame declared ρ ∧
      readKind setup (attempt (frame :: frames)) frame (frame :: frames) id declared ρ =
        (.ok v,υ) ∧
      Closing setup id v υ τ := by
  obtain ⟨start,_,hcursor,h1⟩ := bind_ok.mp h
  obtain ⟨rfl,rfl⟩ := cursor_ok hcursor
  obtain ⟨limit,_,hlimit,h2⟩ := bind_ok.mp h1
  rw [limit_of_run] at hlimit
  cases hlimit
  obtain ⟨declared,ρ,hlength,h3⟩ := bind_ok.mp h2
  obtain ⟨_,_,hlog,h4⟩ := bind_ok.mp h3
  obtain rfl := log_ok hlog
  have hquiet := (byte_length_quiet setup frames id).of_run hlength
  obtain ⟨result,υ,hout,h5⟩ := bind_ok.mp h4
  have hread := outcome_ok hout
  cases result with
  | error fault =>
    obtain ⟨_,_,_,h6⟩ := bind_ok.mp h5
    cases h6
  | ok w =>
    obtain ⟨_,_,hlog',h6⟩ := bind_ok.mp h5
    obtain rfl := log_ok hlog'
    obtain ⟨_,ω,hcheck,h7⟩ := bind_ok.mp h6
    obtain ⟨_,τ',hrecord,h8⟩ := bind_ok.mp h7
    obtain ⟨rfl,rfl⟩ := pure_ok.mp h8
    have hω := (State.noted_quiet υ _).trans ((check_read_quiet setup w).of_run hcheck)
    exact ⟨_,declared,_,υ,⟨rfl,⟨ρ,hlength⟩,hquiet.trans (State.noted_quiet ρ _)⟩,
      hread,(record_value_ok hrecord).after hω⟩

theorem read_with_ok (ha : ∀ frames, KeepsReader (attempt frames)) {frames : List Frame}
    {id : ElementId} {σ τ : State μ} {v : Value}
    (h : readWith setup attempt frames id σ = (.ok v,τ)) :
    ∃ frame declared ρ υ, Opening setup frames id σ frame declared ρ ∧
      Reads setup (attempt (frame :: frames)) frame (frame :: frames) id declared ρ v υ ∧
      Closing setup id v υ τ := by
  obtain ⟨frame,declared,ρ,υ,hopen,hread,hclose⟩ := read_with_kind h
  exact ⟨frame,declared,ρ,υ,hopen,read_kind_ok (ha _) hread,hclose⟩

theorem read_with_keeps {R : State μ → State μ → Prop} [State.Enduring R]
    (hs : ∀ id current, Keeps R (runScript setup id current))
    (ha : ∀ frames id, Keeps R (attempt frames id)) (frames : List Frame) (id : ElementId) :
    Keeps R (readWith setup attempt frames id) := by
  have hlog : ∀ event, Keeps R (log event : DecodeM μ Unit) :=
    fun event => quiet_endures (log_quiet event)
  refine bind_keeps cursor_keeps fun start => ?_
  refine bind_keeps (fun s => ?_) fun limit => ?_
  · rw [limit_of_run]
    exact Lasting.refl s
  refine bind_keeps (quiet_endures (byte_length_quiet _ _ _)) fun declared => ?_
  refine bind_keeps (hlog _) fun _ => ?_
  refine bind_keeps (outcome_keeps (read_kind_keeps hs (ha _) _ _ _ _)) fun result => ?_
  cases result with
  | error fault => exact bind_keeps (hlog _) fun _ => throw_keeps _
  | ok v =>
    refine bind_keeps (hlog _) fun _ => ?_
    refine bind_keeps (quiet_endures (check_read_quiet _ _)) fun _ => ?_
    exact bind_keeps (record_value_keeps _ _ _) fun _ => pure_keeps _

end

/-- What outlasts each step of a decode and the scripts outlasts the reading of an element. -/
theorem read_element_keeps {R : State μ → State μ → Prop} [State.Enduring R] {setup : Setup μ}
    (hs : ∀ id current, Keeps R (runScript setup id current)) (room : Nat) (frames : List Frame)
    (id : ElementId) : Keeps R (readElement setup room frames id) := by
  induction room generalizing frames id with
  | zero => exact throw_keeps _
  | succ room ih => exact read_with_keeps hs ih frames id

/-- Decoding an element exchanges the reader no more than its smallest step, nor does it count
back. -/
theorem read_element_reader (setup : Setup μ) (room : Nat) (frames : List Frame) :
    KeepsReader (readElement setup room frames) :=
  read_element_keeps (fun id current => (run_script_kept setup id current).mono State.Kept.onward)
    room frames

/-- What the reader of its kind establishes for an element, as long as it holds of the elements
read in it, holds of every element that is read. -/
theorem read_element_kind {setup : Setup μ}
    {P : List Frame → ElementId → State μ → Value → State μ → Prop}
    (step : ∀ {room : Nat},
      (∀ {frames id σ v τ}, readElement setup room frames id σ = (.ok v,τ) → P frames id σ v τ) →
      ∀ {frames frame id declared σ ρ υ τ v}, Opening setup frames id σ frame declared ρ →
      readKind setup (readElement setup room (frame :: frames)) frame (frame :: frames) id
        declared ρ = (.ok v,υ) →
      Closing setup id v υ τ → P frames id σ v τ)
    {room : Nat} {frames : List Frame} {id : ElementId} {σ τ : State μ} {v : Value}
    (h : readElement setup room frames id σ = (.ok v,τ)) : P frames id σ v τ := by
  induction room generalizing frames id σ v τ with
  | zero => cases h
  | succ room ih =>
    obtain ⟨frame,declared,ρ,υ,hopen,hread,hclose⟩ := read_with_kind h
    exact step ih hopen hread hclose

/-- What holds of an element that is read as long as it holds of the elements read in it, holds
of every element that is read. -/
theorem read_element_ok {setup : Setup μ}
    {P : List Frame → ElementId → State μ → Value → State μ → Prop}
    (step : ∀ {room : Nat},
      (∀ {frames id σ v τ}, readElement setup room frames id σ = (.ok v,τ) → P frames id σ v τ) →
      ∀ {frames frame id declared σ ρ υ τ v}, Opening setup frames id σ frame declared ρ →
      Reads setup (readElement setup room (frame :: frames)) frame (frame :: frames) id declared ρ
        v υ →
      Closing setup id v υ τ → P frames id σ v τ)
    {room : Nat} {frames : List Frame} {id : ElementId} {σ τ : State μ} {v : Value}
    (h : readElement setup room frames id σ = (.ok v,τ)) : P frames id σ v τ :=
  read_element_kind (fun ih _ _ _ _ _ _ _ _ _ hopen hread hclose =>
    step ih hopen (read_kind_ok (read_element_reader setup _ _) hread) hclose) h

end ByteGrammar
