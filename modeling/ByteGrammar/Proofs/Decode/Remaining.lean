import ByteGrammar.Proofs.Decode.History
import ByteGrammar.Proofs.Source.Agreement

/-!
# What `remaining` is relative to

The length that a structure declares is worked out when its frame is opened, and once more
wherever `remaining` is met inside. Both come to the same as long as nothing that the length
depends on has been recorded in between; a newer number of the same name moves the end of the
structure for whatever asks for it later.
-/

set_option autoImplicit false

namespace ByteGrammar

open Stepwise DecodeM Source

variable {μ : Type}

namespace Quantity

def namesWith (left : List String) : Quantity → List String
  | .prev name => [name]
  | .remaining => left
  | _ => []

def leftNames (g : Resolved) : List Frame → List String
  | [] => []
  | frame :: outer =>
    if (g.kind frame.element).isStruct then
      match (g.attributesOf frame.element).length with
      | some length => length.namesWith (leftNames g outer)
      | none => []
    else leftNames g outer

def names (g : Resolved) (frames : List Frame) (q : Quantity) : List String :=
  q.namesWith (leftNames g frames)

variable {g : Resolved} {history recorded : List Value}

theorem latest_append {name : String}
    (h : ∀ v ∈ recorded, (g.element v.element).name ≠ name) :
    latest? g name (recorded ++ history) = latest? g name history := by
  have hnone : recorded.find? (fun v => (g.element v.element).name == name) = none := by
    rw [List.find?_eq_none]
    intro v hv
    simp [h v hv]
  rw [latest?, List.find?_append, hnone]
  rfl

theorem eval_with_append {left left' : EvalM Int} {names : List String}
    (hleft : (∀ v ∈ recorded, (g.element v.element).name ∉ names) → left' = left)
    {q : Quantity} (h : ∀ v ∈ recorded, (g.element v.element).name ∉ q.namesWith names) :
    evalWith g (recorded ++ history) left' q = evalWith g history left q := by
  cases q with
  | literal n => rfl
  | unlimited => rfl
  | remaining => exact hleft h
  | prev name =>
    have hname : ∀ v ∈ recorded, (g.element v.element).name ≠ name := by
      intro v hv hn
      exact h v hv (List.mem_singleton.mpr hn)
    show previous g (recorded ++ history) name = previous g history name
    rw [previous, previous, latest_append hname]

theorem left_in_append (frames : List Frame) (place : Nat)
    (h : ∀ v ∈ recorded, (g.element v.element).name ∉ leftNames g frames) :
    leftIn g (recorded ++ history) frames place = leftIn g history frames place := by
  induction frames generalizing place with
  | nil => rfl
  | cons frame outer ih =>
    rw [leftNames] at h
    rw [left_in_cons, left_in_cons]
    by_cases hs : (g.kind frame.element).isStruct
    · rw [if_pos hs, if_pos hs]
      rw [if_pos hs] at h
      unfold extentOf
      cases hl : (g.attributesOf frame.element).length with
      | none => rfl
      | some length =>
        rw [hl] at h
        dsimp only
        rw [eval_with_append (fun hn => ih frame.start hn) h]
    · rw [if_neg hs, if_neg hs]
      rw [if_neg hs] at h
      exact ih place h

/-- Values of other names do not change a quantity. -/
theorem eval_append (frames : List Frame) (place : Nat) {q : Quantity}
    (h : ∀ v ∈ recorded, (g.element v.element).name ∉ q.names g frames) :
    q.eval g (recorded ++ history) frames place = q.eval g history frames place :=
  eval_with_append (left_in_append frames place) h

theorem left_in_inner {inner frames : List Frame} (place : Nat)
    (h : ∀ frame ∈ inner, (g.kind frame.element).isStruct = false) :
    leftIn g history (inner ++ frames) place = leftIn g history frames place := by
  induction inner with
  | nil => rfl
  | cons frame inner ih =>
    obtain ⟨hframe,hinner⟩ := List.forall_mem_cons.mp h
    rw [List.cons_append, left_in_cons, if_neg (by simp [hframe]), ih hinner]

/-- What is left of `n` bytes after some have been read is their difference, unless a signed word
cannot hold it. -/
theorem saturate_left {n read : Nat} (hn : n < wordCount 63) (hr : read < wordCount 63) :
    saturate (n - wrap true 64 read) = n - read := by
  have hfits : Fits true 64 (read : Int) := ⟨by omega,by exact_mod_cast hr⟩
  rw [wrap_of_fits (by decide) hfits, saturate, largest]
  omega

end Quantity

theorem bytes_of_in_bytes {setup : Setup μ} {id : ElementId} {n : Int} {bytes : Nat}
    (h : bytesOf setup id n = .ok bytes) :
    Quantity.inBytes (setup.grammar.attributesOf id).unit n = pure (bytes : Int) := by
  have hb := bytes_of_ok h
  cases hu : (setup.grammar.attributesOf id).unit with
  | byte =>
    rw [hu] at hb
    dsimp only at hb
    rw [hb]
    rfl
  | bit =>
    rw [hu] at hb
    dsimp only at hb
    have hdiv : n % 8 = 0 ∧ n / 8 = bytes := by omega
    rw [Quantity.inBytes, if_pos hdiv.1, hdiv.2]

structure Opened (μ : Type) where
  frame : Frame
  since : State μ

def stackOf (length : Nat) (opened : List (Opened μ)) : List Frame :=
  opened.map (·.frame) ++ [⟨Grammar.root,0,length⟩]

def Opened.recorded (o : Opened μ) (τ : State μ) : List Value :=
  τ.history.take (τ.history.length - o.since.history.length)

section
variable (setup : Setup μ) (σ : State μ)

/-- The calls of the reader of elements in the decodes that begin in `σ`: with room for so many
frames, within those that have been opened, for an element, in a state. -/
inductive Called : Nat → List (Opened μ) → ElementId → State μ → Prop
  | element (id : ElementId) (offset : Nat) :
      Called (setup.options.maxDepth - 1) [] id (σ.begun setup offset)
  | round {ρ υ ω : State μ} {least : Nat} {most : Option Nat} {children : Array Value}
      {consumed : Nat}
      (hleast : leastCount setup (stackOf (μ := μ) σ.source.length []) setup.grammar.start
        ((σ.begun setup 0).noted (.decoding σ.source.length)) = (.ok least,ρ))
      (hmost : mostCount setup (stackOf (μ := μ) σ.source.length []) setup.grammar.start ρ =
        (.ok most,υ))
      (rounds : Rounds (readInRoot setup σ.source.length setup.grammar.start) most
        σ.source.length #[] 0 υ children consumed ω)
      (room : reached children.size most = false) (inside : consumed < σ.source.length) :
      Called (setup.options.maxDepth - 1) [] setup.grammar.start (ω.moved consumed)
  | member {room : Nat} {opened : List (Opened μ)} {id child : ElementId}
      {ρ υ ω φ χ : State μ} {frame : Frame} {declared : Option Nat} {settings : StructSettings}
      {s : Search} {most : Option Nat} {least : Nat}
      (call : Called (room + 1) opened id ρ)
      (opening : Opening setup (stackOf σ.source.length opened) id ρ frame declared υ)
      (kind : setup.grammar.kind id = .struct settings)
      (search : Advances setup
        (readElement setup room (stackOf σ.source.length (⟨frame,ρ⟩ :: opened)))
        (setup.grammar.attributesOf id).arrangement (setup.grammar.membersOf id).toArray frame
        (stackOf σ.source.length (⟨frame,ρ⟩ :: opened))
        (Search.start (setup.grammar.membersOf id)) υ s ω)
      (hmember : (setup.grammar.membersOf id).toArray[s.index]? = some child)
      (hmost : mostCount setup (stackOf σ.source.length (⟨frame,ρ⟩ :: opened)) child
        (ω.moved (frame.start + s.consumed)) = (.ok most,φ))
      (open_ : reached (s.count s.index) most = false)
      (hleast : leastCount setup (stackOf σ.source.length (⟨frame,ρ⟩ :: opened)) child φ =
        (.ok least,χ)) :
      Called room (⟨frame,ρ⟩ :: opened) child χ
  | target {room : Nat} {opened : List (Opened μ)} {id target : ElementId} {ρ υ : State μ}
      {frame : Frame} {declared : Option Nat} {link : Option Designator}
      (call : Called (room + 1) opened id ρ)
      (opening : Opening setup (stackOf σ.source.length opened) id ρ frame declared υ)
      (kind : setup.grammar.kind id = .structRef link)
      (linked : (setup.grammar.attributesOf id).target = some target) :
      Called room (⟨frame,ρ⟩ :: opened) target υ

/-- The states in which a quantity is worked out, each within the frames open then: the length of
an element that is read, the bounds of a member that is next, the bounds of all members at the end
of a structure, and those of the start element. -/
inductive Asked : List (Opened μ) → State μ → Prop
  | length {room : Nat} {opened : List (Opened μ)} {id : ElementId} {τ : State μ}
      (call : Called setup σ (room + 1) opened id τ) : Asked opened τ
  | bound {room : Nat} {opened : List (Opened μ)} {id : ElementId} {ρ υ ω τ : State μ}
      {frame : Frame} {declared : Option Nat} {settings : StructSettings} {s : Search}
      (call : Called setup σ (room + 1) opened id ρ)
      (opening : Opening setup (stackOf σ.source.length opened) id ρ frame declared υ)
      (kind : setup.grammar.kind id = .struct settings)
      (search : Advances setup
        (readElement setup room (stackOf σ.source.length (⟨frame,ρ⟩ :: opened)))
        (setup.grammar.attributesOf id).arrangement (setup.grammar.membersOf id).toArray frame
        (stackOf σ.source.length (⟨frame,ρ⟩ :: opened))
        (Search.start (setup.grammar.membersOf id)) υ s ω)
      (quiet : State.Quiet (ω.moved (frame.start + s.consumed)) τ) :
      Asked (⟨frame,ρ⟩ :: opened) τ
  | start {τ : State μ}
      (quiet : State.Quiet ((σ.begun setup 0).noted (.decoding σ.source.length)) τ) :
      Asked [] τ

end

structure State.Later (s t : State μ) : Prop where
  reader : SameReader s t
  history : List.IsSuffix s.history t.history

theorem State.Later.refl (s : State μ) : State.Later s s :=
  ⟨Lasting.refl s,List.suffix_refl _⟩

theorem State.Later.trans {s t u : State μ} (h : State.Later s t) (k : State.Later t u) :
    State.Later s u := ⟨Lasting.trans h.reader k.reader,h.history.trans k.history⟩

theorem State.Resumed.later {s t : State μ} (h : State.Resumed s t) : State.Later s t :=
  ⟨h.reader,[],h.history.symm⟩

theorem Recorded.later {g : Resolved} {s t : State μ} {v : Value} (h : Recorded g s v t)
    (hr : State.SameReader s t) : State.Later s t :=
  ⟨hr,_,h.history.symm⟩

def Held (setup : Setup μ) (σ : State μ) : List (Opened μ) → State μ → Prop
  | [], τ => State.SameReader σ τ
  | o :: outer, τ => State.Later o.since τ ∧
      (∃ declared ρ, Opening setup (stackOf σ.source.length outer) o.frame.element o.since
        o.frame declared ρ) ∧ Held setup σ outer o.since

section
variable {setup : Setup μ} {σ τ υ : State μ}

theorem Held.later {opened : List (Opened μ)} (h : Held setup σ opened τ)
    (hl : State.Later τ υ) : Held setup σ opened υ := by
  cases opened with
  | nil => exact Lasting.trans (R := State.SameReader) h hl.reader
  | cons o outer => exact ⟨h.1.trans hl,h.2⟩

theorem Held.reader {opened : List (Opened μ)} (h : Held setup σ opened τ) :
    State.SameReader σ τ := by
  induction opened generalizing τ with
  | nil => exact h
  | cons o outer ih => exact Lasting.trans (R := State.SameReader) (ih h.2.2) h.1.reader

theorem Held.below {inner outer : List (Opened μ)} {o : Opened μ}
    (h : Held setup σ (inner ++ o :: outer) τ) :
    Held setup σ (o :: outer) τ := by
  induction inner generalizing τ with
  | nil => exact h
  | cons i inner ih => exact (ih h.2.2).later h.1

theorem Held.opening {opened : List (Opened μ)} {id : ElementId} {ρ : State μ} {frame : Frame}
    {declared : Option Nat} (h : Held setup σ opened ρ)
    (hopen : Opening setup (stackOf σ.source.length opened) id ρ frame declared υ) :
    Held setup σ (⟨frame,ρ⟩ :: opened) υ := by
  have hid : frame.element = id := by rw [hopen.frame]; rfl
  exact ⟨hopen.quiet.kept.resumed.later,⟨declared,υ,by rw [hid]; exact hopen⟩,h⟩

variable (hg : setup.grammar.Linked)

include hg

theorem read_element_later {room : Nat} {frames : List Frame} {id : ElementId} {v : Value}
    (h : readElement setup room frames id τ = (.ok v,υ)) : State.Later τ υ :=
  (read_element_recorded hg h).2.later ((read_element_reader setup room frames id).of_run h).reader

theorem advances_later {room : Nat} {arrangement : Arrangement} {members : Array ElementId}
    {frame : Frame} {frames : List Frame} {s s' : Search}
    (h : Advances setup (readElement setup room frames) arrangement members frame frames s τ s'
      υ) : State.Later τ υ := by
  refine h.preserves (I := fun _ ω => State.Later τ ω) (fun hadv hs => ?_) (State.Later.refl τ)
  cases hadv with
  | passed same later resumed => exact hs.trans resumed.later
  | child hmember hmost open_ hleast hread =>
    have hquiet := (child_quiet hmost hleast).kept.resumed
    have hstart := ((State.Resumed.refl _).moved _).trans hquiet
    exact (hs.trans hstart.later).trans (read_element_later hg hread)

theorem rounds_later {length : Nat} {id : ElementId} {most : Option Nat}
    {children last : Array Value} {consumed finish : Nat}
    (h : Rounds (readInRoot setup length id) most length children consumed τ last finish υ) :
    State.Later τ υ := by
  refine h.preserves (I := fun _ _ ω => State.Later τ ω) (fun hr hs => hs.trans hr.later) ?_
    (State.Later.refl τ)
  intro children consumed ω v χ hread hs
  exact (hs.trans ((State.Resumed.refl ω).moved consumed).later).trans
    (read_element_later hg hread)

/-- The stack of every call holds. -/
theorem called_held {room : Nat} {opened : List (Opened μ)} {id : ElementId}
    (h : Called setup σ room opened id τ) : Held setup σ opened τ := by
  induction h with
  | element id offset => exact (begun_begun setup σ offset).reader
  | round hleast hmost rounds room inside =>
    have hquiet := ((bound_quiet _ _ _ _ _).of_run hleast).trans
      ((bound_quiet _ _ _ _ _).of_run hmost)
    have hlater := hquiet.kept.resumed.later.trans (rounds_later hg rounds)
    exact Follows.moved (Follows.trans (begun_begun setup σ 0).reader hlater.reader) _
  | member call opening kind search hmember hmost open_ hleast ih =>
    have hbounds := (child_quiet hmost hleast).kept.resumed
    have hstart := ((State.Resumed.refl _).moved _).trans hbounds
    exact (ih.opening opening).later ((advances_later hg search).trans hstart.later)
  | target call opening kind linked ih => exact ih.opening opening

theorem asked_held {opened : List (Opened μ)} (h : Asked setup σ opened τ) :
    Held setup σ opened τ := by
  cases h with
  | length call => exact called_held hg call
  | bound call opening kind search quiet =>
    have hstart := ((State.Resumed.refl _).moved _).trans quiet.kept.resumed
    exact ((called_held hg call).opening opening).later
      ((advances_later hg search).trans hstart.later)
  | start quiet => exact Follows.trans (begun_begun setup σ 0).reader quiet.source.toFollows

end

theorem recorded_since {o : Opened μ} {τ : State μ} (h : State.Later o.since τ) :
    τ.history = o.recorded τ ++ o.since.history := by
  obtain ⟨recorded,hr⟩ := h.history
  rw [Opened.recorded, ← hr]
  simp

/-- Within a structure that declares its length, `remaining` comes to the length that was worked
out when the frame of the structure was opened, less what lies between the start of the frame and
the cursor, if none of the values recorded since has a name that the length depends on. This holds
wherever a decode of bytes in memory works out a quantity. -/
theorem remaining_since_opening {authored : Grammar} {setup : Setup μ}
    (hg : authored.resolve = .ok setup.grammar) {σ τ : State μ} (hσ : σ.source.InMemory)
    {inner outer : List (Opened μ)} {o : Opened μ}
    (asked : Asked setup σ (inner ++ o :: outer) τ)
    (hinner : ∀ i ∈ inner, (setup.grammar.kind i.frame.element).isStruct = false)
    (hstruct : (setup.grammar.kind o.frame.element).isStruct)
    {q : Quantity} (hq : (setup.grammar.attributesOf o.frame.element).length = some q)
    (hfresh : ∀ v ∈ o.recorded τ,
      (setup.grammar.element v.element).name ∉
        q.names setup.grammar (stackOf σ.source.length outer)) :
    ∃ n ρ, byteLength setup (stackOf σ.source.length outer) o.frame.element o.since =
        (.ok (some n),ρ) ∧ o.frame.start = o.since.source.position ∧
      (Quantity.remaining.eval setup.grammar τ.history
          (stackOf σ.source.length (inner ++ o :: outer)) τ.source.position τ.source).1 =
        .ok (Quantity.saturate
          (n - wrap true 64 ((τ.source.position - o.frame.start : Nat) : Int))) := by
  have hheld := (asked_held (Grammar.resolve_linked hg) asked).below
  obtain ⟨hlater,⟨declared,_,hopen⟩,hbelow⟩ := hheld
  obtain ⟨ρ,hlength⟩ := hopen.length
  obtain ⟨n,_,bytes,hn,hbytes,rfl⟩ := byte_length_ok hq hlength
  obtain ⟨source,heval⟩ := evaluate_ok hn
  have hstart := hopen.bounds.1
  refine ⟨bytes,ρ,hlength,hstart,?_⟩
  -- the length depends on the history alone, which is the same for it, and on the bytes
  have hmemory := hbelow.reader.in_memory hσ
  have hagain : (q.eval setup.grammar τ.history (stackOf σ.source.length outer) o.frame.start
      τ.source).1 = .ok n := by
    rw [recorded_since hlater, Quantity.eval_append _ _ hfresh, hstart,
      Quantity.eval_elsewhere _ _ _ _ _ hmemory hlater.reader, heval]
  have hstill := (Quantity.eval_keeps setup.grammar τ.history (stackOf σ.source.length outer)
    o.frame.start q τ.source).eq (hlater.reader.in_memory hmemory)
  have hrun : q.eval setup.grammar τ.history (stackOf σ.source.length outer) o.frame.start
      τ.source = (.ok n,τ.source) := Prod.ext hagain hstill
  have hextent : Quantity.extentOf setup.grammar τ.history o.frame
      (Quantity.leftIn setup.grammar τ.history (stackOf σ.source.length outer) o.frame.start)
      τ.source = (.ok (bytes : Int),τ.source) := by
    unfold Quantity.extentOf
    rw [hq]
    dsimp only
    refine bind_ok.mpr ⟨n,τ.source,hrun,?_⟩
    rw [bytes_of_in_bytes hbytes]
    rfl
  have hsplit : stackOf σ.source.length (inner ++ o :: outer) =
      inner.map (·.frame) ++ o.frame :: stackOf σ.source.length outer := by
    simp [stackOf]
  show (Quantity.leftIn setup.grammar τ.history _ τ.source.position τ.source).1 = _
  rw [hsplit, Quantity.left_in_inner, Quantity.left_in_cons, if_pos hstruct, bind_run, hextent]
  · rfl
  · intro frame hframe
    obtain ⟨i,hi,rfl⟩ := List.mem_map.mp hframe
    exact hinner i hi

theorem kind_of_struct {kind : Kind} (h : kind.isStruct) :
    ∃ settings, kind = .struct settings := by
  cases kind with
  | struct settings => exact ⟨settings,rfl⟩
  | _ => cases h

theorem accept_first (arrangement : Arrangement) (first second : ElementId) (v : Value) :
    ((Search.start [first,second]).accept arrangement 1 v).consumed = v.length ∧
      ((Search.start [first,second]).accept arrangement 1 v).count 1 = 0 ∧
      ((Search.start [first,second]).accept arrangement 1 v).index ≤ 1 := by
  refine ⟨Nat.zero_add _,by simp [Search.accept, Search.start, Search.count],?_⟩
  show (if v.length = 0 ∧ _ then 1 else _) ≤ 1
  split
  · exact Nat.le_refl 1
  · cases arrangement <;> exact Nat.zero_le 1

theorem Called.next {setup : Setup μ} {σ ρ ω : State μ} {room : Nat} {opened : List (Opened μ)}
    {id first second : ElementId} {frame : Frame} {declared : Option Nat} {v : Value}
    (call : Called setup σ (room + 1) opened id ρ)
    (opening : Opening setup (stackOf σ.source.length opened) id ρ frame declared ρ)
    (kind : (setup.grammar.kind id).isStruct)
    (members : setup.grammar.membersOf id = [first,second])
    (once : ∀ member ∈ [first,second],
      (setup.grammar.attributesOf member).least = .literal 1 ∧
        (setup.grammar.attributesOf member).most = .literal 1)
    (read : readElement setup room (stackOf σ.source.length (⟨frame,ρ⟩ :: opened)) first
      (ρ.moved frame.start) = (.ok v,ω)) :
    Called setup σ room (⟨frame,ρ⟩ :: opened) second (ω.moved (frame.start + v.length)) := by
  obtain ⟨settings,hkind⟩ := kind_of_struct kind
  have hfirst := once first (by simp)
  have hsecond := once second (by simp)
  obtain ⟨hconsumed,hcount,hindex⟩ :=
    accept_first (setup.grammar.attributesOf id).arrangement first second v
  have htaken : Advance setup
      (readElement setup room (stackOf σ.source.length (⟨frame,ρ⟩ :: opened)))
      (setup.grammar.attributesOf id).arrangement [first,second].toArray frame
      (stackOf σ.source.length (⟨frame,ρ⟩ :: opened)) (Search.start [first,second]) ρ
      ((Search.start [first,second]).accept (setup.grammar.attributesOf id).arrangement 1 v) ω :=
    .child rfl (most_count_literal hfirst.2 (by decide)) rfl (bound_literal hfirst.1) read
  rw [← hconsumed]
  refine .member call opening hkind
    (s := { (Search.start [first,second]).accept (setup.grammar.attributesOf id).arrangement 1 v
      with index := 1 }) ?_ ?_ (most_count_literal hsecond.2 (by decide)) ?_
    (bound_literal hsecond.1)
  · rw [members]
    exact .step htaken (.step (.passed rfl hindex (State.Resumed.refl ω)) (.refl _ _))
  · rw [members]
    rfl
  · exact congrArg (reached · (some 1)) hcount

def nested (name : String) : Grammar :=
  let g := (Grammar.new "nested").add (Element.struct "outer")
  let g := (g.addChild 1 ((Element.number "Len").withLength (.literal 1))).toOption.getD g
  let g := (g.addChild 1 ((Element.struct "record").withLength (.prev "Len"))).toOption.getD g
  let g := (g.addChild 3 ((Element.number name).withLength (.literal 1))).toOption.getD g
  let g := (g.addChild 3 ((Element.binary "body").withLength .remaining)).toOption.getD g
  g.setStart (.index 1)

def nestedSetup (name : String) : Setup Unit := Setup.plain (nested name)

def nestedBytes : State Unit := bytesState #[4, 1, 0xaa, 0xbb, 0xcc]

def outerOpened (name : String) : Opened Unit :=
  { frame := ⟨1,0,5⟩, since := nestedBytes.begun (nestedSetup name) 0 }

def lengthRead (name : String) : Except DecodeFault Value × State Unit :=
  readElement (nestedSetup name) 30 (stackOf 5 [outerOpened name]) 2
    ((outerOpened name).since.moved 0)

def recordOpened (name : String) : Opened Unit :=
  { frame := ⟨3,1,5⟩, since := (lengthRead name).2.moved 1 }

def numberRead (name : String) : Except DecodeFault Value × State Unit :=
  readElement (nestedSetup name) 29 (stackOf 5 [recordOpened name, outerOpened name]) 4
    ((recordOpened name).since.moved 1)

def bodyState (name : String) : State Unit := (numberRead name).2.moved 2

def recordLength (name : String) : Except DecodeFault (Option Nat) × State Unit :=
  byteLength (nestedSetup name) (stackOf 5 [outerOpened name]) 3 (recordOpened name).since

theorem run_of_option {α : Type} {r : Except DecodeFault α × State Unit} {a : α}
    (h : r.1.toOption = some a) : r = (.ok a,r.2) := by
  rcases r with ⟨fault | b, s⟩
  · cases h
  · rw [Option.some.inj h]

theorem read_of_length {r : Except DecodeFault Value × State Unit} {n : Nat}
    (h : r.1.toOption.map Value.length = some n) : ∃ v, v.length = n ∧ r = (.ok v,r.2) := by
  obtain ⟨v,hv,hn⟩ := Option.map_eq_some_iff.mp h
  exact ⟨v,hn,run_of_option hv⟩

theorem nested_asked {name : String}
    (structs : ∀ id ∈ [1, 3], ((nestedSetup name).grammar.kind id).isStruct)
    (outer : (nestedSetup name).grammar.membersOf 1 = [2, 3])
    (record : (nestedSetup name).grammar.membersOf 3 = [4, 5])
    (once : ∀ id ∈ [2, 3, 4, 5], ((nestedSetup name).grammar.attributesOf id).least = .literal 1 ∧
      ((nestedSetup name).grammar.attributesOf id).most = .literal 1)
    (unbounded : ((nestedSetup name).grammar.attributesOf 1).length = none)
    (first : (lengthRead name).1.toOption.map Value.length = some 1)
    (four : (recordLength name).1.toOption = some (some 4))
    (second : (numberRead name).1.toOption.map Value.length = some 1) :
    Asked (nestedSetup name) nestedBytes [recordOpened name, outerOpened name]
      (bodyState name) := by
  obtain ⟨v,hv,hfirst⟩ := read_of_length first
  obtain ⟨w,hw,hsecond⟩ := read_of_length second
  have houter : Opening (nestedSetup name) (stackOf 5 ([] : List (Opened Unit))) 1
      (outerOpened name).since ⟨1,0,5⟩ none (outerOpened name).since :=
    ⟨rfl,⟨_,by rw [byte_length_none unbounded]; rfl⟩,State.Quiet.refl _⟩
  have hstart : Called (nestedSetup name) nestedBytes 31 [] 1 (outerOpened name).since :=
    .element 1 0
  have hcall := Called.next hstart houter (structs 1 (by simp)) outer
    (fun id hid => once id (List.mem_append_left [4, 5] hid)) hfirst
  rw [hv] at hcall
  have hlength : recordLength name = (.ok (some 4),(recordLength name).2) :=
    run_of_option four
  have hframe : (⟨3,1,5⟩ : Frame) = Frame.opened 3 (recordOpened name).since.source.position
      (limitAt (stackOf 5 [outerOpened name]) (recordOpened name).since) (some 4) := by
    have hplace : (recordOpened name).since.source.position = 1 := rfl
    have hlimit : limitAt (stackOf 5 [outerOpened name]) (recordOpened name).since = 5 := rfl
    rw [hplace, hlimit]
    rfl
  have hrecord : Opening (nestedSetup name) (stackOf 5 [outerOpened name]) 3
      (recordOpened name).since ⟨3,1,5⟩ (some 4) (recordOpened name).since :=
    ⟨hframe,⟨_,hlength⟩,State.Quiet.refl _⟩
  have hbody := Called.next hcall hrecord (structs 3 (by simp)) record
    (fun id hid => once id (List.mem_append_right [2, 3] hid)) hsecond
  rw [hw] at hbody
  exact .length hbody

theorem tagged_remaining :
    Asked (nestedSetup "tag") nestedBytes [recordOpened "tag", outerOpened "tag"]
        (bodyState "tag") ∧
      (recordLength "tag").1 = .ok (some 4) ∧
      (Quantity.remaining.eval (nestedSetup "tag").grammar (bodyState "tag").history
        (stackOf 5 [recordOpened "tag", outerOpened "tag"]) 2 (bodyState "tag").source).1 =
        .ok 3 := by
  have hg : (nested "tag").resolve = .ok (nestedSetup "tag").grammar :=
    Grammar.resolve_sound (by decide +kernel)
  have hfour : recordLength "tag" = (.ok (some 4),(recordLength "tag").2) :=
    run_of_option (by decide +kernel)
  have hasked : Asked (nestedSetup "tag") nestedBytes
      ([] ++ recordOpened "tag" :: [outerOpened "tag"]) (bodyState "tag") :=
    nested_asked (by decide +kernel) (by decide +kernel) (by decide +kernel) (by decide +kernel)
      (by decide +kernel) (by decide +kernel) (by decide +kernel) (by decide +kernel)
  obtain ⟨n,ρ,hn,-,hleft⟩ := remaining_since_opening hg (of_bytes_in_memory _) hasked nofun
    (by decide +kernel) (q := .prev "Len") (by decide +kernel) (by decide +kernel)
  have hsame : some 4 = some n := Except.ok.inj (congrArg Prod.fst (hfour.symm.trans hn))
  cases hsame
  have hplace : (bodyState "tag").source.position = 2 := rfl
  have hbegin : (recordOpened "tag").frame.start = 1 := rfl
  rw [hplace, hbegin, Quantity.saturate_left (by decide) (by decide)] at hleft
  exact ⟨hasked,congrArg Prod.fst hfour,hleft⟩

/-- Where the number in the record has the name that its length depends on, the record has four
bytes and one has been read, but `remaining` comes to nothing: the length is worked out anew from
that number. The body is empty, and padding takes its place. -/
theorem renamed_remaining :
    Asked (nestedSetup "Len") nestedBytes [recordOpened "Len", outerOpened "Len"]
        (bodyState "Len") ∧
      (recordLength "Len").1.toOption = some (some 4) ∧
      (bodyState "Len").source.position - (recordOpened "Len").frame.start = 1 ∧
      (Quantity.remaining.eval (nestedSetup "Len").grammar (bodyState "Len").history
        (stackOf 5 [recordOpened "Len", outerOpened "Len"]) 2
        (bodyState "Len").source).1.toOption = some 0 ∧
      (decode (nestedSetup "Len") nestedBytes).1.toOption.map
        (fun v => v.leaves.map fun w => (w.element,w.length)) =
        some [(2,1), (4,1), (5,0), (6,3)] :=
  ⟨nested_asked (by decide +kernel) (by decide +kernel) (by decide +kernel) (by decide +kernel)
    (by decide +kernel) (by decide +kernel) (by decide +kernel) (by decide +kernel),
    by decide +kernel,by decide +kernel,by decide +kernel,by decide +kernel⟩

end ByteGrammar
