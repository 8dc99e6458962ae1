import ByteGrammar.Proofs.Decode.Elsewhere
import ByteGrammar.Proofs.Decode.Likeness
import ByteGrammar.Proofs.Decode.Limits
import ByteGrammar.Proofs.Resolved.Lengths
import ByteGrammar.Proofs.Source.Delivered

/-!
# Reading through references

A reference that is left without a length opens the frame that its structure is about to open, and
the structure opens the same frame in it once more. Nothing inside can tell how many frames there
are: `remaining` looks past those that are not of structures, and all else that is read looks at the
innermost frame alone. So the reference comes to what the structure comes to in its place.
-/

set_option autoImplicit false

namespace ByteGrammar

open Stepwise DecodeM Source

variable {μ : Type}

def Resolved.SameLeft (g : Resolved) (frames frames' : List Frame) : Prop :=
  ∀ history place, Quantity.leftIn g history frames' place = Quantity.leftIn g history frames place

theorem Resolved.SameLeft.inner {g : Resolved} {frames frames' : List Frame}
    (h : g.SameLeft frames frames') (frame : Frame) :
    g.SameLeft (frame :: frames) (frame :: frames') := by
  intro history place
  rw [Quantity.left_in_cons, Quantity.left_in_cons, h, h]

theorem same_left_within {g : Resolved} {frame : Frame}
    (h : (g.kind frame.element).isStruct = false) (frames : List Frame) :
    g.SameLeft frames (frame :: frames) := by
  intro history place
  rw [Quantity.left_in_cons, h]
  rfl

section
variable {setup : Setup μ} {frames frames' : List Frame}
  (h : setup.grammar.SameLeft frames frames')

include h

theorem evaluate_framed (id : ElementId) (q : Quantity) :
    evaluate setup frames' id q = evaluate setup frames id q := by
  funext σ
  rw [evaluate_run, evaluate_run, Quantity.eval, Quantity.eval, h]

theorem byte_length_framed (id : ElementId) :
    byteLength setup frames' id = byteLength setup frames id := by
  simp only [byteLength, evaluate_framed h]

theorem bound_framed {α : Type} (id : ElementId) (bound : Attributes → Quantity)
    (reading : Int → α) :
    boundOf setup frames' id bound reading = boundOf setup frames id bound reading := by
  rw [boundOf, boundOf, evaluate_framed h]

theorem check_counts_framed (id : ElementId) (absent : Bool) (s : Search) (index : Nat)
    (members : List ElementId) :
    checkCounts setup frames' id absent s index members =
      checkCounts setup frames id absent s index members := by
  induction members generalizing index with
  | nil => rfl
  | cons member rest ih => simp only [checkCounts, leastCount, bound_framed h, ih]

section
variable (attempt : ElementId → DecodeM μ Value) (frame : Frame)

theorem search_framed (arrangement : Arrangement) (members : Array ElementId) (steps : Nat)
    (s : Search) : search setup attempt arrangement members frame frames' steps s =
      search setup attempt arrangement members frame frames steps s := by
  induction steps generalizing s with
  | zero => rfl
  | succ steps ih =>
    simp only [search, searchStep, mostCount, leastCount, bound_framed h, ih]

theorem read_struct_framed (id : ElementId) (declared : Option Nat) :
    readStruct setup attempt frame frames' id declared =
      readStruct setup attempt frame frames id declared := by
  simp only [readStruct, search_framed h, check_counts_framed h]

theorem read_kind_framed (id : ElementId) (declared : Option Nat) :
    readKind setup attempt frame frames' id declared =
      readKind setup attempt frame frames id declared := by
  unfold readKind
  cases setup.grammar.kind id with
  | struct settings => exact read_struct_framed h attempt frame id declared
  | _ => rfl

end

theorem opening_framed (frame : Frame) (id : ElementId) :
    opening setup (frame :: frames') id = opening setup (frame :: frames) id := by
  simp only [opening, byte_length_framed (h.inner frame)]
  rfl

end

/-- An element is read alike within frames that `remaining` cannot tell apart, if the innermost is
the same. -/
theorem read_element_framed {setup : Setup μ} {frames frames' : List Frame}
    (h : setup.grammar.SameLeft frames frames') (room : Nat) (frame : Frame) (id : ElementId) :
    readElement setup room (frame :: frames') id = readElement setup room (frame :: frames) id := by
  -- over all frames, since what is inside is read within one more
  induction room generalizing frames frames' frame id with
  | zero => rfl
  | succ room ih =>
    rw [readElement, readElement, read_with_closing, read_with_closing, opening_framed h]
    congr 1
    funext opened
    have hattempt : readElement setup room (opened.1 :: frame :: frames') =
        readElement setup room (opened.1 :: frame :: frames) :=
      funext fun id => ih (h.inner frame) opened.1 id
    rw [hattempt, read_kind_framed ((h.inner frame).inner opened.1)]

section
variable {setup : Setup μ} {frames : List Frame} {id t : ElementId} {σ τ : State μ}

/-- A frame with the same length opened in another one is that one again. -/
theorem opened_again (outer inner : ElementId) (start limit : Nat) (declared : Option Nat) :
    Frame.opened inner start (Frame.opened outer start limit declared).finish declared =
      Frame.opened inner start limit declared := by
  simp only [Frame.opened, Frame.mk.injEq, true_and]
  cases declared <;> simp only <;> omega

/-- An element that declares the same length as one that is no structure, and is opened in its
frame, is read as it is without that frame. -/
theorem read_element_reopened (hk : (setup.grammar.kind id).isStruct = false)
    {declared : Option Nat} (hlength : byteLength setup frames t σ = (.ok declared,τ))
    (room : Nat) :
    readElement setup room
        (Frame.opened id σ.source.position (limitAt frames σ) declared :: frames) t σ =
      readElement setup room frames t σ := by
  cases room with
  | zero => rfl
  | succ room =>
    have hsame : setup.grammar.SameLeft frames
        (Frame.opened id σ.source.position (limitAt frames σ) declared :: frames) :=
      same_left_within hk frames
    have hwithin := (congrFun (byte_length_framed hsame t) σ).trans hlength
    -- both open the same frame, so that only the frames around it differ from here on
    rw [readElement, readElement, read_with_closing, read_with_closing, bind_run, bind_run,
      opening_run hlength, opening_run hwithin, limit_at_cons, opened_again]
    dsimp only
    have hattempt : ∀ frame, readElement setup room (frame ::
        Frame.opened id σ.source.position (limitAt frames σ) declared :: frames) =
        readElement setup room (frame :: frames) := fun frame =>
      funext fun id => read_element_framed hsame room frame id
    rw [hattempt, read_kind_framed (hsame.inner _)]

theorem bytes_of_copied
    (hunit : (setup.grammar.attributesOf id).unit = (setup.grammar.attributesOf t).unit)
    (n : Int) :
    (∃ bytes, bytesOf setup id n = .ok bytes ∧ bytesOf setup t n = .ok bytes) ∨
      ∃ fault fault', bytesOf setup id n = .error fault ∧ bytesOf setup t n = .error fault' ∧
        fault.isEof = false ∧ fault'.isEof = false := by
  unfold bytesOf
  rw [hunit]
  split
  · exact .inr ⟨_,_,rfl,rfl,rfl,rfl⟩
  · split
    · exact .inl ⟨_,rfl,rfl⟩
    · split
      · exact .inl ⟨_,rfl,rfl⟩
      · exact .inr ⟨_,_,rfl,rfl,rfl,rfl⟩

theorem byte_length_copied
    (hlength : (setup.grammar.attributesOf id).length = (setup.grammar.attributesOf t).length)
    (hunit : (setup.grammar.attributesOf id).unit = (setup.grammar.attributesOf t).unit)
    (frames : List Frame) (σ : State μ) :
    (∃ declared τ, byteLength setup frames id σ = (.ok declared,τ) ∧
      byteLength setup frames t σ = (.ok declared,τ)) ∨
      ∃ fault fault' τ τ', byteLength setup frames id σ = (.error fault,τ) ∧
        byteLength setup frames t σ = (.error fault',τ') ∧ fault.isEof = false ∧
        fault'.isEof = false := by
  cases hq : (setup.grammar.attributesOf t).length with
  | none =>
    rw [byte_length_none (hlength.trans hq), byte_length_none hq]
    exact .inl ⟨none,σ,rfl,rfl⟩
  | some q =>
    rw [byte_length_some (hlength.trans hq), byte_length_some hq, bind_run, bind_run,
      evaluate_run, evaluate_run]
    rcases q.eval setup.grammar σ.history frames σ.source.position σ.source with
      ⟨fault | n, source⟩
    · exact .inr ⟨_,_,_,_,rfl,rfl,rfl,rfl⟩
    · dsimp only
      rcases bytes_of_copied hunit n with ⟨bytes,hid,ht⟩ | ⟨fault,fault',hid,ht,heof⟩ <;>
        rw [hid, ht]
      · exact .inl ⟨_,_,rfl,rfl⟩
      · exact .inr ⟨_,_,_,_,rfl,rfl,heof⟩

end

def Likeness.calmed (g : Resolved) (hi : Nat) : Likeness g where
  failing := False
  lo := 0
  hi := hi
  related s t := t.calmed = s.calmed
  known _ := True
  position h := position_calmed h
  length h := length_calmed h
  moved h place := moved_calmed h place
  read h _ := .inr (read_alike_calmed h _)
  again := by
    intro v _ _ s t h
    obtain ⟨hresult,hsource⟩ := read_alike_calmed (moved_calmed h v.offset) v.length
    rw [readAt_eq, readAt_eq, position_calmed h]
    exact ⟨hresult,moved_calmed hsource _⟩

theorem quiet_calmed {g : Resolved} (hi : Nat) {σ τ : State μ} (h : State.Quiet σ τ) :
    (Likeness.calmed g hi).States σ τ :=
  ⟨h.source.calmed,h.history,h.order,h.values,fun _ _ => trivial⟩

/-- What reading the reference `id` comes to beside what its structure comes to in its place: the
one succeeds if the other does, with the same value under another label and in the same state as far
as later reads can tell, and the data is at its end for both or for neither. -/
structure ReadsThrough (id : ElementId) (through direct : Except DecodeFault Value × State μ) :
    Prop where
  ok : (∃ v τ, through = (.ok v,τ)) ↔ ∃ w υ, direct = (.ok w,υ)
  same : ∀ {v w τ υ}, through = (.ok v,τ) → direct = (.ok w,υ) →
    v = { w with element := id } ∧ τ.history = υ.history ∧ τ.order = υ.order ∧
      τ.source.position = υ.source.position
  eof : through.1 = .error .eof ↔ direct.1 = .error .eof

theorem ReadsThrough.of_values {id : ElementId} {w : Value} {τ υ : State μ}
    (hhistory : τ.history = υ.history) (horder : τ.order = υ.order)
    (hposition : τ.source.position = υ.source.position) :
    ReadsThrough id (.ok { w with element := id },τ) (.ok w,υ) where
  ok := ⟨fun _ => ⟨w,υ,rfl⟩,fun _ => ⟨_,τ,rfl⟩⟩
  same := by
    rintro _ _ _ _ ⟨⟩ ⟨⟩
    exact ⟨rfl,hhistory,horder,hposition⟩
  eof := ⟨nofun,nofun⟩

theorem ReadsThrough.of_faults {id : ElementId} {fault fault' : DecodeFault} {τ υ : State μ}
    (h : fault.isEof = fault'.isEof) : ReadsThrough id (.error fault,τ) (.error fault',υ) where
  ok := ⟨nofun,nofun⟩
  same := nofun
  eof := by
    have hone : ∀ fault : DecodeFault, (.error fault : Except DecodeFault Value) = .error .eof ↔
        fault.isEof := fun fault => ⟨fun h => by cases h; rfl,fun h => by rw [eof_of_is_eof h]⟩
    rw [hone, hone, h]

section
variable {setup : Setup μ}

theorem byte_length_calmed (frames : List Frame) (id : ElementId) {σ τ : State μ}
    (h : State.Quiet σ τ) :
    (byteLength setup frames id τ).1 = (byteLength setup frames id σ).1 := by
  have hblind : (Likeness.calmed setup.grammar 0).Blind (fun _ => True)
      (byteLength setup frames id) := Likeness.byte_length_blind frames id
  exact (Likeness.blind_same not_false hblind (quiet_calmed 0 h) trivial).1

/-- Room for one more frame does not matter where no limit is met. -/
theorem read_element_roomier {room : Nat} {frames : List Frame} {id : ElementId} {σ : State μ}
    (hvalues : σ.values ≤ setup.options.maxValues)
    (hcut : Uncut (readElement setup room frames id σ).1) :
    readElement setup (room + 1) frames id σ = readElement setup room frames id σ := by
  have hlonger : Prolongs setup.options.maxValues (readElement setup room frames id)
      (readElement (setup.limited setup.options.maxDepth setup.options.maxValues) (room + 1)
        frames id) := read_element_prolongs (Nat.le_refl _) (Nat.le_succ room) frames id
  exact (hlonger σ hvalues hcut).1

/-- Reading in a state that differs in what the reader has worn off comes to the same, in a state
that differs in no more. -/
theorem read_element_calmed (hg : setup.grammar.Linked) (hr : setup.runtime = none) (room : Nat)
    (frame : Frame) (frames : List Frame) (id : ElementId) {σ τ : State μ}
    (h : State.Quiet σ τ) :
    (readElement setup room (frame :: frames) id τ).1 =
        (readElement setup room (frame :: frames) id σ).1 ∧
      (Likeness.calmed setup.grammar (max σ.source.position frame.finish)).States
        (readElement setup room (frame :: frames) id σ).2
        (readElement setup room (frame :: frames) id τ).2 := by
  have hknown : ∀ room, (Likeness.calmed setup.grammar (max σ.source.position frame.finish)).Knows
      (readElement setup room) := fun room _ _ _ _ _ _ _ _ _ _ _ _ _ _ => trivial
  exact Likeness.blind_same not_false
    (Likeness.read_element_blind hg hr hknown room (Nat.le_max_right _ _) id)
    (quiet_calmed _ h) ⟨Nat.zero_le _,Nat.le_max_left _ _⟩

/-- What an element comes to in a frame that declares its length already, with the reader worn off
by that, is what it comes to without the frame. -/
theorem read_element_inside (hg : setup.grammar.Linked) (hr : setup.runtime = none) (room : Nat)
    {id t : ElementId} (hk : (setup.grammar.kind id).isStruct = false) {frame : Frame}
    {frames : List Frame} {declared : Option Nat} {σ ρ ω : State μ}
    (hlength : byteLength setup (frame :: frames) t σ = (.ok declared,ρ))
    (hquiet : State.Quiet σ ω) (hvalues : σ.values ≤ setup.options.maxValues)
    (hcut : Uncut (readElement setup room
      (Frame.opened id σ.source.position frame.finish declared :: frame :: frames) t ω).1) :
    (readElement setup room
        (Frame.opened id σ.source.position frame.finish declared :: frame :: frames) t ω).1 =
        (readElement setup (room + 1) (frame :: frames) t σ).1 ∧
      (Likeness.calmed setup.grammar (max σ.source.position frame.finish)).States
        (readElement setup (room + 1) (frame :: frames) t σ).2
        (readElement setup room
          (Frame.opened id σ.source.position frame.finish declared :: frame :: frames) t ω).2 := by
  have hagain : byteLength setup (frame :: frames) t ω =
      (.ok declared,(byteLength setup (frame :: frames) t ω).2) := by
    have hsame : (byteLength setup (frame :: frames) t ω).1 = _ :=
      byte_length_calmed (frame :: frames) t hquiet
    rw [hlength] at hsame
    exact Prod.ext hsame rfl
  have hreopened := read_element_reopened hk hagain room
  rw [hquiet.position, limit_at_cons] at hreopened
  rw [hreopened] at hcut ⊢
  rw [← read_element_roomier (hquiet.values ▸ hvalues) hcut]
  exact read_element_calmed hg hr (room + 1) frame frames t hquiet

theorem read_reference_run {room : Nat} {frames : List Frame} {id t : ElementId} {σ ρ : State μ}
    {declared : Option Nat} {link : Option Designator}
    (hk : setup.grammar.kind id = .structRef link)
    (ht : (setup.grammar.attributesOf id).target = some t)
    (hlength : byteLength setup frames id σ = (.ok declared,ρ)) :
    readElement setup (room + 1) frames id σ =
      match readElement setup room
        (Frame.opened id σ.source.position (limitAt frames σ) declared :: frames) t
        (ρ.noted (.reading σ.source.position id)) with
      | (.ok w,υ) => closing setup id σ.source.position (.ok { w with element := id }) υ
      | (.error fault,υ) => (.error fault,υ.noted (.failed σ.source.position id fault)) := by
  rw [readElement, read_with_closing, bind_run, opening_run hlength]
  simp only [bind_run, outcome_run, readKind, hk, readReference, ht]
  rcases readElement setup room
    (Frame.opened id σ.source.position (limitAt frames σ) declared :: frames) t
    (ρ.noted (.reading σ.source.position id)) with ⟨fault | w, υ⟩ <;> rfl

/-- A value that is not recorded and passes its check is kept if no limit is met, and then nothing
has changed that later reads can tell. -/
theorem closing_uncut {id : ElementId} {start : Nat} {v : Value} {σ : State μ}
    (hk : (setup.grammar.kind id).isRecorded = false) (hv : v.check setup.grammar = .ok ())
    (hp : σ.source.position = v.finish) (hcut : Uncut (closing setup id start (.ok v) σ).1) :
    ∃ τ, closing setup id start (.ok v) σ = (.ok v,τ) ∧ τ.history = σ.history ∧
      τ.order = σ.order ∧ τ.source = σ.source := by
  have hcheck : checkRead setup v (σ.noted (.read start v.element v.offset v.length)) =
      (.ok ⟨⟩,σ.noted (.read start v.element v.offset v.length)) := check_read_pass hv hp
  rw [closing_run id start hcheck] at hcut ⊢
  by_cases hover : setup.options.maxValues < σ.values + 1
  · rw [if_pos hover] at hcut
    cases hcut _ rfl
  · rw [if_neg hover, hk]
    exact ⟨_,rfl,rfl,rfl,rfl⟩

/-- Where a reference and its structure declare the same length in bytes, the one comes to what the
other comes to. -/
theorem read_reference_opened (hg : setup.grammar.Linked) (hr : setup.runtime = none)
    {id t : ElementId} {link : Option Designator} (hk : setup.grammar.kind id = .structRef link)
    (ht : (setup.grammar.attributesOf id).target = some t) {room : Nat} {frame : Frame}
    {frames : List Frame} {declared : Option Nat} {σ ρ : State μ}
    (hid : byteLength setup (frame :: frames) id σ = (.ok declared,ρ))
    (hdirect : byteLength setup (frame :: frames) t σ = (.ok declared,ρ))
    (hvalues : σ.values ≤ setup.options.maxValues)
    (hcut : Uncut (readElement setup (room + 1) (frame :: frames) id σ).1) :
    ReadsThrough id (readElement setup (room + 1) (frame :: frames) id σ)
      (readElement setup (room + 1) (frame :: frames) t σ) := by
  have hquiet : State.Quiet σ (ρ.noted (.reading σ.source.position id)) :=
    ((byte_length_quiet setup _ _).of_run hid).trans (State.noted_quiet ρ _)
  have hstruct : (setup.grammar.kind id).isStruct = false := by
    rw [hk]
    rfl
  rw [read_reference_run hk ht hid, limit_at_cons] at hcut ⊢
  generalize ρ.noted (.reading σ.source.position id) = ω at hquiet hcut ⊢
  have hinside := read_element_inside hg hr room hstruct hdirect hquiet hvalues
  rcases hdone : readElement setup (room + 1) (frame :: frames) t σ with ⟨result, τ⟩
  rcases hrun : readElement setup room (Frame.opened id σ.source.position
    frame.finish declared :: frame :: frames) t ω with ⟨fault | w, υ⟩
  · -- the reference fails as the structure does
    rw [hrun] at hcut
    have hsame := (hinside (hrun ▸ error_uncut.mpr (error_uncut.mp hcut))).1
    rw [hrun, hdone] at hsame
    obtain rfl : .error fault = result := hsame
    exact .of_faults rfl
  · -- the value gets another label, and being no value of a recorded kind it leaves no trace
    rw [hrun] at hcut
    obtain ⟨hsame,hstates⟩ := hinside (hrun ▸ ok_uncut w)
    rw [hrun, hdone] at hsame hstates
    obtain rfl : .ok w = result := hsame
    have hreads : Reads setup (readElement setup room (Frame.opened id σ.source.position
        frame.finish declared :: frame :: frames)) (Frame.opened id σ.source.position frame.finish
        declared) (frame :: frames) id declared ω { w with element := id } υ :=
      .reference hk ht hrun
    obtain ⟨hplaced,hend⟩ := reads_placed hg (fun h => read_element_placed hg h)
      (hquiet.position : ω.source.position = _)
      (opened_bounds id σ.source.position frame.finish declared).1 hreads
    obtain ⟨φ,hclose,hhistory,horder,hsource⟩ := closing_uncut (by rw [hk]; rfl)
      (hplaced.valid _ (Value.mem_preorder.mpr (.inl rfl))) hend hcut
    dsimp only
    rw [hclose]
    exact .of_values (hhistory.trans hstates.history) (horder.trans hstates.order)
      (hsource ▸ position_calmed hstates.source)

end

/-- Reading through a reference is reading its structure. In whatever state and within whatever
frames a decode is, a reference along whose bases no length is stated comes to what its structure
comes to there, unless a limit cuts the reading of the reference short. -/
theorem reference_reads_through {authored : Grammar} {setup : Setup μ}
    (hg : authored.resolve = .ok setup.grammar) (hr : setup.runtime = none) {id t : ElementId}
    {link : Option Designator} (hk : setup.grammar.kind id = .structRef link)
    (hopen : ∀ b, setup.grammar.Line id b → (setup.grammar.element b).settings.length = none)
    (ht : (setup.grammar.attributesOf id).target = some t) (room : Nat) (frame : Frame)
    (frames : List Frame) {σ : State μ} (hvalues : σ.values ≤ setup.options.maxValues)
    (hcut : Uncut (readElement setup room (frame :: frames) id σ).1) :
    ReadsThrough id (readElement setup room (frame :: frames) id σ)
      (readElement setup room (frame :: frames) t σ) := by
  obtain ⟨hlength,hunit⟩ : (setup.grammar.attributesOf id).length =
      (setup.grammar.attributesOf t).length ∧
      (setup.grammar.attributesOf id).unit = (setup.grammar.attributesOf t).unit := by
    rw [(Grammar.resolve_ok hg).1] at hk hopen ht ⊢
    exact Grammar.link_open_length hk hopen ht
  cases room with
  | zero => cases hcut _ rfl
  | succ room =>
    rcases byte_length_copied hlength hunit (frame :: frames) σ with
      ⟨declared,ρ,hid,hdirect⟩ | ⟨fault,fault',ρ,ρ',hid,hdirect,heof,heof'⟩
    · exact read_reference_opened (Grammar.resolve_linked hg) hr hk ht hid hdirect hvalues hcut
    · rw [read_unmeasured hid, read_unmeasured hdirect]
      exact .of_faults (heof.trans heof'.symm)

def addressed : Grammar :=
  let g := (Grammar.new "addressed").add (Element.struct "packet")
  let g := (g.addChildren 1 [(Element.number "size").withLength (.literal 1),
    Element.structRef "body" (some (.name "payload"))]).toOption.getD g
  let g := g.add ((Element.struct "payload").withLength (.prev "size"))
  let g := (g.addChildren 4 [(Element.number "tag").withLength (.literal 1),
    (Element.binary "rest").withLength .remaining]).toOption.getD g
  g.setStart (.name "packet")

def addressedSetup : Setup Unit := Setup.plain addressed

def packetFrames : List Frame := [⟨1,0,5⟩,⟨0,0,5⟩]

def sizedState : State Unit :=
  (readElement addressedSetup 30 packetFrames 2 (bytesState #[3, 7, 8, 9, 0])).2

theorem body_reads_through : ∃ v w τ υ,
    readElement addressedSetup 30 packetFrames 3 sizedState = (.ok v,τ) ∧
    readElement addressedSetup 30 packetFrames 4 sizedState = (.ok w,υ) ∧
    v = { w with element := 3 } ∧ w.length = 3 ∧ τ.history = υ.history := by
  have hg : addressed.resolve = .ok addressedSetup.grammar :=
    Grammar.resolve_sound (by decide +kernel)
  have hk : addressedSetup.grammar.kind 3 = .structRef (some (.name "payload")) := by rfl
  have hbase : (addressedSetup.grammar.attributesOf 3).base = none := by decide +kernel
  have hopen : ∀ b, addressedSetup.grammar.Line 3 b →
      (addressedSetup.grammar.element b).settings.length = none := by
    intro b hb
    rcases hb.cases_head with rfl | ⟨c,hc,-⟩
    · rfl
    · cases hbase.symm.trans hc
  obtain ⟨v,τ,hv⟩ := run_ok (r := readElement addressedSetup 30 packetFrames 3 sizedState)
    (by decide +kernel)
  have hthrough := reference_reads_through hg rfl hk hopen (t := 4) (by decide +kernel) 30
    ⟨1,0,5⟩ [⟨0,0,5⟩] (σ := sizedState) (by decide +kernel)
    (show Uncut (readElement addressedSetup 30 packetFrames 3 sizedState).1 from
      hv ▸ ok_uncut v)
  obtain ⟨w,υ,hw⟩ := hthrough.ok.mp ⟨v,τ,hv⟩
  obtain ⟨hsame,hhistory,-⟩ := hthrough.same hv hw
  have hlength : (readElement addressedSetup 30 packetFrames 4 sizedState).1.toOption.map
      Value.length = some 3 := by decide +kernel
  rw [show readElement addressedSetup 30 packetFrames 4 sizedState = _ from hw] at hlength
  exact ⟨v,w,τ,υ,hv,hw,hsame,Option.some.inj hlength,hhistory⟩

end ByteGrammar
