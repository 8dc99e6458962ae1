import ByteGrammar.Proofs.Decode.Likeness

/-!
# Nothing outside the frame is looked at

Two decodes over bytes in memory that agree between two places, and have recorded the same values
in between, go the same way as long as they read within frames in between. So an element is read
as if the rest of the source did not exist, unless scripts look at it.
-/

set_option autoImplicit false

namespace ByteGrammar

open Stepwise DecodeM Source

variable {μ : Type}

def Likeness.agreeing (g : Resolved) (lo hi : Nat) : Likeness g where
  failing := False
  lo := lo
  hi := hi
  related := Source.Alike lo hi
  known := Value.Inside lo hi
  position := Source.Alike.position
  length := Source.Alike.length
  moved := Source.Alike.moved
  read h hn := .inr (h.read hn)
  again hv _ _ _ h := h.readAt (.inr hv)

abbrev State.Alike (lo hi : Nat) : State μ → State μ → Prop :=
  State.Paired (Source.Alike lo hi) (Value.Inside lo hi)

section
variable {setup : Setup μ} {attempt : List Frame → ElementId → DecodeM μ Value} {lo hi : Nat}

theorem agreeing_knows (hg : setup.grammar.Linked) (ha : ∀ frames, KeepsReader (attempt frames))
    (hplaced : ∀ {frames id σ v τ}, attempt frames id σ = (.ok v,τ) →
      Placed setup.grammar id σ.source.position (limitAt frames σ) v ∧
        τ.source.position = v.finish) :
    (Likeness.agreeing setup.grammar lo hi).Knows attempt := by
  intro frame frames id declared σ τ υ v hhi hle hstart hσ hst h
  obtain ⟨hv,-⟩ := reads_placed hg hplaced hstart hle (read_kind_ok (ha _) h)
  have hlo : lo ≤ σ.source.position := hσ.1
  have ho := hv.offset
  have hin := hv.inside
  have hhi' : frame.finish ≤ hi := hhi
  show lo ≤ v.offset ∧ v.finish ≤ hi
  omega

/-- Inside of a frame within the range, an element is read alike. -/
theorem read_element_blind (hg : setup.grammar.Linked) (hr : setup.runtime = none) (room : Nat)
    {frame : Frame} {frames : List Frame} (hhi : frame.finish ≤ hi) (id : ElementId) :
    (Likeness.agreeing setup.grammar lo hi).Blind (Likeness.agreeing setup.grammar lo hi).Between
      (readElement setup room (frame :: frames) id) :=
  Likeness.read_element_blind hg hr (fun room =>
    agreeing_knows hg (read_element_reader setup room) (read_element_placed hg)) room hhi id

theorem read_with_blind (hg : setup.grammar.Linked) (hr : setup.runtime = none)
    (ha : ∀ frames, KeepsReader (attempt frames))
    (hplaced : ∀ {frames id σ v τ}, attempt frames id σ = (.ok v,τ) →
      Placed setup.grammar id σ.source.position (limitAt frames σ) v ∧
        τ.source.position = v.finish)
    (hblind : ∀ {frame frames}, frame.finish ≤ hi → ∀ id,
      (Likeness.agreeing setup.grammar lo hi).Blind
        (Likeness.agreeing setup.grammar lo hi).Between (attempt (frame :: frames) id))
    (frames : List Frame) (id : ElementId) (σ τ : State μ) (h : State.Alike lo hi σ τ)
    (hσ : (lo ≤ σ.source.position ∧ σ.source.position ≤ hi) ∧ ∀ {frame declared ρ},
      Opening setup frames id σ frame declared ρ → frame.finish ≤ hi) :
    (readWith setup attempt frames id τ).1 = (readWith setup attempt frames id σ).1 ∧
      State.Alike lo hi (readWith setup attempt frames id σ).2
        (readWith setup attempt frames id τ).2 :=
  Likeness.blind_same (fun hfailing => hfailing) (Likeness.read_with_blind hr ha hplaced
    (agreeing_knows hg ha hplaced) hblind frames id) h hσ

end

/-- Where the frame of `id` at `offset` ends: at its declared length, or at the end of the source.
An element whose length cannot be worked out has none. -/
def reach (setup : Setup μ) (id : ElementId) (offset : Nat) (σ : State μ) : Nat :=
  match (byteLength setup [⟨Grammar.root,0,σ.source.length⟩] id (σ.begun setup offset)).1 with
  | .ok (some length) => min σ.source.length (offset + length)
  | .ok none => σ.source.length
  | .error _ => offset

theorem begun_alike (setup : Setup μ) {σ τ : State μ} {offset last : Nat}
    (hσ : σ.source.InMemory) (hτ : τ.source.InMemory)
    (hsize : τ.source.data.size = σ.source.data.size)
    (hagree : ∀ i, offset ≤ i → i < last → τ.source.data[i]? = σ.source.data[i]?) :
    State.Alike offset last (σ.begun setup offset) (τ.begun setup offset) :=
  ⟨⟨hσ.moved offset,hτ.moved offset,rfl,hsize,hagree⟩,rfl,rfl,rfl,nofun⟩

theorem opening_reach {setup : Setup μ} {id : ElementId} {offset : Nat} {σ ρ : State μ}
    {frame : Frame} {declared : Option Nat}
    (h : Opening setup [⟨Grammar.root,0,σ.source.length⟩] id (σ.begun setup offset) frame declared
      ρ) : frame.finish ≤ max offset (reach setup id offset σ) := by
  obtain ⟨ρ',hlength⟩ := h.length
  have hstart : (σ.begun setup offset).source.position = offset := rfl
  rw [h.frame, limit_at_cons, hstart, reach, hlength]
  simp only [Frame.opened]
  cases declared <;> exact Nat.le_refl _

/-- Decoding an element comes to the same over any two sources in memory that are equally long and
agree from its offset up to where its frame ends. -/
theorem decode_element_confined {authored : Grammar} {setup : Setup μ}
    (hg : authored.resolve = .ok setup.grammar) (hr : setup.runtime = none) {σ τ : State μ}
    (hσ : σ.source.InMemory) (hτ : τ.source.InMemory)
    (hsize : τ.source.data.size = σ.source.data.size) (id : ElementId) (offset : Nat)
    (hagree : ∀ i, offset ≤ i → i < reach setup id offset σ →
      τ.source.data[i]? = σ.source.data[i]?) :
    (decodeElement setup id offset τ).1 = (decodeElement setup id offset σ).1 ∧
      (decodeElement setup id offset τ).2.history = (decodeElement setup id offset σ).2.history ∧
      (decodeElement setup id offset τ).2.values = (decodeElement setup id offset σ).2.values := by
  have hl := Grammar.resolve_linked hg
  have hlength : τ.source.length = σ.source.length := by
    rw [hσ.length, hτ.length, hsize]
  have halike : State.Alike offset (max offset (reach setup id offset σ))
      (σ.begun setup offset) (τ.begun setup offset) :=
    begun_alike setup hσ hτ hsize fun i hlo hhi => hagree i hlo (by omega)
  rw [decode_element_eq, decode_element_eq, hlength]
  unfold readInRoot
  cases setup.options.maxDepth - 1 with
  | zero => exact ⟨rfl,halike.history,halike.values⟩
  | succ room =>
    obtain ⟨hresult,hstate⟩ := read_with_blind hl hr (read_element_reader setup room)
      (read_element_placed hl) (fun hhi id => read_element_blind hl hr room hhi id)
      [⟨Grammar.root,0,σ.source.length⟩] id _ _ halike
      ⟨⟨Nat.le_refl _,Nat.le_max_left _ _⟩,fun hopen => opening_reach hopen⟩
    exact ⟨hresult,hstate.history,hstate.values⟩

def tickets : Grammar :=
  let g := (Grammar.new "tickets").add ((Element.struct "ticket").withLength (.literal 3))
  let g := (g.addChildren 1 [((Element.number "two").withLength (.literal 1)).withValue ⟨"two",2⟩,
    Element.text "text" (some .zeroTerminated)]).toOption.getD g
  g.setStart (.index 1)

theorem tickets_confined :
    reach (trial tickets true) 1 1 (bytesState #[7, 2, 65, 0, 9]) = 4 ∧
      ∃ v, (decodeElement (trial tickets true) 1 1 (bytesState #[7, 2, 65, 0, 9])).1 = .ok v ∧
        (decodeElement (trial tickets true) 1 1 (bytesState #[5, 2, 65, 0, 6])).1 = .ok v := by
  have hg : tickets.resolve = .ok (trial tickets true).grammar :=
    Grammar.resolve_sound (by decide +kernel)
  have hreach : reach (trial tickets true) 1 1 (bytesState #[7, 2, 65, 0, 9]) = 4 := by
    decide +kernel
  have hσ : (bytesState #[7, 2, 65, 0, 9]).source.InMemory := of_bytes_in_memory _
  have hτ : (bytesState #[5, 2, 65, 0, 6]).source.InMemory := of_bytes_in_memory _
  obtain ⟨v,τ,hv⟩ := run_ok
    (r := decodeElement (trial tickets true) 1 1 (bytesState #[7, 2, 65, 0, 9]))
    (by decide +kernel)
  have hsame := (decode_element_confined hg rfl hσ hτ rfl 1 1 fun i hlo hhi => ?_).1
  · rw [hv] at hsame ⊢
    exact ⟨hreach,v,rfl,hsame⟩
  · rw [hreach] at hhi
    obtain rfl | rfl | rfl : i = 1 ∨ i = 2 ∨ i = 3 := by omega
    all_goals rfl

end ByteGrammar
