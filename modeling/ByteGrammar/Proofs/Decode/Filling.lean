import ByteGrammar.Proofs.Decode.Conformance
import ByteGrammar.Proofs.Decode.Elsewhere
import ByteGrammar.Proofs.Decode.Remaining
import ByteGrammar.Proofs.Decode.Tally

/-!
# Fields that take what is left

A binary whose length is `remaining` is given the number of bytes that its structure has left. If it
counts its length in bytes it takes all of them, and nothing is left to be padded. If it counts
bits, as it does where it states no unit and stands in a structure that counts bits, the number of
bytes is taken for a number of bits.
-/

set_option autoImplicit false

namespace ByteGrammar

open Stepwise DecodeM Source Value

variable {μ : Type}

section
variable {setup : Setup μ} {frames : List Frame} {frame : Frame} {id : ElementId} {σ τ : State μ}
  {n : Nat} {v : Value}

/-- A binary without fixed values spans its length, whatever its bytes are. -/
theorem read_binary_span (hv : setup.grammar.binaryValues id = [])
    (hn : n ≤ frame.available σ.source.position) :
    readBinary setup frame id (some n) σ =
      (.ok (Value.leaf id σ.source.position n),σ.moved (σ.source.position + n)) := by
  have hclaim : claim setup frame id n σ = (.ok σ.source.position,σ) := by
    simp only [claim, bind_run, cursor_run, if_pos hn, pure_run]
  simp only [readBinary, requiredLength, bind_run, pure_run, hclaim, hv, List.isEmpty_nil, if_true]
  rfl

/-- A binary without fixed values is read if its length lies in the frame around it and one more
value may be counted. -/
theorem read_binary_whole {settings : BinarySettings}
    (hk : setup.grammar.kind id = .binary settings) (hv : setup.grammar.binaryValues id = [])
    (hlength : byteLength setup frames id σ = (.ok (some n),σ))
    (hn : σ.source.position + n ≤ limitAt frames σ) (hmore : σ.values < setup.options.maxValues)
    (room : Nat) :
    ∃ τ, readElement setup (room + 1) frames id σ =
        (.ok (Value.leaf id σ.source.position n),τ) ∧
      τ.source.position = σ.source.position + n := by
  have hframe : n ≤ (Frame.opened id σ.source.position (limitAt frames σ) (some n)).available
      (σ.noted (.reading σ.source.position id)).source.position := by
    show n ≤ max _ (min _ (σ.source.position + n)) - σ.source.position
    omega
  have hread := read_binary_span hv hframe
  have hvalid : (Value.leaf id σ.source.position n).check setup.grammar = .ok () :=
    check_ok.mpr ⟨Resolved.known_of_kind (hk ▸ Kind.noConfusion),.inl rfl⟩
  obtain ⟨τ,hclose,hclosing⟩ := closing_pass id hvalid
    (σ := (σ.noted (.reading σ.source.position id)).moved (σ.source.position + n)) rfl hmore
    σ.source.position
  refine ⟨τ,?_,hclosing.position⟩
  rw [read_opened room hlength (by rw [readKind, hk]; exact hread)]
  exact hclose

theorem bytes_of_bytes (hunit : (setup.grammar.attributesOf id).unit = .byte) (n : Nat) :
    bytesOf setup id n = .ok n := by
  rw [bytesOf, if_neg (Int.not_lt.mpr (Int.natCast_nonneg n)), hunit]
  rfl

theorem bytes_of_bits (hunit : (setup.grammar.attributesOf id).unit = .bit) (n : Nat) :
    bytesOf setup id n =
      if n % 8 = 0 then .ok (n / 8) else .error (.unsupportedBits (setup.grammar.label id) n) := by
  rw [bytesOf, if_neg (Int.not_lt.mpr (Int.natCast_nonneg n)), hunit]
  dsimp only
  by_cases hm : n % 8 = 0
  · rw [if_pos hm, if_pos (by omega)]
    rfl
  · rw [if_neg hm, if_neg (by omega)]

/-- Within a structure that states its length as a number, `remaining` is the number of bytes up to
where that length ends. -/
theorem left_in_literal {g : Resolved} {history : List Value} {outer : List Frame} {place : Nat}
    {q : Int} (hs : (g.kind frame.element).isStruct)
    (hq : (g.attributesOf frame.element).length = some (.literal q))
    (hbytes : Quantity.inBytes (g.attributesOf frame.element).unit q = pure (n : Int))
    (hn : n < wordCount 63) (hstart : frame.start ≤ place) (hplace : place ≤ frame.start + n) :
    Quantity.leftIn g history (frame :: outer) place =
      pure ((frame.start + n - place : Nat) : Int) := by
  have hextent : Quantity.extentOf g history frame (Quantity.leftIn g history outer frame.start) =
      pure (n : Int) := by
    rw [Quantity.extentOf, hq]
    exact hbytes
  have hread : place - frame.start < wordCount 63 := by omega
  have hsaturate := Quantity.saturate_left hn hread
  have hleft : (n : Int) - (place - frame.start : Nat) = (frame.start + n - place : Nat) := by
    omega
  rw [Quantity.left_in_cons, if_pos hs, hextent, pure_bind, hsaturate, hleft]

end

section
variable {setup : Setup μ} {σ χ : State μ} {room n : Nat} {outer : List (Opened μ)} {o : Opened μ}
  {child : ElementId}

/-- Where a member is read the cursor is not before its structure, whose frame is as long as the
structure states, if that much lies in the frame around it. -/
theorem Called.framed (call : Called setup σ room (o :: outer) child χ)
    (hs : (setup.grammar.kind o.frame.element).isStruct)
    (hn : n ∈ setup.grammar.literalBytes? o.frame.element)
    (hfits : o.frame.start + n ≤ limitAt (stackOf σ.source.length outer) o.since) :
    o.frame.start ≤ χ.source.position ∧ o.frame.finish = o.frame.start + n ∧
      ∃ q, (setup.grammar.attributesOf o.frame.element).length = some (.literal q) ∧
        Quantity.inBytes (setup.grammar.attributesOf o.frame.element).unit q = pure (n : Int) := by
  cases call with
  | target call opening kind linked =>
    rename_i id ρ frame declared link
    have hid : frame.element = id := by rw [opening.frame]; rfl
    rw [hid, kind] at hs
    cases hs
  | member call opening kind search hmember hmost open_ hleast =>
    rename_i id ρ υ ω φ frame declared settings s most least
    have hid : frame.element = id := by rw [opening.frame]; rfl
    have hplace : χ.source.position = frame.start + s.consumed :=
      (child_quiet hmost hleast).position
    rw [hid] at hn ⊢
    have hdeclared := opening.literal hn
    obtain ⟨ρ',hlength⟩ := opening.length
    refine ⟨hplace ▸ Nat.le_add_right _ _,?_,?_⟩
    · rw [opening.frame, hdeclared] at hfits ⊢
      simp only [Frame.opened] at hfits ⊢
      omega
    · cases hq : (setup.grammar.attributesOf id).length with
      | none => simp [Resolved.literalBytes?, hq] at hn
      | some q =>
        obtain ⟨k,_,bytes,hk,hbytes,hsame⟩ := byte_length_ok hq hlength
        rw [hdeclared] at hsame
        cases hsame
        cases q with
        | literal q =>
          rw [evaluate_literal] at hk
          cases hk
          exact ⟨_,rfl,bytes_of_in_bytes hbytes⟩
        | _ => simp [Resolved.literalBytes?, hq] at hn

/-- So where a member asks for `remaining`, it is the number of bytes that its structure has
left. -/
theorem Called.left (call : Called setup σ room (o :: outer) child χ)
    (hs : (setup.grammar.kind o.frame.element).isStruct)
    (hn : n ∈ setup.grammar.literalBytes? o.frame.element) (hword : n < wordCount 63)
    (hfits : o.frame.start + n ≤ limitAt (stackOf σ.source.length outer) o.since)
    (hplace : χ.source.position ≤ o.frame.start + n) :
    evaluate setup (stackOf σ.source.length (o :: outer)) child .remaining χ =
      (.ok ((o.frame.start + n - χ.source.position : Nat) : Int),χ) := by
  obtain ⟨hstart,-,q,hq,hbytes⟩ := call.framed hs hn hfits
  have hleft : Quantity.remaining.eval setup.grammar χ.history
      (stackOf σ.source.length (o :: outer)) χ.source.position =
        pure ((o.frame.start + n - χ.source.position : Nat) : Int) :=
    left_in_literal hs hq hbytes hword hstart hplace
  rw [evaluate_run, hleft]
  rfl

/-- A structure states its length as a number, so many bytes, and they lie in the frame around it.
Wherever a decode reads a binary of it whose length is `remaining`, which has no fixed values, while
the structure has bytes left and the limits are not reached, the binary takes them all if its unit
is the byte: it ends where the structure does, which is not padded then. If its unit is the bit, it
takes an eighth of them, if they are so many, and cannot be read otherwise. -/
theorem remaining_fills {left : Nat} (call : Called setup σ (room + 1) (o :: outer) child χ)
    (hs : (setup.grammar.kind o.frame.element).isStruct)
    (hn : n ∈ setup.grammar.literalBytes? o.frame.element) (hword : n < wordCount 63)
    (hfits : o.frame.start + n ≤ limitAt (stackOf σ.source.length outer) o.since)
    {settings : BinarySettings} (hk : setup.grammar.kind child = .binary settings)
    (hv : setup.grammar.binaryValues child = [])
    (hrem : (setup.grammar.attributesOf child).length = some .remaining)
    (hplace : χ.source.position + left = o.frame.start + n) (hleft : 0 < left)
    (hmore : χ.values < setup.options.maxValues) :
    ((setup.grammar.attributesOf child).unit = .byte →
      ∃ v τ, readElement setup (room + 1) (stackOf σ.source.length (o :: outer)) child χ =
          (.ok v,τ) ∧ v.element = child ∧ v.offset = χ.source.position ∧
        v.finish = o.frame.start + n ∧ τ.source.position = o.frame.start + n ∧
        paddingOf setup o.frame o.frame.element (some n) (v.finish - o.frame.start) = pure []) ∧
    ((setup.grammar.attributesOf child).unit = .bit → left % 8 = 0 →
      ∃ τ, readElement setup (room + 1) (stackOf σ.source.length (o :: outer)) child χ =
        (.ok (Value.leaf child χ.source.position (left / 8)),τ)) ∧
    ((setup.grammar.attributesOf child).unit = .bit → left % 8 ≠ 0 →
      readElement setup (room + 1) (stackOf σ.source.length (o :: outer)) child χ =
        (.error (.unsupportedBits (setup.grammar.label child) left),χ)) := by
  have hend := (call.framed hs hn hfits).2.1
  have hvalue := call.left hs hn hword hfits (by omega)
  rw [show o.frame.start + n - χ.source.position = left by omega] at hvalue
  have hlimit : limitAt (stackOf σ.source.length (o :: outer)) χ = χ.source.position + left :=
    hend.trans hplace.symm
  refine ⟨fun hunit => ?_,fun hunit hm => ?_,fun hunit hm => ?_⟩
  · obtain ⟨τ,hread,hposition⟩ := read_binary_whole hk hv
      (byte_length_run hrem hvalue (bytes_of_bytes hunit left)) (Nat.le_of_eq hlimit.symm) hmore
      room
    refine ⟨_,τ,hread,rfl,rfl,hplace,hposition.trans hplace,?_⟩
    have hall : n ≤ (Value.leaf child χ.source.position left).finish - o.frame.start := by
      show n ≤ χ.source.position + left - o.frame.start
      omega
    simp only [paddingOf, if_pos hall]
  · have hbytes : bytesOf setup child left = .ok (left / 8) := by
      rw [bytes_of_bits hunit, if_pos hm]
    obtain ⟨τ,hread,-⟩ := read_binary_whole hk hv (byte_length_run hrem hvalue hbytes)
      (by rw [hlimit]; omega) hmore room
    exact ⟨τ,hread⟩
  · have hbytes : bytesOf setup child left =
        .error (.unsupportedBits (setup.grammar.label child) left) := by
      rw [bytes_of_bits hunit, if_neg hm]
    exact read_unmeasured (byte_length_run hrem hvalue hbytes) room

end

def measured (unit : LengthUnit) (scale : Int) : Grammar :=
  let record := ((Element.struct "record").withLength (.literal (4 * scale))).withUnit unit
  let g := (Grammar.new "measured").add record
  let g := (g.addChildren 1 [(Element.number "head").withLength (.literal scale),
    (Element.binary "tail").withLength .remaining]).toOption.getD g
  g.setStart (.index 1)

def measuredSetup (unit : LengthUnit) (scale : Int) : Setup Unit :=
  Setup.plain (measured unit scale)

def measuredBytes : State Unit := bytesState #[1, 2, 3, 4]

def measuredOpened (unit : LengthUnit) (scale : Int) : Opened Unit :=
  { frame := ⟨1,0,4⟩, since := measuredBytes.begun (measuredSetup unit scale) 0 }

def headRead (unit : LengthUnit) (scale : Int) : Except DecodeFault Value × State Unit :=
  readElement (measuredSetup unit scale) 30 (stackOf 4 [measuredOpened unit scale]) 2
    ((measuredOpened unit scale).since.moved 0)

def tailState (unit : LengthUnit) (scale : Int) : State Unit :=
  (headRead unit scale).2.moved 1

theorem measured_called {unit : LengthUnit} {scale : Int}
    (struct : ((measuredSetup unit scale).grammar.kind 1).isStruct)
    (members : (measuredSetup unit scale).grammar.membersOf 1 = [2, 3])
    (once : ∀ id ∈ [2, 3],
      ((measuredSetup unit scale).grammar.attributesOf id).least = .literal 1 ∧
        ((measuredSetup unit scale).grammar.attributesOf id).most = .literal 1)
    (four : (byteLength (measuredSetup unit scale) (stackOf (μ := Unit) 4 []) 1
      (measuredOpened unit scale).since).1.toOption = some (some 4))
    (head : (headRead unit scale).1.toOption.map Value.length = some 1) :
    Called (measuredSetup unit scale) measuredBytes 30 [measuredOpened unit scale] 3
      (tailState unit scale) := by
  obtain ⟨v,hv,hread⟩ := read_of_length head
  have hcall : Called (measuredSetup unit scale) measuredBytes 31 [] 1
      (measuredOpened unit scale).since := .element 1 0
  have hopening : Opening (measuredSetup unit scale) (stackOf 4 ([] : List (Opened Unit))) 1
      (measuredOpened unit scale).since ⟨1,0,4⟩ (some 4) (measuredOpened unit scale).since :=
    ⟨rfl,⟨_,run_of_option four⟩,State.Quiet.refl _⟩
  have hnext := Called.next hcall hopening struct members once hread
  rwa [hv] at hnext

theorem tail_fills : ∃ v τ, readElement (measuredSetup .byte 1) 30
      (stackOf 4 [measuredOpened .byte 1]) 3 (tailState .byte 1) = (.ok v,τ) ∧
    v.offset = 1 ∧ v.finish = 4 := by
  have hcall : Called (measuredSetup .byte 1) measuredBytes 30 [measuredOpened .byte 1] 3
      (tailState .byte 1) :=
    measured_called (by decide +kernel) (by decide +kernel) (by decide +kernel)
      (by decide +kernel) (by decide +kernel)
  have hkind : (measuredSetup .byte 1).grammar.kind 3 = .binary {} := by rfl
  have hplace : (tailState .byte 1).source.position + 3 = 0 + 4 := rfl
  obtain ⟨v,τ,hread,-,hoffset,hfinish,-⟩ := (remaining_fills (n := 4) hcall
    (by decide +kernel) (by decide +kernel) (by decide) (by decide) hkind (by decide +kernel)
    (by decide +kernel) hplace (by decide) (by decide +kernel)).1 (by decide +kernel)
  exact ⟨v,τ,hread,hoffset,hfinish⟩

/-- In bits, the tail cannot be read: it states no unit of its own, has no base and stands in a
record of thirty-two bits, of which three bytes are left, and three bits are asked for. -/
theorem tail_in_bits :
    (measured .bit 8).resolve = .ok (measuredSetup .bit 8).grammar ∧
    Called (measuredSetup .bit 8) measuredBytes 30 [measuredOpened .bit 8] 3 (tailState .bit 8) ∧
    ((measuredSetup .bit 8).grammar.attributesOf 1).length = some (.literal 32) ∧
    (measuredSetup .bit 8).grammar.literalBytes? 1 = some 4 ∧
    ((measuredSetup .bit 8).grammar.kind 3).name = "Binary" ∧
    ((measuredSetup .bit 8).grammar.attributesOf 3).length = some .remaining ∧
    (measuredSetup .bit 8).grammar.binaryValues 3 = [] ∧
    ((measuredSetup .bit 8).grammar.element 3).unit = none ∧
    ((measuredSetup .bit 8).grammar.attributesOf 3).base = none ∧
    (tailState .bit 8).source.position = 1 ∧
    (readElement (measuredSetup .bit 8) 30 (stackOf 4 [measuredOpened .bit 8]) 3
      (tailState .bit 8)).1 = .error (.unsupportedBits "Binary<00 tail>" 3) ∧
    (decode (measuredSetup .bit 8) measuredBytes).1 =
      .error (.unsupportedBits "Binary<00 tail>" 3) := by
  refine ⟨Grammar.resolve_sound (by decide +kernel),measured_called (by decide +kernel)
    (by decide +kernel) (by decide +kernel) (by decide +kernel) (by decide +kernel),
    by decide +kernel,by decide +kernel,by decide +kernel,by decide +kernel,by decide +kernel,
    by decide +kernel,by decide +kernel,rfl,fault_of_some.mp (by decide +kernel),
    fault_of_some.mp (by decide +kernel)⟩

end ByteGrammar
