import ByteGrammar.Proofs.Decode.Content
import ByteGrammar.Proofs.Decode.DataEnd
import ByteGrammar.Proofs.Decode.Elsewhere

/-!
# Strings up to a delimiter

A delimiter is looked for a stride at a time, and the cursor is put back behind it. Over bytes in
memory this comes to what a search through all bytes of the frame comes to, however many strides
they are: the string ends with the first delimiter, and a frame without one is too short for it.
-/

set_option autoImplicit false

namespace ByteGrammar

open Stepwise DecodeM Source Value

variable {μ : Type}

section
variable {delimiter : UInt8}

theorem up_to_eq (bytes : List UInt8) :
    upTo? delimiter bytes = (bytes.idxOf? delimiter).map fun p => bytes.take (p + 1) := by
  induction bytes with
  | nil => rfl
  | cons b bytes ih =>
    rw [upTo?, List.idxOf?_cons]
    by_cases hb : b == delimiter
    · rw [if_pos hb, if_pos hb]
      rfl
    · rw [if_neg hb, if_neg hb, ih, Option.map_map, Option.map_map]
      rfl

theorem up_to_append {first : List UInt8} (h : upTo? delimiter first = none)
    (later : List UInt8) :
    upTo? delimiter (first ++ later) = (upTo? delimiter later).map (first ++ ·) := by
  induction first with
  | nil => simp
  | cons b first ih =>
    rw [upTo?] at h
    by_cases hb : b == delimiter
    · rw [if_pos hb] at h
      cases h
    · rw [if_neg hb, Option.map_eq_none_iff] at h
      rw [List.cons_append, upTo?, if_neg hb, ih h, Option.map_map]
      rfl

theorem up_to_first {first found : List UInt8} (h : upTo? delimiter first = some found)
    (later : List UInt8) : upTo? delimiter (first ++ later) = some found := by
  induction first generalizing found with
  | nil => cases h
  | cons b first ih =>
    rw [upTo?] at h
    rw [List.cons_append, upTo?]
    by_cases hb : b == delimiter
    · rw [if_pos hb] at h ⊢
      exact h
    · rw [if_neg hb] at h ⊢
      obtain ⟨more,hmore,rfl⟩ := Option.map_eq_some_iff.mp h
      rw [ih hmore, Option.map_some]

end

section
variable {s : State μ}

/-- A search in strides comes to what a search of all the bytes comes to. -/
theorem scan_in_memory (hs : s.source.InMemory) (delimiter : UInt8) (rest strides : Nat)
    (hn : rest + strides * stride ≤ s.source.data.size - s.source.position) :
    ∃ place, scan delimiter rest strides s =
      (.ok (upTo? delimiter (s.source.ahead (rest + strides * stride))),s.moved place) := by
  induction strides generalizing s with
  | zero =>
    rw [Nat.zero_mul, Nat.add_zero] at hn ⊢
    rw [scan]
    by_cases hrest : rest = 0
    · refine ⟨s.source.position,?_⟩
      rw [if_pos hrest, hrest, ahead_zero]
      rfl
    · refine ⟨s.source.position + rest,?_⟩
      rw [if_neg hrest, bind_run, take_in_memory hs hn]
      rfl
  | succ strides ih =>
    have hcount : rest + (strides + 1) * stride = stride + (rest + strides * stride) := by
      rw [Nat.succ_mul]
      omega
    rw [hcount] at hn ⊢
    have htake := take_in_memory hs (n := stride) (by omega)
    rw [scan, bind_run, htake, ← take_then_ahead hs htake]
    dsimp only
    cases hfirst : upTo? delimiter (s.source.ahead stride) with
    | some found =>
      rw [up_to_first hfirst]
      exact ⟨_,rfl⟩
    | none =>
      obtain ⟨place,hlater⟩ := ih (s := s.moved (s.source.position + stride)) (hs.moved _)
        (show _ ≤ s.source.data.size - (s.source.position + stride) by omega)
      refine ⟨place,?_⟩
      rw [up_to_append hfirst]
      dsimp only
      rw [bind_run, hlater]
      rfl

end

def TextKind.delimiter? : TextKind → Option UInt8
  | .zeroTerminated => some 0
  | .delimited delimiter => some delimiter
  | .fixedLength | .counted => none

theorem drop_terminator_concat (terminator : UInt8) (bytes : List UInt8) :
    dropTerminator terminator (bytes ++ [terminator]) = bytes := by
  simp [dropTerminator]

theorem content_concat {kind : TextKind} {delimiter : UInt8} (h : kind.delimiter? = some delimiter)
    (bytes : List UInt8) : kind.content (bytes ++ [delimiter]) = bytes := by
  cases kind with
  | zeroTerminated =>
    cases h
    exact drop_terminator_concat 0 bytes
  | delimited =>
    cases h
    exact drop_terminator_concat delimiter bytes
  | _ => cases h

theorem take_idx {bytes : List UInt8} {b : UInt8} {p : Nat} (h : bytes.idxOf? b = some p) :
    p < bytes.length ∧ bytes.take (p + 1) = bytes.take p ++ [b] := by
  obtain ⟨hp,hb,-⟩ := List.idxOf?_eq_some_iff.mp h
  exact ⟨hp,by rw [List.take_succ_eq_append_getElem hp, hb]⟩

def Frame.unended (frame : Frame) (label : String) (place : Nat) : DecodeFault :=
  if frame.available place = 0 then .eof
  else .cutOff label place (frame.available place + 1) (frame.available place)

section
variable {setup : Setup μ} {frame : Frame} {id : ElementId} {declared : Option Nat}
  {delimiter : UInt8} {s : State μ}

theorem Backed.ahead_length (h : Backed frame s) :
    (s.source.ahead (frame.available s.source.position)).length =
      frame.available s.source.position := by
  rw [Source.ahead_length, Nat.min_eq_left h.room]

theorem read_delimited_searched (setup : Setup μ) (id : ElementId) (h : Backed frame s)
    (delimiter : UInt8) :
    ∃ place, readDelimited setup frame id delimiter s =
      match upTo? delimiter (s.source.ahead (frame.available s.source.position)) with
      | some found => (.ok found,s.moved (s.source.position + found.length))
      | none => (.error (frame.unended (setup.grammar.label id) s.source.position),
          s.moved place) := by
  have hall := Nat.mod_add_div' (frame.available s.source.position) stride
  obtain ⟨place,hscan⟩ := scan_in_memory h.memory delimiter
    (frame.available s.source.position % stride) (frame.available s.source.position / stride)
    (hall.trans_le h.room)
  rw [hall] at hscan
  by_cases hnone : frame.available s.source.position = 0
  · refine ⟨s.source.position,?_⟩
    simp only [readDelimited, bind_run, cursor_run, if_pos hnone, Frame.unended]
    rw [hnone, ahead_zero]
    rfl
  · refine ⟨place,?_⟩
    simp only [readDelimited, bind_run, cursor_run, if_neg hnone, Frame.unended, hscan]
    cases upTo? delimiter (s.source.ahead (frame.available s.source.position)) with
    | some found => rfl
    | none => rfl

theorem read_text_bytes_delimited (frame : Frame) (declared : Option Nat)
    (h : (setup.grammar.attributesOf id).textKind.delimiter? = some delimiter) :
    readTextBytes setup frame id declared = readDelimited setup frame id delimiter := by
  unfold readTextBytes
  cases hk : (setup.grammar.attributesOf id).textKind with
  | zeroTerminated =>
    rw [hk] at h
    cases h
    rfl
  | delimited =>
    rw [hk] at h
    cases h
    rfl
  | _ =>
    rw [hk] at h
    cases h

theorem read_text_searched (declared : Option Nat) (h : Backed frame s)
    (hkind : (setup.grammar.attributesOf id).textKind.delimiter? = some delimiter)
    (hv : setup.grammar.textValues id = []) :
    ∃ place, readText setup frame id declared s =
      match (s.source.ahead (frame.available s.source.position)).idxOf? delimiter with
      | some p => (.ok (Value.leaf id s.source.position (p + 1)),
          s.moved (s.source.position + (p + 1)))
      | none => (.error (frame.unended (setup.grammar.label id) s.source.position),
          s.moved place) := by
  obtain ⟨place,hread⟩ := read_delimited_searched setup id h delimiter
  refine ⟨place,?_⟩
  rw [read_text_eq, bind_run, cursor_run, read_text_bytes_delimited frame declared hkind, hv]
  dsimp only
  rw [bind_run, hread, up_to_eq]
  cases hp : (s.source.ahead (frame.available s.source.position)).idxOf? delimiter with
  | none => rfl
  | some p =>
    have hlength : ((s.source.ahead (frame.available s.source.position)).take (p + 1)).length =
        p + 1 := List.length_take_of_le (take_idx hp).1
    dsimp only [Option.map_some]
    rw [hlength]
    rfl

theorem render_searched {settings : TextSettings} (h : Backed frame s)
    (hk : setup.grammar.kind id = .text settings)
    (hkind : (setup.grammar.attributesOf id).textKind.delimiter? = some delimiter) {p : Nat}
    (hp : (s.source.ahead (frame.available s.source.position)).idxOf? delimiter = some p) :
    Gives s.source.data
      ((Value.leaf id s.source.position (p + 1)).render setup.encodings setup.grammar)
      (Text.decode setup.encodings (setup.grammar.attributesOf id).encoding
        ((s.source.ahead (frame.available s.source.position)).take p)) := by
  obtain ⟨hlt,htake⟩ := take_idx hp
  have hcovered : (Value.leaf id s.source.position (p + 1)).Covered s.source.data := by
    rw [Source.ahead_length] at hlt
    refine .inr ?_
    show s.source.position + (p + 1) ≤ s.source.data.size
    omega
  have hbytes : (Value.leaf id s.source.position (p + 1)).bytesIn s.source.data =
      (s.source.ahead (frame.available s.source.position)).take p ++ [delimiter] := by
    rw [h.ahead_length] at hlt
    rw [leaf_bytes, ← htake, ahead_take s.source hlt]
  have htext : (setup.grammar.attributesOf id).textOf setup.encodings
      ((Value.leaf id s.source.position (p + 1)).bytesIn s.source.data) =
        Text.decode setup.encodings (setup.grammar.attributesOf id).encoding
          ((s.source.ahead (frame.available s.source.position)).take p) := by
    rw [Attributes.textOf, hbytes, content_concat hkind]
  rw [Value.render, render_at_eq, renderWith, show (Value.leaf id s.source.position
    (p + 1)).element = id from rfl, hk, ← htext]
  exact map_gives _ (content_gives hcovered)

/-- Reading a string without fixed values that a delimiter ends comes to a plain search through the
bytes of its frame, which are those of the source from the cursor on, however many strides they are.
With the first delimiter at `p`, the string has `p + 1` bytes, the cursor is left behind them, and
what is rendered is the text of the `p` bytes before the delimiter. A frame without a delimiter is
one byte short of what is wanted, whatever stands behind it, and one without bytes is the end of
the data. Every frame that a decode over memory opens is `Backed`. -/
theorem delimited_searched (declared : Option Nat) {settings : TextSettings} (h : Backed frame s)
    (hk : setup.grammar.kind id = .text settings)
    (hkind : (setup.grammar.attributesOf id).textKind.delimiter? = some delimiter)
    (hv : setup.grammar.textValues id = []) :
    let available := frame.available s.source.position
    let bytes := s.source.ahead available
    bytes.length = available ∧
    (∀ p, bytes.idxOf? delimiter = some p →
      let v := Value.leaf id s.source.position (p + 1)
      let t := s.moved (s.source.position + (p + 1))
      readText setup frame id declared s = (.ok v,t) ∧
      State.render setup v t =
        (.ok (Text.decode setup.encodings (setup.grammar.attributesOf id).encoding
          (bytes.take p)),t)) ∧
    (0 < available → delimiter ∉ bytes →
      (readText setup frame id declared s).1 =
        .error (.cutOff (setup.grammar.label id) s.source.position (available + 1) available)) ∧
    (available = 0 → (readText setup frame id declared s).1 = .error .eof) := by
  intro available bytes
  obtain ⟨place,hread⟩ := read_text_searched declared h hkind hv
  refine ⟨h.ahead_length,fun p hp => ?_,fun hsome hmissing => ?_,fun hnone => ?_⟩
  · rw [hread, show _ = some p from hp]
    exact ⟨rfl,render_run (render_searched h hk hkind hp) ⟨h.memory.moved _,rfl⟩⟩
  · rw [hread, List.idxOf?_eq_none_iff.mpr hmissing]
    exact congrArg Except.error (if_neg (Nat.ne_of_gt hsome))
  · have hempty : s.source.ahead (frame.available s.source.position) = [] :=
      List.eq_nil_of_length_eq_zero (h.ahead_length.trans hnone)
    rw [hread, hempty]
    exact congrArg Except.error (if_pos hnone)

end

def lines : Grammar :=
  ((Grammar.new "lines").add (Element.text "line" (some (.delimited 59)))).setStart (.index 1)

def linesSetup : Setup Unit := Setup.plain lines

def longLine : State Unit := bytesState ((Array.replicate 300 97).push 59)

/-- A line reaches into the second stride up to its semicolon. In a frame that ends before the
semicolon, it is not found. -/
theorem long_line_searched :
    readText linesSetup ⟨1,0,301⟩ 1 none longLine = (.ok (Value.leaf 1 0 301),longLine.moved 301) ∧
    State.render linesSetup (Value.leaf 1 0 301) (longLine.moved 301) =
      (.ok (Text.decode Text.Encodings.common "UTF-8" (List.replicate 300 97)),longLine.moved 301) ∧
    (readText linesSetup ⟨1,0,300⟩ 1 none longLine).1 =
      .error (.cutOff "String<00 line>" 0 301 300) := by
  have hmemory : longLine.source.InMemory := of_bytes_in_memory _
  have hk : linesSetup.grammar.kind 1 = .text { kind := some (.delimited 59) } := by rfl
  have hkind : (linesSetup.grammar.attributesOf 1).textKind.delimiter? = some 59 := by
    decide +kernel
  have hv : linesSetup.grammar.textValues 1 = [] := by decide +kernel
  have hencoding : (linesSetup.grammar.attributesOf 1).encoding = "UTF-8" := by decide +kernel
  have hlabel : linesSetup.grammar.label 1 = "String<00 line>" := by decide +kernel
  have hahead : ∀ n, longLine.source.ahead n =
      (List.replicate 300 97 ++ [(59 : UInt8)]).take n := by
    intro n
    rw [ahead_eq, show longLine.source.data = (Array.replicate 300 97).push 59 from rfl,
      Array.toList_push, Array.toList_replicate]
    rfl
  have hwhole : (longLine.source.ahead 301).idxOf? 59 = some 300 := by
    rw [hahead]
    decide +kernel
  have hbefore : (longLine.source.ahead 301).take 300 = List.replicate 300 97 := by
    rw [hahead]
    decide +kernel
  have hshort : 59 ∉ longLine.source.ahead 300 := by
    rw [hahead]
    decide +kernel
  have hlong : Backed ⟨1,0,301⟩ longLine := ⟨hmemory,by decide +kernel⟩
  have hcut : Backed ⟨1,0,300⟩ longLine := ⟨hmemory,by decide +kernel⟩
  obtain ⟨-,hfound,-⟩ := delimited_searched none hlong hk hkind hv
  obtain ⟨-,-,hmissing,-⟩ := delimited_searched none hcut hk hkind hv
  obtain ⟨hread,hrender⟩ := hfound 300 hwhole
  refine ⟨hread,?_,?_⟩
  · rw [← hbefore, ← hencoding]
    exact hrender
  · rw [hlabel] at hmissing
    exact hmissing (by decide) hshort

/-- So wherever a decode over memory comes to such a string whose length, if it states one, can be
worked out, while one more value may be counted, it makes of it what a plain search through the
frame that is opened for it finds. -/
theorem Called.delimited {setup : Setup μ} {σ τ ρ : State μ} {room : Nat}
    {opened : List (Opened μ)} {id : ElementId} {declared : Option Nat} {delimiter : UInt8}
    {settings : TextSettings} (call : Called setup σ (room + 1) opened id τ)
    (hg : setup.grammar.Linked) (hσ : σ.source.InMemory)
    (hk : setup.grammar.kind id = .text settings)
    (hkind : (setup.grammar.attributesOf id).textKind.delimiter? = some delimiter)
    (hv : setup.grammar.textValues id = [])
    (hlength : byteLength setup (stackOf σ.source.length opened) id τ = (.ok declared,ρ))
    (hmore : τ.values < setup.options.maxValues) :
    let frame := Frame.opened id τ.source.position
      (limitAt (stackOf σ.source.length opened) τ) declared
    ∃ υ, readElement setup (room + 1) (stackOf σ.source.length opened) id τ =
      (match (τ.source.ahead (frame.available τ.source.position)).idxOf? delimiter with
        | some p => .ok (Value.leaf id τ.source.position (p + 1))
        | none => .error (frame.unended (setup.grammar.label id) τ.source.position),υ) := by
  intro frame
  have hquiet := (byte_length_quiet setup _ id).of_run hlength
  have hopening : Opening setup (stackOf σ.source.length opened) id τ frame declared
      (ρ.noted (.reading τ.source.position id)) :=
    ⟨rfl,⟨ρ,hlength⟩,hquiet.trans (State.noted_quiet ρ _)⟩
  have hτ : τ.source.InMemory := (called_held hg call).reader.in_memory hσ
  have hsource : ρ.source = τ.source := hquiet.source.eq hτ
  obtain ⟨place,hread⟩ := read_text_searched declared (call.backed hg hσ hopening) hkind hv
  rw [show (ρ.noted (.reading τ.source.position id)).source = τ.source from hsource] at hread
  cases hp : (τ.source.ahead (frame.available τ.source.position)).idxOf? delimiter with
  | none =>
    rw [hp] at hread
    rw [read_opened room hlength (by rw [readKind, hk]; exact hread)]
    exact ⟨_,rfl⟩
  | some p =>
    rw [hp] at hread
    have hvalid : (Value.leaf id τ.source.position (p + 1)).check setup.grammar = .ok () :=
      check_ok.mpr ⟨Resolved.known_of_kind (hk ▸ Kind.noConfusion),.inl rfl⟩
    obtain ⟨υ,hclose,-⟩ := closing_pass id hvalid
      (σ := (ρ.noted (.reading τ.source.position id)).moved (τ.source.position + (p + 1))) rfl
      (Nat.lt_of_le_of_lt (Nat.le_of_eq hquiet.values) hmore) τ.source.position
    rw [read_opened room hlength (by rw [readKind, hk]; exact hread)]
    exact ⟨υ,hclose⟩

end ByteGrammar
