import ByteGrammar.Proofs.Decode.Reading
import ByteGrammar.Proofs.Resolved.Beside
import ByteGrammar.Proofs.Value.Tree

/-!
# Leaves under another grammar

The elements of a grammar may stand in other places of another one, with what their attributes say.
A decode by the other grammar then evaluates the same quantities and reads the same leaves, each
under the label that its element has there.
-/

set_option autoImplicit false

namespace ByteGrammar

open Stepwise DecodeM Source

variable {μ α β : Type}

namespace Value

mutual

def relabelled (ρ : Nat → Nat) : Value → Value
  | ⟨element, offset, length, order, matched, children⟩ =>
    ⟨ρ element, offset, length, order, matched, relabelledAll ρ children⟩

def relabelledAll (ρ : Nat → Nat) : List Value → List Value
  | [] => []
  | v :: rest => relabelled ρ v :: relabelledAll ρ rest

end

theorem relabelled_all (ρ : Nat → Nat) (vs : List Value) :
    relabelledAll ρ vs = vs.map (relabelled ρ) := by
  induction vs with
  | nil => rfl
  | cons v rest ih => rw [relabelledAll, ih, List.map_cons]

theorem relabelled_eq (ρ : Nat → Nat) (v : Value) : v.relabelled ρ =
    { v with element := ρ v.element, children := v.children.map (relabelled ρ) } := by
  obtain ⟨element,offset,length,order,matched,children⟩ := v
  rw [relabelled, relabelled_all]

section
variable (ρ : Nat → Nat) (v : Value)

@[simp] theorem relabelled_element : (v.relabelled ρ).element = ρ v.element := by
  rw [relabelled_eq]

@[simp] theorem relabelled_offset : (v.relabelled ρ).offset = v.offset := by
  rw [relabelled_eq]

@[simp] theorem relabelled_length : (v.relabelled ρ).length = v.length := by
  rw [relabelled_eq]

@[simp] theorem relabelled_order : (v.relabelled ρ).order = v.order := by
  rw [relabelled_eq]

@[simp] theorem relabelled_total (vs : List Value) :
    totalLength (vs.map (relabelled ρ)) = totalLength vs := by
  induction vs with
  | nil => rfl
  | cons v vs ih => simp [ih]

theorem relabelled_spanning (id : Nat) (offset : Nat) (vs : List Value) :
    (spanning id offset vs).relabelled ρ = spanning (ρ id) offset (vs.map (relabelled ρ)) := by
  rw [relabelled_eq, spanning, spanning, relabelled_total]

end

end Value

def Frame.relabelled (ρ : Nat → Nat) (frame : Frame) : Frame :=
  { frame with element := ρ frame.element }

theorem Frame.relabelled_available (ρ : Nat → Nat) (frame : Frame) (place : Nat) :
    (frame.relabelled ρ).available place = frame.available place := rfl

def Setup.over (setup : Setup μ) (g : Resolved) : Setup μ := { setup with grammar := g }

structure State.Relabelled (ρ : Nat → Nat) (surplus : Nat) (σ τ : State μ) : Prop where
  source : τ.source = σ.source
  history : τ.history = σ.history.map (Value.relabelled ρ)
  order : τ.order = σ.order
  values : τ.values = σ.values + surplus

abbrev Copies (ρ : Nat → Nat) (surplus : Nat) (f : α → β) (m : DecodeM μ α) (n : DecodeM μ β) :
    Prop := Mirrors (State.Relabelled ρ surplus) f m n

abbrev Concurs (ρ : Nat → Nat) (surplus : Nat) (m n : DecodeM μ α) : Prop :=
  Copies ρ surplus id m n

namespace Resolved

theorem label_known {g : Resolved} {id : Nat} (h : id < g.size) :
    g.label id = (g.element id).label := by
  obtain ⟨node,hn⟩ : ∃ node, g.grammar.nodes[id]? = some node :=
    ⟨_,Array.getElem?_eq_getElem h⟩
  have he : g.grammar.element? id = some node.element := by
    rw [Grammar.element?, hn, Option.map_some]
  rw [label, element, Grammar.label, Grammar.label?, Grammar.element, he, Option.map_some,
    Option.getD_some, Option.getD_some]

namespace Moves

section
variable {g g' : Resolved} {ρ : Nat → Nat} (h : g.Moves ρ g')

include h

theorem kind (id : Nat) : g'.kind (ρ id) = g.kind id := congrArg Element.kind (h.element id)

theorem label {id : Nat} (hid : id < g.size) : g'.label (ρ id) = g.label id := by
  rw [label_known hid, label_known (h.known hid), h.element]

theorem number_values (id : Nat) : g'.numberValues (ρ id) = g.numberValues id := by
  simp only [numberValues, h.attributes, Attributes.moved, h.kind]

theorem binary_values (id : Nat) : g'.binaryValues (ρ id) = g.binaryValues id := by
  simp only [binaryValues, h.attributes, Attributes.moved, h.kind]

theorem text_values (id : Nat) : g'.textValues (ρ id) = g.textValues id := by
  simp only [textValues, h.attributes, Attributes.moved, h.kind]

theorem script_holder (id : Nat) : g'.scriptHolder? (ρ id) = (g.scriptHolder? id).map ρ := by
  simp only [scriptHolder?, h.kind, h.attributes]
  cases g.kind id <;> rfl

theorem script (id : Nat) : g'.script? (ρ id) = g.script? id := by
  rw [script?, script?, h.script_holder]
  cases g.scriptHolder? id with
  | none => rfl
  | some holder => simp [h.kind]

theorem latest (name : String) (history : List Value) :
    latest? g' name (history.map (Value.relabelled ρ)) =
      (latest? g name history).map (Value.relabelled ρ) := by
  simp [latest?, List.find?_map, h.element]

theorem read_int (v : Value) : (v.relabelled ρ).readInt g' = v.readInt g := by
  have hlabel : g.kind v.element ≠ .grammar → g'.label (ρ v.element) = g.label v.element := by
    intro hk
    obtain ⟨e,he⟩ := Option.isSome_iff_exists.mp (known_of_kind hk)
    exact h.label (Grammar.element_known he)
  simp only [Value.readInt, Value.relabelled_element, Value.relabelled_offset,
    Value.relabelled_length, Value.relabelled_order, h.kind, h.attributes, h.element,
    Attributes.moved]
  cases hk : g.kind v.element with
  | number settings => rw [hlabel (by simp [hk])]
  | offset settings => rw [hlabel (by simp [hk])]
  | _ => rfl

theorem previous (history : List Value) (name : String) :
    Quantity.previous g' (history.map (Value.relabelled ρ)) name =
      Quantity.previous g history name := by
  rw [Quantity.previous, Quantity.previous, h.latest]
  cases latest? g name history with
  | none => rfl
  | some v => simp only [Option.map_some, Value.relabelled_element, h.kind, h.read_int]

theorem eval_with (history : List Value) (left : EvalM Int) (q : Quantity) :
    q.evalWith g' (history.map (Value.relabelled ρ)) left = q.evalWith g history left := by
  cases q with
  | prev name => exact h.previous history name
  | _ => rfl

theorem left_in (history : List Value) (frames : List Frame) (place : Nat) :
    Quantity.leftIn g' (history.map (Value.relabelled ρ)) (frames.map (Frame.relabelled ρ)) place =
      Quantity.leftIn g history frames place := by
  induction frames generalizing place with
  | nil => rfl
  | cons frame outer ih =>
    simp only [List.map_cons, Quantity.leftIn, Frame.relabelled, h.kind, h.attributes,
      Attributes.moved]
    rw [ih, ih]
    simp only [h.eval_with]

/-- A quantity is worth the same under both grammars. -/
theorem eval (history : List Value) (frames : List Frame) (place : Nat) (q : Quantity) :
    q.eval g' (history.map (Value.relabelled ρ)) (frames.map (Frame.relabelled ρ)) place =
      q.eval g history frames place := by
  rw [Quantity.eval, Quantity.eval, h.left_in, h.eval_with]

end

end Moves
end Resolved

section
variable {ρ : Nat → Nat} {surplus : Nat}

theorem cursor_concurs : Concurs ρ surplus (cursor : DecodeM μ Nat) cursor :=
  fun _ _ h => ⟨by rw [cursor_run, cursor_run, h.source]; rfl,h⟩

theorem source_length_concurs :
    Concurs ρ surplus (sourceLength : DecodeM μ Nat) sourceLength :=
  fun _ _ h => ⟨congrArg (fun s : Source => Except.ok s.length) h.source,h⟩

theorem State.Relabelled.moved {σ τ : State μ} (h : State.Relabelled ρ surplus σ τ)
    (place : Nat) : State.Relabelled ρ surplus (σ.moved place) (τ.moved place) :=
  ⟨congrArg (fun s : Source => { s with position := place }) h.source,h.history,h.order,h.values⟩

theorem seek_concurs (place : Nat) :
    Concurs ρ surplus (seekTo place : DecodeM μ Unit) (seekTo place) :=
  fun _ _ h => ⟨rfl,h.moved place⟩

theorem log_concurs (event event' : Event) :
    Concurs ρ surplus (log event : DecodeM μ Unit) (log event') :=
  fun _ _ h => ⟨rfl,h.source,h.history,h.order,h.values⟩

theorem restore_concurs (saved : List Value) : Concurs ρ surplus
    (restore saved : DecodeM μ Unit) (restore (saved.map (Value.relabelled ρ))) :=
  fun _ _ h => ⟨rfl,h.source,rfl,h.order,h.values⟩

theorem order_of_concurs (endian : Endian) :
    Concurs ρ surplus (orderOf endian : DecodeM μ ByteOrder) (orderOf endian) := by
  intro σ τ h
  rw [order_of_run, order_of_run, h.order]
  exact ⟨rfl,h⟩

theorem outcome_copies {f : α → β} {m : DecodeM μ α} {n : DecodeM μ β}
    (h : Copies ρ surplus f m n) : Copies ρ surplus (Except.map f) (outcome m) (outcome n) := by
  intro σ τ hst
  obtain ⟨hresult,hstate⟩ := h σ τ hst
  rw [outcome_run, outcome_run]
  exact ⟨congrArg Except.ok hresult,hstate⟩

theorem take_concurs (count : Nat) :
    Concurs ρ surplus (take count : DecodeM μ (List UInt8)) (take count) := by
  intro σ τ h
  rw [take_run, take_run, h.source]
  rcases Source.read count σ.source with ⟨_ | _, source⟩ <;>
    exact ⟨rfl,rfl,h.history,h.order,h.values⟩

theorem scan_concurs (delimiter : UInt8) (rest strides : Nat) : Concurs ρ surplus
    (scan delimiter rest strides : DecodeM μ _) (scan delimiter rest strides) := by
  induction strides with
  | zero =>
    rw [scan]
    split
    · exact pure_mirrors rfl
    · exact bind_mirrors (take_concurs rest) fun bytes => pure_mirrors rfl
  | succ strides ih =>
    rw [scan]
    refine bind_mirrors (take_concurs stride) fun bytes => ?_
    dsimp only [id]
    split
    · exact pure_mirrors rfl
    · exact bind_mirrors ih fun found => pure_mirrors rfl

end

section
variable {setup : Setup μ} {g' : Resolved} {ρ : Nat → Nat} {surplus : Nat}
  (hm : setup.grammar.Moves ρ g') {id : Nat} (hid : id < setup.grammar.size)

include hm hid

theorem evaluate_concurs (frames : List Frame) (q : Quantity) : Concurs ρ surplus
    (evaluate setup frames id q)
    (evaluate (setup.over g') (frames.map (Frame.relabelled ρ)) (ρ id) q) := by
  intro σ τ h
  have heval := hm.eval σ.history frames σ.source.position q
  have hlabel : (setup.over g').grammar.label (ρ id) = setup.grammar.label id := hm.label hid
  rw [evaluate_run, evaluate_run, h.source, h.history, hlabel,
    show (setup.over g').grammar = g' from rfl, heval]
  rcases q.eval setup.grammar σ.history frames σ.source.position σ.source with
    ⟨_ | _, source⟩ <;> exact ⟨rfl,rfl,rfl,h.order,h.values⟩

theorem bytes_of_over (n : Int) : bytesOf (setup.over g') (ρ id) n = bytesOf setup id n := by
  simp only [bytesOf, Setup.over, hm.label hid, hm.attributes, Attributes.moved]

theorem byte_length_concurs (frames : List Frame) : Concurs ρ surplus
    (byteLength setup frames id)
    (byteLength (setup.over g') (frames.map (Frame.relabelled ρ)) (ρ id)) := by
  have hattributes : ((setup.over g').grammar.attributesOf (ρ id)).length =
      (setup.grammar.attributesOf id).length := by
    simp only [Setup.over, hm.attributes, Attributes.moved]
  cases hl : (setup.grammar.attributesOf id).length with
  | none =>
    rw [byte_length_none hl, byte_length_none (hattributes.trans hl)]
    exact pure_mirrors rfl
  | some q =>
    rw [byte_length_some hl, byte_length_some (hattributes.trans hl)]
    refine bind_mirrors (evaluate_concurs hm hid frames q) fun n => ?_
    dsimp only [id_eq]
    rw [bytes_of_over hm hid]
    cases bytesOf setup id n with
    | ok bytes => exact pure_mirrors rfl
    | error fault => exact throw_mirrors _

theorem bound_concurs {bound : Attributes → Quantity} (hbound : ∀ a, bound (a.moved ρ) = bound a)
    (reading : Int → α) (frames : List Frame) : Concurs ρ surplus
    (boundOf setup frames id bound reading)
    (boundOf (setup.over g') (frames.map (Frame.relabelled ρ)) (ρ id) bound reading) := by
  have hsame : bound ((setup.over g').grammar.attributesOf (ρ id)) =
      bound (setup.grammar.attributesOf id) := by
    simp only [Setup.over, hm.attributes, hbound]
  rw [boundOf, boundOf, hsame]
  exact bind_mirrors (evaluate_concurs hm hid frames _) fun n => pure_mirrors rfl

theorem required_length_concurs (declared : Option Nat) : Concurs ρ surplus
    (requiredLength setup id declared) (requiredLength (setup.over g') (ρ id) declared) := by
  cases declared with
  | none =>
    simp only [requiredLength, Setup.over, hm.label hid]
    exact throw_mirrors _
  | some n => exact pure_mirrors rfl

theorem integer_length_concurs (declared : Option Nat) : Concurs ρ surplus
    (integerLength setup id declared) (integerLength (setup.over g') (ρ id) declared) := by
  refine bind_mirrors (required_length_concurs hm hid declared) fun n => ?_
  simp only [id_eq, Setup.over, hm.label hid]
  split
  · exact throw_bind_mirrors _
  · exact pure_mirrors rfl

theorem claim_concurs (frame : Frame) (wanted : Nat) : Concurs ρ surplus
    (claim setup frame id wanted)
    (claim (setup.over g') (frame.relabelled ρ) (ρ id) wanted) := by
  refine bind_mirrors cursor_concurs fun start => ?_
  simp only [id_eq, Setup.over, hm.label hid]
  rw [frame.relabelled_available ρ]
  split
  · exact pure_mirrors rfl
  · split <;> exact throw_mirrors _

theorem match_fixed_copies (values : List (Fixed α)) (isMatch : α → Bool) (content : String)
    (shown : α → String) {v : Value} (hv : v.element = id) : Copies ρ surplus (Value.relabelled ρ)
    (matchFixed setup values isMatch content shown v)
    (matchFixed (setup.over g') values isMatch content shown (v.relabelled ρ)) := by
  subst hv
  simp only [matchFixed, Setup.over, Value.relabelled_element, hm.label hid, hm.attributes,
    Attributes.moved]
  split
  · exact pure_mirrors rfl
  · split
    · exact pure_mirrors (by simp only [Value.relabelled_eq])
    · split
      · exact throw_mirrors _
      · exact pure_mirrors rfl

theorem read_number_copies (frame : Frame) (declared : Option Nat) :
    Copies ρ surplus (Value.relabelled ρ) (readNumber setup frame id declared)
      (readNumber (setup.over g') (frame.relabelled ρ) (ρ id) declared) := by
  refine bind_mirrors (integer_length_concurs hm hid declared) fun length => ?_
  refine bind_mirrors (claim_concurs hm hid frame _) fun start => ?_
  refine bind_mirrors (take_concurs _) fun bytes => ?_
  simp only [id_eq, Setup.over, hm.label hid, hm.attributes, Attributes.moved, hm.number_values]
  refine bind_mirrors (order_of_concurs _) fun order => ?_
  dsimp only [id_eq]
  split
  · exact throw_mirrors _
  · exact match_fixed_copies hm hid _ _ _ _ rfl

theorem read_offset_copies (frame : Frame) (declared : Option Nat) :
    Copies ρ surplus (Value.relabelled ρ) (readOffset setup frame id declared)
      (readOffset (setup.over g') (frame.relabelled ρ) (ρ id) declared) := by
  refine bind_mirrors (integer_length_concurs hm hid declared) fun length => ?_
  refine bind_mirrors (claim_concurs hm hid frame _) fun start => ?_
  refine bind_mirrors (seek_concurs _) fun _ => ?_
  simp only [id_eq, Setup.over, hm.attributes, Attributes.moved]
  exact bind_mirrors (order_of_concurs _) fun order => pure_mirrors rfl

theorem read_binary_copies (frame : Frame) (declared : Option Nat) :
    Copies ρ surplus (Value.relabelled ρ) (readBinary setup frame id declared)
      (readBinary (setup.over g') (frame.relabelled ρ) (ρ id) declared) := by
  refine bind_mirrors (required_length_concurs hm hid declared) fun length => ?_
  refine bind_mirrors (claim_concurs hm hid frame _) fun start => ?_
  simp only [id_eq, Setup.over, hm.binary_values]
  split
  · exact bind_mirrors (seek_concurs _) fun _ => pure_mirrors rfl
  · exact bind_mirrors (take_concurs _) fun bytes => match_fixed_copies hm hid _ _ _ _ rfl

theorem read_delimited_concurs (frame : Frame) (delimiter : UInt8) : Concurs ρ surplus
    (readDelimited setup frame id delimiter)
    (readDelimited (setup.over g') (frame.relabelled ρ) (ρ id) delimiter) := by
  refine bind_mirrors cursor_concurs fun start => ?_
  simp only [id_eq, Setup.over, hm.label hid]
  rw [frame.relabelled_available ρ]
  split
  · exact throw_bind_mirrors _
  · refine bind_mirrors (scan_concurs _ _ _) fun found => ?_
    cases found with
    | none => exact throw_mirrors _
    | some bytes => exact bind_mirrors (seek_concurs _) fun _ => pure_mirrors rfl

theorem read_counted_concurs (frame : Frame) : Concurs ρ surplus (readCounted setup frame id)
    (readCounted (setup.over g') (frame.relabelled ρ) (ρ id)) := by
  refine bind_mirrors (claim_concurs hm hid frame 1) fun start => ?_
  refine bind_mirrors (take_concurs 1) fun head => ?_
  simp only [id_eq, Setup.over, hm.label hid]
  rw [frame.relabelled_available ρ]
  split
  · exact throw_bind_mirrors _
  · exact bind_mirrors (take_concurs _) fun more => pure_mirrors rfl

theorem read_text_bytes_concurs (frame : Frame) (declared : Option Nat) : Concurs ρ surplus
    (readTextBytes setup frame id declared)
    (readTextBytes (setup.over g') (frame.relabelled ρ) (ρ id) declared) := by
  have hkind : ((setup.over g').grammar.attributesOf (ρ id)).textKind =
      (setup.grammar.attributesOf id).textKind := by
    simp only [Setup.over, hm.attributes, Attributes.moved]
  rw [readTextBytes, readTextBytes, hkind]
  cases (setup.grammar.attributesOf id).textKind with
  | zeroTerminated => exact read_delimited_concurs hm hid frame _
  | delimited delimiter => exact read_delimited_concurs hm hid frame _
  | counted => exact read_counted_concurs hm hid frame
  | fixedLength =>
    refine bind_mirrors (required_length_concurs hm hid declared) fun length => ?_
    refine bind_mirrors (f := fun u => u) ?_ fun _ => take_concurs _
    exact map_mirrors (claim_concurs hm hid frame _) fun _ => rfl

theorem read_text_copies (frame : Frame) (declared : Option Nat) :
    Copies ρ surplus (Value.relabelled ρ) (readText setup frame id declared)
      (readText (setup.over g') (frame.relabelled ρ) (ρ id) declared) := by
  rw [read_text_eq, read_text_eq]
  refine bind_mirrors cursor_concurs fun start => ?_
  refine bind_mirrors (read_text_bytes_concurs hm hid frame declared) fun bytes => ?_
  simp only [id_eq, Setup.over, hm.attributes, hm.text_values]
  exact match_fixed_copies hm hid _ _ _ _ rfl

theorem run_script_concurs (hr : setup.runtime = none) (current current' : Option Value) :
    Concurs ρ surplus (runScript setup id current)
      (runScript (setup.over g') (ρ id) current') := by
  simp only [runScript, Setup.over, hm.script, hm.label hid, hr]
  split
  · exact throw_mirrors _
  · exact log_concurs _ _

theorem read_custom_copies (hr : setup.runtime = none) (frame : Frame) (declared : Option Nat) :
    Copies ρ surplus (Value.relabelled ρ) (readCustom setup frame id declared)
      (readCustom (setup.over g') (frame.relabelled ρ) (ρ id) declared) := by
  have htarget : ((setup.over g').grammar.attributesOf (ρ id)).target.isSome =
      (setup.grammar.attributesOf id).target.isSome := by
    rw [show (setup.over g').grammar.attributesOf (ρ id) = _ from hm.attributes id]
    exact Option.isSome_map
  refine bind_mirrors (required_length_concurs hm hid declared) fun length => ?_
  refine bind_mirrors (claim_concurs hm hid frame _) fun start => ?_
  refine bind_mirrors (seek_concurs _) fun _ => ?_
  dsimp only
  rw [htarget]
  split
  · refine bind_mirrors (run_script_concurs hm hid hr _ _) fun _ => ?_
    exact bind_mirrors (seek_concurs _) fun _ => pure_mirrors rfl
  · exact pure_mirrors rfl

theorem read_script_copies (hr : setup.runtime = none) :
    Copies ρ surplus (Value.relabelled ρ) (readScript setup id)
      (readScript (setup.over g') (ρ id)) := by
  refine bind_mirrors cursor_concurs fun start => ?_
  refine bind_mirrors (run_script_concurs hm hid hr _ _) fun _ => ?_
  exact bind_mirrors (seek_concurs _) fun _ => pure_mirrors rfl

end
end ByteGrammar
