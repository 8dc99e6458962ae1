import ByteGrammar.Decode.State
import ByteGrammar.Value.Render

/-!
# Leaves

The elements without members: numbers, offsets, strings, binaries, customs and scripts. `frame` is
the one opened for the element itself, and no leaf looks at bytes outside of it.
-/

set_option autoImplicit false

namespace ByteGrammar

open DecodeM

variable {μ : Type}

def byteLength (setup : Setup μ) (frames : List Frame) (id : ElementId) :
    DecodeM μ (Option Nat) := do
  let attributes := setup.grammar.attributesOf id
  match attributes.length with
  | none => pure none
  | some length => do
    let n ← evaluate setup frames id length
    if n < 0 then throw (.negativeLength (setup.grammar.label id) n)
    match attributes.unit with
    | .byte => pure (some n.toNat)
    | .bit =>
      if n % 8 = 0 then pure (some (n / 8).toNat)
      else throw (.unsupportedBits (setup.grammar.label id) n)

def requiredLength (setup : Setup μ) (id : ElementId) (declared : Option Nat) : DecodeM μ Nat :=
  match declared with
  | some n => pure n
  | none => throw (.missingLength (setup.grammar.label id))

def Frame.available (frame : Frame) (place : Nat) : Nat := frame.finish - place

def claim (setup : Setup μ) (frame : Frame) (id : ElementId) (wanted : Nat) : DecodeM μ Nat := do
  let start ← cursor
  let available := frame.available start
  if wanted ≤ available then pure start
  else if available = 0 then throw .eof
  else throw (.cutOff (setup.grammar.label id) start wanted available)

def integerLength (setup : Setup μ) (id : ElementId) (declared : Option Nat) :
    DecodeM μ Nat := do
  let length ← requiredLength setup id declared
  if length = 0 ∨ 8 < length then throw (.unsupportedLength (setup.grammar.label id) length)
  pure length

def orderOf (endian : Endian) : DecodeM μ ByteOrder := do
  match endian with
  | .little => pure .little
  | .big => pure .big
  | .dynamic => return (← get).order

@[inline] def matchFixed {α : Type} (setup : Setup μ) (values : List (Fixed α)) (isMatch : α → Bool)
    (content : String) (shown : α → String) (v : Value) : DecodeM μ Value :=
  if values.isEmpty then pure v
  else
    match values.findIdx? fun fixed => isMatch fixed.value with
    | some i => pure { v with matched := some i }
    | none =>
      if (setup.grammar.attributesOf v.element).mustMatch then
        throw (.noMatch (setup.grammar.label v.element) content
          (values.map fun fixed => shown fixed.value))
      else pure v

def readNumber (setup : Setup μ) (frame : Frame) (id : ElementId) (declared : Option Nat) :
    DecodeM μ Value := do
  let attributes := setup.grammar.attributesOf id
  let length ← integerLength setup id declared
  let start ← claim setup frame id length
  let bytes ← take length
  let order ← orderOf attributes.endian
  match MachineInt.ofBytes? order attributes.signed bytes with
  | none => throw (.unsupportedLength (setup.grammar.label id) length)
  | some i =>
    matchFixed setup (setup.grammar.numberValues id) (i.isMatch · length)
      (i.display attributes.radix length)
      (displayLiteral · attributes.radix length attributes.signed)
      { Value.leaf id start length with order := some order }

def readOffset (setup : Setup μ) (frame : Frame) (id : ElementId) (declared : Option Nat) :
    DecodeM μ Value := do
  let length ← integerLength setup id declared
  let start ← claim setup frame id length
  seekTo (start + length)
  let order ← orderOf (setup.grammar.attributesOf id).endian
  pure { Value.leaf id start length with order := some order }

def stride : Nat := 256

def upTo? (delimiter : UInt8) : List UInt8 → Option (List UInt8)
  | [] => none
  | b :: rest =>
    if b == delimiter then some [b] else (upTo? delimiter rest).map (b :: ·)

def scan (delimiter : UInt8) (rest : Nat) : Nat → DecodeM μ (Option (List UInt8))
  | 0 => do
    if rest = 0 then pure none else return upTo? delimiter (← take rest)
  | strides + 1 => do
    let bytes ← take stride
    match upTo? delimiter bytes with
    | some found => pure (some found)
    | none => return (← scan delimiter rest strides).map (bytes ++ ·)

def readDelimited (setup : Setup μ) (frame : Frame) (id : ElementId) (delimiter : UInt8) :
    DecodeM μ (List UInt8) := do
  let start ← cursor
  let available := frame.available start
  if available = 0 then throw .eof
  match ← scan delimiter (available % stride) (available / stride) with
  | some bytes => do
    seekTo (start + bytes.length)
    pure bytes
  | none => throw (.cutOff (setup.grammar.label id) start (available + 1) available)

def readCounted (setup : Setup μ) (frame : Frame) (id : ElementId) : DecodeM μ (List UInt8) := do
  let start ← claim setup frame id 1
  let head ← take 1
  let length := 1 + lowFirst head
  let available := frame.available start
  if available < length then
    throw (.cutOff (setup.grammar.label id) start length available)
  return head ++ (← take (length - 1))

def readText (setup : Setup μ) (frame : Frame) (id : ElementId) (declared : Option Nat) :
    DecodeM μ Value := do
  let attributes := setup.grammar.attributesOf id
  let start ← cursor
  let bytes ← match attributes.textKind with
    | .zeroTerminated => readDelimited setup frame id 0
    | .delimited delimiter => readDelimited setup frame id delimiter
    | .fixedLength => do
      let length ← requiredLength setup id declared
      discard (claim setup frame id length)
      take length
    | .counted => readCounted setup frame id
  let text := attributes.textOf setup.encodings bytes
  matchFixed setup (setup.grammar.textValues id) (· == text) text (fun value => value)
    (Value.leaf id start bytes.length)

def readBinary (setup : Setup μ) (frame : Frame) (id : ElementId) (declared : Option Nat) :
    DecodeM μ Value := do
  let length ← requiredLength setup id declared
  let start ← claim setup frame id length
  let values := setup.grammar.binaryValues id
  if values.isEmpty then
    seekTo (start + length)
    pure (Value.leaf id start length)
  else
    let bytes ← take length
    matchFixed setup values (· == bytes) (Text.hexOf bytes) Text.hexOf (Value.leaf id start length)

def runScript (setup : Setup μ) (id : ElementId) (current : Option Value) : DecodeM μ Unit := do
  let g := setup.grammar
  match g.script? id with
  | none => throw (.breach (.noScript (g.label id)))
  | some script =>
    match setup.runtime with
    | none => log (.skippedScript script)
    | some runtime => do
      let offset ← cursor
      let s ← get
      let view : View := { grammar := g, element := id, history := s.history, current }
      let ((result, memory), source, order) :=
        (runtime.run script view s.memory).run g s.source s.order
      set { s with source, order, memory }
      match result with
      | .ok () => pure ()
      | .error reason =>
        throw (.script script.language
          (Text.quote script.name ++ " in " ++ g.label id ++ " at offset " ++ toString offset)
          reason)

def readCustom (setup : Setup μ) (frame : Frame) (id : ElementId) (declared : Option Nat) :
    DecodeM μ Value := do
  let length ← requiredLength setup id declared
  let start ← claim setup frame id length
  seekTo (start + length)
  let v := Value.leaf id start length
  if (setup.grammar.attributesOf id).target.isSome then
    runScript setup id (some v)
    seekTo (start + length)
  pure v

def readScript (setup : Setup μ) (id : ElementId) : DecodeM μ Value := do
  let start ← cursor
  runScript setup id none
  seekTo start
  pure (Value.leaf id start 0)

end ByteGrammar
