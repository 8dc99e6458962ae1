import ByteGrammar.Decode.Repeat

/-!
# Reading elements

Each element is read within a frame of its own: from the cursor to the end of the frame around
it, or to its declared length if that is nearer.
-/

set_option autoImplicit false

namespace ByteGrammar

open DecodeM

variable {μ : Type}

def readReference (setup : Setup μ) (attempt : ElementId → DecodeM μ Value) (id : ElementId) :
    DecodeM μ Value := do
  match (setup.grammar.attributesOf id).target with
  | none => throw (.breach (.noTarget (setup.grammar.label id)))
  | some target => return { ← attempt target with element := id }

def readKind (setup : Setup μ) (attempt : ElementId → DecodeM μ Value) (frame : Frame)
    (frames : List Frame) (id : ElementId) (declared : Option Nat) : DecodeM μ Value :=
  match setup.grammar.kind id with
  | .struct _ => readStruct setup attempt frame frames id declared
  | .number _ => readNumber setup frame id declared
  | .text _ => readText setup frame id declared
  | .binary _ => readBinary setup frame id declared
  | .structRef _ => readReference setup attempt id
  | .offset _ => readOffset setup frame id declared
  | .custom _ => readCustom setup frame id declared
  | .script _ | .scriptElement _ => readScript setup id
  | .grammarRef _ =>
    throw (.unsupported (setup.grammar.label id) "decoding a referenced grammar")
  | .grammar | .padding => throw (.breach (.undecodable (setup.grammar.label id)))

def Frame.opened (id : ElementId) (start limit : Nat) (declared : Option Nat) : Frame where
  element := id
  start := start
  finish := max start (match declared with
    | some length => min limit (start + length)
    | none => limit)

def checkRead (setup : Setup μ) (v : Value) : DecodeM μ Unit := do
  if setup.options.checkShape then
    match v.check setup.grammar with
    | .error fault => throw (.breach (.shape (fault.message setup.grammar)))
    | .ok () => do
      let place ← cursor
      if place ≠ v.finish then
        throw (.breach (.cursor place (v.describe setup.grammar) v.finish))

def recordValue (setup : Setup μ) (id : ElementId) (v : Value) : DecodeM μ Unit := do
  modify fun s => { s with values := s.values + 1 }
  if setup.options.maxValues < (← get).values then
    throw (.valuesExceeded setup.options.maxValues)
  if (setup.grammar.kind id).isRecorded then
    modify fun s => { s with history := v :: s.history }

def limitOf : List Frame → DecodeM μ Nat
  | frame :: _ => pure frame.finish
  | [] => sourceLength

def readWith (setup : Setup μ) (attempt : List Frame → ElementId → DecodeM μ Value)
    (frames : List Frame) (id : ElementId) : DecodeM μ Value := do
  let start ← cursor
  let limit ← limitOf frames
  let declared ← byteLength setup frames id
  let frame := Frame.opened id start limit declared
  log (.reading start id)
  let inner := frame :: frames
  match ← outcome (readKind setup (attempt inner) frame inner id declared) with
  | .error fault =>
    log (.failed start id fault)
    throw fault
  | .ok v =>
    log (.read start v.element v.offset v.length)
    checkRead setup v
    recordValue setup id v
    pure v

def readElement (setup : Setup μ) : Nat → List Frame → ElementId → DecodeM μ Value
  | 0, _, _ => throw (.depthExceeded setup.options.maxDepth)
  | room + 1, frames, id => readWith setup (readElement setup room) frames id

end ByteGrammar
