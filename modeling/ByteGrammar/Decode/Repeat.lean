import ByteGrammar.Decode.Leaf

/-!
# Repetition

Members of structures and the start element are read again and again, within their bounds. A
structure searches its members for one that decodes, step by step; the root repeats one element
as long as there are bytes.
-/

set_option autoImplicit false

namespace ByteGrammar

open DecodeM

variable {μ α : Type}

def boundOf (setup : Setup μ) (frames : List Frame) (id : ElementId)
    (bound : Attributes → Quantity) (reading : Int → α) : DecodeM μ α :=
  return reading (← evaluate setup frames id (bound (setup.grammar.attributesOf id)))

def leastCount (setup : Setup μ) (frames : List Frame) (id : ElementId) : DecodeM μ Nat :=
  boundOf setup frames id Attributes.least Int.toNat

def mostCount (setup : Setup μ) (frames : List Frame) (id : ElementId) :
    DecodeM μ (Option Nat) :=
  boundOf setup frames id Attributes.most fun n => if n < 0 then none else some n.toNat

def reached (count : Nat) : Option Nat → Bool
  | some most => most ≤ count
  | none => false

structure Search where
  index : Nat := 0
  counts : Array Nat
  children : Array Value := #[]
  consumed : Nat := 0

namespace Search

def start (members : List ElementId) : Search := { counts := Array.replicate members.length 0 }

def count (s : Search) (index : Nat) : Nat := s.counts.getD index 0

def next (s : Search) : Search := { s with index := s.index + 1 }

/-- Takes a child. A member without fixed order is followed by the first; one that takes up no
bytes would be read for ever, so the search goes on once there are enough of it. -/
def accept (s : Search) (arrangement : Arrangement) (least : Nat) (v : Value) : Search :=
  let count := s.count s.index + 1
  let index :=
    if v.length = 0 ∧ least ≤ count then s.index + 1
    else match arrangement with
      | .fixed => s.index
      | .variable => 0
  { index
    counts := s.counts.setIfInBounds s.index count
    children := s.children.push v
    consumed := s.consumed + v.length }

inductive Stage where
  | searching (s : Search)
  | ended (s : Search) (dry : Bool)

end Search

def searchStep (setup : Setup μ) (attempt : ElementId → DecodeM μ Value)
    (arrangement : Arrangement) (members : Array ElementId) (frame : Frame) (frames : List Frame)
    (s : Search) : DecodeM μ Search.Stage := do
  match members[s.index]? with
  | none => pure (.ended s false)
  | some member => do
    seekTo (frame.start + s.consumed)
    let most ← mostCount setup frames member
    if reached (s.count s.index) most then pure (.searching s.next)
    else
      let least ← leastCount setup frames member
      let saved := (← get).history
      match ← outcome (attempt member) with
      | .ok v => pure (.searching (s.accept arrangement least v))
      | .error fault =>
        if fault.isFatal then throw fault
        restore saved
        if fault.isEof then pure (.ended s true)
        else
          match arrangement with
          | .fixed => if least ≤ s.count s.index then pure (.searching s.next) else throw fault
          | .variable =>
            log (.passedOver (frame.start + s.consumed) member fault)
            pure (.searching s.next)

/-- The search to its end. Every step reads a value or goes on to the next member, so that `steps`
suffice that allow each member once before each of the values that may still be produced. -/
def search (setup : Setup μ) (attempt : ElementId → DecodeM μ Value) (arrangement : Arrangement)
    (members : Array ElementId) (frame : Frame) (frames : List Frame) :
    Nat → Search → DecodeM μ (Search × Bool)
  | 0, _ => throw (.valuesExceeded setup.options.maxValues)
  | steps + 1, s => do
    match ← searchStep setup attempt arrangement members frame frames s with
    | .searching s => search setup attempt arrangement members frame frames steps s
    | .ended s dry => pure (s, dry)

def searchSteps (setup : Setup μ) (members : Array ElementId) : DecodeM μ Nat :=
  return (setup.options.maxValues - (← get).values + 1) * (members.size + 1)

/-- Makes sure that every member has been read often enough. A structure of which nothing was
read at the end of the data was not there. -/
def checkCounts (setup : Setup μ) (frames : List Frame) (id : ElementId) (absent : Bool)
    (s : Search) : Nat → List ElementId → DecodeM μ Unit
  | _, [] => pure ()
  | index, member :: rest => do
    let least ← leastCount setup frames member
    if s.count index < least then
      if absent then throw .eof
      throw (.tooFew (setup.grammar.label id) (setup.grammar.label member) (s.count index) least)
    checkCounts setup frames id absent s (index + 1) rest

def paddingOf (setup : Setup μ) (frame : Frame) (id : ElementId) (declared : Option Nat)
    (consumed : Nat) : DecodeM μ (List Value) :=
  let budget := frame.finish - frame.start
  match declared with
  | none => pure []
  | some declared =>
    if declared ≤ consumed then pure []
    else if declared ≤ budget then
      pure [Value.leaf setup.grammar.padding (frame.start + consumed) (declared - consumed)]
    else if budget = 0 then throw .eof
    else throw (.cutOff (setup.grammar.label id) frame.start declared budget)

def readStruct (setup : Setup μ) (attempt : ElementId → DecodeM μ Value) (frame : Frame)
    (frames : List Frame) (id : ElementId) (declared : Option Nat) : DecodeM μ Value := do
  let members := setup.grammar.membersOf id
  let arrangement := (setup.grammar.attributesOf id).arrangement
  let steps ← searchSteps setup members.toArray
  let (s, dry) ← search setup attempt arrangement members.toArray frame frames steps
    (Search.start members)
  seekTo (frame.start + s.consumed)
  let absent := s.children.isEmpty && (dry || frame.finish - frame.start == 0)
  checkCounts setup frames id absent s 0 members
  let padding ← paddingOf setup frame id declared s.consumed
  let v := Value.spanning id frame.start (s.children.toList ++ padding)
  seekTo v.finish
  pure v

/-- Reads the start element again and again from `consumed` on, up to `most` times. Each value
takes up bytes, except the last, so that as many rounds suffice as the data has bytes. -/
def repeatStart (setup : Setup μ) (attempt : DecodeM μ Value) (least : Nat) (most : Option Nat)
    (length : Nat) : Nat → Array Value → Nat → DecodeM μ (Array Value × Nat)
  | 0, children, consumed => pure (children, consumed)
  | rounds + 1, children, consumed => do
    if reached children.size most || length ≤ consumed then pure (children, consumed)
    else
      seekTo consumed
      let saved := (← get).history
      match ← outcome attempt with
      | .ok v =>
        let children := children.push v
        let consumed := consumed + v.length
        if v.length = 0 then pure (children, consumed)
        else repeatStart setup attempt least most length rounds children consumed
      | .error fault =>
        if fault.isFatal then throw fault
        else if fault.isEof then
          restore saved
          pure (children, consumed)
        else if least ≤ children.size then
          log (.stopping consumed children.size fault)
          restore saved
          pure (children, consumed)
        else throw fault

end ByteGrammar
