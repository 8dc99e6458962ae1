import ByteGrammar.Decode.Element

/-!
# Decoding

Decodes a whole source, or one element in it. Each decode begins afresh; what it has left in the
state can be looked at until the next one.
-/

set_option autoImplicit false

namespace ByteGrammar

open DecodeM

variable {μ : Type}

def State.new (options : Options) (source : Source) (memory : μ) (journaling : Bool) : State μ :=
  { source, order := options.order, memory, journal := if journaling then some [] else none }

def reset (setup : Setup μ) : DecodeM μ Unit :=
  modify fun s => { s with history := [], values := 0, order := setup.options.order }

def readInRoot (setup : Setup μ) (length : Nat) (id : ElementId) : DecodeM μ Value :=
  readElement setup (setup.options.maxDepth - 1) [⟨Grammar.root, 0, length⟩] id

def readRoot (setup : Setup μ) (length : Nat) : DecodeM μ Value := do
  let start := setup.grammar.start
  let frames := [⟨Grammar.root, 0, length⟩]
  let least ← leastCount setup frames start
  let most ← mostCount setup frames start
  let (children, consumed) ←
    repeatStart setup (readInRoot setup length start) least most length length #[] 0
  if children.size < least then
    if children.isEmpty then throw .eof
    throw (.tooFew (setup.grammar.label Grammar.root) (setup.grammar.label start) children.size
      least)
  seekTo consumed
  pure (Value.spanning Grammar.root 0 children.toList)

def decode (setup : Setup μ) : DecodeM μ Value := do
  reset setup
  let length ← sourceLength
  seekTo 0
  log (.decoding length)
  let v ← readRoot setup length
  if setup.options.checkShape then
    match v.validate setup.grammar with
    | .ok () => pure v
    | .error fault => throw (.breach (.shape (fault.message setup.grammar)))
  else pure v

def decodeElement (setup : Setup μ) (id : ElementId) (offset : Nat) : DecodeM μ Value := do
  reset setup
  let length ← sourceLength
  seekTo offset
  readInRoot setup length id

def State.last? (s : State μ) : Option Value := s.history.head?

def State.previous? (g : Resolved) (s : State μ) (name : String) : Option Value :=
  latest? g name s.history

def State.render (setup : Setup μ) (v : Value) : StateM (State μ) (Except SourceFault String) :=
  fun s =>
    let (text, source) := v.render setup.encodings setup.grammar s.source
    (text, { s with source })

def State.journalLines (g : Resolved) (s : State μ) : List String :=
  (s.journal.getD []).reverse.map (Event.line g)

end ByteGrammar
