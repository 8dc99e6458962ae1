import ByteGrammar.Number.MachineInt
import ByteGrammar.Source.Basic

/-!
# Reading from a source

Reads gather deliveries until all bytes are there or nothing more comes. Interrupted deliveries
are asked for again. A read at an offset puts the cursor back, whether it succeeds or not.
-/

set_option autoImplicit false

namespace ByteGrammar.Source

inductive Delivery where
  | bytes (bytes : List UInt8)
  | interrupted
  | failed (text : String)

def portion (s : Source) (wanted : Nat) : Nat :=
  let limited := match s.chunk with
    | some most => min wanted most
    | none => wanted
  match s.failAt with
  | some place => if s.position < place then min limited (place - s.position) else limited
  | none => limited

def failsHere (s : Source) : Bool :=
  match s.failAt with
  | some place => place ≤ s.position
  | none => false

def asked (s : Source) : Source := { s with interrupts := s.interrupts.tail }

def deliver (wanted : Nat) (s : Source) : Delivery × Source :=
  if s.interrupts.headD false then (.interrupted, s.asked)
  else
    let count := s.portion wanted
    if s.failsHere && count != 0 then (.failed "injected failure", s.asked)
    else
      let bytes := s.ahead count
      (.bytes bytes, { s.asked with position := s.position + bytes.length })

/-- Deliveries until `wanted` bytes have come, nothing more comes, or one fails. Each of the `asks`
clears an interruption, brings a byte or ends the read. -/
def gather : Nat → Nat → StateM Source (Except String (List UInt8))
  | _, 0 => pure (.ok [])
  | 0, _ => pure (.ok [])
  | asks + 1, wanted => do
    match ← deliver wanted with
    | .interrupted => gather asks wanted
    | .failed text => pure (.error text)
    | .bytes [] => pure (.ok [])
    | .bytes bytes => do
      match ← gather asks (wanted - bytes.length) with
      | .ok more => pure (.ok (bytes ++ more))
      | .error text => pure (.error text)

def read (wanted : Nat) : SourceM (List UInt8) := do
  let s ← get
  match ← (gather (wanted + s.interrupts.length) wanted : StateM Source _) with
  | .error text => throw (.io text)
  | .ok bytes =>
    if bytes.length = wanted then pure bytes
    else if bytes.isEmpty then throw .eof
    else throw (.short bytes.length wanted)

def seekTo (place : Nat) : SourceM Unit := modify fun s => { s with position := place }

def placeBound : Int := wordCount 64

def seek (origin : Origin) (offset : Int) : SourceM Nat := do
  let s ← get
  let place := (s.origin origin : Int) + offset
  if 0 ≤ place ∧ place < placeBound then
    seekTo place.toNat
    pure place.toNat
  else throw (.io "invalid seek to a negative or overflowing position")

def readAt (wanted place : Nat) : SourceM (List UInt8) := do
  let saved := (← get).position
  seekTo place
  let result ← tryCatch (Except.ok <$> read wanted) fun fault => pure (Except.error fault)
  seekTo saved
  match result with
  | .ok bytes => pure bytes
  | .error fault => throw fault

end ByteGrammar.Source
