/-!
# Byte sources

A cursor over data that a reader delivers. A reader may hand over less than it is asked for, be
interrupted, report a length of its own and fail from some place on; one over bytes in memory does
none of this.
-/

set_option autoImplicit false

namespace ByteGrammar

structure Source where
  data : Array UInt8
  position : Nat := 0
  chunk : Option Nat := none
  claim : Option Nat := none
  /-- The place from which on deliveries fail. -/
  failAt : Option Nat := none
  /-- Which of the next deliveries are interrupted; none behind the end of the list is. -/
  interrupts : List Bool := []

inductive SourceFault where
  | eof
  | short (got wanted : Nat)
  | io (text : String)
  deriving DecidableEq, Repr

def SourceFault.message : SourceFault → String
  | eof => "EOF"
  | short got wanted =>
    "unexpected EOF: read " ++ toString got ++ " of " ++ toString wanted ++ " bytes"
  | io text => "IO: " ++ text

abbrev SourceM := ExceptT SourceFault (StateM Source)

namespace Source

def ofBytes (data : Array UInt8) : Source := { data }

def length (s : Source) : Nat := s.claim.getD s.data.size

def ahead (s : Source) (count : Nat) : List UInt8 :=
  (s.data.extract s.position (s.position + count)).toList

inductive Origin where
  | start
  | current
  | finish
  deriving DecidableEq, Repr

def origin (s : Source) : Origin → Nat
  | .start => 0
  | .current => s.position
  | .finish => s.length

end Source
end ByteGrammar
