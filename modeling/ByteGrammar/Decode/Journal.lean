import ByteGrammar.Decode.Fault

/-!
# Journals

What a decode tells of its course, event by event, and the line of each event.
-/

set_option autoImplicit false

namespace ByteGrammar

inductive Event where
  | decoding (length : Nat)
  | reading (place : Nat) (element : ElementId)
  | failed (place : Nat) (element : ElementId) (fault : DecodeFault)
  | read (place : Nat) (element : ElementId) (offset length : Nat)
  | stopping (place count : Nat) (fault : DecodeFault)
  | passedOver (place : Nat) (element : ElementId) (fault : DecodeFault)
  | skippedScript (script : Script)

namespace Event

def place (n : Nat) : String := "[0x" ++ String.ofList (Nat.toDigits 16 n) ++ "] "

def line (g : Resolved) : Event → String
  | decoding length =>
    "DEBUG Decoding " ++ g.name ++ " (" ++ toString length ++ " bytes)"
  | reading n element => "DEBUG " ++ place n ++ "Reading: " ++ g.label element
  | failed n element fault =>
    "DEBUG " ++ place n ++ "Failed: " ++ g.label element ++ ": " ++ fault.message
  | read n element offset length =>
    "DEBUG " ++ place n ++ "Read: " ++ (Value.leaf element offset length).describe g
  | stopping n count fault =>
    "DEBUG " ++ place n ++ "Stopping after " ++ toString count ++ " values: " ++ fault.message
  | passedOver n element fault =>
    "TRACE " ++ place n ++ g.label element ++ " didn't match, trying the next element: " ++
      fault.message
  | skippedScript script =>
    "WARN No script bridge installed, skipping " ++ script.language ++ " script " ++
      Text.quote script.name

end Event
end ByteGrammar
