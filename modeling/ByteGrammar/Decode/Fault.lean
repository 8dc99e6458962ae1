import ByteGrammar.Quantity.Eval
import ByteGrammar.Value.Shape

/-!
# Faults of decoding

A clean end of data ends the search of a structure. Other faults can be recovered from by trying
another element, except the fatal ones, which end the whole decode.
-/

set_option autoImplicit false

namespace ByteGrammar

inductive Breach where
  | noTarget (element : String)
  | noScript (element : String)
  | undecodable (element : String)
  | shape (text : String)
  | cursor (place : Nat) (value : String) (finish : Nat)
  deriving DecidableEq, Repr

def Breach.message : Breach → String
  | noTarget element => element ++ " has no target structure"
  | noScript element => element ++ " has no script"
  | undecodable element => element ++ " can't be decoded directly"
  | shape text => text
  | cursor place value finish =>
    "decoder left at " ++ toString place ++ " after " ++ value ++ ", want " ++ toString finish

inductive DecodeFault where
  | eof
  | cutOff (element : String) (offset wanted available : Nat)
  | noMatch (element value : String) (allowed : List String)
  | tooFew (element child : String) (count least : Nat)
  | unsupportedBits (element : String) (bits : Int)
  | unsupportedLength (element : String) (length : Nat)
  | negativeLength (element : String) (length : Int)
  | missingLength (element : String)
  | eval (element : String) (fault : EvalFault)
  | script (language location reason : String)
  | unsupported (element what : String)
  | depthExceeded (limit : Nat)
  | valuesExceeded (limit : Nat)
  | breach (breach : Breach)
  | source (fault : SourceFault)
  deriving DecidableEq, Repr

namespace DecodeFault

def ofSource : SourceFault → DecodeFault
  | .eof => eof
  | fault => source fault

def message : DecodeFault → String
  | eof => "EOF"
  | cutOff element offset wanted available =>
    element ++ ": unexpected EOF at offset " ++ toString offset ++ ": wanted " ++
      toString wanted ++ " bytes, " ++ toString available ++ " available"
  | noMatch element value allowed =>
    element ++ ": " ++ Text.quote value ++ " does not match any of the fixed values " ++
      Text.quoteAll allowed
  | tooFew element child count least =>
    element ++ ": found " ++ toString count ++ " of " ++ child ++ ", want at least " ++
      toString least
  | unsupportedBits element bits =>
    element ++ ": unsupported bit length " ++ toString bits ++ ", must be a multiple of 8"
  | unsupportedLength element length => element ++ ": unsupported length " ++ toString length
  | negativeLength element length => element ++ ": negative length " ++ toString length
  | missingLength element => element ++ ": no length specified"
  | eval element fault => element ++ ": " ++ fault.message
  | script language location reason => language ++ " script " ++ location ++ ": " ++ reason
  | unsupported element what => element ++ ": " ++ what ++ " is not supported"
  | depthExceeded limit => "exceeded max decoding depth of " ++ toString limit
  | valuesExceeded limit => "exceeded max value count of " ++ toString limit
  | breach b => "invariant violated: " ++ b.message
  | source fault => "source: " ++ fault.message

def isEof : DecodeFault → Bool
  | eof => true
  | _ => false

def isFatal : DecodeFault → Bool
  | breach _ | depthExceeded _ | valuesExceeded _ | script .. | source (.io _) => true
  | _ => false

end DecodeFault
end ByteGrammar
