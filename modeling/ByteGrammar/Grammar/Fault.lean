import ByteGrammar.Literal.Fault
import ByteGrammar.Text.Quoted

/-!
# Faults of grammars

What can be wrong with a grammar while it is built or resolved. Elements are named by their
labels, pointers by their texts.
-/

set_option autoImplicit false

namespace ByteGrammar

inductive GrammarFault where
  | incompatibleBase (element target : String)
  | notAStructure (element : String)
  | invalidQuantity (text : String) (reason : LiteralFault)
  | invalidFixedValue (text : String) (reason : LiteralFault)
  | unresolved (element reference : String)
  | wrongTarget (element reference expected found : String)
  | duplicateId (id : Nat) (first second : String)
  | baseCycle (element : String)
  | missingStart
  | missingLength (element : String)
  deriving DecidableEq, Repr

def GrammarFault.message : GrammarFault → String
  | incompatibleBase element target =>
    element ++ " can't extend " ++ target ++ ": elements must be of the same kind"
  | notAStructure element => element ++ " is not a structure and can't have children"
  | invalidQuantity text reason =>
    "invalid reference " ++ Text.quote text ++ ": " ++ reason.message
  | invalidFixedValue text reason =>
    "invalid fixed value " ++ Text.quote text ++ ": " ++ reason.message
  | unresolved element reference =>
    element ++ ": unresolved reference to " ++ Text.quote reference
  | wrongTarget element reference expected found =>
    element ++ ": " ++ Text.quote reference ++ " must refer to a " ++ expected ++ ", found " ++
      found
  | duplicateId id first second =>
    "duplicate id " ++ toString id ++ ": " ++ first ++ " and " ++ second
  | baseCycle element => element ++ ": extends cycle"
  | missingStart => "grammar has no start element"
  | missingLength element => element ++ ": no length specified"

def GrammarFault.report : List GrammarFault → String
  | [] => "no errors"
  | [fault] => fault.message
  | faults =>
    toString faults.length ++ " grammar errors:" ++
      String.join (faults.map fun fault => "\n  " ++ fault.message)

end ByteGrammar
