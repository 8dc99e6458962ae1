import ByteGrammar.Literal.Integer
import ByteGrammar.Text.Characters

/-!
# Quantities

Lengths and repeat bounds as a grammar states them: a number, or what is known only while decoding.
They are read and printed as texts. Keywords are read in any case; gaps may surround a quantity, and
the name after `prev.` runs to the end of the text and is trimmed.
-/

set_option autoImplicit false

namespace ByteGrammar

inductive Quantity where
  | literal (n : Int)
  | remaining
  | unlimited
  | prev (name : String)
  deriving DecidableEq, Repr, Inhabited

def Quantity.isLiteral : Quantity → Bool
  | .literal _ => true
  | _ => false

namespace Quantity

def afterKeyword? : List Char → List Char → Option (List Char)
  | [], cs => some cs
  | _ :: _, [] => none
  | k :: keyword, c :: cs => if c.toLower == k then afterKeyword? keyword cs else none

def alone (q : Quantity) (rest : List Char) : Except LiteralFault Quantity :=
  if (Literal.skipGaps rest).isEmpty then .ok q else .error .trailing

def named (name : List Char) : Except LiteralFault Quantity :=
  if name.isEmpty then .error .noName
  else
    let name := Text.trimmed name
    if name.isEmpty then .error .blankName else .ok (.prev (String.ofList name))

def ofInt (n : Int) : Except LiteralFault Quantity :=
  if -(wordCount 63 : Int) ≤ n ∧ n < wordCount 63 then .ok (.literal n) else .error .outOfRange

def parse (text : String) : Except LiteralFault Quantity :=
  let cs := text.toList
  let body := Literal.skipGaps cs
  match afterKeyword? "unlimited".toList body with
  | some rest => alone .unlimited rest
  | none =>
    match afterKeyword? "remaining".toList body with
    | some rest => alone .remaining rest
    | none =>
      match afterKeyword? "prev.".toList body with
      | some rest => named rest
      | none =>
        let absent := if body.length = cs.length then .noQuantity else .noForm
        Literal.wholeInteger absent body >>= ofInt

def toText : Quantity → String
  | literal n => toString n
  | remaining => "remaining"
  | unlimited => "unlimited"
  | prev name => "prev." ++ name

end Quantity

end ByteGrammar
