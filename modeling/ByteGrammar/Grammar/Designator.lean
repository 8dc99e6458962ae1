import ByteGrammar.Literal.Integer
import ByteGrammar.Text.Characters

/-!
# Designators

How one element of a grammar points to another: by its place in the arena, by its number or by
its name.
-/

set_option autoImplicit false

namespace ByteGrammar

abbrev ElementId := Nat

inductive Designator where
  | index (id : ElementId)
  | id (number : Nat)
  | name (name : String)
  deriving DecidableEq, Repr

namespace Designator

def numberBound : Nat := wordCount 32

def number? (cs : List Char) : Option Nat :=
  let digits := match cs with
    | '+' :: rest => rest
    | cs => cs
  match Literal.digits? 10 digits with
  | some (n, []) => if n < numberBound then some n else none
  | _ => none

def ofText (text : String) : Designator :=
  match text.toList with
  | 'i' :: 'd' :: ':' :: rest =>
    match number? (Text.trimmed rest) with
    | some n => .id n
    | none => .name text
  | _ => .name text

def toText : Designator → String
  | index n => "#" ++ toString n
  | id n => "id:" ++ toString n
  | name n => n

end Designator
end ByteGrammar
