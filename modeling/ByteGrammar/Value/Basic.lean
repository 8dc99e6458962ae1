import ByteGrammar.Resolved.Basic

/-!
# Values

The tree that a decode produces. A value holds no data, only where it lies; its children, if it
has any, follow each other and fill it.
-/

set_option autoImplicit false

namespace ByteGrammar

structure Value where
  element : ElementId
  offset : Nat
  length : Nat
  order : Option ByteOrder := none
  matched : Option Nat := none
  children : List Value := []
  deriving Repr, Inhabited

namespace Value

def leaf (element : ElementId) (offset length : Nat) : Value := { element, offset, length }

def totalLength (values : List Value) : Nat :=
  values.foldr (fun v total => v.length + total) 0

def spanning (element : ElementId) (offset : Nat) (children : List Value) : Value :=
  { element, offset, length := totalLength children, children }

def finish (v : Value) : Nat := v.offset + v.length

def name (g : Resolved) (v : Value) : String := g.nameOf v.element

def span (v : Value) : String :=
  "[" ++ toString v.offset ++ " len:" ++ toString v.length ++ "]"

def describe (g : Resolved) (v : Value) : String := v.span ++ " " ++ g.label v.element

mutual

def visit (descend : Value → Nat → Bool) (depth : Nat) : Value → List (Value × Nat)
  | ⟨element, offset, length, order, matched, children⟩ =>
    let v : Value := ⟨element, offset, length, order, matched, children⟩
    (v, depth) :: (if descend v depth then visitAll descend (depth + 1) children else [])

def visitAll (descend : Value → Nat → Bool) (depth : Nat) : List Value → List (Value × Nat)
  | [] => []
  | v :: rest => visit descend depth v ++ visitAll descend depth rest

end

def preorder (v : Value) : List Value := (v.visit (fun _ _ => true) 0).map Prod.fst

def outline (limit : Option Nat) (v : Value) : List (Value × Nat) :=
  v.visit (fun _ depth => match limit with
    | some limit => depth < limit
    | none => true) 0

def count (v : Value) : Nat := v.preorder.length

def find? (g : Resolved) (name : String) (v : Value) : Option Value :=
  v.preorder.find? fun w => w.name g == name

end Value
end ByteGrammar
