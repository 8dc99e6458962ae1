import ByteGrammar.Value.Basic

/-!
# Shapes of values

What holds of every decoded tree: its elements exist, only structures have children, and children
lie one behind the other from the start of their parent to its end.
-/

set_option autoImplicit false

namespace ByteGrammar

inductive ShapeFault where
  | unknownElement (v : Value)
  | childrenOf (v : Value)
  | misplacedChild (v child : Value) (place : Nat)
  | wrongEnd (v : Value) (place : Nat)

def ShapeFault.message (g : Resolved) : ShapeFault → String
  | unknownElement v => v.span ++ " refers to unknown element #" ++ toString v.element
  | childrenOf v =>
    v.describe g ++ " only structures can have children, got " ++ (g.kind v.element).name
  | misplacedChild v child place =>
    v.describe g ++ " child " ++ child.describe g ++
      " does not start at the correct offset, want " ++ toString place
  | wrongEnd v place =>
    v.describe g ++ " children end at " ++ toString place ++ ", want " ++ toString v.finish

def Kind.isComposite : Kind → Bool
  | .struct _ | .structRef _ | .grammar => true
  | _ => false

namespace Value

def checkChildren (v : Value) (place : Nat) : List Value → Except ShapeFault Nat
  | [] => .ok place
  | child :: rest =>
    if child.offset = place then v.checkChildren (place + child.length) rest
    else .error (.misplacedChild v child place)

def check (g : Resolved) (v : Value) : Except ShapeFault Unit :=
  match g.element? v.element with
  | none => .error (.unknownElement v)
  | some e =>
    if v.children.isEmpty then .ok ()
    else if e.kind.isComposite then
      match v.checkChildren v.offset v.children with
      | .ok place => if place = v.finish then .ok () else .error (.wrongEnd v place)
      | .error fault => .error fault
    else .error (.childrenOf v)

mutual

def validate (g : Resolved) : Value → Except ShapeFault Unit
  | ⟨element, offset, length, order, matched, children⟩ => do
    check g ⟨element, offset, length, order, matched, children⟩
    validateAll g children

def validateAll (g : Resolved) : List Value → Except ShapeFault Unit
  | [] => .ok ()
  | v :: rest => do
    validate g v
    validateAll g rest

end

end Value
end ByteGrammar
