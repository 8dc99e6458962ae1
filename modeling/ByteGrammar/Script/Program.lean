import ByteGrammar.Quantity.Eval

/-!
# Scripts

The decoder runs no scripts itself; it hands them to a runtime. What a runtime does with the
decoder is a program of requests: to read values again and to look at or set the dynamic byte
order. Nothing else of a decode is within its reach.
-/

set_option autoImplicit false

namespace ByteGrammar

inductive Program (α : Type) where
  | done (result : α)
  | number (v : Value) (next : Except EvalFault MachineInt → Program α)
  | bytes (v : Value) (next : Except SourceFault (List UInt8) → Program α)
  | order (next : ByteOrder → Program α)
  | setOrder (order : ByteOrder) (next : Program α)

namespace Program

protected def bind {α β : Type} : Program α → (α → Program β) → Program β
  | done a, f => f a
  | number v next, f => number v fun r => (next r).bind f
  | bytes v next, f => bytes v fun r => (next r).bind f
  | order next, f => order fun o => (next o).bind f
  | setOrder o next, f => setOrder o (next.bind f)

instance : Monad Program where
  pure := done
  bind := Program.bind

def run {α : Type} (g : Resolved) : Program α → Source → ByteOrder → α × Source × ByteOrder
  | done a, s, o => (a, s, o)
  | number v next, s, o =>
    let (r, s) := v.readInt g s
    (next r).run g s o
  | bytes v next, s, o =>
    let (r, s) := Source.readAt v.length v.offset s
    (next r).run g s o
  | order next, s, o => (next o).run g s o
  | setOrder o next, s, _ => next.run g s o

end Program

structure View where
  grammar : Resolved
  element : ElementId
  history : List Value
  current : Option Value

namespace View

def last? (view : View) : Option Value := view.history.head?

def named? (view : View) (name : String) : Option Value := latest? view.grammar name view.history

end View

/-- What runs scripts. It keeps a memory of its own from one run to the next; a run that fails
gives the reason. -/
structure Runtime (μ : Type) where
  run : Script → View → μ → Program (Except String Unit × μ)

end ByteGrammar
