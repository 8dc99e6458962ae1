import ByteGrammar.Grammar.Designator
import ByteGrammar.Number.Display
import ByteGrammar.Quantity.Basic

/-!
# Elements

The typed elements of a grammar. Settings that an element leaves open are `none`; they are filled
in when the grammar is resolved. A setter leaves alone an element whose kind does not carry the
setting.
-/

set_option autoImplicit false

namespace ByteGrammar

inductive Endian where
  | little
  | big
  /-- Whatever the decoder's dynamic order is when the element is read. -/
  | dynamic
  deriving DecidableEq, Repr

inductive LengthUnit where
  | bit
  | byte
  deriving DecidableEq, Repr

inductive Arrangement where
  /-- As declared, each repeated within its bounds. -/
  | fixed
  /-- In any order; at each place the first that decodes is taken. -/
  | variable
  deriving DecidableEq, Repr

inductive TextKind where
  | zeroTerminated
  | delimited (delimiter : UInt8)
  | fixedLength
  /-- One byte of length, then that many bytes. -/
  | counted
  deriving DecidableEq, Repr

structure Fixed (α : Type) where
  name : String
  value : α
  deriving DecidableEq, Repr

structure StructSettings where
  arrangement : Option Arrangement := none
  endian : Option Endian := none
  signed : Option Bool := none
  encoding : Option String := none
  radix : Option Radix := none
  deriving Repr

structure NumberSettings where
  endian : Option Endian := none
  signed : Option Bool := none
  radix : Option Radix := none
  mustMatch : Option Bool := none
  values : List (Fixed Int) := []
  deriving Repr

structure TextSettings where
  kind : Option TextKind := none
  encoding : Option String := none
  mustMatch : Option Bool := none
  values : List (Fixed String) := []
  deriving Repr

structure BinarySettings where
  mustMatch : Option Bool := none
  values : List (Fixed (List UInt8)) := []
  deriving Repr

structure OffsetSettings where
  endian : Option Endian := none
  radix : Option Radix := none
  relativeTo : Option Designator := none
  references : Option Designator := none
  deriving Repr

structure Script where
  name : String
  kind : String := "Generic"
  language : String
  text : String
  deriving DecidableEq, Repr

inductive Kind where
  /-- The grammar itself, which labels the root of a decoded tree. -/
  | grammar
  | struct (settings : StructSettings)
  | number (settings : NumberSettings)
  | text (settings : TextSettings)
  | binary (settings : BinarySettings)
  /-- Another structure, decoded in place; unset, the structure with this element's name. -/
  | structRef (target : Option Designator)
  | grammarRef (file : String)
  | custom (script : Option Designator)
  | offset (settings : OffsetSettings)
  | script (script : Script)
  | scriptElement (script : Option Designator)
  /-- Filler up to the declared length of a structure. -/
  | padding
  deriving Repr

namespace Kind

def name : Kind → String
  | grammar => "Grammar"
  | struct _ => "Structure"
  | number _ => "Number"
  | text _ => "String"
  | binary _ => "Binary"
  | structRef _ => "StructRef"
  | grammarRef _ => "GrammarRef"
  | custom _ => "Custom"
  | offset _ => "Offset"
  | script _ => "Script"
  | scriptElement _ => "ScriptElement"
  | padding => "Padding"

def agrees (k l : Kind) : Bool := k.ctorIdx == l.ctorIdx

def isStruct : Kind → Bool
  | struct _ => true
  | _ => false

def isScript : Kind → Bool
  | script _ => true
  | _ => false

def isNumber : Kind → Bool
  | number _ => true
  | _ => false

def isRecorded : Kind → Bool
  | number _ | text _ | binary _ | offset _ | custom _ => true
  | _ => false

end Kind

structure Element where
  id : Nat := 0
  name : String
  description : String := ""
  least : Option Quantity := none
  most : Option Quantity := none
  length : Option Quantity := none
  unit : Option LengthUnit := none
  /-- The element whose settings stand in for the open ones of this one. -/
  base : Option Designator := none
  kind : Kind
  deriving Repr

namespace Element

def twoDigits (n : Nat) : String := if n < 10 then "0" ++ toString n else toString n

def label (e : Element) : String :=
  e.kind.name ++ "<" ++ twoDigits e.id ++ " " ++ e.name ++ ">"

def struct (name : String) : Element := { name, kind := .struct {} }

def number (name : String) : Element := { name, kind := .number {} }

def text (name : String) (kind : Option TextKind) : Element := { name, kind := .text { kind } }

def binary (name : String) : Element := { name, kind := .binary {} }

def structRef (name : String) (target : Option Designator) : Element :=
  { name, kind := .structRef target }

def grammarRef (name file : String) : Element := { name, kind := .grammarRef file }

def custom (name : String) : Element := { name, kind := .custom none }

def offset (name : String) : Element := { name, kind := .offset {} }

def script (name language text : String) : Element :=
  { name, kind := .script { name, language, text } }

def scriptElement (name : String) (script : Option Designator) : Element :=
  { name, kind := .scriptElement script }

def padding : Element := { name := "padding", kind := .padding }

def grammar (name : String) : Element := { name, kind := .grammar }

def withId (e : Element) (id : Nat) : Element := { e with id }

def withDescription (e : Element) (description : String) : Element := { e with description }

def withLength (e : Element) (length : Quantity) : Element := { e with length }

def withUnit (e : Element) (unit : LengthUnit) : Element := { e with unit }

def withLeast (e : Element) (least : Quantity) : Element := { e with least }

def withMost (e : Element) (most : Quantity) : Element := { e with most }

def withBase (e : Element) (base : Designator) : Element := { e with base }

def withEndian (e : Element) (endian : Endian) : Element :=
  match e.kind with
  | .struct s => { e with kind := .struct { s with endian } }
  | .number s => { e with kind := .number { s with endian } }
  | .offset s => { e with kind := .offset { s with endian } }
  | _ => e

def withSigned (e : Element) (signed : Bool) : Element :=
  match e.kind with
  | .struct s => { e with kind := .struct { s with signed } }
  | .number s => { e with kind := .number { s with signed } }
  | _ => e

def withRadix (e : Element) (radix : Radix) : Element :=
  match e.kind with
  | .struct s => { e with kind := .struct { s with radix } }
  | .number s => { e with kind := .number { s with radix } }
  | .offset s => { e with kind := .offset { s with radix } }
  | _ => e

def withEncoding (e : Element) (encoding : String) : Element :=
  match e.kind with
  | .struct s => { e with kind := .struct { s with encoding } }
  | .text s => { e with kind := .text { s with encoding } }
  | _ => e

def withArrangement (e : Element) (arrangement : Arrangement) : Element :=
  match e.kind with
  | .struct s => { e with kind := .struct { s with arrangement } }
  | _ => e

def withMustMatch (e : Element) (mustMatch : Bool) : Element :=
  match e.kind with
  | .number s => { e with kind := .number { s with mustMatch } }
  | .text s => { e with kind := .text { s with mustMatch } }
  | .binary s => { e with kind := .binary { s with mustMatch } }
  | _ => e

def withValue (e : Element) (value : Fixed Int) : Element :=
  match e.kind with
  | .number s => { e with kind := .number { s with values := s.values ++ [value] } }
  | _ => e

def withBytes (e : Element) (value : Fixed (List UInt8)) : Element :=
  match e.kind with
  | .binary s => { e with kind := .binary { s with values := s.values ++ [value] } }
  | _ => e

def withString (e : Element) (value : Fixed String) : Element :=
  match e.kind with
  | .text s => { e with kind := .text { s with values := s.values ++ [value] } }
  | _ => e

def withScript (e : Element) (script : Designator) : Element :=
  match e.kind with
  | .custom _ => { e with kind := .custom script }
  | .scriptElement _ => { e with kind := .scriptElement script }
  | _ => e

def withRelativeTo (e : Element) (target : Designator) : Element :=
  match e.kind with
  | .offset s => { e with kind := .offset { s with relativeTo := target } }
  | _ => e

def withReferences (e : Element) (target : Designator) : Element :=
  match e.kind with
  | .offset s => { e with kind := .offset { s with references := target } }
  | _ => e

end Element

end ByteGrammar
