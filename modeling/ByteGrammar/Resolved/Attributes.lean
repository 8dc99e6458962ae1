import ByteGrammar.Grammar.Basic

/-!
# Attributes

The settings of an element once nothing is left open. An open setting is taken from the base of
the element, if it has one. Otherwise byte order, sign, encoding, radix and length unit are taken
from the enclosing structure, and what is still open has a default.
-/

set_option autoImplicit false

namespace ByteGrammar

structure Attributes where
  parent : Option ElementId
  base : Option ElementId
  least : Quantity
  most : Quantity
  length : Option Quantity
  unit : LengthUnit
  endian : Endian
  signed : Bool
  encoding : String
  radix : Radix
  arrangement : Arrangement
  mustMatch : Bool
  textKind : TextKind
  /-- The structure that a reference stands for, or the script that an element runs. -/
  target : Option ElementId
  /-- The element whose list of fixed values applies. -/
  valuesFrom : ElementId
  deriving DecidableEq, Repr

structure Settings where
  least : Option Quantity := none
  most : Option Quantity := none
  length : Option Quantity := none
  unit : Option LengthUnit := none
  endian : Option Endian := none
  signed : Option Bool := none
  encoding : Option String := none
  radix : Option Radix := none
  arrangement : Option Arrangement := none
  mustMatch : Option Bool := none
  textKind : Option TextKind := none
  hasValues : Bool := false

def Element.settings (e : Element) : Settings :=
  let common : Settings :=
    { least := e.least, most := e.most, length := e.length, unit := e.unit }
  match e.kind with
  | .struct s =>
    { common with
      endian := s.endian, signed := s.signed, encoding := s.encoding, radix := s.radix,
      arrangement := s.arrangement }
  | .number s =>
    { common with
      endian := s.endian, signed := s.signed, radix := s.radix, mustMatch := s.mustMatch,
      hasValues := !s.values.isEmpty }
  | .text s =>
    { common with
      encoding := s.encoding, mustMatch := s.mustMatch, textKind := s.kind,
      hasValues := !s.values.isEmpty }
  | .binary s => { common with mustMatch := s.mustMatch, hasValues := !s.values.isEmpty }
  | .offset s => { common with endian := s.endian, radix := s.radix }
  | .script _ | .scriptElement _ => { common with length := some (.literal 0) }
  | _ => common

namespace Settings

def defaultEncoding : String := "UTF-8"

def within (own : Settings) (id : ElementId) (place : Option ElementId)
    (parent : Option Attributes) : Attributes where
  parent := place
  base := none
  least := own.least.getD (.literal 1)
  most := own.most.getD (.literal 1)
  length := own.length
  unit := (own.unit.or (parent.map Attributes.unit)).getD .byte
  endian := (own.endian.or (parent.map Attributes.endian)).getD .little
  signed := (own.signed.or (parent.map Attributes.signed)).getD true
  encoding := (own.encoding.or (parent.map Attributes.encoding)).getD defaultEncoding
  radix := (own.radix.or (parent.map Attributes.radix)).getD .decimal
  arrangement := own.arrangement.getD .fixed
  mustMatch := own.mustMatch.getD true
  textKind := own.textKind.getD .zeroTerminated
  target := none
  valuesFrom := id

def inheriting (own : Settings) (id : ElementId) (place : Option ElementId) (baseId : ElementId)
    (base : Attributes) : Attributes where
  parent := place
  base := some baseId
  least := own.least.getD base.least
  most := own.most.getD base.most
  length := own.length.or base.length
  unit := own.unit.getD base.unit
  endian := own.endian.getD base.endian
  signed := own.signed.getD base.signed
  encoding := own.encoding.getD base.encoding
  radix := own.radix.getD base.radix
  arrangement := own.arrangement.getD base.arrangement
  mustMatch := own.mustMatch.getD base.mustMatch
  textKind := own.textKind.getD base.textKind
  target := none
  valuesFrom := if own.hasValues then id else base.valuesFrom

end Settings

instance : Inhabited Attributes := ⟨({} : Settings).within 0 none none⟩

end ByteGrammar
