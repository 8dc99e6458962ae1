/-!
# UTF-8 with replacement

A machine over octets. Each maximal part of the input that no continuation could complete
becomes one replacement character, so every sequence of octets has a text.
-/

set_option autoImplicit false

namespace ByteGrammar.Text

def replacement : Char := Char.ofNat 0xfffd

namespace Utf8

structure Pending where
  owed : Nat
  least : Nat
  greatest : Nat
  bits : Nat

abbrev Position := Option Pending

def first (b : Nat) : List Char × Position :=
  if b < 0x80 then ([Char.ofNat b], none)
  else if b < 0xc2 then ([replacement], none)
  else if b < 0xe0 then ([], some ⟨1, 0x80, 0xbf, b - 0xc0⟩)
  else if b < 0xf0 then
    let least := if b = 0xe0 then 0xa0 else 0x80
    let greatest := if b = 0xed then 0x9f else 0xbf
    ([], some ⟨2, least, greatest, b - 0xe0⟩)
  else if b < 0xf5 then
    let least := if b = 0xf0 then 0x90 else 0x80
    let greatest := if b = 0xf4 then 0x8f else 0xbf
    ([], some ⟨3, least, greatest, b - 0xf0⟩)
  else ([replacement], none)

def step (b : Nat) : Position → List Char × Position
  | none => first b
  | some p =>
    if p.least ≤ b ∧ b ≤ p.greatest then
      let bits := p.bits * 64 + (b - 0x80)
      if p.owed ≤ 1 then ([Char.ofNat bits], none)
      else ([], some ⟨p.owed - 1, 0x80, 0xbf, bits⟩)
    else
      let (cs, next) := first b
      (replacement :: cs, next)

def run : List UInt8 → Position → List Char
  | [], none => []
  | [], some _ => [replacement]
  | b :: rest, p =>
    let (cs, next) := step b.toNat p
    cs ++ run rest next

end Utf8

def ofUtf8 (bytes : List UInt8) : String := String.ofList (Utf8.run bytes none)

end ByteGrammar.Text
