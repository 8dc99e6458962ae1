import ByteGrammar.Text.Utf8
import ByteGrammar.Number.MachineInt

/-!
# UTF-16 with replacement

Unpaired surrogates become replacement characters. An input that ends inside a character, by an
odd byte, by a lead surrogate or by both, ends in one replacement character.
-/

set_option autoImplicit false

namespace ByteGrammar.Text
namespace Utf16

def isLead (u : Nat) : Bool := 0xd800 ≤ u && u < 0xdc00

def isTrail (u : Nat) : Bool := 0xdc00 ≤ u && u < 0xe000

def units (order : ByteOrder) : List UInt8 → List Nat
  | a :: b :: rest => order.valueOf [a, b] :: units order rest
  | _ => []

def characters (cut : Bool) : List Nat → List Char
  | [] => if cut then [replacement] else []
  | u :: rest =>
    if isLead u then
      match rest with
      | [] => [replacement]
      | v :: later =>
        if isTrail v then
          Char.ofNat (0x10000 + (u - 0xd800) * 0x400 + (v - 0xdc00)) :: characters cut later
        else replacement :: characters cut (v :: later)
    else if isTrail u then replacement :: characters cut rest
    else Char.ofNat u :: characters cut rest

end Utf16

def ofUtf16 (order : ByteOrder) (bytes : List UInt8) : String :=
  String.ofList (Utf16.characters (bytes.length % 2 == 1) (Utf16.units order bytes))

end ByteGrammar.Text
