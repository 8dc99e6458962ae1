/-!
# Blank characters and digits

The characters of Unicode's `White_Space` property, and trimming of text by them; digits of the
bases up to sixteen: their characters, numbers written with a fixed count of digits, and bytes
written as pairs of hexadecimal digits.
-/

set_option autoImplicit false

namespace ByteGrammar.Text

def isBlank (c : Char) : Bool :=
  let n := c.toNat
  (9 ≤ n && n ≤ 0xd) || n == 0x20 || n == 0x85 || n == 0xa0 || n == 0x1680 ||
    (0x2000 ≤ n && n ≤ 0x200a) || n == 0x2028 || n == 0x2029 || n == 0x202f ||
    n == 0x205f || n == 0x3000

def trimLeft (cs : List Char) : List Char := cs.dropWhile isBlank

def trimRight (cs : List Char) : List Char := (cs.reverse.dropWhile isBlank).reverse

def trimmed (cs : List Char) : List Char := trimRight (trimLeft cs)

def trim (text : String) : String := String.ofList (trimmed text.toList)

def digitChar (d : Nat) : Char :=
  if d < 10 then Char.ofNat (48 + d) else Char.ofNat (87 + d)

def digitValue? (base : Nat) (c : Char) : Option Nat :=
  let n := c.toNat
  let d? :=
    if 48 ≤ n ∧ n ≤ 57 then some (n - 48)
    else if 97 ≤ n ∧ n ≤ 102 then some (n - 87)
    else if 65 ≤ n ∧ n ≤ 70 then some (n - 55)
    else none
  d?.filter (· < base)

def fixedDigits (base : Nat) : Nat → Nat → List Char
  | 0, _ => []
  | count + 1, n => fixedDigits base count (n / base) ++ [digitChar (n % base)]

def hexOf (bytes : List UInt8) : String :=
  String.ofList (bytes.flatMap fun b => fixedDigits 16 2 b.toNat)

end ByteGrammar.Text
