/-!
# Machine integers

Integers in a container of 8, 16, 32 or 64 bits. A run of one to eight bytes, in either order, is
read into the smallest container that holds it, and its sign bit is that of the run, not of the
container. Fixed values are compared by the bits of the field's width: a literal stands for a
pattern if it is representable in that width with or without a sign, so that both -1 and 0xff
match the byte ff.
-/

set_option autoImplicit false

namespace ByteGrammar

def wordCount (bits : Nat) : Nat := Nat.pow 2 bits

theorem word_count_pos (bits : Nat) : 0 < wordCount bits := Nat.pow_pos (by decide)

theorem word_count_succ (bits : Nat) : wordCount (bits + 1) = 2 * wordCount bits :=
  Nat.mul_comm (wordCount bits) 2

theorem word_count_le {bits bits' : Nat} (h : bits ≤ bits') : wordCount bits ≤ wordCount bits' :=
  Nat.pow_le_pow_right (by decide) h

inductive ByteOrder where
  | big
  | little
  deriving DecidableEq, Repr, Inhabited

def lowFirst : List UInt8 → Nat
  | [] => 0
  | b :: rest => b.toNat + 256 * lowFirst rest

def ByteOrder.valueOf : ByteOrder → List UInt8 → Nat
  | .little, bytes => lowFirst bytes
  | .big, bytes => lowFirst bytes.reverse

def lowBytes : Nat → Nat → List UInt8
  | 0, _ => []
  | count + 1, n => UInt8.ofNat (n % 256) :: lowBytes count (n / 256)

inductive Size where
  | byte
  | half
  | word
  | double
  deriving DecidableEq, Repr

def Size.bits : Size → Nat
  | .byte => 8
  | .half => 16
  | .word => 32
  | .double => 64

def Size.holding? : Nat → Option Size
  | 1 => some .byte
  | 2 => some .half
  | 3 | 4 => some .word
  | 5 | 6 | 7 | 8 => some .double
  | _ => none

theorem Size.bits_pos (size : Size) : 0 < size.bits := by
  cases size <;> decide

theorem Size.bits_le (size : Size) : size.bits ≤ 64 := by
  cases size <;> decide

def wrap (signed : Bool) (bits : Nat) (n : Int) : Int :=
  if signed then n.bmod (wordCount bits) else n % wordCount bits

def Fits (signed : Bool) (bits : Nat) (n : Int) : Prop :=
  if signed then -(wordCount (bits - 1) : Int) ≤ n ∧ n < wordCount (bits - 1)
  else 0 ≤ n ∧ n < wordCount bits

theorem fits_wrap (signed : Bool) {bits : Nat} (h : 0 < bits) (n : Int) :
    Fits signed bits (wrap signed bits n) := by
  obtain ⟨k, rfl⟩ : ∃ k, bits = k + 1 := ⟨bits - 1, by omega⟩
  have hpos := word_count_pos (k + 1)
  cases signed with
  | false => exact ⟨Int.emod_nonneg _ (by omega), Int.emod_lt_of_pos _ (by omega)⟩
  | true =>
    have hsucc := word_count_succ k
    have lower := Int.le_bmod (x := n) hpos
    have upper := Int.bmod_lt (x := n) hpos
    simp only [Fits, wrap, if_true, Nat.add_sub_cancel]
    omega

section
variable {signed : Bool} {bits : Nat} {n : Int}

theorem wrap_of_fits (hbits : 0 < bits) (h : Fits signed bits n) : wrap signed bits n = n := by
  cases signed with
  | false => exact Int.emod_eq_of_lt h.1 h.2
  | true =>
    obtain ⟨k,rfl⟩ := Nat.exists_eq_add_of_lt hbits
    simp only [Nat.zero_add] at h ⊢
    have hsucc := word_count_succ k
    simp only [Fits, if_true, Nat.add_sub_cancel] at h
    rw [wrap, if_pos rfl]
    apply Int.bmod_eq_of_le <;> omega

theorem Fits.wider {bits' : Nat} (h : Fits signed bits n) (hbits : bits ≤ bits') :
    Fits signed bits' n := by
  have hle := word_count_le hbits
  have hhalf := word_count_le (Nat.sub_le_sub_right hbits 1)
  cases signed <;> simp only [Fits, if_true, Bool.false_eq_true, if_false] at h ⊢ <;> omega

end

structure MachineInt where
  size : Size
  signed : Bool
  value : Int
  fits : Fits signed size.bits value

namespace MachineInt

def ofInt (size : Size) (signed : Bool) (n : Int) : MachineInt where
  size := size
  signed := signed
  value := wrap signed size.bits n
  fits := fits_wrap signed size.bits_pos n

def ofBytes? (order : ByteOrder) (signed : Bool) (bytes : List UInt8) : Option MachineInt :=
  (Size.holding? bytes.length).map fun size =>
    ofInt size signed (wrap signed (8 * bytes.length) (order.valueOf bytes))

def bits (i : MachineInt) : Nat := i.size.bits

def toSigned (i : MachineInt) : Int := wrap true 64 i.value

def toUnsigned (i : MachineInt) : Nat := (wrap false 64 i.value).toNat

end MachineInt

def patternCount (width : Nat) : Nat := wordCount (8 * min width 8)

def fieldWidth (width : Nat) : Nat := max 1 (min width 8)

def MachineInt.pattern (i : MachineInt) (width : Nat) : Nat := i.toUnsigned % patternCount width

def literalPattern? (literal : Int) (width : Nat) : Option Nat :=
  let bits := 8 * fieldWidth width
  if -(wordCount (bits - 1) : Int) ≤ literal ∧ literal < wordCount bits then
    some (literal % patternCount width).toNat
  else none

def MachineInt.isMatch (i : MachineInt) (literal : Int) (width : Nat) : Bool :=
  literalPattern? literal width == some (i.pattern width)

end ByteGrammar
