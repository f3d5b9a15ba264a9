import Mathlib.Data.Nat.Bitwise
import Mathlib.Logic.Function.Basic

/-!
# Single bits in an array of bytes

An array of bytes is a function of the byte index. A bit has an address, its byte and its
place in that byte; a bitmap is an array together with an injective choice of addresses,
least significant bit first (`lsb`) or most significant bit first (`msb`).
-/

namespace ByteBits

/-- `(a[byte] >> place) & 1`. -/
def test (a : Nat → UInt8) (byte place : Nat) : Bool := (a byte).toNat.testBit place

/-- `a[byte] |= 1u << place`. -/
def raise (a : Nat → UInt8) (byte place : Nat) : Nat → UInt8 :=
  Function.update a byte (a byte ||| UInt8.ofNat (1 <<< place))

/-- `a[byte] &= ~(1u << place)`. -/
def lower (a : Nat → UInt8) (byte place : Nat) : Nat → UInt8 :=
  Function.update a byte (a byte &&& ~~~ UInt8.ofNat (1 <<< place))

theorem toNat_mask {place : Nat} (h : place < 8) :
    (UInt8.ofNat (1 <<< place)).toNat = 2 ^ place := by
  have hlt : 2 ^ place < 2 ^ 8 := Nat.pow_lt_pow_right (by decide) h
  rw [UInt8.toNat_ofNat', Nat.one_shiftLeft]
  exact Nat.mod_eq_of_lt hlt

theorem test_raise (a : Nat → UInt8) {byte place byte' place' : Nat} (h : place < 8) :
    test (raise a byte place) byte' place' =
      (decide (byte' = byte ∧ place' = place) || test a byte' place') := by
  by_cases hb : byte' = byte
  · subst hb
    simp only [test, raise, Function.update_self, UInt8.toNat_or, Nat.testBit_or, toNat_mask h,
      Nat.testBit_two_pow, true_and, eq_comm, Bool.or_comm]
  · simp [test, raise, hb]

theorem test_lower (a : Nat → UInt8) {byte place byte' place' : Nat} (h : place < 8)
    (h' : place' < 8) :
    test (lower a byte place) byte' place' =
      (!decide (byte' = byte ∧ place' = place) && test a byte' place') := by
  by_cases hb : byte' = byte
  · subst hb
    have hmask : (~~~ UInt8.ofNat (1 <<< place)).toNat = 2 ^ 8 - (2 ^ place + 1) := by
      rw [UInt8.toNat_not, toNat_mask h]
      simp only [UInt8.size]
      omega
    have hlt : 2 ^ place < 2 ^ 8 := Nat.pow_lt_pow_right (by decide) h
    simp only [test, lower, Function.update_self, UInt8.toNat_and, Nat.testBit_and, hmask,
      Nat.testBit_two_pow_sub_succ hlt, h', Nat.testBit_two_pow, true_and, decide_true, eq_comm,
      Bool.and_comm, Bool.true_and]
  · simp [test, lower, hb]

def lsbHas (a : Nat → UInt8) (i : Nat) : Bool := test a (i / 8) (i % 8)

def lsbSet (a : Nat → UInt8) (i : Nat) : Nat → UInt8 := raise a (i / 8) (i % 8)

@[simp] theorem lsbHas_set (a : Nat → UInt8) (i j : Nat) :
    lsbHas (lsbSet a i) j = (decide (j = i) || lsbHas a j) := by
  have haddr : (j / 8 = i / 8 ∧ j % 8 = i % 8) ↔ j = i := by omega
  simp only [lsbHas, lsbSet, test_raise a (Nat.mod_lt i (by decide)), haddr]

@[simp] theorem lsbHas_zero (i : Nat) : lsbHas (fun _ => 0) i = false := by
  simp [lsbHas, test]

/-- `memset(a, 0xff, n)`. -/
@[simp] theorem lsbHas_ones (i : Nat) : lsbHas (fun _ => 255) i = true := by
  have h : i % 8 < 8 := Nat.mod_lt i (by decide)
  have hones : (255 : UInt8).toNat = 2 ^ 8 - 1 := by decide
  simp only [lsbHas, test, hones, Nat.testBit_two_pow_sub_one, h, decide_true]

def msbHas (a : Nat → UInt8) (i : Nat) : Bool := test a (i / 8) (7 - i % 8)

def msbSet (a : Nat → UInt8) (i : Nat) : Nat → UInt8 := raise a (i / 8) (7 - i % 8)

def msbClear (a : Nat → UInt8) (i : Nat) : Nat → UInt8 := lower a (i / 8) (7 - i % 8)

theorem msb_address {i j : Nat} : (j / 8 = i / 8 ∧ 7 - j % 8 = 7 - i % 8) ↔ j = i := by omega

@[simp] theorem msbHas_set (a : Nat → UInt8) (i j : Nat) :
    msbHas (msbSet a i) j = (decide (j = i) || msbHas a j) := by
  simp only [msbHas, msbSet, test_raise a (show 7 - i % 8 < 8 by omega), msb_address]

@[simp] theorem msbHas_clear (a : Nat → UInt8) (i j : Nat) :
    msbHas (msbClear a i) j = (!decide (j = i) && msbHas a j) := by
  simp only [msbHas, msbClear, msb_address,
    test_lower a (show 7 - i % 8 < 8 by omega) (show 7 - j % 8 < 8 by omega)]

@[simp] theorem msbHas_zero (i : Nat) : msbHas (fun _ => 0) i = false := by
  simp [msbHas, test]

end ByteBits
