import Mathlib.Data.List.Induction
import Mathlib.Data.Nat.ModEq

/-!
# Key agreement by exponentiation

Numbers as big-endian bytes of a fixed length, and two parties who raise a common base to
their secret exponents, modulo a number that fits the length.
-/

namespace KeyAgreement

def ofBytes (bytes : List UInt8) : Nat := bytes.foldl (fun n b => n * 256 + b.toNat) 0

def toBytes : Nat → Nat → List UInt8
  | 0, _ => []
  | len + 1, n => toBytes len (n / 256) ++ [UInt8.ofNat n]

theorem ofBytes_append (bytes : List UInt8) (b : UInt8) :
    ofBytes (bytes ++ [b]) = ofBytes bytes * 256 + b.toNat := by
  simp [ofBytes]

@[simp] theorem toBytes_length (len n : Nat) : (toBytes len n).length = len := by
  induction len generalizing n with
  | zero => rfl
  | succ len ih => simp [toBytes, ih]

theorem ofBytes_toBytes (len n : Nat) : ofBytes (toBytes len n) = n % 256 ^ len := by
  induction len generalizing n with
  | zero => simp [toBytes, ofBytes, Nat.mod_one]
  | succ len ih =>
    have hlow : (UInt8.ofNat n).toNat = n % 256 := UInt8.toNat_ofNat'
    rw [toBytes, ofBytes_append, ih, hlow, Nat.pow_succ', Nat.mod_mul]
    omega

theorem ofBytes_lt (bytes : List UInt8) : ofBytes bytes < 256 ^ bytes.length := by
  induction bytes using List.reverseRecOn with
  | nil => decide
  | append_singleton bytes b ih =>
    have hb := b.toNat_lt
    rw [ofBytes_append, List.length_append, List.length_singleton, Nat.pow_succ]
    omega

/-- The number survives its bytes if it is below the modulus and the modulus has them. -/
theorem ofBytes_mod (modulus : List UInt8) (positive : 0 < ofBytes modulus) (n : Nat) :
    ofBytes (toBytes modulus.length (n % ofBytes modulus)) = n % ofBytes modulus := by
  rw [ofBytes_toBytes]
  have hbelow := Nat.mod_lt n positive
  exact Nat.mod_eq_of_lt (Nat.lt_trans hbelow (ofBytes_lt modulus))

theorem pow_agree (g a b p : Nat) : (g ^ a % p) ^ b % p = (g ^ b % p) ^ a % p := by
  rw [← Nat.pow_mod, ← Nat.pow_mod, ← Nat.pow_mul, ← Nat.pow_mul, Nat.mul_comm]

end KeyAgreement
