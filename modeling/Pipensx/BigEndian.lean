import Mathlib.Data.Nat.Bitwise
import Mathlib.Tactic.Ring
import Pipensx.KeyAgreement

/-!
# Byte strings as big-endian numbers

How byte strings of one length compare, their exclusive or, and the lowest bit that is set.
-/

namespace BigEndian

open KeyAgreement (ofBytes ofBytes_lt)

/-- `memcmp` over the shorter of the two. -/
def memcmp : List UInt8 → List UInt8 → Int
  | a :: as, b :: bs => if a = b then memcmp as bs else if a < b then -1 else 1
  | _, _ => 0

theorem ofBytes_append (as bs : List UInt8) :
    ofBytes (as ++ bs) = ofBytes as * 256 ^ bs.length + ofBytes bs := by
  induction bs using List.reverseRecOn with
  | nil => simp [ofBytes]
  | append_singleton bs b ih =>
    rw [← List.append_assoc, KeyAgreement.ofBytes_append, KeyAgreement.ofBytes_append, ih,
      List.length_append, List.length_singleton, Nat.pow_succ]
    ring

theorem ofBytes_singleton (b : UInt8) : ofBytes [b] = b.toNat := by
  simp [ofBytes]

theorem ofBytes_cons (b : UInt8) (bs : List UInt8) :
    ofBytes (b :: bs) = b.toNat * 256 ^ bs.length + ofBytes bs := by
  rw [← ofBytes_singleton b, ← ofBytes_append, List.singleton_append]

theorem ofBytes_injective {as bs : List UInt8} (hlength : as.length = bs.length)
    (heq : ofBytes as = ofBytes bs) : as = bs := by
  induction as generalizing bs with
  | nil => exact (List.length_eq_zero_iff.mp hlength.symm).symm
  | cons a as ih =>
    obtain _ | ⟨b, bs⟩ := bs
    · contradiction
    have htail : as.length = bs.length := by simpa using hlength
    rw [ofBytes_cons, ofBytes_cons, htail] at heq
    have ha := ofBytes_lt as
    have hb := ofBytes_lt bs
    rw [htail] at ha
    have hhead : a.toNat = b.toNat := by
      have hpos := Nat.pow_pos (n := bs.length) (show 0 < 256 by decide)
      have hdiv := congrArg (· / 256 ^ bs.length) heq
      simp only [Nat.mul_comm _ (256 ^ bs.length), Nat.mul_add_div hpos, Nat.div_eq_of_lt ha,
        Nat.div_eq_of_lt hb] at hdiv
      omega
    have hrest : ofBytes as = ofBytes bs := by
      rw [hhead] at heq
      omega
    rw [UInt8.toNat_inj.mp hhead, ih htail hrest]

/-- Comparing the bytes is comparing the numbers. -/
theorem memcmp_lt_iff {as bs : List UInt8} (hlength : as.length = bs.length) :
    memcmp as bs < 0 ↔ ofBytes as < ofBytes bs := by
  induction as generalizing bs with
  | nil =>
    have : bs = [] := List.length_eq_zero_iff.mp hlength.symm
    simp [this, memcmp]
  | cons a as ih =>
    obtain _ | ⟨b, bs⟩ := bs
    · contradiction
    have htail : as.length = bs.length := by simpa using hlength
    have ha := ofBytes_lt as
    have hb := ofBytes_lt bs
    rw [htail] at ha
    rw [ofBytes_cons, ofBytes_cons, htail]
    by_cases hhead : a = b
    · simp [memcmp, hhead, ih htail]
    · have hne : a.toNat ≠ b.toNat := fun h => hhead (UInt8.toNat_inj.mp h)
      simp only [memcmp, hhead, if_false, UInt8.lt_iff_toNat_lt]
      split
      · next hlt =>
        have := Nat.mul_le_mul_right (256 ^ bs.length) (Nat.succ_le_of_lt hlt)
        rw [Nat.succ_mul] at this
        simp only [Int.reduceNeg, Int.neg_neg_iff_pos, Int.zero_lt_one, true_iff]
        omega
      · next hge =>
        have hlt : b.toNat < a.toNat := by omega
        have := Nat.mul_le_mul_right (256 ^ bs.length) (Nat.succ_le_of_lt hlt)
        rw [Nat.succ_mul] at this
        simp only [Int.reduceLT, false_iff]
        omega

theorem memcmp_eq_zero_iff {as bs : List UInt8} (hlength : as.length = bs.length) :
    memcmp as bs = 0 ↔ as = bs := by
  induction as generalizing bs with
  | nil =>
    have : bs = [] := List.length_eq_zero_iff.mp hlength.symm
    simp [this, memcmp]
  | cons a as ih =>
    obtain _ | ⟨b, bs⟩ := bs
    · contradiction
    have htail : as.length = bs.length := by simpa using hlength
    by_cases hhead : a = b
    · simp [memcmp, hhead, ih htail]
    · simp only [memcmp, hhead, if_false, List.cons.injEq, false_and, iff_false]
      split <;> decide

theorem memcmp_le_iff {as bs : List UInt8} (hlength : as.length = bs.length) :
    memcmp as bs ≤ 0 ↔ ofBytes as ≤ ofBytes bs := by
  have hlt := memcmp_lt_iff hlength
  have heq := memcmp_eq_zero_iff hlength
  constructor
  · intro h
    by_cases hzero : memcmp as bs = 0
    · rw [heq.mp hzero]
    · have := hlt.mp (by omega)
      omega
  · intro h
    by_cases hsame : ofBytes as = ofBytes bs
    · rw [heq.mpr (ofBytes_injective hlength hsame)]
    · have := hlt.mpr (by omega)
      omega

/-- The exclusive or byte by byte is the exclusive or of the numbers. -/
theorem ofBytes_xor {as bs : List UInt8} (hlength : as.length = bs.length) :
    ofBytes (List.zipWith (· ^^^ ·) as bs) = ofBytes as ^^^ ofBytes bs := by
  induction as using List.reverseRecOn generalizing bs with
  | nil =>
    have : bs = [] := List.length_eq_zero_iff.mp hlength.symm
    simp [this, ofBytes]
  | append_singleton as a ih =>
    obtain rfl | ⟨bs, b, rfl⟩ := bs.eq_nil_or_concat
    · simp at hlength
    rw [List.concat_eq_append] at *
    have hinit : as.length = bs.length := by simpa using hlength
    rw [List.zipWith_append hinit]
    simp only [List.zipWith_cons_cons, List.zipWith_nil_left, KeyAgreement.ofBytes_append]
    rw [ih hinit, UInt8.toNat_xor]
    have ha := a.toNat_lt
    have hb := b.toNat_lt
    have hxor : a.toNat ^^^ b.toNat < 2 ^ 8 := Nat.xor_lt_two_pow ha hb
    apply Nat.eq_of_testBit_eq
    intro i
    rw [Nat.testBit_xor, show (256 : Nat) = 2 ^ 8 from rfl, Nat.mul_comm, Nat.mul_comm (ofBytes as),
      Nat.mul_comm (ofBytes bs), Nat.testBit_two_pow_mul_add _ hxor,
      Nat.testBit_two_pow_mul_add _ ha, Nat.testBit_two_pow_mul_add _ hb]
    split <;> simp

/-- Two numbers agree above the bit `t` when their exclusive or ends below it. -/
theorem xor_lt_iff (a b t : Nat) : a ^^^ b < 2 ^ t ↔ a / 2 ^ t = b / 2 ^ t := by
  rw [← Nat.div_eq_zero_iff_lt (Nat.two_pow_pos t), Nat.xor_div_two_pow]
  exact Nat.xor_eq_zero_iff

/-- The number of a string is a multiple of a power of two. -/
theorem ofBytes_zeros (as : List UInt8) (n : Nat) :
    ofBytes (as ++ List.replicate n 0) = ofBytes as * 256 ^ n := by
  have hzero : ofBytes (List.replicate n 0) = 0 := by
    induction n with
    | zero => rfl
    | succ n ih => simp [List.replicate_succ, ofBytes_cons, ih]
  rw [ofBytes_append, hzero, List.length_replicate, Nat.add_zero]

theorem or_bit {b : UInt8} {j : Nat} (hj : j < 8) (hclear : 2 ^ (8 - j) ∣ b.toNat) :
    (b ||| (0x80 >>> UInt8.ofNat j)).toNat = b.toNat + 2 ^ (7 - j) := by
  obtain ⟨m, hm⟩ := hclear
  have hmask : ∀ j < 8, ((0x80 : UInt8) >>> UInt8.ofNat j).toNat = 2 ^ (7 - j) := by decide
  have hlt : 2 ^ (7 - j) < 2 ^ (8 - j) := Nat.pow_lt_pow_right (by decide) (by omega)
  rw [UInt8.toNat_or, hmask j hj, hm, Nat.two_pow_add_eq_or_of_lt hlt]

/-- Setting a bit behind which everything is zero adds its weight. -/
theorem ofBytes_or_bit {pre post : List UInt8} {b : UInt8} {j : Nat} (hj : j < 8)
    (hclear : 2 ^ (8 - j) * 256 ^ post.length ∣ ofBytes (pre ++ b :: post)) :
    ofBytes (pre ++ (b ||| (0x80 >>> UInt8.ofNat j)) :: post) =
      ofBytes (pre ++ b :: post) + 2 ^ (7 - j) * 256 ^ post.length := by
  have hpost := ofBytes_lt post
  have hsplit (c : UInt8) : ofBytes (pre ++ c :: post) =
      (ofBytes pre * 256 + c.toNat) * 256 ^ post.length + ofBytes post := by
    rw [ofBytes_append, ofBytes_cons, List.length_cons, Nat.pow_succ]
    ring
  have hbyte : 2 ^ (8 - j) ∣ b.toNat := by
    obtain ⟨m, hm⟩ := hclear
    have hpos := Nat.pow_pos (n := post.length) (show 0 < 256 by decide)
    have hhigh : ofBytes pre * 256 + b.toNat = 2 ^ (8 - j) * m := by
      have hdiv := congrArg (· / 256 ^ post.length) ((hsplit b).symm.trans hm)
      rw [Nat.mul_right_comm, Nat.mul_div_cancel _ hpos, Nat.mul_comm, Nat.mul_add_div hpos,
        Nat.div_eq_of_lt hpost, Nat.add_zero] at hdiv
      exact hdiv
    have hwhole : 2 ^ (8 - j) ∣ ofBytes pre * 256 :=
      Dvd.dvd.mul_left (Nat.pow_dvd_pow 2 (show 8 - j ≤ 8 by omega)) _
    exact (Nat.dvd_add_right hwhole).mp (hhigh ▸ Nat.dvd_mul_right _ _)
  rw [hsplit, hsplit, or_bit hj hbyte]
  ring

end BigEndian
