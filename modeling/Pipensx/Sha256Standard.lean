import Mathlib.Data.Nat.NthRoot.Defs
import Mathlib.Data.Nat.Prime.Defs
import Pipensx.Sha256

/-!
# SHA-256 as FIPS 180-4 has it

The constants of the standard are taken from the roots of the first primes, and the table of the
code is compared with them. Every byte that goes in keeps the buffer and the counter in step with
the message; the end needs one block or two.
-/

namespace Sha256

open BlockHash (rest absorb memcpy memcpy_length memcpy_take memcpy_full absorb_short
  absorb_block absorb_append
  rest_short rest_block rest_append rest_length rest_whole absorb_whole shifted_byte rotr ch maj
  blockWord bigWord bigEndian pad padding)

namespace Standard

/-- The first 64 primes. -/
def primes : List Nat := (List.range 312).filter fun p => Nat.Prime p

/-- The first 32 bits behind the point of the cube roots. -/
def K : List UInt32 := primes.map fun p => UInt32.ofNat (Nat.nthRoot 3 (p * 2 ^ 96))

/-- The first 32 bits behind the point of the square roots of the first eight primes. -/
def initial : Eight :=
  let H i := UInt32.ofNat (Nat.nthRoot 2 (primes.getD i 0 * 2 ^ 64))
  ⟨H 0, H 1, H 2, H 3, H 4, H 5, H 6, H 7⟩

def bigSigma0 (x : UInt32) : UInt32 := rotr x 2 ^^^ rotr x 13 ^^^ rotr x 22

def bigSigma1 (x : UInt32) : UInt32 := rotr x 6 ^^^ rotr x 11 ^^^ rotr x 25

def smallSigma0 (x : UInt32) : UInt32 := rotr x 7 ^^^ rotr x 18 ^^^ (x >>> 3)

def smallSigma1 (x : UInt32) : UInt32 := rotr x 17 ^^^ rotr x 19 ^^^ (x >>> 10)

/-- The message schedule of a block. -/
def W (block : List UInt8) (t : Nat) : UInt32 :=
  if t < 16 then blockWord block t
  else smallSigma1 (W block (t - 2)) + W block (t - 7) + smallSigma0 (W block (t - 15)) + W
    block (t - 16)

/-- One round on the working variables. -/
def step (block : List UInt8) (s : Eight) (t : Nat) : Eight :=
  let T1 := s.h + bigSigma1 s.e + ch s.e s.f s.g + K.getD t 0 + W block t
  let T2 := bigSigma0 s.a + maj s.a s.b s.c
  ⟨T1 + T2, s.a, s.b, s.c, s.d + T1, s.e, s.f, s.g⟩

def compress (H : Eight) (block : List UInt8) : Eight :=
  let s := (List.range 64).foldl (step block) H
  ⟨s.a + H.a, s.b + H.b, s.c + H.c, s.d + H.d, s.e + H.e, s.f + H.f, s.g + H.g, s.h + H.h⟩

def hash (m : List UInt8) : List UInt8 :=
  (absorb compress 64 initial (pad m)).words.flatMap fun word : UInt32 => bigEndian 4 word.toNat

end Standard

open Standard (W)

/-- A number below 324 is prime if no number below 18 divides it properly. -/
theorem prime_below {p : Nat} (h : p < 18 * 18) :
    Nat.Prime p ↔ 2 ≤ p ∧ ∀ m < 18, 2 ≤ m → m < p → ¬ m ∣ p := by
  constructor
  · exact fun hp => ⟨hp.two_le, fun m _ htwo hlt hdvd => (Nat.prime_def_lt'.mp hp).2 m
      htwo hlt hdvd⟩
  · rintro ⟨htwo, hnone⟩
    refine Nat.prime_def_le_sqrt.mpr ⟨htwo, fun m hm hsqrt => ?_⟩
    have hsquare : m * m ≤ p := Nat.le_sqrt.mp hsqrt
    have hsmall : m < 18 := Nat.mul_self_lt_mul_self_iff.mp (by omega)
    have hproper : 2 * m ≤ m * m := Nat.mul_le_mul_right m hm
    exact hnone m hsmall hm (by omega)

theorem table_standard : k = Standard.K := by
  -- the primes by division, which the kernel counts out faster
  have hprimes : Standard.primes = (List.range 312).filter fun p => 2 ≤ p ∧ ∀ m < 18, 2 ≤ m →
    m < p → ¬ m ∣ p := by
    refine List.filter_congr fun p hp => decide_eq_decide.mpr (prime_below ?_)
    have hlt := List.mem_range.mp hp
    omega
  rw [Standard.K, hprimes]
  decide +kernel

theorem initial_standard : sha256Init.state = Standard.initial := by decide +kernel

section Rounds

variable {block : List UInt8} {w : List UInt32}

theorem getD_set {i : Nat} (h : i < w.length) (x : UInt32) (t : Nat) :
    (w.set i x).getD t 0 = if i = t then x else w.getD t 0 := by
  rw [List.getD_eq_getElem?_getD, List.getElem?_set, List.getD_eq_getElem?_getD]
  split <;> rfl

theorem loadWords_eq : loadWords block w =
    (List.range 16).foldl (fun w i => w.set i (blockWord block i)) w := by
  simp only [loadWords, blockWord, bigWord, Nat.mul_comm 4]

theorem loadWords_spec (h : w.length = 64) :
    (loadWords block w).length = 64 ∧ ∀ t, t < 16 → (loadWords block w).getD t 0 =
      blockWord block t := by
  have hall : ∀ n, n ≤ 16 →
      ((List.range n).foldl (fun w i => w.set i (blockWord block i)) w).length = 64 ∧
      ∀ t, t < n → ((List.range n).foldl (fun w i => w.set i (blockWord block i)) w).getD t 0 =
        blockWord block t := by
    intro n
    induction n with
    | zero => exact fun _ => ⟨h, fun t ht => absurd ht (Nat.not_lt_zero t)⟩
    | succ n ih =>
      intro hn
      obtain ⟨hlength, hwords⟩ := ih (by omega)
      rw [List.range_succ, List.foldl_append, List.foldl_cons, List.foldl_nil]
      refine ⟨by rw [List.length_set, hlength], fun t ht => ?_⟩
      rw [getD_set (by omega)]
      split
      · next heq => rw [heq]
      · exact hwords t (by omega)
  rw [loadWords_eq]
  exact hall 16 (Nat.le_refl 16)

theorem W_first {t : Nat} (h : t < 16) : W block t = blockWord block t := by
  rw [W, if_pos h]

theorem W_later {t : Nat} (h : ¬ t < 16) :
    W block t = Standard.smallSigma1 (W block (t - 2)) + W block (t - 7) + Standard.smallSigma0
    (W block (t - 15)) +
      W block (t - 16) := by
  rw [W, if_neg h]

theorem nextWord_eq {t : Nat} (h : ¬ t < 16) (hw : ∀ u, u < t → w.getD u 0 = W block u) :
    nextWord w t = W block t := by
  have hsum : ∀ a b c d : UInt32, a + b + c + d = d + c + b + a := by
    intro a b c d
    ac_rfl
  rw [nextWord, hw (t - 15) (by omega), hw (t - 2) (by omega), hw (t - 16) (by omega),
    hw (t - 7) (by omega), W_later h]
  exact hsum _ _ _ _

theorem extendWords_spec (h : w.length = 64)
    (hfirst : ∀ t, t < 16 → w.getD t 0 = blockWord block t) :
    ∀ t, t < 64 → (extendWords w).getD t 0 = W block t := by
  have hall : ∀ n, n ≤ 48 →
      ((List.range' 16 n).foldl (fun w i => w.set i (nextWord w i)) w).length = 64 ∧
      ∀ t, t < 16 + n → ((List.range' 16 n).foldl (fun w i => w.set i (nextWord w i)) w).getD t 0 =
        W block t := by
    intro n
    induction n with
    | zero => exact fun _ => ⟨h, fun t ht => (hfirst t ht).trans (W_first ht).symm⟩
    | succ n ih =>
      intro hn
      obtain ⟨hlength, hwords⟩ := ih (by omega)
      rw [List.range'_concat, List.foldl_append, List.foldl_cons, List.foldl_nil, Nat.one_mul]
      refine ⟨by rw [List.length_set, hlength], fun t ht => ?_⟩
      rw [getD_set (by omega), nextWord_eq (by omega) hwords]
      split
      · next heq => rw [heq]
      · exact hwords t (by omega)
  exact (hall 48 (Nat.le_refl 48)).2

theorem rounds_standard (hw : ∀ t, t < 64 → w.getD t 0 = W block t) (state : Eight) (n : Nat)
    (hn : n ≤ 64) :
    (List.range n).foldl (round w) state = (List.range n).foldl (Standard.step block) state := by
  induction n with
  | zero => rw [List.range_zero, List.foldl_nil, List.foldl_nil]
  | succ n ih =>
    rw [List.range_succ, List.foldl_append, List.foldl_append, ih (by omega), List.foldl_cons,
      List.foldl_nil, List.foldl_cons, List.foldl_nil, round, hw n (by omega), table_standard]
    rfl

/-- The transform is the compression function of the standard. -/
theorem transform_standard (state : Eight) (block : List UInt8) :
    transform state block = Standard.compress state block := by
  obtain ⟨hlength, hfirst⟩ := @loadWords_spec block (List.replicate 64 0) List.length_replicate
  rw [transform, rounds_standard (extendWords_spec hlength hfirst) state 64 (Nat.le_refl 64),
    Standard.compress]
  simp only [UInt32.add_comm]

end Rounds

/-- The context has taken in a message. -/
structure Holds (m : List UInt8) (ctx : Sha256Ctx) : Prop where
  state : ctx.state = absorb Standard.compress 64 Standard.initial m
  data : ctx.data.take ctx.dataLen = rest 64 m
  size : ctx.data.length = 64
  dataLen : ctx.dataLen = m.length % 64
  bitLen : ctx.bitLen.toNat = 8 * (m.length / 64 * 64) % 2 ^ 64

section Context

variable {m : List UInt8} {ctx : Sha256Ctx}

theorem holds_init : Holds [] sha256Init := by
  refine ⟨?_, ?_, List.length_replicate, rfl, rfl⟩
  · rw [absorb_short _ _ (by decide), initial_standard]
  · rw [rest_short (by decide)]
    rfl

theorem Holds.updateByte (h : Holds m ctx) (byte : UInt8) :
    Holds (m ++ [byte]) (updateByte ctx byte) := by
  have hlen := h.dataLen
  have hbits := h.bitLen
  have hsize := h.size
  have hrest : (rest 64 m).length = ctx.dataLen := (rest_length (by decide) m).trans hlen.symm
  have hone : (m ++ [byte]).length = m.length + 1 := List.length_append
  have hplace : ctx.dataLen + [byte].length ≤ ctx.data.length := by
    rw [List.length_singleton]
    omega
  have hmore : (rest 64 m ++ [byte]).length = ctx.dataLen + 1 := by
    rw [List.length_append, hrest, List.length_singleton]
  rw [Sha256.updateByte]
  split
  · next hfull =>
    have hblock : memcpy ctx.data ctx.dataLen [byte] = rest 64 m ++ [byte] := by
      rw [memcpy_full (by rw [List.length_singleton]; omega), h.data]
    refine ⟨?_, ?_, ?_, ?_, ?_⟩
    · show transform ctx.state _ = _
      rw [hblock, transform_standard, h.state, absorb_append,
        absorb_whole _ _ (by decide) (hmore.trans hfull)]
    · show List.take 0 _ = _
      rw [rest_append, rest_whole (by decide) (hmore.trans hfull), List.take_zero]
    · exact (memcpy_length hplace).trans hsize
    · show 0 = (m ++ [byte]).length % 64
      omega
    · show (ctx.bitLen + 512).toNat = _
      rw [UInt64.toNat_add, hone, show UInt64.toNat 512 = 512 from rfl]
      omega
  · next hopen =>
    have hshort : (rest 64 m ++ [byte]).length < 64 := by omega
    refine ⟨?_, ?_, ?_, ?_, ?_⟩
    · show ctx.state = _
      rw [h.state, absorb_append, absorb_short _ _ hshort]
    · rw [rest_append, rest_short hshort, ← h.data]
      exact @memcpy_take _ ctx.data [byte] ctx.dataLen (by omega)
    · exact (memcpy_length hplace).trans hsize
    · show ctx.dataLen + 1 = (m ++ [byte]).length % 64
      omega
    · show ctx.bitLen.toNat = _
      rw [hone]
      omega

theorem holds_update (h : Holds m ctx) (input : List UInt8) :
    Holds (m ++ input) (sha256Update ctx input) := by
  induction input generalizing m ctx with
  | nil =>
    rw [List.append_nil]
    exact h
  | cons byte input ih =>
    have hnext := ih (h.updateByte byte)
    rwa [List.append_assoc, List.singleton_append] at hnext

theorem holds_chunks (chunks : List (List UInt8)) :
    Holds chunks.flatten (chunks.foldl sha256Update sha256Init) :=
  BlockHash.foldl_chunks holds_update chunks holds_init

/-- Zeros from an index up to a limit. -/
theorem zeroLoop_spec {limit i : Nat} {data : List UInt8} (hi : i ≤ limit)
    (hlimit : limit ≤ data.length) :
    zeroLoop limit data i = data.take i ++ List.replicate (limit - i) 0 ++ data.drop limit := by
  induction data, i using zeroLoop.induct limit with
  | case1 data i h ih =>
    have hlength : (memcpy data i [0]).length = data.length :=
      memcpy_length (by rw [List.length_singleton]; omega)
    have htake : (memcpy data i [0]).take (i + 1) = data.take i ++ [0] :=
      @memcpy_take _ data [0] i (by omega)
    have hdrop : (memcpy data i [0]).drop limit = data.drop limit :=
      BlockHash.memcpy_drop (by omega) h
    rw [zeroLoop, if_pos h, ih h (hlimit.trans_eq hlength.symm), htake, hdrop, show limit - i =
      limit - (i + 1) + 1 by omega, List.replicate_succ]
    simp
  | case2 data i h =>
    rw [zeroLoop, if_neg h, show limit = i by omega, Nat.sub_self, List.replicate_zero,
      List.append_nil, List.take_append_drop]

theorem zeroLoop_length {limit i : Nat} {data : List UInt8} (hi : i ≤ limit)
    (hlimit : limit ≤ data.length) : (zeroLoop limit data i).length = data.length := by
  rw [zeroLoop_spec hi hlimit, List.length_append, List.length_append, List.length_take,
    List.length_replicate, List.length_drop]
  omega

theorem zeroLoop_take {limit i : Nat} {data : List UInt8} (hi : i ≤ limit)
    (hlimit : limit ≤ data.length) :
    (zeroLoop limit data i).take limit = data.take i ++ List.replicate (limit - i) 0 := by
  rw [zeroLoop_spec hi hlimit,
    List.take_left' (by rw [List.length_append, List.length_take, List.length_replicate]; omega)]

/-- The last eight bytes are written from the end on. -/
theorem length_bytes {data : List UInt8} (h : data.length = 64) (b : Nat → UInt8) (n : Nat)
    (hn : n ≤ 64) : (List.range n).foldl (fun data j => memcpy data (63 - j) [b j]) data =
      data.take (64 - n) ++ ((List.range n).map b).reverse := by
  induction n with
  | zero =>
    rw [List.take_of_length_le (by omega)]
    simp
  | succ n ih =>
    have hlength : (data.take (64 - n)).length = 63 - n + 1 := by
      rw [List.length_take]
      omega
    rw [List.range_succ, List.foldl_append, ih (by omega), List.foldl_cons, List.foldl_nil, memcpy,
      List.length_singleton, List.drop_left' hlength, List.take_append_of_le_length (by omega),
      List.take_take,
      Nat.min_eq_left (by omega), List.map_append, List.reverse_append, show 63 - n =
        64 - (n + 1) by omega]
    simp

theorem bitLen_byte (bitLen : UInt64) (j : Nat) (h : j < 8) :
    (bitLen >>> UInt64.ofNat (j * 8)).toUInt8 = UInt8.ofNat (bitLen.toNat >>> (8 * j)) := by
  have hshift : (UInt64.ofNat (j * 8)).toNat % 64 = 8 * j := by
    rw [UInt64.toNat_ofNat']
    omega
  refine UInt8.toNat_inj.mp ?_
  rw [UInt64.toNat_toUInt8, UInt64.toNat_shiftRight, hshift, UInt8.toNat_ofNat']

theorem bigEndian_reverse (bitLen : UInt64) :
    ((List.range 8).map fun j => (bitLen >>> UInt64.ofNat (j * 8)).toUInt8).reverse =
      bigEndian 8 bitLen.toNat := by
  have hbytes : ((List.range 8).map fun j => (bitLen >>> UInt64.ofNat (j * 8)).toUInt8) =
      (List.range 8).map fun j => UInt8.ofNat (bitLen.toNat >>> (8 * j)) :=
    List.map_congr_left fun j hj => bitLen_byte bitLen j (List.mem_range.mp hj)
  rw [hbytes]
  rfl

theorem word_bytes (word : UInt32) :
    [(word >>> 24).toUInt8, (word >>> 16).toUInt8, (word >>> 8).toUInt8, word.toUInt8] =
      bigEndian 4 word.toNat := by
  rw [shifted_byte word 24 (by decide), shifted_byte word 16 (by decide),
    shifted_byte word 8 (by decide)]
  rfl

/-- The number of bits is that of the whole blocks and that of what is left. -/
theorem Holds.bits (h : Holds m ctx) :
    (ctx.bitLen + UInt64.ofNat ctx.dataLen * 8).toNat % 2 ^ 64 = 8 * m.length % 2 ^ 64 := by
  have hbits := h.bitLen
  have hlen := h.dataLen
  rw [UInt64.toNat_add, UInt64.toNat_mul, UInt64.toNat_ofNat', show UInt64.toNat 8 = 8 from rfl]
  omega

/-- The digest of what the context has taken in. -/
theorem Holds.final (h : Holds m ctx) : sha256Final ctx = Standard.hash m := by
  have hlen := h.dataLen
  have hsize := h.size
  have hrest : (rest 64 m).length = ctx.dataLen := (rest_length (by decide) m).trans hlen.symm
  have hmark : (memcpy ctx.data ctx.dataLen [0x80]).length = 64 :=
    (memcpy_length (by rw [List.length_singleton]; omega)).trans hsize
  have hfront : (memcpy ctx.data ctx.dataLen [0x80]).take (ctx.dataLen + 1) =
    rest 64 m ++ [0x80] := by
    rw [← h.data]
    exact @memcpy_take _ ctx.data [0x80] ctx.dataLen (by omega)
  have hbytes : ∀ data : List UInt8, data.length = 64 →
      (List.range 8).foldl (fun data j => memcpy data (63 - j)
        [((ctx.bitLen + UInt64.ofNat ctx.dataLen * 8) >>> UInt64.ofNat (j * 8)).toUInt8]) data =
        data.take 56 ++ bigEndian 8 (8 * m.length) := by
    intro data hdata
    rw [length_bytes hdata _ 8 (by decide), bigEndian_reverse, BlockHash.bigEndian_congr h.bits]
  rw [sha256Final, Standard.hash, pad, absorb_append, ← h.state]
  simp only [word_bytes]
  congr 2
  split
  · next hlong =>
    have hfull : zeroLoop 64 (memcpy ctx.data ctx.dataLen [0x80]) (ctx.dataLen + 1) =
        rest 64 m ++ [0x80] ++ List.replicate (64 - (ctx.dataLen + 1)) 0 := by
      rw [zeroLoop_spec (by omega) (by omega), hfront, List.drop_eq_nil_of_le (by omega),
        List.append_nil]
    have hlength := zeroLoop_length (show ctx.dataLen + 1 ≤ 64 by omega) (le_of_eq hmark.symm)
    have hzeros : BlockHash.zeros m.length = 64 - (ctx.dataLen + 1) + 56 := by
      rw [BlockHash.zeros_iff]
      omega
    have hsplit : rest 64 m ++ padding m.length =
        (rest 64 m ++ [0x80] ++ List.replicate (64 - (ctx.dataLen + 1)) 0) ++
          (List.replicate 56 0 ++ bigEndian 8 (8 * m.length)) := by
      rw [padding, hzeros, List.replicate_add]
      simp
    simp only
    rw [hbytes _ (by rw [zeroLoop_length (by omega) (by omega)]; omega),
      zeroLoop_take (by omega) (by omega),
      List.take_zero, List.nil_append, Nat.sub_zero, transform_standard, transform_standard,
      hfull, hsplit,
      absorb_block _ _ (by decide) (by rw [← hfull]; omega), absorb_whole _ _ (by decide) (by simp)]
  · next hshort =>
    have hzeros : BlockHash.zeros m.length = 56 - (ctx.dataLen + 1) := by
      rw [BlockHash.zeros_iff]
      omega
    have hsplit : rest 64 m ++ padding m.length =
        rest 64 m ++ [0x80] ++ List.replicate (56 - (ctx.dataLen + 1)) 0 ++
        bigEndian 8 (8 * m.length) := by
      rw [padding, hzeros]
      simp
    have hlength : (rest 64 m ++ [0x80] ++ List.replicate (56 - (ctx.dataLen + 1)) 0 ++
        bigEndian 8 (8 * m.length)).length = 64 := by
      simp
      omega
    simp only
    rw [hbytes _ (by rw [zeroLoop_length (by omega) (by omega)]; omega), zeroLoop_take (by omega)
      (by omega), hfront, transform_standard, hsplit, absorb_whole _ _ (by decide) hlength]

end Context

/-- The digest of a message is that of the standard, in whatever chunks the message comes. -/
theorem sha256_standard (chunks : List (List UInt8)) :
    sha256Final (chunks.foldl sha256Update sha256Init) = Standard.hash chunks.flatten :=
  (holds_chunks chunks).final

theorem sha256_whole (data : List UInt8) : sha256 data = Standard.hash data :=
  (holds_update holds_init data).final

end Sha256
