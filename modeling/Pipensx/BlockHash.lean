import Mathlib.Data.List.Basic
import Mathlib.Tactic.IntervalCases

/-!
# Hashing a message block by block

A message is cut into blocks, which are folded into a state; what is left over waits for more. A
message that comes in pieces gives the same state as the whole message. The padding is that of the
hash functions with blocks of 64 bytes (FIPS 180-4, 5.1.1), and words are big-endian.
-/

namespace BlockHash

variable {α σ : Type}

/-- The whole blocks of a message. -/
def blocks (size : Nat) (m : List α) : List (List α) :=
  if 0 < size ∧ size ≤ m.length then m.take size :: blocks size (m.drop size) else []
termination_by m.length
decreasing_by
  rw [List.length_drop]
  omega

/-- What is left behind the whole blocks. -/
def rest (size : Nat) (m : List α) : List α :=
  if 0 < size ∧ size ≤ m.length then rest size (m.drop size) else m
termination_by m.length
decreasing_by
  rw [List.length_drop]
  omega

/-- The whole blocks of a message go into a state. -/
def absorb (compress : σ → List α → σ) (size : Nat) (s : σ) (m : List α) : σ :=
  (blocks size m).foldl compress s

section Blocks

variable {size : Nat} {m : List α}

theorem blocks_short (h : m.length < size) : blocks size m = [] := by
  rw [blocks, if_neg (by omega)]

theorem rest_short (h : m.length < size) : rest size m = m := by
  rw [rest, if_neg (by omega)]

theorem blocks_block {b : List α} (hsize : 0 < size) (hb : b.length = size) (m : List α) :
    blocks size (b ++ m) = b :: blocks size m := by
  rw [blocks, if_pos ⟨hsize, by rw [List.length_append]; omega⟩, List.take_left' hb,
    List.drop_left' hb]

theorem rest_block {b : List α} (hsize : 0 < size) (hb : b.length = size) (m : List α) :
    rest size (b ++ m) = rest size m := by
  rw [rest, if_pos ⟨hsize, by rw [List.length_append]; omega⟩, List.drop_left' hb]

/-- Behind a single block nothing is left. -/
theorem rest_whole {b : List α} (hsize : 0 < size) (hb : b.length = size) : rest size b = [] := by
  rw [← List.append_nil b, rest_block hsize hb, rest_short hsize]

theorem rest_length (hsize : 0 < size) (m : List α) : (rest size m).length = m.length % size := by
  induction m using rest.induct size with
  | case1 m h ih =>
    rw [rest, if_pos h, ih, List.length_drop, ← Nat.mod_eq_sub_mod h.2]
  | case2 m h =>
    rw [rest, if_neg h, Nat.mod_eq_of_lt (by omega)]

/-- More of the message meets what was left over. -/
theorem blocks_append (m more : List α) :
    blocks size (m ++ more) = blocks size m ++ blocks size (rest size m ++ more) := by
  induction m using rest.induct size with
  | case1 m h ih =>
    have hlong : 0 < size ∧ size ≤ (m ++ more).length := ⟨h.1, by rw [List.length_append]; omega⟩
    rw [blocks, if_pos hlong, blocks.eq_def size m, if_pos h, rest.eq_def size m, if_pos h,
      List.take_append_of_le_length h.2, List.drop_append_of_le_length h.2, ih, List.cons_append]
  | case2 m h =>
    rw [blocks.eq_def size m, if_neg h, rest.eq_def size m, if_neg h, List.nil_append]

theorem rest_append (m more : List α) :
    rest size (m ++ more) = rest size (rest size m ++ more) := by
  induction m using rest.induct size with
  | case1 m h ih =>
    have hlong : 0 < size ∧ size ≤ (m ++ more).length := ⟨h.1, by rw [List.length_append]; omega⟩
    rw [rest, if_pos hlong, rest.eq_def size m, if_pos h, List.drop_append_of_le_length h.2, ih]
  | case2 m h => rw [rest.eq_def size m, if_neg h]

end Blocks

section Absorb

variable {size : Nat} (compress : σ → List α → σ) (s : σ)

theorem absorb_append (m more : List α) :
    absorb compress size s (m ++ more) = absorb compress size (absorb compress size s m)
    (rest size m ++ more) := by
  rw [absorb, absorb, absorb, blocks_append, List.foldl_append]

theorem absorb_short {m : List α} (h : m.length < size) : absorb compress size s m = s := by
  rw [absorb, blocks_short h, List.foldl_nil]

theorem absorb_block {b : List α} (hsize : 0 < size) (hb : b.length = size) (m : List α) :
    absorb compress size s (b ++ m) = absorb compress size (compress s b) m := by
  rw [absorb, absorb, blocks_block hsize hb, List.foldl_cons]

theorem absorb_whole {b : List α} (hsize : 0 < size) (hb : b.length = size) :
    absorb compress size s b = compress s b := by
  rw [← List.append_nil b, absorb_block compress s hsize hb, absorb_short _ _ hsize,
    List.append_nil]

end Absorb

/-- Chunk by chunk a context takes in a message, where each chunk goes behind what it holds. -/
theorem foldl_chunks {Holds : List α → σ → Prop} {take : σ → List α → σ}
    (each : ∀ {m : List α} {s : σ}, Holds m s → ∀ data, Holds (m ++ data) (take s data))
    (chunks : List (List α))
    {m : List α} {s : σ} (h : Holds m s) : Holds (m ++ chunks.flatten) (chunks.foldl take s) := by
  induction chunks generalizing m s with
  | nil => rwa [List.flatten_nil, List.append_nil]
  | cons data chunks ih =>
    rw [List.flatten_cons, ← List.append_assoc]
    exact ih (each h data)

/-- `memcpy` to an offset. A copy over the end of the array makes the list longer. -/
def memcpy (dst : List α) (offset : Nat) (src : List α) : List α :=
  dst.take offset ++ src ++ dst.drop (offset + src.length)

section Memcpy

variable {dst src : List α} {offset : Nat}

theorem memcpy_length (h : offset + src.length ≤ dst.length) :
    (memcpy dst offset src).length = dst.length := by
  rw [memcpy, List.length_append, List.length_append, List.length_take, List.length_drop]
  omega

theorem memcpy_take (h : offset ≤ dst.length) :
    (memcpy dst offset src).take (offset + src.length) = dst.take offset ++ src :=
  List.take_left' (by rw [List.length_append, List.length_take, Nat.min_eq_left h])

theorem memcpy_drop {k : Nat} (h : offset ≤ dst.length) (hk : offset + src.length ≤ k) :
    (memcpy dst offset src).drop k = dst.drop k := by
  have hlength : (dst.take offset ++ src).length = offset + src.length := by
    rw [List.length_append, List.length_take, Nat.min_eq_left h]
  obtain ⟨j, rfl⟩ := Nat.exists_eq_add_of_le hk
  rw [memcpy, ← List.drop_drop, List.drop_left' hlength, List.drop_drop]

/-- A copy up to the end of the array leaves nothing of what was there. -/
theorem memcpy_full (h : dst.length = offset + src.length) :
    memcpy dst offset src = dst.take offset ++ src := by
  rw [memcpy, List.drop_eq_nil_of_le (le_of_eq h), List.append_nil]

end Memcpy

/-- ROTL. -/
def rotl (x n : UInt32) : UInt32 := (x <<< n) ||| (x >>> (32 - n))

/-- ROTR. -/
def rotr (x n : UInt32) : UInt32 := (x >>> n) ||| (x <<< (32 - n))

def ch (x y z : UInt32) : UInt32 := (x &&& y) ^^^ (~~~x &&& z)

def parity (x y z : UInt32) : UInt32 := x ^^^ y ^^^ z

def maj (x y z : UInt32) : UInt32 := (x &&& y) ^^^ (x &&& z) ^^^ (y &&& z)

/-- The last `count` bytes of a number, the highest one first. -/
def bigEndian (count n : Nat) : List UInt8 :=
  (List.range count).map fun i => UInt8.ofNat (n >>> (8 * (count - 1 - i)))

/-- Four bytes as a word, the highest one first. -/
def bigWord (b : Nat → UInt8) (i : Nat) : UInt32 :=
  (b i).toUInt32 <<< 24 ||| (b (i + 1)).toUInt32 <<< 16 ||| (b (i + 2)).toUInt32 <<< 8 |||
    (b (i + 3)).toUInt32

/-- The word at an index of a block. -/
def blockWord (block : List UInt8) (t : Nat) : UInt32 := bigWord (fun i => block.getD i 0) (4 * t)

/-- As many zeros as it takes until eight bytes are missing from a whole block. -/
def zeros (length : Nat) : Nat := (119 - length % 64) % 64

/-- A one, zeros, and the number of bits as a word of 64 bits. -/
def padding (length : Nat) : List UInt8 :=
  0x80 :: (List.replicate (zeros length) 0 ++ bigEndian 8 (8 * length))

def pad (m : List UInt8) : List UInt8 := m ++ padding m.length

theorem zeros_iff {length k : Nat} : zeros length = k ↔ (length + 1 + k) % 64 = 56 ∧ k < 64 := by
  rw [zeros]
  omega

@[simp] theorem bigEndian_length (count n : Nat) : (bigEndian count n).length = count := by
  simp [bigEndian]

/-- A byte of a word: the word is shifted and cut off. -/
theorem shifted_byte (word k : UInt32) (h : k.toNat < 32) :
    (word >>> k).toUInt8 = UInt8.ofNat (word.toNat >>> k.toNat) := by
  refine UInt8.toNat_inj.mp ?_
  rw [UInt32.toNat_toUInt8, UInt32.toNat_shiftRight, Nat.mod_eq_of_lt h, UInt8.toNat_ofNat']

/-- Only the number's last bytes count. -/
theorem bigEndian_congr {n n' : Nat} (h : n % 2 ^ 64 = n' % 2 ^ 64) :
    bigEndian 8 n = bigEndian 8 n' := by
  refine List.map_congr_left fun i hi => ?_
  have hlt := List.mem_range.mp hi
  refine UInt8.toNat_inj.mp ?_
  simp only [UInt8.toNat_ofNat', Nat.shiftRight_eq_div_pow]
  interval_cases i <;> omega

end BlockHash
