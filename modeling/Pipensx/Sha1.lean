import Mathlib.Data.Nat.Bitwise
import Mathlib.Logic.Function.Basic
import Pipensx.BlockHash

/-!
# The portable SHA-1

`core/sha1.c` where there is no hardware for it, on a little-endian machine. The 80 rounds are
written out as macros; each takes the registers in the order of its roles, and the sixteen words of
the block become the schedule in place.
-/

namespace Sha1

open BlockHash (memcpy)

/-- `uint32_t state[5]`. -/
structure Five where
  a : UInt32
  b : UInt32
  c : UInt32
  d : UInt32
  e : UInt32
deriving DecidableEq

def Five.word (s : Five) : Nat → UInt32
  | 0 => s.a
  | 1 => s.b
  | 2 => s.c
  | 3 => s.d
  | _ => s.e

inductive Reg where
  | a
  | b
  | c
  | d
  | e
deriving DecidableEq

/-- The registers and `blk.l`. -/
structure Work where
  regs : Reg → UInt32
  blk : Nat → UInt32

/-- `ROL`. -/
def rol (v b : UInt32) : UInt32 := (v <<< b) ||| (v >>> (32 - b))

/-- `blk.l[i]` behind the copy of the block. -/
def blkWord (buf : List UInt8) (i : Nat) : UInt32 :=
  (buf.getD (4 * i) 0).toUInt32 ||| (buf.getD (4 * i + 1) 0).toUInt32 <<< 8 |||
    (buf.getD (4 * i + 2) 0).toUInt32 <<< 16 ||| (buf.getD (4 * i + 3) 0).toUInt32 <<< 24

/-- `BLK0`: the word that is stored, and where. -/
def blk0 (blk : Nat → UInt32) (i : Nat) : UInt32 × Nat :=
  ((rol (blk i) 24 &&& 0xFF00FF00) ||| (rol (blk i) 8 &&& 0x00FF00FF), i)

/-- `BLK`. -/
def blk (blk : Nat → UInt32) (i : Nat) : UInt32 × Nat :=
  (rol (blk ((i + 13) &&& 15) ^^^ blk ((i + 8) &&& 15) ^^^ blk ((i + 2) &&& 15) ^^^ blk (i &&& 15))
    1, i &&& 15)

/-- What the macros `R0` to `R4` have in common. -/
def round (f : UInt32 → UInt32 → UInt32 → UInt32)
    (fetch : (Nat → UInt32) → Nat → UInt32 × Nat) (k : UInt32)
    (v w x y z : Reg) (i : Nat) (s : Work) : Work :=
  let (word, place) := fetch s.blk i
  let regs := Function.update s.regs z
    (s.regs z + (f (s.regs w) (s.regs x) (s.regs y) + word + k + rol (s.regs v) 5))
  ⟨Function.update regs w (rol (regs w) 30), Function.update s.blk place word⟩

def R0 : Reg → Reg → Reg → Reg → Reg → Nat → Work → Work :=
  round (fun w x y => (w &&& (x ^^^ y)) ^^^ y) blk0 0x5A827999

def R1 : Reg → Reg → Reg → Reg → Reg → Nat → Work → Work :=
  round (fun w x y => (w &&& (x ^^^ y)) ^^^ y) blk 0x5A827999

def R2 : Reg → Reg → Reg → Reg → Reg → Nat → Work → Work :=
  round (fun w x y => w ^^^ x ^^^ y) blk 0x6ED9EBA1

def R3 : Reg → Reg → Reg → Reg → Reg → Nat → Work → Work :=
  round (fun w x y => ((w ||| x) &&& y) ||| (w &&& x)) blk 0x8F1BBCDC

def R4 : Reg → Reg → Reg → Reg → Reg → Nat → Work → Work :=
  round (fun w x y => w ^^^ x ^^^ y) blk 0xCA62C1D6

/-- The rounds of `sha1_transform`. -/
def rounds : List (Work → Work) :=
  [ R0 .a .b .c .d .e 0, R0 .e .a .b .c .d 1, R0 .d .e .a .b .c 2, R0 .c .d .e .a .b 3,
    R0 .b .c .d .e .a 4, R0 .a .b .c .d .e 5, R0 .e .a .b .c .d 6, R0 .d .e .a .b .c 7,
    R0 .c .d .e .a .b 8, R0 .b .c .d .e .a 9, R0 .a .b .c .d .e 10, R0 .e .a .b .c .d 11,
    R0 .d .e .a .b .c 12, R0 .c .d .e .a .b 13, R0 .b .c .d .e .a 14, R0 .a .b .c .d .e 15,
    R1 .e .a .b .c .d 16, R1 .d .e .a .b .c 17, R1 .c .d .e .a .b 18, R1 .b .c .d .e .a 19,
    R2 .a .b .c .d .e 20, R2 .e .a .b .c .d 21, R2 .d .e .a .b .c 22, R2 .c .d .e .a .b 23,
    R2 .b .c .d .e .a 24, R2 .a .b .c .d .e 25, R2 .e .a .b .c .d 26, R2 .d .e .a .b .c 27,
    R2 .c .d .e .a .b 28, R2 .b .c .d .e .a 29, R2 .a .b .c .d .e 30, R2 .e .a .b .c .d 31,
    R2 .d .e .a .b .c 32, R2 .c .d .e .a .b 33, R2 .b .c .d .e .a 34, R2 .a .b .c .d .e 35,
    R2 .e .a .b .c .d 36, R2 .d .e .a .b .c 37, R2 .c .d .e .a .b 38, R2 .b .c .d .e .a 39,
    R3 .a .b .c .d .e 40, R3 .e .a .b .c .d 41, R3 .d .e .a .b .c 42, R3 .c .d .e .a .b 43,
    R3 .b .c .d .e .a 44, R3 .a .b .c .d .e 45, R3 .e .a .b .c .d 46, R3 .d .e .a .b .c 47,
    R3 .c .d .e .a .b 48, R3 .b .c .d .e .a 49, R3 .a .b .c .d .e 50, R3 .e .a .b .c .d 51,
    R3 .d .e .a .b .c 52, R3 .c .d .e .a .b 53, R3 .b .c .d .e .a 54, R3 .a .b .c .d .e 55,
    R3 .e .a .b .c .d 56, R3 .d .e .a .b .c 57, R3 .c .d .e .a .b 58, R3 .b .c .d .e .a 59,
    R4 .a .b .c .d .e 60, R4 .e .a .b .c .d 61, R4 .d .e .a .b .c 62, R4 .c .d .e .a .b 63,
    R4 .b .c .d .e .a 64, R4 .a .b .c .d .e 65, R4 .e .a .b .c .d 66, R4 .d .e .a .b .c 67,
    R4 .c .d .e .a .b 68, R4 .b .c .d .e .a 69, R4 .a .b .c .d .e 70, R4 .e .a .b .c .d 71,
    R4 .d .e .a .b .c 72, R4 .c .d .e .a .b 73, R4 .b .c .d .e .a 74, R4 .a .b .c .d .e 75,
    R4 .e .a .b .c .d 76, R4 .d .e .a .b .c 77, R4 .c .d .e .a .b 78, R4 .b .c .d .e .a 79 ]

def Five.regs (s : Five) : Reg → UInt32
  | .a => s.a
  | .b => s.b
  | .c => s.c
  | .d => s.d
  | .e => s.e

def sha1Transform (state : Five) (buf : List UInt8) : Five :=
  let s := rounds.foldl (fun s r => r s) ⟨state.regs, blkWord buf⟩
  ⟨state.a + s.regs .a, state.b + s.regs .b, state.c + s.regs .c, state.d + s.regs .d,
    state.e + s.regs .e⟩

/-- `sha1_ctx_t`. -/
structure Sha1Ctx where
  state : Five
  count0 : UInt32
  count1 : UInt32
  buf : List UInt8

/-- The buffer stays as it is. -/
def sha1Init (ctx : Sha1Ctx) : Sha1Ctx :=
  { ctx with
    state := ⟨0x67452301, 0xEFCDAB89, 0x98BADCFE, 0x10325476, 0xC3D2E1F0⟩
    count0 := 0
    count1 := 0 }

/-- The whole blocks of the data from an index on. -/
def blockLoop (data : List UInt8) (state : Five) (i : Nat) : Five × Nat :=
  if i + 63 < data.length then blockLoop data (sha1Transform state ((data.drop i).take 64)) (i + 64)
  else (state, i)
termination_by data.length - i

def sha1Update (ctx : Sha1Ctx) (data : List UInt8) : Sha1Ctx :=
  let len := data.length
  let j := ((ctx.count0 >>> 3) &&& 63).toNat
  let added := UInt32.ofNat len <<< 3
  let count0 := ctx.count0 + added
  let count1 := (if count0 < added then ctx.count1 + 1 else ctx.count1) + UInt32.ofNat (len >>> 29)
  if j + len > 63 then
    let i := 64 - j
    let buf := memcpy ctx.buf j (data.take i)
    let (state, i) := blockLoop data (sha1Transform ctx.state buf) i
    ⟨state, count0, count1, memcpy buf 0 (data.drop i)⟩
  else ⟨ctx.state, count0, count1, memcpy ctx.buf j data⟩

theorem update_count0 (ctx : Sha1Ctx) (data : List UInt8) :
    (sha1Update ctx data).count0 = ctx.count0 + UInt32.ofNat data.length <<< 3 := by
  rw [sha1Update]
  split <;> rfl

/-- The six bits above the lowest three: what is in the buffer, in bits. -/
theorem toNat_and_504 (n : UInt32) : (n &&& 504).toNat = n.toNat % 512 / 8 * 8 := by
  have h504 : (504 : UInt32).toNat = (2 ^ 6 - 1) <<< 3 := by decide
  have hsplit : n.toNat % 512 / 8 * 8 = (n.toNat >>> 3 &&& (2 ^ 6 - 1)) <<< 3 := by
    rw [Nat.and_two_pow_sub_one_eq_mod, Nat.shiftLeft_eq, Nat.shiftRight_eq_div_pow]
    omega
  rw [hsplit, UInt32.toNat_and, h504]
  refine Nat.eq_of_testBit_eq fun i => ?_
  simp only [Nat.testBit_and, Nat.testBit_shiftLeft, Nat.testBit_shiftRight]
  by_cases hi : 3 ≤ i <;> simp [hi]

/-- The loop of `sha1_final`: zeros go in one by one. -/
def padLoop (ctx : Sha1Ctx) : Sha1Ctx :=
  if ctx.count0 &&& 504 = 448 then ctx else padLoop (sha1Update ctx [0])
termination_by (960 - (ctx.count0 &&& 504).toNat) % 512
decreasing_by
  rename_i h
  have hne : (ctx.count0 &&& 504).toNat ≠ 448 := fun heq => h (UInt32.toNat_inj.mp heq)
  have hstep : (ctx.count0 + UInt32.ofNat [(0 : UInt8)].length <<< 3).toNat =
    (ctx.count0.toNat + 8) % 2 ^ 32 :=
    UInt32.toNat_add _ _
  rw [toNat_and_504] at hne ⊢
  rw [toNat_and_504, update_count0, hstep]
  omega

/-- `uint8_t` of a word shifted to the right, the byte at an index from the highest one on. -/
def byteAt (word : UInt32) (i : Nat) : UInt8 :=
  (word >>> UInt32.ofNat ((3 - (i &&& 3)) * 8)).toUInt8

def sha1Final (ctx : Sha1Ctx) : List UInt8 :=
  let finalcount := (List.range 8).map fun i => byteAt (if i ≥ 4 then ctx.count0 else ctx.count1) i
  let ctx := sha1Update (padLoop (sha1Update ctx [0x80])) finalcount
  (List.range 20).map fun i => byteAt (ctx.state.word (i >>> 2)) i

/-- `sha1`; the context is on the stack. -/
def sha1 (ctx : Sha1Ctx) (data : List UInt8) : List UInt8 :=
  sha1Final (sha1Update (sha1Init ctx) data)

end Sha1
