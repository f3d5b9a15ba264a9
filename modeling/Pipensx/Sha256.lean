import Pipensx.BlockHash

/-!
# SHA-256

`core/sha256.c`. The update takes the message byte by byte; the bits of whole blocks are counted
there and those of the last one at the end.
-/

namespace Sha256

open BlockHash (memcpy)

/-- `uint32_t state[8]`. -/
structure Eight where
  a : UInt32
  b : UInt32
  c : UInt32
  d : UInt32
  e : UInt32
  f : UInt32
  g : UInt32
  h : UInt32
deriving DecidableEq

def Eight.words (s : Eight) : List UInt32 := [s.a, s.b, s.c, s.d, s.e, s.f, s.g, s.h]

def k : List UInt32 :=
  [ 0x428a2f98, 0x71374491, 0xb5c0fbcf, 0xe9b5dba5, 0x3956c25b, 0x59f111f1, 0x923f82a4, 0xab1c5ed5,
    0xd807aa98, 0x12835b01, 0x243185be, 0x550c7dc3, 0x72be5d74, 0x80deb1fe, 0x9bdc06a7, 0xc19bf174,
    0xe49b69c1, 0xefbe4786, 0x0fc19dc6, 0x240ca1cc, 0x2de92c6f, 0x4a7484aa, 0x5cb0a9dc, 0x76f988da,
    0x983e5152, 0xa831c66d, 0xb00327c8, 0xbf597fc7, 0xc6e00bf3, 0xd5a79147, 0x06ca6351, 0x14292967,
    0x27b70a85, 0x2e1b2138, 0x4d2c6dfc, 0x53380d13, 0x650a7354, 0x766a0abb, 0x81c2c92e, 0x92722c85,
    0xa2bfe8a1, 0xa81a664b, 0xc24b8b70, 0xc76c51a3, 0xd192e819, 0xd6990624, 0xf40e3585, 0x106aa070,
    0x19a4c116, 0x1e376c08, 0x2748774c, 0x34b0bcb5, 0x391c0cb3, 0x4ed8aa4a, 0x5b9cca4f, 0x682e6ff3,
    0x748f82ee, 0x78a5636f, 0x84c87814, 0x8cc70208, 0x90befffa, 0xa4506ceb, 0xbef9a3f7, 0xc67178f2 ]

def rotateRight (value shift : UInt32) : UInt32 := (value >>> shift) ||| (value <<< (32 - shift))

/-- The first loop over `w`. -/
def loadWords (block : List UInt8) (w : List UInt32) : List UInt32 :=
  (List.range 16).foldl (fun w i =>
    let j := i * 4
    w.set i ((block.getD j 0).toUInt32 <<< 24 ||| (block.getD (j + 1) 0).toUInt32 <<< 16 |||
      (block.getD (j + 2) 0).toUInt32 <<< 8 ||| (block.getD (j + 3) 0).toUInt32)) w

def nextWord (w : List UInt32) (i : Nat) : UInt32 :=
  let w15 := w.getD (i - 15) 0
  let w2 := w.getD (i - 2) 0
  let s0 := rotateRight w15 7 ^^^ rotateRight w15 18 ^^^ (w15 >>> 3)
  let s1 := rotateRight w2 17 ^^^ rotateRight w2 19 ^^^ (w2 >>> 10)
  w.getD (i - 16) 0 + s0 + w.getD (i - 7) 0 + s1

/-- The second loop over `w`. -/
def extendWords (w : List UInt32) : List UInt32 :=
  (List.range' 16 48).foldl (fun w i => w.set i (nextWord w i)) w

def round (w : List UInt32) (s : Eight) (i : Nat) : Eight :=
  let s1 := rotateRight s.e 6 ^^^ rotateRight s.e 11 ^^^ rotateRight s.e 25
  let choice := (s.e &&& s.f) ^^^ (~~~s.e &&& s.g)
  let temp1 := s.h + s1 + choice + k.getD i 0 + w.getD i 0
  let s0 := rotateRight s.a 2 ^^^ rotateRight s.a 13 ^^^ rotateRight s.a 22
  let majority := (s.a &&& s.b) ^^^ (s.a &&& s.c) ^^^ (s.b &&& s.c)
  let temp2 := s0 + majority
  ⟨temp1 + temp2, s.a, s.b, s.c, s.d + temp1, s.e, s.f, s.g⟩

/-- `w` is written in full before a word of it is read. -/
def transform (state : Eight) (block : List UInt8) : Eight :=
  let w := extendWords (loadWords block (List.replicate 64 0))
  let s := (List.range 64).foldl (round w) state
  ⟨state.a + s.a, state.b + s.b, state.c + s.c, state.d + s.d, state.e + s.e, state.f + s.f,
    state.g + s.g, state.h + s.h⟩

/-- `sha256_ctx_t`. -/
structure Sha256Ctx where
  data : List UInt8
  state : Eight
  bitLen : UInt64
  dataLen : Nat

/-- `memset` clears the context. -/
def sha256Init : Sha256Ctx where
  data := List.replicate 64 0
  state := ⟨0x6a09e667, 0xbb67ae85, 0x3c6ef372, 0xa54ff53a, 0x510e527f, 0x9b05688c,
    0x1f83d9ab, 0x5be0cd19⟩
  bitLen := 0
  dataLen := 0

/-- The body of the loop of `sha256_update`. -/
def updateByte (ctx : Sha256Ctx) (byte : UInt8) : Sha256Ctx :=
  let data := memcpy ctx.data ctx.dataLen [byte]
  if ctx.dataLen + 1 = 64 then ⟨data, transform ctx.state data, ctx.bitLen + 512, 0⟩
  else ⟨data, ctx.state, ctx.bitLen, ctx.dataLen + 1⟩

def sha256Update (ctx : Sha256Ctx) (input : List UInt8) : Sha256Ctx := input.foldl updateByte ctx

/-- `while (i < limit) data[i++] = 0`. -/
def zeroLoop (limit : Nat) (data : List UInt8) (i : Nat) : List UInt8 :=
  if i < limit then zeroLoop limit (memcpy data i [0]) (i + 1) else data
termination_by limit - i

def sha256Final (ctx : Sha256Ctx) : List UInt8 :=
  let data := memcpy ctx.data ctx.dataLen [0x80]
  let i := ctx.dataLen + 1
  let (state, data) :=
    if i > 56 then
      let data := zeroLoop 64 data i
      (transform ctx.state data, zeroLoop 56 data 0)
    else (ctx.state, zeroLoop 56 data i)
  let bitLen := ctx.bitLen + UInt64.ofNat ctx.dataLen * 8
  let data := (List.range 8).foldl (fun data j =>
    memcpy data (63 - j) [(bitLen >>> UInt64.ofNat (j * 8)).toUInt8]) data
  (transform state data).words.flatMap fun word : UInt32 =>
    [(word >>> 24).toUInt8, (word >>> 16).toUInt8, (word >>> 8).toUInt8, word.toUInt8]

/-- `sha256`. -/
def sha256 (data : List UInt8) : List UInt8 := sha256Final (sha256Update sha256Init data)

end Sha256
