import Mathlib.Algebra.Group.Nat.Defs
import Mathlib.Data.List.Basic

/-!
# The read-only bencode parser

`core/bencode.c` walks a flat buffer with a cursor and an end pointer. A pointer
is an address, `mem` gives the byte at every address, and `stop` is the end
pointer: nothing here prevents a function from looking at `mem stop`, so that the
parser stays below `stop` has to be proved. Loops carry fuel; every caller passes
the distance to `stop`, which no loop can exhaust.
-/

namespace Bencode

abbrev Memory := Nat → UInt8

abbrev letterD : UInt8 := 100
abbrev letterE : UInt8 := 101
abbrev letterI : UInt8 := 105
abbrev letterL : UInt8 := 108
abbrev minus : UInt8 := 45
abbrev colon : UInt8 := 58

def int64Max : Nat := 2 ^ 63 - 1
def sizeMax : Nat := 2 ^ 64 - 1

/-- `BE_MAX_DEPTH`. -/
def beMaxDepth : Nat := 16

abbrev IsDigit (c : UInt8) : Prop := 48 ≤ c.toNat ∧ c.toNat ≤ 57

def digitVal (c : UInt8) : Nat := c.toNat - 48

/-- The two decimal loops differ only in the largest value they let through and in
`int digits`, which `parse_str` does without; `none` is their early `return 0`. The
result is the cursor, the value and the bits of `digits`, an `int` that wraps. -/
def decimalLoop (mem : Memory) (stop limit : Nat) :
    Nat → Nat → Nat → Nat → Option (Nat × Nat × Nat)
  | 0, s, v, digits => some (s, v, digits)
  | fuel + 1, s, v, digits =>
    if s < stop ∧ IsDigit (mem s) then
      if v > (limit - digitVal (mem s)) / 10 then none
      else decimalLoop mem stop limit fuel (s + 1) (v * 10 + digitVal (mem s))
        ((digits + 1) % 2 ^ 32)
    else some (s, v, digits)

/-- `*p` and `*out` are written together on the last line, so a failure is `none`. -/
def parseInt (mem : Memory) (stop p : Nat) : Option (Int × Nat) :=
  if p ≥ stop ∨ mem p ≠ letterI then none
  else
    let neg : Bool := decide (p + 1 < stop ∧ mem (p + 1) = minus)
    let s := if neg then p + 2 else p + 1
    match decimalLoop mem stop int64Max (stop - s) s 0 0 with
    | none => none
    | some (s, v, digits) =>
      if digits = 0 ∨ s ≥ stop ∨ mem s ≠ letterE then none
      else some (if neg then -(v : Int) else v, s + 1)

/-- Where the string's bytes start, how many there are, and the new cursor. -/
def parseStr (mem : Memory) (stop p : Nat) : Option (Nat × Nat × Nat) :=
  if p ≥ stop ∨ ¬ IsDigit (mem p) then none
  else
    match decimalLoop mem stop sizeMax (stop - p) p 0 0 with
    | none => none
    | some (s, len, _) =>
      if s ≥ stop ∨ mem s ≠ colon then none
      else if stop - (s + 1) < len then none
      else some (s + 1, len, s + 1 + len)

/-- The `while` of the list branch, stopping on the closing letter or at `stop`. -/
def skipItems (mem : Memory) (stop : Nat) (skip : Nat → Option Nat) : Nat → Nat → Option Nat
  | 0, _ => none
  | fuel + 1, p =>
    if p < stop ∧ mem p ≠ letterE then
      match skip p with
      | none => none
      | some q => skipItems mem stop skip fuel q
    else some p

/-- The `while` of the dictionary branch. -/
def skipPairs (mem : Memory) (stop : Nat) (skip : Nat → Option Nat) : Nat → Nat → Option Nat
  | 0, _ => none
  | fuel + 1, p =>
    if p < stop ∧ mem p ≠ letterE then
      match parseStr mem stop p with
      | none => none
      | some (_, _, q) =>
        match skip q with
        | none => none
        | some r => skipPairs mem stop skip fuel r
    else some p

/-- The tail both container branches share: the closing letter must be there. -/
def closeContainer (stop : Nat) : Option Nat → Option Nat
  | none => none
  | some p => if p ≥ stop then none else some (p + 1)

/-- The first argument is `BE_MAX_DEPTH + 1 - depth`, the levels still allowed;
zero is `depth > BE_MAX_DEPTH`. -/
def beSkip (mem : Memory) (stop : Nat) : Nat → Nat → Option Nat
  | 0, _ => none
  | levels + 1, p =>
    if p ≥ stop then none
    else if mem p = letterI then (parseInt mem stop p).map (fun r => r.2)
    else if IsDigit (mem p) then (parseStr mem stop p).map (fun r => r.2.2)
    else if mem p = letterL then
      closeContainer stop (skipItems mem stop (beSkip mem stop levels) (stop - p) (p + 1))
    else if mem p = letterD then
      closeContainer stop (skipPairs mem stop (beSkip mem stop levels) (stop - p) (p + 1))
    else none

inductive BeType where
  | int
  | str
  | list
  | dict
  | err
  deriving DecidableEq, Repr

/-- `be_node_t`; `buf` and `sval` are addresses. -/
structure BeNode where
  type : BeType
  buf : Nat
  rawLen : Nat
  ival : Int
  sval : Nat
  slen : Nat
  deriving DecidableEq, Repr

/-- A `be_node_t` on the stack before anything is stored in it. -/
def BeNode.blank : BeNode := ⟨.err, 0, 0, 0, 0, 0⟩

/-- What a call leaves behind: the return value, `*p` and `*out`. -/
structure Decoded where
  ret : Bool
  p : Nat
  out : BeNode
  deriving DecidableEq, Repr

def beDecode (mem : Memory) (stop p : Nat) (out : BeNode) : Decoded :=
  if p ≥ stop then ⟨false, p, out⟩
  else
    let out := { out with buf := p }
    if mem p = letterI then
      let out := { out with type := .int }
      match parseInt mem stop p with
      | none => ⟨false, p, out⟩
      | some (v, q) => ⟨true, q, { out with ival := v, rawLen := q - p }⟩
    else if IsDigit (mem p) then
      let out := { out with type := .str }
      match parseStr mem stop p with
      | none => ⟨false, p, out⟩
      | some (sval, slen, q) =>
        ⟨true, q, { out with sval := sval, slen := slen, rawLen := q - p }⟩
    else if mem p = letterL then
      let out := { out with type := .list }
      match beSkip mem stop (beMaxDepth + 1) p with
      | none => ⟨false, p, out⟩
      | some q => ⟨true, q, { out with rawLen := q - p }⟩
    else if mem p = letterD then
      let out := { out with type := .dict }
      match beSkip mem stop (beMaxDepth + 1) p with
      | none => ⟨false, p, out⟩
      | some q => ⟨true, q, { out with rawLen := q - p }⟩
    else ⟨false, p, out⟩

/-- One pair: return value, cursor, key address, key length and value. A key that
parses before a value that does not has already moved the cursor. -/
def beDictNext (mem : Memory) (stop p : Nat) (val : BeNode) :
    Bool × Nat × Nat × Nat × BeNode :=
  if p ≥ stop ∨ mem p = letterE then (false, p, 0, 0, val)
  else
    match parseStr mem stop p with
    | none => (false, p, 0, 0, val)
    | some (key, klen, q) =>
      let d := beDecode mem stop q val
      (d.ret, d.p, key, klen, d.out)

def beListNext (mem : Memory) (stop p : Nat) (item : BeNode) : Decoded :=
  if p ≥ stop ∨ mem p = letterE then ⟨false, p, item⟩ else beDecode mem stop p item

/-- The bytes at the `n` addresses from `p` on. -/
def slice (mem : Memory) (p : Nat) : Nat → List UInt8
  | 0 => []
  | n + 1 => mem p :: slice mem (p + 1) n

/-- The search loop of `be_dict_get`. -/
def dictGetLoop (mem : Memory) (stop : Nat) (key : List UInt8) : Nat → Nat → Option BeNode
  | 0, _ => none
  | fuel + 1, p =>
    match beDictNext mem stop p BeNode.blank with
    | (false, _) => none
    | (true, q, k, kl, v) =>
      if kl = key.length ∧ slice mem k kl = key then some v
      else dictGetLoop mem stop key fuel q

def beDictGet (mem : Memory) (dictStart dictEnd : Nat) (key : List UInt8) : Option BeNode :=
  if dictStart ≥ dictEnd ∨ mem dictStart ≠ letterD then none
  else dictGetLoop mem dictEnd key (dictEnd - dictStart) (dictStart + 1)

end Bencode
