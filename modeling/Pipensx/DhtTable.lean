import Mathlib.Data.Nat.Bitwise
import Mathlib.Tactic.Ring
import Pipensx.BigEndian
import Pipensx.DhtCache
import Pipensx.SplitPath

/-!
# The routing table of the DHT

Ids, buckets and nodes of `core/dht_vendor/dht.c`. The engine is opened without a socket for IPv6,
so there is one list of buckets, empty for `NULL`. A pointer to a bucket is its index in the list.
-/

namespace Dht

open BigEndian (memcmp)

abbrev Id := Vector UInt8 20

def zeroes : Id := Vector.replicate 20 0

/-- `sin_addr` and `sin_port`, both as they lie in memory. -/
abbrev Endpoint := DhtCache.Endpoint

structure Node where
  id : Id
  ss : Endpoint
  time : Int
  replyTime : Int
  pingedTime : Int
  pinged : Nat
  deriving DecidableEq

structure Bucket where
  first : Id
  count : Nat
  maxCount : Nat
  time : Int
  nodes : List Node
  -- `none` is the family 0 of an empty slot
  cached : Option Endpoint
  deriving DecidableEq

def isMartian (sa : Endpoint) : Bool :=
  (sa[4] == 0 && sa[5] == 0) || sa[0] == 0 || sa[0] == 127 || sa[0] &&& 0xE0 == 0xE0

def idCmp (id1 id2 : Id) : Int := memcmp id1.toList id2.toList

/-- `for(i = n - 1; i >= 0; i--) if(p(i)) break;` -/
def downFrom (p : Nat → Bool) : Nat → Option Nat
  | 0 => none
  | n + 1 => if p n then some n else downFrom p n

def lowbit (id : Id) : Int :=
  match downFrom (fun i => id.toList.getD i 0 != 0) 20 with
  | none => -1
  | some i =>
    match downFrom (fun j => id.toList.getD i 0 &&& (0x80 >>> UInt8.ofNat j) != 0) 8 with
    | none => 8 * i - 1
    | some j => 8 * i + j

/-- `while((xor & 0x80) == 0) { xor <<= 1; j++; }`, for a byte that is not 0. -/
def leadingZeros : Nat → UInt8 → Nat
  | 0, _ => 0
  | fuel + 1, x => if x &&& 0x80 == 0 then leadingZeros fuel (x <<< 1) + 1 else 0

def commonLoop : List UInt8 → List UInt8 → Nat
  | a :: as, b :: bs => if a = b then 8 + commonLoop as bs else leadingZeros 8 (a ^^^ b)
  | _, _ => 0

def commonBits (id1 id2 : Id) : Nat := commonLoop id1.toList id2.toList

def xorcmpLoop : List UInt8 → List UInt8 → List UInt8 → Int
  | a :: as, b :: bs, r :: rs =>
    if a = b then xorcmpLoop as bs rs else if a ^^^ r < b ^^^ r then -1 else 1
  | _, _, _ => 0

def xorcmp (id1 id2 ref : Id) : Int := xorcmpLoop id1.toList id2.toList ref.toList

def inBucket (id : Id) (bs : List Bucket) (i : Nat) : Bool :=
  match bs[i]? with
  | none => false
  | some b => idCmp b.first id ≤ 0 &&
    match bs[i + 1]? with
    | none => true
    | some next => idCmp id next.first < 0

def findBucket (id : Id) : List Bucket → Option Nat
  | [] => none
  | [_] => some 0
  | _ :: next :: rest =>
    if idCmp id next.first < 0 then some 0 else (findBucket id (next :: rest)).map (· + 1)

def previousBucket (i : Nat) : Option Nat := if i = 0 then none else some (i - 1)

/-- The bucket of a node, and its place there. -/
def findNode (id : Id) (bs : List Bucket) : Option (Nat × Nat) :=
  (findBucket id bs).bind fun i => bs[i]?.bind fun b =>
    (b.nodes.findIdx? (fun n => idCmp n.id id == 0)).map fun j => (i, j)

/-- `random` is what `random()` answers. -/
def randomNode (random : Nat) (b : Bucket) : Option Nat :=
  if b.count = 0 then none
  else if random % b.count < b.nodes.length then some (random % b.count) else none

/-- The number of bits that all ids of a bucket have in common. -/
def bucketBit (bs : List Bucket) (i : Nat) (b : Bucket) : Int :=
  let bit1 := lowbit b.first
  let bit2 := match bs[i + 1]? with
    | none => -1
    | some next => lowbit next.first
  max bit1 bit2 + 1

def bucketMiddle (bs : List Bucket) (i : Nat) (b : Bucket) : Option Id :=
  let bit := (bucketBit bs i b).toNat
  if 160 ≤ bit then none
  else some (b.first.set! (bit / 8)
    (b.first.toList.getD (bit / 8) 0 ||| (0x80 >>> UInt8.ofNat (bit % 8))))

/-- `random n` is what the call number `n` of `random()` answers, and `draws` calls came before. -/
def bucketRandom (random : Nat → Nat) (draws : Nat) (bs : List Bucket) (i : Nat) (b : Bucket) :
    Id × Nat :=
  let bit := (bucketBit bs i b).toNat
  if 160 ≤ bit then (b.first, draws)
  else
    let kept := UInt8.ofNat (0xFF00 >>> (bit % 8)) &&& b.first.toList.getD (bit / 8) 0
    let filled := kept ||| UInt8.ofNat (random draws &&& 0xFF >>> (bit % 8))
    (Vector.ofFn fun k : Fin 20 =>
      if k < bit / 8 then b.first[k] else if k = bit / 8 then filled
      else UInt8.ofNat (random (draws + (k - bit / 8)) &&& 0xFF),
      draws + 1 + (19 - bit / 8))

def nodeGood (now : Int) (n : Node) : Bool :=
  n.pinged ≤ 2 && n.replyTime ≥ now - 7200 && n.time ≥ now - 900

inductive Inserted where
  | noTable
  | full (i : Nat)
  | done (bs : List Bucket)

def insertNode (n : Node) (bs : List Bucket) : Inserted :=
  match findBucket n.id bs with
  | none => .noTable
  | some i =>
    if (bs[i]?.map Bucket.count).getD 0 ≥ (bs[i]?.map Bucket.maxCount).getD 0 then .full i
    else .done (bs.modify i fun b => { b with nodes := n :: b.nodes, count := b.count + 1 })

/-- The two buckets that `split_bucket_helper` leaves, with a new one that starts at `newId`. -/
def splitAt (myid : Id) (bs : List Bucket) (i : Nat) (b : Bucket) (newId : Id) : List Bucket :=
  let old : Bucket := { b with nodes := [], count := 0, cached := none }
  let new : Bucket := ⟨newId, 0, 0, b.time, [], none⟩
  let linked := bs.take i ++ [old, new] ++ bs.drop (i + 1)
  if inBucket myid linked i then
    bs.take i ++ [{ old with maxCount := max (b.maxCount / 2) 8 },
      { new with maxCount := b.maxCount }] ++ bs.drop (i + 1)
  else bs.take i ++ [old, { new with maxCount := max (b.maxCount / 2) 8 }] ++ bs.drop (i + 1)

open KeyAgreement (ofBytes ofBytes_lt)

def val (id : Id) : Nat := ofBytes id.toList

theorem val_lt (id : Id) : val id < 2 ^ 160 := by
  have h := ofBytes_lt id.toList
  rw [Vector.length_toList] at h
  exact h

theorem length_eq (id1 id2 : Id) : id1.toList.length = id2.toList.length := by
  rw [Vector.length_toList, Vector.length_toList]

theorem val_inj {id1 id2 : Id} : val id1 = val id2 ↔ id1 = id2 := by
  constructor
  · intro h
    exact Vector.toList_inj.mp (BigEndian.ofBytes_injective (length_eq id1 id2) h)
  · intro h
    rw [h]

theorem idCmp_lt_iff (id1 id2 : Id) : idCmp id1 id2 < 0 ↔ val id1 < val id2 :=
  BigEndian.memcmp_lt_iff (length_eq id1 id2)

theorem idCmp_le_iff (id1 id2 : Id) : idCmp id1 id2 ≤ 0 ↔ val id1 ≤ val id2 :=
  BigEndian.memcmp_le_iff (length_eq id1 id2)

theorem idCmp_eq_zero_iff (id1 id2 : Id) : idCmp id1 id2 = 0 ↔ id1 = id2 := by
  rw [idCmp, BigEndian.memcmp_eq_zero_iff (length_eq id1 id2)]
  exact Vector.toList_inj

/-- The distance of two ids: the exclusive or of their numbers. -/
def distance (id ref : Id) : Nat := val id ^^^ val ref

theorem distance_inj {id1 id2 ref : Id} : distance id1 ref = distance id2 ref ↔ id1 = id2 := by
  rw [distance, distance, Nat.xor_left_inj, val_inj]

theorem xorcmpLoop_eq (as bs rs : List UInt8) :
    xorcmpLoop as bs rs =
      memcmp (List.zipWith (· ^^^ ·) as rs) (List.zipWith (· ^^^ ·) bs rs) := by
  induction as generalizing bs rs with
  | nil => simp [xorcmpLoop, memcmp]
  | cons a as ih =>
    obtain _ | ⟨b, bs⟩ := bs
    · simp [xorcmpLoop, memcmp]
    obtain _ | ⟨r, rs⟩ := rs
    · simp [xorcmpLoop, memcmp]
    simp only [xorcmpLoop, List.zipWith_cons_cons, memcmp, UInt8.xor_left_inj, ih]

/-- `xorcmp` compares distances. -/
theorem xorcmp_lt_iff (id1 id2 ref : Id) :
    xorcmp id1 id2 ref < 0 ↔ distance id1 ref < distance id2 ref := by
  have h1 := length_eq id1 ref
  have h2 := length_eq id2 ref
  rw [xorcmp, xorcmpLoop_eq, BigEndian.memcmp_lt_iff (by simp),
    BigEndian.ofBytes_xor h1, BigEndian.ofBytes_xor h2]
  rfl

theorem downFrom_some {p : Nat → Bool} {n i : Nat} (h : downFrom p n = some i) :
    i < n ∧ p i = true ∧ ∀ k, i < k → k < n → p k = false := by
  fun_induction downFrom p n with
  | case1 => contradiction
  | case2 n hp =>
    obtain rfl : n = i := by simpa using h
    exact ⟨by omega, hp, by omega⟩
  | case3 n hp ih =>
    obtain ⟨hlt, hi, hmax⟩ := ih h
    refine ⟨by omega, hi, fun k hk hkn => ?_⟩
    by_cases hlast : k = n
    · rw [hlast]
      simpa using hp
    · exact hmax k hk (by omega)

theorem downFrom_none {p : Nat → Bool} {n : Nat} (h : downFrom p n = none) :
    ∀ k < n, p k = false := by
  fun_induction downFrom p n with
  | case1 => omega
  | case2 n hp => contradiction
  | case3 n hp ih =>
    intro k hk
    by_cases hlast : k = n
    · rw [hlast]
      simpa using hp
    · exact ih h k (by omega)

/-- The lowest bit of a byte that is not zero. -/
theorem lowbit_byte : ∀ n < 256, n ≠ 0 →
    ∃ j < 8, downFrom (fun j => UInt8.ofNat n &&& (0x80 >>> UInt8.ofNat j) != 0) 8 = some j ∧
      n = (2 * (n / 2 ^ (8 - j)) + 1) * 2 ^ (7 - j) := by
  decide +kernel

theorem zeros_behind (bytes : List UInt8) {k : Nat}
    (hzero : ∀ i, k ≤ i → i < bytes.length → (bytes.getD i 0 != 0) = false) :
    bytes = bytes.take k ++ List.replicate (bytes.length - k) 0 := by
  have hdrop : bytes.drop k = List.replicate (bytes.drop k).length 0 := by
    apply List.eq_replicate_of_mem
    intro b hb
    obtain ⟨i, hi, rfl⟩ := List.getElem_of_mem hb
    rw [List.length_drop] at hi
    have := hzero (k + i) (by omega) (by omega)
    rw [List.getElem_drop]
    simpa [List.getD_eq_getElem?_getD, List.getElem?_eq_getElem
      (show k + i < bytes.length by omega)] using this
  rw [List.length_drop] at hdrop
  rw [← hdrop, List.take_append_drop]

/-- `lowbit` finds the highest power of two in the number of an id. -/
theorem lowbit_spec (id : Id) : (val id = 0 ∧ lowbit id = -1) ∨
    ∃ b m : Nat, b < 160 ∧ lowbit id = b ∧ val id = (2 * m + 1) * 2 ^ (159 - b) := by
  have hlength : id.toList.length = 20 := Vector.length_toList
  cases hi : downFrom (fun i => id.toList.getD i 0 != 0) 20 with
  | none =>
    left
    have hzero := zeros_behind id.toList (k := 0)
      (fun i _ hlt => downFrom_none hi i (by omega))
    refine ⟨?_, by simp only [lowbit, hi]⟩
    rw [val, hzero, BigEndian.ofBytes_zeros, List.take_zero]
    simp [ofBytes]
  | some i =>
    obtain ⟨hlt, hbyte, hrest⟩ := downFrom_some hi
    have hsplit := zeros_behind id.toList (k := i + 1)
      (fun k hk hklt => hrest k (by omega) (by omega))
    have hget : id.toList[i]? = some (id.toList.getD i 0) := by
      rw [List.getD_eq_getElem?_getD, List.getElem?_eq_getElem (by omega)]
      rfl
    generalize id.toList.getD i 0 = b at hbyte hget
    obtain ⟨j, hj, hlow, hval⟩ := lowbit_byte b.toNat b.toNat_lt (by
      intro hzero
      have : b = 0 := UInt8.toNat_inj.mp hzero
      simp [this] at hbyte)
    rw [UInt8.ofNat_toNat] at hlow
    right
    refine ⟨8 * i + j, ofBytes (id.toList.take i) * 2 ^ j + b.toNat / 2 ^ (8 - j), by omega, ?_, ?_⟩
    · have hgetD : id.toList.getD i 0 = b := by
        rw [List.getD_eq_getElem?_getD, hget]
        rfl
      simp only [lowbit, hi, hgetD, hlow]
      omega
    · have hweight : 2 ^ (159 - (8 * i + j)) = 2 ^ (7 - j) * 256 ^ (20 - (i + 1)) := by
        rw [show (256 : Nat) = 2 ^ 8 from rfl, ← Nat.pow_mul, ← Nat.pow_add]
        congr 1
        omega
      have hbase : (256 : Nat) = 2 * 2 ^ j * 2 ^ (7 - j) := by
        rw [Nat.mul_assoc, ← Nat.pow_add, Nat.add_sub_cancel' (by omega)]
      have htake : id.toList.take (i + 1) = id.toList.take i ++ [b] := by
        rw [List.take_add_one, hget]
        rfl
      have hnumber : val id =
          (ofBytes (id.toList.take i) * 256 + b.toNat) * 256 ^ (20 - (i + 1)) := by
        rw [val]
        conv_lhs => rw [hsplit]
        rw [hlength, BigEndian.ofBytes_zeros, htake, KeyAgreement.ofBytes_append]
      rw [hnumber, hweight]
      generalize 256 ^ (20 - (i + 1)) = w
      generalize b.toNat / 2 ^ (8 - j) = high at hval ⊢
      rw [hval, hbase]
      ring

theorem lowbit_le (id : Id) {d : Nat} (hd : d ≤ 160) (halign : 2 ^ d ∣ val id) :
    lowbit id ≤ 159 - d := by
  rcases lowbit_spec id with ⟨_, hlow⟩ | ⟨b, m, hb, hlow, hval⟩
  · omega
  · have hpow : 2 ^ d ∣ 2 ^ (159 - b) := by
      rw [hval] at halign
      have hodd : Nat.Coprime (2 ^ d) (2 * m + 1) := Nat.Coprime.pow_left d (by simp)
      exact hodd.dvd_of_dvd_mul_left halign
    have := (Nat.pow_dvd_pow_iff_le_right (by decide)).mp hpow
    omega

theorem lowbit_eq (id : Id) {d q : Nat} (hd : d < 160) (hval : val id = (2 * q + 1) * 2 ^ d) :
    lowbit id = 159 - d := by
  rcases lowbit_spec id with ⟨hzero, _⟩ | ⟨b, m, hb, hlow, hval'⟩
  · have hpos : 0 < (2 * q + 1) * 2 ^ d := Nat.mul_pos (by omega) (Nat.two_pow_pos d)
    omega
  · have hle := lowbit_le id (d := d) (by omega) ⟨2 * q + 1, by rw [hval, Nat.mul_comm]⟩
    have hdvd : 2 ^ (159 - b) ∣ 2 ^ d := by
      have hmul : 2 ^ (159 - b) ∣ (2 * q + 1) * 2 ^ d :=
        ⟨2 * m + 1, by rw [← hval, hval', Nat.mul_comm]⟩
      have hodd : Nat.Coprime (2 ^ (159 - b)) (2 * q + 1) := Nat.Coprime.pow_left _ (by simp)
      exact hodd.dvd_of_dvd_mul_left hmul
    have := (Nat.pow_dvd_pow_iff_le_right (by decide)).mp hdvd
    omega

theorem leadingZeros_byte : ∀ n < 256, n ≠ 0 → leadingZeros 8 (UInt8.ofNat n) < 8 ∧
    ∀ j ≤ 8, (j ≤ leadingZeros 8 (UInt8.ofNat n) ↔ n < 2 ^ (8 - j)) := by
  decide +kernel

theorem commonLoop_le_iff {as bs : List UInt8} (hlength : as.length = bs.length) {j : Nat}
    (hj : j ≤ 8 * as.length) :
    j ≤ commonLoop as bs ↔ ofBytes (List.zipWith (· ^^^ ·) as bs) < 2 ^ (8 * as.length - j) := by
  induction as generalizing bs j with
  | nil =>
    obtain rfl : j = 0 := by simpa using hj
    simp [ofBytes]
  | cons a as ih =>
    obtain _ | ⟨b, bs⟩ := bs
    · contradiction
    have htail : as.length = bs.length := by simpa using hlength
    have hrest : ofBytes (List.zipWith (· ^^^ ·) as bs) < 2 ^ (8 * as.length) := by
      have := ofBytes_lt (List.zipWith (· ^^^ ·) as bs)
      rw [List.length_zipWith, ← htail, Nat.min_self, show (256 : Nat) = 2 ^ 8 from rfl,
        ← Nat.pow_mul] at this
      exact this
    have hwhole : (256 : Nat) ^ as.length = 2 ^ (8 * as.length) := by
      rw [show (256 : Nat) = 2 ^ 8 from rfl, ← Nat.pow_mul]
    simp only [List.length_cons] at hj ⊢
    rw [List.zipWith_cons_cons, BigEndian.ofBytes_cons, List.length_zipWith, ← htail, Nat.min_self,
      hwhole]
    by_cases hhead : a = b
    · have hstep : commonLoop (a :: as) (b :: bs) = 8 + commonLoop as bs := by
        simp [commonLoop, hhead]
      simp only [hhead, UInt8.xor_self, UInt8.toNat_zero, Nat.zero_mul, Nat.zero_add] at hstep ⊢
      rw [hstep]
      by_cases hsmall : j ≤ 8
      · have hbig : 2 ^ (8 * as.length) ≤ 2 ^ (8 * (as.length + 1) - j) :=
          Nat.pow_le_pow_right (by decide) (by omega)
        constructor
        · intro _
          omega
        · intro _
          omega
      · have := ih htail (j := j - 8) (by omega)
        rw [show 8 * (as.length + 1) - j = 8 * as.length - (j - 8) by omega, ← this]
        omega
    · have hne : (a ^^^ b).toNat ≠ 0 := by
        intro h
        exact hhead (UInt8.xor_eq_zero_iff.mp (UInt8.toNat_inj.mp h))
      obtain ⟨hlt, hiff⟩ := leadingZeros_byte _ (a ^^^ b).toNat_lt hne
      rw [UInt8.ofNat_toNat] at hlt hiff
      simp only [commonLoop, hhead, if_false]
      have hpos : 0 < 2 ^ (8 * as.length) := Nat.two_pow_pos _
      by_cases hsmall : j ≤ 8
      · rw [hiff j hsmall, show 8 * (as.length + 1) - j =
          8 - j + 8 * as.length by omega, Nat.pow_add]
        constructor
        · intro hx
          have := Nat.mul_le_mul_right (2 ^ (8 * as.length)) (Nat.succ_le_of_lt hx)
          rw [Nat.succ_mul] at this
          omega
        · intro hx
          by_contra hge
          have := Nat.mul_le_mul_right (2 ^ (8 * as.length)) (Nat.le_of_not_lt hge)
          omega
      · have hbig : 2 ^ (8 * (as.length + 1) - j) ≤ 2 ^ (8 * as.length) :=
          Nat.pow_le_pow_right (by decide) (by omega)
        have := Nat.mul_le_mul_right (2 ^ (8 * as.length)) (Nat.pos_of_ne_zero hne)
        constructor
        · intro _
          omega
        · intro _
          omega

/-- Two ids have `j` bits in common when their numbers agree above the other bits. -/
theorem le_commonBits_iff {id1 id2 : Id} {j : Nat} (hj : j ≤ 160) :
    j ≤ commonBits id1 id2 ↔ val id1 / 2 ^ (160 - j) = val id2 / 2 ^ (160 - j) := by
  have h := commonLoop_le_iff (length_eq id1 id2) (j := j) (by rw [Vector.length_toList]; exact hj)
  rw [Vector.length_toList, BigEndian.ofBytes_xor (length_eq id1 id2), BigEndian.xor_lt_iff] at h
  exact h

open SplitPath (Cell locate Holds)

def cells (bs : List Bucket) : List Cell := bs.map fun b => ⟨val b.first, b.maxCount⟩

theorem cells_getElem? (bs : List Bucket) (i : Nat) :
    (cells bs)[i]? = bs[i]?.map fun b => ⟨val b.first, b.maxCount⟩ := by
  simp [cells]

theorem findBucket_eq (id : Id) {bs : List Bucket} (hne : bs ≠ []) :
    findBucket id bs = some (locate (val id) (cells bs)) := by
  fun_induction findBucket id bs with
  | case1 => contradiction
  | case2 => rfl
  | case3 b next rest hlt =>
    rw [idCmp_lt_iff] at hlt
    simp [cells, locate, hlt]
  | case4 b next rest hge ih =>
    rw [idCmp_lt_iff] at hge
    rw [ih (List.cons_ne_nil _ _)]
    simp [cells, locate, hge]

theorem inBucket_iff (id : Id) (bs : List Bucket) (i : Nat) :
    inBucket id bs i = true ↔ Holds (cells bs) i (val id) := by
  simp only [inBucket, Holds, cells_getElem?]
  cases hb : bs[i]? with
  | none => simp
  | some b =>
    cases hnext : bs[i + 1]? with
    | none => simp [idCmp_le_iff]
    | some next => simp [idCmp_le_iff, idCmp_lt_iff]

/-- The number of bits that the ids of a bucket share, for a bucket that is an aligned interval. -/
theorem bucketBit_eq {bs : List Bucket} {i d : Nat} {b : Bucket} (hd : d ≤ 160)
    (halign : 2 ^ d ∣ val b.first)
    (hnext : (bs[i + 1]? = none ∧ val b.first + 2 ^ d = 2 ^ 160) ∨
      ∃ next, bs[i + 1]? = some next ∧ val next.first = val b.first + 2 ^ d) :
    bucketBit bs i b = 160 - d := by
  have hfirst := lowbit_le b.first hd halign
  obtain ⟨q, hq⟩ := halign
  have heven : q = 2 * (q / 2) ∨ q = 2 * (q / 2) + 1 := by omega
  rcases hnext with ⟨hnone, hend⟩ | ⟨next, hsome, hstart⟩
  · simp only [bucketBit, hnone]
    rcases Nat.lt_or_ge d 160 with hlt | hge
    · rcases heven with hq2 | hq2
      · -- an even multiple does not end at the highest id
        exfalso
        have hsum : 2 ^ d * (q + 1) = 2 ^ d * 2 ^ (160 - d) := by
          rw [Nat.mul_succ, ← hq, hend, ← Nat.pow_add, Nat.add_sub_cancel' hd]
        have hodd := Nat.eq_of_mul_eq_mul_left (Nat.two_pow_pos d) hsum
        have hsplit : 2 ^ (160 - d) = 2 * 2 ^ (159 - d) := by
          rw [← Nat.pow_succ', Nat.succ_eq_add_one, show 159 - d + 1 = 160 - d by omega]
        omega
      · have := lowbit_eq b.first hlt (hq.trans (by rw [hq2, Nat.mul_comm]))
        omega
    · obtain rfl : d = 160 := by omega
      have hlow : lowbit b.first ≤ -1 := by omega
      omega
  · simp only [bucketBit, hsome]
    have hsum : val next.first = 2 ^ d * (q + 1) := by rw [hstart, hq, Nat.mul_succ]
    have hle := lowbit_le next.first hd ⟨q + 1, hsum⟩
    have hd' : d < 160 := by
      by_contra hge
      have := val_lt next.first
      have hpow : (2 : Nat) ^ 160 ≤ 2 ^ d := Nat.pow_le_pow_right (by decide) (by omega)
      omega
    rcases heven with hq2 | hq2
    · have := lowbit_eq next.first (q := q / 2) hd' (by rw [hsum, Nat.mul_comm]; congr 1; omega)
      omega
    · have := lowbit_eq b.first (q := q / 2) hd' (by rw [hq, Nat.mul_comm]; congr 1)
      omega

/-- The id in the middle of an aligned interval, unless it is a single id. -/
theorem bucketMiddle_spec {bs : List Bucket} {i d : Nat} {b : Bucket}
    (hbit : bucketBit bs i b = 160 - d) (hd : d ≤ 160) (halign : 2 ^ d ∣ val b.first) :
    (d = 0 ∧ bucketMiddle bs i b = none) ∨
      ∃ id, 0 < d ∧ bucketMiddle bs i b = some id ∧ val id = val b.first + 2 ^ (d - 1) := by
  have hnat : (bucketBit bs i b).toNat = 160 - d := by omega
  rcases Nat.eq_zero_or_pos d with hzero | hpos
  · left
    simp [bucketMiddle, hnat, hzero]
  · right
    refine ⟨_, hpos, by simp only [bucketMiddle, hnat]; rw [if_neg (by omega)], ?_⟩
    have hlength : b.first.toList.length = 20 := Vector.length_toList
    have hlt : (160 - d) / 8 < 20 := by omega
    have hsplit : b.first.toList = b.first.toList.take ((160 - d) / 8) ++
        b.first.toList.getD ((160 - d) / 8) 0 :: b.first.toList.drop ((160 - d) / 8 + 1) := by
      rw [List.getD_eq_getElem?_getD, List.getElem?_eq_getElem (by omega), Option.getD_some,
        List.getElem_cons_drop, List.take_append_drop]
    have hset (v : UInt8) : (b.first.set! ((160 - d) / 8) v).toList =
        b.first.toList.take ((160 - d) / 8) ++ v :: b.first.toList.drop ((160 - d) / 8 + 1) := by
      rw [Vector.toList_set!, List.set_eq_take_append_cons_drop, if_pos (by omega)]
    have hpost : (b.first.toList.drop ((160 - d) / 8 + 1)).length = 19 - (160 - d) / 8 := by
      rw [List.length_drop, hlength]
      omega
    have hweight (n : Nat) : 2 ^ n * 256 ^ (19 - (160 - d) / 8) =
      2 ^ (n + 8 * (19 - (160 - d) / 8)) := by
      rw [show (256 : Nat) = 2 ^ 8 from rfl, ← Nat.pow_mul, ← Nat.pow_add]
    rw [val, hset, BigEndian.ofBytes_or_bit (Nat.mod_lt _ (by decide)) ?_, ← hsplit, hpost, hweight]
    · rw [val]
      congr 2
      omega
    · rw [← hsplit, hpost, hweight]
      have : 8 - (160 - d) % 8 + 8 * (19 - (160 - d) / 8) = d := by omega
      rw [this]
      exact halign

end Dht
