import Mathlib.Data.Nat.Bitwise
import Pipensx.CString
import Pipensx.StoragePaths
import Pipensx.Stdio

/-!
# The cache of DHT nodes

`dht_cache_read` and `dht_cache_write` of `core/dht.c`: four bytes of magic, the id of the node, a
count of two bytes, the lower one first, and the compact endpoints. A file is written beside the old
one and renamed.
-/

namespace DhtCache

open CText Stdio

/-- Four bytes of address and two of the port. -/
abbrev Endpoint := Vector UInt8 6

def cacheMagic : List UInt8 := ascii "PXD1".toList

def cacheMaxNodes : Nat := 256

/-- Endpoints as they lie in memory. -/
def endpointBytes (nodes : List Endpoint) : List UInt8 := nodes.flatMap Vector.toList

/-- The result, and what is then in the arrays of the caller. -/
structure Outcome where
  result : Int
  nodeId : List UInt8
  nodes : List UInt8
  deriving DecidableEq

/-- `file` is what `path` names, if it opens. `none` is a write behind the end of an array. -/
def dhtCacheRead (file : Option (List UInt8)) (nodeId : Vector UInt8 20) (nodes : List UInt8)
    (maxNodes : Int) : Option Outcome :=
  match file with
  | none => some ⟨-1, nodeId.toList, nodes⟩
  | some file =>
    let magic := fread 1 4 file
    if magic.items = 4 ∧ magic.bytes = cacheMagic then
      let id := fread 1 20 magic.left
      (store nodeId.toList id.bytes).bind fun nodeId =>
        let cnt := fread 1 2 id.left
        if id.items = 20 ∧ cnt.items = 2 then
          let n := (cnt.bytes.getD 0 0).toNat ||| (cnt.bytes.getD 1 0).toNat <<< 8
          if n > cacheMaxNodes then some ⟨-1, nodeId, nodes⟩
          else
            let n : Int := if n > maxNodes then maxNodes else n
            -- `(size_t)n`
            let count := (n % 2 ^ 64).toNat
            let items := fread 6 count cnt.left
            (store nodes items.bytes).map fun nodes =>
              ⟨if items.items = count then n else -1, nodeId, nodes⟩
        else some ⟨-1, nodeId, nodes⟩
    else some ⟨-1, nodeId.toList, nodes⟩

/-- What the device answers during a call: whether the temporary file opens, the bytes there is room
for, what is lost when it is closed, and which renames and removals are granted. -/
structure Device where
  opens : Bool
  room : Nat
  lost : Option Nat
  renames : Bool
  renamesAgain : Bool
  removesCache : Bool
  removesTmp : Bool

def tmpPath (path : CString) : List UInt8 :=
  (StoragePaths.snprintf 600 (path.bytes ++ ascii ".tmp".toList)).1

def cntLe (count : Int) : List UInt8 :=
  [UInt8.ofNat (count.toNat &&& 255), UInt8.ofNat (count.toNat >>> 8)]

/-- The arguments of the four `fwrite`. -/
def cacheItems (nodeId : Vector UInt8 20) (nodes : List Endpoint) (count : Int) :
    List (Items UInt8) :=
  [⟨1, 4, cacheMagic⟩, ⟨1, 20, nodeId.toList⟩, ⟨1, 2, cntLe count⟩,
    ⟨6, count.toNat, endpointBytes nodes⟩]

/-- Whether it succeeds, and the files that are then there. -/
def dhtCacheWrite (device : Device) (files : Files (List UInt8) UInt8) (path : CString)
    (nodeId : Vector UInt8 20)
    (nodes : List Endpoint) (count : Int) : Bool × Files (List UInt8) UInt8 :=
  if count ≤ 0 ∨ count > cacheMaxNodes then (false, files)
  else
    let tmp := tmpPath path
    if device.opens = false then (false, files)
    else
      let wrote := fwriteAll device.room (cacheItems nodeId nodes count) []
      let closed := fclose device.lost tmp wrote.2 files
      if (wrote.1 && closed.1) = false then (false, remove device.removesTmp tmp closed.2)
      else
        let renamed := rename device.renames tmp path.bytes closed.2
        if renamed.1 then (true, renamed.2)
        else
          -- FAT may refuse to rename over a file that exists
          let removed := remove device.removesCache path.bytes renamed.2
          let renamed := rename device.renamesAgain tmp path.bytes removed
          if renamed.1 then (true, renamed.2)
          else (false, remove device.removesTmp tmp renamed.2)

/-- The lists that are written. -/
structure Cache where
  nodeId : Vector UInt8 20
  nodes : List Endpoint
  some_nodes : 1 ≤ nodes.length
  limit : nodes.length ≤ cacheMaxNodes

/-- The format. -/
def Cache.bytes (c : Cache) : List UInt8 :=
  cacheMagic ++ (c.nodeId.toList ++ (cntLe c.nodes.length ++ endpointBytes c.nodes))

/-- The count of a file that has one. -/
def countField (file : List UInt8) : Nat := (file.getD 24 0).toNat + 256 * (file.getD 25 0).toNat

/-- A file of which `m` endpoints can be asked. -/
structure WellFormed (file : List UInt8) (m : Nat) : Prop where
  magic : file.take 4 = cacheMagic
  header : 26 ≤ file.length
  limit : countField file ≤ cacheMaxNodes
  nodes : 26 + 6 * min (countField file) m ≤ file.length

/-- The result is `-1`, and no array is overrun. -/
def Rejected (file : List UInt8) (m : Int) : Prop :=
  ∀ (oldId : Vector UInt8 20) (old : List UInt8), 6 * m ≤ old.length →
    ∃ nodeId nodes, dhtCacheRead (some file) oldId old m = some ⟨-1, nodeId, nodes⟩

/-- As many of the endpoints as there are and as are asked for, into an array that has the room. -/
def ReadsBack (file : List UInt8) (c : Cache) (m : Nat) : Prop :=
  ∀ (oldId : Vector UInt8 20) (old : List UInt8), 6 * m ≤ old.length →
    dhtCacheRead (some file) oldId old m =
      some ⟨(min c.nodes.length m : Nat), c.nodeId.toList,
        endpointBytes (c.nodes.take (min c.nodes.length m)) ++ old.drop (6 * min c.nodes.length m)⟩

/-- A written file is read back for every limit, and is of no use once it is cut. -/
def RoundTrips (c : Cache) (written : Option (List UInt8)) : Prop :=
  ∃ file, written = some file ∧ (∀ m, ReadsBack file c m) ∧
    ∀ m : Nat, c.nodes.length ≤ m → ∀ p, p <+: file → p ≠ file → Rejected p m

section Format

/-- The two bytes do not overlap. -/
theorem or_shift (lo hi : UInt8) : lo.toNat ||| hi.toNat <<< 8 = lo.toNat + 256 * hi.toNat := by
  rw [Nat.or_comm, ← Nat.shiftLeft_add_eq_or_of_lt lo.toNat_lt, Nat.shiftLeft_eq,
    Nat.add_comm, Nat.mul_comm]

theorem cntLe_value {n : Nat} (hn : n < 2 ^ 16) :
    ((cntLe n).getD 0 0).toNat + 256 * ((cntLe n).getD 1 0).toNat = n := by
  have hlow : (UInt8.ofNat (n &&& 255)).toNat = n % 256 := by
    rw [UInt8.toNat_ofNat', Nat.and_two_pow_sub_one_eq_mod n 8]
    exact Nat.mod_mod n 256
  have hhigh : (UInt8.ofNat (n >>> 8)).toNat = n / 256 := by
    rw [UInt8.toNat_ofNat', Nat.shiftRight_eq_div_pow]
    exact Nat.mod_eq_of_lt (by omega)
  show (UInt8.ofNat ((n : Int).toNat &&& 255)).toNat + 256 *
    (UInt8.ofNat ((n : Int).toNat >>> 8)).toNat = n
  rw [Int.toNat_natCast, hlow, hhigh]
  omega

theorem endpointBytes_length (nodes : List Endpoint) :
    (endpointBytes nodes).length = 6 * nodes.length := by
  induction nodes with
  | nil => rfl
  | cons e rest ih =>
    have hcons : endpointBytes (e :: rest) = e.toList ++ endpointBytes rest := rfl
    rw [hcons, List.length_append, ih, Vector.length_toList, List.length_cons]
    omega

theorem endpointBytes_take (nodes : List Endpoint) (k : Nat) :
    (endpointBytes nodes).take (6 * k) = endpointBytes (nodes.take k) := by
  induction nodes generalizing k with
  | nil => simp [endpointBytes]
  | cons e rest ih =>
    have hcons (l : List Endpoint) : endpointBytes (e :: l) = e.toList ++ endpointBytes l := rfl
    cases k with
    | zero => rfl
    | succ k =>
      have hone : 6 * (k + 1) = e.toList.length + 6 * k := by
        rw [Vector.length_toList]
        omega
      rw [List.take_succ_cons, hcons, hcons, hone, List.take_length_add_append, ih]

/-- Twenty-six bytes and the magic make a header. -/
theorem header_of_length {file : List UInt8} (hmagic : file.take 4 = cacheMagic)
    (hlength : 26 ≤ file.length) :
    ∃ id lo hi body, id.length = 20 ∧ file = cacheMagic ++ (id ++ (lo :: hi :: body)) := by
  obtain ⟨lo, tail, hlo⟩ : ∃ lo tail, file.drop 24 = lo :: tail := by
    refine List.exists_cons_of_length_pos ?_
    rw [List.length_drop]
    omega
  obtain ⟨hi, body, hhi⟩ : ∃ hi body, tail = hi :: body := by
    refine List.exists_cons_of_length_pos ?_
    have htail := congrArg List.length hlo
    rw [List.length_drop, List.length_cons] at htail
    omega
  refine ⟨(file.drop 4).take 20, lo, hi,
    body, by rw [List.length_take, List.length_drop]; omega, ?_⟩
  calc file = file.take 4 ++ file.drop 4 := (List.take_append_drop 4 file).symm
    _ = file.take 4 ++ ((file.drop 4).take 20 ++ (file.drop 4).drop 20) := by
      rw [List.take_append_drop 20]
    _ = cacheMagic ++ ((file.drop 4).take 20 ++ (lo :: hi :: body)) := by
      rw [hmagic, List.drop_drop, hlo, hhi]

section Header

variable {id : List UInt8} (hid : id.length = 20)
include hid

theorem id_header (tail : List UInt8) : ((cacheMagic ++ (id ++ tail)).drop 4).take 20 = id := by
  have hdrop : (cacheMagic ++ (id ++ tail)).drop 4 = id ++ tail := rfl
  rw [hdrop, List.take_left' hid]

theorem drop_header (tail : List UInt8) : (cacheMagic ++ (id ++ tail)).drop 24 = tail := by
  rw [← List.append_assoc]
  exact List.drop_left' (by rw [List.length_append, hid]; rfl)

theorem length_header (tail : List UInt8) :
    (cacheMagic ++ (id ++ tail)).length = 24 + tail.length := by
  have hmagic : cacheMagic.length = 4 := rfl
  rw [List.length_append, List.length_append, hid, hmagic]
  omega

theorem countField_header (lo hi : UInt8) (body : List UInt8) :
    countField (cacheMagic ++ (id ++ (lo :: hi :: body))) = lo.toNat + 256 * hi.toNat := by
  have hget (i : Nat) (l : List UInt8) : l.getD (24 + i) 0 = (l.drop 24).getD i 0 := by
    rw [List.getD_eq_getElem?_getD, List.getD_eq_getElem?_getD, List.getElem?_drop]
  rw [countField, hget 0, hget 1, drop_header hid]
  rfl

end Header

end Format

section Read

variable {file : List UInt8}

/-- Fewer bytes than a header has. -/
theorem rejected_of_short (hshort : file.length < 26) (m : Int) : Rejected file m := by
  intro oldId old _
  rw [dhtCacheRead]
  dsimp only
  split
  · rename_i hmagic
    have hleft : (fread 1 4 file).left.length = file.length - 4 := List.length_drop
    have hid : (fread 1 20 (fread 1 4 file).left).bytes.length ≤ oldId.toList.length := by
      rw [Vector.length_toList]
      exact fread_bytes_length_le _
    rw [store_eq hid, Option.bind_some, if_neg]
    · exact ⟨_, _, rfl⟩
    · rintro ⟨htwenty, htwo⟩
      have hidThere := (fread_items_iff (by decide)).mp htwenty
      have hcountThere := (fread_items_iff (by decide)).mp htwo
      rw [fread, List.length_drop] at hcountThere
      omega
  · exact ⟨_, _, rfl⟩

theorem rejected_of_magic (hother : file.take 4 ≠ cacheMagic) (m : Int) : Rejected file m := by
  intro oldId old _
  rw [dhtCacheRead]
  dsimp only
  rw [if_neg fun hmagic => hother hmagic.2]
  exact ⟨_, _, rfl⟩

/-- What is done with a file that has a header. -/
theorem read_header {id : List UInt8} (hid : id.length = 20) (lo hi : UInt8) (body : List UInt8)
    (oldId : Vector UInt8 20) (old : List UInt8) (m : Int) :
    dhtCacheRead (some (cacheMagic ++ (id ++ (lo :: hi :: body)))) oldId old m =
      if lo.toNat + 256 * hi.toNat > cacheMaxNodes then some ⟨-1, id, old⟩
      else
        let n : Int := if (lo.toNat + 256 * hi.toNat : Nat) > m then m else
          (lo.toNat + 256 * hi.toNat : Nat)
        let items := fread 6 (n % 2 ^ 64).toNat body
        (store old items.bytes).map fun nodes =>
          ⟨if items.items = (n % 2 ^ 64).toNat then n else -1, id, nodes⟩ := by
  have hmagic : fread 1 4 (cacheMagic ++ (id ++ (lo :: hi :: body))) =
    ⟨4, cacheMagic, id ++ (lo :: hi :: body)⟩ :=
    fread_append (by decide) rfl
  have hidRead : fread 1 20 (id ++ (lo :: hi :: body)) = ⟨20, id, lo :: hi :: body⟩ :=
    fread_append (by decide) hid
  have hcount : fread 1 2 (lo :: hi :: body) = ⟨2, [lo, hi], body⟩ :=
    @fread_append UInt8 1 2 (by decide) [lo, hi] body rfl
  have hstore : store oldId.toList id = some id := by
    rw [store_eq (by rw [hid, Vector.length_toList]), hid, List.drop_of_length_le
      (by rw [Vector.length_toList]), List.append_nil]
  rw [← or_shift]
  simp only [dhtCacheRead, hmagic, hidRead, hcount, hstore, and_self, if_true, Option.bind_some]
  rfl

theorem rejected_of_count (hlength : 26 ≤ file.length)
    (hcount : cacheMaxNodes < countField file) (m : Int) :
    Rejected file m := by
  by_cases hmagic : file.take 4 = cacheMagic
  · obtain ⟨id, lo, hi, body, hid, rfl⟩ := header_of_length hmagic hlength
    rw [countField_header hid] at hcount
    intro oldId old _
    rw [read_header hid, if_pos hcount]
    exact ⟨_, _, rfl⟩
  · exact rejected_of_magic hmagic m

/-- The endpoints behind a header, asked for with the size of an array. -/
theorem read_body {id : List UInt8} (hid : id.length = 20) (lo hi : UInt8)
    (body : List UInt8) {k m : Nat} (hcount : lo.toNat + 256 * hi.toNat ≤ cacheMaxNodes)
    (hk : k = min (lo.toNat + 256 * hi.toNat) m)
    (oldId : Vector UInt8 20) {old : List UInt8} (room : 6 * m ≤ old.length) :
    dhtCacheRead (some (cacheMagic ++ (id ++ (lo :: hi :: body)))) oldId old m =
      some ⟨if 6 * k ≤ body.length then k else -1, id, body.take (6 * k) ++
        old.drop (body.take (6 * k)).length⟩ := by
  have hasked : (if ((lo.toNat + 256 * hi.toNat : Nat) : Int) > (m : Int) then (m : Int)
      else ((lo.toNat + 256 * hi.toNat : Nat) : Int)) = (k : Int) := by
    split
    · omega
    · omega
  have hsize : ((k : Int) % 2 ^ 64).toNat = k := by
    have : k ≤ 256 := le_trans (hk ▸ min_le_left _ _) hcount
    omega
  have hfits : (fread 6 k body).bytes.length ≤ old.length := by
    have hbytes : (fread 6 k body).bytes.length ≤ 6 * k := fread_bytes_length_le body
    omega
  rw [read_header hid, if_neg (by omega)]
  dsimp only
  rw [hasked, hsize, store_eq hfits, Option.map_some,
    if_congr (fread_items_iff (by decide)) rfl rfl]
  rfl

/-- A file is accepted just where it is well formed, for any limit. -/
theorem read_eq (oldId : Vector UInt8 20) {old : List UInt8} {m : Nat} (room : 6 * m ≤ old.length) :
    (WellFormed file m ∧ dhtCacheRead (some file) oldId old m =
      some ⟨(min (countField file) m : Nat), (file.drop 4).take 20,
        (file.drop 26).take (6 * min (countField file) m) ++
          old.drop (6 * min (countField file) m)⟩) ∨
    (¬WellFormed file m ∧ ∃ nodeId nodes, dhtCacheRead (some file) oldId old m =
      some ⟨-1, nodeId, nodes⟩) := by
  have hroom : 6 * (m : Int) ≤ old.length := by omega
  by_cases hlength : 26 ≤ file.length
  · by_cases hmagic : file.take 4 = cacheMagic
    · by_cases hcount : countField file ≤ cacheMaxNodes
      · obtain ⟨id, lo, hi, body, hid, rfl⟩ := header_of_length hmagic hlength
        have hfield := countField_header hid lo hi body
        have hbehind : (cacheMagic ++ (id ++ (lo :: hi :: body))).drop 26 = body := by
          rw [← List.drop_drop (i := 2) (j := 24), drop_header hid]
          rfl
        have hall : (cacheMagic ++ (id ++ (lo :: hi :: body))).length = 26 + body.length := by
          rw [length_header hid, List.length_cons, List.length_cons]
          omega
        have hread := read_body hid lo hi body (hfield ▸ hcount)
          (congrArg (min · m) hfield) oldId room
        by_cases hnodes : 6 * min (countField (cacheMagic ++ (id ++ (lo :: hi :: body))))
          m ≤ body.length
        · left
          refine ⟨⟨hmagic, hlength, hcount, by omega⟩, ?_⟩
          rw [hread, if_pos hnodes, hbehind, List.length_take_of_le hnodes, id_header hid]
        · right
          refine ⟨fun h => hnodes (by have := h.nodes; omega), ?_⟩
          rw [hread, if_neg hnodes]
          exact ⟨_, _, rfl⟩
      · exact .inr ⟨fun h => hcount h.limit, rejected_of_count hlength (by omega) m oldId old hroom⟩
    · exact .inr ⟨fun h => hmagic h.magic, rejected_of_magic hmagic m oldId old hroom⟩
  · exact .inr ⟨fun h => hlength h.header, rejected_of_short (by omega) m oldId old hroom⟩

end Read

section Written

variable {c : Cache}

theorem Cache.bytes_eq (c : Cache) :
    (cacheItems c.nodeId c.nodes c.nodes.length).flatMap Items.all = c.bytes := by
  have hid : (Items.all ⟨1, 20, c.nodeId.toList⟩) = c.nodeId.toList :=
    List.take_of_length_le (Vector.length_toList).le
  have hnodes : (Items.all ⟨6, c.nodes.length, endpointBytes c.nodes⟩) = endpointBytes c.nodes :=
    List.take_of_length_le (endpointBytes_length c.nodes).le
  simp only [cacheItems, List.flatMap_cons, List.flatMap_nil, List.append_nil,
    Int.toNat_natCast, hid, hnodes]
  rfl

theorem Cache.length_bytes (c : Cache) : c.bytes.length = 26 + 6 * c.nodes.length := by
  have hcount : (cntLe c.nodes.length).length = 2 := rfl
  rw [Cache.bytes, length_header Vector.length_toList, List.length_append, hcount,
    endpointBytes_length]
  omega

theorem Cache.countField_bytes (c : Cache) : countField c.bytes = c.nodes.length := by
  have hsmall : c.nodes.length < 2 ^ 16 := lt_of_le_of_lt c.limit (by decide)
  exact (countField_header Vector.length_toList _ _ _).trans (cntLe_value hsmall)

theorem Cache.wellFormed (c : Cache) (m : Nat) : WellFormed c.bytes m where
  magic := rfl
  header := by
    rw [c.length_bytes]
    omega
  limit := by
    rw [c.countField_bytes]
    exact c.limit
  nodes := by
    rw [c.length_bytes, c.countField_bytes]
    omega

theorem Cache.reads_back (c : Cache) (m : Nat) : ReadsBack c.bytes c m := by
  intro oldId old room
  rcases @read_eq c.bytes oldId old m room with ⟨_, hread⟩ | ⟨hmalformed, _⟩
  · have hid : (c.bytes.drop 4).take 20 = c.nodeId.toList := id_header Vector.length_toList _
    have hnodes : c.bytes.drop 26 = endpointBytes c.nodes := by
      rw [← List.drop_drop (i := 2) (j := 24), Cache.bytes, drop_header Vector.length_toList]
      rfl
    rw [hread, c.countField_bytes, hid, hnodes, endpointBytes_take]
  · exact absurd (c.wellFormed m) hmalformed

/-- A count that is in what is left still stands for all the endpoints. -/
theorem Cache.rejects_cut {p : List UInt8} (hp : p <+: c.bytes) (hne : p ≠ c.bytes) {m : Nat}
    (hm : c.nodes.length ≤ m) : Rejected p m := by
  intro oldId old room
  rcases @read_eq p oldId old m (by omega) with ⟨hwell, _⟩ | ⟨_, hrejected⟩
  · obtain ⟨cut, hcut⟩ := hp
    have hfield : countField p = c.nodes.length := by
      rw [← c.countField_bytes, ← hcut, countField, countField, List.getD_append _ _ _ _
        (by have := hwell.header; omega), List.getD_append _ _ _ _ (by have := hwell.header; omega)]
    have hlong := hwell.nodes
    rw [hfield, Nat.min_eq_left hm, ← c.length_bytes] at hlong
    have hfront : p <+: c.bytes := ⟨cut, hcut⟩
    exact absurd (hfront.eq_of_length_le hlong) hne
  · exact hrejected

end Written

section Write

variable {device : Device} {files : Files (List UInt8) UInt8} {path : CString}
  {nodeId : Vector UInt8 20} {nodes : List Endpoint} {count : Int}

theorem cacheItems_positive : ∀ w ∈ cacheItems nodeId nodes count, 0 < w.size := by
  intro w hw
  simp only [cacheItems, List.mem_cons, List.not_mem_nil, or_false] at hw
  rcases hw with rfl | rfl | rfl | rfl
  · exact Nat.one_pos
  · exact Nat.one_pos
  · exact Nat.one_pos
  · exact Nat.succ_pos 5

/-- The file is never torn: it is whole, or as it was, or gone. -/
theorem write_replaces (device : Device) (files : Files (List UInt8) UInt8) (path : CString)
    (nodeId : Vector UInt8 20) (nodes : List Endpoint) (count : Int) :
    Replaces files (tmpPath path) path.bytes ((cacheItems nodeId nodes count).flatMap Items.all)
      (dhtCacheWrite device files path nodeId nodes count) := by
  rw [dhtCacheWrite]
  dsimp only
  generalize htmp : tmpPath path = tmp
  split
  · exact .of_given_up fun _ _ => rfl
  split
  · exact .of_given_up fun _ _ => rfl
  split
  · exact (Replaces.of_given_up fun other hother => fclose_other hother).remove_tmp rfl
  rename_i hok
  rw [Bool.not_eq_false, Bool.and_eq_true] at hok
  have hcontent := fwriteAll_whole cacheItems_positive hok.1
  have hthere := fclose_whole hok.2
  rw [hcontent, List.nil_append] at hthere hok ⊢
  generalize hclosed : (fclose device.lost tmp ((cacheItems nodeId nodes count).flatMap Items.all)
    files).2 = closed at *
  have hothers : ∀ other, other ≠ tmp → closed other = files other := by
    intro other hother
    rw [← hclosed]
    exact fclose_other hother
  have hfirst : Replaces files tmp path.bytes ((cacheItems nodeId nodes count).flatMap Items.all)
      (rename device.renames tmp path.bytes closed) :=
    .of_rename (.inl hthere) (fun hne => .inl (hothers _ hne)) fun other hother _ =>
      hothers other hother
  split
  · rename_i hrenamed
    rw [← hrenamed]
    exact hfirst
  · rename_i hrefused
    rw [rename_failed (Bool.eq_false_iff.mpr hrefused)]
    have hstill : remove device.removesCache path.bytes closed tmp = closed tmp ∨
        remove device.removesCache path.bytes closed tmp = none := remove_cases tmp
    rw [hthere] at hstill
    have hsecond : Replaces files tmp path.bytes ((cacheItems nodeId nodes count).flatMap Items.all)
        (rename device.renamesAgain tmp path.bytes
          (remove device.removesCache path.bytes closed)) := by
      refine .of_rename hstill (fun hne => ?_) fun other hother hpath => ?_
      · rw [← hothers _ hne]
        exact remove_cases _
      · rw [remove_other hpath]
        exact hothers other hother
    split
    · rename_i hrenamed
      rw [← hrenamed]
      exact hsecond
    · rename_i hagain
      exact hsecond.remove_tmp (Bool.eq_false_iff.mpr hagain)

end Write

/-- Reader and writer agree, and the reader takes nothing that is not of the format. -/
theorem cache_round_trip {device : Device} {files : Files (List UInt8) UInt8}
    {path : CString} {c : Cache}
    (wrote : (dhtCacheWrite device files path c.nodeId c.nodes c.nodes.length).1 = true) :
    RoundTrips c ((dhtCacheWrite device files path c.nodeId c.nodes c.nodes.length).2 path.bytes) ∧
      (∀ file : List UInt8, file.take 4 ≠ cacheMagic → ∀ m, Rejected file m) ∧
      ∀ file : List UInt8, 26 ≤ file.length → cacheMaxNodes < countField file →
      ∀ m, Rejected file m := by
  have hfile := (write_replaces device files path c.nodeId c.nodes c.nodes.length).whole wrote
  rw [c.bytes_eq] at hfile
  refine ⟨⟨c.bytes, hfile, c.reads_back, ?_⟩, ?_, ?_⟩
  · intro m hm p hp hne
    exact c.rejects_cut hp hne hm
  · intro file hother m
    exact rejected_of_magic hother m
  · intro file hlength hcount m
    exact rejected_of_count hlength hcount m

/-- As many endpoints as there can be, so that the count needs its second byte, on a device that
renames over nothing. -/
def fullCache : Cache :=
  ⟨Vector.replicate 20 7, List.replicate 256
    (Vector.replicate 6 1), by rw [List.length_replicate]; decide,
    by rw [List.length_replicate]; exact le_refl 256⟩

def cachePath : CString := ⟨ascii "sdmc:/switch/pipensx/dht_cache.bin".toList, by decide⟩

theorem cache_round_trip_full :
    RoundTrips fullCache ((dhtCacheWrite ⟨true, 2000, none, false, true, true, true⟩
      (fun _ => some [1, 2]) cachePath
      fullCache.nodeId fullCache.nodes fullCache.nodes.length).2 cachePath.bytes) ∧
      (∀ file : List UInt8, file.take 4 ≠ cacheMagic → ∀ m, Rejected file m) ∧
      ∀ file : List UInt8, 26 ≤ file.length → cacheMaxNodes < countField file →
      ∀ m, Rejected file m :=
  cache_round_trip (by decide +kernel)

end DhtCache
