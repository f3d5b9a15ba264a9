import Mathlib.Data.List.Basic
import Pipensx.PrefixLayout
import Pipensx.TorrentFile

/-!
# The flat data space on disk files and sinks

`core/platform_storage.c`: the payload of a torrent is one flat range of bytes, cut into
files that are on disk, handed to a sink or skipped. Reading and writing walk over the
files a range touches. An open file is a list of bytes that grows when it is written past
its end; what the operating system and the sinks answer during a write is a parameter.
-/

namespace Storage

open TorrentFile

inductive FileMode where
  | disk
  | sink
  | skip
  deriving DecidableEq, Repr

/-- `struct file_handle`; `fp` is the content of the open file, `none` for `NULL`, and
`hasSink` says whether `config.sink` is set. -/
structure FileHandle where
  offset : Int
  length : Int
  mode : FileMode
  hasSink : Bool
  readyBytes : Nat
  fp : Option (List UInt8)
  deriving DecidableEq, Repr

/-- One call of a sink: the file index, the offset in that file and the bytes. -/
structure Delivery where
  file : Nat
  offset : Nat
  bytes : List UInt8
  deriving DecidableEq, Repr

/-- `struct storage`. `delivered` records the calls of the sinks; `error` is the file
index in the text of "stream sink rejected file", the only text ever stored. -/
structure Store where
  files : List FileHandle
  delivered : List Delivery
  error : Option Nat
  deriving DecidableEq, Repr

/-- What happens to the part of a write that falls into one file: whether `fseek`
succeeds, how many bytes `fwrite` manages, whether the sink accepts. -/
structure Outcome where
  seek : Bool
  wrote : Nat
  accepts : Bool

abbrev Faults := Nat → Outcome

/-- What `storage_open_ex` sets up: one handle for each file of the torrent, with its
place in the flat space. -/
def Opened (mi : Metainfo) (s : Store) : Prop :=
  s.files.map (fun fh => (fh.offset, fh.length)) =
    mi.fileTable.map (fun mf => (mf.offset, mf.length))

def startsBy (files : List FileHandle) (off : Int) (i : Nat) : Bool :=
  match files[i]? with
  | some fh => decide (fh.offset ≤ off)
  | none => false

/-- `find_file`: the index, the handle and the offset inside the file. -/
def findFile (files : List FileHandle) (off : Int) : Option (Nat × FileHandle × Int) :=
  let lo := PrefixLayout.bisect (startsBy files off) files.length 0 files.length
  if lo = 0 then none
  else
    match files[lo - 1]? with
    | none => none
    | some fh => if off ≥ fh.offset + fh.length then none else some (lo - 1, fh, off - fh.offset)

/-- The loop `storage_write`, `storage_read`, `range_has_mode` and
`storage_range_skipped` share: `visit` is called once for each file the range touches,
with the number of bytes done so far and the number that falls into the file; `.error`
leaves the loop. -/
def walk {σ : Type} (table : σ → List FileHandle)
    (visit : σ → Nat → FileHandle → Int → Nat → Nat → Except σ σ) (offset : Int) (len : Nat) :
    Nat → σ → Nat → Except σ σ
  | 0, s, _ => .ok s
  | fuel + 1, s, done =>
    if done < len then
      match findFile (table s) (offset + done) with
      | none => .error s
      | some (i, fh, localOff) =>
        let count := min (fh.length - localOff).toNat (len - done)
        match visit s i fh localOff done count with
        | .error s' => .error s'
        | .ok s' => walk table visit offset len fuel s' (done + count)
    else .ok s

/-- `fseek` and `fwrite`: a gap before the written bytes is filled with zeros. -/
def overwrite (bytes : List UInt8) (pos : Nat) (data : List UInt8) : List UInt8 :=
  if data = [] then bytes
  else (bytes ++ List.replicate (pos - bytes.length) 0).take pos ++ data ++
    bytes.drop (pos + data.length)

def Store.reject (s : Store) (i : Nat) : Store := { s with error := s.error.or (some i) }

def Store.setContent (s : Store) (i : Nat) (bytes : List UInt8) : Store :=
  { s with files := s.files.modify i (fun fh => { fh with fp := some bytes }) }

/-- The body of the loop in `storage_write` for the bytes `src` of one file. -/
def writeSegment (io : Faults) (s : Store) (i : Nat) (fh : FileHandle) (localOff : Nat)
    (src : List UInt8) : Except Store Store :=
  match fh.mode with
  | .skip => .ok s
  | .sink =>
    -- bytes below ready_bytes were consumed by an earlier session
    let skip := fh.readyBytes - localOff
    if localOff < fh.readyBytes ∧ skip ≥ src.length then .ok s
    else if fh.hasSink = false then .error (s.reject i)
    else
      let s' := { s with delivered := s.delivered ++ [⟨i, localOff + skip, src.drop skip⟩] }
      if (io i).accepts then .ok s' else .error (s'.reject i)
  | .disk =>
    match fh.fp with
    | none => .error s
    | some bytes =>
      if (io i).seek = false then .error s
      else
        let w := min (io i).wrote src.length
        let s' := s.setContent i (overwrite bytes localOff (src.take w))
        if w ≠ src.length then .error s' else .ok s'

def storageWrite (io : Faults) (s : Store) (offset : Int) (data : List UInt8) :
    Except Store Store :=
  walk Store.files
    (fun s i fh localOff written canWrite =>
      writeSegment io s i fh localOff.toNat ((data.drop written).take canWrite))
    offset data.length data.length s 0

/-- The body of the loop in `storage_read`; the bytes read so far are the state. -/
def readSegment (data : List UInt8) (fh : FileHandle) (localOff canRead : Nat) :
    Except (List UInt8) (List UInt8) :=
  match fh.mode, fh.fp with
  | .disk, some bytes =>
    let r := (bytes.drop localOff).take canRead
    if r.length ≠ canRead then .error (data ++ r) else .ok (data ++ r)
  | _, _ => .error data

/-- `storage_read`: the return value and the bytes placed in `data`. -/
def storageRead (s : Store) (offset : Int) (len : Nat) : Int × List UInt8 :=
  match walk (fun _ => s.files)
      (fun data _ fh localOff _ canRead => readSegment data fh localOff.toNat canRead)
      offset len len [] 0 with
  | .ok data => (len, data)
  | .error data => (-1, data)

def rangeHasMode (s : Store) (offset : Int) (len : Nat) (mode : FileMode) : Bool :=
  (walk (fun _ => s.files)
    (fun _ _ fh _ _ _ => if fh.mode ≠ mode then .error () else .ok ()) offset len len () 0).isOk

def storageRangeReadable (s : Store) (offset : Int) (len : Nat) : Bool :=
  rangeHasMode s offset len .disk

def storageRangeSkipped (s : Store) (offset : Int) (len : Nat) : Bool :=
  (walk (fun _ => s.files)
    (fun _ _ fh localOff _ count =>
      if fh.mode = .skip then .ok ()
      else if fh.mode = .sink ∧ localOff.toNat + count ≤ fh.readyBytes then .ok ()
      else .error ()) offset len len () 0).isOk

/-- The offsets are the prefix sums of the non-negative lengths. -/
structure Laid (files : List FileHandle) : Prop where
  nonneg : ∀ (i : Nat) (fh : FileHandle), files[i]? = some fh → 0 ≤ fh.length
  offset : ∀ (i : Nat) (fh : FileHandle), files[i]? = some fh →
    fh.offset = PrefixLayout.start (files.map FileHandle.length) i

section Tiling

variable {files : List FileHandle}

theorem Laid.before (laid : Laid files) {i j : Nat} {f g : FileHandle} (hij : i < j)
    (hf : files[i]? = some f) (hg : files[j]? = some g) : f.offset + f.length ≤ g.offset := by
  have hnn : ∀ l ∈ files.map FileHandle.length, 0 ≤ l := by
    intro l hl
    obtain ⟨fh, hfh, rfl⟩ := List.mem_map.mp hl
    obtain ⟨k, hk⟩ := List.mem_iff_getElem?.mp hfh
    exact laid.nonneg k fh hk
  obtain ⟨hi, hfi⟩ := List.getElem?_eq_some_iff.mp hf
  have hlen : i < (files.map FileHandle.length).length := by simpa using hi
  have hend : f.offset + f.length = PrefixLayout.start (files.map FileHandle.length) (i + 1) := by
    rw [PrefixLayout.start_succ _ _ hlen, laid.offset i f hf]
    simp [hfi]
  rw [hend, laid.offset j g hg]
  exact PrefixLayout.start_mono hnn hij

theorem findFile_some {off : Int} {i : Nat} {fh : FileHandle} {localOff : Int}
    (h : findFile files off = some (i, fh, localOff)) :
    files[i]? = some fh ∧ fh.offset ≤ off ∧ off < fh.offset + fh.length ∧
      localOff = off - fh.offset := by
  simp only [findFile] at h
  have hpred := PrefixLayout.bisect_pred files.length 0 files.length
    (Or.inl rfl : 0 = 0 ∨ startsBy files off (0 - 1) = true)
  split at h
  · cases h
  · next hlo =>
    split at h
    · cases h
    · next fh' hget =>
      split at h
      · cases h
      · next hlt =>
        simp only [Option.some.injEq, Prod.mk.injEq] at h
        obtain ⟨rfl, rfl, rfl⟩ := h
        rcases hpred with hzero | hstart
        · exact absurd hzero hlo
        · simp only [startsBy, hget, decide_eq_true_eq] at hstart
          exact ⟨hget, hstart, by omega, rfl⟩

/-- In a tiling the file found is the one file whose range holds the position. -/
theorem findFile_of_owner (laid : Laid files) {off : Int} {i : Nat} {fh : FileHandle}
    (hget : files[i]? = some fh) (hlo : fh.offset ≤ off) (hhi : off < fh.offset + fh.length) :
    findFile files off = some (i, fh, off - fh.offset) := by
  have hinit : ∀ a b, a ≤ b → startsBy files off b = true → startsBy files off a = true := by
    intro a b hab hb
    simp only [startsBy] at hb ⊢
    split at hb
    · next g hg =>
      have hblen := (List.getElem?_eq_some_iff.mp hg).1
      have hf : files[a]? = some files[a] := List.getElem?_eq_getElem (by omega)
      have hbg : g.offset ≤ off := by simpa using hb
      rw [hf]
      rcases Nat.lt_or_eq_of_le hab with hlt | heq
      · have hbefore := laid.before hlt hf hg
        have hnn := laid.nonneg a _ hf
        simp only [decide_eq_true_eq]
        omega
      · subst heq
        rw [hf] at hg
        cases hg
        simpa using hbg
    · cases hb
  have hspec := PrefixLayout.bisect_spec hinit files.length 0 files.length (by omega) (by omega)
    (by intro j hj; omega) (by
      intro j hj
      simp only [startsBy]
      rw [List.getElem?_eq_none hj])
  have hilo : i < PrefixLayout.bisect (startsBy files off) files.length 0 files.length := by
    rw [hspec]
    simpa [startsBy, hget] using hlo
  have hlast : PrefixLayout.bisect (startsBy files off) files.length 0 files.length - 1 = i := by
    have hb := (hspec (PrefixLayout.bisect (startsBy files off) files.length 0 files.length - 1)).mp
      (by omega)
    by_contra hne
    simp only [startsBy] at hb
    split at hb
    · next g hg =>
      have hbefore := laid.before (show i < _ by omega) hget hg
      have hge : g.offset ≤ off := by simpa using hb
      omega
    · cases hb
  simp only [findFile, hlast, hget]
  rw [if_neg (by omega), if_neg (by omega)]

theorem findFile_iff (laid : Laid files) {off : Int} {i : Nat} {fh : FileHandle} {localOff : Int} :
    findFile files off = some (i, fh, localOff) ↔
      files[i]? = some fh ∧ fh.offset ≤ off ∧ off < fh.offset + fh.length ∧
        localOff = off - fh.offset := by
  constructor
  · exact findFile_some
  · rintro ⟨hget, hlo, hhi, rfl⟩
    exact findFile_of_owner laid hget hlo hhi

/-- The rest of a file belongs to the same file. -/
theorem findFile_add (laid : Laid files) {off : Int} {i : Nat} {fh : FileHandle} {localOff : Int}
    (h : findFile files off = some (i, fh, localOff)) {k : Nat}
    (hk : k < (fh.length - localOff).toNat) :
    findFile files (off + k) = some (i, fh, localOff + k) := by
  rw [findFile_iff laid] at h ⊢
  obtain ⟨hget, hlo, hhi, rfl⟩ := h
  exact ⟨hget, by omega, by omega, by omega⟩

end Tiling

end Storage
