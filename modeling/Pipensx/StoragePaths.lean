import Mathlib.Data.List.DropRight
import Pipensx.LexicalPath
import Pipensx.Storage
import Pipensx.TorrentLayout

/-!
# Where the output files are created

The upper half of `core/platform_storage.c`: the two ways to name a file and
`storage_open_ex`, which tries them. The file system is a parameter, asked with the whole
history of calls, so it may answer in any way. What is proved is that no torrent that
`metainfo_parse` accepts makes it open a path outside the output directory.

A path is the string before the terminating NUL, as everywhere in `TorrentFile`.
-/

namespace StoragePaths

open TorrentFile TorrentLayout
open Storage (FileMode)

/-- `sizeof(fullpath)`, also the size of `file_handle.path`. -/
def pathSize : Nat := 512

/-- `sizeof(name)` in `build_fallback_path`. -/
def nameSize : Nat := 128

abbrev underscore : UInt8 := 95

/-- `snprintf` into a buffer of `size` bytes: the string it leaves, and whether the whole
text fits. -/
def snprintf (size : Nat) (text : List UInt8) : List UInt8 × Bool :=
  (text.take (size - 1), decide (text.length < size))

/-- The `%06u` conversion. -/
def decimal06 (n : Nat) : List UInt8 :=
  let digits := Nat.toDigits 10 n
  ascii (List.replicate (6 - digits.length) '0' ++ digits)

def basenameComponent (path : List UInt8) : List UInt8 := path.rtakeWhile (fun c => c ≠ slash)

/-- `isalnum` in the C locale. -/
def isalnum (c : UInt8) : Bool :=
  (48 ≤ c && c ≤ 57) || (65 ≤ c && c ≤ 90) || (97 ≤ c && c ≤ 122)

/-- The bytes `sanitize_component` keeps: letters, digits, `.`, `-` and `_`. -/
def keptByte (c : UInt8) : Bool := isalnum c || c == dot || c == 45 || c == underscore

/-- The bytes it may turn into an underscore: space, brackets and parentheses. -/
def spacingByte (c : UInt8) : Bool := c == 32 || c == 91 || c == 93 || c == 40 || c == 41

/-- The first loop; the second argument is what stands in `out` so far. -/
def sanitizeScan (size : Nat) : List UInt8 → List UInt8 → List UInt8
  | [], out => out
  | c :: rest, out =>
    if out.length + 1 < size then
      if keptByte c then sanitizeScan size rest (out ++ [c])
      else if spacingByte c = true ∧ out ≠ [] ∧ out.getLast? ≠ some underscore then
        sanitizeScan size rest (out ++ [underscore])
      else sanitizeScan size rest out
    else out

def sanitizeComponent (input : List UInt8) (size : Nat) : List UInt8 :=
  if size = 0 then []
  else
    let out := (sanitizeScan size input []).rdropWhile (fun c => c == underscore || c == dot)
    if out = [] then (snprintf size (ascii ['f', 'i', 'l', 'e'])).1 else out

def originalText (mi : Metainfo) (outdir : List UInt8) (mf : MiFile) : List UInt8 :=
  if mi.isMulti then outdir ++ slash :: (mi.name ++ slash :: mf.path)
  else outdir ++ slash :: mf.path

def buildOriginalPath (size : Nat) (mi : Metainfo) (outdir : List UInt8) (mf : MiFile) :
    List UInt8 × Bool :=
  snprintf size (originalText mi outdir mf)

def fallbackName (index : Nat) (mf : MiFile) : List UInt8 :=
  decimal06 index ++ underscore :: sanitizeComponent (basenameComponent mf.path) nameSize

def buildFallbackPath (size : Nat) (outdir : List UInt8) (index : Nat) (mf : MiFile) :
    List UInt8 × Bool :=
  snprintf size
    (outdir ++ slash :: (ascii ['_', 'f', 'i', 'l', 'e', 's'] ++ slash :: fallbackName index mf))

inductive OpenMode where
  | update
  | create
  deriving DecidableEq, Repr

/-- The calls into the operating system that take a path: `mkdirs` on a directory and
`fopen` with `"r+b"` or `"w+b"`. -/
inductive Call where
  | mkdirs (dir : List UInt8)
  | fopen (path : List UInt8) (mode : OpenMode)
  deriving DecidableEq, Repr

/-- What `errno` may hold after a failed `fopen`. -/
inductive Errno where
  | enametoolong
  | other
  deriving DecidableEq, Repr

/-- The answer to the `fopen` that stands first in the history; `none` when it succeeds. -/
abbrev FileSystem := List Call → Option Errno

def openDiskFile (fs : FileSystem) (path : List UInt8) (log : List Call) :
    Option Errno × List Call :=
  let log := .fopen path .update :: log
  match fs log with
  | none => (none, log)
  | some _ =>
    let log := .fopen path .create :: log
    (fs log, log)

/-- The directory above a path is made before the path is opened. -/
def makeParent (path : List UInt8) (log : List Call) : List Call :=
  if slash ∈ path then .mkdirs (path.rdropWhile (fun c => c ≠ slash)).dropLast :: log else log

/-- The fields of `struct file_handle` that `storage_open_ex` sets. -/
structure OpenHandle where
  path : List UInt8
  offset : Int
  length : Int
  mode : FileMode
  isOpen : Bool
  deriving DecidableEq, Repr

/-- The body of the loop over the files; without a handle the whole call gives up. -/
def openFile (fs : FileSystem) (mi : Metainfo) (outdir : List UInt8) (index : Nat)
    (mf : MiFile) (mode : FileMode) (log : List Call) : Option OpenHandle × List Call :=
  let handle (path : List UInt8) : OpenHandle := ⟨path, mf.offset, mf.length, mode, true⟩
  if mode ≠ .disk then (some ⟨[], mf.offset, mf.length, mode, false⟩, log)
  else
    let original := buildOriginalPath pathSize mi outdir mf
    let fallback := buildFallbackPath pathSize outdir index mf
    let usingFallback := !original.2
    if usingFallback && !fallback.2 then (none, log)
    else
      let path := if usingFallback then fallback.1 else original.1
      match openDiskFile fs path (makeParent path log) with
      | (none, log) => (some (handle path), log)
      | (some errno, log) =>
        if usingFallback = false ∧ errno = .enametoolong ∧ fallback.2 = true then
          match openDiskFile fs fallback.1 (makeParent fallback.1 log) with
          | (none, log) => (some (handle fallback.1), log)
          | (some _, log) => (none, log)
        else (none, log)

def openFiles (fs : FileSystem) (mi : Metainfo) (outdir : List UInt8) (modeOf : Nat → FileMode) :
    Nat → List MiFile → List OpenHandle → List Call → Option (List OpenHandle) × List Call
  | _, [], handles, log => (some handles, log)
  | index, mf :: rest, handles, log =>
    match openFile fs mi outdir index mf (modeOf index) log with
    | (none, log) => (none, log)
    | (some fh, log) => openFiles fs mi outdir modeOf (index + 1) rest (handles ++ [fh]) log

/-- `storage_open_ex`: the handles, `none` for `NULL`, and the calls made, newest first.
`allocated` says whether both `calloc` calls succeed; without `configs` every file is on
disk. -/
def storageOpenEx (fs : FileSystem) (allocated : Bool) (mi : Metainfo) (outdir : List UInt8)
    (configs : Option (Nat → FileMode)) : Option (List OpenHandle) × List Call :=
  if allocated then openFiles fs mi outdir (configs.getD (fun _ => .disk)) 0 mi.fileTable [] []
  else (none, [])

/-- A text that may be appended to a directory: it stays a string when it is read back,
has no backslash and no component that leaves a directory. -/
structure Clean (rel : List UInt8) : Prop where
  noNul : 0 ∉ rel
  noBackslash : backslash ∉ rel
  noParent : [dot, dot] ∉ LexicalPath.components slash rel

theorem Clean.nil : Clean [] := ⟨by simp, by simp, by decide⟩

theorem Clean.join {a b : List UInt8} (ha : Clean a) (hb : Clean b) : Clean (a ++ slash :: b) where
  noNul := by simp [ha.noNul, hb.noNul, slash]
  noBackslash := by simp [ha.noBackslash, hb.noBackslash, slash, backslash]
  noParent := by
    rw [LexicalPath.components_join, List.mem_append, not_or]
    exact ⟨ha.noParent, hb.noParent⟩

/-- A single component. -/
theorem Clean.single {a : List UInt8} (hnul : 0 ∉ a) (hback : backslash ∉ a) (hslash : slash ∉ a)
    (hdots : a ≠ [dot, dot]) : Clean a where
  noNul := hnul
  noBackslash := hback
  noParent := by
    rw [LexicalPath.components_single hslash, List.mem_singleton]
    exact hdots.symm

/-- The scan of `metainfo_path_is_safe` sees exactly the components of the text. -/
theorem componentsOk_components {component path : List UInt8} (hc : slash ∉ component)
    (h : componentsOk component path = true) :
    backslash ∉ path ∧
      ∀ part ∈ LexicalPath.components slash (component ++ path), componentOk part = true := by
  induction path generalizing component with
  | nil =>
    rw [List.append_nil, LexicalPath.components_single hc]
    exact ⟨List.not_mem_nil, by simpa [componentsOk] using h⟩
  | cons c rest ih =>
    rw [componentsOk] at h
    split at h
    · cases h
    · next hback =>
      split at h
      · next hslash =>
        subst hslash
        obtain ⟨hok, hrest⟩ := Bool.and_eq_true_iff.mp h
        obtain ⟨hb, hparts⟩ := ih List.not_mem_nil hrest
        rw [LexicalPath.components_join, LexicalPath.components_single hc]
        refine ⟨by simp [hb, slash, backslash], ?_⟩
        intro part hpart
        rcases List.mem_append.mp hpart with hfirst | hlater
        · rw [List.mem_singleton.mp hfirst]
          exact hok
        · exact hparts part hlater
      · next hslash =>
        have hc' : slash ∉ component ++ [c] := by
          simp [hc, Ne.symm hslash]
        obtain ⟨hb, hparts⟩ := ih hc' h
        rw [List.append_assoc, List.singleton_append] at hparts
        exact ⟨by simp [hb, Ne.symm hback], hparts⟩

theorem clean_of_safe {path : List UInt8} (hnul : 0 ∉ path) (h : metainfoPathIsSafe path = true) :
    Clean path := by
  cases path with
  | nil => cases h
  | cons c rest =>
    simp only [metainfoPathIsSafe] at h
    split at h
    · cases h
    · split at h
      · cases h
      · obtain ⟨hback, hparts⟩ := componentsOk_components List.not_mem_nil h
        refine ⟨hnul, hback, fun hdots => ?_⟩
        have := hparts _ hdots
        simp [componentOk] at this

theorem zero_notMem_cString (bytes : List UInt8) : 0 ∉ cString bytes := by
  intro h
  have := List.mem_takeWhile_imp h
  simp at this

def CleanTable (files : List MiFile) : Prop := ∀ f ∈ files, Clean f.path

theorem CleanTable.snoc {files : List MiFile} {f : MiFile} (h : CleanTable files)
    (hf : Clean f.path) : CleanTable (files ++ [f]) := by
  intro g hg
  rcases List.mem_append.mp hg with hold | hnew
  · exact h g hold
  · rw [List.mem_singleton.mp hnew]
    exact hf

theorem zero_notMem_filePath (mem : Bencode.Memory) (item : Bencode.BeNode) :
    0 ∉ filePath mem item := by
  rw [filePath]
  split
  · exact List.not_mem_nil
  · exact zero_notMem_cString _

theorem fillFiles_clean {mem : Bencode.Memory} (items : List Bencode.BeNode)
    {files : List MiFile} {offset total : Int} {files' : List MiFile} {total' : Int}
    (hfiles : CleanTable files)
    (h : fillFiles mem items files offset total = some (files', total')) : CleanTable files' := by
  induction items generalizing files offset total with
  | nil =>
    simp only [fillFiles, Option.some.injEq, Prod.mk.injEq] at h
    rw [← h.1]
    exact hfiles
  | cons item rest ih =>
    rw [fillFiles] at h
    split at h
    · -- an item that is not a dictionary keeps the empty path, which nobody checks
      exact ih (hfiles.snoc Clean.nil) h
    · split at h
      · cases h
      · split at h
        · next hsafe =>
            exact ih (hfiles.snoc (clean_of_safe (zero_notMem_filePath mem item) hsafe)) h
        · cases h

/-- Both names `storage_open_ex` reads out of an accepted torrent. -/
theorem clean_of_parse {sha1 : List UInt8 → List UInt8} {alloc : Alloc} {data : List UInt8}
    {mi : Metainfo} (h : metainfoParse sha1 alloc data = .ok mi) :
    Clean mi.name ∧ CleanTable mi.fileTable := by
  obtain ⟨info, -, acc⟩ := metainfoParse_accepted h
  have hname : Clean mi.name := by
    obtain ⟨hsafe, src, hsrc⟩ := acc.name
    refine clean_of_safe ?_ hsafe
    rw [hsrc]
    exact zero_notMem_cString _
  refine ⟨hname, ?_⟩
  cases hnode : filesNode (memoryOf data) info with
  | none =>
    rw [(fileTable_single acc hnode).2.2.2]
    intro f hf
    rw [List.mem_singleton.mp hf]
    exact hname
  | some node =>
    have hread := acc.files
    simp only [FilesRead, hnode] at hread
    obtain ⟨-, files, total, hfill, hlive, -⟩ := hread
    have hfiles : CleanTable files := fillFiles_clean _ (by simp [CleanTable]) hfill
    intro f hf
    simp only [Metainfo.fileTable, hlive, HeapPtr.contents, List.mem_append] at hf
    rcases hf with hfilled | hblank
    · exact hfiles f hfilled
    · rw [List.eq_of_mem_replicate hblank]
      exact Clean.nil

theorem sanitizeScan_kept {size : Nat} (input : List UInt8) {out : List UInt8}
    (hout : ∀ c ∈ out, keptByte c = true) :
    ∀ c ∈ sanitizeScan size input out, keptByte c = true := by
  have hsnoc : ∀ {out : List UInt8} {b : UInt8}, (∀ c ∈ out, keptByte c = true) →
      keptByte b = true → ∀ c ∈ out ++ [b], keptByte c = true := by
    intro out b hout hb c hc
    rcases List.mem_append.mp hc with hold | hnew
    · exact hout c hold
    · rw [List.mem_singleton.mp hnew]
      exact hb
  induction input generalizing out with
  | nil => exact hout
  | cons b rest ih =>
    rw [sanitizeScan]
    split
    · split
      · next hb => exact ih (hsnoc hout hb)
      · split
        · exact ih (hsnoc hout (by decide))
        · exact ih hout
    · exact hout

theorem sanitizeComponent_kept {input : List UInt8} {size : Nat} :
    ∀ c ∈ sanitizeComponent input size, keptByte c = true := by
  intro c hc
  simp only [sanitizeComponent] at hc
  split at hc
  · cases hc
  · split at hc
    · have hfile : (ascii ['f', 'i', 'l', 'e']).all keptByte = true := by decide
      exact List.all_eq_true.mp hfile c (List.mem_of_mem_take hc)
    · exact sanitizeScan_kept input (by simp) c ((List.rdropWhile_prefix _ _).subset hc)

theorem keptByte_of_isDigit {c : Char} (h : c.isDigit = true) :
    keptByte (UInt8.ofNat c.toNat) = true := by
  obtain ⟨hlo, hhi⟩ : 48 ≤ c.toNat ∧ c.toNat ≤ 57 := by
    simpa [Char.isDigit, UInt32.le_iff_toNat_le] using h
  have hbyte : ∀ n ≤ 57, 48 ≤ n → keptByte (UInt8.ofNat n) = true := by decide
  exact hbyte _ hhi hlo

theorem decimal06_kept {n : Nat} : ∀ c ∈ decimal06 n, keptByte c = true := by
  intro c hc
  obtain ⟨digit, hdigit, rfl⟩ := List.mem_map.mp hc
  apply keptByte_of_isDigit
  rcases List.mem_append.mp hdigit with hpad | hnum
  · rw [List.eq_of_mem_replicate hpad]
    decide
  · exact Nat.isDigit_of_mem_toDigits (by decide) (by decide) hnum

theorem fallbackName_kept {index : Nat} {mf : MiFile} :
    ∀ c ∈ fallbackName index mf, keptByte c = true := by
  intro c hc
  rw [fallbackName, List.mem_append, List.mem_cons] at hc
  rcases hc with hdigits | rfl | hname
  · exact decimal06_kept c hdigits
  · decide
  · exact sanitizeComponent_kept c hname

theorem clean_of_kept {name : List UInt8} (h : ∀ c ∈ name, keptByte c = true)
    (hdots : name ≠ [dot, dot]) : Clean name :=
  Clean.single (fun hc => absurd (h 0 hc) (by decide)) (fun hc => absurd (h _ hc) (by decide))
    (fun hc => absurd (h _ hc) (by decide)) hdots

theorem clean_fallbackName (index : Nat) (mf : MiFile) : Clean (fallbackName index mf) := by
  refine clean_of_kept fallbackName_kept fun hdots => ?_
  have hmem : underscore ∈ fallbackName index mf := by simp [fallbackName]
  rw [hdots] at hmem
  revert hmem
  decide

/-- The path is the directory, a slash and a relative part without backslashes and
without `..`; read component by component it ends below the directory. -/
def Inside (outdir path : List UInt8) : Prop :=
  ∃ rel, path = outdir ++ slash :: rel ∧ backslash ∉ rel ∧
    [dot, dot] ∉ LexicalPath.components slash rel ∧
    LexicalPath.resolve slash dot outdir <:+ LexicalPath.resolve slash dot path

theorem Clean.inside {rel : List UInt8} (h : Clean rel) (outdir : List UInt8) :
    Inside outdir (outdir ++ slash :: rel) :=
  ⟨rel, rfl, h.noBackslash, h.noParent, LexicalPath.resolve_suffix outdir h.noParent⟩

/-- A text that fits is stored as it is. -/
theorem snprintf_fits {size : Nat} {text : List UInt8} (h : (snprintf size text).2 = true) :
    (snprintf size text).1 = text := by
  simp only [snprintf, decide_eq_true_eq] at h ⊢
  exact List.take_of_length_le (by omega)

theorem buildOriginalPath_inside {size : Nat} {mi : Metainfo} {outdir : List UInt8} {mf : MiFile}
    (hname : Clean mi.name) (hpath : Clean mf.path)
    (h : (buildOriginalPath size mi outdir mf).2 = true) :
    Inside outdir (buildOriginalPath size mi outdir mf).1 := by
  rw [buildOriginalPath] at h ⊢
  rw [snprintf_fits h, originalText]
  split
  · exact (hname.join hpath).inside outdir
  · exact hpath.inside outdir

theorem buildFallbackPath_inside {size : Nat} {outdir : List UInt8} {index : Nat} {mf : MiFile}
    (h : (buildFallbackPath size outdir index mf).2 = true) :
    Inside outdir (buildFallbackPath size outdir index mf).1 := by
  have hdir : Clean (ascii ['_', 'f', 'i', 'l', 'e', 's']) :=
    clean_of_kept (List.all_eq_true.mp (by decide)) (by decide)
  rw [buildFallbackPath] at h ⊢
  rw [snprintf_fits h]
  exact (hdir.join (clean_fallbackName index mf)).inside outdir

def OpensInside (outdir : List UInt8) (log : List Call) : Prop :=
  ∀ path mode, Call.fopen path mode ∈ log → Inside outdir path

theorem OpensInside.makeParent {outdir : List UInt8} {log : List Call} (h : OpensInside outdir log)
    (path : List UInt8) : OpensInside outdir (makeParent path log) := by
  intro other mode hmem
  rw [StoragePaths.makeParent] at hmem
  split at hmem
  · exact h other mode (by simpa using hmem)
  · exact h other mode hmem

theorem OpensInside.openDiskFile {outdir : List UInt8} {log : List Call}
    (h : OpensInside outdir log) {path : List UInt8} (hpath : Inside outdir path)
    (fs : FileSystem) : OpensInside outdir (openDiskFile fs path log).2 := by
  have hcons : ∀ {log : List Call} {mode : OpenMode}, OpensInside outdir log →
      OpensInside outdir (.fopen path mode :: log) := by
    intro log mode hlog other mode' hmem
    rcases List.mem_cons.mp hmem with heq | hold
    · cases heq
      exact hpath
    · exact hlog other mode' hold
  rw [StoragePaths.openDiskFile]
  split
  · exact hcons h
  · exact hcons (hcons h)

/-- One pass of the loop: whatever it opens, first or after `ENAMETOOLONG`, is inside. -/
theorem openFile_inside {mi : Metainfo} {outdir : List UInt8} {mf : MiFile} {log : List Call}
    (hname : Clean mi.name) (hpath : Clean mf.path) (h : OpensInside outdir log)
    (fs : FileSystem) (index : Nat) (mode : FileMode) :
    OpensInside outdir (openFile fs mi outdir index mf mode log).2 ∧
      ∀ fh, (openFile fs mi outdir index mf mode log).1 = some fh → fh.isOpen = true →
        Inside outdir fh.path := by
  simp only [openFile]
  split
  · refine ⟨h, fun fh hfh hopen => ?_⟩
    cases hfh
    cases hopen
  · generalize horig : buildOriginalPath pathSize mi outdir mf = original
    generalize hfall : buildFallbackPath pathSize outdir index mf = fallback
    have horigin : original.2 = true → Inside outdir original.1 := by
      rw [← horig]
      exact buildOriginalPath_inside hname hpath
    have hfallin : fallback.2 = true → Inside outdir fallback.1 := by
      rw [← hfall]
      exact buildFallbackPath_inside
    split
    · exact ⟨h, fun fh hfh => by cases hfh⟩
    · next hgo =>
      -- the path chosen first is one that fits
      generalize hfirst : (if (!original.2) = true then fallback.1 else original.1) = path
      have hin : Inside outdir path := by
        subst hfirst
        cases hfits : original.2 with
        | true => simpa [hfits] using horigin hfits
        | false =>
          have : fallback.2 = true := by simpa [hfits] using hgo
          simpa using hfallin this
      have hlog := (h.makeParent path).openDiskFile hin fs
      split
      · next log' heq =>
        rw [heq] at hlog
        refine ⟨hlog, fun fh hfh _ => ?_⟩
        cases hfh
        exact hin
      · next errno log' heq =>
        rw [heq] at hlog
        split
        · next hretry =>
          have hin' := hfallin hretry.2.2
          have hlog' := (hlog.makeParent fallback.1).openDiskFile hin' fs
          split
          · next log'' heq' =>
            rw [heq'] at hlog'
            refine ⟨hlog', fun fh hfh _ => ?_⟩
            cases hfh
            exact hin'
          · next heq' =>
            rw [heq'] at hlog'
            exact ⟨hlog', fun fh hfh => by cases hfh⟩
        · exact ⟨hlog, fun fh hfh => by cases hfh⟩

/-- The whole loop, by induction on the files that are left. -/
theorem openFiles_inside {mi : Metainfo} {outdir : List UInt8} (hname : Clean mi.name)
    (fs : FileSystem) (modeOf : Nat → FileMode) (files : List MiFile) (index : Nat)
    (handles : List OpenHandle) (log : List Call) (hfiles : CleanTable files)
    (hlog : OpensInside outdir log)
    (hhandles : ∀ fh ∈ handles, fh.isOpen = true → Inside outdir fh.path) :
    OpensInside outdir (openFiles fs mi outdir modeOf index files handles log).2 ∧
      ∀ opened, (openFiles fs mi outdir modeOf index files handles log).1 = some opened →
        ∀ fh ∈ opened, fh.isOpen = true → Inside outdir fh.path := by
  induction files generalizing index handles log with
  | nil =>
    refine ⟨hlog, fun opened heq => ?_⟩
    cases heq
    exact hhandles
  | cons mf rest ih =>
    obtain ⟨hmf, hrest⟩ := List.forall_mem_cons.mp hfiles
    obtain ⟨hstep, hnew⟩ := openFile_inside hname hmf hlog fs index (modeOf index)
    rw [openFiles]
    split
    · next heq =>
      rw [heq] at hstep
      exact ⟨hstep, fun opened hopened => by cases hopened⟩
    · next fh log' heq =>
      rw [heq] at hstep hnew
      refine ih _ _ _ hrest hstep fun g hg => ?_
      rcases List.mem_append.mp hg with hold | hlast
      · exact hhandles g hold
      · rw [List.mem_singleton.mp hlast]
        exact hnew fh rfl

/-- No accepted torrent opens a path outside the output directory, whatever the file
system answers: neither a path that is only tried nor one that a handle keeps. -/
theorem opens_inside {sha1 : List UInt8 → List UInt8} {alloc : Alloc} {data : List UInt8}
    {mi : Metainfo} (h : metainfoParse sha1 alloc data = .ok mi) (outdir : List UInt8)
    (configs : Option (Nat → FileMode)) (allocated : Bool) (fs : FileSystem) :
    (∀ path mode, Call.fopen path mode ∈ (storageOpenEx fs allocated mi outdir configs).2 →
      Inside outdir path) ∧
    ∀ handles, (storageOpenEx fs allocated mi outdir configs).1 = some handles →
      ∀ fh ∈ handles, fh.isOpen = true → Inside outdir fh.path := by
  obtain ⟨hname, htable⟩ := clean_of_parse h
  have hempty : OpensInside outdir [] := fun _ _ hmem => by cases hmem
  rw [storageOpenEx]
  split
  · exact openFiles_inside hname fs _ mi.fileTable 0 [] [] htable hempty (by simp)
  · exact ⟨hempty, fun handles hnone => by cases hnone⟩

/-- A file system that refuses every name as too long: the first file of
`twoFileTorrent` is tried under its own name `out/a/b` and under `out/_files/000000_b`. -/
theorem twoFile_opens_inside :
    let out := ascii ['o', 'u', 't']
    let own := ascii ['o', 'u', 't', '/', 'a', '/', 'b']
    let remapped := ascii ['o', 'u', 't', '/', '_', 'f', 'i', 'l', 'e', 's', '/',
      '0', '0', '0', '0', '0', '0', '_', 'b']
    ∃ mi, metainfoParse (fun _ => twoFileDigest) ⟨true, true⟩ twoFileTorrent = .ok mi ∧
      (storageOpenEx (fun _ => some .enametoolong) true mi out none).2 =
        [.fopen remapped .create, .fopen remapped .update, .mkdirs (remapped.take 10),
          .fopen own .create, .fopen own .update, .mkdirs (own.take 5)] ∧
      Inside out own ∧ Inside out remapped := by
  intro out own remapped
  obtain ⟨mi, hparse, hlog⟩ := ok_of_map
    (x := metainfoParse (fun _ => twoFileDigest) ⟨true, true⟩ twoFileTorrent)
    (f := fun mi => (storageOpenEx (fun _ => some .enametoolong) true mi out none).2)
    (b := [.fopen remapped .create, .fopen remapped .update, .mkdirs (remapped.take 10),
      .fopen own .create, .fopen own .update, .mkdirs (own.take 5)]) (by decide +kernel)
  have hinside := (opens_inside hparse out none true (fun _ => some .enametoolong)).1
  refine ⟨mi, hparse, hlog, hinside own .create ?_, hinside remapped .create ?_⟩
  · rw [hlog]
    simp
  · rw [hlog]
    simp

end StoragePaths
