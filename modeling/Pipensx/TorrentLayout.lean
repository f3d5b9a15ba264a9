import Mathlib.Algebra.BigOperators.Group.List.Basic
import Mathlib.Data.List.TakeWhile
import Mathlib.Tactic.Linarith
import Mathlib.Tactic.Ring
import Pipensx.BencodeGrammar
import Pipensx.PieceGeometry
import Pipensx.PrefixLayout
import Pipensx.TorrentFile

/-!
# What an accepted torrent looks like

One inversion lemma says everything an accepting run of `metainfo_parse` has checked;
the piece count and the file table are read off it. The two conditions below are about
the bencoded input, not about the parsed struct: the piece count is exact when the
declared bytes need fewer than 2^32 pieces, and the file table is a tiling when every
item of the `files` list is a dictionary.
-/

namespace TorrentLayout

open Bencode TorrentFile PieceGeometry

def infoOf (data : List UInt8) : Option BeNode :=
  (decodeRoot (memoryOf data) data.length).bind (findInfo (memoryOf data))

/-- The integer under `length`, zero without one. -/
def declaredLength (mem : Memory) (node : BeNode) : Int :=
  match dictGetTyped mem node (ascii ['l', 'e', 'n', 'g', 't', 'h']) .int with
  | none => 0
  | some v => v.ival

/-- The items of the `files` list, as many of them as a `uint32_t` can count. -/
def declaredFiles (data : List UInt8) : List BeNode :=
  match (infoOf data).bind (filesNode (memoryOf data)) with
  | none => []
  | some node => (listItems (memoryOf data) node).take (fileCount (memoryOf data) node)

def declaredTotal (data : List UInt8) : Int :=
  match infoOf data with
  | none => 0
  | some info =>
    match filesNode (memoryOf data) info with
    | none => declaredLength (memoryOf data) info
    | some _ => ((declaredFiles data).map (fun item =>
        if item.type = .dict then declaredLength (memoryOf data) item else 0)).sum

def declaredPieceLength (data : List UInt8) : Int :=
  match (infoOf data).bind (fun info =>
      dictGetTyped (memoryOf data) info pieceLengthKey .int) with
  | none => 0
  | some v => v.ival

theorem bind_ok {ε α β : Type} {x : Except ε α} {f : α → Except ε β} {b : β}
    (h : (x >>= f) = .ok b) : ∃ a, x = .ok a ∧ f a = .ok b := by
  cases x with
  | error e => cases h
  | ok a => exact ⟨a, rfl, h⟩

theorem ok_of_map {ε α β : Type} {x : Except ε α} {f : α → β} {b : β}
    (h : x.toOption.map f = some b) : ∃ a, x = .ok a ∧ f a = b := by
  cases x with
  | error e => cases h
  | ok a => exact ⟨a, rfl, Option.some.inj h⟩

/-- The two branches of the file part, with the struct they leave. -/
def FilesRead (mem : Memory) (info : BeNode) (mi : Metainfo) : Prop :=
  match filesNode mem info with
  | none => mi.numFiles = 1 ∧ ∃ length, fileLength mem info = some length ∧
      mi.files = .live [⟨strncpySafe maxNameLen mi.name, length, 0⟩] ∧ mi.totalLength = length
  | some node => mi.numFiles = fileCount mem node ∧ ∃ files total,
      fillFiles mem ((listItems mem node).take (fileCount mem node)) [] 0 0 =
        some (files, total) ∧
      mi.files = .live (files ++ List.replicate (fileCount mem node - files.length) MiFile.zero) ∧
      mi.totalLength = total

structure Accepted (mem : Memory) (info : BeNode) (mi : Metainfo) : Prop where
  name : metainfoPathIsSafe mi.name = true ∧ ∃ src, mi.name = strncpySafe maxNameLen src
  pieceLength : ∃ v, dictGetTyped mem info pieceLengthKey .int = some v ∧
    0 < v.ival ∧ v.ival ≤ maxPieceLength ∧ mi.pieceLength = v.ival
  pieces : ∃ v, dictGetTyped mem info (ascii ['p', 'i', 'e', 'c', 'e', 's']) .str = some v ∧
    v.slen % 20 = 0 ∧ mi.numPieces = v.slen / 20 % 2 ^ 32 ∧
    mi.pieceHashes = .live (strBytes mem v)
  files : FilesRead mem info mi
  count : (mi.numPieces : Int) =
    ((mi.totalLength + mi.pieceLength - 1).tdiv mi.pieceLength) % 2 ^ 32

theorem readName_ok {mem : Memory} {info : BeNode} {mi mi' : Metainfo}
    (h : readName mem info mi = .ok mi') :
    metainfoPathIsSafe mi'.name = true ∧ (∃ src, mi'.name = strncpySafe maxNameLen src) ∧
      mi' = { mi with name := mi'.name } := by
  simp only [readName] at h
  split at h
  · next hsafe =>
    cases h
    exact ⟨hsafe, ⟨nameSource mem info, rfl⟩, rfl⟩
  · cases h

theorem readPieceLength_ok {mem : Memory} {info : BeNode} {mi mi' : Metainfo}
    (h : readPieceLength mem info mi = .ok mi') :
    ∃ v, dictGetTyped mem info pieceLengthKey .int = some v ∧
      0 < v.ival ∧ v.ival ≤ maxPieceLength ∧ mi' = { mi with pieceLength := v.ival } := by
  rw [readPieceLength] at h
  cases hv : dictGetTyped mem info pieceLengthKey .int with
  | none => simp [hv] at h
  | some v =>
    simp only [hv] at h
    split at h
    · cases h
    · next hb =>
      cases h
      exact ⟨v, rfl, by omega, by omega, rfl⟩

theorem readPieces_ok {alloc : Alloc} {mem : Memory} {info : BeNode} {mi mi' : Metainfo}
    (h : readPieces alloc mem info mi = .ok mi') :
    ∃ v, dictGetTyped mem info (ascii ['p', 'i', 'e', 'c', 'e', 's']) .str = some v ∧
      v.slen % 20 = 0 ∧ mi' = { mi with numPieces := v.slen / 20 % 2 ^ 32,
                                        pieceHashes := .live (strBytes mem v) } := by
  rw [readPieces] at h
  cases hv : dictGetTyped mem info (ascii ['p', 'i', 'e', 'c', 'e', 's']) .str with
  | none => simp [hv] at h
  | some v =>
    simp only [hv] at h
    split at h
    · cases h
    · next hmod =>
      split at h
      · cases h
        exact ⟨v, rfl, by omega, rfl⟩
      · cases h

/-- The file part only touches the four fields of the file table. -/
theorem readFiles_ok {alloc : Alloc} {mem : Memory} {info : BeNode} {mi mi' : Metainfo}
    (h : readFiles alloc mem info mi = .ok mi') :
    FilesRead mem info mi' ∧
      mi' = { mi with isMulti := mi'.isMulti, numFiles := mi'.numFiles, files := mi'.files,
                      totalLength := mi'.totalLength } := by
  rw [readFiles] at h
  cases hn : filesNode mem info with
  | none =>
    simp only [hn, readFilesSingle] at h
    split at h
    · cases h
    · cases hl : fileLength mem info with
      | none => simp [hl] at h
      | some length =>
        simp only [hl, Except.ok.injEq] at h
        subst h
        simp [FilesRead, hn, hl]
  | some node =>
    simp only [hn, readFilesMulti] at h
    split at h
    · cases h
    · split at h
      · cases h
      · cases hf : fillFiles mem ((listItems mem node).take (fileCount mem node)) [] 0 0 with
        | none => simp [hf] at h
        | some r =>
          obtain ⟨files, total⟩ := r
          simp only [hf, Except.ok.injEq] at h
          subst h
          simp [FilesRead, hn, hf]

theorem checkPieceCount_ok {mi mi' : Metainfo} (h : checkPieceCount mi = .ok mi') :
    mi' = mi ∧ (mi.numPieces : Int) =
      ((mi.totalLength + mi.pieceLength - 1).tdiv mi.pieceLength) % 2 ^ 32 := by
  rw [checkPieceCount] at h
  split at h
  · cases h
  · next hc =>
    cases h
    exact ⟨rfl, not_not.mp hc⟩

/-- An accepted torrent has gone through every part of the parser. -/
theorem metainfoParse_ok {sha1 : List UInt8 → List UInt8} {alloc : Alloc} {data : List UInt8}
    {mi : Metainfo} (h : metainfoParse sha1 alloc data = .ok mi) :
    ∃ root info m1 m2 m3 m4 m5, decodeRoot (memoryOf data) data.length = some root ∧
      findInfo (memoryOf data) root = some info ∧
      readName (memoryOf data) info
        { Metainfo.zero with infoHash := sha1 (slice (memoryOf data) info.buf info.rawLen) } =
          .ok m1 ∧
      readPieceLength (memoryOf data) info m1 = .ok m2 ∧
      readPieces alloc (memoryOf data) info m2 = .ok m3 ∧
      readFiles alloc (memoryOf data) info m3 = .ok m4 ∧ checkPieceCount m4 = .ok m5 ∧
      mi = readUrls (memoryOf data) root m5 := by
  simp only [metainfoParse] at h
  cases hroot : decodeRoot (memoryOf data) data.length with
  | none => simp [hroot] at h
  | some root =>
    simp only [hroot] at h
    cases hinfo : findInfo (memoryOf data) root with
    | none => simp [hinfo] at h
    | some info =>
      simp only [hinfo] at h
      obtain ⟨m1, h1, h⟩ := bind_ok h
      obtain ⟨m2, h2, h⟩ := bind_ok h
      obtain ⟨m3, h3, h⟩ := bind_ok h
      obtain ⟨m4, h4, h⟩ := bind_ok h
      obtain ⟨m5, h5, h⟩ := bind_ok h
      exact ⟨root, info, m1, m2, m3, m4, m5, rfl, hinfo, h1, h2, h3, h4, h5, (Except.ok.inj h).symm⟩

theorem metainfoParse_accepted {sha1 : List UInt8 → List UInt8} {alloc : Alloc}
    {data : List UInt8} {mi : Metainfo} (h : metainfoParse sha1 alloc data = .ok mi) :
    ∃ info, infoOf data = some info ∧ Accepted (memoryOf data) info mi := by
  obtain ⟨root, info, m1, m2, m3, m4, m5, hroot, hinfo, h1, h2, h3, h4, h5, rfl⟩ :=
    metainfoParse_ok h
  refine ⟨info, by simp [infoOf, hroot, hinfo], ?_⟩
  obtain ⟨hsafe, hsrc, e1⟩ := readName_ok h1
  obtain ⟨v2, hv2, hpos, hle, e2⟩ := readPieceLength_ok h2
  obtain ⟨v3, hv3, hmod, e3⟩ := readPieces_ok h3
  obtain ⟨hfiles, e4⟩ := readFiles_ok h4
  obtain ⟨e5, hcount⟩ := checkPieceCount_ok h5
  subst e5
  refine ⟨?_, ⟨v2, hv2, hpos, hle, ?_⟩, ⟨v3, hv3, hmod, ?_, ?_⟩, ?_, hcount⟩
  · have hname : (readUrls (memoryOf data) root m5).name = m1.name := by
      change m5.name = m1.name
      rw [e4, e3, e2]
    exact ⟨hname ▸ hsafe, hname ▸ hsrc⟩
  · change m5.pieceLength = v2.ival
    rw [e4, e3, e2]
  · change m5.numPieces = v3.slen / 20 % 2 ^ 32
    rw [e4, e3]
  · change m5.pieceHashes = .live (strBytes (memoryOf data) v3)
    rw [e4, e3]
  · exact hfiles

/-- The length an item contributes. -/
def itemLength (mem : Memory) (item : BeNode) : Int :=
  if item.type = .dict then declaredLength mem item else 0

theorem fileLength_eq_some {mem : Memory} {node : BeNode} {length : Int}
    (h : fileLength mem node = some length) : length = declaredLength mem node ∧ 0 ≤ length := by
  rw [fileLength] at h
  rw [declaredLength]
  cases hv : dictGetTyped mem node (ascii ['l', 'e', 'n', 'g', 't', 'h']) .int with
  | none =>
    simp only [hv, Option.some.injEq] at h
    exact ⟨h.symm, by omega⟩
  | some v =>
    simp only [hv] at h
    split at h
    · cases h
    · next hb => exact ⟨(Option.some.inj h).symm, by have := Option.some.inj h; omega⟩

/-- What one pass over the items leaves: a dictionary gives a checked entry at the
running offset, anything else the zeroed one. -/
def EntryOf (offset : Int) (before : List MiFile) (item : BeNode) (f : MiFile) : Prop :=
  if item.type = .dict then
    metainfoPathIsSafe f.path = true ∧ f.offset = offset + (before.map MiFile.length).sum
  else f = MiFile.zero

theorem fillFiles_spec {mem : Memory} (items : List BeNode) (files : List MiFile)
    (offset total : Int) {files' : List MiFile} {total' : Int}
    (h : fillFiles mem items files offset total = some (files', total')) :
    ∃ new, files' = files ++ new ∧ new.map MiFile.length = items.map (itemLength mem) ∧
      total' = total + (new.map MiFile.length).sum ∧ (∀ f ∈ new, 0 ≤ f.length) ∧
      ∀ k item f, items[k]? = some item → new[k]? = some f →
        EntryOf offset (new.take k) item f := by
  induction items generalizing files offset total with
  | nil =>
    simp only [fillFiles, Option.some.injEq, Prod.mk.injEq] at h
    exact ⟨[], by simp [h.1], by simp, by simp [h.2], by simp, by simp⟩
  | cons item rest ih =>
    rw [fillFiles] at h
    by_cases ht : item.type = .dict
    · rw [if_neg (not_not.mpr ht)] at h
      cases hl : fileLength mem item with
      | none => simp [hl] at h
      | some length =>
        simp only [hl] at h
        split at h
        · next hsafe =>
          obtain ⟨new, e, hlen, htot, hnn, hent⟩ := ih _ _ _ h
          obtain ⟨hdecl, hpos⟩ := fileLength_eq_some hl
          refine ⟨⟨filePath mem item, length, offset⟩ :: new, by simp [e], ?_, ?_, ?_, ?_⟩
          · simp [hlen, itemLength, ht, hdecl]
          · rw [htot, List.map_cons, List.sum_cons]
            ring
          · exact List.forall_mem_cons.mpr ⟨hpos, hnn⟩
          · intro k it f hit hf
            cases k with
            | zero =>
              simp only [List.getElem?_cons_zero, Option.some.injEq] at hit hf
              subst hit hf
              simp [EntryOf, ht, hsafe]
            | succ k =>
              have := hent k it f (by simpa using hit) (by simpa using hf)
              simp only [EntryOf, List.take_succ_cons, List.map_cons, List.sum_cons] at this ⊢
              split
              · next htype =>
                rw [if_pos htype] at this
                exact ⟨this.1, by rw [this.2]; ring⟩
              · next htype => rwa [if_neg htype] at this
        · cases h
    · rw [if_pos ht] at h
      obtain ⟨new, e, hlen, htot, hnn, hent⟩ := ih _ _ _ h
      refine ⟨MiFile.zero :: new, by simp [e], ?_, ?_, ?_, ?_⟩
      · simp [hlen, itemLength, ht, MiFile.zero]
      · simp [htot, MiFile.zero]
      · exact List.forall_mem_cons.mpr ⟨le_refl _, hnn⟩
      · intro k it f hit hf
        cases k with
        | zero =>
          simp only [List.getElem?_cons_zero, Option.some.injEq] at hit hf
          subst hit hf
          simp [EntryOf, ht]
        | succ k =>
          have := hent k it f (by simpa using hit) (by simpa using hf)
          simpa [EntryOf, MiFile.zero] using this

/-- Every entry has a safe path and starts where the one before it ends, so that the
files cover the data without gap or overlap. -/
structure FileLayout (mi : Metainfo) : Prop where
  count : mi.fileTable.length = mi.numFiles
  safe : ∀ (i : Nat) (f : MiFile), mi.fileTable[i]? = some f → metainfoPathIsSafe f.path = true
  nonneg : ∀ (i : Nat) (f : MiFile), mi.fileTable[i]? = some f → 0 ≤ f.length
  offset : ∀ (i : Nat) (f : MiFile), mi.fileTable[i]? = some f →
    f.offset = ((mi.fileTable.take i).map MiFile.length).sum
  total : (mi.fileTable.map MiFile.length).sum = mi.totalLength
  sorted : ∀ (i j : Nat) (f g : MiFile), i ≤ j → mi.fileTable[i]? = some f →
    mi.fileTable[j]? = some g → f.offset ≤ g.offset
  tile : ∀ x, 0 ≤ x → x < mi.totalLength →
    ∃! i : Nat, ∃ f : MiFile, mi.fileTable[i]? = some f ∧ f.offset ≤ x ∧ x < f.offset + f.length

/-- The ordering and the tiling follow from the offsets being prefix sums. -/
theorem FileLayout.of_offsets {mi : Metainfo} (count : mi.fileTable.length = mi.numFiles)
    (safe : ∀ (i : Nat) (f : MiFile), mi.fileTable[i]? = some f → metainfoPathIsSafe f.path = true)
    (nonneg : ∀ (i : Nat) (f : MiFile), mi.fileTable[i]? = some f → 0 ≤ f.length)
    (offset : ∀ (i : Nat) (f : MiFile), mi.fileTable[i]? = some f →
      f.offset = ((mi.fileTable.take i).map MiFile.length).sum)
    (total : (mi.fileTable.map MiFile.length).sum = mi.totalLength) : FileLayout mi := by
  have hnn : ∀ l ∈ mi.fileTable.map MiFile.length, 0 ≤ l := by
    intro l hl
    obtain ⟨f, hf, rfl⟩ := List.mem_map.mp hl
    obtain ⟨i, hi⟩ := List.mem_iff_getElem?.mp hf
    exact nonneg i f hi
  have hstart : ∀ (i : Nat) (f : MiFile), mi.fileTable[i]? = some f →
      f.offset = PrefixLayout.start (mi.fileTable.map MiFile.length) i ∧
      f.offset + f.length = PrefixLayout.start (mi.fileTable.map MiFile.length) (i + 1) := by
    intro i f hf
    obtain ⟨hi, he⟩ := List.getElem?_eq_some_iff.mp hf
    have ho : f.offset = PrefixLayout.start (mi.fileTable.map MiFile.length) i := by
      rw [offset i f hf, PrefixLayout.start, List.map_take]
    refine ⟨ho, ?_⟩
    rw [PrefixLayout.start_succ _ i (by simpa using hi), ← ho, List.getElem_map, he]
  refine ⟨count, safe, nonneg, offset, total, ?_, ?_⟩
  · intro i j f g hij hf hg
    rw [(hstart i f hf).1, (hstart j g hg).1]
    exact PrefixLayout.start_mono hnn hij
  · intro x hx hlt
    obtain ⟨i, hi, hlo, hhi⟩ := PrefixLayout.exists_owner hx (total ▸ hlt)
    have hi' : i < mi.fileTable.length := by simpa using hi
    have hget : mi.fileTable[i]? = some mi.fileTable[i] := List.getElem?_eq_getElem hi'
    obtain ⟨h1, h2⟩ := hstart i _ hget
    refine ⟨i, ⟨mi.fileTable[i], hget, by omega, by omega⟩, ?_⟩
    rintro j ⟨g, hg, hjlo, hjhi⟩
    obtain ⟨g1, g2⟩ := hstart j g hg
    exact PrefixLayout.owner_unique hnn (x := x) ⟨by omega, by omega⟩ ⟨hlo, hhi⟩

theorem cString_cString (bytes : List UInt8) : cString (cString bytes) = cString bytes := by
  rw [cString, cString, List.takeWhile_idem]

theorem strncpySafe_strncpySafe (size : Nat) (src : List UInt8) :
    strncpySafe size (strncpySafe size src) = strncpySafe size src := by
  have hlen : (cString (src.take (size - 1))).length ≤ size - 1 :=
    le_trans (List.takeWhile_prefix _).length_le (by simp)
  rw [strncpySafe, strncpySafe, List.take_of_length_le hlen, cString_cString]

/-- The table of an accepted torrent, entry by entry. -/
theorem fileTable_of_files {mem : Memory} {info node : BeNode} {mi : Metainfo}
    (acc : Accepted mem info mi) (hnode : filesNode mem info = some node) :
    mi.numFiles = fileCount mem node ∧ mi.fileTable.length = mi.numFiles ∧
      mi.fileTable.map MiFile.length =
        ((listItems mem node).take (fileCount mem node)).map (itemLength mem) ∧
      (mi.fileTable.map MiFile.length).sum = mi.totalLength ∧
      (∀ f ∈ mi.fileTable, 0 ≤ f.length) ∧
      ∀ k item f, ((listItems mem node).take (fileCount mem node))[k]? = some item →
        mi.fileTable[k]? = some f → EntryOf 0 (mi.fileTable.take k) item f := by
  have hread := acc.files
  simp only [FilesRead, hnode] at hread
  obtain ⟨hcount, files, total, hfill, hlive, htotal⟩ := hread
  obtain ⟨new, hnew, hlen, htot, hnn, hent⟩ := fillFiles_spec _ _ _ _ hfill
  rw [List.nil_append] at hnew
  subst hnew
  have hl : files.length = fileCount mem node := by
    have h1 := congrArg List.length hlen
    have h2 : fileCount mem node ≤ (listItems mem node).length := Nat.mod_le _ _
    simp only [List.length_map, List.length_take] at h1
    omega
  have htable : mi.fileTable = files := by
    simp [Metainfo.fileTable, HeapPtr.contents, hlive, hl]
  rw [htable]
  exact ⟨hcount, by rw [hl, hcount], hlen, by rw [htotal, htot]; ring, hnn, hent⟩

theorem fileTable_single {mem : Memory} {info : BeNode} {mi : Metainfo}
    (acc : Accepted mem info mi) (hnode : filesNode mem info = none) :
    mi.numFiles = 1 ∧ mi.totalLength = declaredLength mem info ∧ 0 ≤ mi.totalLength ∧
      mi.fileTable = [⟨mi.name, mi.totalLength, 0⟩] := by
  have hread := acc.files
  simp only [FilesRead, hnode] at hread
  obtain ⟨hcount, length, hlength, hlive, htotal⟩ := hread
  obtain ⟨hdecl, hpos⟩ := fileLength_eq_some hlength
  obtain ⟨src, hsrc⟩ := acc.name.2
  have hname : strncpySafe maxNameLen mi.name = mi.name := by
    rw [hsrc, strncpySafe_strncpySafe]
  refine ⟨hcount, htotal.trans hdecl, htotal ▸ hpos, ?_⟩
  simp [Metainfo.fileTable, HeapPtr.contents, hlive, hname, htotal]

/-- The layout holds exactly when every visited item of `files` is a dictionary: the
loop keeps a zeroed entry, whose path is not safe, for an item of another type. -/
theorem metainfoParse_layout_iff {sha1 : List UInt8 → List UInt8} {alloc : Alloc}
    {data : List UInt8} {mi : Metainfo} (h : metainfoParse sha1 alloc data = .ok mi) :
    FileLayout mi ↔ ∀ item ∈ declaredFiles data, item.type = .dict := by
  obtain ⟨info, hinfo, acc⟩ := metainfoParse_accepted h
  cases hnode : filesNode (memoryOf data) info with
  | none =>
    have hdecl : declaredFiles data = [] := by simp [declaredFiles, hinfo, hnode]
    obtain ⟨hcount, _, hpos, htable⟩ := fileTable_single acc hnode
    have honly : ∀ (i : Nat) (f : MiFile), mi.fileTable[i]? = some f → i = 0 ∧
      f = ⟨mi.name, mi.totalLength, 0⟩ := by
      intro i f hf
      rw [htable] at hf
      cases i with
      | zero => exact ⟨rfl, by simpa using hf.symm⟩
      | succ i => simp at hf
    constructor
    · intro _ item hitem
      rw [hdecl] at hitem
      cases hitem
    · intro _
      apply FileLayout.of_offsets
      · rw [htable, hcount]
        rfl
      · intro i f hf
        rw [(honly i f hf).2]
        exact acc.name.1
      · intro i f hf
        rw [(honly i f hf).2]
        exact hpos
      · intro i f hf
        rw [(honly i f hf).1, (honly i f hf).2]
        simp
      · simp [htable]
  | some node =>
    have hdecl : declaredFiles data =
        (listItems (memoryOf data) node).take (fileCount (memoryOf data) node) := by
      simp [declaredFiles, hinfo, hnode]
    obtain ⟨hcount, hlen, hlens, htotal, hnn, hent⟩ := fileTable_of_files acc hnode
    rw [← hdecl] at hlens hent
    have hsame : mi.fileTable.length = (declaredFiles data).length := by
      simpa using congrArg List.length hlens
    constructor
    · intro layout item hitem
      obtain ⟨k, hk⟩ := List.mem_iff_getElem?.mp hitem
      have hlt : k < mi.fileTable.length := hsame ▸ (List.getElem?_eq_some_iff.mp hk).1
      have hf := List.getElem?_eq_getElem hlt
      have hsafe := layout.safe k _ hf
      have hentry := hent k item _ hk hf
      by_contra htype
      rw [EntryOf, if_neg htype] at hentry
      rw [hentry] at hsafe
      cases hsafe
    · intro dicts
      have hdict : ∀ (i : Nat) (f : MiFile), mi.fileTable[i]? = some f →
          metainfoPathIsSafe f.path = true ∧
          f.offset = ((mi.fileTable.take i).map MiFile.length).sum := by
        intro i f hf
        have hlt : i < (declaredFiles data).length :=
          hsame ▸ (List.getElem?_eq_some_iff.mp hf).1
        have hitem := List.getElem?_eq_getElem hlt
        have hentry := hent i _ f hitem hf
        rw [EntryOf, if_pos (dicts _ (List.getElem_mem hlt)), zero_add] at hentry
        exact hentry
      exact FileLayout.of_offsets hlen (fun i f hf => (hdict i f hf).1)
        (fun i f hf => hnn f (List.mem_of_getElem? hf)) (fun i f hf => (hdict i f hf).2) htotal

/-- Two files of one and two bytes, in pieces of two bytes. -/
def twoFileTorrent : List UInt8 :=
  ascii ['d', '4', ':', 'i', 'n', 'f', 'o', 'd', '5', ':', 'f', 'i', 'l', 'e', 's', 'l'] ++
  ascii ['d', '6', ':', 'l', 'e', 'n', 'g', 't', 'h', 'i', '1', 'e'] ++
  ascii ['4', ':', 'p', 'a', 't', 'h', 'l', '1', ':', 'b', 'e', 'e'] ++
  ascii ['d', '6', ':', 'l', 'e', 'n', 'g', 't', 'h', 'i', '2', 'e'] ++
  ascii ['4', ':', 'p', 'a', 't', 'h', 'l', '1', ':', 'c', '1', ':', 'd', 'e', 'e', 'e'] ++
  ascii ['4', ':', 'n', 'a', 'm', 'e', '1', ':', 'a', '1', '2', ':'] ++ pieceLengthKey ++
  ascii ['i', '2', 'e', '6', ':', 'p', 'i', 'e', 'c', 'e', 's', '4', '0', ':'] ++
  List.replicate 40 0 ++ ascii ['e', 'e']

/-- The SHA-1 of the info dictionary of `twoFileTorrent`. -/
def twoFileDigest : List UInt8 :=
  [248, 19, 249, 167, 1, 105, 162, 60, 232, 5, 152, 76, 107, 162, 109, 157, 175, 223, 205, 24]

theorem twoFile_accepted : ∃ mi,
    metainfoParse (fun _ => twoFileDigest) ⟨true, true⟩ twoFileTorrent = .ok mi ∧
      mi.numPieces = 2 := by
  apply ok_of_map (f := Metainfo.numPieces)
  decide +kernel

theorem twoFile_layout : ∃ mi,
    metainfoParse (fun _ => twoFileDigest) ⟨true, true⟩ twoFileTorrent = .ok mi ∧
      FileLayout mi := by
  obtain ⟨mi, hparse, _⟩ := twoFile_accepted
  exact ⟨mi, hparse, (metainfoParse_layout_iff hparse).mpr (by decide +kernel)⟩

/-- A `files` list with an integer after its only dictionary. -/
def strayItemTorrent : List UInt8 :=
  ascii ['d', '4', ':', 'i', 'n', 'f', 'o', 'd', '5', ':', 'f', 'i', 'l', 'e', 's', 'l'] ++
  ascii ['d', '6', ':', 'l', 'e', 'n', 'g', 't', 'h', 'i', '1', 'e'] ++
  ascii ['4', ':', 'p', 'a', 't', 'h', 'l', '1', ':', 'b', 'e', 'e', 'i', '7', 'e', 'e'] ++
  ascii ['4', ':', 'n', 'a', 'm', 'e', '1', ':', 'a', '1', '2', ':'] ++ pieceLengthKey ++
  ascii ['i', '1', 'e', '6', ':', 'p', 'i', 'e', 'c', 'e', 's', '2', '0', ':'] ++
  List.replicate 20 0 ++ ascii ['e', 'e']

/-- The SHA-1 of the info dictionary of `strayItemTorrent`. -/
def strayItemDigest : List UInt8 :=
  [61, 82, 234, 203, 61, 102, 19, 7, 68, 168, 214, 154, 224, 214, 62, 42, 188, 25, 69, 214]

/-- That torrent is accepted, and its second entry has an empty path and offset zero. -/
theorem strayItem_no_layout :
    ∃ mi, metainfoParse (fun _ => strayItemDigest) ⟨true, true⟩ strayItemTorrent = .ok mi ∧
      ¬ FileLayout mi := by
  have hok : (metainfoParse (fun _ => strayItemDigest) ⟨true, true⟩ strayItemTorrent).toOption.map
      (fun mi => mi.fileTable[1]?) = some (some ⟨[], 0, 0⟩) := by decide +kernel
  obtain ⟨mi, hparse, hentry⟩ := ok_of_map hok
  refine ⟨mi, hparse, ?_⟩
  intro layout
  have hsafe := layout.safe 1 _ hentry
  cases hsafe

theorem declaredPieceLength_eq {data : List UInt8} {info : BeNode} {mi : Metainfo}
    (hinfo : infoOf data = some info) (acc : Accepted (memoryOf data) info mi) :
    declaredPieceLength data = mi.pieceLength ∧ 0 < mi.pieceLength ∧
      mi.pieceLength ≤ maxPieceLength := by
  obtain ⟨v, hv, hpos, hle, he⟩ := acc.pieceLength
  refine ⟨by simp [declaredPieceLength, hinfo, hv, he], by omega, by omega⟩

theorem declaredTotal_eq {data : List UInt8} {info : BeNode} {mi : Metainfo}
    (hinfo : infoOf data = some info) (acc : Accepted (memoryOf data) info mi) :
    declaredTotal data = mi.totalLength ∧ 0 ≤ mi.totalLength := by
  cases hnode : filesNode (memoryOf data) info with
  | none =>
    obtain ⟨_, htotal, hpos, _⟩ := fileTable_single acc hnode
    exact ⟨by simp [declaredTotal, hinfo, hnode, htotal], hpos⟩
  | some node =>
    obtain ⟨_, _, hlens, htotal, hnn, _⟩ := fileTable_of_files acc hnode
    constructor
    · rw [← htotal, hlens]
      simp only [declaredTotal, declaredFiles, hinfo, hnode, Option.bind_some]
      rfl
    · rw [← htotal]
      apply List.sum_nonneg
      intro l hl
      obtain ⟨f, hf, rfl⟩ := List.mem_map.mp hl
      exact hnn f hf

/-- The quotient before the cast is the exact one. -/
theorem quotient_bounds {t p : Int} (hp : 0 < p) (ht : 0 ≤ t) :
    ((t + p - 1).tdiv p - 1) * p < t ∧ t ≤ (t + p - 1).tdiv p * p ∧
      0 ≤ (t + p - 1).tdiv p := by
  rw [Int.tdiv_eq_ediv_of_nonneg (by omega)]
  have hmod := Int.emod_add_mul_ediv (t + p - 1) p
  have hlo := Int.emod_nonneg (t + p - 1) (by omega : p ≠ 0)
  have hhi := Int.emod_lt_of_pos (t + p - 1) hp
  have hcomm : (t + p - 1) / p * p = p * ((t + p - 1) / p) := by ring
  have hsub : ((t + p - 1) / p - 1) * p = p * ((t + p - 1) / p) - p := by ring
  exact ⟨by omega, by omega, Int.ediv_nonneg (by omega) (by omega)⟩

theorem quotient_lt_iff {t p : Int} (hp : 0 < p) (ht : 0 ≤ t) :
    (t + p - 1).tdiv p < 2 ^ 32 ↔ t ≤ (2 ^ 32 - 1) * p := by
  obtain ⟨hlo, hhi, _⟩ := quotient_bounds hp ht
  constructor
  · intro h
    exact le_trans hhi (mul_le_mul_of_nonneg_right (by omega) (le_of_lt hp))
  · intro h
    by_contra hge
    have : (2 ^ 32 - 1) * p ≤ ((t + p - 1).tdiv p - 1) * p :=
      mul_le_mul_of_nonneg_right (by omega) (le_of_lt hp)
    omega

theorem exactPieces_of_quotient {mi : Metainfo} (hp : 0 < mi.pieceLength)
    (ht : 0 ≤ mi.totalLength)
    (hq : (mi.numPieces : Int) = (mi.totalLength + mi.pieceLength - 1).tdiv mi.pieceLength)
    (hlt : (mi.totalLength + mi.pieceLength - 1).tdiv mi.pieceLength < 2 ^ 32) :
    ExactPieces mi := by
  obtain ⟨hlo, hhi, _⟩ := quotient_bounds hp ht
  rw [← hq] at hlo hhi hlt
  exact ⟨hp, ht, by exact_mod_cast hlt, hhi, fun _ => hlo⟩

/-- The declared lengths decide whether the cast in the piece-count check was harmless. -/
theorem exactPieces_of_declared {sha1 : List UInt8 → List UInt8} {alloc : Alloc}
    {data : List UInt8} {mi : Metainfo} (h : metainfoParse sha1 alloc data = .ok mi)
    (small : declaredTotal data ≤ (2 ^ 32 - 1) * declaredPieceLength data) : ExactPieces mi := by
  obtain ⟨info, hinfo, acc⟩ := metainfoParse_accepted h
  obtain ⟨hpl, hp, _⟩ := declaredPieceLength_eq hinfo acc
  obtain ⟨htl, ht⟩ := declaredTotal_eq hinfo acc
  rw [hpl, htl] at small
  have hlt := (quotient_lt_iff hp ht).mpr small
  have hnn := (quotient_bounds hp ht).2.2
  refine exactPieces_of_quotient hp ht ?_ hlt
  rw [acc.count, Int.emod_eq_of_lt hnn hlt]

/-- The count of an accepted torrent is exact iff the declared bytes fit into fewer
than 2^32 pieces of the declared length. -/
theorem metainfoParse_count_iff {sha1 : List UInt8 → List UInt8} {alloc : Alloc}
    {data : List UInt8} {mi : Metainfo} (h : metainfoParse sha1 alloc data = .ok mi) :
    PieceCountExact mi ↔ declaredTotal data ≤ (2 ^ 32 - 1) * declaredPieceLength data := by
  constructor
  · intro exact
    obtain ⟨info, hinfo, acc⟩ := metainfoParse_accepted h
    obtain ⟨hpl, hp, _⟩ := declaredPieceLength_eq hinfo acc
    obtain ⟨htl, _⟩ := declaredTotal_eq hinfo acc
    have hcount := (ceil_eq_iff hp).mp exact.1
    have hsmall : (mi.numPieces : Int) < 2 ^ 32 := by
      rw [acc.count]
      exact Int.emod_lt_of_pos _ (by norm_num)
    rw [hpl, htl]
    exact le_trans hcount.2 (mul_le_mul_of_nonneg_right (by omega) (le_of_lt hp))
  · intro small
    exact (exactPieces_of_declared h small).pieceCountExact

theorem twoFile_count : ∃ mi,
    metainfoParse (fun _ => twoFileDigest) ⟨true, true⟩ twoFileTorrent = .ok mi ∧
      PieceCountExact mi := by
  obtain ⟨mi, hparse, _⟩ := twoFile_accepted
  exact ⟨mi, hparse, (metainfoParse_count_iff hparse).mpr (by decide +kernel)⟩

/-- One piece of one byte for a file of 2^32 + 1 bytes. -/
def wrappedCountTorrent : List UInt8 :=
  ascii ['d', '4', ':', 'i', 'n', 'f', 'o', 'd', '6', ':', 'l', 'e', 'n', 'g', 't', 'h'] ++
  ascii ['i', '4', '2', '9', '4', '9', '6', '7', '2', '9', '7', 'e'] ++
  ascii ['4', ':', 'n', 'a', 'm', 'e', '1', ':', 'a', '1', '2', ':'] ++ pieceLengthKey ++
  ascii ['i', '1', 'e', '6', ':', 'p', 'i', 'e', 'c', 'e', 's', '2', '0', ':'] ++
  List.replicate 20 0 ++ ascii ['e', 'e']

/-- The SHA-1 of the info dictionary of `wrappedCountTorrent`. -/
def wrappedCountDigest : List UInt8 :=
  [234, 69, 163, 41, 210, 118, 224, 132, 179, 20, 133, 109, 172, 75, 31, 47, 76, 30, 131, 75]

theorem wrappedCount_not_exact :
    wrappedCountTorrent.length ≤ maxFileSize ∧
    ∃ mi, metainfoParse (fun _ => wrappedCountDigest) ⟨true, true⟩ wrappedCountTorrent = .ok mi ∧
      ¬ PieceCountExact mi := by
  refine ⟨by decide, ?_⟩
  have hok : (metainfoParse (fun _ => wrappedCountDigest) ⟨true, true⟩
      wrappedCountTorrent).toOption.map (fun mi => (mi.numPieces, mi.pieceLength, mi.totalLength)) =
      some (1, 1, 4294967297) := by decide +kernel
  obtain ⟨mi, hparse, hfields⟩ := ok_of_map hok
  simp only [Prod.mk.injEq] at hfields
  obtain ⟨hn, hp, ht⟩ := hfields
  refine ⟨mi, hparse, ?_⟩
  intro exact
  have hup := (exact.2.1 (by rw [hn]; decide)).2
  rw [hn, hp, ht] at hup
  norm_num at hup

/-- What the piece manager may rely on. The last field keeps `idx * 20`, a `uint32_t`
product, from wrapping. -/
structure WellFormed (mi : Metainfo) : Prop where
  exact : ExactPieces mi
  pieceLength_le : mi.pieceLength ≤ maxPieceLength
  hashes : mi.hashBytes.length = 20 * mi.numPieces
  layout : FileLayout mi
  hashIndex : 20 * mi.numPieces < 2 ^ 32

theorem dictGetTyped_inside {mem : Memory} {node v : BeNode} {key : List UInt8} {type : BeType}
    (h : dictGetTyped mem node key type = some v) :
    v.type = type ∧ v.Inside (node.buf + node.rawLen) := by
  obtain ⟨hget, htype⟩ := Option.filter_eq_some_iff.mp h
  exact ⟨by simpa using htype, beDictGet_inside hget⟩

theorem infoOf_inside {data : List UInt8} {info : BeNode} (h : infoOf data = some info) :
    info.buf + info.rawLen ≤ data.length := by
  obtain ⟨root, hroot, hinfo⟩ := Option.bind_eq_some_iff.mp h
  simp only [decodeRoot] at hroot
  split at hroot
  · next hret =>
    obtain rfl := Option.some.inj hroot
    have hr := (beDecode_inside hret.1).1
    have hi := (dictGetTyped_inside hinfo).2.1
    omega
  · cases hroot

/-- A torrent `metainfo_load` accepts is well formed unless its declared bytes need 2^32
pieces or more, or its `files` list holds something else than dictionaries. -/
theorem wellFormed_of_parse {sha1 : List UInt8 → List UInt8} {alloc : Alloc}
    {data : List UInt8} {mi : Metainfo} (fits : data.length ≤ maxFileSize)
    (h : metainfoParse sha1 alloc data = .ok mi) (layout : FileLayout mi)
    (small : declaredTotal data ≤ (2 ^ 32 - 1) * declaredPieceLength data) : WellFormed mi := by
  obtain ⟨info, hinfo, acc⟩ := metainfoParse_accepted h
  obtain ⟨v, hv, hmod, hn, hlive⟩ := acc.pieces
  obtain ⟨htype, _, hstr⟩ := dictGetTyped_inside hv
  have hslen := hstr htype
  have hin := infoOf_inside hinfo
  have hcap : maxFileSize = 10485760 := rfl
  have hquot : v.slen / 20 % 2 ^ 32 = v.slen / 20 := Nat.mod_eq_of_lt (by omega)
  refine ⟨exactPieces_of_declared h small, (declaredPieceLength_eq hinfo acc).2.2, ?_, layout, ?_⟩
  · have hbytes : mi.hashBytes = strBytes (memoryOf data) v := by
      simp [Metainfo.hashBytes, HeapPtr.contents, hlive]
    rw [hbytes, strBytes, slice_length, hn, hquot]
    omega
  · rw [hn, hquot]
    omega

end TorrentLayout
