import Pipensx.AllocLedger
import Pipensx.TorrentLayout

/-!
# The buffers of a rejected torrent

`metainfo_parse` once more, with the heap: the two buffers of `metainfo_t` are pointers, and
every `malloc`, `calloc` and `free` of the source is in its place. Without the heap it is
the parser of before. The caller calls `metainfo_free` whatever the result, so what is left
behind after an error has to be something that can be freed.
-/

namespace TorrentFile

open Bencode AllocLedger

/-- `metainfo_t` with its pointers; `mi` has the other fields and what the buffers hold. -/
structure Parsed where
  mi : Metainfo
  pieceHashes : Ptr
  files : Ptr
  heap : Heap

/-- After the `memset` of `metainfo_parse`. -/
def Parsed.zero (h : Heap) : Parsed := ⟨Metainfo.zero, none, none, h⟩

def metainfoFree (s : Parsed) : Parsed :=
  ⟨Metainfo.zero, none, none, (s.heap.free s.pieceHashes).free s.files⟩

/-- `free(mi->piece_hashes)`, which leaves the pointer as it is. -/
def Parsed.freeHashes (s : Parsed) : Parsed :=
  { s with mi := { s.mi with pieceHashes := .freed }, heap := s.heap.free s.pieceHashes }

/-- A part that allocates nothing. -/
def Parsed.plain (part : Metainfo → Except Metainfo Metainfo) (s : Parsed) : Except Parsed Parsed :=
  match part s.mi with
  | .ok mi => .ok { s with mi := mi }
  | .error mi => .error { s with mi := mi }

def Parsed.readPieces (alloc : Alloc) (mem : Memory) (info : BeNode) (s : Parsed) :
    Except Parsed Parsed :=
  match dictGetTyped mem info (ascii ['p', 'i', 'e', 'c', 'e', 's']) .str with
  | none => .error s
  | some v =>
    if v.slen % 20 ≠ 0 then .error s
    else
      let r := s.heap.alloc alloc.pieces
      let s := { s with
        mi := { s.mi with numPieces := v.slen / 20 % 2 ^ 32 }, pieceHashes := r.1, heap := r.2 }
      if r.1 = none then .error s
      else .ok { s with mi := { s.mi with pieceHashes := .live (strBytes mem v) } }

def Parsed.readFilesMulti (alloc : Alloc) (mem : Memory) (node : BeNode) (s : Parsed) :
    Except Parsed Parsed :=
  let s := { s with mi := { s.mi with isMulti := true } }
  let fc := fileCount mem node
  if fc > maxFiles then .error s.freeHashes
  else
    let r := s.heap.alloc alloc.files
    let s := { s with mi := { s.mi with numFiles := fc }, files := r.1, heap := r.2 }
    if r.1 = none then .error s.freeHashes
    else
      match fillFiles mem ((listItems mem node).take fc) [] 0 0 with
      | none => .error (metainfoFree s)
      | some (files, total) =>
        .ok { s with mi := { s.mi with
          files := .live (files ++ List.replicate (fc - files.length) MiFile.zero)
          totalLength := total } }

def Parsed.readFilesSingle (alloc : Alloc) (mem : Memory) (info : BeNode) (s : Parsed) :
    Except Parsed Parsed :=
  let r := s.heap.alloc alloc.files
  let s := { s with mi := { s.mi with isMulti := false, numFiles := 1 }, files := r.1, heap := r.2 }
  if r.1 = none then .error s.freeHashes
  else
    match fileLength mem info with
    | none => .error (metainfoFree s)
    | some length =>
      .ok { s with mi := { s.mi with
        files := .live [⟨strncpySafe maxNameLen s.mi.name, length, 0⟩]
        totalLength := length } }

def Parsed.readFiles (alloc : Alloc) (mem : Memory) (info : BeNode) (s : Parsed) :
    Except Parsed Parsed :=
  match filesNode mem info with
  | some node => s.readFilesMulti alloc mem node
  | none => s.readFilesSingle alloc mem info

def Parsed.checkPieceCount (s : Parsed) : Except Parsed Parsed :=
  if (s.mi.numPieces : Int) ≠
      ((s.mi.totalLength + s.mi.pieceLength - 1).tdiv s.mi.pieceLength) % 2 ^ 32
  then .error (metainfoFree s)
  else .ok s

/-- The parts up to the first allocation, and that allocation. -/
def Parsed.readHashes (alloc : Alloc) (mem : Memory) (info : BeNode) (s : Parsed) :
    Except Parsed Parsed := do
  let s ← s.plain (readName mem info)
  let s ← s.plain (readPieceLength mem info)
  s.readPieces alloc mem info

/-- `metainfo_parse` on a heap: `.error` is `return 0`. -/
def metainfoParseOn (h : Heap) (sha1 : List UInt8 → List UInt8) (alloc : Alloc)
    (data : List UInt8) : Except Parsed Parsed :=
  let mem := memoryOf data
  match decodeRoot mem data.length with
  | none => .error (.zero h)
  | some root =>
    match findInfo mem root with
    | none => .error (.zero h)
    | some info => do
      let s := { Parsed.zero h with
        mi := { Metainfo.zero with infoHash := sha1 (slice mem info.buf info.rawLen) } }
      let s ← s.readHashes alloc mem info
      let s ← s.readFiles alloc mem info
      let s ← s.checkPieceCount
      .ok { s with mi := readUrls mem root s.mi }

/-- The struct without its pointers. -/
def forget : Except Parsed Parsed → Except Metainfo Metainfo
  | .ok s => .ok s.mi
  | .error s => .error s.mi

theorem forget_bind {x : Except Parsed Parsed} {f : Parsed → Except Parsed Parsed}
    {g : Metainfo → Except Metainfo Metainfo} (h : ∀ s, forget (f s) = g s.mi) :
    forget (x >>= f) = forget x >>= g := by
  cases x with
  | error s => rfl
  | ok s => exact h s

theorem forget_plain (part : Metainfo → Except Metainfo Metainfo) (s : Parsed) :
    forget (s.plain part) = part s.mi := by
  unfold Parsed.plain
  cases part s.mi <;> rfl

@[simp] theorem alloc_null (h : Heap) (ok : Bool) : (h.alloc ok).1 = none ↔ ok = false := by
  cases ok <;> simp [Heap.alloc]

theorem forget_readPieces (alloc : Alloc) (mem : Memory) (info : BeNode) (s : Parsed) :
    forget (s.readPieces alloc mem info) = readPieces alloc mem info s.mi := by
  simp only [Parsed.readPieces, readPieces, alloc_null]
  cases dictGetTyped mem info (ascii ['p', 'i', 'e', 'c', 'e', 's']) .str with
  | none => rfl
  | some v =>
    dsimp only
    split
    · rfl
    · cases alloc.pieces <;> rfl

theorem forget_readHashes (alloc : Alloc) (mem : Memory) (info : BeNode) (s : Parsed) :
    forget (s.readHashes alloc mem info) =
      (readName mem info s.mi >>= readPieceLength mem info >>= readPieces alloc mem info) := by
  have hpieces : ∀ s : Parsed,
      forget (s.plain (readPieceLength mem info) >>= fun s => s.readPieces alloc mem info) =
        (readPieceLength mem info s.mi >>= readPieces alloc mem info) := by
    intro s
    rw [forget_bind (g := readPieces alloc mem info) (fun s => forget_readPieces alloc mem info s),
      forget_plain]
  have hname := forget_bind (x := s.plain (readName mem info))
    (g := fun mi => readPieceLength mem info mi >>= readPieces alloc mem info) hpieces
  rw [forget_plain] at hname
  rw [bind_assoc]
  exact hname

theorem forget_readFiles (alloc : Alloc) (mem : Memory) (info : BeNode) (s : Parsed) :
    forget (s.readFiles alloc mem info) = readFiles alloc mem info s.mi := by
  unfold Parsed.readFiles readFiles
  cases filesNode mem info with
  | none =>
    simp only [Parsed.readFilesSingle, readFilesSingle, alloc_null]
    split
    · rfl
    · cases fileLength mem info <;> rfl
  | some node =>
    simp only [Parsed.readFilesMulti, readFilesMulti, alloc_null]
    split
    · rfl
    · split
      · rfl
      · cases fillFiles mem ((listItems mem node).take (fileCount mem node)) [] 0 0 <;> rfl

theorem forget_checkPieceCount (s : Parsed) : forget s.checkPieceCount = checkPieceCount s.mi := by
  unfold Parsed.checkPieceCount checkPieceCount
  split <;> rfl

/-- On any heap the parser leaves the struct it leaves without one. -/
theorem forget_metainfoParseOn (h : Heap) (sha1 : List UInt8 → List UInt8) (alloc : Alloc)
    (data : List UInt8) :
    forget (metainfoParseOn h sha1 alloc data) = metainfoParse sha1 alloc data := by
  simp only [metainfoParseOn, metainfoParse]
  cases decodeRoot (memoryOf data) data.length with
  | none => rfl
  | some root =>
    dsimp only
    cases findInfo (memoryOf data) root with
    | none => rfl
    | some info =>
      dsimp only
      have hrest : ∀ s : Parsed,
          forget (s.readFiles alloc (memoryOf data) info >>= fun s => s.checkPieceCount >>= fun s =>
            .ok { s with mi := readUrls (memoryOf data) root s.mi }) =
          (readFiles alloc (memoryOf data) info s.mi >>= fun mi => checkPieceCount mi >>= fun mi =>
            .ok (readUrls (memoryOf data) root mi)) := by
        intro s
        have hcount : ∀ s : Parsed,
            forget (s.checkPieceCount >>= fun s =>
              .ok { s with mi := readUrls (memoryOf data) root s.mi }) =
              (checkPieceCount s.mi >>= fun mi => .ok (readUrls (memoryOf data) root mi)) := by
          intro s
          rw [forget_bind (g := fun mi => .ok (readUrls (memoryOf data) root mi)) (fun _ => rfl),
            forget_checkPieceCount]
        rw [forget_bind (g := fun mi => checkPieceCount mi >>= fun mi =>
          .ok (readUrls (memoryOf data) root mi)) hcount, forget_readFiles]
      rw [forget_bind (g := fun mi => readFiles alloc (memoryOf data) info mi >>= fun mi =>
        checkPieceCount mi >>= fun mi => .ok (readUrls (memoryOf data) root mi)) hrest,
          forget_readHashes,
        bind_assoc, bind_assoc]

/-- What is left behind can be freed: each pointer is null or a buffer that is allocated,
and `metainfo_free` releases what was allocated, each buffer once. -/
structure Consistent (h : Heap) (s : Parsed) : Prop where
  hashes : ∀ a, s.pieceHashes = some a → a ∈ s.heap.live
  files : ∀ a, s.files = some a → a ∈ s.heap.live
  apart : s.pieceHashes = none ∨ s.pieceHashes ≠ s.files
  released : (metainfoFree s).heap.live = h.live
  once : (metainfoFree s).heap.misused = h.misused

/-- The two pointers own what the parser has allocated. -/
def Parsed.Owner (h : Heap) (s : Parsed) : Prop := Owned h s.heap [s.pieceHashes, s.files]

section Owner

variable {h : Heap} {s s' : Parsed} {alloc : Alloc} {mem : Memory} {info : BeNode}

theorem Parsed.Owner.consistent (owner : s.Owner h) : Consistent h s := by
  obtain ⟨hlive, honce⟩ := owner.free.free.released
  refine ⟨fun a ha => owner.mem ha, fun a ha => owner.swap.mem ha, ?_, hlive, honce⟩
  cases hp : s.pieceHashes with
  | none => exact Or.inl rfl
  | some a =>
    refine Or.inr fun hsame => ?_
    have hnodup := owner.nodup
    rw [hp, ← hsame] at hnodup
    simp [List.reduceOption] at hnodup

/-- `metainfo_free` leaves two null pointers and nothing to free. -/
theorem Parsed.Owner.freed (owner : s.Owner h) : (metainfoFree s).Owner h :=
  owner.free.free.null.null

/-- What holds after a part, whether it goes on or returns 0. -/
def Leaves (good bad : Parsed → Prop) : Except Parsed Parsed → Prop
  | .ok s => good s
  | .error s => bad s

theorem Leaves.bind {good good' bad : Parsed → Prop} {x : Except Parsed Parsed}
    {f : Parsed → Except Parsed Parsed} (hx : Leaves good bad x)
    (hf : ∀ s, good s → Leaves good' bad (f s)) : Leaves good' bad (x >>= f) := by
  cases x with
  | ok s => exact hf s hx
  | error s => exact hx

/-- Nothing is allocated yet. -/
structure Untouched (h : Heap) (s : Parsed) : Prop where
  hashes : s.pieceHashes = none
  files : s.files = none
  heap : s.heap = h

/-- The hashes are allocated and the file table is not. -/
structure Begun (h : Heap) (s : Parsed) : Prop where
  hashes : s.pieceHashes ≠ none
  files : s.files = none
  owned : Owned h s.heap [s.pieceHashes]

theorem Untouched.owner (untouched : Untouched h s) : s.Owner h := by
  rw [Parsed.Owner, untouched.hashes, untouched.files, untouched.heap]
  exact (owned_refl h).null.null

theorem Untouched.plain (untouched : Untouched h s) (part : Metainfo → Except Metainfo Metainfo) :
    Leaves (Untouched h) (Parsed.Owner h) (s.plain part) := by
  unfold Parsed.plain
  cases part s.mi with
  | ok mi => exact ⟨untouched.hashes, untouched.files, untouched.heap⟩
  | error mi => exact untouched.owner

theorem Untouched.readPieces (untouched : Untouched h s) :
    Leaves (Begun h) (Parsed.Owner h) (s.readPieces alloc mem info) := by
  have howned := (owned_refl h).alloc alloc.pieces
  unfold Parsed.readPieces
  cases dictGetTyped mem info (ascii ['p', 'i', 'e', 'c', 'e', 's']) .str with
  | none => exact untouched.owner
  | some v =>
    dsimp only
    rw [untouched.heap]
    split
    · exact untouched.owner
    · split
      · have howner := howned.null.swap
        rw [← untouched.files] at howner
        exact howner
      · next hnull => exact ⟨hnull, untouched.files, howned⟩

theorem Untouched.readHashes (untouched : Untouched h s) (alloc : Alloc) (mem : Memory)
    (info : BeNode) : Leaves (Begun h) (Parsed.Owner h) (s.readHashes alloc mem info) :=
  (untouched.plain _).bind fun _ h => (h.plain _).bind fun _ h => h.readPieces

/-- The file list is too long, or there is no memory for the file table. -/
def Refused (alloc : Alloc) (mem : Memory) (info : BeNode) : Prop :=
  alloc.files = false ∨ ∃ node, filesNode mem info = some node ∧ maxFiles < fileCount mem node

/-- The pointer to the hashes is left behind after they are freed. -/
theorem not_consistent_freeHashes (begun : Begun h s) {t : Parsed}
    (hashes : t.pieceHashes = s.pieceHashes)
    (heap : t.heap = s.heap) : ¬ Consistent h t.freeHashes := by
  intro consistent
  cases hp : s.pieceHashes with
  | none => exact begun.hashes hp
  | some a =>
    have hlive := begun.owned.mem hp
    have hstill := consistent.hashes a (hashes.trans hp)
    simp only [Parsed.freeHashes, hashes, heap, hp, (free_live hlive).1] at hstill
    exact Finset.notMem_erase a _ hstill

theorem Begun.readFiles_refused (begun : Begun h s) (refused : Refused alloc mem info) :
    Leaves (fun _ => False) (fun t => ¬ Consistent h t) (s.readFiles alloc mem info) := by
  unfold Parsed.readFiles
  cases hnode : filesNode mem info with
  | none =>
    have hfail : alloc.files = false := by
      rcases refused with hfail | ⟨node, hsome, _⟩
      · exact hfail
      · rw [hnode] at hsome
        cases hsome
    simp only [Parsed.readFilesSingle, alloc_null, if_pos hfail]
    rw [hfail]
    exact not_consistent_freeHashes begun rfl rfl
  | some node =>
    simp only [Parsed.readFilesMulti, alloc_null]
    split
    · exact not_consistent_freeHashes begun rfl rfl
    · next hfew =>
      have hfail : alloc.files = false := by
        rcases refused with hfail | ⟨node', hsome, hmany⟩
        · exact hfail
        · rw [hnode] at hsome
          cases hsome
          exact absurd hmany hfew
      rw [if_pos hfail, hfail]
      exact not_consistent_freeHashes begun rfl rfl

theorem Begun.readFiles (begun : Begun h s) (accepted : ¬ Refused alloc mem info) :
    Leaves (Parsed.Owner h) (Parsed.Owner h) (s.readFiles alloc mem info) := by
  rw [Refused, not_or, Bool.not_eq_false] at accepted
  obtain ⟨hmemory, hfew⟩ := accepted
  have howned := (begun.owned.alloc alloc.files).swap
  unfold Parsed.readFiles
  cases hnode : filesNode mem info with
  | none =>
    simp only [Parsed.readFilesSingle, alloc_null, hmemory, Bool.true_eq_false, if_false]
    rw [hmemory] at howned
    cases fileLength mem info with
    | none => exact Parsed.Owner.freed howned
    | some length => exact howned
  | some node =>
    have hshort : ¬ fileCount mem node > maxFiles := fun hmany => hfew ⟨node, hnode, hmany⟩
    simp only [Parsed.readFilesMulti, alloc_null, if_neg hshort, hmemory,
      Bool.true_eq_false, if_false]
    rw [hmemory] at howned
    cases fillFiles mem ((listItems mem node).take (fileCount mem node)) [] 0 0 with
    | none => exact Parsed.Owner.freed howned
    | some filled => exact howned

theorem Parsed.Owner.checkPieceCount (owner : s.Owner h) :
    Leaves (Parsed.Owner h) (Parsed.Owner h) s.checkPieceCount := by
  unfold Parsed.checkPieceCount
  split
  · exact owner.freed
  · exact owner

end Owner

/-- The hashes have been read into their buffer, and then the torrent is turned away for its
file list or for want of memory for the file table. -/
def Abandoned (sha1 : List UInt8 → List UInt8) (alloc : Alloc) (data : List UInt8) : Prop :=
  ∃ root info mi, decodeRoot (memoryOf data) data.length = some root ∧
    findInfo (memoryOf data) root = some info ∧
    (readName (memoryOf data) info
        { Metainfo.zero with infoHash := sha1 (slice (memoryOf data) info.buf info.rawLen) } >>=
      readPieceLength (memoryOf data) info >>= readPieces alloc (memoryOf data) info) = .ok mi ∧
    Refused alloc (memoryOf data) info

section Abandoned

variable {sha1 : List UInt8 → List UInt8} {alloc : Alloc} {data : List UInt8}

/-- The struct as it is when the parts begin. -/
theorem untouched_start (h : Heap) (mi : Metainfo) : Untouched h { Parsed.zero h with mi := mi } :=
  ⟨rfl, rfl, rfl⟩

theorem leaves_of_abandoned (h : Heap) (abandoned : Abandoned sha1 alloc data) :
    Leaves (fun _ => False) (fun s => ¬ Consistent h s) (metainfoParseOn h sha1 alloc data) := by
  obtain ⟨root, info, mi, hroot, hinfo, hread, hrefused⟩ := abandoned
  simp only [metainfoParseOn, hroot, hinfo]
  have hhashes := (untouched_start h { Metainfo.zero with
    infoHash := sha1 (slice (memoryOf data) info.buf info.rawLen) }).readHashes alloc
      (memoryOf data) info
  rw [← forget_readHashes alloc (memoryOf data) info { Parsed.zero h with mi := { Metainfo.zero with
    infoHash := sha1 (slice (memoryOf data) info.buf info.rawLen) } }] at hread
  generalize Parsed.readHashes alloc (memoryOf data) info _ = x at hread hhashes ⊢
  cases x with
  | error t => cases hread
  | ok t =>
    have hbegun : Begun h t := hhashes
    exact (hbegun.readFiles_refused hrefused).bind fun _ hnever => hnever.elim

/-- Otherwise the buffers are owned, and so they are when the torrent is accepted. -/
theorem leaves_of_not_abandoned (h : Heap) (whole : ¬ Abandoned sha1 alloc data) :
    Leaves (Parsed.Owner h) (Parsed.Owner h) (metainfoParseOn h sha1 alloc data) := by
  have hzero : (Parsed.zero h).Owner h := (untouched_start h Metainfo.zero).owner
  cases hroot : decodeRoot (memoryOf data) data.length with
  | none =>
    simp only [metainfoParseOn, hroot]
    exact hzero
  | some root =>
    cases hinfo : findInfo (memoryOf data) root with
    | none =>
      simp only [metainfoParseOn, hroot, hinfo]
      exact hzero
    | some info =>
      have hhashes := (untouched_start h { Metainfo.zero with
        infoHash := sha1 (slice (memoryOf data) info.buf info.rawLen) }).readHashes alloc
          (memoryOf data) info
      have hread := forget_readHashes alloc (memoryOf data) info
        { Parsed.zero h with mi := { Metainfo.zero with
        infoHash := sha1 (slice (memoryOf data) info.buf info.rawLen) } }
      simp only [metainfoParseOn, hroot, hinfo]
      generalize Parsed.readHashes alloc (memoryOf data) info _ = x at hread hhashes ⊢
      cases x with
      | error t => exact hhashes
      | ok t =>
        have hbegun : Begun h t := hhashes
        have haccepted : ¬ Refused alloc (memoryOf data) info := fun hrefused =>
          whole ⟨root, info, t.mi, hroot, hinfo, hread.symm, hrefused⟩
        exact (hbegun.readFiles haccepted).bind fun _ owner =>
          owner.checkPieceCount.bind fun _ owner => owner

/-- A rejected torrent leaves buffers that can be freed, each once, exactly when it was not
turned away between its two allocations. -/
theorem rejected_consistent_iff {h : Heap} {s : Parsed}
    (rejected : metainfoParseOn h sha1 alloc data = .error s) :
    Consistent h s ↔ ¬ Abandoned sha1 alloc data := by
  constructor
  · intro consistent abandoned
    have hleaves := leaves_of_abandoned h abandoned
    rw [rejected] at hleaves
    exact hleaves consistent
  · intro whole
    have hleaves := leaves_of_not_abandoned h whole
    rw [rejected] at hleaves
    exact Parsed.Owner.consistent hleaves

/-- What an accepted torrent has allocated is freed by `metainfo_free`. -/
theorem accepted_consistent {h : Heap} {s : Parsed}
    (accepted : metainfoParseOn h sha1 alloc data = .ok s) :
    Consistent h s := by
  have whole : ¬ Abandoned sha1 alloc data := by
    intro abandoned
    have hleaves := leaves_of_abandoned h abandoned
    rw [accepted] at hleaves
    exact hleaves
  have hleaves := leaves_of_not_abandoned h whole
  rw [accepted] at hleaves
  exact Parsed.Owner.consistent hleaves

end Abandoned

/-- What a rejected torrent leaves behind. -/
def leftBehind : Except Parsed Parsed → Option Parsed
  | .ok _ => none
  | .error s => some s

theorem leftBehind_eq_some {x : Except Parsed Parsed} {s : Parsed} (h : leftBehind x = some s) :
    x = .error s := by
  cases x with
  | ok t => cases h
  | error t => exact congrArg _ (Option.some.inj h)

/-- A torrent in order, but there is no memory for its file table: the pointer to the hashes
is left behind, and their buffer is gone. -/
theorem no_table_dangling : ∃ s,
    metainfoParseOn .empty (fun _ => TorrentLayout.twoFileDigest) ⟨true, false⟩
      TorrentLayout.twoFileTorrent = .error s ∧
      s.pieceHashes = some 0 ∧ s.heap.live = ∅ ∧ ¬ Consistent .empty s := by
  have hrun : (leftBehind (metainfoParseOn .empty
      (fun _ => TorrentLayout.twoFileDigest) ⟨true, false⟩
      TorrentLayout.twoFileTorrent)).map (fun s => (s.pieceHashes, s.heap.live)) =
        some (some 0, ∅) := by decide +kernel
  obtain ⟨s, hleft, hfacts⟩ := Option.map_eq_some_iff.mp hrun
  obtain ⟨hpointer, hlive⟩ := Prod.mk.inj hfacts
  refine ⟨s, leftBehind_eq_some hleft, hpointer, hlive, fun consistent => ?_⟩
  have hmem := consistent.hashes 0 hpointer
  rw [hlive] at hmem
  cases hmem

/-- One piece, and no bytes to fill it. -/
def idlePieceTorrent : List UInt8 :=
  ascii "d4:infod4:name1:a12:piece lengthi2e6:pieces20:".toList ++ List.replicate 20 0 ++
    ascii "ee".toList

/-- That torrent is turned away after both allocations, and leaves nothing. -/
theorem rejected_consistent_iff_idle : ∃ s,
    metainfoParseOn .empty (fun _ => TorrentLayout.twoFileDigest) ⟨true, true⟩
      idlePieceTorrent = .error s ∧ Consistent .empty s := by
  have hrun : (leftBehind (metainfoParseOn .empty (fun _ => TorrentLayout.twoFileDigest)
      ⟨true, true⟩ idlePieceTorrent)).map (fun s => s.heap.next) = some 2 := by decide +kernel
  obtain ⟨s, hleft, _⟩ := Option.map_eq_some_iff.mp hrun
  refine ⟨s, leftBehind_eq_some hleft, (rejected_consistent_iff (leftBehind_eq_some hleft)).mpr ?_⟩
  have hsingle : ((decodeRoot (memoryOf idlePieceTorrent) idlePieceTorrent.length).bind fun root =>
      (findInfo (memoryOf idlePieceTorrent) root).bind (filesNode (memoryOf idlePieceTorrent))) =
        none := by
    decide +kernel
  rintro ⟨root, info, mi, hroot, hinfo, _, hfail | ⟨node, hnode, _⟩⟩
  · cases hfail
  · rw [hroot, Option.bind_some, hinfo, Option.bind_some, hnode] at hsingle
    cases hsingle

end TorrentFile
