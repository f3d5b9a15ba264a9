import Mathlib.Algebra.Group.Int.Defs
import Mathlib.Data.List.Basic
import Pipensx.Bencode

/-!
# Reading a .torrent file

`metainfo_parse` of `core/metainfo.c`, one definition for each commented part of it,
in its order. `.error mi` is `return 0` with `mi` left behind for `metainfo_free`,
`.ok mi` is `return 1`. SHA-1 and the two allocations are parameters.

A `char` array is only ever read up to its first NUL, so it is represented by the
bytes before that. A `while (be_list_next(..))` loop is a recursion over the items
such a loop visits, `listItems`.
-/

namespace TorrentFile

open Bencode

def maxTrackers : Nat := 32
def maxFiles : Nat := 4096
def maxNameLen : Nat := 256
def maxWebSeeds : Nat := 8
def maxUrlLen : Nat := 512
def maxPieceLength : Int := 256 * 1024 * 1024
def maxTotalLength : Int := 2 ^ 50

/-- The size limit of `metainfo_load`, the only caller of `metainfo_parse`. -/
def maxFileSize : Nat := 10 * 1024 * 1024

abbrev slash : UInt8 := 47
abbrev backslash : UInt8 := 92
abbrev dot : UInt8 := 46

def ascii (text : List Char) : List UInt8 := text.map (fun c => UInt8.ofNat c.toNat)

/-- What a heap pointer field refers to. -/
inductive HeapPtr (α : Type) where
  | null
  | live (contents : α)
  | freed
  deriving DecidableEq, Repr

def HeapPtr.contents {α : Type} (default : α) : HeapPtr α → α
  | .live a => a
  | _ => default

structure MiFile where
  path : List UInt8
  length : Int
  offset : Int
  deriving DecidableEq, Repr

/-- An entry as `calloc` leaves it. -/
def MiFile.zero : MiFile := ⟨[], 0, 0⟩

/-- `metainfo_t`; `num_trackers` and `num_web_seeds` are the lengths of the lists. -/
structure Metainfo where
  infoHash : List UInt8
  name : List UInt8
  pieceLength : Int
  numPieces : Nat
  pieceHashes : HeapPtr (List UInt8)
  isMulti : Bool
  totalLength : Int
  numFiles : Nat
  files : HeapPtr (List MiFile)
  trackers : List (List UInt8)
  webSeeds : List (List UInt8)
  deriving DecidableEq, Repr

/-- After `memset(mi, 0, sizeof(*mi))`; also what `metainfo_free` leaves. -/
def Metainfo.zero : Metainfo :=
  ⟨List.replicate 20 0, [], 0, 0, .null, false, 0, 0, .null, [], []⟩

def Metainfo.fileTable (mi : Metainfo) : List MiFile := mi.files.contents []

def Metainfo.hashBytes (mi : Metainfo) : List UInt8 := mi.pieceHashes.contents []

/-- Which of the two allocations succeed. -/
structure Alloc where
  pieces : Bool
  files : Bool

def memoryOf (data : List UInt8) : Memory := fun i => data.getD i 0

/-- The string a `char` array holds. -/
def cString (bytes : List UInt8) : List UInt8 := bytes.takeWhile (fun c => c ≠ 0)

def strncpySafe (size : Nat) (src : List UInt8) : List UInt8 := cString (src.take (size - 1))

def componentOk (component : List UInt8) : Bool :=
  component ≠ [] && component ≠ [dot] && component ≠ [dot, dot]

/-- The scan of `metainfo_path_is_safe`; the first argument is the component so far. -/
def componentsOk : List UInt8 → List UInt8 → Bool
  | component, [] => componentOk component
  | component, c :: rest =>
    if c = backslash then false
    else if c = slash then componentOk component && componentsOk [] rest
    else componentsOk (component ++ [c]) rest

def metainfoPathIsSafe (path : List UInt8) : Bool :=
  match path with
  | [] => false
  | c :: _ =>
    if c = slash ∨ c = backslash then false
    else if path.length ≥ maxNameLen then false
    else componentsOk [] path

/-- The items `while (be_list_next(&p, stop, &item))` visits. -/
def listItemsFrom (mem : Memory) (stop : Nat) : Nat → Nat → List BeNode
  | 0, _ => []
  | fuel + 1, p =>
    let d := beListNext mem stop p BeNode.blank
    if d.ret then d.out :: listItemsFrom mem stop fuel d.p else []

/-- The loops run from just after the opening letter up to the closing one. -/
def listItems (mem : Memory) (node : BeNode) : List BeNode :=
  listItemsFrom mem (node.buf + node.rawLen - 1) node.rawLen (node.buf + 1)

def dictGet (mem : Memory) (node : BeNode) (key : List UInt8) : Option BeNode :=
  beDictGet mem node.buf (node.buf + node.rawLen) key

/-- A key whose value must have one type. -/
def dictGetTyped (mem : Memory) (node : BeNode) (key : List UInt8) (type : BeType) :
    Option BeNode :=
  (dictGet mem node key).filter (fun v => v.type = type)

def strBytes (mem : Memory) (node : BeNode) : List UInt8 := slice mem node.sval node.slen

/-- `length` of a file dictionary or of a single-file info dictionary; it stays zero
when the key is absent or not an integer. `none` is the "bad file length" rejection. -/
def fileLength (mem : Memory) (node : BeNode) : Option Int :=
  match dictGetTyped mem node (ascii ['l', 'e', 'n', 'g', 't', 'h']) .int with
  | none => some 0
  | some v => if v.ival < 0 ∨ v.ival > maxTotalLength then none else some v.ival

/-- The loop over the components of one path. A component that does not fit empties
the path and ends the loop. -/
def joinPath (mem : Memory) : List BeNode → Bool → List UInt8 → List UInt8
  | [], _, path => path
  | part :: rest, first, path =>
    if part.type ≠ .str then joinPath mem rest first path
    else
      let need := (if first then 0 else 1) + part.slen
      if path.length + need ≥ maxNameLen then []
      else joinPath mem rest false
        (path ++ (if first then [] else [slash]) ++ strBytes mem part)

def filePath (mem : Memory) (item : BeNode) : List UInt8 :=
  match dictGetTyped mem item (ascii ['p', 'a', 't', 'h']) .list with
  | none => []
  | some node => cString (joinPath mem (listItems mem node) true [])

/-- The loop that fills the file table, with `offset` and `mi->total_length` as it
accumulates them. An item that is not a dictionary keeps its zeroed entry and moves
neither. -/
def fillFiles (mem : Memory) : List BeNode → List MiFile → Int → Int →
    Option (List MiFile × Int)
  | [], files, _, total => some (files, total)
  | item :: rest, files, offset, total =>
    if item.type ≠ .dict then fillFiles mem rest (files ++ [MiFile.zero]) offset total
    else
      match fileLength mem item with
      | none => none
      | some length =>
        if metainfoPathIsSafe (filePath mem item) then
          fillFiles mem rest (files ++ [⟨filePath mem item, length, offset⟩])
            (offset + length) (total + length)
        else none

def decodeRoot (mem : Memory) (len : Nat) : Option BeNode :=
  let d := beDecode mem len 0 BeNode.blank
  if d.ret = true ∧ d.out.type = .dict then some d.out else none

def findInfo (mem : Memory) (root : BeNode) : Option BeNode :=
  dictGetTyped mem root (ascii ['i', 'n', 'f', 'o']) .dict

def nameSource (mem : Memory) (info : BeNode) : List UInt8 :=
  match dictGetTyped mem info (ascii ['n', 'a', 'm', 'e']) .str with
  | some v => strBytes mem v
  | none => ascii ['u', 'n', 'k', 'n', 'o', 'w', 'n']

def readName (mem : Memory) (info : BeNode) (mi : Metainfo) : Except Metainfo Metainfo :=
  let mi := { mi with name := strncpySafe maxNameLen (nameSource mem info) }
  if metainfoPathIsSafe mi.name then .ok mi else .error mi

def pieceLengthKey : List UInt8 :=
  ascii ['p', 'i', 'e', 'c', 'e', ' ', 'l', 'e', 'n', 'g', 't', 'h']

def readPieceLength (mem : Memory) (info : BeNode) (mi : Metainfo) : Except Metainfo Metainfo :=
  match dictGetTyped mem info pieceLengthKey .int with
  | none => .error mi
  | some v =>
    if v.ival ≤ 0 ∨ v.ival > maxPieceLength then .error mi
    else .ok { mi with pieceLength := v.ival }

def readPieces (alloc : Alloc) (mem : Memory) (info : BeNode) (mi : Metainfo) :
    Except Metainfo Metainfo :=
  match dictGetTyped mem info (ascii ['p', 'i', 'e', 'c', 'e', 's']) .str with
  | none => .error mi
  | some v =>
    if v.slen % 20 ≠ 0 then .error mi
    else
      let mi := { mi with numPieces := v.slen / 20 % 2 ^ 32 }
      if alloc.pieces then .ok { mi with pieceHashes := .live (strBytes mem v) } else .error mi

def filesNode (mem : Memory) (info : BeNode) : Option BeNode :=
  dictGetTyped mem info (ascii ['f', 'i', 'l', 'e', 's']) .list

/-- `fc`, a `uint32_t` counter. -/
def fileCount (mem : Memory) (node : BeNode) : Nat := (listItems mem node).length % 2 ^ 32

/-- The multi-file branch. Two of its exits free `piece_hashes` and leave the pointer
behind; the others go through `metainfo_free`, which zeroes the whole struct. -/
def readFilesMulti (alloc : Alloc) (mem : Memory) (node : BeNode) (mi : Metainfo) :
    Except Metainfo Metainfo :=
  let mi := { mi with isMulti := true }
  let fc := fileCount mem node
  if fc > maxFiles then .error { mi with pieceHashes := .freed }
  else
    let mi := { mi with numFiles := fc }
    if alloc.files = false then .error { mi with pieceHashes := .freed }
    else
      match fillFiles mem ((listItems mem node).take fc) [] 0 0 with
      | none => .error Metainfo.zero
      | some (files, total) =>
        .ok { mi with
          files := .live (files ++ List.replicate (fc - files.length) MiFile.zero)
          totalLength := total }

def readFilesSingle (alloc : Alloc) (mem : Memory) (info : BeNode) (mi : Metainfo) :
    Except Metainfo Metainfo :=
  let mi := { mi with isMulti := false, numFiles := 1 }
  if alloc.files = false then .error { mi with pieceHashes := .freed }
  else
    match fileLength mem info with
    | none => .error Metainfo.zero
    | some length =>
      .ok { mi with
        files := .live [⟨strncpySafe maxNameLen mi.name, length, 0⟩]
        totalLength := length }

def readFiles (alloc : Alloc) (mem : Memory) (info : BeNode) (mi : Metainfo) :
    Except Metainfo Metainfo :=
  match filesNode mem info with
  | some node => readFilesMulti alloc mem node mi
  | none => readFilesSingle alloc mem info mi

/-- The 64-bit quotient is cast to `uint32_t` before it is compared. -/
def checkPieceCount (mi : Metainfo) : Except Metainfo Metainfo :=
  if (mi.numPieces : Int) ≠
      ((mi.totalLength + mi.pieceLength - 1).tdiv mi.pieceLength) % 2 ^ 32
  then .error Metainfo.zero
  else .ok mi

/-- Append a URL that fits its buffer while there is room. -/
def addUrl (mem : Memory) (room : Nat) (ok : BeNode → Bool) (urls : List (List UInt8))
    (url : BeNode) : List (List UInt8) :=
  if urls.length < room ∧ url.type = .str ∧ ok url = true ∧ url.slen < maxUrlLen
  then urls ++ [cString (strBytes mem url)] else urls

/-- `announce-list`, flattened tier by tier. -/
def announceList (mem : Memory) (root : BeNode) : List (List UInt8) :=
  match dictGetTyped mem root
      (ascii ['a', 'n', 'n', 'o', 'u', 'n', 'c', 'e', '-', 'l', 'i', 's', 't']) .list with
  | none => []
  | some al =>
    ((listItems mem al).filter (fun tier => tier.type = .list)).foldl
      (fun urls tier =>
        (listItems mem tier).foldl (addUrl mem maxTrackers (fun _ => true)) urls) []

def announce (mem : Memory) (root : BeNode) : List (List UInt8) :=
  match dictGet mem root (ascii ['a', 'n', 'n', 'o', 'u', 'n', 'c', 'e']) with
  | none => []
  | some an => addUrl mem maxTrackers (fun _ => true) [] an

def urlList (mem : Memory) (root : BeNode) : List (List UInt8) :=
  let nonempty : BeNode → Bool := fun url => url.slen ≠ 0
  match dictGet mem root (ascii ['u', 'r', 'l', '-', 'l', 'i', 's', 't']) with
  | none => []
  | some ul =>
    if ul.type = .str then addUrl mem maxWebSeeds nonempty [] ul
    else if ul.type = .list then (listItems mem ul).foldl (addUrl mem maxWebSeeds nonempty) []
    else []

/-- The part after the last check: nothing can fail any more. -/
def readUrls (mem : Memory) (root : BeNode) (mi : Metainfo) : Metainfo :=
  { mi with
    trackers := if announceList mem root = [] then announce mem root else announceList mem root
    webSeeds := urlList mem root }

def metainfoParse (sha1 : List UInt8 → List UInt8) (alloc : Alloc) (data : List UInt8) :
    Except Metainfo Metainfo :=
  let mem := memoryOf data
  match decodeRoot mem data.length with
  | none => .error Metainfo.zero
  | some root =>
    match findInfo mem root with
    | none => .error Metainfo.zero
    | some info => do
      let mi := { Metainfo.zero with infoHash := sha1 (slice mem info.buf info.rawLen) }
      let mi ← readName mem info mi
      let mi ← readPieceLength mem info mi
      let mi ← readPieces alloc mem info mi
      let mi ← readFiles alloc mem info mi
      let mi ← checkPieceCount mi
      .ok (readUrls mem root mi)

end TorrentFile
