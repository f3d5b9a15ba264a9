import Pipensx.CString
import Pipensx.JsonParser

/-!
# The catalog of films and series

The operations of `app/movie_catalog.c` that fill a catalog: `catalog_load_from_string`,
`catalog_add_entry` and `catalog_remove_entry`. The first `count` entries of the array are a
list; of the array itself only its capacity is kept, and a write behind the bytes that were
asked for is undefined. `size_t` and `long` have 64 bits. What a double is, and what is asked of
it, is a parameter.
-/

namespace MovieCatalog

open CText (CString CharArray strncpy strcmp strstr strtol ascii)

variable {δ : Type}

/-- The doubles of the machine: `strtod` on a text that it takes, `0.0`, and the casts to `int`
and to `uint64_t`. -/
structure Doubles (δ : Type) where
  convert : List UInt8 → δ
  zero : δ
  toInt : δ → Int
  toUInt64 : δ → UInt64

inductive EntryType where
  | movie
  | series
deriving DecidableEq

structure MovieEntry (δ : Type) where
  type : EntryType
  title : CharArray 256
  genre : CharArray 128
  description : CharArray 1024
  magnet : CharArray 512
  poster : CharArray 256
  quality : CharArray 32
  year : UInt32
  /-- From 0 to 100: 87 is 8.7. -/
  rating : UInt32
  durationMin : UInt32
  seasons : UInt32
  episodes : UInt32
  sizeGb : δ
  peers : UInt32
  downloads : UInt64
  infoHash : CharArray 41

/-- `sizeof(MovieEntry)`. -/
def entrySize : Nat := 2304

/-- A block on the heap: its address and the string in it. -/
structure RawJson where
  address : Nat
  text : CString

/-- `MovieCatalog`. -/
structure Catalog (δ : Type) where
  entries : List (MovieEntry δ)
  capacity : Nat
  rawJson : Option RawJson
  rawJsonSize : Nat

def Catalog.count (c : Catalog δ) : Nat := c.entries.length

/-- `catalog_create`. -/
def catalogCreate : Catalog δ := ⟨[], 0, none, 0⟩

def jsonGet (obj : JsonValue δ) (key : List UInt8) : Option (JsonValue δ) :=
  match obj with
  | .object members =>
    (members.find? fun m => strcmp (CString.ofBytes m.1).bytes key = 0).map Prod.snd
  | _ => none

def jsonGetString (obj : JsonValue δ) (key : List UInt8) : CString :=
  match jsonGet obj key with
  | some (.string str) => CString.ofBytes str
  | _ => CString.ofBytes []

/-- The cast of a `long` to `int`. -/
def longToInt (v : Int) : Int := v.bmod (2 ^ 32)

/-- A number is cast, a string is read by `strtol`. -/
def jsonGetInt (dbl : Doubles δ) (obj : JsonValue δ) (key : List UInt8) (default : Int) : Int :=
  match jsonGet obj key with
  | some (.number num) => dbl.toInt num
  | some (.string str) =>
    match strtol (CString.ofBytes str).memory with
    | some v => longToInt v
    | none => default
  | _ => default

/-- A number is taken as it is, a string is read by `strtod`. -/
def jsonGetDouble (dbl : Doubles δ) (obj : JsonValue δ) (key : List UInt8) (default : δ) : δ :=
  match jsonGet obj key with
  | some (.number num) => num
  | some (.string str) =>
    let nptr := (CString.ofBytes str).memory
    if (CText.strtod nptr).length <
      nptr.length then (parseJsonNumber dbl.convert nptr).1 else default
  | _ => default

def infoHashOf (entry : JsonValue δ) (magnet : CString) : CharArray 41 :=
  let infoHash := jsonGetString entry (ascii "info_hash".toList)
  if 0 < infoHash.bytes.length then strncpy 41 infoHash 40 (by decide)
  else
    match strstr magnet.bytes (ascii "btih:".toList) with
    | some start => strncpy 41 (CString.ofBytes (start.drop 5)) 40 (by decide)
    | none => strncpy 41 (CString.ofBytes []) 40 (by decide)

/-- The body of the loop of `catalog_load_from_string`. The product of the rating wraps. -/
def readEntry (dbl : Doubles δ) (entry : JsonValue δ) : MovieEntry δ where
  type := if strcmp (jsonGetString entry (ascii "category".toList)).bytes (ascii "series".toList) =
    0 then .series
    else .movie
  title := strncpy 256 (jsonGetString entry (ascii "title".toList)) 255 (by decide)
  genre := strncpy 128 (jsonGetString entry (ascii "genre".toList)) 127 (by decide)
  description := strncpy 1024 (jsonGetString entry (ascii "description".toList)) 1023 (by decide)
  magnet := strncpy 512 (jsonGetString entry (ascii "magnet".toList)) 511 (by decide)
  poster := strncpy 256 (jsonGetString entry (ascii "poster".toList)) 255 (by decide)
  quality := strncpy 32 (jsonGetString entry (ascii "quality".toList)) 31 (by decide)
  year := UInt32.ofInt (jsonGetInt dbl entry (ascii "year".toList) 0)
  rating := UInt32.ofInt (jsonGetInt dbl entry (ascii "rating".toList) 0 * 10)
  durationMin := UInt32.ofInt (jsonGetInt dbl entry (ascii "duration_min".toList) 0)
  seasons := UInt32.ofInt (jsonGetInt dbl entry (ascii "seasons".toList) 0)
  episodes := UInt32.ofInt (jsonGetInt dbl entry (ascii "episodes".toList) 0)
  sizeGb := jsonGetDouble dbl entry (ascii "size_gb".toList) dbl.zero
  peers := UInt32.ofInt (jsonGetInt dbl entry (ascii "peers".toList) 0)
  downloads := dbl.toUInt64 (jsonGetDouble dbl entry (ascii "downloads".toList) dbl.zero)
  infoHash := infoHashOf entry (jsonGetString entry (ascii "magnet".toList))

/-- A call that returns, with its result and the catalog, or behaviour that C leaves open. -/
inductive Outcome (δ : Type) where
  | returned (result : Bool) (c : Catalog δ)
  | undefined

/-- The capacity that `catalog_grow` asks for. -/
def grownCapacity (capacity : Nat) : Nat := if capacity = 0 then 16 else capacity * 2 % 2 ^ 64

/-- `served` says whether `realloc` gives the memory. -/
def catalogGrow (served : Bool) (c : Catalog δ) : Option (Catalog δ) :=
  if served then some { c with capacity := grownCapacity c.capacity } else none

/-- The slot behind the last entry is inside the block that `realloc` was asked for. -/
def SlotInside (c : Catalog δ) : Prop := entrySize * (c.count + 1) ≤ entrySize * c.capacity % 2 ^ 64

instance (c : Catalog δ) : Decidable (SlotInside c) := inferInstanceAs (Decidable (_ ≤ _))

def Catalog.push (c : Catalog δ) (entry : MovieEntry δ) : Catalog δ :=
  { c with entries := c.entries ++ [entry] }

/-- The allocations of one call: the address that `malloc` gives for the text, and whether the
`realloc` for the entry at an index is served. -/
structure Allocations where
  raw : Option Nat
  grown : Nat → Bool

/-- The loop of `catalog_load_from_string`. The array grows for every entry. -/
def loadEntries (dbl : Doubles δ) (grown : Nat → Bool) :
    Nat → List (JsonValue δ) → Catalog δ → Outcome δ
  | _, [], c => .returned true c
  | i, entry :: rest, c =>
    match catalogGrow (grown i) c with
    | none => .returned false c
    | some c =>
      if SlotInside c then loadEntries dbl grown (i + 1) rest (c.push (readEntry dbl entry))
      else .undefined

/-- `parsed` is how `json_parse` ends on the text. -/
def catalogLoadFromString (dbl : Doubles δ) (parsed : Result (JsonValue δ)) (jsonString : CString)
    (alloc : Allocations) (c : Catalog δ) : Outcome δ :=
  match parsed with
  | .ok (.array items) _ =>
    match alloc.raw with
    | none => .returned false { c with rawJson := none }
    | some address =>
      loadEntries dbl alloc.grown 0 items
        { c with rawJson := some ⟨address, jsonString⟩, rawJsonSize := jsonString.bytes.length }
  | .ok _ _ => .returned false c
  | .null _ => .returned false c
  | .overrun => .undefined
  | .overflow => .undefined

def catalogAddEntry (served : Bool) (entry : MovieEntry δ) (c : Catalog δ) : Outcome δ :=
  match if c.count ≥ c.capacity then catalogGrow served c else some c with
  | none => .returned false c
  | some c => if SlotInside c then .returned true (c.push entry) else .undefined

/-- The entries behind the index move one place forward. -/
def catalogRemoveEntry (index : Nat) (c : Catalog δ) : Outcome δ :=
  if index ≥ c.count then .returned false c
  else .returned true { c with entries := c.entries.eraseIdx index }

end MovieCatalog
