import Mathlib.Data.List.Basic
import Mathlib.Logic.Function.Basic

/-!
# Files that are read and written in items

What `stdio` does to whole files. What the device answers is an argument of each call: whether a
call is granted, how many elements there is room for, what is lost when a file is closed.
-/

namespace Stdio

variable {α : Type*}

/-- What `fread` gives: whole items, the elements that it stores, what is left of the file. -/
structure Got (α : Type*) where
  items : Nat
  bytes : List α
  left : List α

def fread (size count : Nat) (file : List α) : Got α :=
  ⟨(file.take (size * count)).length / size, file.take (size * count), file.drop (size * count)⟩

/-- Elements stored at the start of an array, which must have the room. -/
def store (array data : List α) : Option (List α) :=
  if data.length ≤ array.length then some (data ++ array.drop data.length) else none

theorem store_eq {array data : List α} (room : data.length ≤ array.length) :
    store array data = some (data ++ array.drop data.length) := if_pos room

section Reading

variable {size count : Nat}

/-- All items are read just where the file has them. -/
theorem fread_items_iff (positive : 0 < size) {file : List α} :
    (fread size count file).items = count ↔ size * count ≤ file.length := by
  have hitems : (fread size count file).items = min (size * count) file.length / size := by
    rw [fread, List.length_take]
  rw [hitems]
  constructor
  · intro hall
    have hread : size * count ≤ min (size * count) file.length := by
      calc size * count = size * (min (size * count) file.length / size) := by rw [hall]
        _ ≤ min (size * count) file.length := Nat.mul_div_le _ _
    exact Nat.le_trans hread (Nat.min_le_right _ _)
  · intro hlong
    rw [Nat.min_eq_left hlong]
    exact Nat.mul_div_cancel_left count positive

/-- Items at the head of a file are read back, whatever follows. -/
theorem fread_append (positive : 0 < size) {data rest : List α}
    (hdata : data.length = size * count) :
    fread size count (data ++ rest) = ⟨count, data, rest⟩ := by
  rw [fread, List.take_left' hdata, List.drop_left' hdata, hdata, Nat.mul_div_cancel_left
    count positive]

theorem fread_bytes_length_le (file : List α) :
    (fread size count file).bytes.length ≤ size * count :=
  List.length_take_le _ _

end Reading

/-- One `fwrite`: the items that fit the device, and what the file then has. -/
def fwrite (room size count : Nat) (source file : List α) : Nat × List α :=
  let taken := (source.take (size * count)).take (room - file.length)
  (taken.length / size, file ++ taken)

/-- The items of one `fwrite`. -/
structure Items (α : Type*) where
  size : Nat
  count : Nat
  source : List α

def Items.all (w : Items α) : List α := w.source.take (w.size * w.count)

/-- Calls one after the other, up to one that does not write all its items. -/
def fwriteAll (room : Nat) : List (Items α) → List α → Bool × List α
  | [], file => (true, file)
  | w :: rest, file =>
    let wrote := fwrite room w.size w.count w.source file
    if wrote.1 = w.count then fwriteAll room rest wrote.2 else (false, wrote.2)

/-- Items that are all written are in the file. -/
theorem fwrite_whole {room : Nat} {w : Items α} {file : List α} (positive : 0 < w.size)
    (hall : (fwrite room w.size w.count w.source file).1 = w.count) :
    (fwrite room w.size w.count w.source file).2 = file ++ w.all := by
  have hall' : (fread w.size w.count (w.all.take (room - file.length))).items = w.count := by
    rw [fread, List.take_of_length_le]
    · exact hall
    · exact Nat.le_trans (List.length_take_le' _ _) (List.length_take_le _ _)
  have hlong := (fread_items_iff positive).mp hall'
  have htaken : w.all.take (room - file.length) = w.all := by
    refine List.take_of_length_le ?_
    have hcut : (w.all.take (room - file.length)).length ≤ room - file.length :=
      List.length_take_le _ _
    have hmost : w.all.length ≤ w.size * w.count := List.length_take_le _ _
    omega
  rw [Items.all] at htaken
  rw [fwrite, htaken, Items.all]

theorem fwriteAll_whole {room : Nat} {ws : List (Items α)} (positive : ∀ w ∈ ws, 0 < w.size)
    {file : List α} (hall : (fwriteAll room ws file).1 = true) :
    (fwriteAll room ws file).2 = file ++ ws.flatMap Items.all := by
  induction ws generalizing file with
  | nil => exact (List.append_nil file).symm
  | cons w rest ih =>
    rw [fwriteAll] at hall ⊢
    split at hall
    · rename_i hw
      rw [if_pos hw, ih (fun v hv => positive v (List.mem_cons_of_mem w hv)) hall,
        fwrite_whole (positive w List.mem_cons_self) hw, List.flatMap_cons, List.append_assoc]
    · cases hall

/-- The regular files, by their paths. -/
abbrev Files (Path α : Type*) := Path → Option (List α)

section Device

variable {Path : Type*} [DecidableEq Path]

/-- A file is closed with what was written to it; `lost` cuts it, and the call then fails. -/
def fclose (lost : Option Nat) (path : Path) (content : List α) (files : Files Path α) :
    Bool × Files Path α :=
  match lost with
  | none => (true, Function.update files path (some content))
  | some kept => (false, Function.update files path (some (content.take kept)))

def remove (granted : Bool) (path : Path) (files : Files Path α) : Files Path α :=
  if granted then Function.update files path none else files

/-- A file that is not there is not renamed; a file renamed to itself stays. -/
def rename (granted : Bool) (old new : Path) (files : Files Path α) : Bool × Files Path α :=
  match files old with
  | none => (false, files)
  | some content =>
    if granted then
      (true, if old = new then files else Function.update
        (Function.update files new (some content)) old none)
    else (false, files)

theorem rename_new {granted : Bool} {old new : Path} {files : Files Path α}
    (hgranted : (rename granted old new files).1 = true) : (rename granted old new files).2 new =
      files old := by
  rw [rename] at hgranted ⊢
  split at hgranted
  · cases hgranted
  · rename_i content hold
    split at hgranted
    · rename_i hg
      simp only [hold, hg, if_true]
      split
      · rename_i hsame
        rw [← hsame, hold]
      · rename_i hother
        rw [Function.update_of_ne (Ne.symm hother), Function.update_self]
    · cases hgranted

theorem rename_failed {granted : Bool} {old new : Path} {files : Files Path α}
    (hfailed : (rename granted old new files).1 = false) :
    (rename granted old new files).2 = files := by
  rw [rename] at hfailed ⊢
  split at hfailed
  · rfl
  · split at hfailed
    · cases hfailed
    · rename_i hg
      rw [if_neg hg]

theorem rename_other {granted : Bool} {old new path : Path} {files : Files Path α}
    (hold : path ≠ old) (hnew : path ≠ new) :
    (rename granted old new files).2 path = files path := by
  rw [rename]
  split
  · rfl
  · split
    · dsimp only
      split
      · rfl
      · rw [Function.update_of_ne hold, Function.update_of_ne hnew]
    · rfl

theorem remove_other {granted : Bool} {removed path : Path} {files : Files Path α}
    (hother : path ≠ removed) : remove granted removed files path = files path := by
  rw [remove]
  split
  · exact Function.update_of_ne hother _ _
  · rfl

theorem remove_cases {granted : Bool} {removed : Path} {files : Files Path α} (path : Path) :
    remove granted removed files path = files path ∨ remove granted removed files path = none := by
  by_cases hsame : path = removed
  · subst hsame
    cases granted with
    | true => exact .inr (Function.update_self _ _ _)
    | false => exact .inl rfl
  · exact .inl (remove_other hsame)

theorem fclose_other {lost : Option Nat} {closed path : Path} {content : List α}
    {files : Files Path α}
    (hother : path ≠ closed) : (fclose lost closed content files).2 path = files path := by
  cases lost with
  | none => exact Function.update_of_ne hother _ _
  | some kept => exact Function.update_of_ne hother _ _

theorem fclose_whole {lost : Option Nat} {path : Path} {content : List α} {files : Files Path α}
    (hclosed : (fclose lost path content files).1 = true) :
    (fclose lost path content files).2 path = some content := by
  cases lost with
  | none => exact Function.update_self _ _ _
  | some kept => cases hclosed

/-- What is left of writing `content` to `tmp` and renaming that to `path`: the whole content where
it succeeds; the old file or none where it does not. -/
structure Replaces (files : Files Path α) (tmp path : Path) (content : List α)
    (after : Bool × Files Path α) : Prop where
  whole : after.1 = true → after.2 path = some content
  kept : after.1 = false → path ≠ tmp → after.2 path = files path ∨ after.2 path = none
  others : ∀ other, other ≠ tmp → other ≠ path → after.2 other = files other

section Replacing

variable {files before : Files Path α} {tmp path : Path} {content : List α}

omit [DecidableEq Path] in
/-- Nothing but the temporary file was touched. -/
theorem Replaces.of_given_up (hothers : ∀ other, other ≠ tmp → before other = files other) :
    Replaces files tmp path content (false, before) where
  whole hsuccess := by cases hsuccess
  kept _ hpath := .inl (hothers path hpath)
  others other htmp _ := hothers other htmp

/-- Where the rename fails the old file may be gone already. -/
theorem Replaces.of_rename {granted : Bool} (hthere : before tmp = some content ∨ before tmp = none)
    (hpath : path ≠ tmp → before path = files path ∨ before path = none)
    (hothers : ∀ other, other ≠ tmp → other ≠ path → before other = files other) :
    Replaces files tmp path content (rename granted tmp path before) where
  whole hsuccess := by
    rw [rename_new hsuccess]
    rcases hthere with hcontent | hnone
    · exact hcontent
    · rw [rename, hnone] at hsuccess
      cases hsuccess
  kept hfailed hne := by
    rw [rename_failed hfailed]
    exact hpath hne
  others other htmp hother := by
    rw [rename_other htmp hother]
    exact hothers other htmp hother

/-- The temporary file is removed behind a failure. -/
theorem Replaces.remove_tmp {granted : Bool} {after : Bool × Files Path α}
    (h : Replaces files tmp path content after) (hfailed : after.1 = false) :
    Replaces files tmp path content (false, remove granted tmp after.2) where
  whole hsuccess := by cases hsuccess
  kept _ hne := by
    show remove granted tmp after.2 path = _ ∨ remove granted tmp after.2 path = _
    rw [remove_other hne]
    exact h.kept hfailed hne
  others other htmp hother := by
    show remove granted tmp after.2 other = _
    rw [remove_other htmp]
    exact h.others other htmp hother

end Replacing

end Device

end Stdio
