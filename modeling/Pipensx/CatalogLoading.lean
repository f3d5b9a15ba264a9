import Mathlib.Logic.Function.Iterate
import Pipensx.Catalog

/-!
# What a load leaves behind

`catalog_add_entry` grows the array when it is full, `catalog_load_from_string` before every
entry. A load that fails has replaced the text by then, and it keeps the entries it has read.
-/

namespace MovieCatalog

open CText (CString)

variable {δ : Type}

/-- What the caller can see is as before. -/
def Unchanged (c c' : Catalog δ) : Prop :=
  c'.count = c.count ∧ c'.entries = c.entries ∧ c'.rawJson = c.rawJson ∧
    c'.rawJsonSize = c.rawJsonSize

/-- Behind the growth for the entry at an index, the slot of that entry is inside the block. -/
def RoomAfter (c : Catalog δ) (i : Nat) : Prop :=
  entrySize * (c.count + i + 1) ≤ entrySize * grownCapacity^[i + 1] c.capacity % 2 ^ 64

instance (c : Catalog δ) (i : Nat) : Decidable (RoomAfter c i) :=
  inferInstanceAs (Decidable (_ ≤ _))

/-- The loop comes to the growth for the entry at an index. -/
def ComesTo (grown : Nat → Bool) (c : Catalog δ) (i : Nat) : Prop :=
  ∀ j, j < i → grown j = true ∧ RoomAfter c j

theorem push_count (c : Catalog δ) (entry : MovieEntry δ) : (c.push entry).count = c.count + 1 := by
  simp [Catalog.count, Catalog.push]

section Loads

variable {dbl : Doubles δ} {grown : Nat → Bool} {items : List (JsonValue δ)} {c c' : Catalog δ}
  {result : Bool}

theorem loadEntries_refused {i : Nat} {entry : JsonValue δ} {rest : List (JsonValue δ)}
    (h : grown i = false) : loadEntries dbl grown i (entry :: rest) c = .returned false c := by
  rw [loadEntries, catalogGrow, h]
  rfl

theorem loadEntries_served {i : Nat} {entry : JsonValue δ} {rest : List (JsonValue δ)}
    (h : grown i = true) : loadEntries dbl grown i (entry :: rest) c =
      if RoomAfter c 0 then
        loadEntries dbl grown (i + 1) rest
          ({ c with capacity := grownCapacity c.capacity }.push (readEntry dbl entry))
      else .undefined := by
  rw [loadEntries, catalogGrow, h]
  rfl

theorem loadEntries_rawJson {i : Nat} (h : loadEntries dbl grown i items c = .returned result c') :
    c'.rawJson = c.rawJson := by
  induction items generalizing i c with
  | nil =>
    cases h
    rfl
  | cons entry rest ih =>
    cases hgrown : grown i with
    | false =>
      rw [loadEntries_refused hgrown] at h
      cases h
      rfl
    | true =>
      rw [loadEntries_served hgrown] at h
      split at h
      · exact (ih h :)
      · cases h

theorem loadEntries_entries {i : Nat} (h : loadEntries dbl grown i items c = .returned true c') :
    c'.entries = c.entries ++ items.map (readEntry dbl) := by
  induction items generalizing i c with
  | nil =>
    cases h
    exact (List.append_nil _).symm
  | cons entry rest ih =>
    cases hgrown : grown i with
    | false =>
      rw [loadEntries_refused hgrown] at h
      cases h
    | true =>
      rw [loadEntries_served hgrown] at h
      split at h
      · rw [ih h]
        simp [Catalog.push]
      · cases h

theorem roomAfter_push {entry : MovieEntry δ} (j : Nat) :
    RoomAfter ({ c with capacity := grownCapacity c.capacity }.push entry) j ↔
      RoomAfter c (j + 1) := by
  have hcount : ({ c with capacity := grownCapacity c.capacity }.push entry).count =
    c.count + 1 := by
    simp [Catalog.count, Catalog.push]
  rw [RoomAfter, RoomAfter, hcount, Function.iterate_succ_apply _ (j + 1),
    show c.count + 1 + j = c.count + (j + 1) by omega]
  rfl

theorem comesTo_succ (entry : MovieEntry δ) {k : Nat} :
    ComesTo grown c (k + 1) ↔ (grown 0 = true ∧ RoomAfter c 0) ∧
      ComesTo (fun j => grown (j + 1)) ({ c with capacity := grownCapacity c.capacity }.push
        entry) k := by
  constructor
  · refine fun hcomes => ⟨hcomes 0 (Nat.succ_pos k), fun j hj => ?_⟩
    obtain ⟨hserved, hslot⟩ := hcomes (j + 1) (Nat.succ_lt_succ hj)
    exact ⟨hserved, (roomAfter_push j).mpr hslot⟩
  · rintro ⟨hfirst, hcomes⟩ j hj
    cases j with
    | zero => exact hfirst
    | succ j =>
      obtain ⟨hserved, hslot⟩ := hcomes j (Nat.lt_of_succ_lt_succ hj)
      exact ⟨hserved, (roomAfter_push j).mp hslot⟩

/-- The loop reads all entries exactly if it comes to the end of them. -/
theorem loadEntries_returns_iff {i : Nat} :
    (∃ c', loadEntries dbl grown i items c = .returned true c') ↔
      ComesTo (fun j => grown (i + j)) c items.length := by
  induction items generalizing i c with
  | nil => exact iff_of_true ⟨c, rfl⟩ fun j hj => absurd hj (Nat.not_lt_zero j)
  | cons entry rest ih =>
    have hshift : (fun j => grown (i + (j + 1))) = fun j => grown (i + 1 + j) :=
      funext fun j => congrArg grown (by omega)
    rw [List.length_cons, comesTo_succ (readEntry dbl entry), hshift]
    by_cases hgrown : grown i = true
    · rw [loadEntries_served hgrown]
      by_cases hroom : RoomAfter c 0
      · rw [if_pos hroom, ih]
        exact (and_iff_right ⟨hgrown, hroom⟩).symm
      · rw [if_neg hroom]
        exact iff_of_false (fun ⟨c', h⟩ => nomatch h) fun hcomes => hroom hcomes.1.2
    · rw [loadEntries_refused (Bool.eq_false_iff.mpr hgrown)]
      exact iff_of_false (fun ⟨c', h⟩ => nomatch h) fun hcomes => hgrown hcomes.1.1

/-- The loop fails exactly at a growth that is refused when it comes to it. -/
theorem loadEntries_fails_iff {i : Nat} :
    (∃ c', loadEntries dbl grown i items c = .returned false c') ↔
      ∃ k, k < items.length ∧ ComesTo (fun j => grown (i + j)) c k ∧ grown (i + k) = false := by
  induction items generalizing i c with
  | nil =>
    constructor
    · rintro ⟨c', h⟩
      cases h
    · rintro ⟨k, hk, _⟩
      exact absurd hk (Nat.not_lt_zero k)
  | cons entry rest ih =>
    have hshift : ∀ j, grown (i + (j + 1)) = grown (i + 1 + j) := fun j => congrArg grown (by omega)
    cases hgrown : grown i with
    | false =>
      rw [loadEntries_refused hgrown]
      refine iff_of_true ⟨c, rfl⟩ ⟨0, Nat.succ_pos _, ?_, hgrown⟩
      exact fun j hj => absurd hj (Nat.not_lt_zero j)
    | true =>
      rw [loadEntries_served hgrown]
      by_cases hroom : RoomAfter c 0
      · rw [if_pos hroom, ih]
        constructor
        · rintro ⟨k, hk, hcomes, hrefused⟩
          refine ⟨k + 1, Nat.succ_lt_succ hk, ?_, (hshift k).trans hrefused⟩
          simp only [← hshift] at hcomes
          exact (comesTo_succ (readEntry dbl entry)).mpr ⟨⟨hgrown, hroom⟩, hcomes⟩
        · rintro ⟨k, hk, hcomes, hrefused⟩
          cases k with
          | zero =>
            rw [Nat.add_zero, hgrown] at hrefused
            cases hrefused
          | succ k =>
            have hrest := ((comesTo_succ (readEntry dbl entry)).mp hcomes).2
            simp only [hshift] at hrest
            exact ⟨k, Nat.lt_of_succ_lt_succ hk, hrest, (hshift k).symm.trans hrefused⟩
      · rw [if_neg hroom]
        constructor
        · rintro ⟨c', h⟩
          cases h
        · rintro ⟨k, hk, hcomes, hrefused⟩
          cases k with
          | zero =>
            rw [Nat.add_zero, hgrown] at hrefused
            cases hrefused
          | succ k => exact absurd (hcomes 0 (Nat.succ_pos k)).2 hroom

/-- What is no array is turned away. -/
theorem load_other {parsed : Result (JsonValue δ)} {jsonString : CString} {alloc : Allocations}
    (other : ¬ ∃ items endp, parsed = .ok (.array items) endp)
    (h : catalogLoadFromString dbl parsed jsonString alloc c = .returned result c') : c' = c := by
  cases parsed with
  | ok v endp =>
    cases v with
    | array items => exact absurd ⟨items, endp, rfl⟩ other
    | _ =>
      cases h
      rfl
  | null e =>
    cases h
    rfl
  | overrun => cases h
  | overflow => cases h

end Loads

/-- A text that is read as an array finds the memory for its copy, unless there was no copy before,
and for the entries it comes to. -/
def Served (parsed : Result (JsonValue δ)) (alloc : Allocations) (c : Catalog δ) : Prop :=
  ∀ items endp, parsed = .ok (.array items) endp →
    (alloc.raw = none → c.rawJson = none) ∧
      (alloc.raw ≠ none → ∀ i, i < items.length → ComesTo alloc.grown c i → alloc.grown i = true)

/-- A load that fails changes nothing if and only if it was served as far as it came. The address
`malloc` gives is not in use. -/
theorem load_atomic_iff (dbl : Doubles δ) (parsed : Result (JsonValue δ)) (jsonString : CString)
    (alloc : Allocations) (c : Catalog δ)
    (fresh : ∀ raw, c.rawJson = some raw → alloc.raw ≠ some raw.address) :
    (∀ c', catalogLoadFromString dbl parsed jsonString alloc c = .returned false c' →
      Unchanged c c') ↔ Served parsed alloc c := by
  by_cases harray : ∃ items endp, parsed = .ok (.array items) endp
  · obtain ⟨items, endp, rfl⟩ := harray
    cases hraw : alloc.raw with
    | none =>
      simp only [catalogLoadFromString, hraw]
      constructor
      · intro hunchanged items' endp' _
        exact ⟨fun _ => (hunchanged _ rfl).2.2.1.symm, fun hsome => absurd hraw hsome⟩
      · intro hserved c' h
        cases h
        exact ⟨rfl, rfl, ((hserved items endp rfl).1 hraw).symm, rfl⟩
    | some address =>
      simp only [catalogLoadFromString, hraw]
      have hfails := @loadEntries_fails_iff _ dbl alloc.grown items
        { c with rawJson := some ⟨address, jsonString⟩, rawJsonSize := jsonString.bytes.length } 0
      simp only [Nat.zero_add] at hfails
      constructor
      · intro hunchanged items' endp' heq
        cases heq
        refine ⟨fun hnone => absurd (hraw.symm.trans hnone) nofun, fun _ i hi hcomes => ?_⟩
        by_contra hrefused
        obtain ⟨c', h⟩ := hfails.mpr ⟨i, hi, hcomes, Bool.eq_false_iff.mpr hrefused⟩
        -- the catalog points to the new text, which is not where the old one was
        have hraw' := loadEntries_rawJson h
        rw [(hunchanged c' h).2.2.1] at hraw'
        exact fresh _ hraw' hraw
      · intro hserved c' h
        obtain ⟨k, hk, hcomes, hrefused⟩ := hfails.mp ⟨c', h⟩
        have hgrown := (hserved items endp rfl).2 (by rw [hraw]; exact nofun) k hk hcomes
        rw [hgrown] at hrefused
        cases hrefused
  · have hserved : Served parsed alloc c := fun items endp heq => absurd ⟨items, endp, heq⟩ harray
    refine iff_of_true (fun c' h => ?_) hserved
    rw [load_other harray h]
    exact ⟨rfl, rfl, rfl, rfl⟩

/-- The text `[{},{}]`. -/
def twoEntries : CString := ⟨[91, 123, 125, 44, 123, 125, 93], by decide⟩

/-- A double is the text it was read from. -/
def textDoubles : Doubles (List UInt8) := ⟨id, [], fun _ => 0, fun _ => 0⟩

theorem twoEntries_parsed :
    Parses textDoubles.convert twoEntries.memory (.ok (.array [.object [], .object []]) [0]) :=
  ⟨5, rfl⟩

/-- The text `[{}]`. -/
def oneEntry : CString := ⟨[91, 123, 125, 93], by decide⟩

theorem oneEntry_parsed :
    Parses textDoubles.convert oneEntry.memory (.ok (.array [.object []]) [0]) := ⟨4, rfl⟩

/-- A catalog that holds a text without entries. -/
def emptyLoaded : Catalog (List UInt8) := ⟨[], 0, some ⟨2, ⟨[91, 93], by decide⟩⟩, 2⟩

/-- The copy finds its memory and the first entry does not: the text is another one by then. -/
theorem load_atomic_refused :
    Parses textDoubles.convert oneEntry.memory (.ok (.array [.object []]) [0]) ∧
      ¬ ∀ c', catalogLoadFromString textDoubles (.ok (.array [.object []]) [0]) oneEntry
        ⟨some 1, fun _ => false⟩ emptyLoaded = .returned false c' →
        Unchanged emptyLoaded c' := by
  refine ⟨oneEntry_parsed, fun hunchanged => ?_⟩
  have hserved := (load_atomic_iff textDoubles (.ok (.array [.object []]) [0]) oneEntry
    ⟨some 1, fun _ => false⟩ emptyLoaded (by rintro raw ⟨⟩; decide)).mp hunchanged
  have hgrown := (hserved _ _ rfl).2 nofun 0 (by decide) fun j hj => absurd hj (Nat.not_lt_zero j)
  cases hgrown

/-- The second entry finds no memory, and the first one stays. -/
theorem load_keeps_first :
    Parses textDoubles.convert twoEntries.memory (.ok (.array [.object [], .object []]) [0]) ∧
      ¬ ∀ c', catalogLoadFromString textDoubles (.ok (.array [.object [], .object []]) [0])
        twoEntries ⟨some 1, fun i => i == 0⟩ catalogCreate = .returned false c' →
        Unchanged catalogCreate c' := by
  refine ⟨twoEntries_parsed, fun h => ?_⟩
  have hload : loadEntries textDoubles (fun i => i == 0) 0 [.object [], .object []]
      ⟨[], 0, some ⟨1, twoEntries⟩, 7⟩ = .returned false
        (Catalog.push ⟨[], 16, some ⟨1, twoEntries⟩, 7⟩ (readEntry textDoubles (.object []))) := by
    rw [loadEntries_served rfl, if_pos (by decide), loadEntries_refused rfl]
    rfl
  have hcount := (h _ hload).1
  rw [push_count] at hcount
  cases hcount

inductive Op (δ : Type) where
  | load (parsed : Result (JsonValue δ)) (jsonString : CString) (alloc : Allocations)
  | add (entry : MovieEntry δ) (served : Bool)
  | remove (index : Nat)

/-- A catalog with the largest count it has held between two calls. -/
structure Held (δ : Type) where
  catalog : Catalog δ
  peak : Nat

def Op.call (dbl : Doubles δ) (c : Catalog δ) : Op δ → Outcome δ
  | .load parsed jsonString alloc => catalogLoadFromString dbl parsed jsonString alloc c
  | .add entry served => catalogAddEntry served entry c
  | .remove index => catalogRemoveEntry index c

def step (dbl : Doubles δ) (s : Held δ) (op : Op δ) : Option (Held δ) :=
  match op.call dbl s.catalog with
  | .returned _ c => some ⟨c, max s.peak c.count⟩
  | .undefined => none

def run (dbl : Doubles δ) : Held δ → List (Op δ) → Option (Held δ)
  | s, [] => some s
  | s, op :: rest => (step dbl s op).bind fun s' => run dbl s' rest

/-- The capacity is bounded by the entries, and it fits a `size_t` where half the address space
holds the entries. -/
def Amortised (s : Held δ) : Prop :=
  s.catalog.count ≤ s.catalog.capacity ∧ s.catalog.capacity ≤ max 16 (2 * s.peak) ∧
    (entrySize * s.peak < 2 ^ 63 → entrySize * s.catalog.capacity < 2 ^ 64)

/-- A load comes to one growth at most, and to that one only in a catalog without capacity, or one
that this entry fills, or one that was full before. -/
def Gradual (s : Held δ) : Op δ → Prop
  | .load (.ok (.array items) _) _ alloc => alloc.raw ≠ none → items ≠ [] → alloc.grown 0 = true →
      (items.length = 1 ∨ alloc.grown 1 = false) ∧
        (s.catalog.capacity = 0 ∨ s.catalog.capacity ≤ max s.peak (s.catalog.count + 1))
  | _ => True

def EveryGradual (dbl : Doubles δ) : Held δ → List (Op δ) → Prop
  | _, [] => True
  | s, op :: rest => Gradual s op ∧ ∀ s', step dbl s op = some s' → EveryGradual dbl s' rest

structure Bounded (s : Held δ) : Prop where
  count : s.catalog.count ≤ s.catalog.capacity
  peak : s.catalog.count ≤ s.peak
  capacity : s.catalog.capacity ≤ max 16 (2 * s.peak)

section Capacity

variable {dbl : Doubles δ} {s s' : Held δ} {c c' : Catalog δ} {op : Op δ} {result : Bool}

theorem Bounded.amortised (h : Bounded s) : Amortised s := by
  refine ⟨h.count, h.capacity, fun hfits => ?_⟩
  have hcap := h.capacity
  simp only [entrySize] at hfits ⊢
  omega

theorem slotInside_count (h : SlotInside c) : c.count + 1 ≤ c.capacity := by
  have hle := h.trans (Nat.mod_le _ _)
  exact Nat.le_of_mul_le_mul_left hle (by decide)

theorem grownCapacity_le (capacity : Nat) : grownCapacity capacity ≤ max 16 (2 * capacity) := by
  rw [grownCapacity]
  split
  · exact le_max_left _ _
  · have hmod := Nat.mod_le (capacity * 2) (2 ^ 64)
    omega

/-- The entries and the capacity stay as they are. -/
theorem Bounded.kept (h : Bounded s) (raw : Option RawJson) (size : Nat) :
    Bounded ⟨⟨s.catalog.entries, s.catalog.capacity, raw, size⟩, max s.peak s.catalog.count⟩ := by
  rw [max_eq_left h.peak]
  exact ⟨h.count, h.peak, h.capacity⟩

/-- One entry behind the last one, in the block as it is or in a grown one. -/
theorem bounded_push {entry : MovieEntry δ} {capacity : Nat} {raw : Option RawJson} {size : Nat}
    (inside : SlotInside ⟨s.catalog.entries, capacity, raw, size⟩)
    (hcap : capacity ≤ max 16 (2 * max s.peak (s.catalog.count + 1))) :
    Bounded ⟨Catalog.push ⟨s.catalog.entries, capacity, raw, size⟩ entry,
      max s.peak (s.catalog.count + 1)⟩ := by
  have hslot := slotInside_count inside
  have hcount := push_count ⟨s.catalog.entries, capacity, raw, size⟩ entry
  have hsame : Catalog.count ⟨s.catalog.entries, capacity, raw, size⟩ = s.catalog.count := rfl
  refine ⟨?_, ?_, hcap⟩
  · rw [hcount]
    exact hslot
  · rw [hcount, hsame]
    exact le_max_right _ _

theorem loadEntries_gradual {items : List (JsonValue δ)} {grown : Nat → Bool} (h : Bounded s)
    {raw : Option RawJson}
    {size : Nat} (gradual : items ≠ [] → grown 0 = true → (items.length = 1 ∨ grown 1 = false) ∧
      (s.catalog.capacity = 0 ∨ s.catalog.capacity ≤ max s.peak (s.catalog.count + 1)))
    (hload : loadEntries dbl grown 0 items ⟨s.catalog.entries, s.catalog.capacity, raw, size⟩ =
    .returned result c') : Bounded ⟨c', max s.peak c'.count⟩ := by
  cases items with
  | nil =>
    cases hload
    exact h.kept raw size
  | cons entry rest =>
    cases hgrown : grown 0 with
    | false =>
      rw [loadEntries_refused hgrown] at hload
      cases hload
      exact h.kept raw size
    | true =>
      obtain ⟨hone, hcap⟩ := gradual (List.cons_ne_nil _ _) hgrown
      rw [loadEntries_served hgrown] at hload
      split at hload
      · next hroom =>
        have hpushed : c' = Catalog.push
            ⟨s.catalog.entries, grownCapacity s.catalog.capacity, raw, size⟩
            (readEntry dbl entry) := by
          cases rest with
          | nil =>
            cases hload
            rfl
          | cons entry' rest =>
            have hrefused : grown 1 = false := hone.resolve_left (by simp)
            rw [loadEntries_refused hrefused] at hload
            cases hload
            rfl
        have hinside : SlotInside ⟨s.catalog.entries, grownCapacity s.catalog.capacity, raw,
          size⟩ := hroom
        rw [hpushed, push_count]
        refine bounded_push hinside ?_
        rcases hcap with hzero | hle
        · rw [hzero]
          exact le_max_left _ _
        · have hgrow := grownCapacity_le s.catalog.capacity
          omega
      · cases hload

theorem Bounded.load (h : Bounded s) {parsed : Result (JsonValue δ)} {jsonString : CString}
    {alloc : Allocations} (gradual : Gradual s (.load parsed jsonString alloc))
    (hcall : catalogLoadFromString dbl parsed jsonString alloc s.catalog = .returned result c') :
    Bounded ⟨c', max s.peak c'.count⟩ := by
  by_cases harray : ∃ items endp, parsed = .ok (.array items) endp
  · obtain ⟨items, endp, rfl⟩ := harray
    rw [catalogLoadFromString] at hcall
    cases hraw : alloc.raw with
    | none =>
      rw [hraw] at hcall
      cases hcall
      exact h.kept none _
    | some address =>
      rw [hraw] at hcall
      exact loadEntries_gradual h (gradual (by rw [hraw]; exact nofun)) hcall
  · rw [load_other harray hcall]
    exact h.kept _ _

theorem Bounded.add (h : Bounded s) {entry : MovieEntry δ} {served : Bool}
    (hcall : catalogAddEntry served entry s.catalog = .returned result c') :
    Bounded ⟨c', max s.peak c'.count⟩ := by
  have hpeak := h.peak
  rw [catalogAddEntry] at hcall
  by_cases hfull : s.catalog.count ≥ s.catalog.capacity
  · rw [if_pos hfull, catalogGrow] at hcall
    cases served with
    | false =>
      cases hcall
      exact h.kept _ _
    | true =>
      simp only [if_true] at hcall
      split at hcall
      · next hinside =>
        cases hcall
        rw [push_count]
        have hgrow := grownCapacity_le s.catalog.capacity
        exact bounded_push hinside (by omega)
      · cases hcall
  · rw [if_neg hfull] at hcall
    simp only at hcall
    split at hcall
    · next hinside =>
      cases hcall
      rw [push_count]
      have hcap : s.catalog.capacity ≤ max 16 (2 * max s.peak (s.catalog.count + 1)) := by
        have hold := h.capacity
        omega
      exact bounded_push hinside hcap
    · cases hcall

theorem Bounded.remove (h : Bounded s) {index : Nat}
    (hcall : catalogRemoveEntry index s.catalog = .returned result c') :
    Bounded ⟨c', max s.peak c'.count⟩ := by
  rw [catalogRemoveEntry] at hcall
  split at hcall
  · cases hcall
    exact h.kept _ _
  · next hindex =>
    cases hcall
    have hlen : (s.catalog.entries.eraseIdx index).length = s.catalog.entries.length - 1 :=
      List.length_eraseIdx_of_lt (Nat.lt_of_not_le hindex)
    have hcount := h.count
    have hcap := h.capacity
    simp only [Catalog.count] at hcount
    refine ⟨?_, le_max_right _ _, ?_⟩
    · simp only [Catalog.count, hlen]
      omega
    · simp only [Catalog.count, hlen]
      omega

theorem Bounded.step (h : Bounded s) (gradual : Gradual s op) (hstep : step dbl s op = some s') :
    Bounded s' := by
  rw [MovieCatalog.step] at hstep
  split at hstep
  · next result c' hcall =>
    cases hstep
    cases op with
    | load parsed jsonString alloc => exact h.load gradual hcall
    | add entry served => exact h.add hcall
    | remove index => exact h.remove hcall
  · cases hstep

/-- As long as no load grows the array for nothing, its capacity stays in proportion to the
entries, in every state of a run. -/
theorem run_amortised {ops : List (Op δ)} (gradual : EveryGradual dbl ⟨catalogCreate, 0⟩ ops)
    {pre : List (Op δ)}
    (reached : pre <+: ops) (hrun : run dbl ⟨catalogCreate, 0⟩ pre = some s) : Amortised s := by
  have hstart : Bounded (⟨catalogCreate, 0⟩ : Held δ) :=
    ⟨Nat.le_refl 0, Nat.le_refl 0, Nat.zero_le _⟩
  have hall : ∀ {s₀ : Held δ} {ops pre : List (Op δ)}, Bounded s₀ →
      EveryGradual dbl s₀ ops → pre <+: ops → run dbl s₀ pre = some s → Bounded s := by
    intro s₀ ops pre
    induction pre generalizing s₀ ops with
    | nil =>
      intro hbounded _ _ hrun
      cases hrun
      exact hbounded
    | cons op pre ih =>
      rintro hbounded hgradual ⟨post, rfl⟩ hrun
      obtain ⟨s₁, hstep, hrest⟩ := Option.bind_eq_some_iff.mp hrun
      exact ih (hbounded.step hgradual.1 hstep) (hgradual.2 s₁ hstep)
        (List.prefix_append pre post) hrest
  exact (hall hstart gradual reached hrun).amortised

end Capacity

/-- An entry is loaded into a new catalog and another one added. -/
theorem run_amortised_one :
    Parses textDoubles.convert oneEntry.memory (.ok (.array [.object []]) [0]) ∧
      Amortised (⟨⟨[readEntry textDoubles (.object []), readEntry textDoubles (.object [])], 16,
        some ⟨1, oneEntry⟩, 4⟩, 2⟩ : Held (List UInt8)) := by
  have hload : step textDoubles ⟨catalogCreate, 0⟩
      (.load (.ok (.array [.object []]) [0]) oneEntry ⟨some 1, fun _ => true⟩) =
      some ⟨⟨[readEntry textDoubles (.object [])], 16, some ⟨1, oneEntry⟩, 4⟩, 1⟩ := by
    rw [step, Op.call, catalogLoadFromString]
    simp only
    rw [show oneEntry.bytes.length = 4 from rfl, catalogCreate, loadEntries_served rfl,
      if_pos (by decide)]
    rfl
  have hadd : step textDoubles
      ⟨⟨[readEntry textDoubles (.object [])], 16, some ⟨1, oneEntry⟩, 4⟩, 1⟩
      (.add (readEntry textDoubles (.object [])) true) =
      some ⟨⟨[readEntry textDoubles (.object []), readEntry textDoubles (.object [])], 16,
        some ⟨1, oneEntry⟩, 4⟩, 2⟩ := by
    rw [step, Op.call, catalogAddEntry, if_neg (by decide)]
    simp only
    rw [if_pos (by decide)]
    rfl
  refine ⟨oneEntry_parsed, @run_amortised _ textDoubles _
    [.load (.ok (.array [.object []]) [0]) oneEntry ⟨some 1, fun _ => true⟩,
    .add (readEntry textDoubles (.object [])) true]
    ⟨fun _ _ _ => ⟨Or.inl rfl, Or.inl rfl⟩, fun _ _ => ⟨trivial, fun _ _ => trivial⟩⟩ _
    (List.prefix_refl _) ?_⟩
  rw [run, hload, Option.bind_some, run, hadd]
  rfl

/-- Two entries are loaded, and there is room for 32. -/
theorem twoEntries_grow :
    Parses textDoubles.convert twoEntries.memory (.ok (.array [.object [], .object []]) [0]) ∧
      ∃ s, run textDoubles ⟨catalogCreate, 0⟩
        [.load (.ok (.array [.object [], .object []]) [0]) twoEntries ⟨some 1, fun _ => true⟩] =
          some s ∧ ¬ Amortised s := by
  have hload : loadEntries textDoubles (fun _ => true) 0 [.object [], .object []]
      ⟨[], 0, some ⟨1, twoEntries⟩, 7⟩ =
      .returned true (Catalog.push ⟨[readEntry textDoubles (.object [])], 32,
        some ⟨1, twoEntries⟩, 7⟩ (readEntry textDoubles (.object []))) := by
    rw [loadEntries_served rfl, if_pos (by decide), loadEntries_served rfl, if_pos (by decide)]
    rfl
  refine ⟨twoEntries_parsed,
    ⟨Catalog.push ⟨[readEntry textDoubles (.object [])], 32, some ⟨1, twoEntries⟩, 7⟩
    (readEntry textDoubles (.object [])), 2⟩, ?_, fun h => ?_⟩
  · rw [run, step, Op.call, catalogLoadFromString]
    simp only
    rw [show twoEntries.bytes.length = 7 from rfl, catalogCreate, hload]
    rfl
  · have hcap : 32 ≤ max 16 (2 * 2) := h.2.1
    exact absurd hcap (by decide)

end MovieCatalog
