import Mathlib.Data.Finset.Card
import Mathlib.Data.List.Count
import Mathlib.Logic.Function.Basic

/-!
# Open addressing with tombstones

A table of `cap` slots probed linearly from the hash of a key. A removed key leaves a
dead slot behind, so that the keys placed after it are still found; a new key takes the
first slot on its path that is not in use. The table says how many times a key is stored,
and the operations are specified by that number.
-/

namespace ProbeTable

inductive SlotState where
  | empty
  | used
  | dead
  deriving DecidableEq, Repr

structure Slot (K : Type) where
  state : SlotState
  key : K

/-- The slots and the number of dead slots. -/
structure Index (K : Type) where
  slots : Nat → Slot K
  tombstones : Nat

section Operations

variable {K : Type} [DecidableEq K]

def place (cap home probe : Nat) : Nat := (home + probe) % cap

def Holds (slots : Nat → Slot K) (k : K) (j : Nat) : Prop :=
  (slots j).state = .used ∧ (slots j).key = k

instance (slots : Nat → Slot K) (k : K) (j : Nat) : Decidable (Holds slots k j) :=
  inferInstanceAs (Decidable (_ ∧ _))

/-- The first slot on the path that holds the key, before any empty slot. -/
def findFrom (cap : Nat) (slots : Nat → Slot K) (home : Nat) (k : K) : Nat → Nat → Option Nat
  | 0, _ => none
  | fuel + 1, probe =>
    let slot := place cap home probe
    if (slots slot).state = .empty then none
    else if Holds slots k slot then some slot
    else findFrom cap slots home k fuel (probe + 1)

/-- The first slot on the path that is not in use. -/
def freeFrom (cap : Nat) (slots : Nat → Slot K) (home : Nat) : Nat → Nat → Option Nat
  | 0, _ => none
  | fuel + 1, probe =>
    let slot := place cap home probe
    if (slots slot).state ≠ .used then some slot else freeFrom cap slots home fuel (probe + 1)

variable (cap : Nat) (hash : K → Nat)

def Index.contains (x : Index K) (k : K) : Bool := (findFrom cap x.slots (hash k) k cap 0).isSome

def Index.add (x : Index K) (k : K) : Index K :=
  match freeFrom cap x.slots (hash k) cap 0 with
  | none => x
  | some j =>
    { slots := Function.update x.slots j ⟨.used, k⟩
      tombstones :=
        if (x.slots j).state = .dead ∧ x.tombstones ≠ 0 then x.tombstones - 1 else x.tombstones }

def Index.remove (x : Index K) (k : K) : Index K :=
  match findFrom cap x.slots (hash k) k cap 0 with
  | none => x
  | some j =>
    { slots := Function.update x.slots j { x.slots j with state := .dead }
      tombstones := x.tombstones + 1 }

/-- The table of zeros; `k` is the key all its slots show. -/
def Index.zeroed (k : K) : Index K := ⟨fun _ => ⟨.empty, k⟩, 0⟩

def holders (x : Index K) (k : K) : Finset Nat := (Finset.range cap).filter (Holds x.slots k)

def inState (x : Index K) (st : SlotState) : Finset Nat :=
  (Finset.range cap).filter (fun j => (x.slots j).state = st)

/-- How many slots in use hold the key. -/
def Index.count (x : Index K) (k : K) : Nat := (holders cap x k).card

/-- How many slots are in use. -/
def Index.load (x : Index K) : Nat := (inState cap x .used).card

/-- Every slot in use is reached from the hash of its key over slots that are not empty,
and the tombstones are counted. -/
structure Index.Sound (x : Index K) : Prop where
  reached : ∀ j, j < cap → (x.slots j).state = .used → ∃ d, d < cap ∧
    j = place cap (hash (x.slots j).key) d ∧
    ∀ e, e < d → (x.slots (place cap (hash (x.slots j).key) e)).state ≠ .empty
  tombstones : x.tombstones = (inState cap x .dead).card

end Operations

section Searches

variable {K : Type} [DecidableEq K] {cap home : Nat} {slots : Nat → Slot K} {k : K}

theorem place_lt (pos : 0 < cap) (home probe : Nat) : place cap home probe < cap :=
  Nat.mod_lt _ pos

/-- A path of `cap` steps visits every slot. -/
theorem exists_place {j : Nat} (h : j < cap) (home : Nat) :
    ∃ d, d < cap ∧ place cap home d = j := by
  have hpos : 0 < cap := by omega
  have hlt : home % cap < cap := Nat.mod_lt _ hpos
  refine ⟨(j + (cap - home % cap)) % cap, Nat.mod_lt _ hpos, ?_⟩
  rw [place, Nat.add_mod_mod, ← Nat.mod_add_mod, show home % cap + (j + (cap - home % cap)) =
    j + cap by omega, Nat.add_mod_right, Nat.mod_eq_of_lt h]

theorem findFrom_some {fuel probe j : Nat} (h : findFrom cap slots home k fuel probe = some j) :
    Holds slots k j ∧ ∃ d, j = place cap home d := by
  induction fuel generalizing probe with
  | zero => cases h
  | succ fuel ih =>
    simp only [findFrom] at h
    split at h
    · cases h
    · split at h
      · next hholds =>
        cases h
        exact ⟨hholds, probe, rfl⟩
      · exact ih h

/-- A key that is reached over slots that are not empty is found. -/
theorem findFrom_isSome {fuel probe d : Nat} (lo : probe ≤ d) (hi : d < probe + fuel)
    (path : ∀ e, e < d → (slots (place cap home e)).state ≠ .empty)
    (holds : Holds slots k (place cap home d)) :
    (findFrom cap slots home k fuel probe).isSome = true := by
  induction fuel generalizing probe with
  | zero => omega
  | succ fuel ih =>
    have hne : (slots (place cap home probe)).state ≠ .empty := by
      by_cases heq : probe = d
      · rw [heq, holds.1]
        decide
      · exact path probe (by omega)
    simp only [findFrom, if_neg hne]
    by_cases hhere : Holds slots k (place cap home probe)
    · rw [if_pos hhere]
      rfl
    · rw [if_neg hhere]
      have hlt : probe ≠ d := by
        rintro rfl
        exact hhere holds
      exact ih (by omega) (by omega)

omit [DecidableEq K] in
theorem freeFrom_some {fuel probe j : Nat} (h : freeFrom cap slots home fuel probe = some j) :
    (slots j).state ≠ .used ∧ ∃ d, d < probe + fuel ∧ j = place cap home d ∧
      ∀ e, probe ≤ e → e < d → (slots (place cap home e)).state = .used := by
  induction fuel generalizing probe with
  | zero => cases h
  | succ fuel ih =>
    simp only [freeFrom] at h
    split at h
    · next hfree =>
      cases h
      exact ⟨hfree, probe, by omega, rfl, fun e hlo hhi => by omega⟩
    · next hused =>
      obtain ⟨hfree, d, hd, hj, hpath⟩ := ih h
      refine ⟨hfree, d, by omega, hj, ?_⟩
      intro e hlo hhi
      by_cases heq : e = probe
      · rw [heq]
        simpa using hused
      · exact hpath e (by omega) hhi

omit [DecidableEq K] in
theorem freeFrom_none {fuel probe : Nat} (h : freeFrom cap slots home fuel probe = none) :
    ∀ e, probe ≤ e → e < probe + fuel → (slots (place cap home e)).state = .used := by
  induction fuel generalizing probe with
  | zero => intro e hlo hhi; omega
  | succ fuel ih =>
    simp only [freeFrom] at h
    split at h
    · cases h
    · next hused =>
      intro e hlo hhi
      by_cases heq : e = probe
      · rw [heq]
        simpa using hused
      · exact ih h e (by omega) (by omega)

end Searches

section Specs

variable {K : Type} [DecidableEq K] {cap : Nat} {hash : K → Nat} {x : Index K} {k : K}

theorem mem_holders {j : Nat} : j ∈ holders cap x k ↔ j < cap ∧ Holds x.slots k j := by
  simp [holders]

omit [DecidableEq K] in
theorem mem_inState {st : SlotState} {j : Nat} :
    j ∈ inState cap x st ↔ j < cap ∧ (x.slots j).state = st := by
  simp [inState]

omit [DecidableEq K] in
theorem sound_zeroed (cap : Nat) (hash : K → Nat) (k : K) : (Index.zeroed k).Sound cap hash := by
  constructor
  · intro j _ hused
    cases hused
  · simp [inState, Index.zeroed]

omit [DecidableEq K] in
theorem load_zeroed (k : K) : (Index.zeroed k).load cap = 0 := by
  simp [Index.load, inState, Index.zeroed]

theorem count_zeroed (k k' : K) : (Index.zeroed k).count cap k' = 0 := by
  rw [Index.count, Finset.card_eq_zero, Finset.eq_empty_iff_forall_notMem]
  intro j hj
  cases (mem_holders.mp hj).2.1

/-- The search goes exactly by what is in the table. -/
theorem Index.Sound.contains_iff (h : x.Sound cap hash) (pos : 0 < cap) :
    x.contains cap hash k = true ↔ 0 < x.count cap k := by
  rw [Index.count, Finset.card_pos]
  constructor
  · intro hfound
    obtain ⟨j, hj⟩ := Option.isSome_iff_exists.mp hfound
    obtain ⟨hholds, d, rfl⟩ := findFrom_some hj
    exact ⟨_, mem_holders.mpr ⟨place_lt pos _ _, hholds⟩⟩
  · rintro ⟨j, hj⟩
    obtain ⟨hlt, hused, hkey⟩ := mem_holders.mp hj
    obtain ⟨d, hd, hplace, hpath⟩ := h.reached j hlt hused
    rw [hkey] at hplace hpath
    apply findFrom_isSome (Nat.zero_le d) (by omega) hpath
    rw [← hplace]
    exact ⟨hused, hkey⟩

omit [DecidableEq K] in
/-- A table that is not full has a free slot on every path. -/
theorem exists_free (room : x.load cap < cap) (home : Nat) :
    ∃ j d, freeFrom cap x.slots home cap 0 = some j ∧ j < cap ∧ (x.slots j).state ≠ .used ∧
      d < cap ∧ j = place cap home d ∧ ∀ e, e < d → (x.slots (place cap home e)).state = .used := by
  cases hfree : freeFrom cap x.slots home cap 0 with
  | none =>
    have hall : inState cap x .used = Finset.range cap := by
      ext j
      rw [mem_inState, Finset.mem_range]
      constructor
      · exact fun hj => hj.1
      · intro hj
        obtain ⟨d, hd, rfl⟩ := exists_place hj home
        exact ⟨hj, freeFrom_none hfree d (by omega) (by omega)⟩
    rw [Index.load, hall, Finset.card_range] at room
    omega
  | some j =>
    obtain ⟨hstate, d, hd, hj, hpath⟩ := freeFrom_some hfree
    refine ⟨j, d, rfl, ?_, hstate, by omega, hj, fun e he => hpath e (by omega) he⟩
    rw [hj]
    exact place_lt (by omega) _ _

omit [DecidableEq K] in
/-- One slot changes its state; the counts of the states go with it. -/
theorem inState_update {slot : Slot K} {tombstones j : Nat} (hj : j < cap) (st : SlotState) :
    inState cap ⟨Function.update x.slots j slot, tombstones⟩ st =
      if slot.state = st then insert j (inState cap x st) else (inState cap x st).erase j := by
  ext i
  rw [mem_inState]
  by_cases hij : i = j
  · subst hij
    split
    · next heq => simp [hj, heq]
    · next hne => simp [hne]
  · split
    · simp [hij, mem_inState]
    · simp [hij, mem_inState]

theorem holders_update {slot : Slot K} {tombstones j : Nat} (hj : j < cap) (k : K) :
    holders cap ⟨Function.update x.slots j slot, tombstones⟩ k =
      if slot.state = .used ∧ slot.key = k then insert j (holders cap x k)
      else (holders cap x k).erase j := by
  ext i
  rw [mem_holders]
  by_cases hij : i = j
  · subst hij
    split
    · next hnew => simp [Holds, hj, hnew]
    · next hnew => simpa [Holds, hj] using hnew
  · split
    · simp [Holds, hij, mem_holders]
    · simp [Holds, hij, mem_holders]

/-- A slot that was empty is not on a path, and one that is filled stays on it. -/
theorem Index.Sound.add (h : x.Sound cap hash) (room : x.load cap < cap) (k : K) :
    (x.add cap hash k).Sound cap hash ∧ (x.add cap hash k).load cap = x.load cap + 1 ∧
      ∀ k', (x.add cap hash k).count cap k' = x.count cap k' + if k' = k then 1 else 0 := by
  obtain ⟨j, d, hfree, hj, hstate, hd, hplace, hpath⟩ := exists_free room (hash k)
  have hadd : x.add cap hash k = ⟨Function.update x.slots j ⟨.used, k⟩,
      if (x.slots j).state = .dead ∧ x.tombstones ≠ 0 then x.tombstones - 1 else x.tombstones⟩ := by
    simp only [Index.add, hfree]
  have hnew : j ∉ inState cap x .used := fun hmem => hstate (mem_inState.mp hmem).2
  rw [hadd]
  refine ⟨⟨?_, ?_⟩, ?_, ?_⟩
  · have mono : ∀ i, (x.slots i).state ≠ .empty →
        (Function.update x.slots j ⟨.used, k⟩ i).state ≠ .empty := by
      intro i hi
      by_cases hij : i = j
      · simp [hij]
      · simpa [hij] using hi
    intro i hi hused
    by_cases hij : i = j
    · subst hij
      simp only [Function.update_self]
      refine ⟨d, hd, hplace, ?_⟩
      intro e he
      apply mono
      rw [hpath e he]
      decide
    · simp only [Function.update_of_ne hij] at hused ⊢
      obtain ⟨d', hd', hi', hpath'⟩ := h.reached i hi hused
      exact ⟨d', hd', hi', fun e he => mono _ (hpath' e he)⟩
  · have hother : ¬ SlotState.used = .dead := by decide
    simp only [inState_update hj, if_neg hother]
    by_cases hdead : (x.slots j).state = .dead
    · have hmem : j ∈ inState cap x .dead := mem_inState.mpr ⟨hj, hdead⟩
      have hpos : 0 < (inState cap x .dead).card := Finset.card_pos.mpr ⟨j, hmem⟩
      have hcounted : x.tombstones ≠ 0 := by
        rw [h.tombstones]
        omega
      rw [if_pos ⟨hdead, hcounted⟩, Finset.card_erase_of_mem hmem, h.tombstones]
    · have hmem : j ∉ inState cap x .dead := fun hm => hdead (mem_inState.mp hm).2
      rw [if_neg (fun hand => hdead hand.1), Finset.erase_eq_of_notMem hmem, h.tombstones]
  · rw [Index.load, inState_update hj, if_pos rfl, Finset.card_insert_of_notMem hnew, Index.load]
  · intro k'
    have hnot : j ∉ holders cap x k' := fun hm => hstate (mem_holders.mp hm).2.1
    rw [Index.count, Index.count, holders_update hj]
    by_cases heq : k' = k
    · rw [if_pos ⟨rfl, heq.symm⟩, if_pos heq, Finset.card_insert_of_notMem hnot]
    · rw [if_neg (fun hand => heq hand.2.symm), if_neg heq, Finset.erase_eq_of_notMem hnot]
      rfl

omit [DecidableEq K] in
/-- A key goes into a slot that is not in use. -/
theorem Index.add_stores (room : x.load cap < cap) (k : K) :
    ∃ j, j < cap ∧ (x.slots j).state ≠ .used ∧ (x.add cap hash k).slots =
      Function.update x.slots j ⟨.used, k⟩ := by
  obtain ⟨j, d, hfree, hj, hstate, -⟩ := exists_free room (hash k)
  refine ⟨j, hj, hstate, ?_⟩
  simp only [Index.add, hfree]

omit [DecidableEq K] in
theorem Index.tombstones_add_le (k : K) : (x.add cap hash k).tombstones ≤ x.tombstones := by
  rw [Index.add]
  split
  · exact Nat.le_refl _
  · show (if _ then _ else _) ≤ x.tombstones
    split
    · exact Nat.sub_le _ _
    · exact Nat.le_refl _

/-- A key that is stored has a slot. -/
theorem Index.load_pos (stored : 0 < x.count cap k) : 0 < x.load cap := by
  obtain ⟨j, hj⟩ := Finset.card_pos.mp stored
  obtain ⟨hlt, hholds⟩ := mem_holders.mp hj
  exact Finset.card_pos.mpr ⟨j, mem_inState.mpr ⟨hlt, hholds.1⟩⟩

theorem Index.tombstones_remove_le (k : K) :
    (x.remove cap hash k).tombstones ≤ x.tombstones + 1 := by
  rw [Index.remove]
  split
  · exact Nat.le_succ _
  · exact Nat.le_refl _

theorem Index.Sound.remove (h : x.Sound cap hash) (pos : 0 < cap) (stored : 0 < x.count cap k) :
    (x.remove cap hash k).Sound cap hash ∧ (x.remove cap hash k).load cap = x.load cap - 1 ∧
      ∀ k', (x.remove cap hash k).count cap k' = x.count cap k' - if k' = k then 1 else 0 := by
  obtain ⟨j, hfind⟩ := Option.isSome_iff_exists.mp ((h.contains_iff pos).mpr stored)
  obtain ⟨⟨hused, hkey⟩, d, hplace⟩ := findFrom_some hfind
  have hj : j < cap := by
    rw [hplace]
    exact place_lt pos _ _
  have hremove : x.remove cap hash k =
      ⟨Function.update x.slots j { x.slots j with state := .dead }, x.tombstones + 1⟩ := by
    simp only [Index.remove, hfind]
  have hdead : ¬ SlotState.dead = .used := by decide
  rw [hremove]
  refine ⟨⟨?_, ?_⟩, ?_, ?_⟩
  · intro i hi hstill
    by_cases hij : i = j
    · subst hij
      simp at hstill
    · simp only [Function.update_of_ne hij] at hstill ⊢
      obtain ⟨d', hd', hi', hpath'⟩ := h.reached i hi hstill
      refine ⟨d', hd', hi', ?_⟩
      intro e he
      by_cases hej : place cap (hash (x.slots i).key) e = j
      · simp [hej]
      · rw [Function.update_of_ne hej]
        exact hpath' e he
  · have hmem : j ∉ inState cap x .dead := by
      intro hm
      rw [(mem_inState.mp hm).2] at hused
      cases hused
    rw [inState_update hj, if_pos rfl, Finset.card_insert_of_notMem hmem, ← h.tombstones]
  · rw [Index.load, inState_update hj, if_neg hdead,
      Finset.card_erase_of_mem (mem_inState.mpr ⟨hj, hused⟩), Index.load]
  · intro k'
    rw [Index.count, Index.count, holders_update hj, if_neg (fun hand => hdead hand.1)]
    by_cases heq : k' = k
    · have hmem : j ∈ holders cap x k' := mem_holders.mpr ⟨hj, hused, hkey.trans heq.symm⟩
      rw [if_pos heq, Finset.card_erase_of_mem hmem]
    · have hmem : j ∉ holders cap x k' := by
        intro hm
        exact heq ((mem_holders.mp hm).2.2.symm.trans hkey)
      rw [if_neg heq, Finset.erase_eq_of_notMem hmem]
      rfl

omit [DecidableEq K] in
/-- A key whose first place is empty goes there. -/
theorem Index.add_home (pos : 0 < cap) (free : (x.slots (hash k % cap)).state = .empty) :
    x.add cap hash k = ⟨Function.update x.slots (hash k % cap) ⟨.used, k⟩, x.tombstones⟩ := by
  have hfree : freeFrom cap x.slots (hash k) cap 0 = some (hash k % cap) := by
    obtain ⟨n, rfl⟩ : ∃ n, cap = n + 1 := ⟨cap - 1, by omega⟩
    rw [freeFrom]
    simp [place, free]
  simp [Index.add, hfree, free]

/-- A key in its first place is removed from there. -/
theorem Index.remove_home (pos : 0 < cap) (holds : Holds x.slots k (hash k % cap)) :
    x.remove cap hash k =
      ⟨Function.update x.slots (hash k % cap) { x.slots (hash k % cap) with state := .dead },
        x.tombstones + 1⟩ := by
  have hfind : findFrom cap x.slots (hash k) k cap 0 = some (hash k % cap) := by
    obtain ⟨n, rfl⟩ : ∃ n, cap = n + 1 := ⟨cap - 1, by omega⟩
    rw [findFrom]
    simp [place, holds, holds.1]
  simp [Index.remove, hfind]

/-- A table filled from the empty one counts like the list it was filled with. -/
theorem addAll_spec (keys : List K) (h : x.Sound cap hash) (room : x.load cap + keys.length ≤ cap) :
    (keys.foldl (Index.add cap hash) x).Sound cap hash ∧
      (keys.foldl (Index.add cap hash) x).load cap = x.load cap + keys.length ∧
      ∀ k', (keys.foldl (Index.add cap hash) x).count cap k' = x.count cap k' + keys.count k' := by
  induction keys generalizing x with
  | nil => exact ⟨h, rfl, fun _ => rfl⟩
  | cons k keys ih =>
    rw [List.length_cons] at room
    obtain ⟨hsound, hload, hcount⟩ := h.add (by omega) k
    obtain ⟨hsound', hload', hcount'⟩ := ih hsound (by omega)
    refine ⟨hsound', ?_, ?_⟩
    · rw [List.foldl_cons, hload', hload, List.length_cons]
      omega
    · intro k'
      rw [List.foldl_cons, hcount', hcount, List.count_cons]
      by_cases heq : k' = k
      · simp [heq]
        omega
      · simp [heq, Ne.symm heq]

omit [DecidableEq K] in
theorem tombstones_addAll_le (keys : List K) (x : Index K) :
    (keys.foldl (Index.add cap hash) x).tombstones ≤ x.tombstones := by
  induction keys generalizing x with
  | nil => exact Nat.le_refl _
  | cons k keys ih => exact (ih _).trans (Index.tombstones_add_le k)

end Specs

end ProbeTable
