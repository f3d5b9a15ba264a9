import Mathlib.Data.List.Nodup
import Mathlib.Data.List.Perm.Subperm

/-!
# The nearest of a sequence of candidates

A short list is kept in increasing order of a key. A candidate goes in front of the first entry
with a larger key, unless an entry in front has its own; what does not fit falls off at the end.
-/

namespace NearestFirst

variable {α : Type}

/-- Where a candidate goes: an entry that is the same, or the place of a new one. -/
inductive Spot where
  | found (i : Nat)
  | free (i : Nat)
  deriving DecidableEq

def Spot.next : Spot → Spot
  | .found i => .found (i + 1)
  | .free i => .free (i + 1)

def spot (same behind : α → Bool) : List α → Spot
  | [] => .free 0
  | x :: xs => if same x then .found 0 else if behind x then .free 0 else (spot same behind xs).next

/-- A new entry at the index `i`, in at most `limit` of them. -/
def putAt (limit i : Nat) (a : α) (xs : List α) : List α := (xs.take i ++ a :: xs.drop i).take limit

variable (key : α → Nat)

def Sorted (xs : List α) : Prop := xs.Pairwise (fun x y => key x < key y)

variable {key} {limit : Nat} {xs ys : List α} {a : α}

theorem spot_found {same behind : α → Bool} {i : Nat} (h : spot same behind xs = .found i) :
    ∃ x, xs[i]? = some x ∧ same x = true := by
  induction xs generalizing i with
  | nil => simp [spot] at h
  | cons x xs ih =>
    simp only [spot] at h
    split at h
    · next hsame =>
      obtain rfl : 0 = i := by simpa using h
      exact ⟨x, rfl, hsame⟩
    split at h
    · simp at h
    cases hrest : spot same behind xs with
    | found j =>
      obtain rfl : j + 1 = i := by simpa [hrest, Spot.next] using h
      simpa using ih hrest
    | free j => simp [hrest, Spot.next] at h

/-- In front of the free place are the smaller keys, behind it the larger ones. -/
theorem spot_free (hsorted : Sorted key xs) {i : Nat}
    (h : spot (fun x => key x == key a) (fun x => key a < key x) xs = .free i) :
    i ≤ xs.length ∧ (∀ x ∈ xs.take i, key x < key a) ∧ ∀ x ∈ xs.drop i, key a < key x := by
  induction xs generalizing i with
  | nil =>
    obtain rfl : 0 = i := by simpa [spot] using h
    simp
  | cons x xs ih =>
    obtain ⟨hx, htail⟩ := List.pairwise_cons.mp hsorted
    simp only [spot, beq_iff_eq, decide_eq_true_eq] at h
    split at h
    · simp at h
    · next hne =>
      split at h
      · next hlt =>
        obtain rfl : 0 = i := by simpa using h
        refine ⟨Nat.zero_le _, by simp, ?_⟩
        intro y hy
        rcases List.mem_cons.mp hy with rfl | hy
        · exact hlt
        · exact Nat.lt_trans hlt (hx y hy)
      · next hge =>
        cases hrest : spot (fun x => key x == key a) (fun x => decide (key a < key x)) xs with
        | found j => simp [hrest, Spot.next] at h
        | free j =>
          obtain rfl : j + 1 = i := by simpa [hrest, Spot.next] using h
          obtain ⟨hle, hfront, hback⟩ := ih htail hrest
          refine ⟨by simpa using hle, ?_, by simpa using hback⟩
          intro y hy
          rcases List.mem_cons.mp (by simpa using hy) with rfl | hy
          · omega
          · exact hfront y hy

theorem length_putAt_le (limit i : Nat) (a : α) (xs : List α) :
    (putAt limit i a xs).length ≤ limit :=
  List.length_take_le _ _

theorem mem_putAt {i : Nat} {x : α} (h : x ∈ putAt limit i a xs) : x = a ∨ x ∈ xs := by
  rcases List.mem_append.mp (List.mem_of_mem_take h) with h | h
  · exact Or.inr (List.mem_of_mem_take h)
  · rcases List.mem_cons.mp h with h | h
    · exact Or.inl h
    · exact Or.inr (List.mem_of_mem_drop h)

theorem sorted_putAt {i : Nat} (hsorted : Sorted key xs) (hfront : ∀ x ∈ xs.take i, key x < key a)
    (hback : ∀ x ∈ xs.drop i, key a < key x) : Sorted key (putAt limit i a xs) := by
  have hsplit : Sorted key (xs.take i ++ xs.drop i) := by rwa [List.take_append_drop]
  obtain ⟨h1, h2, h3⟩ := List.pairwise_append.mp hsplit
  apply List.Pairwise.sublist (List.take_sublist _ _)
  refine List.pairwise_append.mpr ⟨h1, List.pairwise_cons.mpr ⟨hback, h2⟩, ?_⟩
  intro x hx y hy
  rcases List.mem_cons.mp hy with rfl | hy
  · exact hfront x hx
  · exact h3 x hx y hy

theorem putAt_eq {i : Nat} (hi : i < limit) (hle : i ≤ xs.length) (a : α) :
    putAt limit i a xs = xs.take i ++ a :: (xs.drop i).take (limit - i - 1) := by
  have hlength : (xs.take i).length = i := by
    rw [List.length_take]
    omega
  rw [putAt, List.take_append, List.take_of_length_le (by omega), hlength,
    show limit - i = limit - i - 1 + 1 by omega, List.take_succ_cons]
  rfl

theorem length_putAt (limit : Nat) {i : Nat} (hle : i ≤ xs.length) (a : α) :
    (putAt limit i a xs).length = min limit (xs.length + 1) := by
  simp only [putAt, List.length_take, List.length_append, List.length_cons, List.length_drop]
  omega

/-- What a new entry pushes out of the list was behind all that stays. -/
theorem putAt_out {i : Nat} {x : α} (hsorted : Sorted key xs) (hi : i < limit) (hle : i ≤ xs.length)
    (hroom : xs.length ≤ limit) (hback : ∀ x ∈ xs.drop i, key a < key x) (hx : x ∈ xs)
    (hout : x ∉ putAt limit i a xs) :
    xs.length = limit ∧ ∀ z ∈ putAt limit i a xs, key z < key x := by
  rw [putAt_eq hi hle] at hout ⊢
  have hdrop : x ∈ xs.drop i := by
    rw [← List.take_append_drop i xs] at hx
    rcases List.mem_append.mp hx with hx | hx
    · exact absurd (List.mem_append_left _ hx) hout
    · exact hx
  have hlast : x ∈ (xs.drop i).drop (limit - i - 1) := by
    have hx := hdrop
    rw [← List.take_append_drop (limit - i - 1) (xs.drop i)] at hx
    rcases List.mem_append.mp hx with hx | hx
    · exact absurd (List.mem_append_right _ (List.mem_cons_of_mem _ hx)) hout
    · exact hx
  have hlong := List.length_pos_of_mem hlast
  rw [List.length_drop, List.length_drop] at hlong
  refine ⟨by omega, ?_⟩
  rw [← List.take_append_drop i xs, ← List.take_append_drop (limit - i - 1) (xs.drop i)] at hsorted
  obtain ⟨_, hdrops, hcross⟩ := List.pairwise_append.mp hsorted
  intro z hz
  rcases List.mem_append.mp hz with hz | hz
  · exact hcross z hz x (List.mem_append_right _ hlast)
  rcases List.mem_cons.mp hz with rfl | hz
  · exact hback x hdrop
  · exact (List.pairwise_append.mp hdrops).2.2 z hz x hlast

/-- One candidate of a fixed key. -/
def insert (key : α → Nat) (limit : Nat) (xs : List α) (a : α) : List α :=
  match spot (fun x => key x == key a) (fun x => key a < key x) xs with
  | .found _ => xs
  | .free i => if i = limit then xs else putAt limit i a xs

/-- `xs` is what is left of the candidates `ys`: the nearest of them. -/
structure Nearest (key : α → Nat) (limit : Nat) (ys xs : List α) : Prop where
  sorted : Sorted key xs
  room : xs.length ≤ limit
  among : ∀ x ∈ xs, x ∈ ys
  best : ∀ y ∈ ys, (∃ x ∈ xs, key x = key y) ∨ (xs.length = limit ∧ ∀ x ∈ xs, key x < key y)

theorem Nearest.nil (key : α → Nat) (limit : Nat) : Nearest key limit [] [] :=
  ⟨List.Pairwise.nil, Nat.zero_le _, by simp, by simp⟩

/-- A further candidate, when the list is as good without it. -/
theorem Nearest.skip (h : Nearest key limit ys xs)
    (ha : (∃ x ∈ xs, key x = key a) ∨ (xs.length = limit ∧ ∀ x ∈ xs, key x < key a)) :
    Nearest key limit (ys ++ [a]) xs := by
  refine ⟨h.sorted, h.room, fun y hy => List.mem_append_left _ (h.among y hy), ?_⟩
  intro y hy
  rcases List.mem_append.mp hy with hy | hy
  · exact h.best y hy
  · obtain rfl := List.mem_singleton.mp hy
    exact ha

theorem Nearest.put (h : Nearest key limit ys xs) {i : Nat} (hi : i < limit) (hle : i ≤ xs.length)
    (hfront : ∀ x ∈ xs.take i, key x < key a) (hback : ∀ x ∈ xs.drop i, key a < key x) :
    Nearest key limit (ys ++ [a]) (putAt limit i a xs) := by
  have hroom := h.room
  have hlength := length_putAt limit hle a
  have hmem : a ∈ putAt limit i a xs := by
    rw [putAt_eq hi hle]
    exact List.mem_append_right _ (List.mem_cons_self ..)
  refine ⟨sorted_putAt h.sorted hfront hback, length_putAt_le _ _ _ _, ?_, ?_⟩
  · intro x hx
    rcases mem_putAt hx with rfl | hx
    · exact List.mem_append_right _ (List.mem_singleton_self _)
    · exact List.mem_append_left _ (h.among x hx)
  intro y hy
  rcases List.mem_append.mp hy with hy | hy
  case inr =>
    obtain rfl := List.mem_singleton.mp hy
    exact Or.inl ⟨_, hmem, rfl⟩
  rcases h.best y hy with ⟨x, hx, hkey⟩ | ⟨hfull, hlt⟩
  · by_cases hkept : x ∈ putAt limit i a xs
    · exact Or.inl ⟨x, hkept, hkey⟩
    · obtain ⟨hfull, hbefore⟩ := putAt_out h.sorted hi hle hroom hback hx hkept
      rw [← hkey]
      exact Or.inr ⟨by omega, hbefore⟩
  · right
    refine ⟨by omega, ?_⟩
    intro x hx
    rcases mem_putAt hx with rfl | hx
    · -- as the list is full, the candidate is in front of an entry
      have hne : xs.drop i ≠ [] := by
        apply List.ne_nil_of_length_pos
        rw [List.length_drop]
        omega
      obtain ⟨z, hz⟩ := List.exists_mem_of_ne_nil _ hne
      exact Nat.lt_trans (hback z hz) (hlt z (List.mem_of_mem_drop hz))
    · exact hlt x hx

theorem Nearest.insert (h : Nearest key limit ys xs) (a : α) :
    Nearest key limit (ys ++ [a]) (insert key limit xs a) := by
  unfold NearestFirst.insert
  cases hspot : spot (fun x => key x == key a) (fun x => decide (key a < key x)) xs with
  | found i =>
    obtain ⟨x, hx, hsame⟩ := spot_found hspot
    exact h.skip (Or.inl ⟨x, List.mem_of_getElem? hx, by simpa using hsame⟩)
  | free i =>
    obtain ⟨hle, hfront, hback⟩ := spot_free h.sorted hspot
    have hroom := h.room
    dsimp only
    split
    · next hfull =>
      rw [List.take_of_length_le (by omega)] at hfront
      exact h.skip (Or.inr ⟨by omega, hfront⟩)
    · exact h.put (by omega) hle hfront hback

theorem Nearest.foldl (h : Nearest key limit ys xs) (zs : List α) :
    Nearest key limit (ys ++ zs) (zs.foldl (NearestFirst.insert key limit) xs) := by
  induction zs generalizing ys xs with
  | nil => simpa using h
  | cons z zs ih =>
    have := ih (h.insert z)
    rwa [List.append_assoc, List.singleton_append] at this

/-- Candidates beyond a bound change nothing when enough others are below it. -/
theorem Nearest.widen (h : Nearest key limit ys xs) {zs : List α} (ws : List α) (bound : Nat)
    (hsub : ∀ y ∈ ys, y ∈ zs) (hfar : ∀ z ∈ zs, z ∈ ys ∨ bound ≤ key z)
    (hbelow : ∀ y ∈ ws, y ∈ ys ∧ key y < bound) (hdistinct : (ws.map key).Nodup)
    (henough : limit ≤ ws.length) : Nearest key limit zs xs := by
  have hcount : (∀ y ∈ ys, key y < bound → ∃ x ∈ xs, key x = key y) →
      limit ≤ (xs.filter (fun x => key x < bound)).length := by
    intro hall
    refine Nat.le_trans henough ?_
    have hsubset : ws.map key ⊆ (xs.filter (fun x => key x < bound)).map key := by
      intro k hk
      obtain ⟨y, hy, rfl⟩ := List.mem_map.mp hk
      obtain ⟨hy, hlt⟩ := hbelow y hy
      obtain ⟨x, hx, hkey⟩ := hall y hy hlt
      exact List.mem_map.mpr ⟨x, List.mem_filter.mpr ⟨hx, by simpa [hkey] using hlt⟩, hkey⟩
    have := (List.subperm_of_subset hdistinct hsubset).length_le
    simpa using this
  refine ⟨h.sorted, h.room, fun x hx => hsub x (h.among x hx), ?_⟩
  intro z hz
  rcases hfar z hz with hz | hbeyond
  · exact h.best z hz
  right
  have hbelow : ∀ x ∈ xs, key x < bound := by
    intro x hx
    by_contra hge
    have hfull := hcount (fun y hy hlt => by
      rcases h.best y hy with hin | ⟨_, hbehind⟩
      · exact hin
      · have := hbehind x hx
        omega)
    have hshorter : (xs.filter (fun x => key x < bound)).length < xs.length :=
      List.length_filter_lt_length_iff_exists.mpr ⟨x, hx, by simpa using hge⟩
    have := h.room
    omega
  refine ⟨?_, fun x hx => Nat.lt_of_lt_of_le (hbelow x hx) hbeyond⟩
  by_contra hshort
  have hfull := hcount (fun y hy _ => by
    rcases h.best y hy with hin | ⟨hlen, _⟩
    · exact hin
    · exact absurd hlen hshort)
  have := List.length_filter_le (fun x => decide (key x < bound)) xs
  have := h.room
  omega

end NearestFirst
