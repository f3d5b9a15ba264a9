import Mathlib.Data.List.Infix

/-!
# The first occurrence of a word

Where a word occurs first in a list, and how to find it in a list that is put together from fixed
pieces and data, when the word occurs in the fixed pieces alone.
-/

namespace Occurrence

variable {α : Type} {needle xs ys : List α} {p : Nat}

/-- A part of a list: fixed, or data. -/
inductive Piece (α : Type) where
  | lit (xs : List α)
  | data (xs : List α)

def Piece.whole : Piece α → List α
  | .lit xs => xs
  | .data xs => xs

def whole (ps : List (Piece α)) : List α := ps.flatMap Piece.whole

@[simp] theorem whole_nil : whole ([] : List (Piece α)) = [] := rfl

@[simp] theorem whole_lit (xs : List α) (ps : List (Piece α)) :
    whole (.lit xs :: ps) = xs ++ whole ps := rfl

@[simp] theorem whole_data (xs : List α) (ps : List (Piece α)) :
    whole (.data xs :: ps) = xs ++ whole ps := rfl

@[simp] theorem whole_append (ps qs : List (Piece α)) : whole (ps ++ qs) = whole ps ++ whole qs :=
  List.flatMap_append

/-- The word occurs in fixed pieces alone. -/
def Clear (needle : List α) (ps : List (Piece α)) : Prop :=
  ∀ k, needle <+: (whole ps).drop k → ∃ front xs back, ps = front ++ .lit xs :: back ∧
    (whole front).length ≤ k ∧ k + needle.length ≤ (whole front).length + xs.length

theorem Clear.tail (hne : needle ≠ []) {q : Piece α} {ps : List (Piece α)}
    (h : Clear needle (q :: ps)) : Clear needle ps := by
  intro k hk
  have hwhole : (whole (q :: ps)).drop (k + q.whole.length) = (whole ps).drop k := by
    rw [Nat.add_comm, ← List.drop_drop]
    congr 1
    exact List.drop_left
  obtain ⟨front, xs, back, heq, hle, hlast⟩ := h (k + q.whole.length) (by rwa [hwhole])
  have hpos := List.length_pos_iff.mpr hne
  cases front with
  | nil =>
    obtain ⟨rfl, rfl⟩ : q = .lit xs ∧ ps = back := by simpa using heq
    simp only [whole_nil, List.length_nil, Piece.whole] at hlast
    omega
  | cons r front =>
    obtain ⟨rfl, rfl⟩ : q = r ∧ ps = front ++ .lit xs :: back := by simpa using heq
    have hlength : (whole (q :: front)).length = q.whole.length + (whole front).length := by
      cases q <;> simp [Piece.whole]
    exact ⟨front, xs, back, rfl, by omega, by omega⟩

/-- The part of a length at a place is inside one fixed piece. -/
def inFixed : List (Piece α) → Nat → Nat → Bool
  | [], _, _ => false
  | .lit xs :: ps, k, n => if k < xs.length then k + n ≤ xs.length else inFixed ps (k - xs.length) n
  | .data xs :: ps, k, n => if k < xs.length then false else inFixed ps (k - xs.length) n

theorem inFixed_split {ps : List (Piece α)} {k n : Nat} (h : inFixed ps k n = true) :
    ∃ front xs back, ps = front ++ .lit xs :: back ∧ (whole front).length ≤ k ∧
      k + n ≤ (whole front).length + xs.length := by
  induction ps generalizing k with
  | nil => simp [inFixed] at h
  | cons q ps ih =>
    have hmore : ¬ k < q.whole.length → inFixed ps (k - q.whole.length) n = true → ∃ front xs back,
        q :: ps = front ++ .lit xs :: back ∧ (whole front).length ≤ k ∧
          k + n ≤ (whole front).length + xs.length := by
      intro hge hrest
      obtain ⟨front, ys, back, rfl, hle, hlast⟩ := ih hrest
      have hlength : (whole (q :: front)).length = q.whole.length + (whole front).length := by
        cases q <;> simp [Piece.whole]
      exact ⟨q :: front, ys, back, rfl, by omega, by omega⟩
    cases q with
    | lit xs =>
      rw [inFixed] at h
      split at h
      · next hlt => exact ⟨[], xs, ps, rfl, Nat.zero_le _, by simpa using h⟩
      · next hge => exact hmore hge h
    | data xs =>
      rw [inFixed] at h
      split at h
      · simp at h
      · next hge => exact hmore hge h

/-- Whether a word is clear can be computed. -/
theorem clear_of_inFixed [DecidableEq α] (hne : needle ≠ []) {ps : List (Piece α)}
    (h : ∀ k < (whole ps).length, needle.isPrefixOf ((whole ps).drop k) = true →
    inFixed ps k needle.length = true) : Clear needle ps := by
  intro k hk
  have hpos := List.length_pos_iff.mpr hne
  have hle := hk.length_le
  rw [List.length_drop] at hle
  exact inFixed_split (h k (by omega) (List.isPrefixOf_iff_prefix.mpr hk))

section Finding

variable [DecidableEq α]

def find (needle : List α) : List α → Option Nat
  | [] => if needle = [] then some 0 else none
  | x :: xs => if needle.isPrefixOf (x :: xs) then some 0 else (find needle xs).map (· + 1)

theorem find_occurs (h : find needle xs = some p) : needle <+: xs.drop p := by
  induction xs generalizing p with
  | nil =>
    simp only [find] at h
    split at h
    · next hnil => simp [hnil]
    · simp at h
  | cons x xs ih =>
    simp only [find] at h
    split at h
    · next hprefix =>
      obtain rfl : 0 = p := by simpa using h
      simpa using List.isPrefixOf_iff_prefix.mp hprefix
    · obtain ⟨q, hq, rfl⟩ := Option.map_eq_some_iff.mp h
      simpa using ih hq

theorem find_first (h : find needle xs = some p) {k : Nat} (hk : k < p) :
    ¬ needle <+: xs.drop k := by
  induction xs generalizing p k with
  | nil =>
    simp only [find] at h
    split at h
    · obtain rfl : 0 = p := by simpa using h
      omega
    · simp at h
  | cons x xs ih =>
    simp only [find] at h
    split at h
    · obtain rfl : 0 = p := by simpa using h
      omega
    · next hno =>
      obtain ⟨q, hq, rfl⟩ := Option.map_eq_some_iff.mp h
      cases k with
      | zero => simpa using fun hocc => hno (List.isPrefixOf_iff_prefix.mpr hocc)
      | succ k => simpa using ih hq (by omega)

theorem find_none (h : find needle xs = none) (k : Nat) : ¬ needle <+: xs.drop k := by
  induction xs generalizing k with
  | nil =>
    simp only [find] at h
    split at h
    · simp at h
    · next hne => simpa using hne
  | cons x xs ih =>
    simp only [find] at h
    split at h
    · simp at h
    · next hno =>
      have hrest : find needle xs = none := by simpa using h
      cases k with
      | zero => simpa using fun hocc => hno (List.isPrefixOf_iff_prefix.mpr hocc)
      | succ k => simpa using ih hrest k

theorem find_le (h : find needle xs = some p) : p + needle.length ≤ xs.length := by
  induction xs generalizing p with
  | nil =>
    simp only [find] at h
    split at h
    · next hnil =>
      obtain rfl : 0 = p := by simpa using h
      simp [hnil]
    · simp at h
  | cons x xs ih =>
    simp only [find] at h
    split at h
    · next hprefix =>
      obtain rfl : 0 = p := by simpa using h
      simpa using (List.isPrefixOf_iff_prefix.mp hprefix).length_le
    · obtain ⟨q, hq, rfl⟩ := Option.map_eq_some_iff.mp h
      have := ih hq
      simp only [List.length_cons]
      omega

/-- The word is where it occurs and nowhere in front. -/
theorem find_eq (hocc : needle <+: xs.drop p) (hfirst : ∀ k, k < p → ¬ needle <+: xs.drop k) :
    find needle xs = some p := by
  cases h : find needle xs with
  | none => exact absurd hocc (find_none h p)
  | some q =>
    obtain hlt | heq | hgt := Nat.lt_trichotomy q p
    · exact absurd (find_occurs h) (hfirst q hlt)
    · rw [heq]
    · exact absurd hocc (find_first h hgt)

theorem find_eq_none (hne : needle ≠ []) (h : ∀ k, k < xs.length → ¬ needle <+: xs.drop k) :
    find needle xs = none := by
  cases hfind : find needle xs with
  | none => rfl
  | some p =>
    have hle := find_le hfind
    have hpos := List.length_pos_iff.mpr hne
    exact absurd (find_occurs hfind) (h p (by omega))

/-- What is in front may be left out when the word does not start there. -/
theorem find_append (hne : needle ≠ []) (h : ∀ k, k < xs.length → ¬ needle <+: (xs ++ ys).drop k) :
    find needle (xs ++ ys) = (find needle ys).map (· + xs.length) := by
  have hdrop : ∀ k, (xs ++ ys).drop (k + xs.length) = ys.drop k := by
    intro k
    rw [Nat.add_comm, ← List.drop_drop, List.drop_left]
  cases hfind : find needle ys with
  | none =>
    refine find_eq_none hne fun k hk => ?_
    by_cases hlt : k < xs.length
    · exact h k hlt
    · have := find_none hfind (k - xs.length)
      rwa [← hdrop, Nat.sub_add_cancel (by omega)] at this
  | some p =>
    refine find_eq (p := p + xs.length) ?_ fun k hk => ?_
    · rw [hdrop]
      exact find_occurs hfind
    · by_cases hlt : k < xs.length
      · exact h k hlt
      · have := find_first hfind (k := k - xs.length) (by omega)
        rwa [← hdrop, Nat.sub_add_cancel (by omega)] at this

/-- What is behind the first occurrence in a fixed piece. -/
def after (needle : List α) : List (Piece α) → Option (List (Piece α))
  | [] => none
  | .data _ :: ps => after needle ps
  | .lit xs :: ps =>
    match find needle xs with
    | some p => some (.lit (xs.drop (p + needle.length)) :: ps)
    | none => after needle ps

/-- Where the word is in the whole list: in the first fixed piece that has it. -/
theorem find_whole (hne : needle ≠ []) {ps : List (Piece α)} (h : Clear needle ps) :
    match after needle ps with
    | none => find needle (whole ps) = none
    | some rest =>
      ∃ p, find needle (whole ps) = some p ∧ (whole ps).drop (p + needle.length) = whole rest := by
  have hpos := List.length_pos_iff.mpr hne
  -- in front of the rest of the pieces
  have hskip : ∀ (q : Piece α) (ps : List (Piece α)), (∀ k, k < q.whole.length →
      ¬ needle <+: (q.whole ++ whole ps).drop k) → find needle (q.whole ++ whole ps) =
        (find needle (whole ps)).map (· + q.whole.length) :=
    fun q ps hno => find_append hne hno
  have hmore : ∀ (q : Piece α) (ps : List (Piece α)), find needle (q.whole ++ whole ps) =
        (find needle (whole ps)).map (· + q.whole.length) → (match after needle ps with
      | none => find needle (whole ps) = none
      | some rest => ∃ p, find needle (whole ps) = some p ∧
          (whole ps).drop (p + needle.length) = whole rest) → match after needle ps with
      | none => find needle (q.whole ++ whole ps) = none
      | some rest => ∃ p, find needle (q.whole ++ whole ps) = some p ∧
          (q.whole ++ whole ps).drop (p + needle.length) = whole rest := by
    intro q ps heq hih
    split at hih
    · rw [heq, hih]
      rfl
    · obtain ⟨p, hp, hdrop⟩ := hih
      refine ⟨p + q.whole.length, by rw [heq, hp]; rfl, ?_⟩
      rw [← hdrop, show p + q.whole.length + needle.length =
        q.whole.length + (p + needle.length) by omega,
        ← List.drop_drop, List.drop_left]
  induction ps with
  | nil => exact find_eq_none hne (by simp)
  | cons q ps ih =>
    have ih := ih (h.tail hne)
    cases q with
    | data xs =>
      refine hmore (.data xs) ps (hskip (.data xs) ps fun k hk hocc => ?_) ih
      obtain ⟨front, ys, back, heq, hle, _⟩ := h k hocc
      cases front with
      | nil => simp at heq
      | cons r front =>
        obtain ⟨rfl, _⟩ : Piece.data xs = r ∧ ps = front ++ .lit ys :: back := by simpa using heq
        simp only [whole_data, List.length_append, Piece.whole] at hle hk
        omega
    | lit xs =>
      -- an occurrence that starts in this piece is inside it
      have hinside : ∀ k, k < xs.length → needle <+: (xs ++ whole ps).drop k →
        needle <+: xs.drop k := by
        intro k hk hocc
        obtain ⟨front, ys, back, heq, hle, hlast⟩ := h k hocc
        cases front with
        | nil =>
          obtain ⟨rfl, _⟩ : xs = ys ∧ ps = back := by simpa using heq
          simp only [whole_nil, List.length_nil] at hlast
          rw [List.drop_append_of_le_length (by omega)] at hocc
          refine List.prefix_of_prefix_length_le hocc (List.prefix_append _ _) ?_
          rw [List.length_drop]
          omega
        | cons r front =>
          obtain ⟨rfl, _⟩ : Piece.lit xs = r ∧ ps = front ++ .lit ys :: back := by simpa using heq
          simp only [whole_lit, List.length_append] at hle
          omega
      rw [after]
      cases hfind : find needle xs with
      | none =>
        exact hmore (.lit xs) ps (hskip (.lit xs) ps fun k hk hocc =>
          find_none hfind k (hinside k hk hocc)) ih
      | some p =>
        have hle := find_le hfind
        refine ⟨p, find_eq ?_ fun k hk hocc => ?_, ?_⟩
        · rw [whole_lit, List.drop_append_of_le_length (by omega)]
          exact (find_occurs hfind).trans (List.prefix_append _ _)
        · exact find_first hfind hk (hinside k (by omega) hocc)
        · rw [whole_lit, whole_lit, List.drop_append_of_le_length (by omega)]

end Finding

end Occurrence
