import Mathlib.Algebra.BigOperators.Group.List.Basic
import Mathlib.Algebra.Order.BigOperators.Group.List
import Mathlib.Algebra.Ring.Int.Defs
import Mathlib.Data.Int.Basic

/-!
# Consecutive segments on a line

A list of lengths cuts the line from zero on into consecutive segments; segment `i`
starts at the sum of the lengths before it. Zero lengths are allowed anywhere. The
segment of a position is found by bisection on the starts.
-/

namespace PrefixLayout

/-- Where segment `i` starts. -/
def start (lens : List Int) (i : Nat) : Int := (lens.take i).sum

@[simp] theorem start_zero (lens : List Int) : start lens 0 = 0 := by simp [start]

@[simp] theorem start_length (lens : List Int) : start lens lens.length = lens.sum := by
  simp [start]

theorem start_succ (lens : List Int) (i : Nat) (hi : i < lens.length) :
    start lens (i + 1) = start lens i + lens[i] := by
  simp only [start]
  rw [List.sum_take_succ lens i hi]

section Nonneg

variable {lens : List Int} (nonneg : ∀ l ∈ lens, 0 ≤ l)

include nonneg

theorem start_le_succ (i : Nat) : start lens i ≤ start lens (i + 1) := by
  by_cases hi : i < lens.length
  · have h := nonneg lens[i] (List.getElem_mem hi)
    rw [start_succ lens i hi]
    omega
  · have h1 : lens.take (i + 1) = lens := List.take_of_length_le (by omega)
    have h2 : lens.take i = lens := List.take_of_length_le (by omega)
    simp [start, h1, h2]

theorem start_mono {i j : Nat} (hij : i ≤ j) : start lens i ≤ start lens j := by
  induction j with
  | zero =>
    have hi : i = 0 := by omega
    rw [hi]
  | succ j ih =>
    by_cases h : i = j + 1
    · rw [h]
    · exact Int.le_trans (ih (by omega)) (start_le_succ nonneg j)

/-- Two segments that hold one position are the same segment. -/
theorem owner_unique {i j : Nat} {x : Int} (hi : start lens i ≤ x ∧ x < start lens (i + 1))
    (hj : start lens j ≤ x ∧ x < start lens (j + 1)) : i = j := by
  by_cases h : i < j
  · have := start_mono nonneg (show i + 1 ≤ j by omega)
    omega
  · by_cases h' : j < i
    · have := start_mono nonneg (show j + 1 ≤ i by omega)
      omega
    · omega

end Nonneg

/-- Every position before the end lies in some segment: the last one that starts at
or before it. -/
theorem exists_owner {lens : List Int} {x : Int} (hx : 0 ≤ x) (hlt : x < lens.sum) :
    ∃ i, i < lens.length ∧ start lens i ≤ x ∧ x < start lens (i + 1) := by
  have step : ∀ n, n ≤ lens.length → x < start lens n →
      ∃ i, i < n ∧ start lens i ≤ x ∧ x < start lens (i + 1) := by
    intro n
    induction n with
    | zero =>
      intro _ h
      rw [start_zero] at h
      omega
    | succ n ih =>
      intro hn h
      by_cases hb : start lens n ≤ x
      · exact ⟨n, by omega, hb, h⟩
      · obtain ⟨i, hi, hs⟩ := ih (by omega) (by omega)
        exact ⟨i, by omega, hs⟩
  exact step lens.length (Nat.le_refl _) (by rwa [start_length])

/-- The first index at or after `lo` where `below` fails, for a `below` that holds of an
initial part of the indices. -/
def bisect (below : Nat → Bool) : Nat → Nat → Nat → Nat
  | 0, lo, _ => lo
  | fuel + 1, lo, hi =>
    if lo < hi then
      let mid := lo + (hi - lo) / 2
      if below mid then bisect below fuel (mid + 1) hi else bisect below fuel lo mid
    else lo

/-- Whatever `below` is, the index just before the result satisfies it. -/
theorem bisect_pred {below : Nat → Bool} (fuel lo hi : Nat)
    (start : lo = 0 ∨ below (lo - 1) = true) :
    bisect below fuel lo hi = 0 ∨ below (bisect below fuel lo hi - 1) = true := by
  induction fuel generalizing lo hi with
  | zero => exact start
  | succ fuel ih =>
    simp only [bisect]
    split
    · split
      · next hmid =>
        apply ih
        right
        simpa using hmid
      · exact ih lo _ start
    · exact start

theorem bisect_spec {below : Nat → Bool} (initial : ∀ i j, i ≤ j → below j = true → below i = true)
    (fuel lo hi : Nat) (enough : hi - lo ≤ fuel) (le : lo ≤ hi)
    (left : ∀ i, i < lo → below i = true) (right : ∀ i, hi ≤ i → below i = false) (i : Nat) :
    i < bisect below fuel lo hi ↔ below i = true := by
  induction fuel generalizing lo hi with
  | zero =>
    have heq : lo = hi := by omega
    constructor
    · exact left i
    · intro hi'
      by_contra hge
      rw [right i (by simp only [bisect] at hge; omega)] at hi'
      cases hi'
  | succ fuel ih =>
    simp only [bisect]
    split
    · split
      · next hmid =>
        apply ih _ _ (by omega) (by omega) _ right
        intro j hj
        exact initial j _ (by omega) hmid
      · next hmid =>
        apply ih _ _ (by omega) (by omega) left
        intro j hj
        by_contra hj'
        exact hmid (initial _ j hj (by simpa using hj'))
    · constructor
      · exact left i
      · intro hi'
        by_contra hge
        rw [right i (by omega)] at hi'
        cases hi'

end PrefixLayout
