import Mathlib.Data.List.Basic
import Mathlib.Data.Nat.Log
import Mathlib.Logic.Function.Iterate
import Mathlib.Tactic.Ring

/-!
# Halving an interval towards one point

The interval `[lo, lo + 2 ^ e)` is halved again and again, always the half that holds the point
`me`. What is left is a row of cells, each known by the number it starts at: one cell for every
half that was put aside, and one around the point. A cell has a capacity: the half put aside keeps
that of the whole, the other one gets what `shrink` makes of it.
-/

namespace SplitPath

structure Cell where
  first : Nat
  cap : Nat

/-- The cells of `[lo, lo + 2 ^ e)`. The cell around the point has the index `i`; it is
`[o, o + 2 ^ d)`. -/
inductive Path (me : Nat) (shrink : Nat → Nat) :
    (lo e c : Nat) → List Cell → (i o d : Nat) → Prop
  | own {lo e c : Nat} : lo ≤ me → me < lo + 2 ^ e → Path me shrink lo e c [⟨lo, c⟩] 0 lo e
  | low {lo e c i o d : Nat} {cells : List Cell} : Path me shrink lo e (shrink c) cells i o d →
      Path me shrink lo (e + 1) c (cells ++ [⟨lo + 2 ^ e, c⟩]) i o d
  | high {lo e c i o d : Nat} {cells : List Cell} :
      Path me shrink (lo + 2 ^ e) e (shrink c) cells i o d →
      Path me shrink lo (e + 1) c (⟨lo, c⟩ :: cells) (i + 1) o d

/-- `x` belongs to the cell with the index `k`. -/
def Holds (cells : List Cell) (k x : Nat) : Prop :=
  (∃ a, cells[k]? = some a ∧ a.first ≤ x) ∧ ∀ b, cells[k + 1]? = some b → x < b.first

/-- The index of the cell in front of the first one that starts behind `x`. -/
def locate (x : Nat) : List Cell → Nat
  | _ :: b :: rest => if x < b.first then 0 else locate x (b :: rest) + 1
  | _ => 0

/-- How many halvings `x` went along with `me`, of `e - d`. -/
def level (me d : Nat) : Nat → Nat → Nat
  | 0, _ => 0
  | e + 1, x => if d ≤ e ∧ x / 2 ^ e = me / 2 ^ e then level me d e x + 1 else 0

variable {me : Nat} {shrink : Nat → Nat} {lo e c i o d : Nat} {cells : List Cell}

theorem locate_lt (x : Nat) (hne : cells ≠ []) : locate x cells < cells.length := by
  fun_induction locate x cells with
  | case1 a b rest hlt => simp
  | case2 a b rest hge ih =>
    have := ih (List.cons_ne_nil b rest)
    simp only [List.length_cons] at this ⊢
    omega
  | case3 cells hother => exact List.length_pos_iff.mpr hne

/-- In a row of cells one behind the other, the cell found is the one that holds `x`. -/
theorem locate_holds {x : Nat} (hpair : cells.Pairwise (fun a b => a.first < b.first))
    (hhead : ∃ a, cells.head? = some a ∧ a.first ≤ x) : Holds cells (locate x cells) x := by
  fun_induction locate x cells with
  | case1 a b rest hlt =>
    obtain ⟨a', ha', hle⟩ := hhead
    refine ⟨⟨a', by simpa using ha', hle⟩, ?_⟩
    intro b' hb'
    obtain rfl : b = b' := by simpa using hb'
    exact hlt
  | case2 a b rest hge ih =>
    have hrest := ih (List.pairwise_cons.mp hpair).2 ⟨b, rfl, by omega⟩
    simpa [Holds] using hrest
  | case3 cells hother =>
    obtain ⟨a, ha, hle⟩ := hhead
    obtain _ | ⟨a', _ | ⟨b, rest⟩⟩ := cells
    · simp at ha
    · obtain rfl : a' = a := by simpa using ha
      exact ⟨⟨a', rfl, hle⟩, by simp⟩
    · exact absurd rfl (hother a' b rest)

theorem Holds.unique {k l x : Nat} (hpair : cells.Pairwise (fun a b => a.first < b.first))
    (hk : Holds cells k x) (hl : Holds cells l x) : k = l := by
  -- the cell behind the earlier one would start in front of `x`
  have key : ∀ {k l : Nat}, Holds cells k x → Holds cells l x → ¬ k < l := by
    intro k l hk hl hlt
    obtain ⟨⟨b, hb, hle⟩, _⟩ := hl
    obtain ⟨hlen, hget⟩ := List.getElem?_eq_some_iff.mp hb
    have hsucc := hk.2 _ (List.getElem?_eq_getElem (show k + 1 < cells.length by omega))
    rcases Nat.eq_or_lt_of_le (show k + 1 ≤ l from hlt) with heq | hlt'
    · subst heq
      rw [hget] at hsucc
      omega
    · have := List.pairwise_iff_getElem.mp hpair (k + 1) l (by omega) hlen hlt'
      rw [hget] at this
      omega
  have h1 := key hk hl
  have h2 := key hl hk
  omega

theorem locate_append {x m c : Nat} (hne : cells ≠ []) (hbelow : ∀ a ∈ cells, a.first < m) :
    locate x (cells ++ [⟨m, c⟩]) = if x < m then locate x cells else cells.length := by
  fun_induction locate x cells with
  | case1 a b rest hlt =>
    have := hbelow b (by simp)
    rw [if_pos (by omega)]
    simp [locate, hlt]
  | case2 a b rest hge ih =>
    have hrest := ih (List.cons_ne_nil b rest) (fun a ha => hbelow a (List.mem_cons_of_mem _ ha))
    simp only [List.cons_append, locate, if_neg hge] at hrest ⊢
    rw [hrest]
    split <;> rfl
  | case3 cells hother =>
    obtain _ | ⟨a, _ | ⟨b, rest⟩⟩ := cells
    · contradiction
    · simp [locate]
    · exact absurd rfl (hother a b rest)

theorem level_self (me d x : Nat) : level me d d x = 0 := by
  cases d with
  | zero => rfl
  | succ d => simp [level]

/-- Of two numbers in an aligned interval, the lower half has the quotient of its start. -/
theorem div_eq_iff {x y : Nat} (halign : 2 ^ (e + 1) ∣ lo) (hx : lo ≤ x ∧ x < lo + 2 ^ (e + 1))
    (hy : lo ≤ y ∧ y < lo + 2 ^ (e + 1)) :
    x / 2 ^ e = y / 2 ^ e ↔ (x < lo + 2 ^ e ↔ y < lo + 2 ^ e) := by
  obtain ⟨q, rfl⟩ := halign
  have hpos : 0 < 2 ^ e := Nat.two_pow_pos e
  have key : ∀ z, 2 ^ (e + 1) * q ≤ z ∧ z < 2 ^ (e + 1) * q + 2 ^ (e + 1) →
      z / 2 ^ e = 2 * q + if z < 2 ^ (e + 1) * q + 2 ^ e then 0 else 1 := by
    intro z hz
    have hwhole : 2 ^ (e + 1) * q = 2 * q * 2 ^ e := by rw [Nat.pow_succ]; ring
    have hsucc (n : Nat) : (n + 1) * 2 ^ e = n * 2 ^ e + 2 ^ e := Nat.succ_mul _ _
    rw [hwhole, Nat.pow_succ] at hz
    rw [hwhole]
    split
    · exact Nat.div_eq_of_lt_le (by rw [Nat.add_zero]; omega) (by rw [hsucc]; omega)
    · exact Nat.div_eq_of_lt_le (by rw [hsucc]; omega) (by rw [hsucc, hsucc]; omega)
  rw [key x hx, key y hy]
  by_cases h1 : x < 2 ^ (e + 1) * q + 2 ^ e <;> by_cases h2 : y < 2 ^ (e + 1) * q + 2 ^ e <;>
    simp [h1, h2]

namespace Path

theorem inside (h : Path me shrink lo e c cells i o d) :
    lo ≤ o ∧ o + 2 ^ d ≤ lo + 2 ^ e ∧ o ≤ me ∧ me < o + 2 ^ d ∧ d ≤ e := by
  induction h with
  | own hlo hhi => exact ⟨Nat.le_refl _, Nat.le_refl _, hlo, hhi, Nat.le_refl _⟩
  | low _ ih =>
    obtain ⟨h1, h2, h3, h4, h5⟩ := ih
    refine ⟨h1, ?_, h3, h4, by omega⟩
    rw [Nat.pow_succ]
    omega
  | high _ ih =>
    obtain ⟨h1, h2, h3, h4, h5⟩ := ih
    refine ⟨by omega, ?_, h3, h4, by omega⟩
    rw [Nat.pow_succ]
    omega

theorem aligned (h : Path me shrink lo e c cells i o d) (hlo : 2 ^ e ∣ lo) : 2 ^ d ∣ o := by
  induction h with
  | own => exact hlo
  | low _ ih => exact ih (Nat.dvd_trans (Nat.pow_dvd_pow 2 (Nat.le_succ _)) hlo)
  | high _ ih =>
    apply ih
    exact Nat.dvd_add (Nat.dvd_trans (Nat.pow_dvd_pow 2 (Nat.le_succ _)) hlo) (Nat.dvd_refl _)

theorem length_eq (h : Path me shrink lo e c cells i o d) : cells.length = e - d + 1 := by
  induction h with
  | own => simp
  | low hsub ih =>
    have := hsub.inside
    simp only [List.length_append, List.length_singleton]
    omega
  | high hsub ih =>
    have := hsub.inside
    simp only [List.length_cons]
    omega

theorem index_lt (h : Path me shrink lo e c cells i o d) : i < cells.length := by
  induction h with
  | own => simp
  | low _ ih =>
    simp only [List.length_append, List.length_singleton]
    omega
  | high _ ih =>
    simp only [List.length_cons]
    omega

/-- The first cell starts at the interval, and the cells lie inside it one behind the other. -/
theorem ordered (h : Path me shrink lo e c cells i o d) :
    cells.head?.map Cell.first = some lo ∧ (∀ a ∈ cells, lo ≤ a.first ∧ a.first < lo + 2 ^ e) ∧
      cells.Pairwise (fun a b => a.first < b.first) := by
  induction h with
  | own => exact ⟨rfl, by simp, List.pairwise_singleton _ _⟩
  | @low lo e c i o d cells hsub ih =>
    obtain ⟨hhead, hmem, hpair⟩ := ih
    have hpos : 0 < 2 ^ e := Nat.two_pow_pos e
    refine ⟨?_, ?_, ?_⟩
    · cases cells with
      | nil => simp at hhead
      | cons a rest => simpa using hhead
    · intro a ha
      rw [Nat.pow_succ]
      rcases List.mem_append.mp ha with ha | ha
      · have := hmem a ha
        omega
      · obtain rfl := List.mem_singleton.mp ha
        simp only
        omega
    · refine List.pairwise_append.mpr ⟨hpair, List.pairwise_singleton _ _, ?_⟩
      intro a ha b hb
      obtain rfl := List.mem_singleton.mp hb
      exact (hmem a ha).2
  | @high lo e c i o d cells hsub ih =>
    obtain ⟨_, hmem, hpair⟩ := ih
    have hpos : 0 < 2 ^ e := Nat.two_pow_pos e
    refine ⟨rfl, ?_, ?_⟩
    · intro a ha
      rw [Nat.pow_succ]
      rcases List.mem_cons.mp ha with rfl | ha
      · simp only
        omega
      · have := hmem a ha
        omega
    · refine List.pairwise_cons.mpr ⟨?_, hpair⟩
      intro a ha
      have := hmem a ha
      simp only
      omega

/-- The cell around the point, and the one behind it. -/
theorem own_cell (h : Path me shrink lo e c cells i o d) :
    cells[i]? = some ⟨o, shrink^[e - d] c⟩ ∧
      ((cells[i + 1]? = none ∧ o + 2 ^ d = lo + 2 ^ e) ∨
        ∃ b, cells[i + 1]? = some b ∧ b.first = o + 2 ^ d) := by
  induction h with
  | own => simp
  | @low lo e c i o d cells hsub ih =>
    obtain ⟨hown, hnext⟩ := ih
    have hi := hsub.index_lt
    have hd := hsub.inside.2.2.2.2
    have hcap : shrink^[e + 1 - d] c = shrink^[e - d] (shrink c) := by
      rw [Nat.succ_sub hd, Function.iterate_succ_apply]
    refine ⟨?_, ?_⟩
    · rw [List.getElem?_append_left hi, hown, hcap]
    · right
      rcases hnext with ⟨hnone, hend⟩ | ⟨b, hb, hfirst⟩
      · have hlast : i + 1 = cells.length := by
          have := List.getElem?_eq_none_iff.mp hnone
          omega
        exact ⟨_, by rw [hlast, List.getElem?_concat_length], hend.symm⟩
      · refine ⟨b, ?_, hfirst⟩
        have := (List.getElem?_eq_some_iff.mp hb).1
        rw [List.getElem?_append_left this, hb]
  | @high lo e c i o d cells hsub ih =>
    obtain ⟨hown, hnext⟩ := ih
    have hd := hsub.inside.2.2.2.2
    have hcap : shrink^[e + 1 - d] c = shrink^[e - d] (shrink c) := by
      rw [Nat.succ_sub hd, Function.iterate_succ_apply]
    refine ⟨by simpa [hcap] using hown, ?_⟩
    rcases hnext with ⟨hnone, hend⟩ | hsome
    · left
      refine ⟨by simpa using hnone, ?_⟩
      rw [Nat.pow_succ]
      omega
    · right
      simpa using hsome

/-- Every cell is an aligned interval of its own. -/
theorem dyadic (h : Path me shrink lo e c cells i o d) (halign : 2 ^ e ∣ lo) {k : Nat} {a : Cell}
    (ha : cells[k]? = some a) :
    ∃ t, 2 ^ t ∣ a.first ∧ ((cells[k + 1]? = none ∧ a.first + 2 ^ t = lo + 2 ^ e) ∨
      ∃ b, cells[k + 1]? = some b ∧ b.first = a.first + 2 ^ t) := by
  induction h generalizing k a with
  | @own lo e c =>
    obtain ⟨rfl, rfl⟩ : k = 0 ∧ ⟨lo, c⟩ = a := by
      cases k with
      | zero => simpa using ha
      | succ k => simp at ha
    exact ⟨e, halign, Or.inl ⟨rfl, rfl⟩⟩
  | @low lo e c i o d cells hsub ih =>
    have halign' := Nat.dvd_trans (Nat.pow_dvd_pow 2 (Nat.le_succ e)) halign
    obtain hlt | heq | hgt := Nat.lt_trichotomy k cells.length
    · rw [List.getElem?_append_left hlt] at ha
      obtain ⟨t, ht, hnext⟩ := ih halign' ha
      refine ⟨t, ht, Or.inr ?_⟩
      obtain ⟨hnone, hend⟩ | ⟨b, hb, hfirst⟩ := hnext
      · have hlast : k + 1 = cells.length := by
          have := List.getElem?_eq_none_iff.mp hnone
          omega
        exact ⟨_, by rw [hlast, List.getElem?_concat_length], hend.symm⟩
      · have hlen := (List.getElem?_eq_some_iff.mp hb).1
        exact ⟨b, by rw [List.getElem?_append_left hlen, hb], hfirst⟩
    · subst heq
      obtain rfl : ⟨lo + 2 ^ e, c⟩ = a := by simpa using ha
      refine ⟨e, Nat.dvd_add halign' (Nat.dvd_refl _), Or.inl ⟨by simp, ?_⟩⟩
      rw [Nat.pow_succ]
      simp only
      omega
    · rw [List.getElem?_eq_none
        (by simp only [List.length_append, List.length_singleton]; omega)] at ha
      contradiction
  | @high lo e c i o d cells hsub ih =>
    have hdvd := Nat.dvd_trans (Nat.pow_dvd_pow 2 (Nat.le_succ e)) halign
    have hwhole : lo + 2 ^ (e + 1) = lo + 2 ^ e + 2 ^ e := by
      rw [Nat.pow_succ]
      omega
    cases k with
    | zero =>
      obtain rfl : ⟨lo, c⟩ = a := by simpa using ha
      obtain ⟨hhead, _⟩ := hsub.ordered
      refine ⟨e, hdvd, Or.inr ?_⟩
      simpa [List.head?_eq_getElem?] using hhead
    | succ k =>
      obtain ⟨t, ht, hnext⟩ := ih (Nat.dvd_add hdvd (Nat.dvd_refl _)) (by simpa using ha)
      rw [hwhole]
      exact ⟨t, ht, by simpa using hnext⟩

/-- Halving the cell around the point. -/
theorem split (h : Path me shrink lo e c cells i o (d + 1)) :
    (me < o + 2 ^ d → Path me shrink lo e c (cells.take i ++
        [⟨o, shrink (shrink^[e - (d + 1)] c)⟩, ⟨o + 2 ^ d, shrink^[e - (d + 1)] c⟩] ++
        cells.drop (i + 1)) i o d) ∧
      (o + 2 ^ d ≤ me → Path me shrink lo e c (cells.take i ++
        [⟨o, shrink^[e - (d + 1)] c⟩, ⟨o + 2 ^ d, shrink (shrink^[e - (d + 1)] c)⟩] ++
        cells.drop (i + 1)) (i + 1) (o + 2 ^ d) d) := by
  generalize hd' : d + 1 = d' at h
  induction h with
  | @own lo e c hlo hhi =>
    subst hd'
    simp only [Nat.sub_self, Function.iterate_zero, id_eq, List.take_zero, List.nil_append]
    refine ⟨fun hbelow => ?_, fun habove => ?_⟩
    · exact Path.low (Path.own hlo hbelow)
    · refine Path.high (Path.own habove ?_)
      rw [Nat.pow_succ] at hhi
      omega
  | @low lo e c i o d' cells hsub ih =>
    have hi := hsub.index_lt
    have hd := hsub.inside.2.2.2.2
    have hcap : shrink^[e + 1 - d'] c = shrink^[e - d'] (shrink c) := by
      rw [Nat.succ_sub hd, Function.iterate_succ_apply]
    rw [List.take_append_of_le_length (by omega), List.drop_append_of_le_length (by omega), hcap,
      ← List.append_assoc, ← List.append_assoc]
    exact ⟨fun hbelow => Path.low ((ih hd').1 hbelow), fun habove => Path.low ((ih hd').2 habove)⟩
  | @high lo e c i o d' cells hsub ih =>
    have hd := hsub.inside.2.2.2.2
    have hcap : shrink^[e + 1 - d'] c = shrink^[e - d'] (shrink c) := by
      rw [Nat.succ_sub hd, Function.iterate_succ_apply]
    rw [hcap, List.take_succ_cons, List.drop_succ_cons]
    exact ⟨fun hbelow => Path.high ((ih hd').1 hbelow), fun habove => Path.high ((ih hd').2 habove)⟩

/-- What the cells are: two numbers share one when they went along with the point equally far, and
its capacity has shrunk as often. -/
theorem cells_eq (h : Path me shrink lo e c cells i o d) (halign : 2 ^ e ∣ lo) {x : Nat}
    (hx : lo ≤ x ∧ x < lo + 2 ^ e) :
    (∃ a, cells[locate x cells]? = some a ∧ a.cap = shrink^[level me d e x] c) ∧
      ∀ y, lo ≤ y ∧ y < lo + 2 ^ e →
        (locate x cells = locate y cells ↔ level me d e x = level me d e y) := by
  induction h generalizing x with
  | @own lo e c hlo hhi =>
    simp only [level_self, locate]
    exact ⟨⟨_, rfl, rfl⟩, by simp⟩
  | @low lo e c i o d cells hsub ih =>
    obtain ⟨_, hbelow, _⟩ := hsub.ordered
    obtain ⟨hlo, hhi, hme, hme', hd⟩ := hsub.inside
    have hne : cells ≠ [] := List.ne_nil_of_length_pos (by have := hsub.index_lt; omega)
    have hsplit : 2 ^ (e + 1) = 2 ^ e + 2 ^ e := by rw [Nat.pow_succ]; omega
    have hmeIn : lo ≤ me ∧ me < lo + 2 ^ (e + 1) := by omega
    have halign' := Nat.dvd_trans (Nat.pow_dvd_pow 2 (Nat.le_succ e)) halign
    have hlevel : ∀ z, lo ≤ z ∧ z < lo + 2 ^ (e + 1) → level me d (e + 1) z =
        if z < lo + 2 ^ e then level me d e z + 1 else 0 := by
      intro z hz
      have hcut := div_eq_iff halign hz hmeIn
      have hbelowMe : me < lo + 2 ^ e := by omega
      simp only [level, hd, true_and, hcut, hbelowMe, iff_true]
    have hlocate : ∀ z, locate z (cells ++ [⟨lo + 2 ^ e, c⟩]) =
        if z < lo + 2 ^ e then locate z cells else cells.length :=
      fun z => locate_append hne (fun a ha => (hbelow a ha).2)
    refine ⟨?_, ?_⟩
    · rw [hlevel x hx, hlocate]
      split
      · next hlt =>
        obtain ⟨⟨a, ha, hcap⟩, _⟩ := ih halign' ⟨hx.1, hlt⟩
        refine ⟨a, ?_, by rw [hcap, Function.iterate_succ_apply]⟩
        rw [List.getElem?_append_left (locate_lt x hne), ha]
      · exact ⟨_, List.getElem?_concat_length, rfl⟩
    · intro y hy
      rw [hlevel x hx, hlevel y hy, hlocate, hlocate]
      have hxlt := locate_lt x hne
      have hylt := locate_lt y hne
      by_cases h1 : x < lo + 2 ^ e <;> by_cases h2 : y < lo + 2 ^ e
      · have := (ih halign' ⟨hx.1, h1⟩).2 y ⟨hy.1, h2⟩
        simp only [h1, h2, if_true, this]
        omega
      all_goals simp only [h1, h2, if_true, if_false]
      all_goals omega
  | @high lo e c i o d cells hsub ih =>
    obtain ⟨hhead, _, _⟩ := hsub.ordered
    obtain ⟨hlo, hhi, hme, hme', hd⟩ := hsub.inside
    have hsplit : 2 ^ (e + 1) = 2 ^ e + 2 ^ e := by rw [Nat.pow_succ]; omega
    have hmeIn : lo ≤ me ∧ me < lo + 2 ^ (e + 1) := by omega
    have halign' : 2 ^ e ∣ lo + 2 ^ e :=
      Nat.dvd_add (Nat.dvd_trans (Nat.pow_dvd_pow 2 (Nat.le_succ e)) halign) (Nat.dvd_refl _)
    have hlevel : ∀ z, lo ≤ z ∧ z < lo + 2 ^ (e + 1) → level me d (e + 1) z =
        if z < lo + 2 ^ e then 0 else level me d e z + 1 := by
      intro z hz
      have hcut := div_eq_iff halign hz hmeIn
      have haboveMe : ¬ me < lo + 2 ^ e := by omega
      simp only [level, hd, true_and, hcut, haboveMe, iff_false]
      split <;> simp_all
    have hlocate : ∀ z, locate z (⟨lo, c⟩ :: cells) =
        if z < lo + 2 ^ e then 0 else locate z cells + 1 := by
      intro z
      cases cells with
      | nil => simp at hhead
      | cons b rest =>
        have hb : b.first = lo + 2 ^ e := by simpa using hhead
        simp only [locate, hb]
    refine ⟨?_, ?_⟩
    · rw [hlevel x hx, hlocate]
      split
      · exact ⟨_, rfl, rfl⟩
      · next hge =>
        obtain ⟨⟨a, ha, hcap⟩, _⟩ := ih halign' (x := x) (by omega)
        exact ⟨a, by simpa using ha, by rw [hcap, Function.iterate_succ_apply]⟩
    · intro y hy
      rw [hlevel x hx, hlevel y hy, hlocate, hlocate]
      by_cases h1 : x < lo + 2 ^ e
      · by_cases h2 : y < lo + 2 ^ e <;> simp [h1, h2]
      · by_cases h2 : y < lo + 2 ^ e
        · simp [h1, h2]
        · have := (ih halign' (x := x) (by omega)).2 y (by omega)
          simp only [h1, h2, if_false]
          omega

end Path

end SplitPath
