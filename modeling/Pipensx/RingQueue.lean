import Mathlib.Data.List.Range
import Mathlib.Logic.Function.Basic

/-!
# A list in a circular array

`entries` is the list that an array of `cap` cells holds from `head` on. Adding at either
end and taking the first are updates of the array and of the two numbers.
-/

namespace RingQueue

variable {α : Type}

def entries (cap : Nat) (cells : Nat → α) (head size : Nat) : List α :=
  (List.range size).map (fun i => cells ((head + i) % cap))

variable {cap head size : Nat} {cells : Nat → α}

@[simp] theorem length_entries : (entries cap cells head size).length = size := by
  simp [entries]

/-- Two places less than a whole round apart are different cells. -/
theorem cell_ne (head : Nat) {i j : Nat} (hij : i < j) (hj : j < i + cap) :
    (head + i) % cap ≠ (head + j) % cap := by
  intro h
  have hzero := Nat.sub_mod_eq_zero_of_mod_eq h.symm
  rw [Nat.mod_eq_of_lt (by omega)] at hzero
  omega

theorem entries_pushBack (room : size < cap) (a : α) :
    entries cap (Function.update cells ((head + size) % cap) a) head (size + 1) =
      entries cap cells head size ++ [a] := by
  rw [entries, List.range_succ, List.map_append]
  congr 1
  · apply List.map_congr_left
    intro i hi
    have hlt := List.mem_range.mp hi
    rw [Function.update_of_ne (cell_ne head hlt (by omega))]
  · simp

theorem entries_popFront :
    entries cap cells head (size + 1) =
      cells (head % cap) :: entries cap cells ((head + 1) % cap) size := by
  rw [entries, List.range_succ_eq_map, List.map_cons, List.map_map]
  congr 1
  apply List.map_congr_left
  intro i _
  simp only [Function.comp_apply, Nat.mod_add_mod]
  congr 2
  omega

theorem entries_pushFront (room : size < cap) (bound : head < cap) (a : α) :
    entries cap (Function.update cells ((head + cap - 1) % cap) a) ((head + cap - 1) % cap)
      (size + 1) = a :: entries cap cells head size := by
  have hback : ((head + cap - 1) % cap + 1) % cap = head := by
    rw [Nat.mod_add_mod, show head + cap - 1 + 1 = head + cap by omega, Nat.add_mod_right,
      Nat.mod_eq_of_lt bound]
  rw [entries_popFront, Nat.mod_mod, Function.update_self, hback]
  congr 1
  apply List.map_congr_left
  intro i hi
  have hlt := List.mem_range.mp hi
  have hcell : (head + i) % cap = ((head + cap - 1) + (i + 1)) % cap := by
    rw [show head + cap - 1 + (i + 1) = head + i + cap by omega, Nat.add_mod_right]
  have hne : (head + cap - 1 + 0) % cap ≠ (head + cap - 1 + (i + 1)) % cap :=
    cell_ne (head + cap - 1) (Nat.succ_pos i) (by omega)
  rw [Nat.add_zero] at hne
  rw [hcell, Function.update_of_ne (Ne.symm hne)]

/-- A full circle of cells that is written round and round: it holds the last entries of the
log, which has the newest first. -/
def Recent (cap : Nat) (cells : Nat → α) (log : List α) : Prop :=
  ∀ k a, k < cap → log[k]? = some a → cells ((log.length - 1 - k) % cap) = a

theorem recent_nil (cap : Nat) (cells : Nat → α) : Recent cap cells [] := by
  intro k a _ h
  simp at h

theorem Recent.push {log : List α} (recent : Recent cap cells log) (a : α) :
    Recent cap (Function.update cells (log.length % cap) a) (a :: log) := by
  intro k b hk hget
  cases k with
  | zero =>
    simp only [List.getElem?_cons_zero, Option.some.injEq] at hget
    subst hget
    simp
  | succ k =>
    rw [List.getElem?_cons_succ] at hget
    have hlength : k < log.length := (List.getElem?_eq_some_iff.mp hget).1
    have hplace : (a :: log).length - 1 - (k + 1) = log.length - 1 - k := by
      rw [List.length_cons]
      omega
    have hne : (log.length - 1 - k) % cap ≠ log.length % cap := by
      have hcells : (log.length - 1 - k + 0) % cap ≠ (log.length - 1 - k + (k + 1)) % cap :=
        cell_ne (log.length - 1 - k) (Nat.succ_pos k) (by omega)
      rwa [Nat.add_zero, show log.length - 1 - k + (k + 1) = log.length by omega] at hcells
    rw [hplace, Function.update_of_ne hne]
    exact recent k b (by omega) hget

/-- Looking through the cells that were written is looking through the end of the log. -/
theorem Recent.mem_iff {log : List α} (recent : Recent cap cells log) (a : α) :
    a ∈ log.take cap ↔ ∃ i, i < min cap log.length ∧ cells i = a := by
  constructor
  · intro hmem
    obtain ⟨k, hget⟩ := List.mem_iff_getElem?.mp hmem
    rw [List.getElem?_take] at hget
    split at hget
    · next hk =>
      have hlength : k < log.length := (List.getElem?_eq_some_iff.mp hget).1
      refine ⟨(log.length - 1 - k) % cap, ?_, recent k a hk hget⟩
      have hcap := Nat.mod_lt (log.length - 1 - k) (Nat.zero_lt_of_lt hk)
      have hle := Nat.mod_le (log.length - 1 - k) cap
      omega
    · cases hget
  · rintro ⟨i, hi, hcell⟩
    have hcap : 0 < cap := by omega
    have hk := Nat.mod_lt (log.length - 1 - i) hcap
    have hle := Nat.mod_le (log.length - 1 - i) cap
    have hsplit := Nat.div_add_mod (log.length - 1 - i) cap
    have hlength : (log.length - 1 - i) % cap < log.length := by omega
    have hback : (log.length - 1 - (log.length - 1 - i) % cap) % cap = i := by
      rw [show log.length - 1 - (log.length - 1 - i) % cap =
        i + cap * ((log.length - 1 - i) / cap) by omega,
        Nat.add_mul_mod_self_left, Nat.mod_eq_of_lt (by omega)]
    have hget := List.getElem?_eq_getElem hlength
    have hfound := recent _ _ hk hget
    rw [hback, hcell] at hfound
    refine List.mem_iff_getElem?.mpr ⟨(log.length - 1 - i) % cap, ?_⟩
    rw [List.getElem?_take, if_pos hk, hget, hfound]

end RingQueue
