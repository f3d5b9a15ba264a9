import Mathlib.Data.Finset.Basic
import Mathlib.Data.List.ReduceOption

/-!
# A ledger of allocations

A heap as its owner sees it: which buffers are allocated and not yet freed, and whether
something was freed that was not. A pointer is an address or null. `Owned` says that a list
of pointers holds all that was allocated since some earlier time, each buffer once; whoever
owns such a list can free it without a leak and without a double free.
-/

namespace AllocLedger

abbrev Ptr := Option Nat

structure Heap where
  live : Finset Nat
  next : Nat
  misused : Bool
  fresh : ∀ a ∈ live, a < next

def Heap.empty : Heap := ⟨∅, 0, false, by simp⟩

/-- `malloc` or `calloc`, which may fail. -/
def Heap.alloc (h : Heap) (ok : Bool) : Ptr × Heap :=
  if ok then
    (some h.next, ⟨insert h.next h.live, h.next + 1, h.misused, by
      intro a ha
      rcases Finset.mem_insert.mp ha with rfl | hold
      · exact Nat.lt_succ_self _
      · exact Nat.lt_succ_of_lt (h.fresh a hold)⟩)
  else (none, h)

/-- `free`: null is ignored, and a buffer that is not allocated is an error. -/
def Heap.free (h : Heap) : Ptr → Heap
  | none => h
  | some a =>
    if a ∈ h.live then ⟨h.live.erase a, h.next, h.misused, fun b hb =>
      h.fresh b (Finset.mem_of_mem_erase hb)⟩
    else { h with misused := true }

@[simp] theorem free_none (h : Heap) : h.free none = h := rfl

theorem free_live {h : Heap} {a : Nat} (live : a ∈ h.live) :
    (h.free (some a)).live = h.live.erase a ∧ (h.free (some a)).misused = h.misused := by
  simp only [Heap.free, if_pos live, and_self]

/-- The pointers hold what was allocated since `before`, each buffer once. -/
structure Owned (before h : Heap) (ps : List Ptr) : Prop where
  nodup : ps.reduceOption.Nodup
  apart : ∀ a ∈ ps.reduceOption, a ∉ before.live
  live : ∀ a, a ∈ h.live ↔ a ∈ before.live ∨ a ∈ ps.reduceOption
  misused : h.misused = before.misused

section Owned

variable {before h : Heap} {p q : Ptr} {ps : List Ptr}

theorem owned_refl (h : Heap) : Owned h h [] :=
  ⟨List.nodup_nil, by simp [List.reduceOption], by simp [List.reduceOption], rfl⟩

theorem Owned.null (owned : Owned before h ps) : Owned before h (none :: ps) := by
  constructor
  · rw [List.reduceOption_cons_of_none]
    exact owned.nodup
  · rw [List.reduceOption_cons_of_none]
    exact owned.apart
  · rw [List.reduceOption_cons_of_none]
    exact owned.live
  · exact owned.misused

theorem Owned.alloc (owned : Owned before h ps) (ok : Bool) :
    Owned before (h.alloc ok).2 ((h.alloc ok).1 :: ps) := by
  cases ok with
  | false => exact owned.null
  | true =>
    have hnew : h.next ∉ h.live := fun hmem => Nat.lt_irrefl _ (h.fresh _ hmem)
    have hsplit := (not_congr (owned.live h.next)).mp hnew
    rw [not_or] at hsplit
    simp only [Heap.alloc, if_true]
    constructor
    · rw [List.reduceOption_cons_of_some]
      exact List.nodup_cons.mpr ⟨hsplit.2, owned.nodup⟩
    · rw [List.reduceOption_cons_of_some]
      intro a ha
      rcases List.mem_cons.mp ha with rfl | hold
      · exact hsplit.1
      · exact owned.apart a hold
    · intro a
      rw [List.reduceOption_cons_of_some, Finset.mem_insert, List.mem_cons, owned.live]
      exact or_left_comm
    · exact owned.misused

/-- A pointer that is owned is live. -/
theorem Owned.mem (owned : Owned before h (p :: ps)) {a : Nat} (hp : p = some a) : a ∈ h.live := by
  subst hp
  rw [owned.live, List.reduceOption_cons_of_some]
  exact Or.inr List.mem_cons_self

/-- The first pointer is freed. -/
theorem Owned.free (owned : Owned before h (p :: ps)) : Owned before (h.free p) ps := by
  cases p with
  | none =>
    have hsame := List.reduceOption_cons_of_none ps
    exact ⟨hsame ▸ owned.nodup, hsame ▸ owned.apart, hsame ▸ owned.live, owned.misused⟩
  | some a =>
    have hsame := List.reduceOption_cons_of_some a ps
    obtain ⟨hlive, hmisused⟩ := free_live (owned.mem rfl)
    have hnodup := owned.nodup
    rw [hsame, List.nodup_cons] at hnodup
    have hapart : ∀ b ∈ a :: ps.reduceOption, b ∉ before.live := hsame ▸ owned.apart
    constructor
    · exact hnodup.2
    · exact fun b hb => hapart b (List.mem_cons_of_mem a hb)
    · intro b
      rw [hlive, Finset.mem_erase, owned.live, hsame, List.mem_cons]
      constructor
      · rintro ⟨hne, hold | hthis | hrest⟩
        · exact Or.inl hold
        · exact absurd hthis hne
        · exact Or.inr hrest
      · rintro (hold | hrest)
        · exact ⟨fun heq => hapart a List.mem_cons_self (heq ▸ hold), Or.inl hold⟩
        · exact ⟨fun heq => hnodup.1 (heq ▸ hrest), Or.inr (Or.inr hrest)⟩
    · rw [hmisused]
      exact owned.misused

theorem Owned.swap (owned : Owned before h (p :: q :: ps)) : Owned before h (q :: p :: ps) := by
  have hperm : (p :: q :: ps).reduceOption.Perm (q :: p :: ps).reduceOption :=
    (List.Perm.swap q p ps).filterMap _
  refine ⟨hperm.nodup_iff.mp owned.nodup, ?_, ?_, owned.misused⟩
  · exact fun a ha => owned.apart a (hperm.mem_iff.mpr ha)
  · exact fun a => (owned.live a).trans (or_congr_right hperm.mem_iff)

/-- Nothing is left to free. -/
theorem Owned.released (owned : Owned before h []) :
    h.live = before.live ∧ h.misused = before.misused := by
  refine ⟨Finset.ext fun a => ?_, owned.misused⟩
  rw [owned.live]
  simp [List.reduceOption]

end Owned

end AllocLedger
