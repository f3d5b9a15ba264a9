import Mathlib.Order.Lattice
import Pipensx.Catalog
import Pipensx.ShiftSort

/-!
# Sorting the catalog

`catalog_sort` is an insertion sort by shifting whole entries; the field decides which of two
entries has to stand behind the other.
-/

namespace MovieCatalog

open CText (CString strcmp)
open ShiftSort (Orders same)

variable {δ : Type}

inductive SortField where
  | title
  | year
  | rating
  | size
  | peers
  | downloads
deriving DecidableEq

/-- `should_swap`. -/
def shouldSwap [LinearOrder δ] (field : SortField) (before temp : MovieEntry δ) : Bool :=
  match field with
  | .title => strcmp before.title.bytes temp.title.bytes > 0
  | .year => before.year < temp.year
  | .rating => before.rating < temp.rating
  | .size => before.sizeGb < temp.sizeGb
  | .peers => before.peers < temp.peers
  | .downloads => before.downloads < temp.downloads

def catalogSort [LinearOrder δ] (field : SortField) (c : Catalog δ) : Bool × Catalog δ :=
  if c.count = 0 then (true, c) else
    (true, { c with entries := ShiftSort.sort (shouldSwap field) c.entries })

/-- Titles ascend, the numbers descend. -/
def InOrder [LinearOrder δ] (field : SortField) (a b : MovieEntry δ) : Prop :=
  match field with
  | .title => strcmp a.title.bytes b.title.bytes ≤ 0
  | .year => b.year ≤ a.year
  | .rating => b.rating ≤ a.rating
  | .size => b.sizeGb ≤ a.sizeGb
  | .peers => b.peers ≤ a.peers
  | .downloads => b.downloads ≤ a.downloads

def SameField [LinearOrder δ] (field : SortField) (a b : MovieEntry δ) : Prop :=
  match field with
  | .title => strcmp a.title.bytes b.title.bytes = 0
  | .year => a.year = b.year
  | .rating => a.rating = b.rating
  | .size => a.sizeGb = b.sizeGb
  | .peers => a.peers = b.peers
  | .downloads => a.downloads = b.downloads

instance [LinearOrder δ] (field : SortField) (a b : MovieEntry δ) :
    Decidable (SameField field a b) :=
  match field with
  | .title => inferInstanceAs (Decidable (_ = _))
  | .year => inferInstanceAs (Decidable (_ = _))
  | .rating => inferInstanceAs (Decidable (_ = _))
  | .size => inferInstanceAs (Decidable (_ = _))
  | .peers => inferInstanceAs (Decidable (_ = _))
  | .downloads => inferInstanceAs (Decidable (_ = _))

section Order

variable [LinearOrder δ] {field : SortField} {a b : MovieEntry δ}

theorem shouldSwap_false_iff : shouldSwap field a b = false ↔ InOrder field a b := by
  cases field <;> simp [shouldSwap, InOrder]

theorem InOrder.trans {c : MovieEntry δ} (hab : InOrder field a b) (hbc : InOrder field b c) :
    InOrder field a c := by
  cases field with
  | title => exact CText.strcmp_trans a.title.noNul b.title.noNul hab hbc
  | size => exact le_trans (α := δ) hbc hab
  | year | rating | peers => exact UInt32.le_trans hbc hab
  | downloads => exact UInt64.le_trans hbc hab

theorem inOrder_total (field : SortField) (a b : MovieEntry δ) :
    InOrder field a b ∨ InOrder field b a := by
  cases field with
  | title =>
    have hswap := CText.strcmp_swap a.title.bytes b.title.bytes
    simp only [InOrder]
    omega
  | size => exact le_total b.sizeGb a.sizeGb
  | year | rating | peers => exact UInt32.le_total _ _
  | downloads => exact UInt64.le_total _ _

theorem sameField_iff : SameField field a b ↔ InOrder field a b ∧ InOrder field b a := by
  cases field with
  | title =>
    have hswap := CText.strcmp_swap a.title.bytes b.title.bytes
    simp only [InOrder, SameField]
    omega
  | size => exact ⟨fun h => ⟨ge_of_eq h, le_of_eq h⟩, fun h => le_antisymm h.2 h.1⟩
  | year | rating | peers => exact UInt32.le_antisymm_iff.trans and_comm
  | downloads => exact UInt64.le_antisymm_iff.trans and_comm

theorem shouldSwap_orders (field : SortField) : Orders (shouldSwap (δ := δ) field) := by
  refine ⟨fun a b h => ?_, fun a b c hab hbc => ?_⟩
  · rw [shouldSwap_false_iff]
    rcases inOrder_total field a b with hab | hba
    · rw [shouldSwap_false_iff.mpr hab] at h
      cases h
    · exact hba
  · rw [shouldSwap_false_iff] at hab hbc ⊢
    exact hab.trans hbc

theorem same_eq (field : SortField) (a : MovieEntry δ) :
    same (shouldSwap field) a = fun b => decide (SameField field a b) := by
  funext b
  rw [Bool.eq_iff_iff, decide_eq_true_iff, sameField_iff]
  simp only [same, Bool.and_eq_true, Bool.not_eq_true', shouldSwap_false_iff]

/-- The entries are put in order, none is lost, and equals keep their places among each other. -/
theorem catalogSort_stable (field : SortField) (c : Catalog δ) :
    (catalogSort field c).1 = true ∧ (catalogSort field c).2.count = c.count ∧
      (catalogSort field c).2.entries.Perm c.entries ∧
      (catalogSort field c).2.entries.Pairwise (InOrder field) ∧
      ∀ e, (catalogSort field c).2.entries.filter (fun x => decide (SameField field e x)) =
        c.entries.filter (fun x => decide (SameField field e x)) := by
  rw [catalogSort]
  by_cases hempty : c.count = 0
  · rw [if_pos hempty]
    have hnil : c.entries = [] := List.eq_nil_of_length_eq_zero hempty
    refine ⟨rfl, rfl, List.Perm.refl _, ?_, fun _ => rfl⟩
    rw [hnil]
    exact List.Pairwise.nil
  · rw [if_neg hempty]
    obtain ⟨hperm, hsorted, hstable⟩ :=
      ShiftSort.sort_spec (shouldSwap_orders (δ := δ) field) c.entries
    refine ⟨rfl, hperm.length_eq, hperm, hsorted.imp shouldSwap_false_iff.mp, fun e => ?_⟩
    have hfilter := hstable e
    rw [same_eq] at hfilter
    exact hfilter

end Order

end MovieCatalog
