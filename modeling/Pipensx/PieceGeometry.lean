import Mathlib.Algebra.BigOperators.Intervals
import Mathlib.Data.Rat.Floor
import Mathlib.Tactic.Linarith
import Mathlib.Tactic.Ring
import Pipensx.TorrentFile

/-!
# Pieces and blocks of a torrent

`piece_len` and `piece_num_blocks` of `core/piece.c`, the byte range of a piece and
the blocks inside it. `ExactPieces` is what every later length and index computation
relies on: the piece count really is the total length divided by the piece length,
rounded up.
-/

namespace PieceGeometry

open TorrentFile

def blockSize : Nat := 16 * 1024

/-- `idx + 1` is a `uint32_t` addition. -/
def pieceLen (mi : Metainfo) (idx : Nat) : Int :=
  if (idx + 1) % 2 ^ 32 < mi.numPieces then mi.pieceLength
  else
    let rem := mi.totalLength - idx * mi.pieceLength
    if rem > 0 then rem else 0

def pieceNumBlocks (mi : Metainfo) (idx : Nat) : Nat :=
  ((pieceLen mi idx + blockSize - 1).tdiv blockSize % 2 ^ 32).toNat

/-- `(int64_t)idx * piece_length`, where a piece starts in the flat data space. -/
def absOff (mi : Metainfo) (idx : Nat) : Int := idx * mi.pieceLength

/-- The piece count and the byte count agree. -/
structure ExactPieces (mi : Metainfo) : Prop where
  pos : 0 < mi.pieceLength
  nonneg : 0 ≤ mi.totalLength
  index : mi.numPieces < 2 ^ 32
  upper : mi.totalLength ≤ mi.numPieces * mi.pieceLength
  lower : 0 < mi.numPieces → (mi.numPieces - 1) * mi.pieceLength < mi.totalLength

section Exact

variable {mi : Metainfo} (exact : ExactPieces mi)

include exact

theorem pieceLen_inner {idx : Nat} (h : idx + 1 < mi.numPieces) :
    pieceLen mi idx = mi.pieceLength := by
  have hb := exact.index
  have hmod : (idx + 1) % 2 ^ 32 = idx + 1 := Nat.mod_eq_of_lt (by omega)
  rw [pieceLen, hmod, if_pos h]

theorem pieceLen_last {idx : Nat} (h : idx + 1 = mi.numPieces) :
    pieceLen mi idx = mi.totalLength - idx * mi.pieceLength := by
  have hb := exact.index
  have hlow := exact.lower (by omega)
  have hidx : (mi.numPieces : Int) - 1 = idx := by omega
  rw [hidx] at hlow
  have hmod : (idx + 1) % 2 ^ 32 = idx + 1 := Nat.mod_eq_of_lt (by omega)
  rw [pieceLen, hmod, if_neg (by omega)]
  exact if_pos (by omega)

theorem pieceLen_bounds {idx : Nat} (h : idx < mi.numPieces) :
    1 ≤ pieceLen mi idx ∧ pieceLen mi idx ≤ mi.pieceLength := by
  by_cases hin : idx + 1 < mi.numPieces
  · have hpos := exact.pos
    rw [pieceLen_inner exact hin]
    omega
  · have hlast : idx + 1 = mi.numPieces := by omega
    have hup := exact.upper
    have hlow := exact.lower (by omega)
    have hidx : (mi.numPieces : Int) = idx + 1 := by omega
    rw [hidx] at hup hlow
    rw [pieceLen_last exact hlast]
    constructor
    · have : ((idx : Int) + 1 - 1) * mi.pieceLength = idx * mi.pieceLength := by ring
      omega
    · have : ((idx : Int) + 1) * mi.pieceLength = idx * mi.pieceLength + mi.pieceLength := by ring
      omega

/-- A piece ends where the next one starts, and the last one where the data ends. -/
theorem absOff_add_pieceLen {idx : Nat} (h : idx < mi.numPieces) :
    absOff mi idx + pieceLen mi idx = min (absOff mi (idx + 1)) mi.totalLength := by
  have hsucc : absOff mi (idx + 1) = absOff mi idx + mi.pieceLength := by
    simp only [absOff, Nat.cast_add, Nat.cast_one]
    ring
  by_cases hin : idx + 1 < mi.numPieces
  · rw [pieceLen_inner exact hin, hsucc, min_eq_left]
    have hlow := exact.lower (by omega)
    have hstep : absOff mi (idx + 1) ≤ (mi.numPieces - 1) * mi.pieceLength := by
      apply mul_le_mul_of_nonneg_right _ (le_of_lt exact.pos)
      omega
    omega
  · have hlast : idx + 1 = mi.numPieces := by omega
    have hup := exact.upper
    have hidx : (mi.numPieces : Int) = idx + 1 := by omega
    rw [hidx] at hup
    have : ((idx : Int) + 1) * mi.pieceLength = absOff mi idx + mi.pieceLength := by
      simp only [absOff]
      ring
    rw [pieceLen_last exact hlast, hsucc, min_eq_right (by omega)]
    simp only [absOff]
    ring

/-- The range of a piece lies inside the data. -/
theorem piece_range {idx : Nat} (h : idx < mi.numPieces) :
    0 ≤ absOff mi idx ∧ absOff mi idx + pieceLen mi idx ≤ mi.totalLength := by
  constructor
  · exact mul_nonneg (by omega) (le_of_lt exact.pos)
  · rw [absOff_add_pieceLen exact h]
    exact min_le_right _ _

/-- Different pieces cover disjoint ranges. -/
theorem piece_disjoint {i j : Nat} (hi : i < mi.numPieces) (hij : i < j) :
    absOff mi i + pieceLen mi i ≤ absOff mi j := by
  rw [absOff_add_pieceLen exact hi]
  refine le_trans (min_le_left _ _) ?_
  apply mul_le_mul_of_nonneg_right _ (le_of_lt exact.pos)
  omega

theorem sum_pieceLen_below {n : Nat} (hn : n < mi.numPieces) :
    ∑ idx ∈ Finset.range n, pieceLen mi idx = n * mi.pieceLength := by
  induction n with
  | zero => simp
  | succ n ih =>
    rw [Finset.sum_range_succ, ih (by omega), pieceLen_inner exact hn]
    push_cast
    ring

theorem sum_pieceLen :
    ∑ idx ∈ Finset.range mi.numPieces, pieceLen mi idx = mi.totalLength := by
  cases hn : mi.numPieces with
  | zero =>
    have hup := exact.upper
    have hnn := exact.nonneg
    rw [hn] at hup
    simp only [Nat.cast_zero, Int.zero_mul] at hup
    simp only [Finset.range_zero, Finset.sum_empty]
    omega
  | succ n =>
    rw [Finset.sum_range_succ, sum_pieceLen_below exact (by omega),
      pieceLen_last exact hn.symm]
    ring

end Exact

/-- The piece count is the exact quotient, and the pieces have sane lengths that add
up to the whole. -/
def PieceCountExact (mi : Metainfo) : Prop :=
  (mi.numPieces : Int) = ⌈(mi.totalLength : ℚ) / mi.pieceLength⌉ ∧
  (0 < mi.numPieces → (mi.numPieces - 1) * mi.pieceLength < mi.totalLength ∧
    mi.totalLength ≤ mi.numPieces * mi.pieceLength) ∧
  (∀ idx, idx < mi.numPieces → 1 ≤ pieceLen mi idx ∧ pieceLen mi idx ≤ mi.pieceLength) ∧
  ∑ idx ∈ Finset.range mi.numPieces, pieceLen mi idx = mi.totalLength

theorem ceil_eq_iff {n t p : Int} (hp : 0 < p) :
    n = ⌈(t : ℚ) / p⌉ ↔ (n - 1) * p < t ∧ t ≤ n * p := by
  have hq : (0 : ℚ) < p := by exact_mod_cast hp
  rw [eq_comm, Int.ceil_eq_iff, lt_div_iff₀ hq, div_le_iff₀ hq]
  constructor
  · rintro ⟨h1, h2⟩
    exact ⟨by exact_mod_cast h1, by exact_mod_cast h2⟩
  · rintro ⟨h1, h2⟩
    exact ⟨by exact_mod_cast h1, by exact_mod_cast h2⟩

theorem ExactPieces.pieceCountExact {mi : Metainfo} (exact : ExactPieces mi) :
    PieceCountExact mi := by
  refine ⟨?_, fun h => ⟨exact.lower h, exact.upper⟩, fun idx h => pieceLen_bounds exact h,
    sum_pieceLen exact⟩
  rw [ceil_eq_iff exact.pos]
  refine ⟨?_, exact.upper⟩
  by_cases hn : 0 < mi.numPieces
  · exact exact.lower hn
  · have hz : mi.numPieces = 0 := by omega
    have hpos := exact.pos
    have hnn := exact.nonneg
    simp only [hz, Nat.cast_zero]
    omega

end PieceGeometry
