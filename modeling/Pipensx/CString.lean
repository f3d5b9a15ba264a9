import Mathlib.Algebra.Group.Int.Defs
import Pipensx.Strtod

/-!
# Strings of C

A string is the list of its bytes before the terminator. A character array holds a string that
leaves room for the terminator.
-/

namespace CText

/-- A string of C: bytes before a terminator, of which none is a terminator itself. -/
structure CString where
  bytes : List UInt8
  noNul : 0 ∉ bytes

def CString.memory (s : CString) : List UInt8 := s.bytes ++ [0]

section Tails

variable {s : CString} {p : List UInt8}

theorem nul_mem_tail (hp : p <:+ s.memory) (hsome : p ≠ []) : 0 ∈ p := by
  obtain ⟨c, hc⟩ : ∃ c, p.getLast? = some c :=
    ⟨p.getLast hsome, List.getLast?_eq_some_getLast hsome⟩
  have hlast : p.getLast? = s.memory.getLast? := by
    obtain ⟨before, hbefore⟩ := hp
    rw [← hbefore, List.getLast?_append, hc]
    rfl
  rw [CString.memory, List.getLast?_append, List.getLast?_singleton] at hlast
  exact List.mem_of_getLast? hlast

/-- The terminator is the last byte. -/
theorem nul_tail (hp : 0 :: p <:+ s.memory) : p = [] := by
  by_contra hsome
  obtain ⟨before, hbefore⟩ := hp
  obtain ⟨q, c, rfl⟩ := List.eq_nil_or_concat p |>.resolve_left hsome
  have hsplit : (before ++ 0 :: q) ++ [c] = s.bytes ++ [0] := by
    rw [← CString.memory, ← hbefore]
    simp
  have hbytes := (List.append_inj' hsplit rfl).1
  exact s.noNul (by rw [← hbytes]; simp)

end Tails

def ascii (s : List Char) : List UInt8 := s.map (fun c => c.toNat.toUInt8)

/-- What a pointer to these bytes shows. -/
def CString.ofBytes (bytes : List UInt8) : CString :=
  ⟨bytes.takeWhile (· ≠ 0), fun h => absurd (List.mem_takeWhile_imp h) (by decide)⟩

/-- `char a[size]` with a terminated string in it. -/
structure CharArray (size : Nat) extends CString where
  room : bytes.length < size

/-- At most `n` bytes are copied into an array of zeros. -/
def strncpy (size : Nat) (src : CString) (n : Nat) (h : n < size) : CharArray size where
  bytes := src.bytes.take n
  noNul hmem := src.noNul (List.mem_of_mem_take hmem)
  room := by
    rw [List.length_take]
    exact lt_of_le_of_lt (min_le_left _ _) h

/-- What is left from the first place on where the needle stands. -/
def strstr : List UInt8 → List UInt8 → Option (List UInt8)
  | [], needle => if needle = [] then some [] else none
  | c :: hay, needle => if needle.isPrefixOf (c :: hay) then some (c :: hay) else strstr hay needle

/-- The bytes compare as `unsigned char`; a string that ends first is the smaller one. -/
def strcmp : List UInt8 → List UInt8 → Int
  | [], [] => 0
  | [], d :: _ => -(d.toNat : Int)
  | c :: _, [] => c.toNat
  | c :: p, d :: q => if c = d then strcmp p q else (c.toNat : Int) - d.toNat

theorem strcmp_swap (a b : List UInt8) : strcmp b a = -strcmp a b := by
  induction a, b using strcmp.induct with
  | case1 => rfl
  | case2 d q => exact (neg_neg _).symm
  | case3 c p => rfl
  | case4 p d q ih => rw [strcmp, strcmp, if_pos rfl, if_pos rfl, ih]
  | case5 c p d q hne => rw [strcmp, strcmp, if_neg hne, if_neg (Ne.symm hne), Int.neg_sub]

theorem strcmp_cons_le {c d : UInt8} {p q : List UInt8} :
    strcmp (c :: p) (d :: q) ≤ 0 ↔ c.toNat < d.toNat ∨ c = d ∧ strcmp p q ≤ 0 := by
  rw [strcmp]
  by_cases heq : c = d
  · subst heq
    simp
  · have hne : c.toNat ≠ d.toNat := fun h => heq (UInt8.toNat_inj.mp h)
    rw [if_neg heq]
    simp only [heq, false_and, or_false]
    omega

theorem strcmp_trans {a b c : List UInt8} (ha : 0 ∉ a) (hb : 0 ∉ b) (hab : strcmp a b ≤ 0)
    (hbc : strcmp b c ≤ 0) : strcmp a c ≤ 0 := by
  have hpos : ∀ {x : UInt8} {p : List UInt8}, 0 ∉ x :: p → ¬ strcmp (x :: p) [] ≤ 0 := by
    intro x p hx hle
    have hzero : x.toNat = (0 : UInt8).toNat := by
      rw [strcmp] at hle
      simpa using hle
    exact hx (by rw [UInt8.toNat_inj.mp hzero]; exact List.mem_cons_self)
  induction a generalizing b c with
  | nil =>
    cases c with
    | nil => exact Int.le_refl 0
    | cons z c =>
      rw [strcmp]
      omega
  | cons x a ih =>
    cases b with
    | nil => exact absurd hab (hpos ha)
    | cons y b =>
      cases c with
      | nil => exact absurd hbc (hpos hb)
      | cons z c =>
        rw [strcmp_cons_le] at hab hbc ⊢
        rcases hab with hxy | ⟨rfl, hab⟩
        · rcases hbc with hyz | ⟨rfl, _⟩
          · exact Or.inl (hxy.trans hyz)
          · exact Or.inl hxy
        · rcases hbc with hxz | ⟨rfl, hbc⟩
          · exact Or.inl hxz
          · exact Or.inr ⟨rfl, ih (fun h => ha (List.mem_cons_of_mem _ h))
              (fun h => hb (List.mem_cons_of_mem _ h)) hab hbc⟩

/-- `strtol` with base 10 on a machine with a `long` of 64 bits: `none` where nothing is converted.
-/
def strtol (nptr : List UInt8) : Option Int :=
  let start := nptr.dropWhile isSpace
  let digits := (skipSign start).takeWhile isDigit
  let value : Nat := digits.foldl (fun n d => n * 10 + (d.toNat - 48)) 0
  if digits = [] then none
  else if start.head? = some minus then some (max (-2 ^ 63) (-(value : Int)))
  else some (min (2 ^ 63 - 1) (value : Int))

end CText
