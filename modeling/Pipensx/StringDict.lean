import Mathlib.Tactic.Ring
import Pipensx.BencodeGrammar

/-!
# Dictionaries of strings

A byte string is written as its length in decimal, a colon and the bytes. A dictionary whose
values are all strings is read back by `be_dict_get`: for each key it finds the bytes that
were written under it first.
-/

namespace Bencode

/-- What `%u` prints. -/
def decimalText (n : Nat) : List UInt8 := (Nat.toDigits 10 n).map (fun c => UInt8.ofNat c.toNat)

theorem decimalText_ne_nil (n : Nat) : decimalText n ≠ [] := by
  simp [decimalText, Nat.toDigits_ne_nil]

theorem digit_toNat {c : Char} (h : c.isDigit = true) :
    (UInt8.ofNat c.toNat).toNat = c.toNat ∧ 48 ≤ c.toNat ∧ c.toNat ≤ 57 := by
  simp only [Char.isDigit, Bool.and_eq_true, decide_eq_true_eq, ge_iff_le,
    UInt32.le_iff_toNat_le] at h
  have hlow : 48 ≤ c.toNat := h.1
  have hhigh : c.toNat ≤ 57 := h.2
  refine ⟨?_, hlow, hhigh⟩
  rw [UInt8.toNat_ofNat']
  omega

theorem decimalText_isDigit (n : Nat) : ∀ c ∈ decimalText n, IsDigit c := by
  intro c hc
  obtain ⟨d, hd, rfl⟩ := List.mem_map.mp hc
  obtain ⟨hsame, hlow, hhigh⟩ :=
    digit_toNat (Nat.isDigit_of_mem_toDigits (by decide) (by decide) hd)
  rw [IsDigit, hsame]
  exact ⟨hlow, hhigh⟩

theorem decimalFrom_digits (ds : List Char) (hds : ∀ c ∈ ds, c.isDigit = true) (v : Nat) :
    decimalFrom v (ds.map (fun c => UInt8.ofNat c.toNat)) = Nat.ofDigitChars 10 ds v := by
  induction ds generalizing v with
  | nil => simp [decimalFrom]
  | cons c rest ih =>
    have hfirst := (digit_toNat (hds c (by simp))).1
    have hstep : v * 10 + digitVal (UInt8.ofNat c.toNat) = 10 * v + (c.toNat - '0'.toNat) := by
      rw [digitVal, hfirst]
      have hzero : '0'.toNat = 48 := rfl
      omega
    have hrest := ih (fun d hd => hds d (by simp [hd])) (v * 10 + digitVal (UInt8.ofNat c.toNat))
    simp only [decimalFrom] at hrest
    simp only [decimalFrom, List.map_cons, List.foldl_cons]
    rw [hrest, Nat.ofDigitChars_cons, hstep]

theorem decimalFrom_decimalText (n : Nat) : decimalFrom 0 (decimalText n) = n := by
  rw [decimalText, decimalFrom_digits _ (fun c hc => Nat.isDigit_of_mem_toDigits (by decide)
    (by decide) hc)]
  exact Nat.ofDigitChars_ten_toDigits

theorem decimalText_length_le_iff {n k : Nat} (hk : 0 < k) :
    (decimalText n).length ≤ k ↔ n < 10 ^ k := by
  rw [decimalText, List.length_map]
  exact Nat.length_toDigits_le_iff (by decide) hk

/-- A byte string as it is written. -/
def strText (body : List UInt8) : List UInt8 := decimalText body.length ++ colon :: body

/-- One pair after the other. -/
def pairsText (pairs : List (List UInt8 × List UInt8)) : List UInt8 :=
  (pairs.map (fun q => strText q.1 ++ strText q.2)).flatten

def dictText (pairs : List (List UInt8 × List UInt8)) : List UInt8 :=
  letterD :: (pairsText pairs ++ [letterE])

theorem strText_text {body : List UInt8} (hfit : body.length ≤ sizeMax) : StrText (strText body) :=
  ⟨decimalText body.length, body, decimalText_ne_nil _, decimalText_isDigit _,
    decimalFrom_decimalText _, hfit, rfl⟩

/-- A dictionary of strings is one value, with the strings one level down. -/
theorem dictText_value {pairs : List (List UInt8 × List UInt8)}
    (hfit : ∀ q ∈ pairs, q.1.length ≤ sizeMax ∧ q.2.length ≤ sizeMax) :
    Value 1 (dictText pairs) := by
  have hvalue : Value 1 (letterD ::
      (((pairs.map (fun q => (strText q.1, strText q.2))).map (fun q => q.1 ++ q.2)).flatten ++
        [letterE])) := by
    refine .dict _ (fun _ => by omega) ?_ ?_
    · intro q hq
      obtain ⟨q', hq', rfl⟩ := List.mem_map.mp hq
      exact strText_text (hfit q' hq').1
    · intro q hq
      obtain ⟨q', hq', rfl⟩ := List.mem_map.mp hq
      exact .str (strText_text (hfit q' hq').2)
  rw [List.map_map] at hvalue
  exact hvalue

section Read

variable {mem : Memory} {p : Nat}

theorem parseStr_strText (stop : Nat) {body : List UInt8} (hfit : body.length ≤ sizeMax)
    (held : Holds mem p (strText body)) (inside : p + (strText body).length ≤ stop) :
    ∃ k, parseStr mem stop p = some (k, body.length, p + (strText body).length) ∧
      slice mem k body.length = body := by
  refine ⟨_, parseStr_text (decimalText_ne_nil _) (decimalText_isDigit _)
    (decimalFrom_decimalText _) hfit held inside, ?_⟩
  simp only [strText, holds_append, holds_cons] at held
  exact held.2.2

/-- A string is decoded to a node that refers to its bytes. -/
theorem beDecode_strText (stop : Nat) {body : List UInt8} (hfit : body.length ≤ sizeMax)
    (held : Holds mem p (strText body)) (inside : p + (strText body).length ≤ stop) (out : BeNode) :
    ∃ node, beDecode mem stop p out = ⟨true, p + (strText body).length, node⟩ ∧ node.type = .str ∧
      node.slen = body.length ∧ slice mem node.sval node.slen = body := by
  obtain ⟨k, hparse, hbody⟩ := parseStr_strText stop hfit held inside
  obtain ⟨c, rest, htext, hdigit⟩ := (strText_text hfit).head
  have hfirst : IsDigit (mem p) := by
    rw [htext] at held
    exact ((holds_cons _ _ _ _).mp held).1 ▸ hdigit
  have hstop : ¬ p ≥ stop := by
    rw [htext, List.length_cons] at inside
    omega
  have hint : mem p ≠ letterI := by
    intro hletter
    rw [hletter] at hfirst
    exact absurd hfirst (by decide)
  refine ⟨⟨.str, p, p + (strText body).length - p, out.ival, k, body.length⟩, ?_, rfl, rfl, hbody⟩
  simp only [beDecode, if_neg hstop, if_neg hint, if_pos hfirst, hparse]

/-- One pair is read, and the cursor is at the next one. -/
theorem beDictNext_pair (stop : Nat) {key value : List UInt8} (hkey : key.length ≤ sizeMax)
    (hvalue : value.length ≤ sizeMax) (held : Holds mem p (strText key ++ strText value))
    (inside : p + (strText key ++ strText value).length ≤ stop) :
    ∃ k node, beDictNext mem stop p BeNode.blank =
        (true, p + (strText key ++ strText value).length, k, key.length, node) ∧
      slice mem k key.length = key ∧ node.type = .str ∧ node.slen = value.length ∧
      slice mem node.sval node.slen = value := by
  rw [List.length_append] at inside ⊢
  obtain ⟨hheld, hheld'⟩ := (holds_append _ _ _ _).mp held
  obtain ⟨k, hparse, hslice⟩ := parseStr_strText stop hkey hheld (by omega)
  obtain ⟨node, hdecode, htype, hlen, hbody⟩ :=
    beDecode_strText stop hvalue hheld' (by omega) BeNode.blank
  obtain ⟨c, rest, htext, hdigit⟩ := (strText_text hkey).head
  have hfirst : mem p = c := by
    rw [htext] at hheld
    exact ((holds_cons _ _ _ _).mp hheld).1
  have hstart : ¬ (p ≥ stop ∨ mem p = letterE) := by
    rintro (hover | hletter)
    · rw [htext, List.length_cons] at inside
      omega
    · rw [← hfirst, hletter] at hdigit
      exact absurd hdigit (by decide)
  refine ⟨k, node, ?_, hslice, htype, hlen, hbody⟩
  rw [beDictNext, if_neg hstart, hparse]
  simp only [hdecode, Nat.add_assoc]

theorem length_le_pairsText (pairs : List (List UInt8 × List UInt8)) :
    pairs.length ≤ (pairsText pairs).length := by
  induction pairs with
  | nil => simp
  | cons q rest ih =>
    simp only [pairsText, List.map_cons, List.flatten_cons, List.length_append, List.length_cons,
      strText] at ih ⊢
    omega

/-- The search goes past other keys to the first pair with the key. -/
theorem dictGetLoop_pairs {stop : Nat} (key value : List UInt8)
    (after : List (List UInt8 × List UInt8))
    (before : List (List UInt8 × List UInt8)) (fuel p : Nat) (hfuel : before.length < fuel)
    (hother : ∀ q ∈ before, q.1 ≠ key)
    (hfit : ∀ q ∈ before ++ (key, value) :: after, q.1.length ≤ sizeMax ∧ q.2.length ≤ sizeMax)
    (held : Holds mem p (pairsText (before ++ (key, value) :: after)))
    (inside : p + (pairsText (before ++ (key, value) :: after)).length ≤ stop) :
    ∃ node, dictGetLoop mem stop key fuel p = some node ∧ node.type = .str ∧
      node.slen = value.length ∧ slice mem node.sval node.slen = value := by
  induction before generalizing fuel p with
  | nil =>
    cases fuel with
    | zero => omega
    | succ fuel =>
      obtain ⟨hkey, hvalue⟩ := hfit (key, value) (by simp)
      simp only [List.nil_append, pairsText, List.map_cons, List.flatten_cons] at held inside
      rw [List.length_append] at inside
      dsimp only at hkey hvalue
      obtain ⟨k, node, hnext, hslice, hnode⟩ :=
        beDictNext_pair stop hkey hvalue ((holds_append _ _ _ _).mp held).1 (by omega)
      refine ⟨node, ?_, hnode⟩
      simp only [dictGetLoop, hnext, if_pos (And.intro trivial hslice)]
  | cons q rest ih =>
    cases fuel with
    | zero => omega
    | succ fuel =>
      obtain ⟨hkey, hvalue⟩ := hfit q (by simp)
      simp only [List.cons_append, pairsText, List.map_cons, List.flatten_cons] at held inside
      rw [List.length_append] at inside
      obtain ⟨hfirst, hrest⟩ := (holds_append _ _ _ _).mp held
      obtain ⟨k, node, hnext, hslice, _⟩ := beDictNext_pair stop hkey hvalue hfirst (by omega)
      have hnot : ¬ (q.1.length = key.length ∧ slice mem k q.1.length = key) := by
        rintro ⟨_, hsame⟩
        rw [hslice] at hsame
        exact hother q (by simp) hsame
      obtain ⟨found, hfound, hnode⟩ :=
        ih fuel _ (by simpa using hfuel) (fun q' hq' => hother q' (by simp [hq']))
        (fun q' hq' => hfit q' (List.mem_cons_of_mem q hq')) hrest (by
          rw [pairsText]
          omega)
      refine ⟨found, ?_, hnode⟩
      simp only [dictGetLoop, hnext, if_neg hnot, hfound]

/-- The value under a key, in a dictionary that starts at `p`. -/
theorem beDictGet_dictText (stop : Nat) (key value : List UInt8)
    (before after : List (List UInt8 × List UInt8))
    (hother : ∀ q ∈ before, q.1 ≠ key)
    (hfit : ∀ q ∈ before ++ (key, value) :: after, q.1.length ≤ sizeMax ∧ q.2.length ≤ sizeMax)
    (held : Holds mem p (dictText (before ++ (key, value) :: after)))
    (hstop : stop = p + (dictText (before ++ (key, value) :: after)).length) :
    ∃ node, beDictGet mem p stop key = some node ∧ node.type = .str ∧
      node.slen = value.length ∧ slice mem node.sval node.slen = value := by
  simp only [dictText, holds_cons, holds_append] at held
  have hlong := length_le_pairsText (before ++ (key, value) :: after)
  simp only [dictText, List.length_cons, List.length_append, List.length_nil] at hstop hlong
  obtain ⟨node, hnode⟩ : ∃ node, dictGetLoop mem stop key (stop - p) (p + 1) = some node ∧ _ :=
    dictGetLoop_pairs key value after before (stop - p) (p + 1) (by omega) hother hfit
      held.2.1 (by omega)
  refine ⟨node, ?_, hnode.2⟩
  rw [beDictGet, if_neg (by rw [not_or, not_not]; exact ⟨by omega, held.1⟩)]
  exact hnode.1

end Read

end Bencode
