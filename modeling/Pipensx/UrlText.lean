import Mathlib.Data.List.Basic

/-!
# Queries of URLs

A byte of a parameter that is not unreserved is written as a percent sign and two hexadecimal
digits. The query of a URL is what comes after its first question mark; ampersands separate its
parameters, and the first equals sign ends the name of a parameter.
-/

namespace UrlText

abbrev percent : UInt8 := 37
abbrev ampersand : UInt8 := 38
abbrev equals : UInt8 := 61
abbrev question : UInt8 := 63

def isDigit (c : UInt8) : Bool := 48 ≤ c && c ≤ 57

def isUpper (c : UInt8) : Bool := 65 ≤ c && c ≤ 90

def isLower (c : UInt8) : Bool := 97 ≤ c && c ≤ 122

/-- Letters, digits, `-`, `_`, `.` and `~`. -/
def unreserved (c : UInt8) : Bool :=
  isDigit c || isUpper c || isLower c || c == 45 || c == 95 || c == 46 || c == 126

def hexDigit (n : Nat) : UInt8 := if n < 10 then UInt8.ofNat (48 + n) else UInt8.ofNat (55 + n)

/-- In either case. -/
def hexValue (c : UInt8) : Option Nat :=
  if isDigit c then some (c.toNat - 48)
  else if 65 ≤ c && c ≤ 70 then some (c.toNat - 55)
  else if 97 ≤ c && c ≤ 102 then some (c.toNat - 87)
  else none

def group (b : UInt8) : List UInt8 := [percent, hexDigit (b.toNat / 16), hexDigit (b.toNat % 16)]

def encode (bytes : List UInt8) : List UInt8 :=
  bytes.flatMap fun b => if unreserved b then [b] else group b

/-- A percent sign without its digits has no meaning. -/
def decode : List UInt8 → Option (List UInt8)
  | [] => some []
  | c :: rest =>
    if c = percent then
      match rest with
      | high :: low :: rest =>
        match hexValue high, hexValue low with
        | some x, some y => (decode rest).map (UInt8.ofNat (16 * x + y) :: ·)
        | _, _ => none
      | _ => none
    else (decode rest).map (c :: ·)

/-- Unreserved characters, and percent signs with two digits. -/
inductive Encoded : List UInt8 → Prop where
  | nil : Encoded []
  | plain {c : UInt8} {rest : List UInt8} : unreserved c = true → Encoded rest → Encoded (c :: rest)
  | group {high low : UInt8} {rest : List UInt8} : (hexValue high).isSome = true →
      (hexValue low).isSome = true → Encoded rest → Encoded (percent :: high :: low :: rest)

section Encoding

theorem hexValue_hexDigit : ∀ n, n < 16 → hexValue (hexDigit n) = some n := by decide

theorem encode_cons (b : UInt8) (bytes : List UInt8) :
    encode (b :: bytes) = (if unreserved b then [b] else group b) ++ encode bytes :=
  List.flatMap_cons

theorem digits_of_byte (b : UInt8) : hexValue (hexDigit (b.toNat / 16)) = some (b.toNat / 16) ∧
    hexValue (hexDigit (b.toNat % 16)) = some (b.toNat % 16) := by
  have hlt := b.toNat_lt
  exact ⟨hexValue_hexDigit _ (by omega), hexValue_hexDigit _ (by omega)⟩

theorem decode_plain {c : UInt8} (h : c ≠ percent) (rest : List UInt8) :
    decode (c :: rest) = (decode rest).map (c :: ·) := by
  rw [decode.eq_def]
  exact if_neg h

theorem decode_group {high low : UInt8} {x y : Nat} (hx : hexValue high = some x)
    (hy : hexValue low = some y) (rest : List UInt8) :
    decode (percent :: high :: low :: rest) =
      (decode rest).map (UInt8.ofNat (16 * x + y) :: ·) := by
  rw [decode, if_pos rfl]
  simp only [hx, hy]

theorem decode_encode (bytes : List UInt8) : decode (encode bytes) = some bytes := by
  induction bytes with
  | nil => rw [encode, List.flatMap_nil, decode]
  | cons b bytes ih =>
    rw [encode_cons]
    by_cases hplain : unreserved b = true
    · have hb : b ≠ percent := by
        rintro rfl
        exact absurd hplain (by decide)
      rw [if_pos hplain, List.singleton_append, decode_plain hb, ih]
      rfl
    · obtain ⟨hhigh, hlow⟩ := digits_of_byte b
      have hvalue : UInt8.ofNat (16 * (b.toNat / 16) + b.toNat % 16) = b := by
        rw [Nat.div_add_mod]
        exact UInt8.ofNat_toNat
      rw [if_neg hplain, group, List.cons_append, List.cons_append, List.singleton_append,
        decode_group hhigh hlow, ih, hvalue]
      rfl

theorem encoded_encode (bytes : List UInt8) : Encoded (encode bytes) := by
  induction bytes with
  | nil => exact .nil
  | cons b bytes ih =>
    rw [encode_cons]
    by_cases hplain : unreserved b = true
    · rw [if_pos hplain]
      exact .plain hplain ih
    · obtain ⟨hhigh, hlow⟩ := digits_of_byte b
      rw [if_neg hplain]
      exact .group (by rw [hhigh]; rfl) (by rw [hlow]; rfl) ih

theorem hexValue_ne {c d : UInt8} (hc : (hexValue c).isSome = true) (hd : hexValue d = none) :
    c ≠ d := by
  rintro rfl
  rw [hd] at hc
  cases hc

theorem Encoded.not_ampersand {text : List UInt8} (h : Encoded text) : ampersand ∉ text := by
  induction h with
  | nil => exact List.not_mem_nil
  | @plain c rest hplain _ ih =>
    have hc : ampersand ≠ c := by
      rintro rfl
      exact absurd hplain (by decide)
    exact List.not_mem_cons_of_ne_of_not_mem hc ih
  | @group high low rest hhigh hlow _ ih =>
    have hh : ampersand ≠ high := (hexValue_ne hhigh (by decide)).symm
    have hl : ampersand ≠ low := (hexValue_ne hlow (by decide)).symm
    exact List.not_mem_cons_of_ne_of_not_mem (by decide)
      (List.not_mem_cons_of_ne_of_not_mem hh (List.not_mem_cons_of_ne_of_not_mem hl ih))

end Encoding

/-- The name and the value of a parameter. -/
def field (text : List UInt8) : List UInt8 × List UInt8 :=
  (text.takeWhile (· ≠ equals), (text.dropWhile (· ≠ equals)).drop 1)

/-- The parameters of a URL, in order. -/
def parameters (url : List UInt8) : List (List UInt8 × List UInt8) :=
  if question ∈ url then (((url.dropWhile (· ≠ question)).drop 1).splitOn ampersand).map field else
    []

def queryText (fields : List (List UInt8 × List UInt8)) : List UInt8 :=
  [ampersand].intercalate (fields.map fun f => f.1 ++ equals :: f.2)

/-- More parameters, behind the others or as the first ones. -/
def withQuery (url : List UInt8) (fields : List (List UInt8 × List UInt8)) : List UInt8 :=
  url ++ (if question ∈ url then ampersand else question) :: queryText fields

/-- A parameter that can be read back. -/
structure Clean (f : List UInt8 × List UInt8) : Prop where
  name : ampersand ∉ f.1 ∧ equals ∉ f.1
  value : ampersand ∉ f.2

section Parameters

variable {fields : List (List UInt8 × List UInt8)}

theorem clean_pair {name value : List UInt8} (hname : ampersand ∉ name ∧ equals ∉ name)
    (hvalue : ampersand ∉ value) : Clean (name, value) := ⟨hname, hvalue⟩

theorem all_other {sep : UInt8} {l : List UInt8} (h : sep ∉ l) :
    ∀ c ∈ l, decide (c ≠ sep) = true := by
  rintro c hc
  refine decide_eq_true ?_
  rintro rfl
  exact h hc

theorem dropWhile_first {sep : UInt8} {l : List UInt8} (h : sep ∉ l) (rest : List UInt8) :
    (l ++ sep :: rest).dropWhile (· ≠ sep) = sep :: rest := by
  rw [List.dropWhile_append_of_pos (all_other h), List.dropWhile_cons_of_neg (by simp)]

theorem queryText_single (f : List UInt8 × List UInt8) : queryText [f] = f.1 ++ equals :: f.2 :=
  List.intercalate_singleton

theorem queryText_cons (f g : List UInt8 × List UInt8) (fields : List (List UInt8 × List UInt8)) :
    queryText (f :: g :: fields) =
      f.1 ++ equals :: (f.2 ++ ampersand :: queryText (g :: fields)) := by
  rw [queryText, List.map_cons, List.map_cons, List.intercalate_cons_cons]
  simp only [List.append_assoc, List.cons_append, List.nil_append]
  rfl

theorem field_text {f : List UInt8 × List UInt8} (h : Clean f) :
    field (f.1 ++ equals :: f.2) = f := by
  rw [field, dropWhile_first h.name.2, List.takeWhile_append_of_pos (all_other h.name.2),
    List.takeWhile_cons_of_neg (by simp), List.append_nil]
  rfl

theorem splitOn_queryText (clean : ∀ f ∈ fields, Clean f) (hne : fields ≠ []) :
    ((queryText fields).splitOn ampersand).map field = fields := by
  rw [queryText, List.splitOn_intercalate ampersand ?_ (by simpa using hne), List.map_map]
  · refine (List.map_congr_left fun f hf => ?_).trans (List.map_id fields)
    exact field_text (clean f hf)
  · rintro text htext hmem
    obtain ⟨f, hf, rfl⟩ := List.mem_map.mp htext
    rcases List.mem_append.mp hmem with hname | hrest
    · exact (clean f hf).name.1 hname
    · rcases List.mem_cons.mp hrest with heq | hvalue
      · exact absurd heq (by decide)
      · exact (clean f hf).value hvalue

/-- The new parameters come after those of the URL. -/
theorem parameters_withQuery (url : List UInt8) (clean : ∀ f ∈ fields, Clean f)
    (hne : fields ≠ []) : parameters (withQuery url fields) = parameters url ++ fields := by
  rw [withQuery]
  by_cases hquery : question ∈ url
  · obtain ⟨before, after, rfl, hbefore⟩ := List.eq_append_cons_of_mem hquery
    rw [if_pos hquery, parameters, parameters, if_pos hquery,
      if_pos (List.mem_append_left _ hquery), List.append_assoc,
      List.cons_append, dropWhile_first hbefore, dropWhile_first hbefore, List.drop_one,
      List.drop_one, List.tail_cons,
      List.tail_cons, List.splitOn_append_cons_self, List.map_append, splitOn_queryText clean hne]
  · rw [if_neg hquery, parameters, parameters, if_neg hquery, if_pos (by simp),
      dropWhile_first hquery, List.drop_one,
      List.tail_cons, splitOn_queryText clean hne, List.nil_append]

end Parameters

end UrlText
