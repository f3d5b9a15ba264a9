import Mathlib.Data.List.Basic
import Mathlib.Data.List.TakeWhile

/-!
# Where `strtod` stops

A C string is the list of its bytes from a pointer on. `strtod` skips white space, takes a sign
and then the longest text of one of the forms of the C standard: a decimal or a hexadecimal
floating constant, an infinity or a NaN. What it leaves is returned; where none of the forms
fits, that is everything. The locale is "C", so that the radix character is a point.
-/

namespace CText

abbrev plus : UInt8 := 43
abbrev minus : UInt8 := 45
abbrev point : UInt8 := 46
abbrev zero : UInt8 := 48
abbrev letterE : UInt8 := 101
abbrev letterP : UInt8 := 112
abbrev letterX : UInt8 := 120

def isSpace (c : UInt8) : Bool := c = 32 || (9 ≤ c && c ≤ 13)

def isDigit (c : UInt8) : Bool := 48 ≤ c && c ≤ 57

def toLower (c : UInt8) : UInt8 := if 65 ≤ c && c ≤ 90 then c + 32 else c

def isHexDigit (c : UInt8) : Bool := isDigit c || (97 ≤ toLower c && toLower c ≤ 102)

/-- What may stand between the parentheses of `NAN(...)`. -/
def isWordByte (c : UInt8) : Bool := isDigit c || (97 ≤ toLower c && toLower c ≤ 122) || c = 95

def skipSign : List UInt8 → List UInt8
  | [] => []
  | c :: r => if c = plus ∨ c = minus then r else c :: r

/-- Digits with at most one radix character among them, and at least one digit. -/
def mantissa (digit : UInt8 → Bool) (p : List UInt8) : Option (List UInt8) :=
  match p.dropWhile digit with
  | [] => if p.takeWhile digit = [] then none else some []
  | c :: r =>
    if c = point then
      if p.takeWhile digit = [] ∧ r.takeWhile digit = [] then none else some (r.dropWhile digit)
    else if p.takeWhile digit = [] then none
    else some (c :: r)

/-- An exponent is taken only with its digits. -/
def exponent (mark : UInt8) : List UInt8 → List UInt8
  | [] => []
  | c :: r =>
    if toLower c = mark ∧ (skipSign r).takeWhile isDigit ≠ [] then (skipSign r).dropWhile isDigit
    else c :: r

def decimal (p : List UInt8) : Option (List UInt8) := (mantissa isDigit p).map (exponent letterE)

def hexadecimal : List UInt8 → Option (List UInt8)
  | c :: x :: p =>
    if c = zero ∧ toLower x = letterX then (mantissa isHexDigit p).map (exponent letterP) else none
  | _ => none

/-- A word in any case; `w` is in lower case. -/
def word (w p : List UInt8) : Option (List UInt8) :=
  if (p.take w.length).map toLower = w then some (p.drop w.length) else none

/-- `(`, letters, digits and underscores, `)`. -/
def nanSuffix : List UInt8 → List UInt8
  | [] => []
  | c :: p =>
    if c = 40 then
      match p.dropWhile isWordByte with
      | [] => c :: p
      | d :: r => if d = 41 then r else c :: p
    else c :: p

def infinityOrNan (p : List UInt8) : Option (List UInt8) :=
  (word [105, 110, 102, 105, 110, 105, 116, 121] p).or
    ((word [105, 110, 102] p).or ((word [110, 97, 110] p).map nanSuffix))

/-- The forms after the sign. -/
def subject (p : List UInt8) : Option (List UInt8) :=
  (hexadecimal p).or ((decimal p).or (infinityOrNan p))

/-- What `strtod` leaves of its argument, `*endptr`. -/
def strtod (nptr : List UInt8) : List UInt8 :=
  (subject (skipSign (nptr.dropWhile isSpace))).getD nptr

theorem skipSign_suffix (p : List UInt8) : skipSign p <:+ p := by
  cases p with
  | nil => exact List.suffix_rfl
  | cons c r =>
    rw [skipSign]
    split
    · exact List.suffix_cons c r
    · exact List.suffix_rfl

theorem takeWhile_length_pos {digit : UInt8 → Bool} {p : List UInt8} (h : p.takeWhile digit ≠ []) :
    (p.dropWhile digit).length < p.length := by
  have hsplit := congrArg List.length (List.takeWhile_append_dropWhile (p := digit) (l := p))
  have hpos := List.length_pos_iff.mpr h
  rw [List.length_append] at hsplit
  omega

theorem mantissa_shorter {digit : UInt8 → Bool} {p q : List UInt8} (h : mantissa digit p = some q) :
    q <:+ p ∧ q.length < p.length := by
  have hdrop := List.dropWhile_suffix digit (l := p)
  have hlen := hdrop.length_le
  rw [mantissa] at h
  split at h
  · next hrest =>
    split at h
    · cases h
    · next hsome =>
      cases h
      have hshort := takeWhile_length_pos hsome
      rw [hrest] at hshort
      exact ⟨List.nil_suffix, hshort⟩
  · next c r hrest =>
    rw [hrest] at hdrop hlen
    have hfrac := List.dropWhile_suffix digit (l := r)
    have hfraclen := hfrac.length_le
    rw [List.length_cons] at hlen
    split at h
    · split at h
      · cases h
      · cases h
        exact ⟨hfrac.trans ((List.suffix_cons c r).trans hdrop), by omega⟩
    · split at h
      · cases h
      · next hsome =>
        cases h
        have hshort := takeWhile_length_pos hsome
        rw [hrest] at hshort
        exact ⟨hdrop, hshort⟩

theorem exponent_suffix (mark : UInt8) (p : List UInt8) : exponent mark p <:+ p := by
  cases p with
  | nil => exact List.suffix_rfl
  | cons c r =>
    rw [exponent]
    split
    · exact (List.dropWhile_suffix isDigit).trans ((skipSign_suffix r).trans (List.suffix_cons c r))
    · exact List.suffix_rfl

theorem constant_shorter {digit : UInt8 → Bool} {mark : UInt8} {p q : List UInt8}
    (h : (mantissa digit p).map (exponent mark) = some q) : q <:+ p ∧ q.length < p.length := by
  obtain ⟨r, hr, rfl⟩ := Option.map_eq_some_iff.mp h
  obtain ⟨hsuffix, hlen⟩ := mantissa_shorter hr
  have hexp := exponent_suffix mark r
  exact ⟨hexp.trans hsuffix, lt_of_le_of_lt hexp.length_le hlen⟩

theorem hexadecimal_shorter {p q : List UInt8} (h : hexadecimal p = some q) :
    q <:+ p ∧ q.length < p.length := by
  rw [hexadecimal.eq_def] at h
  split at h
  · next c x p =>
    split at h
    · obtain ⟨hsuffix, hlen⟩ := constant_shorter h
      refine ⟨hsuffix.trans ((List.suffix_cons x p).trans (List.suffix_cons c _)), ?_⟩
      rw [List.length_cons, List.length_cons]
      omega
    · cases h
  · cases h

theorem word_shorter {w p q : List UInt8} (hw : w ≠ []) (h : word w p = some q) :
    q <:+ p ∧ q.length < p.length := by
  rw [word] at h
  split at h
  · next hword =>
    cases h
    have hlen := congrArg List.length hword
    have hpos := List.length_pos_iff.mpr hw
    rw [List.length_map, List.length_take] at hlen
    refine ⟨List.drop_suffix _ _, ?_⟩
    rw [List.length_drop]
    omega
  · cases h

theorem nanSuffix_suffix (p : List UInt8) : nanSuffix p <:+ p := by
  cases p with
  | nil => exact List.suffix_rfl
  | cons c p =>
    have hdrop := List.dropWhile_suffix isWordByte (l := p)
    rw [nanSuffix]
    split
    · split
      · exact List.suffix_rfl
      · next d r hrest =>
        rw [hrest] at hdrop
        split
        · exact (List.suffix_cons d r).trans (hdrop.trans (List.suffix_cons c p))
        · exact List.suffix_rfl
    · exact List.suffix_rfl

theorem infinityOrNan_shorter {p q : List UInt8} (h : infinityOrNan p = some q) :
    q <:+ p ∧ q.length < p.length := by
  rw [infinityOrNan, Option.or_eq_some_iff, Option.or_eq_some_iff] at h
  rcases h with h | ⟨_, h | ⟨_, h⟩⟩
  · exact word_shorter (by decide) h
  · exact word_shorter (by decide) h
  · obtain ⟨r, hr, rfl⟩ := Option.map_eq_some_iff.mp h
    obtain ⟨hsuffix, hlen⟩ := word_shorter (by decide) hr
    have hnan := nanSuffix_suffix r
    exact ⟨hnan.trans hsuffix, lt_of_le_of_lt hnan.length_le hlen⟩

theorem subject_shorter {p q : List UInt8} (h : subject p = some q) :
    q <:+ p ∧ q.length < p.length := by
  rw [subject, Option.or_eq_some_iff, Option.or_eq_some_iff] at h
  rcases h with h | ⟨_, h | ⟨_, h⟩⟩
  · exact hexadecimal_shorter h
  · exact constant_shorter h
  · exact infinityOrNan_shorter h

/-- It leaves everything or strictly less. -/
theorem strtod_progress (nptr : List UInt8) :
    strtod nptr <:+ nptr ∧ (strtod nptr = nptr ∨ (strtod nptr).length < nptr.length) := by
  rw [strtod]
  cases h : subject (skipSign (nptr.dropWhile isSpace)) with
  | none => exact ⟨List.suffix_rfl, Or.inl rfl⟩
  | some q =>
    obtain ⟨hsuffix, hlen⟩ := subject_shorter h
    have hstart := (skipSign_suffix (nptr.dropWhile isSpace)).trans (List.dropWhile_suffix isSpace)
    exact ⟨hsuffix.trans hstart, Or.inr (lt_of_lt_of_le hlen hstart.length_le)⟩

/-- A byte that ends a number. -/
def Ends (rest : List UInt8) : Prop :=
  ∀ c ∈ rest.head?, isDigit c = false ∧ c ≠ point ∧ toLower c ≠ letterE ∧ toLower c ≠ letterX

/-- A decimal floating constant with at least one digit before the point, if there is one. -/
structure Decimal where
  sign : List UInt8
  int : List UInt8
  frac : List UInt8
  exp : List UInt8
  sign_form : sign = [] ∨ sign = [minus]
  int_some : int ≠ []
  int_digits : ∀ c ∈ int, isDigit c = true
  frac_form : frac = [] ∨ ∃ ds, ds ≠ [] ∧ (∀ c ∈ ds, isDigit c = true) ∧ frac = point :: ds
  exp_form : exp = [] ∨ ∃ mark s ds, toLower mark = letterE ∧ (s = [] ∨ s = [plus] ∨ s = [minus]) ∧
    ds ≠ [] ∧ (∀ c ∈ ds, isDigit c = true) ∧ exp = mark :: s ++ ds

def Decimal.text (d : Decimal) : List UInt8 := d.sign ++ d.int ++ d.frac ++ d.exp

theorem forall_byte {P : UInt8 → Prop} (small : ∀ n : Fin 256, P (UInt8.ofNat n)) (c : UInt8) :
    P c := by
  have hc := small ⟨c.toNat, c.toNat_lt⟩
  rwa [UInt8.ofNat_toNat] at hc

theorem not_digit_of_toLower {c : UInt8} (h : toLower c = letterE) :
    isDigit c = false ∧ c ≠ point ∧ toLower c ≠ letterX := by
  revert h
  induction c using forall_byte with
  | small n =>
    revert n
    decide +kernel

theorem digit_facts {c : UInt8} (h : isDigit c = true) :
    isSpace c = false ∧ c ≠ plus ∧ c ≠ minus ∧ toLower c ≠ letterX := by
  revert h
  induction c using forall_byte with
  | small n =>
    revert n
    decide +kernel

theorem digits_dropWhile {ds rest : List UInt8} (hds : ∀ c ∈ ds, isDigit c = true)
    (hrest : ∀ c ∈ rest.head?, isDigit c = false) : (ds ++ rest).dropWhile isDigit = rest := by
  rw [List.dropWhile_append_of_pos hds]
  cases rest with
  | nil => rfl
  | cons c r => rw [List.dropWhile_cons, hrest c rfl, if_neg Bool.false_ne_true]

theorem digits_takeWhile {ds : List UInt8} (hne : ds ≠ []) (hds : ∀ c ∈ ds, isDigit c = true)
    (rest : List UInt8) :
    (ds ++ rest).takeWhile isDigit ≠ [] := by
  rw [List.takeWhile_append_of_pos hds]
  exact List.append_ne_nil_of_left_ne_nil hne _

theorem skipSign_digits {ds : List UInt8} (hne : ds ≠ []) (hds : ∀ c ∈ ds, isDigit c = true)
    (rest : List UInt8) :
    skipSign (ds ++ rest) = ds ++ rest := by
  obtain ⟨c, r, rfl⟩ := List.exists_cons_of_ne_nil hne
  obtain ⟨_, hplus, hminus, _⟩ := digit_facts (hds c List.mem_cons_self)
  rw [List.cons_append, skipSign, if_neg (by simp [hplus, hminus])]

theorem exponent_text {exp rest : List UInt8} (hrest : Ends rest)
    (hexp : exp = [] ∨ ∃ mark s ds, toLower mark = letterE ∧ (s = [] ∨ s = [plus] ∨ s = [minus]) ∧
      ds ≠ [] ∧ (∀ c ∈ ds, isDigit c = true) ∧ exp = mark :: s ++ ds) :
    exponent letterE (exp ++ rest) = rest := by
  rcases hexp with rfl | ⟨mark, s, ds, hmark, hs, hne, hds, rfl⟩
  · cases rest with
    | nil => rfl
    | cons c r =>
      have hother := (hrest c rfl).2.2.1
      rw [List.nil_append, exponent, if_neg (fun h => hother h.1)]
  · have hskip : skipSign (s ++ ds ++ rest) = ds ++ rest := by
      rcases hs with rfl | rfl | rfl
      · exact skipSign_digits hne hds rest
      · rfl
      · rfl
    have hmore : (skipSign (s ++ ds ++ rest)).takeWhile isDigit ≠ [] := by
      rw [hskip]
      exact digits_takeWhile hne hds rest
    rw [List.cons_append, List.cons_append, exponent, if_pos ⟨hmark, hmore⟩, hskip]
    exact digits_dropWhile hds (fun c hc => (hrest c hc).1)

/-- What follows the digits of a constant is no digit, no point and no `x`. -/
theorem exp_head {exp rest : List UInt8} (hrest : Ends rest)
    (hexp : exp = [] ∨ ∃ mark s ds, toLower mark = letterE ∧ (s = [] ∨ s = [plus] ∨ s = [minus]) ∧
      ds ≠ [] ∧ (∀ c ∈ ds, isDigit c = true) ∧ exp = mark :: s ++ ds) :
    ∀ c ∈ (exp ++ rest).head?, isDigit c = false ∧ c ≠ point ∧ toLower c ≠ letterX := by
  intro c hc
  rcases hexp with rfl | ⟨mark, s, ds, hmark, _, _, _, rfl⟩
  · obtain ⟨hdigit, hpoint, _, hx⟩ := hrest c hc
    exact ⟨hdigit, hpoint, hx⟩
  · cases hc
    exact not_digit_of_toLower hmark

theorem decimal_text (d : Decimal) {rest : List UInt8} (hrest : Ends rest) :
    decimal (d.int ++ (d.frac ++ (d.exp ++ rest))) = some rest := by
  have hhead := exp_head hrest d.exp_form
  have hint := digits_takeWhile d.int_some d.int_digits (d.frac ++ (d.exp ++ rest))
  have hmantissa : mantissa isDigit (d.int ++ (d.frac ++ (d.exp ++ rest))) =
    some (d.exp ++ rest) := by
    rcases d.frac_form with hfrac | ⟨ds, hne, hds, hfrac⟩
    · rw [hfrac, List.nil_append] at hint ⊢
      rw [mantissa, digits_dropWhile d.int_digits (fun c hc => (hhead c hc).1), if_neg hint]
      cases htail : d.exp ++ rest with
      | nil => rfl
      | cons c r =>
        rw [htail] at hhead hint
        simp only
        rw [if_neg (hhead c rfl).2.1, if_neg hint]
    · have hstop : ∀ c ∈ (d.frac ++ (d.exp ++ rest)).head?, isDigit c = false := by
        rw [hfrac]
        intro c hc
        cases hc
        rfl
      rw [mantissa, digits_dropWhile d.int_digits hstop, hfrac, List.cons_append]
      rw [hfrac, List.cons_append] at hint
      have hboth : ¬ ((d.int ++ point :: (ds ++ (d.exp ++ rest))).takeWhile isDigit = [] ∧
          (ds ++ (d.exp ++ rest)).takeWhile isDigit = []) := fun h => hint h.1
      simp only [if_true, if_neg hboth]
      rw [digits_dropWhile hds (fun c hc => (hhead c hc).1)]
  rw [decimal, hmantissa, Option.map_some, exponent_text hrest d.exp_form]

theorem hexadecimal_text (d : Decimal) {rest : List UInt8} (hrest : Ends rest) :
    hexadecimal (d.int ++ (d.frac ++ (d.exp ++ rest))) = none := by
  have hhead := exp_head hrest d.exp_form
  have hsecond : ∀ c ∈ (d.frac ++ (d.exp ++ rest)).head?, toLower c ≠ letterX := by
    rcases d.frac_form with hfrac | ⟨ds, _, _, hfrac⟩
    · rw [hfrac]
      exact fun c hc => (hhead c hc).2.2
    · rw [hfrac]
      intro c hc
      cases hc
      decide
  rw [hexadecimal.eq_def]
  split
  · next c x p hsplit =>
    rw [if_neg]
    rintro ⟨_, hx⟩
    cases hint : d.int with
    | nil => exact d.int_some hint
    | cons b ds =>
      rw [hint, List.cons_append] at hsplit
      cases ds with
      | nil =>
        rw [List.nil_append] at hsplit
        refine hsecond x ?_ hx
        rw [(List.cons.inj hsplit).2]
        rfl
      | cons b' ds =>
        have hb' := d.int_digits b' (by simp [hint])
        have heq : b' = x := by
          have htail := (List.cons.inj hsplit).2
          exact (List.cons.inj htail).1
        exact (digit_facts hb').2.2.2 (heq ▸ hx)
  · rfl

/-- A decimal constant is taken whole. -/
theorem strtod_text (d : Decimal) {rest : List UInt8} (hrest : Ends rest) :
    strtod (d.text ++ rest) = rest := by
  have hstart : skipSign ((d.text ++ rest).dropWhile isSpace) =
    d.int ++ (d.frac ++ (d.exp ++ rest)) := by
    have hdigits := skipSign_digits d.int_some d.int_digits (d.frac ++ (d.exp ++ rest))
    obtain ⟨b, ds, hint⟩ := List.exists_cons_of_ne_nil d.int_some
    have hspace := (digit_facts (d.int_digits b (by simp [hint]))).1
    rcases d.sign_form with hsign | hsign
    · simp only [Decimal.text, hsign, List.nil_append, List.append_assoc]
      have hdrop : (d.int ++ (d.frac ++ (d.exp ++ rest))).dropWhile isSpace =
          d.int ++ (d.frac ++ (d.exp ++ rest)) := by
        rw [hint, List.cons_append, List.dropWhile_cons, hspace, if_neg Bool.false_ne_true]
      rw [hdrop, hdigits]
    · simp only [Decimal.text, hsign, List.append_assoc, List.cons_append, List.nil_append]
      rfl
  rw [strtod, hstart, subject, hexadecimal_text d hrest, decimal_text d hrest]
  rfl

-- `-2.5e+3,` up to the comma, and `0x` up to the `x`.
example : strtod [45, 50, 46, 53, 101, 43, 51, 44] = [44] ∧ strtod [48, 120, 44] =
    [120, 44] := by decide

theorem strtod_digit {c : UInt8} (hc : isDigit c = true) (r : List UInt8) :
    strtod (c :: r) ≠ c :: r := by
  obtain ⟨hspace, hplus, hminus, _⟩ := digit_facts hc
  have hstart : skipSign ((c :: r).dropWhile isSpace) = c :: r := by
    rw [List.dropWhile_cons, hspace, if_neg Bool.false_ne_true, skipSign,
      if_neg (by simp [hplus, hminus])]
  have hsome : decimal (c :: r) ≠ none := by
    have hint : (c :: r).takeWhile isDigit ≠ [] := by
      rw [List.takeWhile_cons, hc, if_pos rfl]
      exact List.cons_ne_nil _ _
    rw [decimal, Ne, Option.map_eq_none_iff, mantissa]
    split
    · rw [if_neg hint]
      exact Option.some_ne_none _
    · split
      · rw [if_neg (fun h => hint h.1)]
        exact Option.some_ne_none _
      · exact Option.some_ne_none _
  intro heq
  rw [strtod, hstart] at heq
  cases hsubject : subject (c :: r) with
  | none =>
    rw [subject, Option.or_eq_none_iff, Option.or_eq_none_iff] at hsubject
    exact hsome hsubject.2.1
  | some q =>
    rw [hsubject, Option.getD_some] at heq
    exact absurd (congrArg List.length heq) (subject_shorter hsubject).2.ne

end CText
