import Pipensx.CString
import Pipensx.JsonProgress

/-!
# Whether the parser stays in front of the terminator

A cursor of `json_parse` that has passed the terminator is the empty list, and to read there is
an overrun. The walk below goes over the bytes of a text alone: where a string ends is decided
by its quotes and backslashes, and literals have the lengths the parser gives them. The parser
stays inside the text if and only if the walk meets no string that is cut off directly behind a
backslash and no cursor that has passed the terminator.
-/

namespace MovieCatalog

open CText (CString minus isDigit strtod)

variable {δ : Type}

/-- Behind the opening quote: a closing quote with what comes after it, or the terminator, which
may stand directly behind a backslash. -/
inductive StringEnd where
  | closed (behind : List UInt8)
  | unclosed
  | cut
deriving DecidableEq

def stringEnd : List UInt8 → StringEnd
  | [] => .cut
  | c :: p =>
    if c = 0 then .unclosed
    else if c = quote then .closed p
    else if c = backslash then
      match p with
      | [] => .cut
      | e :: q => if e = 0 then .cut else stringEnd q
    else stringEnd p

section Strings

variable {text : CString} {p q r : List UInt8}

theorem stringEnd_suffix (h : stringEnd p = .closed r) : quote :: r <:+ p := by
  induction p using stringEnd.induct with
  | case1 => cases h
  | case2 p =>
    rw [stringEnd.eq_def] at h
    cases h
  | case3 p hzero =>
    rw [stringEnd.eq_def] at h
    cases h
    exact List.suffix_rfl
  | case4 hzero hquote =>
    rw [stringEnd.eq_def] at h
    cases h
  | case5 q hzero hquote =>
    rw [stringEnd, if_neg hzero, if_neg hquote, if_pos rfl] at h
    cases h
  | case6 e q he hzero hquote ih =>
    rw [stringEnd, if_neg hzero, if_neg hquote, if_pos rfl, if_neg he] at h
    exact (ih h).trans ((List.suffix_cons e q).trans (List.suffix_cons _ _))
  | case7 c p hzero hquote hc ih =>
    rw [stringEnd.eq_def] at h
    simp only at h
    rw [if_neg hzero, if_neg hquote, if_neg hc] at h
    exact (ih h).trans (List.suffix_cons c p)

/-- The first loop counts up to the closing quote. -/
def Measured (len : Nat) (p : List UInt8) : StringEnd → Result Nat
  | .closed r => .ok (len + (p.length - (r.length + 1))) (quote :: r)
  | .unclosed => .null none
  | .cut => .overrun

/-- Bytes in front of the closing quote count, wherever the count stands. -/
theorem measured_behind (front : List UInt8) (len : Nat) :
    Measured (len + front.length) p (stringEnd p) = Measured len (front ++ p) (stringEnd p) := by
  cases hend : stringEnd p with
  | closed r =>
    have hlen := (stringEnd_suffix hend).length_le
    simp only [Measured, List.length_cons, List.length_append] at hlen ⊢
    congr 1
    omega
  | unclosed => rfl
  | cut => rfl

theorem measureLoop_end (hp : p <:+ text.memory) (len : Nat) :
    measureLoop p len = Measured len p (stringEnd p) := by
  induction p, len using measureLoop.induct with
  | case1 len => rfl
  | case2 p len =>
    rw [measureLoop.eq_def, stringEnd.eq_def]
    rfl
  | case3 p len hzero =>
    rw [measureLoop.eq_def, stringEnd.eq_def]
    simp [hzero, Measured]
  | case4 len hzero hquote => rfl
  | case5 len e q hzero hquote ih =>
    have htail := (List.suffix_cons backslash (e :: q)).trans hp
    rw [measureLoop, if_neg hzero, if_neg hquote, if_pos rfl, stringEnd, if_neg hzero,
      if_neg hquote, if_pos rfl, ih ((List.suffix_cons e q).trans htail)]
    by_cases he : e = 0
    · subst he
      rw [CText.nul_tail htail]
      rfl
    · rw [if_neg he, if_neg he]
      exact measured_behind [backslash, e] len
  | case6 c p len hzero hquote hc ih =>
    rw [measureLoop.eq_def, stringEnd.eq_def]
    simp only
    rw [if_neg hzero, if_neg hquote, if_neg hc, if_neg hzero, if_neg hquote, if_neg hc,
      ih ((List.suffix_cons c p).trans hp)]
    exact measured_behind [c] len

/-- The second loop stops at the closing quote. -/
theorem copyLoop_end (h : stringEnd p = .closed r) (out : List UInt8) :
    ∃ str, copyLoop p (p.length - (r.length + 1)) out = .ok str (quote :: r) := by
  induction p using stringEnd.induct generalizing out with
  | case1 => cases h
  | case2 p =>
    rw [stringEnd.eq_def] at h
    cases h
  | case3 p hzero =>
    rw [stringEnd.eq_def] at h
    cases h
    rw [List.length_cons, Nat.sub_self, copyLoop.eq_def]
    exact ⟨out, rfl⟩
  | case4 hzero hquote =>
    rw [stringEnd.eq_def] at h
    cases h
  | case5 q hzero hquote =>
    rw [stringEnd, if_neg hzero, if_neg hquote, if_pos rfl] at h
    cases h
  | case6 e q he hzero hquote ih =>
    rw [stringEnd, if_neg hzero, if_neg hquote, if_pos rfl, if_neg he] at h
    have hlen := (stringEnd_suffix h).length_le
    rw [List.length_cons] at hlen
    obtain ⟨str, hcopy⟩ := ih h (out ++ [unescape e])
    refine ⟨str, ?_⟩
    have hcount : (backslash :: e :: q).length - (r.length + 1) =
      q.length - (r.length + 1) + 2 := by
      simp only [List.length_cons]
      omega
    have hhead : (e :: q).head? ≠ some 0 := by simpa using he
    rw [hcount, copyLoop, if_neg (Nat.succ_ne_zero _), if_pos ⟨rfl, hhead⟩, Nat.add_sub_cancel]
    exact hcopy
  | case7 c p hzero hquote hc ih =>
    rw [stringEnd.eq_def] at h
    simp only at h
    rw [if_neg hzero, if_neg hquote, if_neg hc] at h
    have hlen := (stringEnd_suffix h).length_le
    rw [List.length_cons] at hlen
    obtain ⟨str, hcopy⟩ := ih h (out ++ [c])
    refine ⟨str, ?_⟩
    have hcount : (c :: p).length - (r.length + 1) = p.length - (r.length + 1) + 1 := by
      simp only [List.length_cons]
      omega
    rw [hcount, copyLoop.eq_def]
    simp only
    rw [if_neg (Nat.succ_ne_zero _), if_neg (fun hand => hc hand.1), Nat.add_sub_cancel]
    exact hcopy

/-- How `parse_json_string` ends at an opening quote. -/
def StringEnd.Gives : StringEnd → Result (List UInt8) → Prop
  | .closed r, x => ∃ str, x = .ok str r
  | .unclosed, x => x = .null none
  | .cut, x => x = .overrun

theorem parseJsonString_end (hp : p <:+ text.memory) :
    (stringEnd p).Gives (parseJsonString (quote :: p)) := by
  have hmeasure := measureLoop_end hp 0
  cases hend : stringEnd p with
  | closed r =>
    rw [hend] at hmeasure
    obtain ⟨str, hcopy⟩ := copyLoop_end hend []
    refine ⟨str, ?_⟩
    simp only [parseJsonString, if_true, hmeasure, Measured, Nat.zero_add, hcopy, List.drop_one,
      List.tail_cons]
  | unclosed =>
    rw [hend] at hmeasure
    simp only [parseJsonString, if_true, hmeasure, Measured, StringEnd.Gives]
  | cut =>
    rw [hend] at hmeasure
    simp only [parseJsonString, if_true, hmeasure, Measured, StringEnd.Gives]

end Strings

/-- What follows a value without members. `parse_json_string` has passed the closing quote when
`json_parse` moves on once more. -/
def afterLeaf (c : UInt8) (p : List UInt8) : Option (List UInt8) :=
  if c = quote then
    match stringEnd p with
    | .closed r => some (r.drop 1)
    | _ => none
  else if c = letterN then some ((c :: p).drop 4)
  else if c = letterT then some ((c :: p).drop 4)
  else if c = letterF then some ((c :: p).drop 5)
  else if c = minus ∨ isDigit c = true then some (strtod (c :: p))
  else none

/-- The innermost loop can count one more member. -/
def Room : List (Container × Nat) → Prop
  | [] => True
  | (_, n) :: _ => n < intMax

inductive Visits (text : List UInt8) : Spot → List (Container × Nat) → Prop where
  | start : Visits text (.value text) []
  | enter {p S k q} : Visits text (.value p) S → skipWs p = Container.openByte k :: q →
      Visits text (.loop (skipWs q)) ((k, 0) :: S)
  | leaf {p S c q r} : Visits text (.value p) S → skipWs p = c :: q →
      afterLeaf c q = some r → Room S → Visits text (.behind r) S
  | item {n S c p} : Visits text (.loop (c :: p)) ((.array, n) :: S) → c ≠ 0 → c ≠ closeBracket →
      Visits text (.value (c :: p)) ((.array, n) :: S)
  | member {n S p r q} : Visits text (.loop (quote :: p)) ((.object, n) :: S) →
      stringEnd p = .closed r →
      skipWs r = colon :: q → Visits text (.value (skipWs q)) ((.object, n) :: S)
  | ended {g S p} : Visits text (.loop (0 :: p)) (g :: S) → Room S →
    Visits text (.behind (0 :: p)) S
  | close {k n S p} : Visits text (.loop (Container.closeByte k :: p)) ((k, n) :: S) → Room S →
      Visits text (.behind p) S
  | next {k n S r s} : Visits text (.behind r) ((k, n) :: S) → separator r = .ok () s →
      Visits text (.loop s) ((k, n + 1) :: S)

/-- Where a read or a cursor passes the terminator. -/
inductive Passes : Spot → List (Container × Nat) → Prop where
  | cut {p q S} : skipWs p = quote :: q → stringEnd q = .cut → Passes (.value p) S
  | cutKey {q n S} : stringEnd q = .cut → Passes (.loop (quote :: q)) ((.object, n) :: S)
  | behind {S} : Passes (.behind []) S

/-- No byte behind the terminator was read, and `*end` is not behind it. -/
def Inside {α : Type} : Result α → Prop
  | .ok _ endp => endp ≠ []
  | .null (some endp) => endp ≠ []
  | .null none => True
  | .overrun => False
  | .overflow => True

def Spot.cursor : Spot → List UInt8
  | .value p => p
  | .loop p => p
  | .behind p => p

section Walk

variable {convert : List UInt8 → δ} {text : CString} {p q r s key : List UInt8} {c : UInt8}
  {k : Container} {n fuel : Nat} {S : List (Container × Nat)}
  {acc : List (List UInt8 × JsonValue δ)} {v : JsonValue δ}
  {x : Result (JsonValue δ)} {spot : Spot}

theorem skipWs_ne_nil (hp : p <:+ text.memory) (hsome : p ≠ []) : skipWs p ≠ [] := by
  intro hnil
  have hall := List.dropWhile_eq_nil_iff.mp hnil
  exact absurd (hall 0 (CText.nul_mem_tail hp hsome)) (by decide)

theorem after_ne_nil (hp : c :: q <:+ text.memory) (hc : c ≠ 0) : q ≠ [] := by
  rintro rfl
  have hmem := CText.nul_mem_tail hp (List.cons_ne_nil _ _)
  exact hc (List.mem_singleton.mp hmem).symm

theorem skipWs_after (hp : c :: q <:+ text.memory) (hc : c ≠ 0) : skipWs q ≠ [] :=
  skipWs_ne_nil ((List.suffix_cons c q).trans hp) (after_ne_nil hp hc)

theorem afterLeaf_suffix (h : afterLeaf c p = some r) : r <:+ c :: p := by
  rw [afterLeaf] at h
  split_ifs at h
  · split at h
    · next r' hend =>
      cases h
      have hquote := (List.suffix_cons quote r').trans (stringEnd_suffix hend)
      exact (List.drop_suffix 1 _).trans (hquote.trans (List.suffix_cons c p))
    · cases h
  · cases h
    exact List.drop_suffix 4 _
  · cases h
    exact List.drop_suffix 4 _
  · cases h
    exact List.drop_suffix 5 _
  · cases h
    exact (CText.strtod_progress _).1

theorem visits_suffix (hvisit : Visits text.memory spot S) : spot.cursor <:+ text.memory := by
  induction hvisit with
  | start => exact List.suffix_rfl
  | @enter p S k q _ hopen ih =>
    have hskip := skipWs_suffix p
    rw [hopen] at hskip
    exact (skipWs_suffix q).trans ((List.suffix_cons _ q).trans (hskip.trans ih))
  | @leaf p S c q r _ hskip hafter _ ih =>
    have hsuffix := skipWs_suffix p
    rw [hskip] at hsuffix
    exact (afterLeaf_suffix hafter).trans (hsuffix.trans ih)
  | item _ _ _ ih => exact ih
  | @member n S p r q _ hend hcolon ih =>
    have hskip := skipWs_suffix r
    rw [hcolon] at hskip
    have hr := (List.suffix_cons quote r).trans (stringEnd_suffix hend)
    have hq := (skipWs_suffix q).trans ((List.suffix_cons colon q).trans hskip)
    exact hq.trans (hr.trans ((List.suffix_cons quote p).trans ih))
  | ended _ _ ih => exact ih
  | @close k n S p _ _ ih => exact (List.suffix_cons _ p).trans ih
  | next _ hsep ih => exact (separator_suffix hsep).trans ih

theorem visits_room (hvisit : Visits text.memory (.behind r) S) : Room S := by
  cases hvisit with
  | leaf _ _ _ hroom => exact hroom
  | ended _ hroom => exact hroom
  | close _ hroom => exact hroom

/-- What a value without members leaves, byte by byte. -/
def LeafLeaves (c : UInt8) (p : List UInt8) : Result (JsonValue δ) → Prop
  | .ok _ r => afterLeaf c p = some r
  | .null e => ∀ r, e = some r → r ≠ []
  | .overrun => c = quote ∧ stringEnd p = .cut
  | .overflow => False

theorem leaf_leaves (hp : c :: p <:+ text.memory) (convert : List UInt8 → δ) :
    LeafLeaves c p (leaf convert (c :: p)) := by
  have hstring := parseJsonString_end ((List.suffix_cons c p).trans hp)
  rw [leaf]
  split_ifs with hzero hquote hnull htrue hfalse hnumber
  · intro r hr
    cases hr
    exact List.cons_ne_nil c p
  · subst hquote
    cases hend : stringEnd p with
    | closed r =>
      rw [hend] at hstring
      obtain ⟨str, hstring⟩ := hstring
      simp only [hstring, LeafLeaves, afterLeaf, if_true, hend]
    | unclosed =>
      rw [hend] at hstring
      simp only [StringEnd.Gives] at hstring
      simp [hstring, LeafLeaves]
    | cut =>
      rw [hend] at hstring
      simp only [StringEnd.Gives] at hstring
      simp only [hstring, LeafLeaves, hend, true_and]
  · simp only [LeafLeaves, afterLeaf, if_neg hquote, if_pos hnull]
  · simp only [LeafLeaves, afterLeaf, if_neg hquote, if_neg hnull, if_pos htrue]
  · simp only [LeafLeaves, afterLeaf, if_neg hquote, if_neg hnull, if_neg htrue, if_pos hfalse]
  · simp only [LeafLeaves, afterLeaf, if_neg hquote, if_neg hnull, if_neg htrue, if_neg hfalse,
      if_pos hnumber]
    rfl
  · simp [LeafLeaves]

/-- What stands before a value, byte by byte. -/
def HeaderLeaves (k : Container) (c : UInt8) (p : List UInt8) : Result (List UInt8) → Prop
  | .ok _ q => k = .array ∧ q = c :: p ∨
      ∃ r t, k = .object ∧ c = quote ∧ stringEnd p = .closed r ∧
      skipWs r = colon :: t ∧ q = skipWs t
  | .null _ => True
  | .overrun => k = .object ∧ c = quote ∧ stringEnd p = .cut
  | .overflow => False

theorem memberHeader_leaves (k : Container) (hp : c :: p <:+ text.memory) :
    HeaderLeaves k c p (memberHeader k (c :: p)) := by
  cases k with
  | array => exact Or.inl ⟨rfl, rfl⟩
  | object =>
    rw [memberHeader]
    by_cases hquote : c = quote
    · subst hquote
      have htail := (List.suffix_cons quote p).trans hp
      have hstring := parseJsonString_end htail
      cases hend : stringEnd p with
      | closed r =>
        rw [hend] at hstring
        obtain ⟨str, hstring⟩ := hstring
        have hclosed := (stringEnd_suffix hend).trans htail
        obtain ⟨d, t, hskip⟩ := List.exists_cons_of_ne_nil (skipWs_after hclosed (by decide))
        simp only [hstring, hskip]
        by_cases hcolon : d = colon
        · subst hcolon
          rw [if_pos rfl]
          exact Or.inr ⟨r, t, rfl, rfl, hend, hskip, rfl⟩
        · rw [if_neg hcolon]
          trivial
      | unclosed =>
        rw [hend] at hstring
        simp only [StringEnd.Gives] at hstring
        simp only [hstring, HeaderLeaves]
      | cut =>
        rw [hend] at hstring
        simp only [StringEnd.Gives] at hstring
        simp only [hstring, HeaderLeaves, hend, true_and]
    · simp only [parseJsonString, if_neg hquote, HeaderLeaves]

theorem separator_some (hp : p <:+ text.memory) (hsome : p ≠ []) :
    ∃ s, separator p = .ok () s ∧ s ≠ [] := by
  obtain ⟨c, q, hskip⟩ := List.exists_cons_of_ne_nil (skipWs_ne_nil hp hsome)
  have hsuffix := skipWs_suffix p
  rw [hskip] at hsuffix
  rw [separator, hskip]
  refine ⟨_, rfl, ?_⟩
  by_cases hcomma : c = comma
  · rw [if_pos hcomma]
    have hq : q ≠ [] := by
      rintro rfl
      have hmem := CText.nul_mem_tail (hsuffix.trans hp) (List.cons_ne_nil _ _)
      rw [hcomma] at hmem
      exact absurd (List.mem_singleton.mp hmem) (by decide)
    exact skipWs_ne_nil ((List.suffix_cons c q).trans (hsuffix.trans hp)) hq
  · rw [if_neg hcomma]
    exact List.cons_ne_nil c q

/-- What a call that has come to an end leaves to the loops that are open. -/
def Kept (text : CString) (S : List (Container × Nat)) (x : Result (JsonValue δ)) : Prop :=
  x ≠ .overrun ∧ (∀ e, x = .null (some e) → e ≠ []) ∧
    ∀ v r, x = .ok v r → Room S → Visits text.memory (.behind r) S

theorem openByte_ne_zero (k : Container) : k.openByte ≠ 0 := by cases k <;> decide

/-- A turn that goes well leads the walk to the head of the loop. -/
theorem member_kept (clear : ∀ spot S, Visits text.memory spot S → ¬ Passes spot S)
    (values : ∀ q S y, q ≠ [] → Visits text.memory (.value q) S → jsonParse convert fuel q =
    some y → Kept text S y) (hvisit : Visits text.memory (.loop (c :: p)) ((k, n) :: S))
    (hzero : c ≠ 0) (hclose : c ≠ k.closeByte) {z : Result (List UInt8 × JsonValue δ)}
    (h : jsonMember (jsonParse convert fuel) k n (c :: p) = some z) :
    z ≠ .overrun ∧ ∀ member s, z = .ok member s → s ≠ [] ∧
    Visits text.memory (.loop s) ((k, n + 1) :: S) := by
  have htail : c :: p <:+ text.memory := visits_suffix hvisit
  have hheader := memberHeader_leaves k htail
  rcases andThen_some.mp h with ⟨key, q, heq, h⟩ | ⟨_, rfl⟩ | ⟨heq, _⟩ | ⟨_, rfl⟩
  · rw [Option.some.inj heq] at hheader
    have hvalue : q ≠ [] ∧ Visits text.memory (.value q) ((k, n) :: S) := by
      rcases hheader with ⟨rfl, rfl⟩ | ⟨r, t, rfl, rfl, hend, hcolon, rfl⟩
      · exact ⟨List.cons_ne_nil c p, .item hvisit hzero hclose⟩
      · have hr := (stringEnd_suffix hend).trans ((List.suffix_cons quote p).trans htail)
        have hskip := skipWs_suffix r
        rw [hcolon] at hskip
        have hq := skipWs_after (hskip.trans ((List.suffix_cons quote r).trans hr)) (by decide)
        exact ⟨hq, .member hvisit hend hcolon⟩
    rcases andThen_some.mp h with ⟨v, r, heq, h⟩ | ⟨_, rfl⟩ | ⟨heq, _⟩ | ⟨_, rfl⟩
    · have hkept := values _ _ _ hvalue.1 hvalue.2 heq
      split at h
      · cases h
        exact ⟨nofun, nofun⟩
      · next hroom =>
        have hbehind := hkept.2.2 v r rfl (Nat.lt_of_succ_le (Nat.le_of_not_lt hroom))
        have hr : r ≠ [] := by
          rintro rfl
          exact clear _ _ hbehind .behind
        have hsuffix : r <:+ text.memory := visits_suffix hbehind
        obtain ⟨s, hsep, hs⟩ := separator_some hsuffix hr
        rw [hsep] at h
        cases h
        refine ⟨nofun, fun member s' heq => ?_⟩
        cases heq
        exact ⟨hs, .next hbehind hsep⟩
    · exact ⟨nofun, nofun⟩
    · exact absurd rfl (values _ _ _ hvalue.1 hvalue.2 heq).1
    · exact ⟨nofun, nofun⟩
  · exact ⟨nofun, nofun⟩
  · rw [Option.some.inj heq] at hheader
    obtain ⟨rfl, rfl, hcut⟩ := hheader
    exact absurd (.cutKey hcut) (clear _ _ hvisit)
  · exact ⟨nofun, nofun⟩

/-- By induction on the fuel, values and loops together. -/
theorem fuel_kept (clear : ∀ spot S, Visits text.memory spot S → ¬ Passes spot S)
    (convert : List UInt8 → δ) (fuel : Nat) :
    (∀ p S x, p ≠ [] → Visits text.memory (.value p) S → jsonParse convert fuel p = some x →
    Kept text S x) ∧
    ∀ k S p acc x, p ≠ [] → Visits text.memory (.loop p) ((k, List.length acc) :: S) →
      memberLoop convert k fuel p acc = some x → Kept text S x := by
  induction fuel with
  | zero =>
    refine ⟨fun p S x _ _ h => ?_, fun k S p acc x _ _ h => ?_⟩
    · rw [jsonParse] at h
      cases h
    · rw [memberLoop] at h
      cases h
  | succ fuel ih =>
    obtain ⟨hvalues, hloops⟩ := ih
    refine ⟨fun p S x hsome hvisit h => ?_, fun k S p acc x hsome hvisit h => ?_⟩
    · have htail : p <:+ text.memory := visits_suffix hvisit
      have hskip := skipWs_suffix p
      rcases opens_or_leaf p with ⟨k, q, hopen⟩ | hleaf
      · rw [jsonParse_open hopen] at h
        rw [hopen] at hskip
        exact hloops k S _ [] x (skipWs_after (hskip.trans htail) (openByte_ne_zero k))
          (.enter hvisit hopen) h
      · rw [jsonParse_leaf hleaf] at h
        cases h
        obtain ⟨c, q, hc⟩ := List.exists_cons_of_ne_nil (skipWs_ne_nil htail hsome)
        rw [hc] at hskip ⊢
        have hend := leaf_leaves (hskip.trans htail) convert
        refine ⟨fun hx => ?_, fun e hx => ?_, fun v r hx hroom => ?_⟩
        · rw [hx] at hend
          obtain ⟨rfl, hcut⟩ := hend
          exact clear _ _ hvisit (.cut hc hcut)
        · rw [hx] at hend
          exact hend e rfl
        · rw [hx] at hend
          exact .leaf hvisit hc hend hroom
    · obtain ⟨c, p, rfl⟩ := List.exists_cons_of_ne_nil hsome
      by_cases hzero : c = 0
      · subst hzero
        rw [memberLoop, if_pos rfl] at h
        cases h
        refine ⟨by simp, by simp, fun v r hx hroom => ?_⟩
        cases hx
        exact .ended hvisit hroom
      by_cases hclose : c = k.closeByte
      · subst hclose
        rw [memberLoop, if_neg hzero, if_pos rfl] at h
        cases h
        refine ⟨by simp, by simp, fun v r hx hroom => ?_⟩
        cases hx
        exact .close hvisit hroom
      rw [memberLoop_turn hzero hclose] at h
      rcases andThen_some.mp h with ⟨member, s, hturn, h⟩ | ⟨_, rfl⟩ | ⟨hturn, _⟩ | ⟨_, rfl⟩
      · obtain ⟨hs, hnext⟩ := (member_kept clear hvalues hvisit hzero hclose hturn).2 member s rfl
        refine hloops k S s _ x hs ?_ h
        rwa [List.length_append, List.length_singleton]
      · exact ⟨by simp, by simp, by simp⟩
      · exact absurd rfl (member_kept clear hvalues hvisit hzero hclose hturn).1
      · exact ⟨by simp, by simp, by simp⟩

/-- A result handed to the loops that are open ends outside the text. -/
def Falls (convert : List UInt8 → δ) : List (Container × Nat) → Result (JsonValue δ) → Prop
  | [], x => ¬ Inside x
  | _ :: _, .overrun => True
  | (k, n) :: S, .ok _ r => n < intMax ∧ (separator r = .overrun ∨ ∃ s, separator r = .ok () s ∧
      ∀ acc, acc.length = n + 1 → ∃ x, Loops convert k s acc x ∧ Falls convert S x)
  | _ :: _, _ => False

def Doomed (convert : List UInt8 → δ) : Spot → List (Container × Nat) → Prop
  | .value p, S => ∃ x, Parses convert p x ∧ Falls convert S x
  | .loop p, (k, n) :: S => ∀ acc, acc.length = n → ∃ x, Loops convert k p acc x ∧ Falls convert S x
  | .loop _, [] => False
  | .behind r, S => ∀ v, Falls convert S (.ok v r)

theorem falls_overrun (convert : List UInt8 → δ) (S : List (Container × Nat)) :
    Falls convert S .overrun := by
  cases S with
  | nil => exact id
  | cons f S => trivial

/-- A member that is lost takes the loop with it. -/
theorem loops_lost (hzero : c ≠ 0) (hclose : c ≠ k.closeByte)
    (hturn : Turn convert k acc.length (c :: p) .overrun) :
    Loops convert k (c :: p) acc .overrun :=
  (loops_iff hzero hclose).mpr ⟨_, hturn, Or.inr (Or.inr (Or.inl ⟨rfl, rfl⟩))⟩

theorem member_doomed (hzero : c ≠ 0) (hclose : c ≠ k.closeByte)
    (hheader : memberHeader k (c :: p) = .ok key q)
    (hdoomed : Doomed convert (.value q) ((k, n) :: S)) :
    Doomed convert (.loop (c :: p)) ((k, n) :: S) := by
  intro acc hacc
  obtain ⟨y, ⟨fuel, hparse⟩, hfalls⟩ := hdoomed
  cases y with
  | null e => cases hfalls
  | overflow => cases hfalls
  | overrun =>
    refine ⟨_, loops_lost hzero hclose ⟨fuel, ?_⟩, falls_overrun convert S⟩
    rw [jsonMember, hheader]
    simp only [andThen, hparse]
  | ok v r =>
    obtain ⟨hroom, hpast | ⟨s, hsep, hloop⟩⟩ := hfalls
    · refine ⟨_, loops_lost hzero hclose ⟨fuel, ?_⟩, falls_overrun convert S⟩
      rw [jsonMember, hheader]
      simp only [andThen, hparse]
      rw [if_neg (by omega), hpast]
    · have hturn : Turn convert k acc.length (c :: p) (.ok (key, v) s) :=
        turn_ok_iff.mpr ⟨q, r, hheader, ⟨fuel, hparse⟩, by omega, hsep⟩
      obtain ⟨x, hx, hfalls⟩ :=
        hloop (acc ++ [(key, v)]) (by rw [List.length_append, List.length_singleton, hacc])
      exact ⟨x, (loops_turn_iff hzero hclose hturn).mpr hx, hfalls⟩

theorem afterLeaf_leaf (hp : c :: p <:+ text.memory) (convert : List UInt8 → δ)
    (hafter : afterLeaf c p = some r) :
    (∀ k q, c :: p ≠ Container.openByte k :: q) ∧ ∃ v, leaf convert (c :: p) = .ok v r := by
  have hzero : c ≠ 0 := by
    rintro rfl
    cases hafter
  have hopen : ∀ k q, c :: p ≠ Container.openByte k :: q := by
    rintro k q heq
    rw [(List.cons.inj heq).1] at hafter
    cases k <;> cases hafter
  refine ⟨hopen, ?_⟩
  rw [afterLeaf] at hafter
  rw [leaf, if_neg hzero]
  split_ifs at hafter ⊢ with hquote
  · subst hquote
    have hstring := parseJsonString_end ((List.suffix_cons quote p).trans hp)
    split at hafter
    · next r' hend =>
      rw [hend] at hstring
      obtain ⟨str, hstring⟩ := hstring
      cases hafter
      exact ⟨.string str, by rw [hstring]⟩
    · cases hafter
  all_goals
    cases hafter
    exact ⟨_, rfl⟩

/-- What is lost at a spot of the walk is lost from the start. -/
theorem visits_doomed (convert : List UInt8 → δ) (hvisit : Visits text.memory spot S) :
    Doomed convert spot S → Doomed convert (.value text.memory) [] := by
  induction hvisit with
  | start => exact id
  | enter _ hopen ih =>
    intro hdoomed
    obtain ⟨x, hloop, hfalls⟩ := hdoomed [] rfl
    exact ih ⟨x, (parses_open_iff hopen).mpr hloop, hfalls⟩
  | @leaf p S c q r hvisit hskip hafter _ ih =>
    intro hdoomed
    have htail : p <:+ text.memory := visits_suffix hvisit
    have hsuffix := skipWs_suffix p
    rw [hskip] at hsuffix
    obtain ⟨hleaf, v, hv⟩ := afterLeaf_leaf (hsuffix.trans htail) convert hafter
    rw [← hskip] at hleaf hv
    have hparse := parses_leaf convert hleaf
    rw [hv] at hparse
    exact ih ⟨_, hparse, hdoomed v⟩
  | @item n S c p hvisit hzero hclose ih =>
    exact fun hdoomed => ih (member_doomed hzero hclose rfl hdoomed)
  | @member n S p r q hvisit hend hcolon ih =>
    intro hdoomed
    have hstring := parseJsonString_end ((List.suffix_cons quote p).trans (visits_suffix hvisit))
    rw [hend] at hstring
    obtain ⟨str, hstring⟩ := hstring
    have hheader : memberHeader .object (quote :: p) = .ok str (skipWs q) := by
      rw [memberHeader, hstring]
      simp only [hcolon, if_true]
    exact ih (member_doomed (by decide) (by decide) hheader hdoomed)
  | @ended g S p _ _ ih =>
    intro hdoomed
    exact ih fun acc _ => ⟨_, loops_end, hdoomed _⟩
  | @close k n S p _ _ ih =>
    intro hdoomed
    exact ih fun acc _ => ⟨_, loops_close, hdoomed _⟩
  | @next k n S r s hvisit hsep ih =>
    intro hdoomed
    exact ih fun v => ⟨visits_room hvisit, Or.inr ⟨s, hsep, hdoomed⟩⟩

theorem passes_doomed (convert : List UInt8 → δ) (hvisit : Visits text.memory spot S)
    (hpass : Passes spot S) : Doomed convert spot S := by
  have htail := visits_suffix hvisit
  cases hpass with
  | @cut p q S hskip hcut =>
    have hsuffix := skipWs_suffix p
    rw [hskip] at hsuffix
    have hstring := parseJsonString_end ((List.suffix_cons quote q).trans (hsuffix.trans htail))
    rw [hcut] at hstring
    rw [← hskip] at hstring
    exact ⟨_, string_past hstring, falls_overrun convert S⟩
  | @cutKey q n S hcut =>
    intro acc _
    have hstring := parseJsonString_end ((List.suffix_cons quote q).trans htail)
    rw [hcut] at hstring
    refine ⟨_, loops_headerPast (by decide) (by decide) ?_, falls_overrun convert S⟩
    rw [memberHeader, hstring]
  | behind =>
    intro v
    cases S with
    | nil => exact fun hinside => hinside rfl
    | cons f S => exact ⟨visits_room hvisit, Or.inl rfl⟩

/-- No byte behind the terminator is read and no cursor passes it if and only if the walk over the
text meets no string that is cut off directly behind a backslash, and stands in front of the end
of the memory behind every value. -/
theorem jsonParse_inside_iff (convert : List UInt8 → δ) (text : CString) :
    ((∀ x, Parses convert text.memory x → Inside x) ↔
      ∀ spot S, Visits text.memory spot S → ¬ Passes spot S) ∧
    (Inside (parseJsonString text.memory) ↔ ∀ q, text.memory = quote :: q →
      stringEnd q ≠ .cut) := by
  have hmemory : text.memory ≠ [] := by
    rw [CString.memory]
    exact List.append_ne_nil_of_right_ne_nil _ (List.cons_ne_nil 0 [])
  refine ⟨⟨fun hinside spot S hvisit hpass => ?_, fun clear x hparse => ?_⟩, ?_⟩
  · obtain ⟨x, hparse, hfalls⟩ := visits_doomed convert hvisit (passes_doomed convert hvisit hpass)
    exact hfalls (hinside x hparse)
  · obtain ⟨fuel, hparse⟩ := hparse
    obtain ⟨hover, hnull, hok⟩ := (fuel_kept clear convert fuel).1 _ _ _ hmemory .start hparse
    cases x with
    | ok v r =>
      rintro rfl
      exact clear _ _ (hok v [] rfl trivial) .behind
    | null e =>
      cases e with
      | none => trivial
      | some e => exact hnull e rfl
    | overrun => exact absurd rfl hover
    | overflow => trivial
  · obtain ⟨c, q, hc⟩ := List.exists_cons_of_ne_nil hmemory
    have htail : c :: q <:+ text.memory := hc ▸ List.suffix_rfl
    rw [hc]
    by_cases hquote : c = quote
    · subst hquote
      have hstring := parseJsonString_end ((List.suffix_cons quote q).trans htail)
      cases hend : stringEnd q with
      | closed r =>
        rw [hend] at hstring
        obtain ⟨str, hstring⟩ := hstring
        have hr := after_ne_nil ((stringEnd_suffix hend).trans
          ((List.suffix_cons quote q).trans htail)) (by decide)
        rw [hstring]
        refine iff_of_true hr fun q' heq => ?_
        rw [← (List.cons.inj heq).2, hend]
        simp
      | unclosed =>
        rw [hend] at hstring
        rw [hstring]
        refine iff_of_true trivial fun q' heq => ?_
        rw [← (List.cons.inj heq).2, hend]
        simp
      | cut =>
        rw [hend] at hstring
        rw [hstring]
        exact iff_of_false id fun h => h q rfl hend
    · rw [parseJsonString, if_neg hquote]
      exact iff_of_true trivial fun q' heq => absurd (List.cons.inj heq).1 hquote

end Walk

/-- The text `"a"`. -/
def loneString : CString := ⟨[34, 97, 34], by decide⟩

/-- The text that is a quote and a backslash. -/
def cutString : CString := ⟨[34, 92], by decide⟩

/-- Behind a string alone `*end` has passed the terminator, and behind a backslash at the end the
next byte is read. -/
theorem terminator_passed :
    ¬ (∀ x : Result (JsonValue (List UInt8)), Parses id loneString.memory x → Inside x) ∧
      ¬ (∀ x : Result (JsonValue (List UInt8)), Parses id cutString.memory x → Inside x) ∧
      ¬ Inside (parseJsonString cutString.memory) :=
  ⟨fun h => h (.ok (.string [97]) []) ⟨1, rfl⟩ rfl, fun h => h .overrun ⟨1, rfl⟩, id⟩

end MovieCatalog
