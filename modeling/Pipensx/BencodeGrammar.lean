import Mathlib.Data.List.Basic
import Mathlib.Tactic.Ring
import Pipensx.Bencode

/-!
# The bencode grammar and what the parser accepts

`Value d bytes` says that `bytes` is one bencode value with nothing nested more than
`d` levels inside it. Leading zeros and `-0` are allowed; only the magnitude is bounded.
The parser counts the digits of an integer in an `int`, which is zero again behind
`2 ^ 32` of them, so it reads the `Counted` values. The two are compared in both
directions: whatever `beSkip` steps over is a counted value, and every counted value
that lies below `stop` is stepped over.
-/

namespace Bencode

/-- The bytes `l` stand in memory from `p` on. -/
def Holds (mem : Memory) (p : Nat) (l : List UInt8) : Prop := slice mem p l.length = l

@[simp] theorem slice_length (mem : Memory) (p n : Nat) : (slice mem p n).length = n := by
  induction n generalizing p with
  | zero => rfl
  | succ n ih => simp [slice, ih]

theorem slice_add (mem : Memory) (p m n : Nat) :
    slice mem p (m + n) = slice mem p m ++ slice mem (p + m) n := by
  induction m generalizing p with
  | zero => simp [slice]
  | succ m ih =>
    have he : m + 1 + n = (m + n) + 1 := by omega
    rw [he, slice, slice, ih, List.cons_append]
    congr 3
    omega

theorem holds_slice (mem : Memory) (p n : Nat) : Holds mem p (slice mem p n) := by
  simp [Holds]

@[simp] theorem holds_nil (mem : Memory) (p : Nat) : Holds mem p [] := rfl

@[simp] theorem holds_cons (mem : Memory) (p : Nat) (c : UInt8) (l : List UInt8) :
    Holds mem p (c :: l) ↔ mem p = c ∧ Holds mem (p + 1) l := by
  simp [Holds, slice]

@[simp] theorem holds_append (mem : Memory) (p : Nat) (a b : List UInt8) :
    Holds mem p (a ++ b) ↔ Holds mem p a ∧ Holds mem (p + a.length) b := by
  induction a generalizing p with
  | nil => simp
  | cons c a ih =>
    have he : p + 1 + a.length = p + (a.length + 1) := by omega
    simp [ih, and_assoc, he]

/-- The value of a run of digits after `v` has been read. -/
def decimalFrom (v : Nat) (ds : List UInt8) : Nat :=
  ds.foldl (fun v c => v * 10 + digitVal c) v

def IntText (l : List UInt8) : Prop :=
  ∃ sign ds, (sign = [] ∨ sign = [minus]) ∧ ds ≠ [] ∧ (∀ c ∈ ds, IsDigit c) ∧
    decimalFrom 0 ds ≤ int64Max ∧ l = letterI :: (sign ++ (ds ++ [letterE]))

def StrText (l : List UInt8) : Prop :=
  ∃ ds body, ds ≠ [] ∧ (∀ c ∈ ds, IsDigit c) ∧ decimalFrom 0 ds = body.length ∧
    body.length ≤ sizeMax ∧ l = ds ++ colon :: body

/-- An integer whose digits are not counted as none. -/
def CountedInt (l : List UInt8) : Prop :=
  ∃ sign ds, (sign = [] ∨ sign = [minus]) ∧ ds.length % 2 ^ 32 ≠ 0 ∧ (∀ c ∈ ds, IsDigit c) ∧
    decimalFrom 0 ds ≤ int64Max ∧ l = letterI :: (sign ++ (ds ++ [letterE]))

/-- One value, with no value in it more than `d` levels down, over what an integer is. -/
inductive ValueOf (int : List UInt8 → Prop) : Nat → List UInt8 → Prop
  | int {d : Nat} {l : List UInt8} (text : int l) : ValueOf int d l
  | str {d : Nat} {l : List UInt8} (text : StrText l) : ValueOf int d l
  | list {d : Nat} (items : List (List UInt8)) (room : items ≠ [] → 0 < d)
      (values : ∀ v ∈ items, ValueOf int (d - 1) v) :
      ValueOf int d (letterL :: (items.flatten ++ [letterE]))
  | dict {d : Nat} (pairs : List (List UInt8 × List UInt8)) (room : pairs ≠ [] → 0 < d)
      (keys : ∀ q ∈ pairs, StrText q.1) (values : ∀ q ∈ pairs, ValueOf int (d - 1) q.2) :
      ValueOf int d (letterD :: ((pairs.map (fun q => q.1 ++ q.2)).flatten ++ [letterE]))

abbrev Value : Nat → List UInt8 → Prop := ValueOf IntText
abbrev Counted : Nat → List UInt8 → Prop := ValueOf CountedInt

theorem CountedInt.text {l : List UInt8} (h : CountedInt l) : IntText l := by
  obtain ⟨sign, ds, hsign, hcount, hdig, hfit, rfl⟩ := h
  refine ⟨sign, ds, hsign, ?_, hdig, hfit, rfl⟩
  rintro rfl
  exact hcount rfl

theorem ValueOf.imp {int int' : List UInt8 → Prop} {d : Nat} {l : List UInt8}
    (himp : ∀ l, int l → int' l) (h : ValueOf int d l) : ValueOf int' d l := by
  induction h with
  | int text => exact .int (himp _ text)
  | str text => exact .str text
  | list items room values ih => exact .list items room ih
  | dict pairs room keys values ih => exact .dict pairs room keys ih

theorem Counted.value {d : Nat} {l : List UInt8} (h : Counted d l) : Value d l :=
  h.imp fun _ => CountedInt.text

theorem StrText.head {l : List UInt8} (h : StrText l) :
    ∃ c rest, l = c :: rest ∧ IsDigit c := by
  obtain ⟨ds, body, hne, hd, _, _, rfl⟩ := h
  cases ds with
  | nil => exact absurd rfl hne
  | cons c ds => exact ⟨c, ds ++ colon :: body, rfl, hd c List.mem_cons_self⟩

/-- The first byte of a value is never the closing letter. -/
theorem ValueOf.head {d : Nat} {l : List UInt8} (h : Counted d l) :
    ∃ c rest, l = c :: rest ∧ c ≠ letterE := by
  cases h with
  | int text =>
    obtain ⟨sign, ds, _, _, _, _, rfl⟩ := text
    exact ⟨letterI, _, rfl, by decide⟩
  | str text =>
    obtain ⟨c, rest, rfl, hc⟩ := text.head
    refine ⟨c, rest, rfl, ?_⟩
    rintro rfl
    exact absurd hc (by decide)
  | list items => exact ⟨letterL, _, rfl, by decide⟩
  | dict pairs => exact ⟨letterD, _, rfl, by decide⟩

theorem le_decimalFrom (v : Nat) (ds : List UInt8) : v ≤ decimalFrom v ds := by
  induction ds generalizing v with
  | nil => exact Nat.le_refl v
  | cons c ds ih =>
    have h := ih (v * 10 + digitVal c)
    simp only [decimalFrom, List.foldl_cons] at h ⊢
    omega

theorem digitVal_le {c : UInt8} (h : IsDigit c) : digitVal c ≤ 9 := by
  have := h.2
  simp only [digitVal]
  omega

/-- The overflow guard is exact: it lets a digit through iff the new value fits. -/
theorem guard_iff {v limit k : Nat} (hk : k ≤ limit) :
    ¬ v > (limit - k) / 10 ↔ v * 10 + k ≤ limit := by
  rw [gt_iff_lt, not_lt, Nat.le_div_iff_mul_le (by decide)]
  omega

theorem decimalLoop_sound {mem : Memory} {stop limit : Nat} (hl : 9 ≤ limit)
    (fuel s v digits : Nat) {s' v' digits' : Nat} (enough : stop - s ≤ fuel)
    (h : decimalLoop mem stop limit fuel s v digits = some (s', v', digits')) :
    ∃ ds, Holds mem s ds ∧ (∀ c ∈ ds, IsDigit c) ∧ s' = s + ds.length ∧
      v' = decimalFrom v ds ∧ digits' % 2 ^ 32 = (digits + ds.length) % 2 ^ 32 ∧
      (digits < 2 ^ 32 → digits' < 2 ^ 32) ∧ (v ≤ limit → v' ≤ limit) ∧ (s ≤ stop → s' ≤ stop) ∧
      (s' < stop → ¬ IsDigit (mem s')) := by
  induction fuel generalizing s v digits with
  | zero =>
    simp only [decimalLoop, Option.some.injEq, Prod.mk.injEq] at h
    obtain ⟨rfl, rfl, rfl⟩ := h
    exact ⟨[], by simp, by simp, rfl, rfl, rfl, id, id, id, by omega⟩
  | succ fuel ih =>
    rw [decimalLoop] at h
    by_cases hc : s < stop ∧ IsDigit (mem s)
    · rw [if_pos hc] at h
      have hk := digitVal_le hc.2
      by_cases hg : v > (limit - digitVal (mem s)) / 10
      · simp [hg] at h
      · rw [if_neg hg] at h
        obtain ⟨ds, hds, hdig, hs, hv, hn, hbits, hlim, hstop, hlast⟩ :=
          ih (s + 1) (v * 10 + digitVal (mem s)) ((digits + 1) % 2 ^ 32) (by omega) h
        have hfit := (guard_iff (Nat.le_trans hk hl)).mp hg
        refine ⟨mem s :: ds, by simp [hds], ?_, ?_, hv, ?_, ?_, ?_, ?_, hlast⟩
        · simpa using ⟨hc.2, hdig⟩
        · simp only [List.length_cons]; omega
        · simp only [List.length_cons]; omega
        · exact fun _ => hbits (Nat.mod_lt _ (by decide))
        · exact fun _ => hlim hfit
        · intro _
          exact hstop (by omega)
    · rw [if_neg hc] at h
      simp only [Option.some.injEq, Prod.mk.injEq] at h
      obtain ⟨rfl, rfl, rfl⟩ := h
      exact ⟨[], by simp, by simp, rfl, rfl, rfl, id, id, id, fun hs hd => hc ⟨hs, hd⟩⟩

theorem decimalLoop_complete (mem : Memory) (stop limit : Nat) (hl : 9 ≤ limit)
    (ds : List UInt8) (fuel s v digits : Nat) (bits : digits < 2 ^ 32) (enough : ds.length ≤ fuel)
    (held : Holds mem s ds) (digit : ∀ c ∈ ds, IsDigit c)
    (inside : s + ds.length ≤ stop) (fits : decimalFrom v ds ≤ limit)
    (last : s + ds.length < stop → ¬ IsDigit (mem (s + ds.length))) :
    decimalLoop mem stop limit fuel s v digits =
      some (s + ds.length, decimalFrom v ds, (digits + ds.length) % 2 ^ 32) := by
  induction ds generalizing fuel s v digits with
  | nil =>
    have hbits : (digits + ([] : List UInt8).length) % 2 ^ 32 = digits := Nat.mod_eq_of_lt bits
    rw [hbits]
    cases fuel with
    | zero => rfl
    | succ fuel =>
      rw [decimalLoop, if_neg (fun hc => last hc.1 hc.2)]
      rfl
  | cons c ds ih =>
    simp only [List.length_cons] at enough inside last
    obtain ⟨hc, hds⟩ := (holds_cons mem s c ds).mp held
    have hdig := digit c List.mem_cons_self
    cases fuel with
    | zero => omega
    | succ fuel =>
      have hk := digitVal_le hdig
      have hstep : v * 10 + digitVal c ≤ limit :=
        Nat.le_trans (le_decimalFrom _ ds) fits
      have hs : s + (ds.length + 1) = s + 1 + ds.length := by omega
      rw [hs] at last
      have hn : (digits + (ds.length + 1)) % 2 ^ 32 =
          ((digits + 1) % 2 ^ 32 + ds.length) % 2 ^ 32 := by omega
      rw [decimalLoop, if_pos ⟨by omega, hc ▸ hdig⟩, hc,
        if_neg ((guard_iff (Nat.le_trans hk hl)).mpr hstep),
        ih fuel (s + 1) (v * 10 + digitVal c) ((digits + 1) % 2 ^ 32) (Nat.mod_lt _ (by decide))
          (by omega) hds (fun x hx => digit x (List.mem_cons_of_mem c hx)) (by omega) fits last]
      simp only [List.length_cons, hs, hn]
      rfl

theorem parseInt_sound {mem : Memory} {stop p q : Nat} {v : Int}
    (h : parseInt mem stop p = some (v, q)) :
    p < q ∧ q ≤ stop ∧ CountedInt (slice mem p (q - p)) := by
  rw [parseInt] at h
  by_cases hp : p ≥ stop ∨ mem p ≠ letterI
  · simp [hp] at h
  rw [if_neg hp] at h
  push Not at hp
  -- the sign is either absent or the one byte after the letter
  obtain ⟨sign, hsign, hheld, s, hs, hneg⟩ : ∃ sign : List UInt8,
      (sign = [] ∨ sign = [minus]) ∧ Holds mem (p + 1) sign ∧
      ∃ s, s = p + 1 + sign.length ∧
        (if decide (p + 1 < stop ∧ mem (p + 1) = minus) = true then p + 2 else p + 1) = s := by
    by_cases hm : p + 1 < stop ∧ mem (p + 1) = minus
    · exact ⟨[minus], Or.inr rfl, by simp [hm.2], p + 2, rfl, by simp [hm]⟩
    · exact ⟨[], Or.inl rfl, by simp, p + 1, rfl, by simp [hm]⟩
  simp only [hneg] at h
  cases hloop : decimalLoop mem stop int64Max (stop - s) s 0 0 with
  | none => simp [hloop] at h
  | some r =>
    obtain ⟨s', v', digits⟩ := r
    simp only [hloop] at h
    by_cases hend : digits = 0 ∨ s' ≥ stop ∨ mem s' ≠ letterE
    · simp [hend] at h
    rw [if_neg hend] at h
    push Not at hend
    simp only [Option.some.injEq, Prod.mk.injEq] at h
    obtain ⟨ds, hds, hdig, hs', hv', hn, hbits, hlim, _, _⟩ :=
      decimalLoop_sound (by decide) _ s 0 0 (Nat.le_refl _) hloop
    have hq : q = s' + 1 := h.2.symm
    have hlen : q - p = (letterI :: (sign ++ (ds ++ [letterE]))).length := by
      simp only [List.length_cons, List.length_append, List.length_nil]
      omega
    have htext : Holds mem p (letterI :: (sign ++ (ds ++ [letterE]))) := by
      simp only [holds_cons, holds_append, holds_nil, and_true]
      exact ⟨hp.2, hheld, hs ▸ hds, by rw [← hs, ← hs']; exact hend.2.2⟩
    refine ⟨by omega, by omega, sign, ds, hsign, ?_, hdig, ?_, ?_⟩
    · rw [Nat.zero_add, Nat.mod_eq_of_lt (hbits (by decide))] at hn
      exact hn ▸ hend.1
    · exact hv' ▸ hlim (Nat.zero_le _)
    · rw [hlen]
      exact htext

theorem parseInt_complete {mem : Memory} {stop p : Nat} {l : List UInt8}
    (text : CountedInt l) (held : Holds mem p l) (inside : p + l.length ≤ stop) :
    ∃ v, parseInt mem stop p = some (v, p + l.length) := by
  obtain ⟨sign, ds, hsign, hcount, hdig, hfit, rfl⟩ := text
  simp only [holds_cons, holds_append, holds_nil, and_true] at held
  obtain ⟨hi, hheld, hds, he⟩ := held
  simp only [List.length_cons, List.length_append, List.length_nil] at inside
  have hne : ds ≠ [] := by
    rintro rfl
    exact hcount rfl
  have hstart : (if decide (p + 1 < stop ∧ mem (p + 1) = minus) = true then p + 2 else p + 1) =
      p + 1 + sign.length := by
    rcases hsign with rfl | rfl
    · -- without a sign the next byte is a digit, never the minus
      have hnot : ¬ (p + 1 < stop ∧ mem (p + 1) = minus) := by
        rintro ⟨_, hm⟩
        obtain ⟨c, ds', rfl⟩ := List.exists_cons_of_ne_nil hne
        have hc : mem (p + 1) = c := ((holds_cons _ _ _ _).mp hds).1
        have hminus : IsDigit minus := (hc.symm.trans hm) ▸ hdig c List.mem_cons_self
        exact absurd hminus (by decide)
      simp [hnot]
    · have hm : mem (p + 1) = minus := ((holds_cons _ _ _ _).mp hheld).1
      have hin : p + 1 < stop := by simp only [List.length_cons, List.length_nil] at inside; omega
      simp [hm, hin]
  have hloop := decimalLoop_complete mem stop int64Max (by decide)
    ds (stop - (p + 1 + sign.length)) (p + 1 + sign.length) 0 0 (by decide) (by omega) hds hdig
    (by omega) hfit (fun _ hd => absurd (he ▸ hd) (by decide))
  rw [parseInt, if_neg (by push Not; exact ⟨by omega, hi⟩)]
  simp only [hstart, hloop, Nat.zero_add]
  rw [if_neg (by push Not; exact ⟨hcount, by omega, he⟩)]
  refine ⟨_, congrArg some (Prod.ext rfl ?_)⟩
  simp only [List.length_cons, List.length_append, List.length_nil]
  omega

theorem parseStr_sound {mem : Memory} {stop p k len q : Nat}
    (h : parseStr mem stop p = some (k, len, q)) :
    p < q ∧ q ≤ stop ∧ StrText (slice mem p (q - p)) ∧ k + len = q ∧ p < k := by
  rw [parseStr] at h
  by_cases hp : p ≥ stop ∨ ¬ IsDigit (mem p)
  · rw [if_pos hp] at h
    cases h
  rw [if_neg hp] at h
  rw [not_or, not_not] at hp
  cases hloop : decimalLoop mem stop sizeMax (stop - p) p 0 0 with
  | none => simp [hloop] at h
  | some r =>
    obtain ⟨s, len', digits⟩ := r
    simp only [hloop] at h
    by_cases hcol : s ≥ stop ∨ mem s ≠ colon
    · simp [hcol] at h
    rw [if_neg hcol] at h
    push Not at hcol
    by_cases hroom : stop - (s + 1) < len'
    · simp [hroom] at h
    rw [if_neg hroom] at h
    simp only [Option.some.injEq, Prod.mk.injEq] at h
    obtain ⟨rfl, rfl, rfl⟩ := h
    obtain ⟨ds, hds, hdig, hs, hv, _, _, hlim, _, hlast⟩ :=
      decimalLoop_sound (by decide) _ p 0 0 (Nat.le_refl _) hloop
    have hlen : s + 1 + len' - p = (ds ++ colon :: slice mem (s + 1) len').length := by
      simp only [List.length_cons, List.length_append, slice_length]
      omega
    have htext : Holds mem p (ds ++ colon :: slice mem (s + 1) len') := by
      simp only [holds_append, holds_cons]
      exact ⟨hds, hs ▸ hcol.2, hs ▸ holds_slice mem (s + 1) len'⟩
    refine ⟨by omega, by omega,
      ⟨ds, slice mem (s + 1) len', ?_, hdig, ?_, ?_, by rw [hlen]; exact htext⟩, rfl, by omega⟩
    · rintro rfl
      exact hlast hcol.1 (by simpa [hs] using hp.2)
    · rw [slice_length, hv]
    · rw [slice_length]
      exact hlim (Nat.zero_le _)

/-- Where the bytes of a string start, and how many there are. -/
theorem parseStr_text {mem : Memory} {stop p : Nat} {ds body : List UInt8} (hne : ds ≠ [])
    (hdig : ∀ c ∈ ds, IsDigit c) (hval : decimalFrom 0 ds = body.length)
    (hfit : body.length ≤ sizeMax)
    (held : Holds mem p (ds ++ colon :: body)) (inside : p + (ds ++ colon :: body).length ≤ stop) :
    parseStr mem stop p =
      some (p + ds.length + 1, body.length, p + (ds ++ colon :: body).length) := by
  have hfirst : IsDigit (mem p) := by
    cases ds with
    | nil => exact absurd rfl hne
    | cons c rest => exact ((holds_cons _ _ _ _).mp held).1 ▸ hdig c List.mem_cons_self
  simp only [holds_append, holds_cons] at held
  obtain ⟨hds, hcol, hbody⟩ := held
  simp only [List.length_cons, List.length_append] at inside ⊢
  have hloop := decimalLoop_complete mem stop sizeMax (by decide)
    ds (stop - p) p 0 0 (by decide) (by omega) hds hdig (by omega) (by omega)
    (fun _ hd => absurd (hcol ▸ hd) (by decide))
  rw [parseStr, if_neg (by rw [not_or, not_not]; exact ⟨by omega, hfirst⟩), hloop]
  simp only
  rw [if_neg (by push Not; exact ⟨by omega, hcol⟩), if_neg (by omega), hval]
  refine congrArg some (Prod.ext rfl (Prod.ext rfl ?_))
  simp only
  omega

theorem parseStr_complete {mem : Memory} {stop p : Nat} {l : List UInt8}
    (text : StrText l) (held : Holds mem p l) (inside : p + l.length ≤ stop) :
    ∃ k len, parseStr mem stop p = some (k, len, p + l.length) := by
  obtain ⟨ds, body, hne, hdig, hval, hfit, rfl⟩ := text
  exact ⟨_, _, parseStr_text hne hdig hval hfit held inside⟩

theorem skipItems_sound {mem : Memory} {stop : Nat} {skip : Nat → Option Nat}
    {P : List UInt8 → Prop}
    (step : ∀ p q, skip p = some q → p < q ∧ q ≤ stop ∧ P (slice mem p (q - p)))
    (fuel p : Nat) {q : Nat} (below : p ≤ stop) (h : skipItems mem stop skip fuel p = some q) :
    p ≤ q ∧ q ≤ stop ∧ (q < stop → mem q = letterE) ∧
      ∃ items : List (List UInt8), slice mem p (q - p) = items.flatten ∧ ∀ v ∈ items, P v := by
  induction fuel generalizing p with
  | zero => cases h
  | succ fuel ih =>
    rw [skipItems] at h
    by_cases hc : p < stop ∧ mem p ≠ letterE
    · rw [if_pos hc] at h
      cases hs : skip p with
      | none => simp [hs] at h
      | some m =>
        simp only [hs] at h
        obtain ⟨hpm, hm, hv⟩ := step p m hs
        obtain ⟨hmq, hq, hlast, items, hflat, hall⟩ := ih m hm h
        refine ⟨by omega, hq, hlast, slice mem p (m - p) :: items, ?_, ?_⟩
        · have hsum : q - p = (m - p) + (q - m) := by omega
          have hmid : p + (m - p) = m := by omega
          rw [hsum, slice_add, hmid, hflat, List.flatten_cons]
        · exact List.forall_mem_cons.mpr ⟨hv, hall⟩
    · rw [if_neg hc] at h
      obtain rfl := Option.some.inj h
      refine ⟨Nat.le_refl p, below, ?_, [], by simp [slice], by simp⟩
      intro hp
      by_contra hne
      exact hc ⟨hp, hne⟩

theorem skipPairs_sound {mem : Memory} {stop : Nat} {skip : Nat → Option Nat}
    {P : List UInt8 → Prop}
    (step : ∀ p q, skip p = some q → p < q ∧ q ≤ stop ∧ P (slice mem p (q - p)))
    (fuel p : Nat) {q : Nat} (below : p ≤ stop) (h : skipPairs mem stop skip fuel p = some q) :
    p ≤ q ∧ q ≤ stop ∧ (q < stop → mem q = letterE) ∧
      ∃ pairs : List (List UInt8 × List UInt8),
        slice mem p (q - p) = (pairs.map (fun r => r.1 ++ r.2)).flatten ∧
        (∀ r ∈ pairs, StrText r.1) ∧ ∀ r ∈ pairs, P r.2 := by
  induction fuel generalizing p with
  | zero => cases h
  | succ fuel ih =>
    rw [skipPairs] at h
    by_cases hc : p < stop ∧ mem p ≠ letterE
    · rw [if_pos hc] at h
      cases hk : parseStr mem stop p with
      | none => simp [hk] at h
      | some key =>
        obtain ⟨k, len, m⟩ := key
        simp only [hk] at h
        cases hs : skip m with
        | none => simp [hs] at h
        | some r =>
          simp only [hs] at h
          obtain ⟨hpm, _, hkey, _, _⟩ := parseStr_sound hk
          obtain ⟨hmr, hr, hv⟩ := step m r hs
          obtain ⟨hrq, hq, hlast, pairs, hflat, hkeys, hvals⟩ := ih r hr h
          refine ⟨by omega, hq, hlast,
            (slice mem p (m - p), slice mem m (r - m)) :: pairs, ?_, ?_, ?_⟩
          · have hsum : q - p = (m - p) + ((r - m) + (q - r)) := by omega
            have hm : p + (m - p) = m := by omega
            have hr' : m + (r - m) = r := by omega
            rw [hsum, slice_add, hm, slice_add, hr', hflat, List.map_cons, List.flatten_cons,
              List.append_assoc]
          · exact List.forall_mem_cons.mpr ⟨hkey, hkeys⟩
          · exact List.forall_mem_cons.mpr ⟨hv, hvals⟩
    · rw [if_neg hc] at h
      obtain rfl := Option.some.inj h
      refine ⟨Nat.le_refl p, below, ?_, [], by simp [slice], by simp, by simp⟩
      intro hp
      by_contra hne
      exact hc ⟨hp, hne⟩

theorem closeContainer_eq_some {stop q : Nat} {r : Option Nat}
    (h : closeContainer stop r = some q) : ∃ m, r = some m ∧ m < stop ∧ q = m + 1 := by
  cases r with
  | none => cases h
  | some m =>
    rw [closeContainer] at h
    by_cases hm : m ≥ stop
    · rw [if_pos hm] at h
      cases h
    · rw [if_neg hm] at h
      exact ⟨m, rfl, by omega, (Option.some.inj h).symm⟩

/-- A container body between its two letters is the whole slice. -/
theorem slice_container {mem : Memory} {p m : Nat} {c : UInt8} {body : List UInt8}
    (hp : mem p = c) (hm : mem m = letterE) (hpm : p + 1 ≤ m)
    (hbody : slice mem (p + 1) (m - (p + 1)) = body) :
    slice mem p (m + 1 - p) = c :: (body ++ [letterE]) := by
  have hlen : m + 1 - p = 1 + ((m - (p + 1)) + 1) := by omega
  have hmid : p + 1 + (m - (p + 1)) = m := by omega
  rw [hlen, slice_add, slice_add, hmid, hbody]
  simp [slice, hp, hm]

/-- Whatever the skipping pass steps over is one value of the grammar, with its digits counted. -/
theorem beSkip_sound {mem : Memory} {stop : Nat} (d p : Nat) {q : Nat}
    (h : beSkip mem stop (d + 1) p = some q) :
    p < q ∧ q ≤ stop ∧ Counted d (slice mem p (q - p)) := by
  induction d using Nat.strongRecOn generalizing p q with
  | ind d ih =>
    -- a child is skipped with one level less, and with none left it is never accepted
    have step : ∀ p q, beSkip mem stop d p = some q →
        p < q ∧ q ≤ stop ∧ (0 < d ∧ Counted (d - 1) (slice mem p (q - p))) := by
      intro p q hs
      cases d with
      | zero => cases hs
      | succ k =>
        obtain ⟨hpq, hq, hv⟩ := ih k (Nat.lt_succ_self k) p hs
        exact ⟨hpq, hq, Nat.succ_pos k, hv⟩
    rw [beSkip] at h
    by_cases hp : p ≥ stop
    · rw [if_pos hp] at h
      cases h
    rw [if_neg hp] at h
    by_cases hi : mem p = letterI
    · rw [if_pos hi] at h
      obtain ⟨⟨v, q'⟩, hr, rfl⟩ := Option.map_eq_some_iff.mp h
      obtain ⟨hpq, hq, ht⟩ := parseInt_sound hr
      exact ⟨hpq, hq, .int ht⟩
    rw [if_neg hi] at h
    by_cases hd : IsDigit (mem p)
    · rw [if_pos hd] at h
      obtain ⟨⟨k, len, q'⟩, hr, rfl⟩ := Option.map_eq_some_iff.mp h
      obtain ⟨hpq, hq, ht, _, _⟩ := parseStr_sound hr
      exact ⟨hpq, hq, .str ht⟩
    rw [if_neg hd] at h
    by_cases hlist : mem p = letterL
    · rw [if_pos hlist] at h
      obtain ⟨m, hm, hstop, rfl⟩ := closeContainer_eq_some h
      obtain ⟨hpm, _, hlast, items, hflat, hall⟩ :=
        skipItems_sound (P := fun v => 0 < d ∧ Counted (d - 1) v) step _ (p + 1) (by omega) hm
      refine ⟨by omega, hstop, ?_⟩
      rw [slice_container hlist (hlast hstop) hpm hflat]
      refine .list items ?_ (fun v hv => (hall v hv).2)
      intro hne
      obtain ⟨v, rest, rfl⟩ := List.exists_cons_of_ne_nil hne
      exact (hall v List.mem_cons_self).1
    rw [if_neg hlist] at h
    by_cases hdict : mem p = letterD
    · rw [if_pos hdict] at h
      obtain ⟨m, hm, hstop, rfl⟩ := closeContainer_eq_some h
      obtain ⟨hpm, _, hlast, pairs, hflat, hkeys, hall⟩ :=
        skipPairs_sound (P := fun v => 0 < d ∧ Counted (d - 1) v) step _ (p + 1) (by omega) hm
      refine ⟨by omega, hstop, ?_⟩
      rw [slice_container hdict (hlast hstop) hpm hflat]
      refine .dict pairs ?_ hkeys (fun v hv => (hall v hv).2)
      intro hne
      obtain ⟨v, rest, rfl⟩ := List.exists_cons_of_ne_nil hne
      exact (hall v List.mem_cons_self).1
    · rw [if_neg hdict] at h
      cases h

/-- What the loops need to know of a child: it is there, is not the closing
letter, and is skipped to its end wherever it stands below `stop`. -/
def Skips (mem : Memory) (stop : Nat) (skip : Nat → Option Nat) (v : List UInt8) : Prop :=
  (∃ c rest, v = c :: rest ∧ c ≠ letterE) ∧
    ∀ p, Holds mem p v → p + v.length ≤ stop → skip p = some (p + v.length)

theorem skipItems_complete {mem : Memory} {stop : Nat} {skip : Nat → Option Nat}
    (items : List (List UInt8)) (child : ∀ v ∈ items, Skips mem stop skip v) (fuel p : Nat)
    (held : Holds mem p (items.flatten ++ [letterE]))
    (inside : p + items.flatten.length < stop) (enough : items.flatten.length < fuel) :
    skipItems mem stop skip fuel p = some (p + items.flatten.length) := by
  induction items generalizing fuel p with
  | nil =>
    obtain ⟨fuel, rfl⟩ := Nat.exists_eq_succ_of_ne_zero (by omega : fuel ≠ 0)
    have he : mem p = letterE := by simpa using held
    rw [Nat.succ_eq_add_one, skipItems, if_neg (fun hc => hc.2 he)]
    rfl
  | cons v items ih =>
    obtain ⟨⟨c, rest, hv, hc⟩, hskip⟩ := child v List.mem_cons_self
    simp only [List.flatten_cons, List.append_assoc, List.length_append] at held inside enough ⊢
    obtain ⟨hhead, htail⟩ := (holds_append _ _ _ _).mp held
    have hpos : 0 < v.length := by simp [hv]
    obtain ⟨fuel, rfl⟩ := Nat.exists_eq_succ_of_ne_zero (by omega : fuel ≠ 0)
    have hfirst : mem p = c := by
      rw [hv] at hhead
      exact ((holds_cons _ _ _ _).mp hhead).1
    rw [Nat.succ_eq_add_one, skipItems, if_pos ⟨by omega, hfirst ▸ hc⟩,
      hskip p hhead (by omega)]
    have htail' := ih (fun w hw => child w (List.mem_cons_of_mem v hw)) fuel (p + v.length)
      htail (by omega) (by omega)
    simp only [htail', Nat.add_assoc]

theorem skipPairs_complete {mem : Memory} {stop : Nat} {skip : Nat → Option Nat}
    (pairs : List (List UInt8 × List UInt8)) (keys : ∀ q ∈ pairs, StrText q.1)
    (child : ∀ q ∈ pairs, Skips mem stop skip q.2) (fuel p : Nat)
    (held : Holds mem p ((pairs.map (fun q => q.1 ++ q.2)).flatten ++ [letterE]))
    (inside : p + (pairs.map (fun q => q.1 ++ q.2)).flatten.length < stop)
    (enough : (pairs.map (fun q => q.1 ++ q.2)).flatten.length < fuel) :
    skipPairs mem stop skip fuel p =
      some (p + (pairs.map (fun q => q.1 ++ q.2)).flatten.length) := by
  induction pairs generalizing fuel p with
  | nil =>
    obtain ⟨fuel, rfl⟩ := Nat.exists_eq_succ_of_ne_zero (by omega : fuel ≠ 0)
    have he : mem p = letterE := by simpa using held
    rw [Nat.succ_eq_add_one, skipPairs, if_neg (fun hc => hc.2 he)]
    rfl
  | cons q pairs ih =>
    have hkey := keys q List.mem_cons_self
    obtain ⟨_, hskip⟩ := child q List.mem_cons_self
    simp only [List.map_cons, List.flatten_cons, List.append_assoc, List.length_append]
      at held inside enough ⊢
    obtain ⟨hk, hrest⟩ := (holds_append _ _ _ _).mp held
    obtain ⟨hv, htail⟩ := (holds_append _ _ _ _).mp hrest
    obtain ⟨c, rest, hq, hc⟩ := hkey.head
    have hpos : 0 < q.1.length := by simp [hq]
    obtain ⟨fuel, rfl⟩ := Nat.exists_eq_succ_of_ne_zero (by omega : fuel ≠ 0)
    have hfirst : mem p ≠ letterE := by
      rw [hq] at hk
      rw [((holds_cons _ _ _ _).mp hk).1]
      rintro rfl
      exact absurd hc (by decide)
    obtain ⟨k, len, hparse⟩ := parseStr_complete hkey hk (show p + q.1.length ≤ stop by omega)
    rw [Nat.succ_eq_add_one, skipPairs, if_pos ⟨by omega, hfirst⟩, hparse]
    simp only
    rw [hskip (p + q.1.length) hv (by omega)]
    have htail' := ih (fun w hw => keys w (List.mem_cons_of_mem q hw))
      (fun w hw => child w (List.mem_cons_of_mem q hw)) fuel (p + q.1.length + q.2.length)
      htail (by omega) (by omega)
    simp only [htail', Option.some.injEq]
    omega

/-- Every counted value below `stop` is stepped over to its last byte. -/
theorem beSkip_complete {mem : Memory} {stop d : Nat} {l : List UInt8} (value : Counted d l)
    (p : Nat) (held : Holds mem p l) (inside : p + l.length ≤ stop) :
    beSkip mem stop (d + 1) p = some (p + l.length) := by
  induction value generalizing p with
  | int text =>
    obtain ⟨v, hv⟩ := parseInt_complete text held inside
    obtain ⟨sign, ds, _, _, _, _, rfl⟩ := text
    have hi := ((holds_cons _ _ _ _).mp held).1
    have hp : ¬ p ≥ stop := by simp only [List.length_cons] at inside; omega
    rw [beSkip, if_neg hp, if_pos hi, hv]
    rfl
  | str text =>
    obtain ⟨k, len, hv⟩ := parseStr_complete text held inside
    obtain ⟨c, rest, rfl, hc⟩ := text.head
    have hfirst := ((holds_cons _ _ _ _).mp held).1
    have hi : mem p ≠ letterI := by
      rw [hfirst]
      rintro rfl
      exact absurd hc (by decide)
    have hp : ¬ p ≥ stop := by simp only [List.length_cons] at inside; omega
    rw [beSkip, if_neg hp, if_neg hi, if_pos (hfirst ▸ hc), hv]
    rfl
  | @list d items room values ih =>
    obtain ⟨hl, hbody⟩ := (holds_cons _ _ _ _).mp held
    simp only [List.length_cons, List.length_append, List.length_nil] at inside ⊢
    have child : ∀ v ∈ items, Skips mem stop (beSkip mem stop d) v := by
      intro v hv
      have hd : 0 < d := room (List.ne_nil_of_mem hv)
      refine ⟨(values v hv).head, fun p hp hin => ?_⟩
      have := ih v hv p hp hin
      rwa [Nat.sub_add_cancel hd] at this
    have hloop := skipItems_complete items child (stop - p) (p + 1) hbody (by omega) (by omega)
    rw [beSkip, if_neg (by omega), if_neg (by rw [hl]; decide), if_neg (by rw [hl]; decide),
      if_pos hl, hloop, closeContainer, if_neg (by omega)]
    congr 1
    omega
  | @dict d pairs room keys values ih =>
    obtain ⟨hl, hbody⟩ := (holds_cons _ _ _ _).mp held
    simp only [List.length_cons, List.length_append, List.length_nil] at inside ⊢
    have child : ∀ q ∈ pairs, Skips mem stop (beSkip mem stop d) q.2 := by
      intro q hq
      have hd : 0 < d := room (List.ne_nil_of_mem hq)
      refine ⟨(values q hq).head, fun p hp hin => ?_⟩
      have := ih q hq p hp hin
      rwa [Nat.sub_add_cancel hd] at this
    have hloop := skipPairs_complete pairs keys child (stop - p) (p + 1) hbody
      (by omega) (by omega)
    rw [beSkip, if_neg (by omega), if_neg (by rw [hl]; decide), if_neg (by rw [hl]; decide),
      if_neg (by rw [hl]; decide), if_pos hl, hloop, closeContainer, if_neg (by omega)]
    congr 1
    omega

section Frame

variable {mem mem' : Memory} {stop : Nat}

theorem decimalLoop_frame (same : ∀ i, i < stop → mem i = mem' i) (limit fuel s v digits : Nat) :
    decimalLoop mem stop limit fuel s v digits = decimalLoop mem' stop limit fuel s v digits := by
  induction fuel generalizing s v digits with
  | zero => rfl
  | succ fuel ih =>
    rw [decimalLoop, decimalLoop]
    by_cases hs : s < stop
    · simp only [same s hs, ih]
    · simp only [hs, false_and, if_false]

theorem parseInt_frame (same : ∀ i, i < stop → mem i = mem' i) (p : Nat) :
    parseInt mem stop p = parseInt mem' stop p := by
  by_cases hp : p < stop
  · have hminus : (p + 1 < stop ∧ mem (p + 1) = minus) ↔ (p + 1 < stop ∧ mem' (p + 1) = minus) :=
      and_congr_right (fun h => by rw [same _ h])
    have hend : ∀ digits s, (digits = 0 ∨ s ≥ stop ∨ mem s ≠ letterE) ↔
        (digits = 0 ∨ s ≥ stop ∨ mem' s ≠ letterE) := by
      intro digits s
      by_cases hs : s < stop
      · rw [same s hs]
      · simp [Nat.le_of_not_lt hs]
    simp only [parseInt, same p hp, hminus, decimalLoop_frame same, hend]
  · simp [parseInt, Nat.le_of_not_lt hp]

theorem parseStr_frame (same : ∀ i, i < stop → mem i = mem' i) (p : Nat) :
    parseStr mem stop p = parseStr mem' stop p := by
  by_cases hp : p < stop
  · have hcol : ∀ s, (s ≥ stop ∨ mem s ≠ colon) ↔ (s ≥ stop ∨ mem' s ≠ colon) := by
      intro s
      by_cases hs : s < stop
      · rw [same s hs]
      · simp [Nat.le_of_not_lt hs]
    simp only [parseStr, same p hp, decimalLoop_frame same, hcol]
  · simp [parseStr, Nat.le_of_not_lt hp]

theorem skipItems_frame (same : ∀ i, i < stop → mem i = mem' i) {skip skip' : Nat → Option Nat}
    (hskip : ∀ p, skip p = skip' p) (fuel p : Nat) :
    skipItems mem stop skip fuel p = skipItems mem' stop skip' fuel p := by
  induction fuel generalizing p with
  | zero => rfl
  | succ fuel ih =>
    rw [skipItems, skipItems]
    by_cases hp : p < stop
    · simp only [same p hp, hskip, ih]
    · simp only [hp, false_and, if_false]

theorem skipPairs_frame (same : ∀ i, i < stop → mem i = mem' i) {skip skip' : Nat → Option Nat}
    (hskip : ∀ p, skip p = skip' p) (fuel p : Nat) :
    skipPairs mem stop skip fuel p = skipPairs mem' stop skip' fuel p := by
  induction fuel generalizing p with
  | zero => rfl
  | succ fuel ih =>
    rw [skipPairs, skipPairs]
    by_cases hp : p < stop
    · simp only [same p hp, parseStr_frame same, hskip, ih]
    · simp only [hp, false_and, if_false]

theorem beSkip_frame (same : ∀ i, i < stop → mem i = mem' i) (levels p : Nat) :
    beSkip mem stop levels p = beSkip mem' stop levels p := by
  induction levels generalizing p with
  | zero => rfl
  | succ levels ih =>
    rw [beSkip, beSkip]
    by_cases hp : p < stop
    · simp only [same p hp, parseInt_frame same, parseStr_frame same,
        skipItems_frame same ih, skipPairs_frame same ih]
    · rw [if_pos (Nat.le_of_not_lt hp), if_pos (Nat.le_of_not_lt hp)]

theorem beDecode_frame (same : ∀ i, i < stop → mem i = mem' i) (p : Nat) (out : BeNode) :
    beDecode mem stop p out = beDecode mem' stop p out := by
  rw [beDecode, beDecode]
  by_cases hp : p < stop
  · simp only [same p hp, parseInt_frame same, parseStr_frame same, beSkip_frame same]
  · rw [if_pos (Nat.le_of_not_lt hp), if_pos (Nat.le_of_not_lt hp)]

end Frame

/-- `be_decode` moves its cursor exactly where the skipping pass would. -/
theorem beDecode_eq_beSkip (mem : Memory) (stop p : Nat) (out : BeNode) :
    match beSkip mem stop (beMaxDepth + 1) p with
    | none => (beDecode mem stop p out).ret = false ∧ (beDecode mem stop p out).p = p
    | some q => (beDecode mem stop p out).ret = true ∧ (beDecode mem stop p out).p = q ∧
        (beDecode mem stop p out).out.rawLen = q - p := by
  rw [beDecode]
  by_cases hp : p ≥ stop
  · simp [beSkip, hp]
  by_cases hi : mem p = letterI
  · rw [beSkip, if_neg hp, if_neg hp, if_pos hi, if_pos hi]
    cases parseInt mem stop p <;> simp
  by_cases hd : IsDigit (mem p)
  · rw [beSkip, if_neg hp, if_neg hp, if_neg hi, if_neg hi, if_pos hd, if_pos hd]
    cases parseStr mem stop p <;> simp
  by_cases hl : mem p = letterL
  · rw [if_neg hp, if_neg hi, if_neg hd, if_pos hl]
    cases beSkip mem stop (beMaxDepth + 1) p <;> simp
  by_cases hc : mem p = letterD
  · rw [if_neg hp, if_neg hi, if_neg hd, if_neg hl, if_pos hc]
    cases beSkip mem stop (beMaxDepth + 1) p <;> simp
  · rw [beSkip, if_neg hp, if_neg hp, if_neg hi, if_neg hi, if_neg hd, if_neg hd, if_neg hl,
      if_neg hl, if_neg hc, if_neg hc]
    simp

theorem beDecode_accepts_iff (mem : Memory) (stop p n : Nat) (out : BeNode) :
    ((beDecode mem stop p out).ret = true ∧ (beDecode mem stop p out).p = p + n) ↔
      (p + n ≤ stop ∧ Counted beMaxDepth (slice mem p n)) := by
  have hskip := beDecode_eq_beSkip mem stop p out
  constructor
  · rintro ⟨hret, hcur⟩
    cases hs : beSkip mem stop (beMaxDepth + 1) p with
    | none => simp [hs, hret] at hskip
    | some q =>
      simp only [hs] at hskip
      have hq : q = p + n := hskip.2.1.symm.trans hcur
      obtain ⟨_, hle, hv⟩ := beSkip_sound beMaxDepth p hs
      have hn : q - p = n := by omega
      exact ⟨hq ▸ hle, hn ▸ hv⟩
  · rintro ⟨hin, hv⟩
    have hs := beSkip_complete hv p (holds_slice mem p n) (by simpa using hin)
    rw [slice_length] at hs
    simp only [hs] at hskip
    exact ⟨hskip.1, hskip.2.1⟩

theorem beDecode_rawLen {mem : Memory} {stop p : Nat} {out : BeNode}
    (h : (beDecode mem stop p out).ret = true) :
    (beDecode mem stop p out).p = p + (beDecode mem stop p out).out.rawLen := by
  have hskip := beDecode_eq_beSkip mem stop p out
  cases hs : beSkip mem stop (beMaxDepth + 1) p with
  | none => simp [hs, h] at hskip
  | some q =>
    simp only [hs] at hskip
    obtain ⟨hpq, _, _⟩ := beSkip_sound beMaxDepth p hs
    rw [hskip.2.1, hskip.2.2]
    omega

/-- Acceptance is the grammar, the length is unique and is `raw_len`, bytes from
`stop` on play no part, and a failed call leaves the cursor alone. -/
structure Exact (mem : Memory) (stop p : Nat) (out : BeNode) : Prop where
  accepts : ∀ n, ((beDecode mem stop p out).ret = true ∧ (beDecode mem stop p out).p = p + n) ↔
    (p + n ≤ stop ∧ Value beMaxDepth (slice mem p n))
  unique : ∀ m n, p + m ≤ stop → p + n ≤ stop → Value beMaxDepth (slice mem p m) →
    Value beMaxDepth (slice mem p n) → m = n
  rawLen : (beDecode mem stop p out).ret = true →
    (beDecode mem stop p out).p = p + (beDecode mem stop p out).out.rawLen
  inside : ∀ mem' : Memory, (∀ i, i < stop → mem i = mem' i) →
    beDecode mem' stop p out = beDecode mem stop p out
  unmoved : (beDecode mem stop p out).ret = false → (beDecode mem stop p out).p = p

theorem beDecode_unmoved {mem : Memory} {stop p : Nat} {out : BeNode}
    (h : (beDecode mem stop p out).ret = false) : (beDecode mem stop p out).p = p := by
  have hskip := beDecode_eq_beSkip mem stop p out
  cases hs : beSkip mem stop (beMaxDepth + 1) p with
  | none =>
    simp only [hs] at hskip
    exact hskip.2
  | some q => simp [hs, h] at hskip

/-- The decoder is exact unless some integer of the value has its digits counted as none. -/
theorem beDecode_exact_iff (mem : Memory) (stop p : Nat) (out : BeNode) :
    Exact mem stop p out ↔ ∀ n, p + n ≤ stop → Value beMaxDepth (slice mem p n) →
      Counted beMaxDepth (slice mem p n) := by
  have haccepts := fun n => beDecode_accepts_iff mem stop p n out
  constructor
  · intro h n hn hv
    exact ((haccepts n).mp ((h.accepts n).mpr ⟨hn, hv⟩)).2
  · intro hcounted
    refine ⟨fun n => (haccepts n).trans ?_, ?_, beDecode_rawLen, ?_, beDecode_unmoved⟩
    · exact and_congr_right fun hn => ⟨Counted.value, hcounted n hn⟩
    · intro m n hm hn vm vn
      have h1 := (haccepts m).mpr ⟨hm, hcounted m hm vm⟩
      have h2 := (haccepts n).mpr ⟨hn, hcounted n hn vn⟩
      have := h1.2.symm.trans h2.2
      omega
    · intro mem' same
      exact (beDecode_frame same p out).symm

/-- `i`, then `n` zeros, then `e`. -/
def zeros (n : Nat) : Memory := fun i => if i = 0 then letterI else if i ≤ n then 48 else letterE

theorem slice_const {mem : Memory} {c : UInt8} {p n : Nat}
    (h : ∀ i, p ≤ i → i < p + n → mem i = c) : slice mem p n = List.replicate n c := by
  induction n generalizing p with
  | zero => rfl
  | succ n ih =>
    rw [slice, List.replicate_succ, h p (Nat.le_refl p) (by omega),
      ih fun i hi hn => h i (by omega) (by omega)]

theorem slice_zeros {n : Nat} (hn : 0 < n) :
    slice (zeros n) 0 (n + 2) = letterI :: (List.replicate n 48 ++ [letterE]) := by
  have hbody : slice (zeros n) 1 n = List.replicate n 48 := by
    refine slice_const fun i hi hin => ?_
    simp only [zeros]
    rw [if_neg (by omega), if_pos (by omega)]
  have hlast : slice (zeros n) (1 + n) 1 = [letterE] := by
    simp only [slice, zeros]
    rw [if_neg (by omega), if_neg (by omega)]
  have hlen : n + 2 = 1 + (n + 1) := by omega
  rw [hlen, slice_add, slice_add, hbody, hlast]
  rfl

theorem decimalFrom_zeros (n : Nat) : decimalFrom 0 (List.replicate n 48) = 0 := by
  induction n with
  | zero => rfl
  | succ n ih => exact ih

/-- The zeros are a value of the grammar, and one that is not counted. -/
theorem zeros_uncounted {n : Nat} (hn : 0 < n) (hwrap : n % 2 ^ 32 = 0) :
    Value beMaxDepth (slice (zeros n) 0 (n + 2)) ∧
      ¬ Counted beMaxDepth (slice (zeros n) 0 (n + 2)) := by
  rw [slice_zeros hn]
  constructor
  · refine .int ⟨[], List.replicate n 48, Or.inl rfl, ?_, ?_, ?_, rfl⟩
    · exact List.ne_nil_of_length_pos (by rwa [List.length_replicate])
    · intro c hc
      rw [List.eq_of_mem_replicate hc]
      decide
    · rw [decimalFrom_zeros]
      exact Nat.zero_le _
  · intro hcounted
    generalize hl : letterI :: (List.replicate n 48 ++ [letterE]) = l at hcounted
    cases hcounted with
    | int text =>
      obtain ⟨sign, ds, hsign, hcount, _, _, rfl⟩ := text
      have htail := (List.cons.inj hl).2
      rcases hsign with rfl | rfl
      · have hds : List.replicate n 48 = ds := List.append_cancel_right htail
        rw [← hds, List.length_replicate] at hcount
        exact hcount hwrap
      · obtain ⟨m, rfl⟩ := Nat.exists_eq_succ_of_ne_zero (Nat.pos_iff_ne_zero.mp hn)
        exact absurd (List.cons.inj htail).1 (by decide)
    | str text =>
      obtain ⟨c, rest, heq, hc⟩ := text.head
      rw [← (List.cons.inj (hl.trans heq)).1] at hc
      exact absurd hc (by decide)
    | list items => exact absurd (List.cons.inj hl).1 (by decide)
    | dict pairs => exact absurd (List.cons.inj hl).1 (by decide)

/-- Of so many zeros nothing is read. -/
theorem zeros_refused : ¬ Exact (zeros (2 ^ 32)) (2 ^ 32 + 2) 0 BeNode.blank := by
  obtain ⟨hvalue, hcounted⟩ := zeros_uncounted (n := 2 ^ 32) (by decide) (by decide)
  intro h
  have hread := (h.accepts (2 ^ 32 + 2)).mpr ⟨by decide, hvalue⟩
  exact hcounted ((beDecode_accepts_iff _ _ _ _ _).mp hread).2

/-- The value ends by `stop`, and so do the bytes of a string. -/
def BeNode.Inside (node : BeNode) (stop : Nat) : Prop :=
  node.buf + node.rawLen ≤ stop ∧ (node.type = .str → node.sval + node.slen ≤ stop)

/-- A decoded node starts at the cursor, and a string node is what `parse_str` read. -/
theorem beDecode_out {mem : Memory} {stop p : Nat} {out : BeNode}
    (h : (beDecode mem stop p out).ret = true) :
    (beDecode mem stop p out).out.buf = p ∧
      ((beDecode mem stop p out).out.type = .str → ∃ q, parseStr mem stop p =
        some ((beDecode mem stop p out).out.sval, (beDecode mem stop p out).out.slen, q)) := by
  rw [beDecode] at h ⊢
  by_cases hp : p ≥ stop
  · simp [hp] at h
  rw [if_neg hp] at h ⊢
  by_cases hi : mem p = letterI
  · rw [if_pos hi] at h ⊢
    cases hv : parseInt mem stop p <;> simp
  rw [if_neg hi] at h ⊢
  by_cases hd : IsDigit (mem p)
  · rw [if_pos hd] at h ⊢
    cases hv : parseStr mem stop p with
    | none => simp [hv] at h
    | some r => exact ⟨rfl, fun _ => ⟨r.2.2, rfl⟩⟩
  rw [if_neg hd] at h ⊢
  by_cases hl : mem p = letterL
  · rw [if_pos hl] at h ⊢
    cases hv : beSkip mem stop (beMaxDepth + 1) p <;> simp
  rw [if_neg hl] at h ⊢
  by_cases hc : mem p = letterD
  · rw [if_pos hc] at h ⊢
    cases hv : beSkip mem stop (beMaxDepth + 1) p <;> simp
  · rw [if_neg hc] at h
    cases h

theorem beDecode_inside {mem : Memory} {stop p : Nat} {out : BeNode}
    (h : (beDecode mem stop p out).ret = true) : (beDecode mem stop p out).out.Inside stop := by
  have hraw := beDecode_rawLen h
  have hin := ((beDecode_accepts_iff mem stop p _ out).mp ⟨h, hraw⟩).1
  obtain ⟨hbuf, hstr⟩ := beDecode_out h
  refine ⟨hbuf.symm ▸ hin, ?_⟩
  intro ht
  obtain ⟨q, hq⟩ := hstr ht
  obtain ⟨_, hle, _, hk, _⟩ := parseStr_sound hq
  omega

theorem beDictGet_inside {mem : Memory} {dictStart dictEnd : Nat} {key : List UInt8}
    {v : BeNode} (h : beDictGet mem dictStart dictEnd key = some v) : v.Inside dictEnd := by
  have loop : ∀ fuel p, dictGetLoop mem dictEnd key fuel p = some v → v.Inside dictEnd := by
    intro fuel
    induction fuel with
    | zero => intro p h; cases h
    | succ fuel ih =>
      intro p h
      rw [dictGetLoop, beDictNext] at h
      by_cases hp : p ≥ dictEnd ∨ mem p = letterE
      · simp [hp] at h
      rw [if_neg hp] at h
      cases hk : parseStr mem dictEnd p with
      | none => simp [hk] at h
      | some r =>
        obtain ⟨k, len, q⟩ := r
        simp only [hk] at h
        cases hret : (beDecode mem dictEnd q BeNode.blank).ret with
        | false => simp [hret] at h
        | true =>
          simp only [hret] at h
          split at h
          · obtain rfl := Option.some.inj h
            exact beDecode_inside hret
          · exact ih _ h
  rw [beDictGet] at h
  by_cases hs : dictStart ≥ dictEnd ∨ mem dictStart ≠ letterD
  · rw [if_pos hs] at h
    cases h
  · rw [if_neg hs] at h
    exact loop _ _ h

end Bencode
