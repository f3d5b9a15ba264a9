import Pipensx.JsonParser

/-!
# Whether the parser comes to an end

The calls of `json_parse` are laid out as one walk over the text: a stack holds the loops that
are open, each with the members it has. Every move of the walk looks at the cursor only. The
parser returns if and only if the walk meets none of a few obstacles, of which one is in the
loop over an array: a minus sign that `strtod` makes nothing of is an item that takes no byte.
-/

namespace MovieCatalog

open CText (minus isDigit strtod)

variable {δ : Type}

/-- Before a value, at the head of the innermost loop, or behind a value in that loop. -/
inductive Spot where
  | value (p : List UInt8)
  | loop (p : List UInt8)
  | behind (p : List UInt8)

inductive Reaches (convert : List UInt8 → δ) (input : List UInt8) :
    Spot → List (Container × Nat) → Prop where
  | start : Reaches convert input (.value input) []
  | enter {p S k q} : Reaches convert input (.value p) S → skipWs p = Container.openByte k :: q →
      Reaches convert input (.loop (skipWs q)) ((k, 0) :: S)
  | leaf {p f S v r} : Reaches convert input (.value p) (f :: S) →
      (∀ k q, skipWs p ≠ Container.openByte k :: q) → leaf convert (skipWs p) = .ok v r →
      Reaches convert input (.behind r) (f :: S)
  | member {k n S c p key q} : Reaches convert input (.loop (c :: p)) ((k, n) :: S) → c ≠ 0 →
      c ≠ Container.closeByte k → memberHeader k (c :: p) = .ok key q →
      Reaches convert input (.value q) ((k, n) :: S)
  | ended {g f S p} : Reaches convert input (.loop (0 :: p)) (g :: f :: S) →
      Reaches convert input (.behind (0 :: p)) (f :: S)
  | close {k n f S p} : Reaches convert input (.loop (Container.closeByte k :: p))
      ((k, n) :: f :: S) → Reaches convert input (.behind p) (f :: S)
  | next {k n S r s} : Reaches convert input (.behind r) ((k, n) :: S) → n + 1 ≤ intMax →
      separator r = .ok () s → Reaches convert input (.loop s) ((k, n + 1) :: S)

/-- Where the walk goes wrong. `past`, `pastLoop`, `pastHeader` and `pastBehind` are reads
behind the terminator, `full` is a count that leaves the range of `int`. -/
inductive Obstacle : Spot → List (Container × Nat) → Prop where
  | stalled {n S r} : strtod (minus :: r) = minus :: r →
    Obstacle (.loop (minus :: r)) ((.array, n) :: S)
  | past {p S} : parseJsonString (skipWs p) = .overrun → Obstacle (.value p) S
  | pastLoop {S} : Obstacle (.loop []) S
  | pastHeader {k n S p} : memberHeader k p = .overrun → Obstacle (.loop p) ((k, n) :: S)
  | full {k n S r} : intMax ≤ n → Obstacle (.behind r) ((k, n) :: S)
  | pastBehind {f S r} : separator r = .overrun → Obstacle (.behind r) (f :: S)

def Returned (x : Result (JsonValue δ)) : Prop := x ≠ .overrun ∧ x ≠ .overflow

def Returns (convert : List UInt8 → δ) (p : List UInt8) : Prop :=
  ∃ x, Parses convert p x ∧ Returned x

/-- A result handed to the loops that are open leads to a return. -/
inductive Goes (convert : List UInt8 → δ) :
    List (Container × Nat) → Result (JsonValue δ) → Prop where
  | bottom {x} : Returned x → Goes convert [] x
  | null {f S e} : Goes convert (f :: S) (.null e)
  | value {k S v r s acc member x} : List.length acc + 1 ≤ intMax → separator r = .ok () s →
      Loops convert k s (acc ++ [member]) x → Goes convert S x →
      Goes convert ((k, acc.length) :: S) (.ok v r)

inductive Survives (convert : List UInt8 → δ) : Spot → List (Container × Nat) → Prop where
  | value {p S x} : Parses convert p x → Goes convert S x → Survives convert (.value p) S
  | loop {k p S acc x} : Loops convert k p acc x → Goes convert S x →
      Survives convert (.loop p) ((k, acc.length) :: S)
  | behind {v r S} : Goes convert S (.ok v r) → Survives convert (.behind r) S

section Walk

variable {convert : List UInt8 → δ} {input p q r s key : List UInt8} {c : UInt8}
  {k : Container} {n : Nat}
  {S : List (Container × Nat)} {acc : List (List UInt8 × JsonValue δ)} {v : JsonValue δ}
  {x : Result (JsonValue δ)}

theorem measureLoop_ne_overflow (p : List UInt8) (len : Nat) : measureLoop p len ≠ .overflow := by
  induction p, len using measureLoop.induct with
  | case1 len => exact nofun
  | case2 p len =>
    rw [measureLoop.eq_def]
    exact nofun
  | case3 p len hzero =>
    rw [measureLoop.eq_def]
    exact nofun
  | case4 len hzero hquote =>
    rw [measureLoop, if_neg hzero, if_neg hquote, if_pos rfl]
    exact nofun
  | case5 len e q hzero hquote ih =>
    rw [measureLoop, if_neg hzero, if_neg hquote, if_pos rfl]
    exact ih
  | case6 c p len hzero hquote hc ih =>
    rw [measureLoop.eq_def]
    simp only
    rw [if_neg hzero, if_neg hquote, if_neg hc]
    exact ih

theorem copyLoop_ne_overflow (p : List UInt8) (n : Nat) (out : List UInt8) :
    copyLoop p n out ≠ .overflow := by
  induction p, n, out using copyLoop.induct with
  | case1 out => simp [copyLoop]
  | case2 n out hn =>
    rw [copyLoop, if_neg hn]
    simp
  | case3 c p out =>
    rw [copyLoop.eq_def]
    simp
  | case4 c n out hn hc =>
    rw [copyLoop, if_neg hn, if_pos hc]
    simp
  | case5 c n out hn e r hc ih =>
    rw [copyLoop, if_neg hn, if_pos hc]
    exact ih
  | case6 c p n out hn hc ih =>
    rw [copyLoop.eq_def]
    simp only
    rw [if_neg hn, if_neg hc]
    exact ih

theorem parseJsonString_ne_overflow (p : List UInt8) : parseJsonString p ≠ .overflow := by
  cases p with
  | nil => simp [parseJsonString]
  | cons c p =>
    rw [parseJsonString]
    split
    · have hmeasure := measureLoop_ne_overflow p 0
      generalize measureLoop p 0 = z at hmeasure
      cases z with
      | ok len q =>
        have hcopy := copyLoop_ne_overflow p len []
        simp only
        generalize copyLoop p len [] = z at hcopy
        cases z with
        | ok out q => simp
        | null e => simp
        | overrun => simp
        | overflow => exact absurd rfl hcopy
      | null e => simp
      | overrun => simp
      | overflow => exact absurd rfl hmeasure
    · simp

theorem memberHeader_ne_overflow (k : Container) (p : List UInt8) :
    memberHeader k p ≠ .overflow := by
  cases k with
  | array => simp [memberHeader]
  | object =>
    have hstring := parseJsonString_ne_overflow p
    rw [memberHeader]
    generalize parseJsonString p = z at hstring
    cases z with
    | ok str q =>
      simp only
      split
      · simp
      · split
        · simp
        · simp
    | null e => simp
    | overrun => simp
    | overflow => exact absurd rfl hstring

theorem separator_cases (p : List UInt8) :
    separator p = .overrun ∨ ∃ s, separator p = .ok () s := by
  rw [separator]
  split
  · exact Or.inl rfl
  · exact Or.inr ⟨_, rfl⟩

theorem leaf_returned (clear : parseJsonString p ≠ .overrun) : Returned (leaf convert p) := by
  cases p with
  | nil => exact absurd rfl clear
  | cons c p =>
    have hoverflow := parseJsonString_ne_overflow (c :: p)
    rw [leaf, Returned]
    split_ifs
    · simp
    · generalize parseJsonString (c :: p) = z at clear hoverflow
      cases z with
      | ok str q => simp
      | null e => simp
      | overrun => exact absurd rfl clear
      | overflow => exact absurd rfl hoverflow
    all_goals simp

theorem loops_noHeader (hzero : c ≠ 0) (hclose : c ≠ k.closeByte) {e : Option (List UInt8)}
    (hheader : memberHeader k (c :: p) = .null e) : Loops convert k (c :: p) acc (.null none) :=
  loops_null hzero hclose (e := none) ⟨0, by rw [jsonMember, hheader]; rfl⟩

theorem loops_noValue (hzero : c ≠ 0) (hclose : c ≠ k.closeByte)
    (hheader : memberHeader k (c :: p) = .ok key q)
    {e : Option (List UInt8)} (hvalue : Parses convert q (.null e)) :
    Loops convert k (c :: p) acc (.null none) := by
  obtain ⟨fuel, hvalue⟩ := hvalue
  refine loops_null hzero hclose (e := none) ⟨fuel, ?_⟩
  rw [jsonMember, hheader]
  simp only [andThen]
  rw [hvalue]

/-- How the body of a loop goes on behind a header. -/
theorem loops_header_cases (hzero : c ≠ 0) (hclose : c ≠ k.closeByte)
    (hheader : memberHeader k (c :: p) = .ok key q) (hloop : Loops convert k (c :: p) acc x) :
    ∃ y, Parses convert q y ∧
      ((∃ v r s, y = .ok v r ∧ acc.length + 1 ≤ intMax ∧ separator r = .ok () s ∧
      Loops convert k s (acc ++ [(key, v)]) x) ∨ (∃ e, y = .null e) ∨ x = .overrun ∨
        x = .overflow) := by
  obtain ⟨z, ⟨fuel, hturn⟩, hrest⟩ := (loops_iff hzero hclose).mp hloop
  have hlost : z = .overrun ∨ z = .overflow → x = .overrun ∨ x = .overflow := by
    rintro (rfl | rfl)
    · rcases hrest with ⟨_, _, heq, _⟩ | ⟨⟨_, heq⟩, _⟩ | ⟨_, hx⟩ | ⟨heq, _⟩
      · cases heq
      · cases heq
      · exact Or.inl hx
      · cases heq
    · rcases hrest with ⟨_, _, heq, _⟩ | ⟨⟨_, heq⟩, _⟩ | ⟨heq, _⟩ | ⟨_, hx⟩
      · cases heq
      · cases heq
      · cases heq
      · exact Or.inr hx
  rw [jsonMember, hheader] at hturn
  simp only [andThen] at hturn
  rcases andThen_some.mp hturn with ⟨v, r, hvalue, hbehind⟩ | ⟨⟨e, hvalue⟩, _⟩ | ⟨hvalue,
    hz⟩ | ⟨hvalue, hz⟩
  · refine ⟨_, ⟨fuel, hvalue⟩, ?_⟩
    split at hbehind
    · cases hbehind
      exact Or.inr (Or.inr (hlost (Or.inr rfl)))
    · next hroom =>
      rcases separator_cases r with hsep | ⟨s, hsep⟩
      · rw [hsep] at hbehind
        cases hbehind
        exact Or.inr (Or.inr (hlost (Or.inl rfl)))
      · rw [hsep] at hbehind
        cases hbehind
        rcases hrest with ⟨member, s', heq, hloop⟩ | ⟨⟨_, heq⟩, _⟩ | ⟨heq, _⟩ | ⟨heq, _⟩
        · cases heq
          exact Or.inl ⟨v, r, s, rfl, Nat.le_of_not_lt hroom, hsep, hloop⟩
        all_goals cases heq
  · exact ⟨_, ⟨fuel, hvalue⟩, Or.inr (Or.inl ⟨e, rfl⟩)⟩
  · exact ⟨_, ⟨fuel, hvalue⟩, Or.inr (Or.inr (hlost (Or.inl hz)))⟩
  · exact ⟨_, ⟨fuel, hvalue⟩, Or.inr (Or.inr (hlost (Or.inr hz)))⟩

theorem loops_headerPast (hzero : c ≠ 0) (hclose : c ≠ k.closeByte)
    (hheader : memberHeader k (c :: p) = .overrun) : Loops convert k (c :: p) acc .overrun :=
  (loops_iff hzero hclose).mpr ⟨_, ⟨0, by rw [jsonMember, hheader]; rfl⟩,
    Or.inr (Or.inr (Or.inl ⟨rfl, rfl⟩))⟩

/-- A value takes at least one byte, a minus sign that is no number apart. -/
theorem Parses.shorter (hparse : Parses convert p (.ok v r)) :
    r.length < p.length ∨ ∃ t, p = minus :: t ∧ strtod (minus :: t) = minus :: t := by
  have hsuffix := hparse.suffix
  have hskip := skipWs_suffix p
  by_cases hsame : skipWs p = p
  · rcases opens_or_leaf p with ⟨k, q, hopen⟩ | hleaf
    · have hloop := (parses_open_iff hopen).mp hparse
      have hbody := hloop.suffix.length_le
      have hq := (skipWs_suffix q).length_le
      rw [← hsame, hopen, List.length_cons]
      exact Or.inl (by omega)
    · have heq := hparse.unique (parses_leaf convert hleaf)
      rw [hsame] at heq
      cases p with
      | nil => cases heq
      | cons c p =>
        rw [leaf] at heq
        split_ifs at heq with _ _ _ _ _ hnumber
        · split at heq
          · next hstring =>
            obtain ⟨d, t, hdt, hlen⟩ := parseJsonString_suffix hstring
            cases heq
            have hshort := hlen.length_le
            rw [hdt, List.length_drop, List.length_cons]
            exact Or.inl (by omega)
          all_goals cases heq
        · cases heq
          exact Or.inl (by rw [List.length_drop, List.length_cons]; omega)
        · cases heq
          exact Or.inl (by rw [List.length_drop, List.length_cons]; omega)
        · cases heq
          exact Or.inl (by rw [List.length_drop, List.length_cons]; omega)
        · cases heq
          rcases (CText.strtod_progress (c :: p)).2 with hstuck | hshort
          · rcases hnumber with rfl | hdigit
            · exact Or.inr ⟨p, rfl, hstuck⟩
            · exact absurd hstuck (CText.strtod_digit hdigit p)
          · exact Or.inl hshort
  · have hlt : (skipWs p).length < p.length :=
      lt_of_le_of_ne hskip.length_le fun h => hsame (hskip.eq_of_length h)
    exact Or.inl (lt_of_le_of_lt hsuffix.length_le hlt)

theorem memberHeader_object_shorter (hheader : memberHeader .object p = .ok key q) :
    q.length < p.length := by
  rw [memberHeader] at hheader
  split at hheader
  · next str keyEnd hstring =>
    obtain ⟨c, r, rfl, hkey⟩ := parseJsonString_suffix hstring
    have hcolon := (skipWs_suffix keyEnd).length_le
    have hlen := hkey.length_le
    split at hheader
    · cases hheader
    · next d t hskip =>
      rw [hskip, List.length_cons] at hcolon
      split at hheader
      · cases hheader
        have htail := (skipWs_suffix t).length_le
        rw [List.length_cons]
        omega
      · cases hheader
  · next hfailed => exact absurd hheader (hfailed key q)

/-- A turn moves the cursor unless the member is such a minus sign in an array. -/
theorem Turn.shorter {member : List UInt8 × JsonValue δ} {count : Nat}
    (hturn : Turn convert k count p (.ok member s)) :
    s.length < p.length ∨ k = .array ∧ ∃ t, p = minus :: t ∧ strtod (minus :: t) = minus :: t := by
  obtain ⟨q, r, hheader, hvalue, _, hsep⟩ := turn_ok_iff.mp hturn
  have hlen := (separator_suffix hsep).length_le
  cases k with
  | array =>
    have hq : p = q := (Result.ok.inj hheader).2
    subst hq
    rcases hvalue.shorter with hshort | hstuck
    · exact Or.inl (by omega)
    · exact Or.inr ⟨rfl, hstuck⟩
  | object =>
    have hkey := memberHeader_object_shorter hheader
    have hbehind := (hvalue.suffix.trans (skipWs_suffix q)).length_le
    exact Or.inl (by omega)

theorem Goes.returned (goes : Goes convert S x) : Returned x := by
  cases goes with
  | bottom hx => exact hx
  | null => exact ⟨nofun, nofun⟩
  | value => exact ⟨nofun, nofun⟩

theorem reaches_survives (returns : Returns convert input) {spot : Spot}
    (hreach : Reaches convert input spot S) : Survives convert spot S := by
  induction hreach with
  | start =>
    obtain ⟨x, hparse, hx⟩ := returns
    exact .value hparse (.bottom hx)
  | enter _ hopen ih =>
    cases ih with
    | value hparse goes =>
      have hloop := (parses_open_iff hopen).mp hparse
      have hentered := Survives.loop hloop goes
      exact hentered
  | leaf _ hleaf hvalue ih =>
    cases ih with
    | value hparse goes =>
      rw [hparse.unique (parses_leaf convert hleaf), hvalue] at goes
      exact .behind goes
  | member _ hzero hclose hheader ih =>
    cases ih with
    | loop hloop goes =>
      obtain ⟨y, hparse, hrest⟩ := loops_header_cases hzero hclose hheader hloop
      refine .value hparse ?_
      rcases hrest with ⟨v, r, s, rfl, hroom, hsep, hloop⟩ | ⟨e, rfl⟩ | hx | hx
      · exact .value hroom hsep hloop goes
      · exact .null
      · exact absurd hx goes.returned.1
      · exact absurd hx goes.returned.2
  | ended _ ih =>
    cases ih with
    | loop hloop goes =>
      rw [hloop.unique loops_end] at goes
      exact .behind goes
  | close _ ih =>
    cases ih with
    | loop hloop goes =>
      rw [hloop.unique loops_close] at goes
      exact .behind goes
  | next _ _ hsep ih =>
    cases ih with
    | behind goes =>
      cases goes with
      | value hroom hsep' hloop goes =>
        rw [hsep] at hsep'
        cases hsep'
        have hnext := Survives.loop hloop goes
        rwa [List.length_append, List.length_singleton] at hnext

/-- The loop appends the same item until the count is full. -/
theorem stalled_not_returned (hstuck : strtod (minus :: p) = minus :: p)
    (hloop : Loops convert .array (minus :: p) acc x) : ¬ Returned x := by
  have hparse : Parses convert (minus :: p) (.ok (.number (parseJsonNumber convert (minus :: p)).1)
    (minus :: p)) := by
    have hleaf : ∀ k q, skipWs (minus :: p) ≠ Container.openByte k :: q := by
      intro k q hkq
      have hskip : skipWs (minus :: p) = minus :: p := rfl
      rw [hskip] at hkq
      cases k <;> exact absurd (List.cons.inj hkq).1 (by decide)
    have hparse := parses_leaf convert hleaf
    have hvalue : leaf convert (skipWs (minus :: p)) =
        .ok (.number (parseJsonNumber convert (minus :: p)).1) (strtod (minus :: p)) := rfl
    rwa [hvalue, hstuck] at hparse
  have hsep : separator (minus :: p) = .ok () (minus :: p) := rfl
  generalize hleft : intMax - acc.length = left
  induction left generalizing acc with
  | zero =>
    obtain ⟨y, hy, hrest⟩ := loops_header_cases (by decide) (by decide) (by rfl) hloop
    cases hy.unique hparse
    rcases hrest with ⟨_, _, _, _, hroom, _⟩ | ⟨_, heq⟩ | hx | hx
    · omega
    · cases heq
    · exact fun hreturned => hreturned.1 hx
    · exact fun hreturned => hreturned.2 hx
  | succ left ih =>
    have hturn : Turn convert .array acc.length (minus :: p) (.ok ([], _) (minus :: p)) :=
      turn_ok_iff.mpr ⟨minus :: p, minus :: p, rfl, hparse, by omega, hsep⟩
    have hagain := (loops_turn_iff (by decide) (by decide) hturn).mp hloop
    exact ih hagain (by rw [List.length_append, List.length_singleton]; omega)

theorem string_past (hpast : parseJsonString (skipWs p) = .overrun) :
    Parses convert p .overrun := by
  have hleaf : (∀ k q, skipWs p ≠ Container.openByte k :: q) ∧
    leaf convert (skipWs p) = .overrun := by
    cases hskip : skipWs p with
    | nil => exact ⟨nofun, rfl⟩
    | cons c r =>
      rw [hskip] at hpast
      have hquote : c = quote := by
        by_contra hne
        rw [parseJsonString, if_neg hne] at hpast
        cases hpast
      subst hquote
      refine ⟨fun k q hkq => ?_, ?_⟩
      · cases k <;> exact absurd (List.cons.inj hkq).1 (by decide)
      · rw [leaf, if_neg (by decide), if_pos rfl, hpast]
  have hparse := parses_leaf convert hleaf.1
  rwa [hleaf.2] at hparse

theorem survives_clear {spot : Spot} (survives : Survives convert spot S) : ¬ Obstacle spot S := by
  intro obstacle
  cases obstacle with
  | stalled hstuck =>
    cases survives with
    | loop hloop goes => exact stalled_not_returned hstuck hloop goes.returned
  | past hpast =>
    cases survives with
    | value hparse goes => exact goes.returned.1 (hparse.unique (string_past hpast))
  | pastLoop =>
    cases survives with
    | loop hloop goes => exact goes.returned.1 (hloop.unique loops_past)
  | pastHeader hheader =>
    cases survives with
    | loop hloop goes =>
      next k n p acc x =>
      have hpast : Loops convert k p acc .overrun := by
        cases k with
        | array => cases hheader
        | object =>
          cases p with
          | nil => exact loops_past
          | cons c p =>
            have hzero : c ≠ 0 := by
              rintro rfl
              cases hheader
            have hclose : c ≠ Container.closeByte .object := by
              rintro rfl
              cases hheader
            exact loops_headerPast hzero hclose hheader
      exact goes.returned.1 (hloop.unique hpast)
  | full hfull =>
    cases survives with
    | behind goes =>
      cases goes with
      | value hroom => omega
  | pastBehind hpast =>
    cases survives with
    | behind goes =>
      cases goes with
      | value hroom hsep =>
        rw [hpast] at hsep
        cases hsep

/-- A value comes back to the loop that asked for it. -/
def Handed (convert : List UInt8 → δ) (input : List UInt8) (S : List (Container × Nat))
    (x : Result (JsonValue δ)) : Prop :=
  Returned x ∧ ∀ v r, x = .ok v r → S ≠ [] → Reaches convert input (.behind r) S

theorem loop_handed (clear : ∀ spot S, Reaches convert input spot S → ¬ Obstacle spot S)
    {bound : Nat} (values : ∀ q S, q.length ≤ bound → Reaches convert input (.value q) S →
      ∃ x, Parses convert q x ∧ Handed convert input S x)
    (hlen : p.length ≤ bound) (hreach : Reaches convert input (.loop p) ((k, n) :: S))
    (hacc : acc.length = n) : ∃ x, Loops convert k p acc x ∧ Handed convert input S x := by
  induction hp : p.length using Nat.strong_induction_on generalizing p n acc with
  | h m ih =>
    cases p with
    | nil => exact absurd .pastLoop (clear _ _ hreach)
    | cons c p =>
      by_cases hzero : c = 0
      · subst hzero
        refine ⟨_, loops_end, ⟨nofun, nofun⟩, fun v r heq hS => ?_⟩
        cases heq
        obtain ⟨f, S, rfl⟩ := List.exists_cons_of_ne_nil hS
        exact .ended hreach
      by_cases hclose : c = k.closeByte
      · subst hclose
        refine ⟨_, loops_close, ⟨nofun, nofun⟩, fun v r heq hS => ?_⟩
        cases heq
        obtain ⟨f, S, rfl⟩ := List.exists_cons_of_ne_nil hS
        exact .close hreach
      have hnull : Handed convert input S (.null none) := ⟨⟨nofun, nofun⟩, nofun⟩
      cases hheader : memberHeader k (c :: p) with
      | null e => exact ⟨_, loops_noHeader hzero hclose hheader, hnull⟩
      | overrun => exact absurd (.pastHeader hheader) (clear _ _ hreach)
      | overflow => exact absurd hheader (memberHeader_ne_overflow k _)
      | ok key q =>
        have hvalue := Reaches.member hreach hzero hclose hheader
        obtain ⟨x, hparse, hreturned, hhanded⟩ :=
          values q _ ((memberHeader_suffix hheader).length_le.trans hlen) hvalue
        cases x with
        | null e => exact ⟨_, loops_noValue hzero hclose hheader hparse, hnull⟩
        | overrun => exact absurd rfl hreturned.1
        | overflow => exact absurd rfl hreturned.2
        | ok v r =>
          have hbehind := hhanded v r rfl (List.cons_ne_nil _ _)
          have hroom : n + 1 ≤ intMax := by
            by_contra hfull
            exact clear _ _ hbehind (.full (by omega))
          rcases separator_cases r with hsep | ⟨s, hsep⟩
          · exact absurd (.pastBehind hsep) (clear _ _ hbehind)
          have hturn : Turn convert k acc.length (c :: p) (.ok (key, v) s) :=
            turn_ok_iff.mpr ⟨q, r, hheader, hparse, by omega, hsep⟩
          have hshort : s.length < (c :: p).length := by
            rcases hturn.shorter with hshort | ⟨rfl, t, heq, hstuck⟩
            · exact hshort
            · rw [heq] at hreach
              exact absurd (.stalled hstuck) (clear _ _ hreach)
          have hcount : (acc ++ [(key, v)]).length = n + 1 := by
            rw [List.length_append, List.length_singleton, hacc]
          obtain ⟨x, hloop, hx⟩ := ih s.length (by omega) (by omega)
            (.next hbehind hroom hsep) hcount rfl
          exact ⟨x, (loops_turn_iff hzero hclose hturn).mpr hloop, hx⟩

theorem value_handed (clear : ∀ spot S, Reaches convert input spot S → ¬ Obstacle spot S)
    (hreach : Reaches convert input (.value p) S) : ∃ x, Parses convert p x ∧
    Handed convert input S x := by
  induction hp : p.length using Nat.strong_induction_on generalizing p S with
  | h m ih =>
    rcases opens_or_leaf p with ⟨k, q, hopen⟩ | hleaf
    · have hlen := (skipWs_suffix p).length_le
      have hbody := (skipWs_suffix q).length_le
      rw [hopen, List.length_cons] at hlen
      have hempty : ([] : List (List UInt8 × JsonValue δ)).length = 0 := rfl
      obtain ⟨x, hloop, hx⟩ := loop_handed clear
        (fun r S hr hreach => ih r.length (by omega) hreach rfl) (le_refl _)
        (.enter hreach hopen) hempty
      exact ⟨x, (parses_open_iff hopen).mpr hloop, hx⟩
    · refine ⟨_, parses_leaf convert hleaf, leaf_returned fun hpast =>
        clear _ _ hreach (.past hpast), ?_⟩
      intro v r heq hS
      obtain ⟨f, S, rfl⟩ := List.exists_cons_of_ne_nil hS
      exact .leaf hreach hleaf heq

/-- `json_parse` returns, and every turn of its loops moves the cursor, if and only if the walk
over the text meets no obstacle. -/
theorem jsonParse_returns_iff (convert : List UInt8 → δ) (text : List UInt8) :
    (Returns convert (text ++ [0]) ∧
      ∀ k n S p member s, Reaches convert (text ++ [0]) (.loop p) ((k, n) :: S) →
        Turn convert k n p (.ok member s) → s.length < p.length) ↔
      ∀ spot S, Reaches convert (text ++ [0]) spot S → ¬ Obstacle spot S := by
  constructor
  · rintro ⟨returns, _⟩ spot S hreach
    exact survives_clear (reaches_survives returns hreach)
  · intro clear
    refine ⟨?_, fun k n S p member s hreach hturn => ?_⟩
    · obtain ⟨x, hparse, hreturned, _⟩ := value_handed clear .start
      exact ⟨x, hparse, hreturned⟩
    · rcases hturn.shorter with hshort | ⟨rfl, t, rfl, hstuck⟩
      · exact hshort
      · exact absurd (.stalled hstuck) (clear _ _ hreach)

end Walk

/-- `[-]`: the array takes the minus sign as an item and stays where it is. -/
theorem bareMinus_stays :
    Reaches id [91, 45, 93, 0] (.loop [45, 93, 0]) [(.array, 0)] ∧
    Turn id .array 0 [45, 93, 0] (.ok ([], .number []) [45, 93, 0]) ∧
    ¬ Returns id [91, 45, 93, 0] := by
  have hreach : Reaches id [91, 45, 93, 0] (.loop [45, 93, 0]) [(.array, 0)] :=
    .enter (k := .array) (q := [45, 93, 0]) .start rfl
  refine ⟨hreach, ⟨1, rfl⟩, fun hreturns => ?_⟩
  exact survives_clear (reaches_survives hreturns hreach) (.stalled rfl)

end MovieCatalog
