import Pipensx.CatalogLoading
import Pipensx.CatalogSort
import Pipensx.JsonReading

/-!
# Ratings from the text to the order

A rating is a decimal between 0.0 and 10.0 with one place, counted in tenths here. The cast of
`json_get_int` drops the place before the scaling by ten puts one back.
-/

namespace MovieCatalog

open CText (CString ascii strtol)
open ShiftSort (Orders same)

variable {δ : Type}

/-- `catalog_search_by_min_rating`, with the index of the entry it points to. -/
def catalogSearchByMinRating (minRating : UInt32) (c : Catalog δ) : Option Nat :=
  c.entries.findIdx? fun e => e.rating ≥ minRating

/-- `d.e` for the tenths of a rating. -/
def ratingText (tenths : Nat) : List UInt8 :=
  ascii (Nat.toDigits 10 (tenths / 10)) ++ CText.point :: ascii (Nat.toDigits 10 (tenths % 10))

theorem strtol_ratingText : ∀ tenths, tenths ≤ 100 →
    strtol (CString.ofBytes (ratingText tenths)).memory = some (tenths / 10 : Nat) := by
  decide +kernel

/-- The double nearest to `d.e` is in front of the next whole number, and the cast to `int` drops
what is behind the point. -/
def Doubles.ReadsTenths (dbl : Doubles δ) : Prop :=
  ∀ tenths, tenths ≤ 100 → dbl.toInt (dbl.convert (ratingText tenths)) = (tenths / 10 : Nat)

/-- An entry with a rating, which is a number or a numeric string. -/
structure Rated (dbl : Doubles δ) (entry : JsonValue δ) (tenths : Nat) : Prop where
  range : tenths ≤ 100
  text : jsonGet entry (ascii "rating".toList) = some (.number (dbl.convert (ratingText tenths))) ∨
    jsonGet entry (ascii "rating".toList) = some (.string (ratingText tenths))

theorem scaled_rating : ∀ whole : Nat, whole ≤ 10 →
    longToInt whole = whole ∧ (UInt32.ofInt ((whole : Int) * 10)).toNat = whole * 10 := by
  decide

/-- Only the whole part is left, in tenths. -/
theorem Rated.rating {dbl : Doubles δ} (reads : dbl.ReadsTenths) {entry : JsonValue δ}
    {tenths : Nat}
    (h : Rated dbl entry tenths) : (readEntry dbl entry).rating.toNat = tenths / 10 * 10 := by
  have hrange := h.range
  obtain ⟨hcast, hscaled⟩ := scaled_rating (tenths / 10) (by omega)
  have hint : jsonGetInt dbl entry (ascii "rating".toList) 0 = (tenths / 10 : Nat) := by
    rw [jsonGetInt]
    rcases h.text with hget | hget
    · rw [hget]
      exact reads tenths h.range
    · rw [hget]
      simp only [strtol_ratingText tenths h.range]
      exact hcast
  have hfield : (readEntry dbl entry).rating =
      UInt32.ofInt (jsonGetInt dbl entry (ascii "rating".toList) 0 * 10) := rfl
  rw [hfield, hint]
  exact hscaled

section Order

variable [LinearOrder δ]

/-- The sorted entries, each with the rating it had in the text. -/
def ratedSort (c : Catalog δ) (tenths : List Nat) : List (MovieEntry δ × Nat) :=
  ShiftSort.sort (fun a b => shouldSwap .rating a.1 b.1) (c.entries.zip tenths)

theorem ratedSort_entries (c : Catalog δ) {tenths : List Nat} (h : tenths.length = c.count) :
    (ratedSort c tenths).map Prod.fst = (catalogSort .rating c).2.entries := by
  have hfst : (c.entries.zip tenths).map Prod.fst = c.entries := List.map_fst_zip (le_of_eq h.symm)
  rw [ratedSort, ShiftSort.sort_map Prod.fst, hfst, catalogSort]
  split
  · next hempty =>
    rw [List.eq_nil_of_length_eq_zero hempty]
    rfl
  · rfl

/-- The sorted catalog is in the order of the ratings in the text, and the search for a least
rating finds the first entry that has it in the text. -/
structure OrderSurvives (c : Catalog δ) (tenths : List Nat) : Prop where
  entries : (ratedSort c tenths).map Prod.fst = (catalogSort .rating c).2.entries
  order : (ratedSort c tenths).Pairwise fun a b => b.2 ≤ a.2
  search : ∀ minRating : UInt32, catalogSearchByMinRating minRating (catalogSort .rating c).2 =
    (ratedSort c tenths).findIdx? fun a => minRating.toNat ≤ a.2

/-- Ratings with the same whole part stand in order already, and the highest one is whole. -/
def RatingsCoarse (tenths : List Nat) : Prop :=
  tenths.Pairwise (fun a b => a / 10 = b / 10 → b ≤ a) ∧
    ∀ t ∈ tenths, (∀ u ∈ tenths, u ≤ t) → t % 10 = 0

theorem labelled_orders : Orders fun a b : MovieEntry δ × Nat => shouldSwap .rating a.1 b.1 :=
  ⟨fun a b => (shouldSwap_orders .rating).asymm a.1 b.1, fun a b c =>
    (shouldSwap_orders .rating).trans a.1 b.1 c.1⟩

section Labelled

variable {rated : List (MovieEntry δ × Nat)}
  (hrated : ∀ r ∈ rated, r.1.rating.toNat = r.2 / 10 * 10 ∧ r.2 ≤ 100)
include hrated

theorem swap_iff {a b : MovieEntry δ × Nat} (ha : a ∈ rated) (hb : b ∈ rated) :
    shouldSwap .rating a.1 b.1 = true ↔ a.2 / 10 < b.2 / 10 := by
  have hra := (hrated a ha).1
  have hrb := (hrated b hb).1
  simp only [shouldSwap, decide_eq_true_iff, UInt32.lt_iff_toNat_lt]
  omega

theorem order_iff : (ShiftSort.sort (fun a b => shouldSwap .rating a.1 b.1) rated).Pairwise
    (fun a b => b.2 ≤ a.2) ↔ rated.Pairwise fun a b => a.2 / 10 = b.2 / 10 → b.2 ≤ a.2 := by
  rw [ShiftSort.sort_refines_iff labelled_orders rated fun a ha b hb hswap => ?_]
  · refine List.Pairwise.iff_of_mem fun {a b} ha hb => ?_
    have hsame : same (fun a b : MovieEntry δ × Nat => shouldSwap .rating a.1 b.1) a b = true ↔
        a.2 / 10 = b.2 / 10 := by
      have hab := swap_iff hrated ha hb
      have hba := swap_iff hrated hb ha
      simp only [same, Bool.and_eq_true, Bool.not_eq_true', ← Bool.not_eq_true, hab, hba]
      omega
    rw [hsame]
  · have hlt := (swap_iff hrated hb ha).mp hswap
    omega

end Labelled

/-- Where a list descends, the first place that has a least value is the head or none. -/
theorem findIdx?_descending {α : Type} (key : α → Nat) (x : α) (xs : List α) (m : Nat)
    (descending : (x :: xs).Pairwise fun a b => key b ≤ key a) :
    (x :: xs).findIdx? (fun a => m ≤ key a) = if m ≤ key x then some 0 else none := by
  rw [List.findIdx?_cons]
  by_cases hm : m ≤ key x
  · simp [hm]
  · have hnone : xs.findIdx? (fun a => decide (m ≤ key a)) = none := by
      rw [List.findIdx?_eq_none_iff]
      intro y hy
      have hle := (List.pairwise_cons.mp descending).1 y hy
      simpa using by omega
    simp [hm, hnone]

omit [LinearOrder δ] in
/-- Where both are in order, the searches agree for every least value exactly if the highest rating
is whole. -/
theorem searches_agree_iff {sorted : List (MovieEntry δ × Nat)}
    (hrated : ∀ r ∈ sorted, r.1.rating.toNat = r.2 / 10 * 10 ∧ r.2 ≤ 100)
    (descending : sorted.Pairwise fun a b => b.2 ≤ a.2) :
    (∀ m : UInt32, sorted.findIdx? (fun a => m.toNat ≤ a.1.rating.toNat) = sorted.findIdx? fun a =>
      m.toNat ≤ a.2) ↔ ∀ a ∈ sorted, (∀ b ∈ sorted, b.2 ≤ a.2) → a.2 % 10 = 0 := by
  cases sorted with
  | nil => exact iff_of_true (fun _ => rfl) nofun
  | cons x xs =>
    obtain ⟨hrating, hrange⟩ := hrated x List.mem_cons_self
    have hread : (x :: xs).Pairwise fun a b => b.1.rating.toNat ≤ a.1.rating.toNat := by
      refine descending.imp_of_mem fun {a b} ha hb hab => ?_
      have hra := (hrated a ha).1
      have hrb := (hrated b hb).1
      omega
    have htop : ∀ b ∈ x :: xs, b.2 ≤ x.2 := by
      intro b hb
      rcases List.mem_cons.mp hb with rfl | hb
      · exact Nat.le_refl _
      · exact (List.pairwise_cons.mp descending).1 b hb
    simp only [findIdx?_descending (fun a => a.1.rating.toNat) x xs _ hread,
      findIdx?_descending (fun a => a.2) x xs _ descending]
    constructor
    · intro hsearch a ha hmax
      have hboth := hsearch (UInt32.ofNat x.2)
      have hm : (UInt32.ofNat x.2).toNat = x.2 :=
        UInt32.toNat_ofNat_of_lt' (lt_of_le_of_lt hrange (by decide))
      rw [hm, if_pos (Nat.le_refl _)] at hboth
      have hle : x.2 ≤ x.1.rating.toNat := by
        by_contra hnot
        rw [if_neg hnot] at hboth
        cases hboth
      have hxa := hmax x List.mem_cons_self
      have hax := htop a ha
      omega
    · intro hwhole m
      have hx := hwhole x List.mem_cons_self htop
      have hsame : x.1.rating.toNat = x.2 := by omega
      rw [hsame]

theorem orderSurvives_iff {c : Catalog δ} {rated : List (MovieEntry δ × Nat)}
    (hentries : c.entries = rated.map Prod.fst)
    (hrated : ∀ r ∈ rated, r.1.rating.toNat = r.2 / 10 * 10 ∧ r.2 ≤ 100) :
    OrderSurvives c (rated.map Prod.snd) ↔ RatingsCoarse (rated.map Prod.snd) := by
  have hlength : (rated.map Prod.snd).length = c.count := by
    rw [Catalog.count, hentries, List.length_map, List.length_map]
  have hfst := ratedSort_entries c hlength
  have hzip : c.entries.zip (rated.map Prod.snd) = rated :=
    (List.zip_of_prod hentries.symm rfl).symm
  have hsort : ratedSort c (rated.map Prod.snd) =
    ShiftSort.sort (fun a b => shouldSwap .rating a.1 b.1) rated := by
    rw [ratedSort, hzip]
  have horder := order_iff hrated
  have hmem : ∀ r, r ∈ ratedSort c (rated.map Prod.snd) ↔ r ∈ rated := by
    intro r
    rw [hsort]
    exact (ShiftSort.sort_spec (labelled_orders (δ := δ)) rated).1.mem_iff
  rw [← hsort] at horder
  have hsearch : ∀ m : UInt32, catalogSearchByMinRating m (catalogSort .rating c).2 =
      (ratedSort c (rated.map Prod.snd)).findIdx? fun a => m.toNat ≤ a.1.rating.toNat := by
    intro m
    rw [catalogSearchByMinRating, ← hfst, List.findIdx?_map]
    rfl
  have hrange : ∀ r ∈ ratedSort c (rated.map Prod.snd), r.1.rating.toNat =
    r.2 / 10 * 10 ∧ r.2 ≤ 100 :=
    fun r hr => hrated r ((hmem r).mp hr)
  have hagree := searches_agree_iff hrange
  rw [RatingsCoarse, List.pairwise_map, ← horder]
  constructor
  · intro h
    refine ⟨h.order, fun t ht hmax => ?_⟩
    obtain ⟨r, hr, rfl⟩ := List.mem_map.mp ht
    refine (hagree h.order).mp (fun m => (hsearch m).symm.trans (h.search m)) r ((hmem r).mpr hr)
      fun b hb => ?_
    exact hmax b.2 (List.mem_map_of_mem ((hmem b).mp hb))
  · rintro ⟨descending, hwhole⟩
    refine ⟨hfst, descending, fun m =>
      (hsearch m).trans ((hagree descending).mpr (fun a ha hmax => ?_) m)⟩
    refine hwhole a.2 (List.mem_map_of_mem ((hmem a).mp ha)) fun u hu => ?_
    obtain ⟨r, hr, rfl⟩ := List.mem_map.mp hu
    exact hmax r ((hmem r).mpr hr)

/-- The copy of the text and every growth find their memory. The capacity doubles for each entry,
and at the 53rd the bytes of the array are no longer a `size_t`. -/
structure Loadable (alloc : Allocations) (count : Nat) : Prop where
  raw : alloc.raw ≠ none
  grown : ∀ i, i < count → alloc.grown i = true
  room : count ≤ 52

omit [LinearOrder δ] in
theorem comesTo_new {grown : Nat → Bool} {raw : Option RawJson} {size count : Nat} :
    ComesTo grown (⟨[], 0, raw, size⟩ : Catalog δ) count ↔ (∀ i, i < count → grown i = true) ∧
    count ≤ 52 := by
  have hroom : ∀ i : Fin 52, entrySize * (0 + i + 1) ≤
    entrySize * grownCapacity^[i + 1] 0 % 2 ^ 64 := by
    decide +kernel
  have hlast : ¬ entrySize * (0 + 52 + 1) ≤ entrySize * grownCapacity^[52 + 1] 0 % 2 ^ 64 := by
    decide +kernel
  constructor
  · refine fun hcomes => ⟨fun i hi => (hcomes i hi).1, ?_⟩
    by_contra hmore
    exact hlast (hcomes 52 (Nat.lt_of_not_le hmore)).2
  · exact fun ⟨hserved, hcount⟩ i hi => ⟨hserved i hi, hroom ⟨i, Nat.lt_of_lt_of_le hi hcount⟩⟩

omit [LinearOrder δ] in
theorem load_returns_iff {dbl : Doubles δ} {items : List (JsonValue δ)} {endp : List UInt8}
    {jsonString : CString} {alloc : Allocations} :
    (∃ c, catalogLoadFromString dbl (.ok (.array items) endp) jsonString alloc catalogCreate =
      .returned true c) ↔ Loadable alloc items.length := by
  cases hraw : alloc.raw with
  | none =>
    simp only [catalogLoadFromString, hraw]
    constructor
    · rintro ⟨c, h⟩
      cases h
    · intro h
      exact absurd hraw h.raw
  | some address =>
    simp only [catalogLoadFromString, hraw, catalogCreate, loadEntries_returns_iff,
      Nat.zero_add, comesTo_new]
    constructor
    · intro h
      refine ⟨?_, h.1, h.2⟩
      rw [hraw]
      exact Option.some_ne_none address
    · intro h
      exact ⟨h.grown, h.room⟩

omit [LinearOrder δ] in
theorem load_entries {dbl : Doubles δ} {items : List (JsonValue δ)} {endp : List UInt8}
    {jsonString : CString} {alloc : Allocations} {c : Catalog δ}
    (loaded : catalogLoadFromString dbl (.ok (.array items) endp) jsonString alloc catalogCreate =
    .returned true c) : c.entries = items.map (readEntry dbl) := by
  rw [catalogLoadFromString] at loaded
  split at loaded
  · cases loaded
  · exact loadEntries_entries loaded

omit [LinearOrder δ] in
theorem Rated.object {dbl : Doubles δ} {entry : JsonValue δ} {tenths : Nat}
    (h : Rated dbl entry tenths) : ∃ members, entry = .object members := by
  have hsome : jsonGet entry (ascii "rating".toList) ≠ none := by
    rcases h.text with hget | hget
    all_goals
      rw [hget]
      exact nofun
  cases entry with
  | object members => exact ⟨members, rfl⟩
  | _ => exact absurd rfl hsome

/-- The text is read as the array of the rated entries, the load returns true, and the order of the
ratings comes through. -/
def RatingsSurvive (dbl : Doubles δ) (rated : List (JsonValue δ × Nat)) (jsonString : CString)
    (alloc : Allocations) : Prop :=
  ∃ endp c, Parses dbl.convert jsonString.memory (.ok (.array (rated.map Prod.fst)) endp) ∧
    catalogLoadFromString dbl (.ok (.array (rated.map Prod.fst)) endp) jsonString alloc
      catalogCreate = .returned true c ∧ OrderSurvives c (rated.map Prod.snd)

theorem loaded_survives_iff {dbl : Doubles δ} (reads : dbl.ReadsTenths)
    {rated : List (JsonValue δ × Nat)} (hrated : ∀ r ∈ rated, Rated dbl r.1 r.2) {c : Catalog δ}
    (hentries : c.entries = (rated.map Prod.fst).map (readEntry dbl)) :
    OrderSurvives c (rated.map Prod.snd) ↔ RatingsCoarse (rated.map Prod.snd) := by
  have hfst : c.entries = (rated.map fun r => (readEntry dbl r.1, r.2)).map Prod.fst := by
    rw [hentries]
    simp
  have hsnd : rated.map Prod.snd = (rated.map fun r => (readEntry dbl r.1, r.2)).map Prod.snd := by
    simp
  rw [hsnd]
  refine orderSurvives_iff hfst fun r hr => ?_
  obtain ⟨r, hmem, rfl⟩ := List.mem_map.mp hr
  exact ⟨(hrated r hmem).rating reads, (hrated r hmem).range⟩

/-- A text with rated entries is loaded, and the order of its ratings comes through for every least
rating that is searched, if and only if no closing bracket stands directly behind a string value,
the counts are in range, the memory is there, ratings with the same whole part are in order
already, and the highest one is whole. -/
theorem load_rating_iff {dbl : Doubles δ} (reads : dbl.ReadsTenths)
    {rated : List (JsonValue δ × Nat)} (hrated : ∀ r ∈ rated, Rated dbl r.1 r.2) {ts : List Token}
    (written : Written dbl.convert (.value (.array (rated.map Prod.fst))) ts)
    {lead trail : List Space}
    {jsonString : CString} (text : jsonString.bytes = textOf (spaces lead ++ (ts ++ spaces trail)))
    (alloc : Allocations) :
    RatingsSurvive dbl rated jsonString alloc ↔
      (Fits (.array (rated.map Prod.fst)) ∧ closedBehind ts = none) ∧ Loadable alloc rated.length ∧
        RatingsCoarse (rated.map Prod.snd) := by
  have hmemory : jsonString.memory = textOf (spaces lead) ++
    (textOf ts ++ (textOf (spaces trail) ++ [0])) := by
    rw [CString.memory, text]
    simp
  have follow : Follow (textOf (spaces trail) ++ [0]) := by
    refine ⟨0, [], ?_, Or.inr (Or.inr (Or.inr rfl))⟩
    rw [skipWs_spaces]
    rfl
  have hobjects : ∀ v ∈ rated.map Prod.fst, ∃ members, v = .object members := by
    intro v hv
    obtain ⟨r, hr, rfl⟩ := List.mem_map.mp hv
    exact (hrated r hr).object
  have hread := jsonParse_objects_iff written hobjects lead follow
  rw [← hmemory] at hread
  rw [← hread]
  constructor
  · rintro ⟨endp, c, hparse, hload, hsurvives⟩
    have hloadable := load_returns_iff.mp ⟨c, hload⟩
    rw [List.length_map] at hloadable
    exact ⟨⟨endp, hparse⟩, hloadable,
      (loaded_survives_iff reads hrated (load_entries hload)).mp hsurvives⟩
  · rintro ⟨⟨endp, hparse⟩, hloadable, hcoarse⟩
    obtain ⟨c, hload⟩ : ∃ c, catalogLoadFromString dbl (.ok (.array (rated.map Prod.fst)) endp)
      jsonString alloc
        catalogCreate = .returned true c := load_returns_iff.mpr (by rwa [List.length_map])
    exact ⟨endp, c, hparse, hload,
      (loaded_survives_iff reads hrated (load_entries hload)).mpr hcoarse⟩

end Order

/-- Doubles that are decimals with one place, counted in tenths. -/
def decimalDoubles : Doubles Nat where
  convert text := (text.filter (· ≠ CText.point)).foldl (fun n d => n * 10 + (d.toNat - 48)) 0
  zero := 0
  toInt value := (value / 10 : Nat)
  toUInt64 value := UInt64.ofNat (value / 10)

theorem decimalDoubles_readsTenths : decimalDoubles.ReadsTenths := by
  unfold Doubles.ReadsTenths
  decide +kernel

def ratedEntry (rating : JsonValue Nat) : JsonValue Nat := .object [(ascii "rating".toList, rating)]

theorem rated_text {tenths : Nat} (h : tenths ≤ 100) :
    Rated decimalDoubles (ratedEntry (.string (ratingText tenths))) tenths :=
  ⟨h, Or.inr rfl⟩

def plainParts (text : List UInt8) (plain : ∀ b ∈ text, b ≠ 0 ∧ b ≠ quote ∧ b ≠ backslash) :
    List StringPart :=
  text.pmap StringPart.byte plain

theorem decoded_plainParts (text : List UInt8)
    (plain : ∀ b ∈ text, b ≠ 0 ∧ b ≠ quote ∧ b ≠ backslash) :
    decoded (plainParts text plain) = text := by
  rw [decoded, plainParts, List.map_pmap]
  exact List.pmap_eq_self.mpr fun b hb => rfl

def ratingKey : List StringPart := plainParts (ascii "rating".toList) (by decide +kernel)

def blank : List Space := [⟨32, rfl⟩]

/-- `{"rating":… }`. -/
def entryTokens (rating : Token) : List Token :=
  .openBracket .object :: (.string ratingKey :: [.colon] ++ ([rating] ++ spaces blank) ++
    [.closeBracket .object])

/-- `[{"rating":… },{"rating":… }]`. -/
def twoTokens (a b : Token) : List Token :=
  .openBracket .array :: (entryTokens a ++ (.comma :: entryTokens b) ++ [.closeBracket .array])

theorem entryTokens_written {rating : Token} {v : JsonValue Nat}
    (written : Written decimalDoubles.convert (.value v) [rating]) :
    Written decimalDoubles.convert (.value (ratedEntry v)) (entryTokens rating) := by
  have hkey : decoded ratingKey = ascii "rating".toList := decoded_plainParts _ _
  have member := Written.last blank (Header.object ratingKey [] []) written
  rw [hkey] at member
  exact Written.box [] member

theorem twoTokens_written {a b : Token} {v w : JsonValue Nat}
    (first : Written decimalDoubles.convert (.value v) [a])
    (second : Written decimalDoubles.convert (.value w) [b]) :
    Written decimalDoubles.convert (.value (.array [ratedEntry v, ratedEntry w]))
    (twoTokens a b) := by
  have last := Written.last [] Header.array (entryTokens_written second)
  have both := Written.more [] [] Header.array (entryTokens_written first) last
  have hboth := Written.box [] both
  simpa [twoTokens, Container.value] using hboth

/-- `9.0`. -/
def nine : NumberText where
  sign := []
  int := [57]
  frac := [CText.point, 48]
  exp := []
  sign_form := Or.inl rfl
  int_some := by decide
  int_digits := by decide +kernel
  frac_form := Or.inr ⟨[48], by decide, by decide +kernel, rfl⟩
  exp_form := Or.inl rfl
  plain := by decide

def ratingString (tenths : Fin 101) : List StringPart :=
  plainParts (ratingText tenths) (by decide +kernel +revert)

theorem ratingString_written (tenths : Fin 101) :
    Written decimalDoubles.convert (.value (.string (ratingText tenths)))
    [.string (ratingString tenths)] := by
  have written := @Written.string _ decimalDoubles.convert (ratingString tenths)
  rwa [ratingString, decoded_plainParts] at written

theorem twoEntries_fit {v w : JsonValue Nat} (hv : Fits v) (hw : Fits w) :
    Fits (.array [ratedEntry v, ratedEntry w]) := by
  refine .array (by decide : 2 ≤ intMax) fun u hu => ?_
  rcases List.mem_pair.mp hu with rfl | rfl
  · exact .object (by decide : 1 ≤ intMax) fun m hm => by rwa [List.mem_singleton.mp hm]
  · exact .object (by decide : 1 ≤ intMax) fun m hm => by rwa [List.mem_singleton.mp hm]

def everyGrowth : Allocations := ⟨some 1, fun _ => true⟩

/-- `[{"rating":9.0 },{"rating":"8.5" }]`. -/
def wholeFirst : CString :=
  ⟨ascii "[\x7b\"rating\":9.0 \x7d,\x7b\"rating\":\"8.5\" \x7d]".toList, by decide⟩

/-- `[{"rating":"8.1" },{"rating":"8.7" }]`. -/
def lowFirst : CString :=
  ⟨ascii "[\x7b\"rating\":\"8.1\" \x7d,\x7b\"rating\":\"8.7\" \x7d]".toList, by decide⟩

theorem nine_written : Written decimalDoubles.convert (.value (.number 90)) [.number nine] := by
  have hnine : decimalDoubles.convert nine.text = 90 := by decide +kernel
  rw [← hnine]
  exact Written.number nine

theorem rated_pair {a b : JsonValue Nat × Nat} (ha : Rated decimalDoubles a.1 a.2)
    (hb : Rated decimalDoubles b.1 b.2) : ∀ r ∈ [a, b], Rated decimalDoubles r.1 r.2 := by
  intro r hr
  rcases List.mem_pair.mp hr with rfl | rfl
  · exact ha
  · exact hb

theorem rated_nine : Rated decimalDoubles (ratedEntry (.number 90)) 90 := by
  refine ⟨by decide, Or.inl ?_⟩
  rw [show decimalDoubles.convert (ratingText 90) = 90 by decide +kernel]
  rfl

theorem wholeFirst_survives :
    RatingsSurvive decimalDoubles [(ratedEntry (.number 90), 90),
      (ratedEntry (.string (ratingText 85)), 85)] wholeFirst
      everyGrowth := by
  have written := twoTokens_written nine_written (ratingString_written 85)
  have text : wholeFirst.bytes =
      textOf (spaces [] ++ (twoTokens (.number nine) (.string (ratingString 85)) ++
        spaces [])) := by decide +kernel
  refine (@load_rating_iff Nat _ decimalDoubles decimalDoubles_readsTenths
    [(ratedEntry (.number 90), 90), (ratedEntry (.string (ratingText 85)), 85)]
    (rated_pair rated_nine (rated_text (by decide))) _ written [] [] _ text everyGrowth).mpr
    ⟨⟨?_, rfl⟩, ?_, ?_⟩
  · exact twoEntries_fit (.number 90) (.string _)
  · exact ⟨nofun, fun _ _ => rfl, by decide⟩
  · exact ⟨by decide, by decide⟩

/-- 8.7 comes behind 8.1, and both are 80 in the catalog. -/
theorem lowFirst_lost :
    ∃ endp c, Parses decimalDoubles.convert lowFirst.memory (.ok (.array
        [ratedEntry (.string (ratingText 81)), ratedEntry (.string (ratingText 87))]) endp) ∧
      catalogLoadFromString decimalDoubles (.ok (.array
        [ratedEntry (.string (ratingText 81)), ratedEntry (.string (ratingText 87))]) endp)
        lowFirst everyGrowth catalogCreate = .returned true c ∧
      ¬ OrderSurvives c [81, 87] := by
  have written := twoTokens_written (ratingString_written 81) (ratingString_written 87)
  have hmemory : lowFirst.memory = textOf (spaces []) ++
      (textOf (twoTokens (.string (ratingString 81)) (.string (ratingString 87))) ++ [0]) := by
        decide +kernel
  have follow : Follow [0] := ⟨0, [], rfl, by decide⟩
  have hrated := @rated_pair (ratedEntry (.string (ratingText 81)), 81)
    (ratedEntry (.string (ratingText 87)), 87) (rated_text (by decide)) (rated_text (by decide))
  have hfits := twoEntries_fit (.string (ratingText 81)) (.string (ratingText 87))
  have hobjects : ∀ v ∈ [ratedEntry (.string (ratingText 81)),
      ratedEntry (.string (ratingText 87))], ∃ members, v = .object members := by
    intro v hv
    rcases List.mem_pair.mp hv with rfl | rfl
    · exact ⟨_, rfl⟩
    · exact ⟨_, rfl⟩
  obtain ⟨endp, hparse⟩ := (jsonParse_objects_iff written hobjects [] follow).mpr ⟨hfits, rfl⟩
  obtain ⟨c, hload⟩ : ∃ c, catalogLoadFromString decimalDoubles
      (.ok (.array [ratedEntry (.string (ratingText 81)), ratedEntry (.string (ratingText 87))])
        endp) lowFirst
      everyGrowth catalogCreate = .returned true c :=
    load_returns_iff.mpr ⟨nofun, fun _ _ => rfl, by decide⟩
  refine ⟨endp, c, hmemory ▸ hparse, hload, fun hsurvives => ?_⟩
  have hcoarse := (loaded_survives_iff decimalDoubles_readsTenths hrated (load_entries hload)).mp
    hsurvives
  exact absurd hcoarse.1 (by decide)

end MovieCatalog
