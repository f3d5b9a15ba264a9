import Mathlib.Data.List.Infix
import Pipensx.Catalog

/-!
# Searching the catalog

`catalog_search` goes over the entries twice, to count the matches and to fill the results.
`catalog_search_by_title` and `catalog_search_by_genre` copy their texts in another way: the last
byte of a copy is not set to the terminator. A pointer to an entry is its index.
-/

namespace MovieCatalog

open CText (CString strstr ascii toLower)

variable {δ : Type}

structure MatchResult where
  entry : Nat
  score : UInt32
  reason : List UInt8
deriving DecidableEq

/-- A call that returns, or behaviour that C leaves open. -/
inductive Search (α : Type) where
  | returned (a : α)
  | undefined

/-- A copy into an array of `size` bytes, in lower case. Where nothing leaves room for the
terminator, `strlen` reads on behind the array. -/
def copyLower (size : Nat) (src : List UInt8) : Option (List UInt8) :=
  if src.length < size then some (src.map toLower) else none

def searchLoop (field : MovieEntry δ → List UInt8) (queryLower : List UInt8) :
    Nat → List (MovieEntry δ) → Search (Option Nat)
  | _, [] => .returned none
  | i, e :: rest =>
    match copyLower 256 (field e) with
    | none => .undefined
    | some textLower =>
      if (strstr textLower queryLower).isSome then .returned (some i) else searchLoop field
        queryLower (i + 1) rest

def searchByField (field : MovieEntry δ → List UInt8) (query : CString) (c : Catalog δ) :
    Search (Option Nat) :=
  match copyLower 256 query.bytes with
  | none => .undefined
  | some queryLower => searchLoop field queryLower 0 c.entries

def catalogSearchByTitle (query : CString) (c : Catalog δ) : Search (Option Nat) :=
  searchByField (fun e => e.title.bytes) query c

def catalogSearchByGenre (query : CString) (c : Catalog δ) : Search (Option Nat) :=
  searchByField (fun e => e.genre.bytes) query c

/-- A copy into an array of `size` bytes, the last of which is set to the terminator, in lower case.
-/
def copyLowerTerminated (size : Nat) (src : List UInt8) : List UInt8 :=
  (src.take (size - 1)).map toLower

def titleHas (query : CString) (e : MovieEntry δ) : Bool :=
  (strstr (copyLowerTerminated 256 e.title.bytes) (copyLowerTerminated 256 query.bytes)).isSome

def descHas (query : CString) (e : MovieEntry δ) : Bool :=
  (strstr (copyLowerTerminated 1024 e.description.bytes)
    (copyLowerTerminated 256 query.bytes)).isSome

def genreHas (query : CString) (e : MovieEntry δ) : Bool :=
  (strstr (copyLowerTerminated 256 e.genre.bytes) (copyLowerTerminated 256 query.bytes)).isSome

/-- The first pass. An `int` that leaves its range is undefined. -/
def countLoop (query : CString) : Nat → List (MovieEntry δ) → Option Nat
  | count, [] => some count
  | count, e :: rest =>
    if titleHas query e || descHas query e || genreHas query e then
      if intMax < count + 1 then none else countLoop query (count + 1) rest
    else countLoop query count rest

/-- What the second pass writes for the entry at an index. -/
def matchOf (query : CString) (i : Nat) (e : MovieEntry δ) : Option MatchResult :=
  if titleHas query e then some ⟨i, 100, ascii "Title match".toList⟩
  else if descHas query e then some ⟨i, 80, ascii "Description match".toList⟩
  else if genreHas query e then some ⟨i, 60, ascii "Genre match".toList⟩
  else none

/-- The second pass. A write behind the array is undefined. -/
def fillLoop (query : CString) (i idx : Nat) :
    List (MovieEntry δ) → List (Option MatchResult) → Option (List (Option MatchResult))
  | [], results => some results
  | e :: rest, results =>
    match matchOf query i e with
    | none => fillLoop query (i + 1) idx rest results
    | some r =>
      if idx < results.length then fillLoop query (i + 1) (idx + 1) rest
        (results.set idx (some r)) else none

/-- The results, if there is a pointer to them, and `*match_count`. `served` says whether `calloc`
gives the memory; the array it gives has no results yet, and without it the second pass writes
through a null pointer. -/
def catalogSearch (served : Bool) (query : CString) (c : Catalog δ) :
    Search (Option (List (Option MatchResult)) × Nat) :=
  match countLoop query 0 c.entries with
  | none => .undefined
  | some count =>
    if count = 0 then .returned (none, 0)
    else if served then
      match fillLoop query 0 0 c.entries (List.replicate count none) with
      | none => .undefined
      | some results => .returned (some results, count)
    else .undefined

inductive Field where
  | title
  | description
  | genre
deriving DecidableEq

def Field.score : Field → UInt32
  | .title => 100
  | .description => 80
  | .genre => 60

def Field.text (e : MovieEntry δ) : Field → List UInt8
  | .title => e.title.bytes
  | .description => e.description.bytes
  | .genre => e.genre.bytes

/-- The text in lower case contains the first 255 bytes of the query in lower case. -/
def Contains (query : CString) (e : MovieEntry δ) (f : Field) : Prop :=
  (query.bytes.take 255).map toLower <:+: (f.text e).map toLower

/-- The first field that matches. -/
def FirstMatch (query : CString) (e : MovieEntry δ) : Field → Prop
  | .title => Contains query e .title
  | .description => ¬ Contains query e .title ∧ Contains query e .description
  | .genre => ¬ Contains query e .title ∧ ¬ Contains query e .description ∧ Contains query e .genre

/-- The results stand in the order of the catalog, one for each entry that matches. -/
structure Reports (query : CString) (c : Catalog δ) (results : List MatchResult) : Prop where
  order : (results.map MatchResult.entry).Pairwise (· < ·)
  hits : ∀ i score, (∃ r ∈ results, r.entry = i ∧ r.score = score) ↔
    ∃ e, c.entries[i]? = some e ∧ ∃ f, FirstMatch query e f ∧ score = f.score

/-- Both searches return, and the search by title finds the first result with a score of 100. -/
def SearchesAgree (served : Bool) (query : CString) (c : Catalog δ) : Prop :=
  ∃ results, Reports query c results ∧
    catalogSearch served query c =
      .returned (if results = [] then none else some (results.map some), results.length) ∧
    catalogSearchByTitle query c =
      .returned ((results.find? fun r => r.score = 100).map MatchResult.entry)

theorem strstr_isSome_iff (hay needle : List UInt8) :
    (strstr hay needle).isSome = true ↔ needle <:+: hay := by
  induction hay with
  | nil =>
    rw [strstr, List.infix_nil]
    split <;> simp [*]
  | cons c hay ih =>
    rw [strstr, List.infix_cons_iff, ← ih, ← List.isPrefixOf_iff_prefix]
    split <;> simp [*]

section Passes

variable {query : CString} {e : MovieEntry δ}

theorem copy_whole {size n : Nat} {src : List UInt8} (h : src.length < n) (hsize : n ≤ size) :
    copyLowerTerminated size src = src.map toLower := by
  rw [copyLowerTerminated, List.take_of_length_le (by omega)]

theorem titleHas_iff : titleHas query e = true ↔ Contains query e .title := by
  rw [titleHas, strstr_isSome_iff, copy_whole e.title.room (Nat.le_refl 256)]
  rfl

theorem descHas_iff : descHas query e = true ↔ Contains query e .description := by
  rw [descHas, strstr_isSome_iff, copy_whole e.description.room (Nat.le_refl 1024)]
  rfl

theorem genreHas_iff : genreHas query e = true ↔ Contains query e .genre := by
  rw [genreHas, strstr_isSome_iff, copy_whole e.genre.room (by decide : 128 ≤ 256)]
  rfl

instance (query : CString) (e : MovieEntry δ) (f : Field) : Decidable (Contains query e f) :=
  inferInstanceAs (Decidable (_ <:+: _))

/-- Some field matches. -/
def Hit (query : CString) (e : MovieEntry δ) : Bool :=
  titleHas query e || descHas query e || genreHas query e

theorem matchOf_isSome (i : Nat) : (matchOf query i e).isSome = Hit query e := by
  rw [matchOf, Hit]
  cases titleHas query e <;> cases descHas query e <;> cases genreHas query e <;> rfl

theorem matchOf_iff (i : Nat) (score : UInt32) :
    (∃ r, matchOf query i e = some r ∧ r.score = score) ↔ ∃ f, FirstMatch query e f ∧
    score = f.score := by
  have hfields : ∀ P : Field → Prop, (∃ f, P f) ↔ P .title ∨ P .description ∨ P .genre := by
    intro P
    constructor
    · rintro ⟨f, hf⟩
      cases f with
      | title => exact Or.inl hf
      | description => exact Or.inr (Or.inl hf)
      | genre => exact Or.inr (Or.inr hf)
    · rintro (h | h | h) <;> exact ⟨_, h⟩
  rw [hfields]
  simp only [FirstMatch, Field.score, ← titleHas_iff, ← descHas_iff, ← genreHas_iff, matchOf]
  cases titleHas query e <;> cases descHas query e <;> cases genreHas query e <;> simp [eq_comm]

theorem matchOf_entry {i : Nat} {r : MatchResult} (h : matchOf query i e = some r) :
    r.entry = i := by
  rw [matchOf] at h
  split_ifs at h <;> exact (Option.some.inj h) ▸ rfl

/-- The results for entries that stand from an index on. -/
def matchesFrom (query : CString) (i : Nat) (entries : List (MovieEntry δ)) : List MatchResult :=
  (entries.zipIdx i).filterMap fun p => matchOf query p.2 p.1

theorem matchesFrom_cons (i : Nat) (rest : List (MovieEntry δ)) :
    matchesFrom query i (e :: rest) = (matchOf query i e).toList ++ matchesFrom query
    (i + 1) rest := by
  rw [matchesFrom, List.zipIdx_cons, List.filterMap_cons]
  cases matchOf query i e <;> rfl

theorem matchesFrom_length (i : Nat) (entries : List (MovieEntry δ)) :
    (matchesFrom query i entries).length = entries.countP (Hit query) := by
  induction entries generalizing i with
  | nil => rfl
  | cons e rest ih =>
    rw [matchesFrom_cons, List.length_append, ih, List.countP_cons, ← matchOf_isSome i]
    cases matchOf query i e <;> simp [Nat.add_comm]

theorem matchesFrom_reports (query : CString) (c : Catalog δ) :
    Reports query c (matchesFrom query 0 c.entries) := by
  refine ⟨?_, fun i score => ?_⟩
  · rw [matchesFrom, List.pairwise_map, List.pairwise_filterMap]
    have hindices : (c.entries.zipIdx 0).Pairwise fun p q => p.2 < q.2 := by
      rw [← List.pairwise_map (R := (· < ·)), List.zipIdx_map_snd]
      exact List.pairwise_lt_range'
    refine hindices.imp fun hlt r hr r' hr' => ?_
    rwa [matchOf_entry hr, matchOf_entry hr']
  · simp only [matchesFrom, List.mem_filterMap, Prod.exists, List.mem_zipIdx_iff_getElem?]
    constructor
    · rintro ⟨r, ⟨e, j, hget, hmatch⟩, hentry, hscore⟩
      rw [← hentry, matchOf_entry hmatch]
      exact ⟨e, hget, (matchOf_iff j score).mp ⟨r, hmatch, hscore⟩⟩
    · rintro ⟨e, hget, hfirst⟩
      obtain ⟨r, hmatch, hscore⟩ := (matchOf_iff i score).mpr hfirst
      exact ⟨r, ⟨e, i, hget, hmatch⟩, matchOf_entry hmatch, hscore⟩

theorem countLoop_eq {count : Nat} (h : count ≤ intMax) (entries : List (MovieEntry δ)) :
    countLoop query count entries =
      if count + entries.countP (Hit query) ≤ intMax then some (count + entries.countP (Hit query))
      else none := by
  induction entries generalizing count with
  | nil => simp [countLoop, h]
  | cons e rest ih =>
    rw [countLoop, List.countP_cons]
    cases hhit : Hit query e with
    | false =>
      rw [if_neg (by simpa [Hit] using hhit), ih h]
      simp
    | true =>
      rw [if_pos (by simpa only [Hit] using hhit)]
      simp only [if_true]
      by_cases hroom : intMax < count + 1
      · rw [if_pos hroom, if_neg (by omega)]
      · rw [if_neg hroom, ih (by omega), Nat.add_right_comm, Nat.add_assoc]

/-- The second pass fills as many places as the first pass has counted. -/
theorem fillLoop_eq (i : Nat) (entries : List (MovieEntry δ)) (filled : List MatchResult) :
    fillLoop query i filled.length entries
        (filled.map some ++ List.replicate (entries.countP (Hit query)) none) =
      some ((filled ++ matchesFrom query i entries).map some) := by
  induction entries generalizing i filled with
  | nil => simp [fillLoop, matchesFrom]
  | cons e rest ih =>
    rw [fillLoop, matchesFrom_cons, List.countP_cons, ← matchOf_isSome i]
    cases hmatch : matchOf query i e with
    | none => simpa [hmatch] using ih (i + 1) filled
    | some r =>
      have hset : (filled.map some ++ List.replicate (rest.countP (Hit query) + 1) none).set
          filled.length (some r) =
          (filled ++ [r]).map some ++ List.replicate (rest.countP (Hit query)) none := by
        rw [List.set_append_right _ _ (by simp)]
        simp [List.replicate_succ]
      have hnext := ih (i + 1) (filled ++ [r])
      rw [List.length_append, List.length_singleton, ← hset] at hnext
      simpa using hnext

theorem title_score {i : Nat} {r : MatchResult} (h : matchOf query i e = some r) :
    decide (r.score = 100) = titleHas query e := by
  rw [matchOf] at h
  cases htitle : titleHas query e with
  | true =>
    rw [htitle, if_pos rfl] at h
    cases h
    rfl
  | false =>
    simp only [htitle, Bool.false_eq_true, if_false] at h
    split_ifs at h <;>
      · cases h
        rfl

/-- The search by title stops where the first result with a score of 100 comes from. -/
theorem searchLoop_title (hquery : query.bytes.length ≤ 255) (i : Nat)
    (entries : List (MovieEntry δ)) :
    searchLoop (fun e => e.title.bytes) (query.bytes.map toLower) i entries =
      .returned (((matchesFrom query i entries).find? fun r => r.score = 100).map
        MatchResult.entry) := by
  induction entries generalizing i with
  | nil => rfl
  | cons e rest ih =>
    have hhas : (strstr (e.title.bytes.map toLower) (query.bytes.map toLower)).isSome =
      titleHas query e := by
      rw [titleHas, copy_whole e.title.room (Nat.le_refl 256), copy_whole (Nat.lt_succ_of_le hquery)
        (Nat.le_refl 256)]
    rw [searchLoop, copyLower, if_pos e.title.room, matchesFrom_cons, List.find?_append]
    simp only
    rw [hhas, ih]
    cases hmatch : matchOf query i e with
    | none =>
      have htitle : titleHas query e = false := by
        have hhit := @matchOf_isSome _ query e i
        rw [hmatch, Hit] at hhit
        cases htitle : titleHas query e with
        | false => rfl
        | true =>
          rw [htitle] at hhit
          cases hhit
      simp [htitle]
    | some r =>
      rw [← title_score hmatch]
      by_cases hscore : r.score = 100
      · simp [hscore, matchOf_entry hmatch]
      · simp [hscore]

theorem catalogSearch_returns {served : Bool} {c : Catalog δ}
    (hcount : c.entries.countP (Hit query) ≤ intMax)
    (hserved : served = true ∨ c.entries.countP (Hit query) = 0) :
    catalogSearch served query c =
      .returned (if matchesFrom query 0 c.entries = [] then none else some
        ((matchesFrom query 0 c.entries).map some), (matchesFrom query 0 c.entries).length) := by
  have hlength := @matchesFrom_length _ query 0 c.entries
  rw [catalogSearch, countLoop_eq (Nat.zero_le _), Nat.zero_add, if_pos hcount]
  by_cases hnone : c.entries.countP (Hit query) = 0
  · rw [if_pos (List.eq_nil_of_length_eq_zero (hlength.trans hnone)), hlength, hnone]
    rfl
  · have hfill := @fillLoop_eq _ query 0 c.entries []
    simp only [List.map_nil, List.nil_append, List.length_nil] at hfill
    have hsome : matchesFrom query 0 c.entries ≠ [] := fun h => hnone (by rw [← hlength, h]; rfl)
    simp only [if_neg hnone, hserved.resolve_right hnone, if_true, hfill, if_neg hsome, hlength]

end Passes

/-- The searches agree if and only if the query has 255 bytes at most, the number of matches is an
`int`, and there is memory for the results if there are any. -/
theorem searches_agree_iff_short (served : Bool) (query : CString) (c : Catalog δ) :
    SearchesAgree served query c ↔
      query.bytes.length ≤ 255 ∧ c.entries.countP (Hit query) ≤ intMax ∧
        (served = true ∨ ∀ e ∈ c.entries, Hit query e = false) := by
  have hnone : c.entries.countP (Hit query) = 0 ↔ ∀ e ∈ c.entries, Hit query e = false := by
    simp [List.countP_eq_zero]
  rw [← hnone]
  constructor
  · rintro ⟨results, -, hsearch, htitle⟩
    have hquery : query.bytes.length ≤ 255 := by
      by_contra hlong
      rw [catalogSearchByTitle, searchByField, copyLower, if_neg (by omega)] at htitle
      cases htitle
    rw [catalogSearch, countLoop_eq (Nat.zero_le _), Nat.zero_add] at hsearch
    have hcount : c.entries.countP (Hit query) ≤ intMax := by
      by_contra hmany
      rw [if_neg hmany] at hsearch
      cases hsearch
    refine ⟨hquery, hcount, ?_⟩
    by_contra hrefused
    obtain ⟨hserved, hsome⟩ := not_or.mp hrefused
    simp only [if_pos hcount, if_neg hsome, hserved] at hsearch
    cases hsearch
  · rintro ⟨hquery, hcount, hserved⟩
    refine ⟨matchesFrom query 0 c.entries, matchesFrom_reports query c, catalogSearch_returns
      hcount hserved, ?_⟩
    rw [catalogSearchByTitle, searchByField, copyLower, if_pos (by omega)]
    exact searchLoop_title hquery 0 c.entries

/-- 256 times the letter a. -/
def longQuery : CString :=
  ⟨List.replicate 256 97, fun h => absurd (List.eq_of_mem_replicate h) (by decide)⟩

/-- A query that fills the array leaves no room for the terminator, in any catalog. -/
theorem longQuery_overread : ¬ SearchesAgree true longQuery (catalogCreate : Catalog Unit) := by
  rintro ⟨results, -, -, htitle⟩
  have hlength : longQuery.bytes.length = 256 := List.length_replicate
  rw [catalogSearchByTitle, searchByField, copyLower, if_neg (by omega)] at htitle
  cases htitle

end MovieCatalog
