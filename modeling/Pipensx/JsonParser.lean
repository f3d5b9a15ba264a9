import Mathlib.Algebra.Group.Nat.Defs
import Pipensx.Strtod

/-!
# The JSON parser of the catalog

`app/movie_catalog.c` reads its catalog with a small parser of its own. The text is a C string
and a cursor is what is left of it, with the terminator; a cursor that has moved on behind the
terminator is empty, and to read there is an overrun. A double is what `convert` makes of the
text that `strtod` took. Every allocation is served; the member counts are `int`. The calls
carry fuel: running out of it means that the call has not come to an end yet.
-/

namespace MovieCatalog

open CText (minus isDigit strtod)

abbrev quote : UInt8 := 34
abbrev comma : UInt8 := 44
abbrev colon : UInt8 := 58
abbrev openBracket : UInt8 := 91
abbrev backslash : UInt8 := 92
abbrev closeBracket : UInt8 := 93
abbrev letterF : UInt8 := 102
abbrev letterN : UInt8 := 110
abbrev letterR : UInt8 := 114
abbrev letterT : UInt8 := 116
abbrev openBrace : UInt8 := 123
abbrev closeBrace : UInt8 := 125

/-- `INT_MAX`. -/
def intMax : Nat := 2 ^ 31 - 1

inductive JsonValue (δ : Type) where
  | null
  | bool (value : Bool)
  | number (value : δ)
  | string (value : List UInt8)
  | array (items : List (JsonValue δ))
  | object (members : List (List UInt8 × JsonValue δ))

/-- A value with `*end`, or `NULL` with what was stored in `*end`, if anything. The last two
are where C says nothing any more: a byte behind the terminator was read, or a count left the
range of `int`. -/
inductive Result (α : Type) where
  | ok (value : α) (endp : List UInt8)
  | null (endp : Option (List UInt8))
  | overrun
  | overflow
deriving DecidableEq

variable {α β δ : Type}

/-- A caller goes on only with a value; it passes the rest up and stores nothing in `*end`. -/
def andThen : Option (Result α) → (α → List UInt8 → Option (Result β)) → Option (Result β)
  | none, _ => none
  | some (.ok value endp), next => next value endp
  | some (.null _), _ => some (.null none)
  | some .overrun, _ => some .overrun
  | some .overflow, _ => some .overflow

def isWs (c : UInt8) : Bool := c = 32 || c = 9 || c = 10 || c = 13

def skipWs (p : List UInt8) : List UInt8 := p.dropWhile isWs

/-- The first loop looks for the closing quote and counts the bytes before it. -/
def measureLoop : List UInt8 → Nat → Result Nat
  | [], _ => .overrun
  | c :: p, len =>
    if c = 0 then .null none
    else if c = quote then .ok len (c :: p)
    else if c = backslash then
      match p with
      | [] => .overrun
      | e :: q => measureLoop q (if e = 0 then len + 1 else len + 2)
    else measureLoop p (len + 1)

def unescape (e : UInt8) : UInt8 :=
  if e = letterN then 10 else if e = letterT then 9 else if e = letterR then 13 else e

/-- The second loop copies until it has passed the bytes that were counted; `n` are left. -/
def copyLoop : List UInt8 → Nat → List UInt8 → Result (List UInt8)
  | [], n, out => if n = 0 then .ok out [] else .overrun
  | c :: p, n, out =>
    if n = 0 then .ok out (c :: p)
    else if c = backslash ∧ p.head? ≠ some 0 then
      match p with
      | [] => .overrun
      | e :: q => copyLoop q (n - 2) (out ++ [unescape e])
    else copyLoop p (n - 1) (out ++ [c])

def parseJsonString : List UInt8 → Result (List UInt8)
  | [] => .overrun
  | c :: p =>
    if c = quote then
      match measureLoop p 0 with
      | .ok len _ =>
        match copyLoop p len [] with
        | .ok out q => .ok out (q.drop 1)
        | failed => failed
      | .null _ => .null none
      | .overrun => .overrun
      | .overflow => .overflow
    else .null none

def parseJsonNumber (convert : List UInt8 → δ) (input : List UInt8) : δ × List UInt8 :=
  (convert (input.take (input.length - (strtod input).length)), strtod input)

/-- The loops over arrays and objects differ in the closing byte, in what stands before a value
and in what is built. -/
inductive Container where
  | array
  | object
deriving DecidableEq

def Container.openByte : Container → UInt8
  | .array => openBracket
  | .object => openBrace

def Container.closeByte : Container → UInt8
  | .array => closeBracket
  | .object => closeBrace

def Container.value : Container → List (List UInt8 × JsonValue δ) → JsonValue δ
  | .array, members => .array (members.map Prod.snd)
  | .object, members => .object members

/-- Up to the value: nothing in an array, a key and a colon in an object. -/
def memberHeader : Container → List UInt8 → Result (List UInt8)
  | .array, p => .ok [] p
  | .object, p =>
    match parseJsonString p with
    | .ok key keyEnd =>
      match skipWs keyEnd with
      | [] => .overrun
      | c :: q => if c = colon then .ok key (skipWs q) else .null none
    | failed => failed

/-- White space and at most one comma. -/
def separator (p : List UInt8) : Result Unit :=
  match skipWs p with
  | [] => .overrun
  | c :: q => .ok () (if c = comma then skipWs q else c :: q)

/-- The body of both loops. `realloc` is asked for room for one more member. -/
def jsonMember (parse : List UInt8 → Option (Result (JsonValue δ))) (k : Container) (count : Nat)
    (p : List UInt8) : Option (Result (List UInt8 × JsonValue δ)) :=
  andThen (some (memberHeader k p)) fun key q =>
    andThen (parse q) fun value r =>
      if intMax < count + 1 then some .overflow
      else andThen (some (separator r)) fun _ s => some (.ok (key, value) s)

mutual

def jsonParse (convert : List UInt8 → δ) : Nat → List UInt8 → Option (Result (JsonValue δ))
  | 0, _ => none
  | fuel + 1, input =>
    match skipWs input with
    | [] => some .overrun
    | c :: p =>
      if c = 0 then some (.null (some (c :: p)))
      else if c = quote then
        -- the cursor is behind the closing quote already
        andThen (some (parseJsonString (c :: p))) fun str q => some (.ok (.string str) (q.drop 1))
      else if c = openBrace then memberLoop convert .object fuel (skipWs p) []
      else if c = openBracket then memberLoop convert .array fuel (skipWs p) []
      else if c = letterN then some (.ok .null ((c :: p).drop 4))
      else if c = letterT then some (.ok (.bool true) ((c :: p).drop 4))
      else if c = letterF then some (.ok (.bool false) ((c :: p).drop 5))
      else if c = minus ∨ isDigit c = true then
        some (.ok (.number (parseJsonNumber convert (c :: p)).1)
          (parseJsonNumber convert (c :: p)).2)
      else some (.null none)

def memberLoop (convert : List UInt8 → δ) (k : Container) :
    Nat → List UInt8 → List (List UInt8 × JsonValue δ) → Option (Result (JsonValue δ))
  | 0, _, _ => none
  | _ + 1, [], _ => some .overrun
  | fuel + 1, c :: p, members =>
    if c = 0 then some (.ok (k.value members) (c :: p))
    else if c = k.closeByte then some (.ok (k.value members) p)
    else
      andThen (jsonMember (jsonParse convert fuel) k members.length (c :: p)) fun member q =>
        memberLoop convert k fuel q (members ++ [member])

end

section Calls

variable {convert : List UInt8 → δ} {k : Container} {p q r s key : List UInt8} {c : UInt8}
  {members : List (List UInt8 × JsonValue δ)} {v : JsonValue δ} {x y : Result (JsonValue δ)}
  {fuel n m : Nat}

def Parses (convert : List UInt8 → δ) (p : List UInt8) (x : Result (JsonValue δ)) : Prop :=
  ∃ fuel, jsonParse convert fuel p = some x

def Loops (convert : List UInt8 → δ) (k : Container) (p : List UInt8)
    (members : List (List UInt8 × JsonValue δ)) (x : Result (JsonValue δ)) : Prop :=
  ∃ fuel, memberLoop convert k fuel p members = some x

/-- The values without members, and the texts that are none. -/
def leaf (convert : List UInt8 → δ) : List UInt8 → Result (JsonValue δ)
  | [] => .overrun
  | c :: p =>
    if c = 0 then .null (some (c :: p))
    else if c = quote then
      match parseJsonString (c :: p) with
      | .ok str q => .ok (.string str) (q.drop 1)
      | .null _ => .null none
      | .overrun => .overrun
      | .overflow => .overflow
    else if c = letterN then .ok .null ((c :: p).drop 4)
    else if c = letterT then .ok (.bool true) ((c :: p).drop 4)
    else if c = letterF then .ok (.bool false) ((c :: p).drop 5)
    else if c = minus ∨ isDigit c = true then
      .ok (.number (parseJsonNumber convert (c :: p)).1) (parseJsonNumber convert (c :: p)).2
    else .null none

theorem jsonParse_open (hopen : skipWs p = k.openByte :: q) (fuel : Nat) :
    jsonParse convert (fuel + 1) p = memberLoop convert k fuel (skipWs q) [] := by
  cases k with
  | array =>
    rw [jsonParse, hopen]
    rfl
  | object =>
    rw [jsonParse, hopen]
    rfl

theorem jsonParse_leaf (hleaf : ∀ k q, skipWs p ≠ Container.openByte k :: q) (fuel : Nat) :
    jsonParse convert (fuel + 1) p = some (leaf convert (skipWs p)) := by
  rw [jsonParse]
  cases hskip : skipWs p with
  | nil => rfl
  | cons c r =>
    have hbrace : c ≠ openBrace := fun hc => hleaf .object r (by rw [hskip, hc]; rfl)
    have hbracket : c ≠ openBracket := fun hc => hleaf .array r (by rw [hskip, hc]; rfl)
    simp only [leaf, if_neg hbrace, if_neg hbracket]
    by_cases hzero : c = 0
    · rw [if_pos hzero, if_pos hzero]
    by_cases hquote : c = quote
    · rw [if_neg hzero, if_pos hquote, if_neg hzero, if_pos hquote]
      cases parseJsonString (c :: r) with
      | ok str q => rfl
      | null e => rfl
      | overrun => rfl
      | overflow => rfl
    · rw [if_neg hzero, if_neg hquote, if_neg hzero, if_neg hquote]
      split_ifs <;> rfl

/-- A call reads a value without members, or it enters a loop. -/
theorem opens_or_leaf (p : List UInt8) :
    (∃ k q, skipWs p = Container.openByte k :: q) ∨
    ∀ k q, skipWs p ≠ Container.openByte k :: q := by
  by_cases h : ∃ k q, skipWs p = Container.openByte k :: q
  · exact Or.inl h
  · exact Or.inr fun k q hkq => h ⟨k, q, hkq⟩

theorem memberLoop_turn (hzero : c ≠ 0) (hclose : c ≠ k.closeByte) :
    memberLoop convert k (fuel + 1) (c :: p) members =
      andThen (jsonMember (jsonParse convert fuel) k members.length (c :: p)) fun member q =>
        memberLoop convert k fuel q (members ++ [member]) := by
  rw [memberLoop, if_neg hzero, if_neg hclose]

/-- How a sequence of two calls ends. -/
theorem andThen_some {a : Option (Result α)} {f : α → List UInt8 → Option (Result β)}
    {z : Result β} : andThen a f = some z ↔ (∃ w e, a = some (.ok w e) ∧ f w e = some z) ∨
      ((∃ e, a = some (.null e)) ∧ z = .null none) ∨ (a = some .overrun ∧ z = .overrun) ∨
      (a = some .overflow ∧ z = .overflow) := by
  cases a with
  | none => simp [andThen]
  | some w => cases w <;> simp [andThen, eq_comm]

theorem andThen_mono {a b : Option (Result α)} {f g : α → List UInt8 → Option (Result β)}
    {z : Result β}
    (hab : ∀ w, a = some w → b = some w) (hfg : ∀ w e z, f w e = some z → g w e = some z)
    (h : andThen a f = some z) : andThen b g = some z := by
  cases a with
  | none => cases h
  | some w =>
    rw [hab w rfl]
    cases w with
    | ok value endp => exact hfg _ _ _ h
    | null e => exact h
    | overrun => exact h
    | overflow => exact h

theorem jsonMember_mono {parse parse' : List UInt8 → Option (Result (JsonValue δ))} {count : Nat}
    {z : Result (List UInt8 × JsonValue δ)} (hparse : ∀ q y, parse q = some y → parse' q = some y)
    (h : jsonMember parse k count p = some z) : jsonMember parse' k count p = some z :=
  andThen_mono (fun _ hw => hw) (fun _ q _ hz => andThen_mono (hparse q) (fun _ _ _ hw => hw) hz) h

/-- More fuel does not change a result. -/
theorem fuel_succ (convert : List UInt8 → δ) (fuel : Nat) :
    (∀ p x, jsonParse convert fuel p = some x → jsonParse convert (fuel + 1) p = some x) ∧
    ∀ k p members x, memberLoop convert k fuel p members = some x →
      memberLoop convert k (fuel + 1) p members = some x := by
  induction fuel with
  | zero =>
    refine ⟨fun p x h => ?_, fun k p members x h => ?_⟩
    · rw [jsonParse] at h
      cases h
    · rw [memberLoop] at h
      cases h
  | succ fuel ih =>
    obtain ⟨hparse, hloop⟩ := ih
    refine ⟨fun p x h => ?_, fun k p members x h => ?_⟩
    · rcases opens_or_leaf p with ⟨k, q, hopen⟩ | hleaf
      · rw [jsonParse_open hopen] at h ⊢
        exact hloop _ _ _ _ h
      · rw [jsonParse_leaf hleaf] at h ⊢
        exact h
    · cases p with
      | nil => exact h
      | cons c p =>
        by_cases hzero : c = 0
        · rw [memberLoop, if_pos hzero] at h ⊢
          exact h
        by_cases hclose : c = k.closeByte
        · rw [memberLoop, if_neg hzero, if_pos hclose] at h ⊢
          exact h
        · rw [memberLoop_turn hzero hclose] at h ⊢
          refine andThen_mono (fun _ hw => ?_) (fun member q z hz => hloop _ _ _ _ hz) h
          exact jsonMember_mono (fun q y hy => hparse q y hy) hw

theorem jsonParse_mono (hle : n ≤ m) (h : jsonParse convert n p = some x) :
    jsonParse convert m p = some x := by
  induction hle with
  | refl => exact h
  | step _ ih => exact (fuel_succ convert _).1 _ _ ih

theorem memberLoop_mono (hle : n ≤ m) (h : memberLoop convert k n p members = some x) :
    memberLoop convert k m p members = some x := by
  induction hle with
  | refl => exact h
  | step _ ih => exact (fuel_succ convert _).2 _ _ _ _ ih

theorem Parses.unique (hx : Parses convert p x) (hy : Parses convert p y) : x = y := by
  obtain ⟨n, hn⟩ := hx
  obtain ⟨m, hm⟩ := hy
  have hx := jsonParse_mono (le_max_left n m) hn
  have hy := jsonParse_mono (le_max_right n m) hm
  exact Option.some.inj (hx.symm.trans hy)

theorem parses_leaf (convert : List UInt8 → δ)
    (hleaf : ∀ k q, skipWs p ≠ Container.openByte k :: q) :
    Parses convert p (leaf convert (skipWs p)) :=
  ⟨1, jsonParse_leaf hleaf 0⟩

theorem parses_open_iff (hopen : skipWs p = k.openByte :: q) :
    Parses convert p x ↔ Loops convert k (skipWs q) [] x := by
  constructor
  · rintro ⟨fuel, h⟩
    cases fuel with
    | zero =>
      rw [jsonParse] at h
      cases h
    | succ fuel =>
      rw [jsonParse_open hopen] at h
      exact ⟨fuel, h⟩
  · rintro ⟨fuel, h⟩
    exact ⟨fuel + 1, by rw [jsonParse_open hopen, h]⟩

theorem Loops.unique (hx : Loops convert k p members x) (hy : Loops convert k p members y) :
    x = y := by
  obtain ⟨n, hn⟩ := hx
  obtain ⟨m, hm⟩ := hy
  have hx := memberLoop_mono (le_max_left n m) hn
  have hy := memberLoop_mono (le_max_right n m) hm
  exact Option.some.inj (hx.symm.trans hy)

theorem loops_past : Loops convert k [] members .overrun := ⟨1, rfl⟩

theorem loops_end : Loops convert k (0 :: p) members (.ok (k.value members) (0 :: p)) :=
  ⟨1, by rw [memberLoop, if_pos rfl]⟩

theorem closeByte_ne_zero (k : Container) : k.closeByte ≠ 0 := by cases k <;> decide

theorem loops_close : Loops convert k (k.closeByte :: p) members (.ok (k.value members) p) :=
  ⟨1, by rw [memberLoop, if_neg (closeByte_ne_zero k), if_pos rfl]⟩

/-- One turn of a loop that has `count` members. -/
def Turn (convert : List UInt8 → δ) (k : Container) (count : Nat) (p : List UInt8)
    (z : Result (List UInt8 × JsonValue δ)) : Prop :=
  ∃ fuel, jsonMember (jsonParse convert fuel) k count p = some z

theorem jsonMember_ok_iff {parse : List UInt8 → Option (Result (JsonValue δ))} {count : Nat}
    {member : List UInt8 × JsonValue δ} :
    jsonMember parse k count p = some (.ok member s) ↔ ∃ q r, memberHeader k p = .ok member.1 q ∧
      parse q = some (.ok member.2 r) ∧ count + 1 ≤ intMax ∧ separator r = .ok () s := by
  constructor
  · intro h
    rcases andThen_some.mp h with ⟨key, q, hheader, h⟩ | ⟨_, h⟩ | ⟨_, h⟩ | ⟨_, h⟩
    · rcases andThen_some.mp h with ⟨v, r, hvalue, h⟩ | ⟨_, h⟩ | ⟨_, h⟩ | ⟨_, h⟩
      · split at h
        · cases h
        · next hroom =>
          rcases andThen_some.mp h with ⟨_, s', hsep, h⟩ | ⟨_, h⟩ | ⟨_, h⟩ | ⟨_, h⟩
          · cases h
            exact ⟨q, r, Option.some.inj hheader, hvalue, Nat.le_of_not_lt hroom,
              Option.some.inj hsep⟩
          all_goals cases h
      all_goals cases h
    all_goals cases h
  · rintro ⟨q, r, hheader, hvalue, hroom, hsep⟩
    rw [jsonMember, hheader]
    simp only [andThen]
    rw [hvalue]
    simp only
    rw [if_neg (Nat.not_lt_of_le hroom), hsep]

theorem turn_ok_iff {count : Nat} {member : List UInt8 × JsonValue δ} :
    Turn convert k count p (.ok member s) ↔ ∃ q r, memberHeader k p = .ok member.1 q ∧
      Parses convert q (.ok member.2 r) ∧ count + 1 ≤ intMax ∧ separator r = .ok () s := by
  constructor
  · rintro ⟨fuel, h⟩
    obtain ⟨q, r, hheader, hvalue, hrest⟩ := jsonMember_ok_iff.mp h
    exact ⟨q, r, hheader, ⟨fuel, hvalue⟩, hrest⟩
  · rintro ⟨q, r, hheader, ⟨fuel, hvalue⟩, hrest⟩
    exact ⟨fuel, jsonMember_ok_iff.mpr ⟨q, r, hheader, hvalue, hrest⟩⟩

/-- A turn stops the loop or leads to the next one. -/
theorem loops_iff (hzero : c ≠ 0) (hclose : c ≠ k.closeByte) :
    Loops convert k (c :: p) members x ↔ ∃ z, Turn convert k members.length (c :: p) z ∧
      ((∃ member q, z = .ok member q ∧ Loops convert k q (members ++ [member]) x) ∨
        ((∃ e, z = .null e) ∧ x = .null none) ∨ (z = .overrun ∧ x = .overrun) ∨
        (z = .overflow ∧ x = .overflow)) := by
  constructor
  · rintro ⟨fuel, h⟩
    cases fuel with
    | zero =>
      rw [memberLoop] at h
      cases h
    | succ fuel =>
      rw [memberLoop_turn hzero hclose] at h
      rcases andThen_some.mp h with ⟨member, q, hturn, h⟩ | ⟨⟨e, hturn⟩, h⟩ | ⟨hturn,
        h⟩ | ⟨hturn, h⟩
      · exact ⟨_, ⟨fuel, hturn⟩, Or.inl ⟨member, q, rfl, fuel, h⟩⟩
      · exact ⟨_, ⟨fuel, hturn⟩, Or.inr (Or.inl ⟨⟨e, rfl⟩, h⟩)⟩
      · exact ⟨_, ⟨fuel, hturn⟩, Or.inr (Or.inr (Or.inl ⟨rfl, h⟩))⟩
      · exact ⟨_, ⟨fuel, hturn⟩, Or.inr (Or.inr (Or.inr ⟨rfl, h⟩))⟩
  · rintro ⟨z, ⟨n, hturn⟩, hrest⟩
    rcases hrest with ⟨member, q, rfl, m, h⟩ | ⟨⟨e, rfl⟩, rfl⟩ | ⟨rfl, rfl⟩ | ⟨rfl, rfl⟩
    · refine ⟨max n m + 1, ?_⟩
      have hturn := jsonMember_mono (fun q y hy => jsonParse_mono (le_max_left n m) hy) hturn
      rw [memberLoop_turn hzero hclose, hturn]
      exact memberLoop_mono (le_max_right n m) h
    all_goals exact ⟨n + 1, by rw [memberLoop_turn hzero hclose, hturn]; rfl⟩

theorem Turn.unique {count : Nat} {y z : Result (List UInt8 × JsonValue δ)}
    (hy : Turn convert k count p y) (hz : Turn convert k count p z) : y = z := by
  obtain ⟨n, hn⟩ := hy
  obtain ⟨m, hm⟩ := hz
  have hy := jsonMember_mono (fun q y hy => jsonParse_mono (le_max_left n m) hy) hn
  have hz := jsonMember_mono (fun q y hy => jsonParse_mono (le_max_right n m) hy) hm
  exact Option.some.inj (hy.symm.trans hz)

/-- After a turn the loop is where it would be had it begun there. -/
theorem loops_turn_iff {member : List UInt8 × JsonValue δ} (hzero : c ≠ 0)
    (hclose : c ≠ k.closeByte) (hturn : Turn convert k members.length (c :: p) (.ok member q)) :
    Loops convert k (c :: p) members x ↔ Loops convert k q (members ++ [member]) x := by
  rw [loops_iff hzero hclose]
  constructor
  · rintro ⟨z, hz, hrest⟩
    cases hz.unique hturn
    rcases hrest with ⟨_, _, heq, h⟩ | ⟨⟨_, heq⟩, _⟩ | ⟨heq, _⟩ | ⟨heq, _⟩
    · cases heq
      exact h
    all_goals cases heq
  · intro h
    exact ⟨_, hturn, Or.inl ⟨member, q, rfl, h⟩⟩

/-- A turn that does not give a member is the last one. -/
theorem loops_null (hzero : c ≠ 0) (hclose : c ≠ k.closeByte) {e : Option (List UInt8)}
    (hturn : Turn convert k members.length (c :: p) (.null e)) :
    Loops convert k (c :: p) members (.null none) :=
  (loops_iff hzero hclose).mpr ⟨_, hturn, Or.inr (Or.inl ⟨⟨e, rfl⟩, rfl⟩)⟩

/-- A loop that returns a value is done, or it has read one more member. -/
theorem memberLoop_ok_cases (h : memberLoop convert k (fuel + 1) p members = some (.ok v r)) :
    (v = k.value members ∧ r <:+ p) ∨
      ∃ member q, jsonMember (jsonParse convert fuel) k members.length p = some (.ok member q) ∧
        memberLoop convert k fuel q (members ++ [member]) = some (.ok v r) := by
  cases p with
  | nil => cases h
  | cons c p =>
    by_cases hzero : c = 0
    · rw [memberLoop, if_pos hzero] at h
      cases h
      exact Or.inl ⟨rfl, List.suffix_rfl⟩
    by_cases hclose : c = k.closeByte
    · rw [memberLoop, if_neg hzero, if_pos hclose] at h
      cases h
      exact Or.inl ⟨rfl, List.suffix_cons c _⟩
    rw [memberLoop_turn hzero hclose] at h
    rcases andThen_some.mp h with ⟨member, q, hturn, h⟩ | ⟨_, h⟩ | ⟨_, h⟩ | ⟨_, h⟩
    · exact Or.inr ⟨member, q, hturn, h⟩
    all_goals cases h

theorem jsonParse_ok_cases (h : jsonParse convert (fuel + 1) p = some (.ok v r)) :
    (∃ k q, skipWs p = Container.openByte k :: q ∧ memberLoop convert k fuel (skipWs q) [] =
      some (.ok v r)) ∨ leaf convert (skipWs p) = .ok v r := by
  rcases opens_or_leaf p with ⟨k, q, hopen⟩ | hleaf
  · rw [jsonParse_open hopen] at h
    exact Or.inl ⟨k, q, hopen, h⟩
  · rw [jsonParse_leaf hleaf] at h
    exact Or.inr (Option.some.inj h)

/-- What a loop returns begins with the members it has already. -/
theorem loops_ok_extends (h : Loops convert k p members (.ok v r)) :
    ∃ more, v = k.value (members ++ more) := by
  obtain ⟨fuel, h⟩ := h
  induction fuel generalizing p members with
  | zero =>
    rw [memberLoop] at h
    cases h
  | succ fuel ih =>
    rcases memberLoop_ok_cases h with ⟨hv, _⟩ | ⟨member, q, _, h⟩
    · exact ⟨[], by rw [hv, List.append_nil]⟩
    · obtain ⟨more, hmore⟩ := ih h
      exact ⟨member :: more, by rw [hmore, List.append_assoc, List.singleton_append]⟩

theorem skipWs_suffix (p : List UInt8) : skipWs p <:+ p := List.dropWhile_suffix _

theorem copyLoop_suffix {p q : List UInt8} {n : Nat} {out str : List UInt8}
    (h : copyLoop p n out = .ok str q) : q <:+ p := by
  induction p, n, out using copyLoop.induct with
  | case1 out => cases h; exact List.suffix_rfl
  | case2 n out hn =>
    rw [copyLoop, if_neg hn] at h
    cases h
  | case3 c p out =>
    rw [copyLoop.eq_def] at h
    cases h
    exact List.suffix_rfl
  | case4 c n out hn hc =>
    rw [copyLoop, if_neg hn, if_pos hc] at h
    cases h
  | case5 c n out hn e r hc ih =>
    rw [copyLoop, if_neg hn, if_pos hc] at h
    exact (ih h).trans ((List.suffix_cons e r).trans (List.suffix_cons c _))
  | case6 c p n out hn hc ih =>
    rw [copyLoop.eq_def] at h
    simp only at h
    rw [if_neg hn, if_neg hc] at h
    exact (ih h).trans (List.suffix_cons c p)

/-- A string takes its opening quote at least. -/
theorem parseJsonString_suffix {p q str : List UInt8} (h : parseJsonString p = .ok str q) :
    ∃ c r, p = c :: r ∧ q <:+ r := by
  cases p with
  | nil => cases h
  | cons c r =>
    refine ⟨c, r, rfl, ?_⟩
    rw [parseJsonString] at h
    split at h
    · split at h
      · split at h
        · next hcopy =>
          cases h
          exact (List.drop_suffix 1 _).trans (copyLoop_suffix hcopy)
        · next hfailed => exact absurd h (hfailed str q)
      all_goals cases h
    · cases h

theorem memberHeader_suffix (h : memberHeader k p = .ok key q) : q <:+ p := by
  cases k with
  | array =>
    cases h
    exact List.suffix_rfl
  | object =>
    rw [memberHeader] at h
    split at h
    · next str keyEnd hstring =>
      obtain ⟨c, r, rfl, hkey⟩ := parseJsonString_suffix hstring
      have hcolon := skipWs_suffix keyEnd
      split at h
      · cases h
      · next d t hskip =>
        rw [hskip] at hcolon
        split at h
        · cases h
          have hkeyEnd := hkey.trans (List.suffix_cons c r)
          exact (skipWs_suffix t).trans ((List.suffix_cons d t).trans (hcolon.trans hkeyEnd))
        · cases h
    · next hfailed => exact absurd h (hfailed key q)

theorem separator_suffix {u : Unit} (h : separator p = .ok u q) : q <:+ p := by
  have hskip := skipWs_suffix p
  rw [separator] at h
  split at h
  · cases h
  · next c r hr =>
    rw [hr] at hskip
    cases h
    split
    · exact (skipWs_suffix r).trans ((List.suffix_cons c r).trans hskip)
    · exact hskip

theorem leaf_suffix (h : leaf convert p = .ok v q) : q <:+ p := by
  cases p with
  | nil => cases h
  | cons c p =>
    rw [leaf] at h
    split_ifs at h
    · split at h
      · next hstring =>
        obtain ⟨d, r, heq, hsuffix⟩ := parseJsonString_suffix hstring
        cases h
        rw [heq]
        exact (List.drop_suffix 1 _).trans (hsuffix.trans (List.suffix_cons d r))
      all_goals cases h
    · cases h
      exact List.drop_suffix 4 _
    · cases h
      exact List.drop_suffix 4 _
    · cases h
      exact List.drop_suffix 5 _
    · cases h
      exact (CText.strtod_progress _).1

/-- What a call leaves is a part of what it was given. -/
theorem fuel_suffix (convert : List UInt8 → δ) (fuel : Nat) :
    (∀ p v e, jsonParse convert fuel p = some (.ok v e) → e <:+ skipWs p) ∧
    ∀ k p members w e, memberLoop convert k fuel p members = some (.ok w e) → e <:+ p := by
  induction fuel with
  | zero =>
    refine ⟨fun p v e h => ?_, fun k p members w e h => ?_⟩
    · rw [jsonParse] at h
      cases h
    · rw [memberLoop] at h
      cases h
  | succ fuel ih =>
    obtain ⟨hparse, hloop⟩ := ih
    refine ⟨fun p v e h => ?_, fun k p members w e h => ?_⟩
    · rcases jsonParse_ok_cases h with ⟨k, q, hopen, h⟩ | hleaf
      · have hbody := skipWs_suffix q
        rw [hopen]
        exact (hloop _ _ _ _ _ h).trans (hbody.trans (List.suffix_cons _ q))
      · exact leaf_suffix hleaf
    · rcases memberLoop_ok_cases h with ⟨_, hsuffix⟩ | ⟨member, q, hturn, h⟩
      · exact hsuffix
      · obtain ⟨r, t, hheader, hvalue, _, hsep⟩ := jsonMember_ok_iff.mp hturn
        have hvalue := (hparse _ _ _ hvalue).trans (skipWs_suffix r)
        exact (hloop _ _ _ _ _ h).trans
          ((separator_suffix hsep).trans (hvalue.trans (memberHeader_suffix hheader)))

theorem Parses.suffix (h : Parses convert p (.ok v q)) : q <:+ skipWs p := by
  obtain ⟨fuel, h⟩ := h
  exact (fuel_suffix convert fuel).1 _ _ _ h

theorem Loops.suffix (h : Loops convert k p members (.ok v q)) : q <:+ p := by
  obtain ⟨fuel, h⟩ := h
  exact (fuel_suffix convert fuel).2 _ _ _ _ _ h

end Calls

end MovieCatalog
