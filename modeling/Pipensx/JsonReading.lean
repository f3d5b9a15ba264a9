import Pipensx.JsonLayout

/-!
# When a JSON text is read as its value

A scan of the tokens says how the parser stands behind a value: it is done with it, it has
swallowed the byte behind a string, it is still inside although the closing bracket is gone,
or it has read something else.
-/

namespace MovieCatalog

variable {δ : Type}

inductive Status where
  | clean
  | string
  | opened (k : Container)
  | broken

def Status.next : Status → Token → Status
  | .broken, _ => .broken
  | .opened k, .space _ => .opened k
  | .opened k, .closeBracket k' => if k' = k then .opened k else .broken
  | .opened _, _ => .broken
  | .string, .closeBracket k => .opened k
  | _, .string _ => .string
  | _, _ => .clean

def scan (s : Status) (ts : List Token) : Status := ts.foldl Status.next s

@[simp] theorem scan_nil (s : Status) : scan s [] = s := rfl

@[simp] theorem scan_cons (s : Status) (t : Token) (ts : List Token) :
    scan s (t :: ts) = scan (s.next t) ts := rfl

@[simp] theorem scan_append (s : Status) (ts us : List Token) :
    scan s (ts ++ us) = scan (scan s ts) us :=
  List.foldl_append

@[simp] theorem scan_broken (ts : List Token) : scan .broken ts = .broken := by
  induction ts with
  | nil => rfl
  | cons t ts ih => exact ih

@[simp] theorem scan_clean_spaces (w : List Space) : scan .clean (spaces w) = .clean := by
  induction w with
  | nil => rfl
  | cons b w ih => exact ih

@[simp] theorem scan_opened_spaces (k : Container) (w : List Space) :
    scan (.opened k) (spaces w) = .opened k := by
  induction w with
  | nil => rfl
  | cons b w ih => exact ih

theorem scan_header {k : Container} {key : List UInt8} {h : List Token} (header : Header k key h) :
    scan .clean h = .clean := by
  cases header with
  | array => rfl
  | object parts w w' =>
    cases w with
    | nil => exact scan_clean_spaces w'
    | cons b w =>
      have hscan : scan .clean (.string parts :: (spaces (b :: w) ++ .colon :: spaces w')) =
          scan ((scan .clean (spaces w)).next .colon) (spaces w') := scan_append _ (spaces w) _
      rw [hscan, scan_clean_spaces]
      exact scan_clean_spaces w'

/-- Inside a container whose bracket is gone only brackets like it are harmless. -/
theorem scan_opened (k : Container) (after : List Token) :
    (ClosesOnly k after ∧ scan (.opened k) after = .opened k) ∨
      (¬ ClosesOnly k after ∧ scan (.opened k) after = .broken) := by
  induction after with
  | nil => exact Or.inl ⟨fun t ht => absurd ht List.not_mem_nil, rfl⟩
  | cons t after ih =>
    have hhead : (t = .closeBracket k ∨ ∃ b, t = .space b) →
        (ClosesOnly k (t :: after) ↔ ClosesOnly k after) ∧ Status.next (.opened k) t =
          .opened k := by
      intro ht
      refine ⟨⟨fun h u hu => h u (List.mem_cons_of_mem _ hu), fun h u hu => ?_⟩, ?_⟩
      · rcases List.mem_cons.mp hu with rfl | hu
        · exact ht
        · exact h u hu
      · rcases ht with rfl | ⟨b, rfl⟩
        · exact if_pos rfl
        · rfl
    by_cases ht : t = .closeBracket k ∨ ∃ b, t = .space b
    · obtain ⟨hiff, hnext⟩ := hhead ht
      rw [scan_cons, hnext, hiff]
      exact ih
    · have hbroken : Status.next (.opened k) t = .broken := by
        cases t with
        | space b => exact absurd (Or.inr ⟨b, rfl⟩) ht
        | closeBracket k' => exact if_neg fun hk => ht (Or.inl (by rw [hk]))
        | null => rfl
        | bool b => rfl
        | number n => rfl
        | string parts => rfl
        | openBracket k' => rfl
        | comma => rfl
        | colon => rfl
      refine Or.inr ⟨fun h => ht (h t List.mem_cons_self), ?_⟩
      rw [scan_cons, hbroken, scan_broken]

/-- The scan leaves its first two states at the first bracket directly behind a string. -/
theorem scan_closedBehind (ts : List Token) :
    (closedBehind ts = none ∧ (scan .clean ts = .clean ∨ scan .clean ts = .string)) ∨
      ∃ k after, closedBehind ts = some (k, after) ∧ scan .clean ts = scan (.opened k) after := by
  induction ts with
  | nil => exact Or.inl ⟨rfl, Or.inl rfl⟩
  | cons t ts ih =>
    by_cases hstring : ∃ parts, t = .string parts
    · obtain ⟨parts, rfl⟩ := hstring
      cases ts with
      | nil => exact Or.inl ⟨rfl, Or.inr rfl⟩
      | cons u ts =>
        cases u with
        | closeBracket k => exact Or.inr ⟨k, ts, rfl, rfl⟩
        | _ => exact ih
    · have hskip : closedBehind (t :: ts) = closedBehind ts := by
        cases t with
        | string parts => exact absurd ⟨parts, rfl⟩ hstring
        | _ => rfl
      have hnext : Status.next .clean t = .clean := by
        cases t with
        | string parts => exact absurd ⟨parts, rfl⟩ hstring
        | _ => rfl
      rw [hskip, scan_cons, hnext]
      exact ih

theorem behind_of_clean {ts : List Token} (hscan : scan .clean ts = .clean) :
    closedBehind ts = none := by
  rcases scan_closedBehind ts with ⟨hnone, _⟩ | ⟨k, after, _, hafter⟩
  · exact hnone
  · rw [hscan] at hafter
    rcases scan_opened k after with ⟨_, hopened⟩ | ⟨_, hbroken⟩
    · rw [hopened] at hafter
      cases hafter
    · rw [hbroken] at hafter
      cases hafter

theorem behind_of_opened {k : Container} {ts : List Token} (hscan : scan .clean ts = .opened k) :
    ∃ after, closedBehind ts = some (k, after) ∧ ClosesOnly k after := by
  rcases scan_closedBehind ts with ⟨_, hclean | hstring⟩ | ⟨k', after, hsome, hafter⟩
  · rw [hscan] at hclean
    cases hclean
  · rw [hscan] at hstring
    cases hstring
  · rw [hscan] at hafter
    rcases scan_opened k' after with ⟨honly, hopened⟩ | ⟨_, hbroken⟩
    · rw [hopened] at hafter
      cases hafter
      exact ⟨after, hsome, honly⟩
    · rw [hbroken] at hafter
      cases hafter

theorem behind_of_broken {ts : List Token} (hscan : scan .clean ts = .broken) :
    ∃ k after, closedBehind ts = some (k, after) ∧ ¬ ClosesOnly k after := by
  rcases scan_closedBehind ts with ⟨_, hclean | hstring⟩ | ⟨k, after, hsome, hafter⟩
  · rw [hscan] at hclean
    cases hclean
  · rw [hscan] at hstring
    cases hstring
  · refine ⟨k, after, hsome, fun honly => ?_⟩
    rcases scan_opened k after with ⟨_, hopened⟩ | ⟨hnot, _⟩
    · rw [hscan, hopened] at hafter
      cases hafter
    · exact hnot honly

section Runs

variable {convert : List UInt8 → δ} {k : Container} {key p q rest : List UInt8} {v : JsonValue δ}
  {acc ms : List (List UInt8 × JsonValue δ)} {ts us h : List Token} {st : Status}

/-- How a call on the text of `v` ends, by the state of the scan behind it. -/
inductive ValueRun (convert : List UInt8 → δ) (v : JsonValue δ) (ts : List Token)
    (rest : List UInt8) : Status → Prop where
  | clean : Parses convert (textOf ts ++ rest) (.ok v rest) → ValueRun convert v ts rest .clean
  | string (parts : List StringPart) : ts = [.string parts] →
      Parses convert (textOf ts ++ rest) (.ok v (rest.drop 1)) → ValueRun convert v ts rest .string
  | opened {k : Container} {ms : List (List UInt8 × JsonValue δ)} : v = k.value ms →
      (∀ s, separator rest = .ok () s → ∀ x, Parses convert (textOf ts ++ rest) x ↔
      Loops convert k s ms x) → ValueRun convert v ts rest (.opened k)
  | broken : (∀ e, ¬ Parses convert (textOf ts ++ rest) (.ok v e)) →
    ValueRun convert v ts rest .broken

/-- The same for a loop that has the members `acc` and comes to the text of `ms`. -/
inductive MembersRun (convert : List UInt8 → δ) (k : Container)
    (acc ms : List (List UInt8 × JsonValue δ)) (p rest : List UInt8) : Status → Prop where
  | clean : Loops convert k p acc (.ok (k.value (acc ++ ms)) rest) →
    MembersRun convert k acc ms p rest .clean
  | opened : (∀ s, separator rest = .ok () s →
      ∀ x, Loops convert k p acc x ↔ Loops convert k s (acc ++ ms) x) →
      MembersRun convert k acc ms p rest (.opened k)
  | broken : (∀ e, ¬ Loops convert k p acc (.ok (k.value (acc ++ ms)) e)) →
      MembersRun convert k acc ms p rest .broken

theorem value_members {ms' : List (List UInt8 × JsonValue δ)} (heq : k.value ms = k.value ms') :
    ms.map Prod.snd = ms'.map Prod.snd := by
  cases k with
  | array => exact JsonValue.array.inj heq
  | object => exact congrArg (List.map Prod.snd) (JsonValue.object.inj heq)

theorem value_member_eq {m m' : List UInt8 × JsonValue δ}
    {more more' : List (List UInt8 × JsonValue δ)}
    (heq : k.value (acc ++ m :: more) = k.value (acc ++ m' :: more')) : m.2 = m'.2 := by
  have hmap := value_members heq
  rw [List.map_append, List.map_append, List.append_cancel_left_eq, List.map_cons,
    List.map_cons] at hmap
  exact (List.cons.inj hmap).1

theorem value_more_ne {m : List UInt8 × JsonValue δ} {more : List (List UInt8 × JsonValue δ)} :
    k.value acc ≠ k.value (acc ++ m :: more) := by
  intro heq
  have hlen := congrArg List.length (value_members heq)
  simp at hlen

/-- No loop stops where a value begins. -/
theorem Starts.inside (starts : Starts p) : ∃ c q, p = c :: q ∧ c ≠ 0 ∧ ∀ k :
    Container, c ≠ k.closeByte := by
  obtain ⟨c, q, rfl, _, hzero, _, hbracket, hbrace⟩ := starts
  refine ⟨c, q, rfl, hzero, fun k => ?_⟩
  cases k with
  | array => exact hbracket
  | object => exact hbrace

/-- A loop that is neither at the end nor at its bracket reads one more member. -/
theorem loops_grow (starts : Starts p) {w : JsonValue δ} {e : List UInt8}
    (hloop : Loops convert k p acc (.ok w e)) :
    ∃ member q more, Turn convert k acc.length p (.ok member q) ∧
    w = k.value (acc ++ member :: more) := by
  obtain ⟨c, r, rfl, hzero, hclose⟩ := starts.inside
  obtain ⟨z, hturn, hrest⟩ := (loops_iff hzero (hclose k)).mp hloop
  rcases hrest with ⟨member, q, rfl, hloop⟩ | ⟨_, heq⟩ | ⟨_, heq⟩ | ⟨_, heq⟩
  · obtain ⟨more, hmore⟩ := loops_ok_extends hloop
    exact ⟨member, q, more, hturn, by rw [hmore, List.append_assoc, List.singleton_append]⟩
  all_goals cases heq

theorem header_starts (header : Header k key h) (starts : Starts p) : Starts (textOf h ++ p) := by
  cases header with
  | array => exact starts
  | object parts w w' => exact quote_starts _

theorem loops_member (header : Header k key h) (starts : Starts p) {r s : List UInt8}
    (hvalue : Parses convert p (.ok v r)) (hsep : separator r = .ok () s)
    (room : acc.length + 1 ≤ intMax) (x : Result (JsonValue δ)) :
    Loops convert k (textOf h ++ p) acc x ↔ Loops convert k s (acc ++ [(key, v)]) x := by
  have hheader := memberHeader_text header starts
  obtain ⟨c, q, hp, hzero, hclose⟩ := (header_starts header starts).inside
  rw [hp] at hheader ⊢
  exact loops_turn_iff hzero (hclose k) (turn_ok_iff.mpr ⟨p, r, hheader, hvalue, room, hsep⟩)

/-- A member that is read as something else spoils the whole. -/
theorem loops_wrong (header : Header k key h) (starts : Starts p)
    (wrong : ∀ e, ¬ Parses convert p (.ok v e)) (more : List (List UInt8 × JsonValue δ))
    (e : List UInt8) :
    ¬ Loops convert k (textOf h ++ p) acc (.ok (k.value (acc ++ (key, v) :: more)) e) := by
  intro hloop
  obtain ⟨member, q, more', hturn, heq⟩ := loops_grow (header_starts header starts) hloop
  obtain ⟨q', r, hheader, hvalue, _⟩ := turn_ok_iff.mp hturn
  rw [memberHeader_text header starts] at hheader
  cases hheader
  have hsame := value_member_eq heq
  simp only at hsame
  rw [← hsame] at hvalue
  exact wrong r hvalue

/-- A bracket of the other kind ends the whole parse. -/
theorem loops_otherClose {k' : Container} (hk : k' ≠ k) (p : List UInt8) :
    Loops convert k (k'.closeByte :: p) acc (.null none) := by
  cases k with
  | array =>
    cases k' with
    | array => exact absurd rfl hk
    | object => exact loops_null (by decide) (by decide) (e := none) ⟨1, rfl⟩
  | object =>
    cases k' with
    | array => exact loops_null (by decide) (by decide) (e := none) ⟨1, rfl⟩
    | object => exact absurd rfl hk

theorem fits_value_iff : Fits (k.value ms) ↔ ms.length ≤ intMax ∧ ∀ m ∈ ms, Fits m.2 := by
  cases k with
  | array =>
    constructor
    · intro hfits
      cases hfits with
      | array hlen hitems =>
        exact ⟨by rwa [List.length_map] at hlen, fun m hm => hitems _ (List.mem_map_of_mem hm)⟩
    · rintro ⟨hlen, hmembers⟩
      refine Fits.array (by rwa [List.length_map]) (fun w hw => ?_)
      obtain ⟨m, hm, rfl⟩ := List.mem_map.mp hw
      exact hmembers m hm
  | object =>
    constructor
    · intro hfits
      cases hfits with
      | object hlen hmembers => exact ⟨hlen, hmembers⟩
    · rintro ⟨hlen, hmembers⟩
      exact Fits.object hlen hmembers

/-- The call on an opening bracket is the loop over the members. -/
theorem parses_box (k : Container) (w : List Space) (hskip : skipWs p = p)
    (x : Result (JsonValue δ)) :
    Parses convert (k.openByte :: (textOf (spaces w) ++ p)) x ↔ Loops convert k p [] x := by
  obtain ⟨c, q, hc, hws, _⟩ := openByte_starts k (textOf (spaces w) ++ p)
  have hopen : skipWs (k.openByte :: (textOf (spaces w) ++ p)) =
    k.openByte :: (textOf (spaces w) ++ p) := by
    rw [hc]
    exact skipWs_cons hws q
  have hbody : skipWs (textOf (spaces w) ++ p) = p := by rw [skipWs_spaces, hskip]
  rw [parses_open_iff hopen, hbody]

/-- The last member and the closing bracket. -/
theorem last_run (header : Header k key h) (w : List Space) (starts : Starts (textOf ts))
    (room : acc.length + 1 ≤ intMax)
    (run : ValueRun convert v ts (textOf (spaces w) ++ k.closeByte :: rest) st) :
    MembersRun convert k acc [(key, v)]
    (textOf h ++ (textOf ts ++ (textOf (spaces w) ++ k.closeByte :: rest)))
      rest ((scan st (spaces w)).next (.closeBracket k)) := by
  have hstart : Starts (textOf ts ++ (textOf (spaces w) ++ k.closeByte :: rest)) := starts.append _
  have hsep := separator_text (skipWs_close k w rest) (closeByte_facts k).2.1
  cases run with
  | clean hvalue =>
    rw [scan_clean_spaces]
    exact .clean ((loops_member header hstart hvalue hsep room _).mpr loops_close)
  | string parts hts hvalue =>
    cases w with
    | nil => exact .opened fun s hs x => loops_member header hstart hvalue hs room x
    | cons b w =>
      have hscan : scan .string (spaces (b :: w)) = .clean := scan_clean_spaces w
      have hsep := separator_text (skipWs_close k w rest) (closeByte_facts k).2.1
      rw [hscan]
      exact .clean ((loops_member header hstart hvalue hsep room _).mpr loops_close)
  | opened hv hiff =>
    next k' ms' =>
    rw [scan_opened_spaces]
    by_cases hk : k = k'
    · subst hk
      rw [Status.next, if_pos rfl]
      have hvalue := (hiff _ hsep _).mpr loops_close
      rw [← hv] at hvalue
      exact .opened fun s hs x => loops_member header hstart hvalue hs room x
    · rw [Status.next, if_neg hk]
      have hnull := (hiff _ hsep _).mpr (loops_otherClose hk rest)
      exact .broken (loops_wrong header hstart (fun e he => nomatch he.unique hnull) [])
  | broken hwrong =>
    rw [scan_broken]
    exact .broken (loops_wrong header hstart hwrong [])

theorem MembersRun.after {member : List UInt8 × JsonValue δ}
    (step : ∀ x, Loops convert k p acc x ↔ Loops convert k q (acc ++ [member]) x)
    (run : MembersRun convert k (acc ++ [member]) ms q rest st) :
    MembersRun convert k acc (member :: ms) p rest st := by
  have hassoc : acc ++ member :: ms = acc ++ [member] ++ ms := by simp
  cases run with
  | clean hloop => exact .clean ((step _).mpr (by rw [hassoc]; exact hloop))
  | opened hiff => exact .opened fun s hs x => by rw [step, hassoc, hiff s hs x]
  | broken hnot => exact .broken fun e => by rw [step, hassoc]; exact hnot e

/-- A member, a comma and the members behind it. -/
theorem more_run (header : Header k key h) (w w' : List Space) (starts : Starts (textOf ts))
    (room : acc.length + 1 ≤ intMax) {tail : List UInt8} (tailStarts : Starts tail)
    (run : ValueRun convert v ts (textOf (spaces w) ++ comma :: (textOf (spaces w') ++ tail)) st)
    (tailRun : MembersRun convert k (acc ++ [(key, v)]) ms tail rest (scan .clean us)) :
    MembersRun convert k acc ((key, v) :: ms)
      (textOf h ++ (textOf ts ++ (textOf (spaces w) ++ comma :: (textOf (spaces w') ++ tail)))) rest
      (scan (scan ((scan st (spaces w)).next .comma) (spaces w')) us) := by
  have hstart : Starts (textOf ts ++
    (textOf (spaces w) ++ comma :: (textOf (spaces w') ++ tail))) :=
    starts.append _
  have htail : skipWs (textOf (spaces w') ++ tail) = tail := by
    rw [skipWs_spaces, tailStarts.skipWs]
  have hsep : ∀ w, separator (textOf (spaces w) ++ comma :: (textOf (spaces w') ++ tail)) =
    .ok () tail := by
    intro w
    rw [separator_comma (skipWs_comma w _), htail]
  cases run with
  | clean hvalue =>
    have hscan : scan ((scan .clean (spaces w)).next .comma) (spaces w') = .clean := by
      rw [scan_clean_spaces]
      exact scan_clean_spaces w'
    rw [hscan]
    exact tailRun.after (loops_member header hstart hvalue (hsep w) room)
  | string parts hts hvalue =>
    have hscan : scan ((scan .string (spaces w)).next .comma) (spaces w') = .clean := by
      cases w with
      | nil => exact scan_clean_spaces w'
      | cons b w =>
        have hspaces : scan .string (spaces (b :: w)) = .clean := scan_clean_spaces w
        rw [hspaces]
        exact scan_clean_spaces w'
    have hbehind : separator ((textOf (spaces w) ++ comma :: (textOf (spaces w') ++ tail)).drop 1) =
        .ok () tail := by
      cases w with
      | nil =>
        -- the comma itself is the byte that is missed
        obtain ⟨c, r, hc, _, _, hcomma, _⟩ := tailStarts
        rw [hc] at htail ⊢
        exact separator_text htail hcomma
      | cons b w => exact hsep w
    rw [hscan]
    exact tailRun.after (loops_member header hstart hvalue hbehind room)
  | opened hv hiff =>
    next k' ms' =>
    have hscan : (scan (.opened k') (spaces w)).next .comma = .broken := by
      rw [scan_opened_spaces]
      rfl
    rw [hscan, scan_broken, scan_broken]
    refine .broken (loops_wrong header hstart (fun e he => ?_) ms)
    have hloop := (hiff _ (hsep w) _).mp he
    obtain ⟨_, _, _, _, hgrown⟩ := loops_grow tailStarts hloop
    exact value_more_ne (hv.symm.trans hgrown)
  | broken hwrong =>
    have hscan : (scan .broken (spaces w)).next .comma = .broken := by
      rw [scan_broken]
      rfl
    rw [hscan, scan_broken, scan_broken]
    exact .broken (loops_wrong header hstart hwrong ms)

/-- The induction over a text: how each of its values and lists of members is read. -/
theorem written_run {part : Part δ} (written : Written convert part ts) :
    match part with
    | .value v => Fits v → ∀ rest, Follow rest → ValueRun convert v ts rest (scan .clean ts)
    | .members k ms => (∀ m ∈ ms, Fits m.2) → ∀ acc rest, acc.length + ms.length ≤ intMax →
        MembersRun convert k acc ms (textOf ts ++ k.closeByte :: rest) rest
          (scan .clean (ts ++ [.closeBracket k])) := by
  induction written with
  | null => exact fun _ rest _ => .clean (parses_null rest)
  | bool b => exact fun _ rest _ => .clean (parses_bool b rest)
  | number n => exact fun _ rest follow => .clean (parses_number n follow)
  | string parts => exact fun _ rest _ => .string parts rfl (parses_string parts rest)
  | empty k w =>
    intro _ rest _
    have hscan : scan .clean (.openBracket k :: (spaces w ++ [.closeBracket k])) = .clean := by
      rw [scan_cons, scan_append]
      exact congrArg (fun s => Status.next s (.closeBracket k)) (scan_clean_spaces w)
    have htext : textOf (.openBracket k :: (spaces w ++ [.closeBracket k])) ++ rest =
        k.openByte :: (textOf (spaces w) ++ k.closeByte :: rest) := by simp [Token.text]
    rw [hscan]
    refine .clean ?_
    rw [htext, parses_box k w (skipWs_cons (closeByte_facts k).1 rest)]
    exact loops_close
  | box w hmembers ih =>
    next k ms ts =>
    intro hfits rest _
    obtain ⟨hlen, hall⟩ := fits_value_iff.mp hfits
    have hrun := ih hall [] rest (by rwa [List.length_nil, Nat.zero_add])
    have hstart : Starts (textOf ts ++ k.closeByte :: rest) := (members_start hmembers).append _
    have hscan : scan .clean (.openBracket k :: (spaces w ++ (ts ++ [.closeBracket k]))) =
        scan .clean (ts ++ [.closeBracket k]) := by
      rw [scan_cons, scan_append]
      exact congrArg (fun s => scan s (ts ++ [.closeBracket k])) (scan_clean_spaces w)
    have htext : textOf (.openBracket k :: (spaces w ++ (ts ++ [.closeBracket k]))) ++ rest =
        k.openByte :: (textOf (spaces w) ++ (textOf ts ++ k.closeByte :: rest)) := by
          simp [Token.text]
    rw [hscan]
    generalize scan .clean (ts ++ [.closeBracket k]) = st at hrun
    cases hrun with
    | clean hloop => exact .clean (by rw [htext, parses_box k w hstart.skipWs]; exact hloop)
    | opened hiff =>
      refine .opened rfl fun s hs x => ?_
      rw [htext, parses_box k w hstart.skipWs]
      exact hiff s hs x
    | broken hnot =>
      exact .broken fun e => by rw [htext, parses_box k w hstart.skipWs]; exact hnot e
  | last w header hvalue ih =>
    next k key v h ts =>
    intro hall acc rest room
    have hrun := ih (hall _ List.mem_cons_self) _ (follow_close k w rest)
    have hlast := last_run header w (value_starts hvalue) room hrun
    have hscan : scan .clean (h ++ (ts ++ spaces w) ++ [.closeBracket k]) =
        (scan (scan .clean ts) (spaces w)).next (.closeBracket k) := by
      simp [scan_header header]
    rw [hscan]
    simpa [Token.text] using hlast
  | more w w' header hvalue hmembers ih ihTail =>
    next k key v h ts ms us =>
    intro hall acc rest room
    have hroom : acc.length + 1 ≤ intMax := by
      rw [List.length_cons] at room
      omega
    have hrun := ih (hall _ List.mem_cons_self)
      (textOf (spaces w) ++ comma :: (textOf (spaces w') ++ (textOf us ++ k.closeByte :: rest)))
      (follow_comma w _)
    have htail := ihTail (fun m hm => hall m (List.mem_cons_of_mem _ hm))
      (acc ++ [(key, v)]) rest (by
      rw [List.length_append, List.length_singleton]
      rw [List.length_cons] at room
      omega)
    have hmore := more_run header w w' (value_starts hvalue) hroom
      ((members_start hmembers).append _) hrun htail
    have hscan : scan .clean (h ++ (ts ++ (spaces w ++ .comma :: (spaces w' ++ us))) ++
        [.closeBracket k]) =
        scan (scan ((scan (scan .clean ts) (spaces w)).next .comma) (spaces w'))
        (us ++ [.closeBracket k]) := by
      simp [scan_header header]
    rw [hscan]
    simpa [Token.text] using hmore

theorem leaf_fits {e : List UInt8} (hleaf : leaf convert p = .ok v e) : Fits v := by
  cases p with
  | nil => cases hleaf
  | cons c p =>
    rw [leaf] at hleaf
    split_ifs at hleaf
    · split at hleaf
      · cases hleaf
        exact .string _
      all_goals cases hleaf
    · cases hleaf
      exact .null
    · cases hleaf
      exact .bool true
    · cases hleaf
      exact .bool false
    · cases hleaf
      exact .number _

/-- A value that is returned has been counted. -/
theorem fuel_fits (convert : List UInt8 → δ) (fuel : Nat) :
    (∀ p v e, jsonParse convert fuel p = some (.ok v e) → Fits v) ∧
    ∀ k p members w e, (∀ m ∈ members, Fits m.2) → members.length ≤ intMax →
      memberLoop convert k fuel p members = some (.ok w e) → Fits w := by
  induction fuel with
  | zero =>
    refine ⟨fun p v e h => ?_, fun k p members w e _ _ h => ?_⟩
    · rw [jsonParse] at h
      cases h
    · rw [memberLoop] at h
      cases h
  | succ fuel ih =>
    obtain ⟨hparse, hloop⟩ := ih
    refine ⟨fun p v e h => ?_, fun k p members w e hall hlen h => ?_⟩
    · rcases jsonParse_ok_cases h with ⟨k, q, _, h⟩ | hleaf
      · exact hloop k _ [] _ _ (fun m hm => absurd hm List.not_mem_nil) (Nat.zero_le _) h
      · exact leaf_fits hleaf
    · rcases memberLoop_ok_cases h with ⟨rfl, _⟩ | ⟨member, q, hturn, h⟩
      · exact fits_value_iff.mpr ⟨hlen, hall⟩
      · obtain ⟨r, t, _, hvalue, hroom, _⟩ := jsonMember_ok_iff.mp hturn
        refine hloop k _ _ _ _ (fun m hm => ?_)
          (by rwa [List.length_append, List.length_singleton]) h
        rcases List.mem_append.mp hm with hm | hm
        · exact hall m hm
        · rw [List.mem_singleton.mp hm]
          exact hparse _ _ _ hvalue

theorem parses_spaces (w : List Space) (x : Result (JsonValue δ)) :
    Parses convert (textOf (spaces w) ++ p) x ↔ Parses convert p x := by
  have hskip := skipWs_spaces w p
  rcases opens_or_leaf p with ⟨k, q, hopen⟩ | hleaf
  · rw [parses_open_iff hopen, parses_open_iff (hskip.trans hopen)]
  · have hone := parses_leaf convert hleaf
    have hother : ∀ k q, skipWs (textOf (spaces w) ++ p) ≠ Container.openByte k :: q := by
      rw [hskip]
      exact hleaf
    have htwo := parses_leaf convert hother
    rw [hskip] at htwo
    exact ⟨fun h => h.unique htwo ▸ hone, fun h => h.unique hone ▸ htwo⟩

/-- A loop whose bracket is gone is done at the terminator, and only there. -/
theorem loops_rest_iff (convert : List UInt8 → δ) (k : Container)
    (ms : List (List UInt8 × JsonValue δ)) (follow : Follow rest) :
    (∀ s, separator rest = .ok () s → Loops convert k s ms (.ok (k.value ms) rest)) ↔
      rest.head? = some 0 := by
  obtain ⟨c, r, hskip, hc⟩ := follow
  constructor
  · intro hloop
    obtain ⟨s, hs⟩ := follow_separator ⟨c, r, hskip, hc⟩
    have hsame : s = rest := (separator_suffix hs).eq_of_length
      ((separator_suffix hs).length_le.antisymm (hloop s hs).suffix.length_le)
    have hend := hloop s hs
    subst hsame
    have hlen := (skipWs_suffix s).length_le
    by_cases hcomma : c = comma
    · rw [hcomma] at hskip
      rw [separator_comma hskip] at hs
      have hshort := (skipWs_suffix r).length_le
      cases hs
      rw [hskip] at hlen
      simp at hlen
      omega
    · rw [separator_text hskip hcomma] at hs
      cases hs
      have hbracket : ∀ k' : Container, c ≠ k'.closeByte := by
        rintro k' rfl
        by_cases hk : k' = k
        · subst hk
          have heq := hend.unique loops_close
          simp at heq
        · cases hend.unique (loops_otherClose hk r)
      rcases hc with hc | hc | hc | hc
      · exact absurd hc hcomma
      · exact absurd hc (hbracket .array)
      · exact absurd hc (hbracket .object)
      · rw [hc]
        rfl
  · intro hhead s hs
    cases rest with
    | nil => cases hhead
    | cons d rest =>
      cases hhead
      have hend : skipWs (0 :: rest) = 0 :: rest := skipWs_cons (by decide) rest
      rw [separator_text hend (by decide)] at hs
      cases hs
      exact loops_end

/-- `json_parse` returns the value of a text, with `*end` just behind it, if and only if the
text is not a string alone, all counts are in range, and the first closing bracket that stands
directly behind a string, if there is one, is followed by nothing but white space and brackets
of its kind up to the terminator. -/
theorem jsonParse_written_iff (written : Written convert (.value v) ts) (lead : List Space)
    (follow : Follow rest) :
    Parses convert (textOf (spaces lead) ++ (textOf ts ++ rest)) (.ok v rest) ↔
      Fits v ∧ (∀ parts, ts ≠ [.string parts]) ∧
        ∀ k after, closedBehind ts = some (k, after) → ClosesOnly k after ∧
        rest.head? = some 0 := by
  rw [parses_spaces]
  by_cases hfits : Fits v
  · have hrun : ValueRun convert v ts rest (scan .clean ts) := written_run written hfits rest follow
    generalize hst : scan .clean ts = st at hrun
    have hlone : st ≠ .string → ∀ parts, ts ≠ [.string parts] := by
      rintro hne parts rfl
      exact hne hst.symm
    cases hrun with
    | clean hvalue =>
      refine iff_of_true hvalue ⟨hfits, hlone nofun, fun k after hsome => ?_⟩
      rw [behind_of_clean hst] at hsome
      cases hsome
    | string parts hts hvalue =>
      refine iff_of_false (fun hright => ?_) (fun h => h.2.1 parts hts)
      obtain ⟨c, r, hskip, _⟩ := follow
      have heq := hright.unique hvalue
      cases rest with
      | nil => cases hskip
      | cons d rest => simp at heq
    | opened hv hiff =>
      next k ms =>
      obtain ⟨after, hsome, honly⟩ := behind_of_opened hst
      obtain ⟨s, hs⟩ := follow_separator follow
      have hrest : Loops convert k s ms (.ok v rest) ↔ rest.head? = some 0 := by
        rw [← loops_rest_iff convert k ms follow, hv]
        constructor
        · intro hloop s' hs'
          rw [hs] at hs'
          cases hs'
          exact hloop
        · exact fun hloop => hloop s hs
      rw [hiff s hs, hrest]
      constructor
      · intro hhead
        refine ⟨hfits, hlone nofun, fun k' after' hsome' => ?_⟩
        rw [hsome] at hsome'
        cases hsome'
        exact ⟨honly, hhead⟩
      · exact fun h => (h.2.2 k after hsome).2
    | broken hwrong =>
      obtain ⟨k, after, hsome, hnot⟩ := behind_of_broken hst
      exact iff_of_false (hwrong rest) fun h => hnot (h.2.2 k after hsome).1
  · refine iff_of_false (fun hvalue => ?_) (fun h => hfits h.1)
    obtain ⟨fuel, hvalue⟩ := hvalue
    exact hfits ((fuel_fits convert fuel).1 _ _ _ hvalue)

theorem value_bracket {members : List (List UInt8 × JsonValue δ)}
    (h : k.value ms = JsonValue.object members) : k = .object := by
  cases k with
  | array => cases h
  | object => rfl

/-- The last token of an object is its bracket. -/
theorem object_closes {members : List (List UInt8 × JsonValue δ)}
    (written : Written convert (.value (.object members)) ts) :
    ∃ before, ts = before ++ [.closeBracket .object] := by
  generalize hpart : Part.value (.object members) = part at written
  cases written with
  | null => cases hpart
  | bool b => cases hpart
  | number n => cases hpart
  | string parts => cases hpart
  | empty k w =>
    cases value_bracket (Part.value.inj hpart).symm
    exact ⟨.openBracket .object :: spaces w, rfl⟩
  | @box k ms ts w hmembers =>
    cases value_bracket (Part.value.inj hpart).symm
    exact ⟨.openBracket .object :: (spaces w ++ ts), by simp⟩
  | last w header hvalue => cases hpart
  | more w w' header hvalue hmembers => cases hpart

/-- Behind the last of some objects there is nothing but white space. -/
theorem members_close {part : Part δ} (written : Written convert part ts) :
    ∀ k ms, part = .members k ms → (∀ m ∈ ms, ∃ members, m.2 = .object members) →
      ∃ before w, ts = before ++ .closeBracket .object :: spaces w := by
  induction written with
  | null => exact fun _ _ hpart => nomatch hpart
  | bool b => exact fun _ _ hpart => nomatch hpart
  | number n => exact fun _ _ hpart => nomatch hpart
  | string parts => exact fun _ _ hpart => nomatch hpart
  | empty k w => exact fun _ _ hpart => nomatch hpart
  | box w hmembers ih => exact fun _ _ hpart => nomatch hpart
  | @last k key v h ts w header hvalue ih =>
    intro k' ms hpart hobjects
    cases hpart
    obtain ⟨members, hobject⟩ := hobjects _ List.mem_cons_self
    simp only at hobject
    subst hobject
    obtain ⟨before, rfl⟩ := object_closes hvalue
    exact ⟨h ++ before, w, by simp⟩
  | @more k key v h ts ms us w w' header hvalue hmembers ih ihTail =>
    intro k' ms' hpart hobjects
    cases hpart
    obtain ⟨before, w'', rfl⟩ := ihTail k ms rfl fun m hm => hobjects m (List.mem_cons_of_mem _ hm)
    exact ⟨h ++ (ts ++ (spaces w ++ .comma :: (spaces w' ++ before))), w'', by simp⟩

/-- Behind a closing brace the scan is never left in an array. -/
theorem scan_brace_bracket (st : Status) (w : List Space) :
    (scan (st.next (.closeBracket .object)) (spaces w)).next (.closeBracket .array) = .clean ∨
      (scan (st.next (.closeBracket .object)) (spaces w)).next
      (.closeBracket .array) = .broken := by
  have hclean : (scan .clean (spaces w)).next (.closeBracket .array) = .clean := by
    rw [scan_clean_spaces]
    rfl
  have hopened : (scan (.opened .object) (spaces w)).next (.closeBracket .array) = .broken := by
    rw [scan_opened_spaces]
    rfl
  have hbroken : (scan .broken (spaces w)).next (.closeBracket .array) = .broken := by
    rw [scan_broken]
    rfl
  cases st with
  | clean => exact Or.inl hclean
  | string => exact Or.inr hopened
  | opened k =>
    cases k with
    | array => exact Or.inr hbroken
    | object => exact Or.inr hopened
  | broken => exact Or.inr hbroken

/-- An array of objects is read to its end or as something else. -/
theorem objects_scan {items : List (JsonValue δ)}
    (written : Written convert (.value (.array items)) ts)
    (hobjects : ∀ v ∈ items, ∃ members, v = .object members) :
    scan .clean ts = .clean ∨ scan .clean ts = .broken := by
  generalize hpart : Part.value (.array items) = part at written
  cases written with
  | null => cases hpart
  | bool b => cases hpart
  | number n => cases hpart
  | string parts => cases hpart
  | empty k w =>
    refine Or.inl ?_
    rw [scan_cons, scan_append]
    exact congrArg (fun s => Status.next s (.closeBracket k)) (scan_clean_spaces w)
  | @box k ms ts w hmembers =>
    cases k with
    | object => cases hpart
    | array =>
      have hitems : items = ms.map Prod.snd := JsonValue.array.inj (Part.value.inj hpart)
      subst hitems
      obtain ⟨before, w', rfl⟩ := members_close hmembers _ _ rfl fun m hm =>
        hobjects m.2 (List.mem_map_of_mem hm)
      have hscan : scan .clean (.openBracket .array ::
          (spaces w ++ (before ++ .closeBracket .object :: spaces w' ++ [.closeBracket .array]))) =
          (scan ((scan .clean before).next (.closeBracket .object)) (spaces w')).next
            (.closeBracket .array) := by
        rw [scan_cons, scan_append]
        refine (congrArg (fun s => scan s _) (scan_clean_spaces w)).trans ?_
        simp
      rw [hscan]
      exact scan_brace_bracket _ w'
  | last w header hvalue => cases hpart
  | more w w' header hvalue hmembers => cases hpart

/-- The text of an array of objects is read as this array if and only if all counts are in range
and no closing bracket stands directly behind a string value. -/
theorem jsonParse_objects_iff {items : List (JsonValue δ)}
    (written : Written convert (.value (.array items)) ts)
    (hobjects : ∀ v ∈ items, ∃ members, v = .object members) (lead : List Space)
    (follow : Follow rest) :
    (∃ endp, Parses convert (textOf (spaces lead) ++ (textOf ts ++ rest))
      (.ok (.array items) endp)) ↔ Fits (.array items) ∧ closedBehind ts = none := by
  simp only [parses_spaces]
  by_cases hfits : Fits (.array items)
  · have hrun : ValueRun convert (.array items) ts rest (scan .clean ts) :=
      written_run written hfits rest follow
    rcases objects_scan written hobjects with hscan | hscan
    · rw [hscan] at hrun
      cases hrun with
      | clean hvalue => exact iff_of_true ⟨rest, hvalue⟩ ⟨hfits, behind_of_clean hscan⟩
    · rw [hscan] at hrun
      obtain ⟨k, after, hsome, _⟩ := behind_of_broken hscan
      cases hrun with
      | broken hwrong =>
        refine iff_of_false (fun ⟨endp, hvalue⟩ => hwrong endp hvalue) fun ⟨_, hnone⟩ => ?_
        rw [hsome] at hnone
        cases hnone
  · refine iff_of_false (fun ⟨endp, fuel, hvalue⟩ => ?_) fun h => hfits h.1
    exact hfits ((fuel_fits convert fuel).1 _ _ _ hvalue)

end Runs

/-- `"a"`. -/
def partsA : List StringPart := [.byte 97 (by decide)]
/-- `"b"`. -/
def partsB : List StringPart := [.byte 98 (by decide)]

/-- `[["a"]]`. -/
def nestedText : List Token :=
  [.openBracket .array, .openBracket .array, .string partsA, .closeBracket .array,
    .closeBracket .array]

theorem nestedText_written :
    Written id (.value (.array [.array [.string [97]]])) nestedText := by
  have inner := Written.box [] (Written.last [] Header.array (@Written.string _ id partsA))
  exact Written.box [] (Written.last [] Header.array inner)

/-- The brackets that are left close everything. -/
theorem nestedText_read :
    Parses id (textOf (spaces [⟨32, by decide⟩]) ++ (textOf nestedText ++ [0]))
      (.ok (.array [.array [.string [97]]]) [0]) := by
  refine (jsonParse_written_iff nestedText_written [⟨32, by decide⟩] ⟨0, [], rfl, by decide⟩).mpr
    ⟨?_, fun _ => nofun, fun k after h => ?_⟩
  · refine .array (by decide) (fun v hv => ?_)
    rw [List.mem_singleton.mp hv]
    refine .array (by decide) (fun w hw => ?_)
    rw [List.mem_singleton.mp hw]
    exact .string [97]
  · cases h
    exact ⟨fun t ht => Or.inl (List.mem_singleton.mp ht), rfl⟩

/-- `{"a":["a"],"b":"b"}`. -/
def compactText : List Token :=
  [.openBracket .object, .string partsA, .colon, .openBracket .array, .string partsA,
    .closeBracket .array, .comma, .string partsB, .colon, .string partsB, .closeBracket .object]

def compactValue : JsonValue (List UInt8) :=
  .object [([97], .array [.string [97]]), ([98], .string [98])]

/-- The array swallows the second member of the object, key and all. -/
theorem compactText_misread :
    Written id (.value compactValue) compactText ∧
    Parses id (textOf compactText ++ [0])
      (.ok (.object [([97], .array [.string [97], .string [98], .string [98]])]) [0]) ∧
    ¬ Parses id (textOf compactText ++ [0]) (.ok compactValue [0]) := by
  have hread : Parses id (textOf compactText ++ [0])
      (.ok (.object [([97], .array [.string [97], .string [98], .string [98]])]) [0]) := ⟨10, rfl⟩
  refine ⟨?_, hread, fun h => nomatch h.unique hread⟩
  have array := Written.box [] (Written.last [] Header.array (@Written.string _ id partsA))
  have second := Written.last [] (Header.object partsB [] []) (@Written.string _ id partsB)
  exact Written.box [] (Written.more [] [] (Header.object partsA [] []) array second)

end MovieCatalog
