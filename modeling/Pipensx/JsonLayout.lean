import Pipensx.JsonParser

/-!
# JSON texts and the values they name

A JSON text is a list of tokens, white space among them. The parser steps one byte too far
behind a string value. White space or a comma is not missed there, a closing bracket is: the
loop goes on in what follows, and that it gives the right value then depends on nothing but
closing brackets of the same kind being left.
-/

namespace MovieCatalog

open CText (minus isDigit strtod)

variable {δ : Type}

/-- A decimal constant without superfluous zeros in front. -/
structure NumberText extends CText.Decimal where
  plain : int.head? = some CText.zero → int = [CText.zero]

inductive Escape where
  | quote
  | backslash
  | slash
  | newline
  | tab
  | carriageReturn

def Escape.letter : Escape → UInt8
  | .quote => MovieCatalog.quote
  | .backslash => MovieCatalog.backslash
  | .slash => 47
  | .newline => letterN
  | .tab => letterT
  | .carriageReturn => letterR

def Escape.value : Escape → UInt8
  | .quote => MovieCatalog.quote
  | .backslash => MovieCatalog.backslash
  | .slash => 47
  | .newline => 10
  | .tab => 9
  | .carriageReturn => 13

inductive StringPart where
  | byte (b : UInt8) (plain : b ≠ 0 ∧ b ≠ quote ∧ b ≠ backslash)
  | escape (e : Escape)

def StringPart.text : StringPart → List UInt8
  | .byte b _ => [b]
  | .escape e => [backslash, e.letter]

def StringPart.value : StringPart → UInt8
  | .byte b _ => b
  | .escape e => e.value

abbrev Space := { b : UInt8 // isWs b = true }

inductive Token where
  | space (b : Space)
  | null
  | bool (b : Bool)
  | number (n : NumberText)
  | string (parts : List StringPart)
  | openBracket (k : Container)
  | closeBracket (k : Container)
  | comma
  | colon

def rawText (parts : List StringPart) : List UInt8 := parts.flatMap StringPart.text

def decoded (parts : List StringPart) : List UInt8 := parts.map StringPart.value

def Token.text : Token → List UInt8
  | .space b => [b.val]
  | .null => [110, 117, 108, 108]
  | .bool true => [116, 114, 117, 101]
  | .bool false => [102, 97, 108, 115, 101]
  | .number n => n.text
  | .string parts => MovieCatalog.quote :: (rawText parts ++ [MovieCatalog.quote])
  | .openBracket k => [k.openByte]
  | .closeBracket k => [k.closeByte]
  | .comma => [MovieCatalog.comma]
  | .colon => [MovieCatalog.colon]

def textOf (ts : List Token) : List UInt8 := ts.flatMap Token.text

def spaces (w : List Space) : List Token := w.map Token.space

/-- A value, or the members of an array or an object, in which an array has no keys. -/
inductive Part (δ : Type) where
  | value (v : JsonValue δ)
  | members (k : Container) (ms : List (List UInt8 × JsonValue δ))

inductive Header : Container → List UInt8 → List Token → Prop where
  | array : Header .array [] []
  | object (parts : List StringPart) (w w' : List Space) :
      Header .object (decoded parts) (.string parts :: (spaces w ++ .colon :: spaces w'))

/-- The tokens of a value and of the members between two brackets. -/
inductive Written (convert : List UInt8 → δ) : Part δ → List Token → Prop where
  | null : Written convert (.value .null) [.null]
  | bool (b : Bool) : Written convert (.value (.bool b)) [.bool b]
  | number (n : NumberText) : Written convert (.value (.number (convert n.text))) [.number n]
  | string (parts : List StringPart) : Written convert (.value (.string (decoded parts)))
    [.string parts]
  | empty (k : Container) (w : List Space) :
      Written convert (.value (k.value [])) (.openBracket k :: (spaces w ++ [.closeBracket k]))
  | box {k : Container} {ms ts} (w : List Space) : Written convert (.members k ms) ts →
      Written convert (.value (k.value ms))
      (.openBracket k :: (spaces w ++ (ts ++ [.closeBracket k])))
  | last {k : Container} {key v h ts} (w : List Space) : Header k key h →
      Written convert (.value v) ts →
      Written convert (.members k [(key, v)]) (h ++ (ts ++ spaces w))
  | more {k : Container} {key v h ts ms us} (w w' : List Space) : Header k key h →
      Written convert (.value v) ts → Written convert (.members k ms) us →
      Written convert (.members k ((key, v) :: ms))
      (h ++ (ts ++ (spaces w ++ .comma :: (spaces w' ++ us))))

/-- No array and no object has more members than an `int` can count. -/
inductive Fits : JsonValue δ → Prop where
  | null : Fits .null
  | bool (b : Bool) : Fits (.bool b)
  | number (d : δ) : Fits (.number d)
  | string (str : List UInt8) : Fits (.string str)
  | array {items : List (JsonValue δ)} : items.length ≤ intMax → (∀ v ∈ items, Fits v) →
    Fits (.array items)
  | object {members : List (List UInt8 × JsonValue δ)} : members.length ≤ intMax →
      (∀ m ∈ members, Fits m.2) → Fits (.object members)

/-- The first bracket that closes directly behind a string, and what comes after it. -/
def closedBehind : List Token → Option (Container × List Token)
  | .string _ :: .closeBracket k :: after => some (k, after)
  | _ :: ts => closedBehind ts
  | [] => none

def ClosesOnly (k : Container) (after : List Token) : Prop :=
  ∀ t ∈ after, t = .closeBracket k ∨ ∃ b, t = .space b

/-- What may follow a value: white space, then a comma, a closing bracket or the terminator. -/
def Follow (rest : List UInt8) : Prop :=
  ∃ c r, skipWs rest = c :: r ∧ (c = comma ∨ c = closeBracket ∨ c = closeBrace ∨ c = 0)

section Reading

variable {convert : List UInt8 → δ} {k : Container} {key p q rest : List UInt8} {v : JsonValue δ}
  {ms : List (List UInt8 × JsonValue δ)} {ts us : List Token}

@[simp] theorem textOf_nil : textOf [] = [] := rfl

@[simp] theorem textOf_cons (t : Token) (ts : List Token) :
    textOf (t :: ts) = t.text ++ textOf ts := rfl

@[simp] theorem textOf_append (ts us : List Token) : textOf (ts ++ us) = textOf ts ++ textOf us :=
  List.flatMap_append

@[simp] theorem spaces_nil : spaces [] = [] := rfl

theorem skipWs_spaces (w : List Space) (p : List UInt8) :
    skipWs (textOf (spaces w) ++ p) = skipWs p := by
  induction w with
  | nil => rfl
  | cons b w ih =>
    have hstep : skipWs (b.val :: (textOf (spaces w) ++ p)) = skipWs (textOf (spaces w) ++ p) := by
      rw [skipWs, List.dropWhile_cons, b.property, if_pos rfl]
      rfl
    exact hstep.trans ih

theorem skipWs_cons {c : UInt8} (hc : isWs c = false) (p : List UInt8) :
    skipWs (c :: p) = c :: p := by
  rw [skipWs, List.dropWhile_cons, hc, if_neg Bool.false_ne_true]

/-- How the text of a value begins. -/
def Starts (p : List UInt8) : Prop :=
  ∃ c q, p = c :: q ∧ isWs c = false ∧ c ≠ 0 ∧ c ≠ comma ∧ c ≠ closeBracket ∧ c ≠ closeBrace

theorem Starts.skipWs (h : Starts p) : skipWs p = p := by
  obtain ⟨c, q, rfl, hws, _⟩ := h
  exact skipWs_cons hws q

theorem Starts.append (h : Starts p) (q : List UInt8) : Starts (p ++ q) := by
  obtain ⟨c, r, rfl, hc⟩ := h
  exact ⟨c, r ++ q, rfl, hc⟩

theorem number_starts (n : NumberText) :
    ∃ c q, n.text = c :: q ∧ (c = minus ∨ isDigit c = true) := by
  obtain ⟨b, ds, hint⟩ := List.exists_cons_of_ne_nil n.int_some
  have hdigit : isDigit b = true := n.int_digits b (by simp [hint])
  rcases n.sign_form with hsign | hsign
  · exact ⟨b, ds ++ n.frac ++ n.exp, by simp [CText.Decimal.text, hsign, hint], Or.inr hdigit⟩
  · exact ⟨minus, n.int ++ n.frac ++ n.exp, by simp [CText.Decimal.text, hsign], Or.inl rfl⟩

theorem numberByte_facts {c : UInt8} (hc : c = minus ∨ isDigit c = true) :
    isWs c = false ∧ c ≠ 0 ∧ c ≠ quote ∧ c ≠ openBrace ∧ c ≠ openBracket ∧
      c ≠ letterN ∧ c ≠ letterT ∧ c ≠ letterF ∧ c ≠ comma ∧ c ≠ closeBracket ∧ c ≠ closeBrace := by
  revert hc
  induction c using CText.forall_byte with
  | small n =>
    revert n
    decide +kernel

theorem openByte_starts (k : Container) (p : List UInt8) : Starts (k.openByte :: p) := by
  refine ⟨_, p, rfl, ?_⟩
  cases k <;> decide

theorem quote_starts (p : List UInt8) : Starts (quote :: p) := ⟨quote, p, rfl, by decide⟩

theorem value_starts (h : Written convert (.value v) ts) : Starts (textOf ts) := by
  cases h with
  | null => exact ⟨110, [117, 108, 108], rfl, by decide⟩
  | bool b =>
    cases b with
    | true => exact ⟨116, [114, 117, 101], rfl, by decide⟩
    | false => exact ⟨102, [97, 108, 115, 101], rfl, by decide⟩
  | number n =>
    obtain ⟨c, q, htext, hc⟩ := number_starts n
    obtain ⟨hws, hzero, _, _, _, _, _, _, hcomma, hbracket, hbrace⟩ := numberByte_facts hc
    have htokens : textOf [Token.number n] = c :: q := by
      rw [textOf_cons, textOf_nil, List.append_nil]
      exact htext
    exact ⟨c, q, htokens, hws, hzero, hcomma, hbracket, hbrace⟩
  | string parts => exact (quote_starts _).append _
  | empty k w => exact openByte_starts k _
  | box w h => exact openByte_starts _ _

theorem members_start (h : Written convert (.members k ms) ts) : Starts (textOf ts) := by
  have hmember : ∀ {key h us v}, Header k key h → Written convert (.value v) us →
      Starts (textOf h ++ textOf us) := by
    intro key h us v hheader hvalue
    cases hheader with
    | array => exact value_starts hvalue
    | object parts w w' => exact quote_starts _
  cases h with
  | last w hheader hvalue =>
    rw [textOf_append, textOf_append, ← List.append_assoc]
    exact (hmember hheader hvalue).append _
  | more w w' hheader hvalue _ =>
    rw [textOf_append, textOf_append, ← List.append_assoc]
    exact (hmember hheader hvalue).append _

theorem measureLoop_text (parts : List StringPart) (len : Nat) (rest : List UInt8) :
    measureLoop (rawText parts ++ quote :: rest) len =
      .ok (len + (rawText parts).length) (quote :: rest) := by
  induction parts generalizing len with
  | nil =>
    rw [rawText, List.flatMap_nil, List.nil_append, measureLoop.eq_def]
    rfl
  | cons part parts ih =>
    cases part with
    | byte b plain =>
      have hstep : measureLoop (b :: (rawText parts ++ quote :: rest)) len =
          measureLoop (rawText parts ++ quote :: rest) (len + 1) := by
        rw [measureLoop.eq_def]
        simp only
        rw [if_neg plain.1, if_neg plain.2.1, if_neg plain.2.2]
      have hlen : len + (rawText (.byte b plain :: parts)).length =
        len + 1 + (rawText parts).length := by
        simp only [rawText, List.flatMap_cons, StringPart.text, List.length_append,
          List.length_singleton]
        omega
      rw [hlen, ← ih, ← hstep]
      rfl
    | escape e =>
      have hletter : e.letter ≠ 0 := by cases e <;> decide
      have hstep : measureLoop (backslash :: e.letter :: (rawText parts ++ quote :: rest)) len =
          measureLoop (rawText parts ++ quote :: rest) (len + 2) := by
        rw [measureLoop, if_neg (by decide), if_neg (by decide), if_pos rfl, if_neg hletter]
      have hlen : len + (rawText (.escape e :: parts)).length =
        len + 2 + (rawText parts).length := by
        simp only [rawText, List.flatMap_cons, StringPart.text, List.length_append,
          List.length_cons, List.length_nil]
        omega
      rw [hlen, ← ih, ← hstep]
      rfl

theorem unescape_letter (e : Escape) : unescape e.letter = e.value := by cases e <;> decide

theorem copyLoop_text (parts : List StringPart) (out rest : List UInt8) :
    copyLoop (rawText parts ++ quote :: rest) (rawText parts).length out =
      .ok (out ++ decoded parts) (quote :: rest) := by
  induction parts generalizing out with
  | nil =>
    rw [decoded, List.map_nil, List.append_nil, rawText, List.flatMap_nil, List.nil_append,
      copyLoop.eq_def]
    rfl
  | cons part parts ih =>
    have hdecoded : out ++ decoded (part :: parts) = out ++ [part.value] ++ decoded parts := by
      simp [decoded]
    rw [hdecoded, ← ih]
    cases part with
    | byte b plain =>
      have hlen : (rawText (.byte b plain :: parts)).length = (rawText parts).length + 1 := by
        simp [rawText, StringPart.text, Nat.add_comm]
      have hstep : copyLoop (b :: (rawText parts ++ quote :: rest))
          ((rawText parts).length + 1) out =
          copyLoop (rawText parts ++ quote :: rest) (rawText parts).length (out ++ [b]) := by
        rw [copyLoop.eq_def]
        simp only
        rw [if_neg (Nat.succ_ne_zero _), if_neg (fun h => plain.2.2 h.1), Nat.add_sub_cancel]
      rw [hlen]
      exact hstep
    | escape e =>
      have hletter : e.letter ≠ 0 := by cases e <;> decide
      have hlen : (rawText (.escape e :: parts)).length = (rawText parts).length + 1 + 1 := by
        simp only [rawText, List.flatMap_cons, StringPart.text, List.length_append,
          List.length_cons, List.length_nil]
        omega
      have hstep : copyLoop (backslash :: e.letter :: (rawText parts ++ quote :: rest))
          ((rawText parts).length + 1 + 1) out =
          copyLoop (rawText parts ++ quote :: rest) (rawText parts).length (out ++ [e.value]) := by
        have hsome : (e.letter :: (rawText parts ++ quote :: rest)).head? ≠ some 0 :=
          fun h => hletter (Option.some.inj h)
        rw [copyLoop, if_neg (Nat.succ_ne_zero _), if_pos ⟨rfl, hsome⟩, unescape_letter]
        rfl
      rw [hlen]
      exact hstep

/-- `parse_json_string` decodes a string and leaves what is behind its closing quote. -/
theorem parseJsonString_text (parts : List StringPart) (rest : List UInt8) :
    parseJsonString (textOf [.string parts] ++ rest) = .ok (decoded parts) rest := by
  have htext : textOf [.string parts] ++ rest = quote :: (rawText parts ++ quote :: rest) := by
    simp [Token.text]
  have hcopy := copyLoop_text parts [] rest
  rw [htext, parseJsonString, if_pos rfl, measureLoop_text, Nat.zero_add]
  simp only
  rw [hcopy]
  rfl

theorem leaf_starts (convert : List UInt8 → δ) {c : UInt8} (hws : isWs c = false)
    (hbrace : c ≠ openBrace) (hbracket : c ≠ openBracket) (p : List UInt8) :
    Parses convert (c :: p) (leaf convert (c :: p)) := by
  have hleaf : ∀ k q, skipWs (c :: p) ≠ Container.openByte k :: q := by
    intro k q hkq
    rw [skipWs_cons hws] at hkq
    have hc := (List.cons.inj hkq).1
    cases k with
    | array => exact hbracket hc
    | object => exact hbrace hc
  have hparse := parses_leaf convert hleaf
  rwa [skipWs_cons hws] at hparse

theorem parses_null (rest : List UInt8) :
    Parses convert (textOf [.null] ++ rest) (.ok .null rest) :=
  leaf_starts convert (c := 110) (by decide) (by decide) (by decide) (117 :: 108 :: 108 :: rest)

theorem parses_bool (b : Bool) (rest : List UInt8) :
    Parses convert (textOf [.bool b] ++ rest) (.ok (.bool b) rest) := by
  cases b with
  | true =>
    exact leaf_starts convert (c := 116) (by decide) (by decide) (by decide)
      (114 :: 117 :: 101 :: rest)
  | false =>
    exact leaf_starts convert (c := 102) (by decide) (by decide) (by decide)
      (97 :: 108 :: 115 :: 101 :: rest)

theorem ends_of_follow (follow : Follow rest) : CText.Ends rest := by
  obtain ⟨c, r, hskip, hc⟩ := follow
  have hhead : ∀ d, (isWs d = true ∨ d = comma ∨ d = closeBracket ∨ d = closeBrace ∨ d = 0) →
      isDigit d = false ∧ d ≠ CText.point ∧ CText.toLower d ≠ CText.letterE ∧
        CText.toLower d ≠ CText.letterX := by
    intro d
    induction d using CText.forall_byte with
    | small n =>
      revert n
      decide +kernel
  intro d hd
  refine hhead d ?_
  cases rest with
  | nil => cases hd
  | cons e rest =>
    cases hd
    by_cases hws : isWs d = true
    · exact Or.inl hws
    · rw [skipWs_cons (Bool.eq_false_iff.mpr hws)] at hskip
      rw [(List.cons.inj hskip).1]
      exact Or.inr hc

theorem parses_number (n : NumberText) (follow : Follow rest) :
    Parses convert (textOf [.number n] ++ rest) (.ok (.number (convert n.text)) rest) := by
  have hstrtod := CText.strtod_text n.toDecimal (ends_of_follow follow)
  have htext : textOf [.number n] ++ rest = n.text ++ rest := by simp [Token.text]
  have htake : (n.text ++ rest).take ((n.text ++ rest).length - rest.length) = n.text := by
    rw [List.length_append, Nat.add_sub_cancel, List.take_left]
  obtain ⟨c, q, hnumber, hc⟩ := number_starts n
  obtain ⟨hws, hzero, hquote, hbrace, hbracket, hn, ht, hf, _⟩ := numberByte_facts hc
  have hparse := leaf_starts convert hws hbrace hbracket (q ++ rest)
  have hleaf : leaf convert (c :: (q ++ rest)) = .ok (.number (convert n.text)) rest := by
    rw [leaf, if_neg hzero, if_neg hquote, if_neg hn, if_neg ht, if_neg hf, if_pos hc,
      parseJsonNumber, ← List.cons_append, ← hnumber, hstrtod, htake]
  rw [hleaf, ← List.cons_append, ← hnumber] at hparse
  rw [htext]
  exact hparse

/-- Behind a string value the cursor stands one byte too far. -/
theorem parses_string (parts : List StringPart) (rest : List UInt8) :
    Parses convert (textOf [.string parts] ++ rest)
    (.ok (.string (decoded parts)) (rest.drop 1)) := by
  have hstring := parseJsonString_text parts rest
  have hparse := leaf_starts convert (c := quote) (by decide) (by decide) (by decide)
    (rawText parts ++ [quote] ++ rest)
  have htext : textOf [.string parts] ++ rest = quote :: (rawText parts ++ [quote] ++ rest) := by
    simp [Token.text]
  rw [htext] at hstring ⊢
  rw [leaf, if_neg (by decide), if_pos rfl, hstring] at hparse
  exact hparse

theorem memberHeader_text {h : List Token} (header : Header k key h) (starts : Starts p) :
    memberHeader k (textOf h ++ p) = .ok key p := by
  cases header with
  | array => rfl
  | object parts w w' =>
    have hstring := parseJsonString_text parts (textOf (spaces w ++ .colon :: spaces w') ++ p)
    have hcolon : skipWs (textOf (spaces w ++ .colon :: spaces w') ++ p) =
        colon :: (textOf (spaces w') ++ p) := by
      rw [textOf_append, List.append_assoc, skipWs_spaces]
      exact skipWs_cons (by decide) _
    have hsplit : textOf (.string parts :: (spaces w ++ .colon :: spaces w')) ++ p =
        textOf [.string parts] ++ (textOf (spaces w ++ .colon :: spaces w') ++ p) := by simp
    rw [hsplit, memberHeader, hstring]
    simp only
    rw [hcolon]
    simp only [if_true]
    rw [skipWs_spaces, starts.skipWs]

theorem separator_text {c : UInt8} {r : List UInt8} (hskip : skipWs p = c :: r) (hc : c ≠ comma) :
    separator p = .ok () (c :: r) := by
  rw [separator, hskip]
  simp only
  rw [if_neg hc]

theorem separator_comma (hskip : skipWs p = comma :: q) : separator p = .ok () (skipWs q) := by
  rw [separator, hskip]
  rfl

theorem closeByte_facts (k : Container) : isWs k.closeByte = false ∧ k.closeByte ≠ comma ∧
    (k.closeByte = comma ∨ k.closeByte = closeBracket ∨ k.closeByte = closeBrace ∨
      k.closeByte = 0) := by
  cases k <;> decide

theorem skipWs_close (k : Container) (w : List Space) (rest : List UInt8) :
    skipWs (textOf (spaces w) ++ k.closeByte :: rest) = k.closeByte :: rest := by
  rw [skipWs_spaces, skipWs_cons (closeByte_facts k).1]

theorem follow_close (k : Container) (w : List Space) (rest : List UInt8) :
    Follow (textOf (spaces w) ++ k.closeByte :: rest) :=
  ⟨_, _, skipWs_close k w rest, (closeByte_facts k).2.2⟩

theorem skipWs_comma (w : List Space) (rest : List UInt8) :
    skipWs (textOf (spaces w) ++ comma :: rest) = comma :: rest := by
  rw [skipWs_spaces, skipWs_cons (by decide)]

theorem follow_comma (w : List Space) (rest : List UInt8) :
    Follow (textOf (spaces w) ++ comma :: rest) :=
  ⟨_, _, skipWs_comma w rest, Or.inl rfl⟩

theorem follow_separator (follow : Follow rest) : ∃ s, separator rest = .ok () s := by
  obtain ⟨c, r, hskip, _⟩ := follow
  rw [separator, hskip]
  exact ⟨_, rfl⟩

end Reading

end MovieCatalog
