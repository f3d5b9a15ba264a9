import Mathlib.Data.Fintype.Sets
import Pipensx.DhtParsing
import Pipensx.StringDict

/-!
# What stands behind a key

The words `parse_message` looks for, and what it takes from the bytes behind the first occurrence
of each.
-/

namespace Dht

open CText Occurrence

inductive Key where
  | tid
  | id
  | infoHash
  | port
  | impliedPort
  | target
  | token
  | nodes
  | nodes6
  | values
  | want
  | reply
  | error
  | query
  | ping
  | findNode
  | getPeers
  | announcePeer
  deriving DecidableEq

instance : Fintype Key where
  elems := {.tid, .id, .infoHash, .port, .impliedPort, .target, .token, .nodes, .nodes6,
    .values, .want, .reply, .error, .query, .ping, .findNode, .getPeers, .announcePeer}
  complete k := by cases k <;> decide

def Key.name : Key → String
  | .tid => "1:t"
  | .id => "2:id20:"
  | .infoHash => "9:info_hash20:"
  | .port => "4:porti"
  | .impliedPort => "12:implied_porti"
  | .target => "6:target20:"
  | .token => "5:token"
  | .nodes => "5:nodes"
  | .nodes6 => "6:nodes6"
  | .values => "6:valuesl"
  | .want => "4:wantl"
  | .reply => "1:y1:r"
  | .error => "1:y1:e"
  | .query => "1:y1:q"
  | .ping => "1:q4:ping"
  | .findNode => "1:q9:find_node"
  | .getPeers => "1:q9:get_peers"
  | .announcePeer => "1:q13:announce_peer"

def Key.word (k : Key) : List UInt8 := text k.name

/-- The words between the keys. -/
def fillers : List String :=
  ["d1:ad", "d1:rd", "d1:eli", "e", ":", "6:", "", "2:n4", "2:n6", "2:n42:n6"]

theorem find_word (k k' : Key) : find k.word k'.word = if k = k' then some 0 else none := by
  revert k k'
  decide +kernel

theorem find_filler : ∀ s ∈ fillers, ∀ k : Key, find k.word (text s) = none := by
  decide +kernel

theorem word_ne_nil (k : Key) : k.word ≠ [] := by
  revert k
  decide

section Behind

variable {k : Key} {ps : List (Piece UInt8)}

@[simp] theorem after_nil : after k.word [] = none := rfl

@[simp] theorem after_data (xs : List UInt8) :
    after k.word (.data xs :: ps) = after k.word ps := rfl

@[simp] theorem after_word (k' : Key) :
    after k.word (.lit k'.word :: ps) = if k = k' then some (.lit [] :: ps) else after
    k.word ps := by
  rw [after, find_word]
  by_cases h : k = k'
  · rw [if_pos h, if_pos h, h]
    simp
  · rw [if_neg h, if_neg h]

theorem after_filler {s : String} (h : s ∈ fillers) :
    after k.word (.lit (text s) :: ps) = after k.word ps := by
  rw [after, find_filler s h k]

/-- What is behind the first occurrence of a key. -/
def behind (buf : List UInt8) (k : Key) : Option (List UInt8) :=
  (memmem buf k.word).map fun p => buf.drop (p + k.word.length)

theorem behind_whole (h : Clear k.word ps) : behind (whole ps) k = (after k.word ps).map whole := by
  have hfind := find_whole (word_ne_nil k) h
  unfold behind memmem
  cases hafter : after k.word ps with
  | none =>
    rw [hafter] at hfind
    rw [hfind]
    rfl
  | some rest =>
    rw [hafter] at hfind
    obtain ⟨p, hp, hdrop⟩ := hfind
    rw [hp, Option.map_some, Option.map_some, hdrop]

end Behind

section Reading

variable {buf rest : List UInt8} {i : Nat}

theorem byteAt_of_drop {c : UInt8} (h : buf.drop i = c :: rest) : byteAt buf i = .next c := by
  have hlt : i < buf.length := by
    have hlength := congrArg List.length h
    simp only [List.length_drop, List.length_cons] at hlength
    omega
  have hget : (buf ++ [0])[i]? = some c := by
    rw [List.getElem?_append_left hlt, ← Nat.add_zero i, ← List.getElem?_drop, h]
    rfl
  rw [byteAt, hget]

theorem take_of_drop {bytes : List UInt8} (off size : Nat) (h : buf.drop i = bytes ++ rest)
    (hle : i ≤ buf.length) (hsize : off + bytes.length ≤ size) :
    take buf i bytes.length off size = .next bytes := by
  have hlength := congrArg List.length h
  simp only [List.length_drop, List.length_append] at hlength
  rw [take, if_neg (by omega),
    if_neg (by simp only [List.length_append, List.length_singleton]; omega), h,
    List.take_left]

theorem decimal_digits (n : Nat) : ∀ c ∈ decimal n, isDigit c = true := by
  intro c hc
  obtain ⟨hlow, hhigh⟩ := Bencode.decimalText_isDigit n c hc
  simp only [isDigit, Bool.and_eq_true, decide_eq_true_eq, UInt8.le_iff_toNat_le]
  exact ⟨hlow, hhigh⟩

theorem decimal_ne_nil (n : Nat) : decimal n ≠ [] := Bencode.decimalText_ne_nil n

/-- A number and what ends it. -/
theorem strtolAt_decimal {n : Nat} {c : UInt8} (h : buf.drop i = decimal n ++ c :: rest)
    (hc : isDigit c = false)
    (hn : n < 2 ^ 63) : strtolAt buf i = ((n : Int), i + (decimal n).length) := by
  have hlength := congrArg List.length h
  simp only [List.length_drop, List.length_append, List.length_cons] at hlength
  have hdrop : (buf ++ [0]).drop i = decimal n ++ (c :: rest ++ [0]) := by
    rw [List.drop_append_of_le_length (by omega), h, List.append_assoc]
  have hspace : (decimal n ++ (c :: rest ++ [0])).dropWhile isSpace =
    decimal n ++ (c :: rest ++ [0]) := by
    obtain ⟨d, ds, hd⟩ := List.exists_cons_of_ne_nil (decimal_ne_nil n)
    have hdigit := decimal_digits n d (by simp [hd])
    rw [hd, List.cons_append, List.dropWhile_cons, if_neg (by simp [(digit_facts hdigit).1])]
  have hskip := skipSign_digits (decimal_ne_nil n) (decimal_digits n) (c :: rest ++ [0])
  have htake : (decimal n ++ (c :: rest ++ [0])).takeWhile isDigit = decimal n := by
    rw [List.takeWhile_append_of_pos (decimal_digits n), List.cons_append, List.takeWhile_cons,
      if_neg (by simp [hc]), List.append_nil]
  have hafter : (decimal n ++ (c :: rest ++ [0])).dropWhile isDigit = c :: rest ++ [0] :=
    digits_dropWhile (decimal_digits n) (by simpa using hc)
  have hsign : (decimal n ++ (c :: rest ++ [0])).head? ≠ some minus := by
    obtain ⟨d, ds, hd⟩ := List.exists_cons_of_ne_nil (decimal_ne_nil n)
    have hdigit := decimal_digits n d (by simp [hd])
    simpa [hd] using (digit_facts hdigit).2.2.1
  have hvalue : (decimal n).foldl (fun n d => n * 10 + (d.toNat - 48)) 0 = n :=
    Bencode.decimalFrom_decimalText n
  have hstrtol : strtol (decimal n ++ (c :: rest ++ [0])) = some (n : Int) := by
    unfold strtol
    dsimp only
    rw [hspace, hskip, htake, if_neg (decimal_ne_nil n), if_neg hsign, hvalue]
    congr 1
    omega
  unfold strtolAt
  rw [hdrop, hstrtol]
  dsimp only
  rw [hspace, hskip, hafter]
  simp only [List.length_append, List.length_cons, List.length_nil, Prod.mk.injEq, true_and]
  omega

/-- The reading of an id. -/
def IdAt (id : Id) : Option (List UInt8) → Prop
  | none => id = zeroes
  | some rest => ∃ more, rest = id.toList ++ more

def PortAt (port : UInt16) : Option (List UInt8) → Prop
  | none => port = 0
  | some rest => ∃ more, rest = decimal port.toNat ++ (text "e" ++ more)

def StringAt (bytes : List UInt8) : Option (List UInt8) → Prop
  | none => bytes = []
  | some rest => ∃ more, rest = decimal bytes.length ++ (text ":" ++ (bytes ++ more))

def ValuesAt (values : List UInt8) : Option (List UInt8) → Prop
  | none => values = []
  | some rest => ∃ (peers : List (List UInt8)) (more : List UInt8), (∀ p ∈ peers, p.length = 6) ∧
      values = peers.flatten ∧ rest = peers.flatMap (text "6:" ++ ·) ++ (text "e" ++ more)

def wantFlags (want : Nat) : String :=
  if want % 4 = 0 then "" else if want % 4 = 1 then "2:n4" else if want % 4 = 2 then "2:n6"
  else "2:n42:n6"

def WantAt (want : Nat) : Option (List UInt8) → Prop
  | none => want = 0
  | some rest => want < 4 ∧ ∃ more, rest = text (wantFlags want) ++ (text "e" ++ more)

/-- The message is what is behind the keys. -/
structure Says (look : Key → Option (List UInt8)) (m : Message) : Prop where
  tid : StringAt m.tid (look .tid)
  id : IdAt m.id (look .id)
  infoHash : IdAt m.infoHash (look .infoHash)
  port : PortAt m.port (look .port)
  impliedPort : PortAt m.impliedPort (look .impliedPort)
  target : IdAt m.target (look .target)
  token : StringAt m.token (look .token)
  nodes : StringAt m.nodes (look .nodes)
  nodes6 : StringAt m.nodes6 (look .nodes6)
  values : ValuesAt m.values (look .values)
  values6 : m.values6 = []
  want : WantAt m.want (look .want)

/-- Where the key is, if it is there. -/
theorem behind_cases (buf : List UInt8) (k : Key) :
    (memmem buf (text k.name) = none ∧ behind buf k = none) ∨
      ∃ p, memmem buf (text k.name) = some p ∧ p + (text k.name).length ≤ buf.length ∧
        behind buf k = some (buf.drop (p + (text k.name).length)) := by
  unfold behind Key.word
  cases h : memmem buf (text k.name) with
  | none => exact Or.inl ⟨rfl, rfl⟩
  | some p => exact Or.inr ⟨p, rfl, memmem_le h, rfl⟩

theorem idField_reads (k : Key) {id : Id} {set : Id → Message → Message} {m : Message}
    (h : IdAt id (behind buf k)) (hset : set zeroes m = m) :
    idField buf k.name set m = .next (set id m) := by
  unfold idField
  rcases behind_cases buf k with ⟨hno, hbehind⟩ | ⟨p, hp, hle, hbehind⟩
  · rw [hbehind] at h
    obtain rfl : id = zeroes := h
    rw [hno, hset]
  · rw [hbehind] at h
    obtain ⟨more, hmore⟩ := h
    have htake := take_of_drop 0 20 hmore hle (by simp)
    rw [Vector.length_toList] at htake
    rw [hp]
    dsimp only
    rw [htake, Step.bind, dif_pos (by simp)]
    rfl

theorem portField_reads (k : Key) {port : UInt16} {set : UInt16 → Message → Message} {m : Message}
    (h : PortAt port (behind buf k)) (hset : set 0 m = m) :
    portField buf k.name set m = .next (set port m) := by
  unfold portField
  rcases behind_cases buf k with ⟨hno, hbehind⟩ | ⟨p, hp, hle, hbehind⟩
  · rw [hbehind] at h
    obtain rfl : port = 0 := h
    rw [hno, hset]
  · rw [hbehind] at h
    obtain ⟨more, hmore⟩ := h
    have hlt := port.toNat_lt
    have hdrop := congrArg (List.drop (decimal port.toNat).length) hmore
    rw [List.drop_left, List.drop_drop] at hdrop
    rw [hp]
    dsimp only
    rw [strtolAt_decimal hmore (by decide) (by omega), byteAt_of_drop hdrop, Step.bind]
    by_cases hzero : port = 0
    · subst hzero
      rw [if_neg (by simp), hset]
    · have hpos : 0 < port.toNat := Nat.pos_of_ne_zero fun hz => hzero (UInt16.toNat_inj.mp hz)
      rw [if_pos ⟨rfl, by omega, by omega⟩]
      simp

theorem bytesField_reads (k : Key) {most size : Nat} {bytes : List UInt8}
    {set : List UInt8 → Message → Message} {m : Message} (h : StringAt bytes (behind buf k))
    (hmost : bytes.length ≤ most) (hsize : most ≤ size) (hbound : most < 2 ^ 63)
    (hset : set [] m = m) : bytesField buf k.name most size set m = .next (set bytes m) := by
  unfold bytesField
  rcases behind_cases buf k with ⟨hno, hbehind⟩ | ⟨p, hp, hle, hbehind⟩
  · rw [hbehind] at h
    obtain rfl : bytes = [] := h
    rw [hno, hset]
  · rw [hbehind] at h
    obtain ⟨more, hmore⟩ := h
    have hdrop := congrArg (List.drop (decimal bytes.length).length) hmore
    rw [List.drop_left, List.drop_drop] at hdrop
    have hnext : buf.drop (p + (text k.name).length + (decimal bytes.length).length + 1) =
      bytes ++ more := by
      rw [← List.drop_drop, hdrop]
      rfl
    rw [hp]
    dsimp only
    rw [strtolAt_decimal hmore (by decide) (by omega), byteAt_of_drop hdrop, Step.bind]
    by_cases hnil : bytes = []
    · subst hnil
      rw [if_neg (by simp), hset]
    · have hpos := List.length_pos_iff.mpr hnil
      have hlength := congrArg List.length hnext
      simp only [List.length_drop, List.length_append] at hlength
      rw [if_pos ⟨rfl, by omega, by omega⟩]
      simp only [Int.toNat_natCast]
      rw [take_of_drop 0 size hnext (by omega) (by omega), Step.bind]

/-- One string of `values`. -/
theorem valuesLoop_peer {p : List UInt8} (values : List UInt8) (fuel : Nat) (hp : p.length = 6)
    (hdrop : buf.drop i = text "6:" ++ p ++ rest) (hroom : values.length + 6 ≤ 2048) :
    buf.drop (i + 8) = rest ∧
      valuesLoop buf (fuel + 1) i values [] = valuesLoop buf fuel (i + 8) (values ++ p) [] := by
  have hnumber : buf.drop i = decimal 6 ++ 58 :: (p ++ rest) := by
    rw [hdrop, List.append_assoc]
    rfl
  have hcolon : buf.drop (i + 1) = 58 :: (p ++ rest) := by
    rw [← List.drop_drop, hnumber]
    rfl
  have hpeer : buf.drop (i + 1 + 1) = p ++ rest := by
    rw [← List.drop_drop, hcolon, List.drop_one, List.tail_cons]
  have hnext : buf.drop (i + 8) = rest := by
    rw [show i + 8 = i + 1 + 1 + p.length by omega, ← List.drop_drop, hpeer, List.drop_left]
  have hlength := congrArg List.length hpeer
  simp only [List.length_drop, List.length_append, hp] at hlength
  have htake := take_of_drop values.length 2048 hpeer (by omega) (by omega)
  rw [hp] at htake
  have hlong : (decimal 6).length = 1 := by decide
  refine ⟨hnext, ?_⟩
  rw [valuesLoop, strtolAt_decimal hnumber (by decide) (by decide), hlong]
  dsimp only
  rw [byteAt_of_drop hcolon, Step.bind, if_pos (by decide)]
  rw [if_neg (by simp; omega), if_pos (by decide), if_neg (by omega), htake]
  rfl

theorem valuesLoop_reads {peers : List (List UInt8)} (fuel : Nat) (values : List UInt8)
    (hfuel : peers.length < fuel)
    (hdrop : buf.drop i = peers.flatMap (text "6:" ++ ·) ++ 101 :: rest)
    (hsix : ∀ p ∈ peers, p.length = 6) (hroom : values.length + 6 * peers.length ≤ 2048) :
    valuesLoop buf fuel i values [] = .next (values ++ peers.flatten, []) := by
  induction peers generalizing fuel i values with
  | nil =>
    obtain ⟨fuel, rfl⟩ : ∃ n, fuel = n + 1 := ⟨fuel - 1, by simp at hfuel; omega⟩
    have hlength := congrArg List.length hdrop
    simp only [List.flatMap_nil, List.nil_append, List.length_drop, List.length_cons] at hlength
    have hstrtol : strtolAt buf i = (0, i) := by
      have hend : (buf ++ [0]).drop i = 101 :: (rest ++ [0]) := by
        rw [List.drop_append_of_le_length (by omega), hdrop]
        rfl
      rw [strtolAt, hend]
      rfl
    rw [valuesLoop, hstrtol]
    dsimp only
    rw [byteAt_of_drop hdrop, Step.bind, if_neg (by decide)]
    simp
  | cons p peers ih =>
    obtain ⟨fuel, rfl⟩ : ∃ n, fuel = n + 1 := ⟨fuel - 1, by omega⟩
    have hp := hsix p List.mem_cons_self
    simp only [List.length_cons] at hroom hfuel
    rw [List.flatMap_cons, List.append_assoc] at hdrop
    obtain ⟨hnext, hstep⟩ := valuesLoop_peer values fuel hp hdrop (by omega)
    rw [hstep, ih _ _ (by omega) hnext (fun q hq => hsix q (List.mem_cons_of_mem _ hq))
      (by simp only [List.length_append, hp]; omega)]
    simp

/-- One flag of `want`. -/
theorem wantLoop_flag (fuel want : Nat) (f : UInt8)
    (hdrop : buf.drop i = 50 :: 58 :: 110 :: f :: rest)
    (hmore : rest ≠ []) :
    wantLoop buf (fuel + 1) i want = wantLoop buf fuel (i + 4)
      (if [110, f] = text "n4" then want ||| want4 else if [110, f] =
        text "n6" then want ||| want6 else want) := by
  have hcolon : buf.drop (i + 1) = 58 :: 110 :: f :: rest := by
    rw [← List.drop_drop, hdrop, List.drop_one, List.tail_cons]
  have hflag : buf.drop (i + 2) = 110 :: f :: rest := by
    rw [← List.drop_drop, hdrop]
    rfl
  have hpos := List.length_pos_iff.mpr hmore
  have hlength := congrArg List.length hflag
  simp only [List.length_drop, List.length_cons] at hlength
  rw [wantLoop, byteAt_of_drop hdrop, Step.bind, if_pos (by decide),
    byteAt_of_drop hcolon, Step.bind]
  dsimp only
  rw [if_pos ⟨rfl, by simp; omega⟩, if_neg (by simp; omega), hflag]
  simp

theorem wantLoop_end (fuel want : Nat) (hdrop : buf.drop i = 101 :: rest) :
    wantLoop buf (fuel + 1) i want = .next want := by
  rw [wantLoop, byteAt_of_drop hdrop, Step.bind, if_neg (by decide)]

theorem wantLoop_reads {want : Nat} (fuel : Nat) (hwant : want < 4) (hfuel : 2 < fuel)
    (hdrop : buf.drop i = text (wantFlags want) ++ 101 :: rest) :
    wantLoop buf fuel i 0 = .next want := by
  obtain ⟨fuel, rfl⟩ : ∃ n, fuel = n + 3 := ⟨fuel - 3, by omega⟩
  have hfour : ∀ {xs : List UInt8} {j : Nat}, buf.drop j = text "2:n4" ++ xs ∨ buf.drop j =
      text "2:n6" ++ xs → buf.drop (j + 4) = xs := by
    rintro xs j (h | h)
    all_goals
      rw [← List.drop_drop, h]
      rfl
  match want, hwant with
  | 0, _ => exact wantLoop_end _ _ hdrop
  | 1, _ =>
    rw [wantLoop_flag _ _ 52 hdrop (by simp), wantLoop_end _ _ (hfour (Or.inl hdrop))]
    rfl
  | 2, _ =>
    rw [wantLoop_flag _ _ 54 hdrop (by simp), wantLoop_end _ _ (hfour (Or.inr hdrop))]
    rfl
  | 3, _ =>
    have hsecond : buf.drop (i + 4) = text "2:n6" ++ 101 :: rest := hfour (Or.inl hdrop)
    rw [wantLoop_flag _ _ 52 hdrop (by simp), wantLoop_flag _ _ 54 hsecond (by simp),
      wantLoop_end _ _ (hfour (Or.inr hsecond))]
    rfl

theorem valuesField_reads {m : Message} {values : List UInt8}
    (h : ValuesAt values (behind buf .values))
    (hroom : values.length ≤ 2048) (hnil : m.values = [] ∧ m.values6 = []) :
    valuesField buf m = .next { m with values := values } := by
  unfold valuesField
  rcases behind_cases buf .values with ⟨hno, hbehind⟩ | ⟨p, hp, hle, hbehind⟩
  · rw [hbehind] at h
    obtain rfl : values = [] := h
    rw [show memmem buf (text "6:valuesl") = none from hno, ← hnil.1]
  · rw [hbehind] at h
    obtain ⟨peers, more, hsix, rfl, hmore⟩ := h
    have hflatten : peers.flatten.length = 6 * peers.length := by
      rw [List.length_flatten, List.map_congr_left hsix]
      simp [Nat.mul_comm]
    have hlength := congrArg List.length hmore
    have heach : (peers.flatMap (text "6:" ++ ·)).length = 8 * peers.length := by
      have height : ∀ p ∈ peers, (text "6:" ++ p).length = 8 := by
        intro p hp
        rw [List.length_append, hsix p hp]
        rfl
      rw [List.length_flatMap, List.map_congr_left height]
      simp [Nat.mul_comm]
    simp only [List.length_drop, List.length_append] at hlength
    have hloop := valuesLoop_reads (buf.length + 1) [] (by omega) hmore hsix (by simp; omega)
    rw [show memmem buf (text "6:valuesl") = some p from hp]
    dsimp only
    rw [show p + 9 = p + (text Key.values.name).length from rfl, hloop, Step.bind, hnil.2,
      List.nil_append]

theorem wantField_reads {m : Message} {want : Nat} (h : WantAt want (behind buf .want))
    (hzero : m.want = 0) : wantField buf m = .next { m with want := want } := by
  unfold wantField
  rcases behind_cases buf .want with ⟨hno, hbehind⟩ | ⟨p, hp, hle, hbehind⟩
  · rw [hbehind] at h
    obtain rfl : want = 0 := h
    rw [show memmem buf (text "4:wantl") = none from hno, ← hzero]
  · rw [hbehind] at h
    obtain ⟨hwant, more, hmore⟩ := h
    have hlong : (text Key.want.name).length = 7 := by decide
    have hloop := wantLoop_reads (buf.length + 1) hwant (by omega) hmore
    rw [show memmem buf (text "4:wantl") = some p from hp]
    dsimp only
    rw [show p + 7 = p + (text Key.want.name).length from rfl, hloop, Step.bind]

theorem bind_next {α β : Type} {s : Step α} {f : α → Step β} {a : α} (h : s = .next a) :
    s.bind f = f a := by
  rw [h, Step.bind]

theorem fields_reads {m : Message} (h : Says (behind buf) m) (hfits : m.Fits) :
    fields buf = .next m := by
  unfold fields
  refine (bind_next (bytesField_reads .tid h.tid hfits.tid (by decide) (by decide) rfl)).trans ?_
  refine (bind_next (idField_reads .id h.id rfl)).trans ?_
  refine (bind_next (idField_reads .infoHash h.infoHash rfl)).trans ?_
  refine (bind_next (portField_reads .port h.port rfl)).trans ?_
  refine (bind_next (portField_reads .impliedPort h.impliedPort rfl)).trans ?_
  refine (bind_next (idField_reads .target h.target rfl)).trans ?_
  refine (bind_next (bytesField_reads .token h.token hfits.token (by decide) (by decide) rfl)).trans
    ?_
  refine (bind_next (bytesField_reads .nodes h.nodes hfits.nodes (by decide) (by decide) rfl)).trans
    ?_
  refine (bind_next (bytesField_reads .nodes6 h.nodes6 hfits.nodes6 (by decide) (by decide)
    rfl)).trans ?_
  refine (bind_next (valuesField_reads h.values hfits.values.1 ⟨rfl, rfl⟩)).trans ?_
  refine (wantField_reads h.want rfl).trans ?_
  simp only [← h.values6, Message.empty]

end Reading

end Dht
