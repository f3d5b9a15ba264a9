import Pipensx.DhtReading

/-!
# What is printed is read back

A message of the DHT is put together from the words the parser looks for and from data. Where the
data spells none of these words, not even with what stands next to it, `parse_message` reads back
what a `send_*` function printed.
-/

namespace Dht

open CText Occurrence

/-- The messages of the `send_*` functions. -/
inductive Sent where
  | ping
  | pong
  | findNode (target : Id) (want : Nat)
  | getPeers (infohash : Id) (want : Nat)
  | announcePeer (infohash : Id) (port : UInt16) (token : List UInt8)
  | nodesPeers (nodes : List Contact) (peers : Option (List Peer)) (token : List UInt8)
  | error (code : Nat) (message : String)

def Sent.print (s : Self) (tid : List UInt8) : Sent → Option (List UInt8)
  | .ping => pingMessage s tid
  | .pong => pongMessage s tid
  | .findNode target want => findNodeMessage s tid target want
  | .getPeers infohash want => getPeersMessage s tid infohash want
  | .announcePeer infohash port token => announcePeerMessage s tid infohash port token
  | .nodesPeers nodes peers token => nodesPeersMessage s tid nodes peers token
  | .error code message => errorMessage s tid code message

/-- The array the message is printed into. -/
def Sent.size : Sent → Nat
  | .nodesPeers _ _ _ => 2048
  | _ => 512

/-- What the other side is to take from it. -/
def Sent.kind : Sent → Kind
  | .ping => .ping
  | .pong => .reply
  | .findNode _ _ => .findNode
  | .getPeers _ _ => .getPeers
  | .announcePeer _ _ _ => .announcePeer
  | .nodesPeers _ _ _ => .reply
  | .error _ _ => .error

def Sent.message (s : Self) (tid : List UInt8) : Sent → Message
  | .ping => { Message.empty with tid := tid, id := s.myid }
  | .pong => { Message.empty with tid := tid, id := s.myid }
  | .findNode target want =>
    { Message.empty with tid := tid, id := s.myid, target := target, want := want % 4 }
  | .getPeers infohash want =>
    { Message.empty with tid := tid, id := s.myid, infoHash := infohash, want := want % 4 }
  | .announcePeer infohash port token =>
    { Message.empty with tid := tid, id := s.myid, infoHash := infohash, port := port,
                         token := token }
  | .nodesPeers nodes peers token =>
    { Message.empty with
      tid := tid, id := s.myid, nodes := nodes.flatMap Contact.bytes, token := token
      values := (peers.getD []).flatMap Peer.compact }
  | .error _ _ => { Message.empty with tid := tid }

/-- A step of a `send_*` function, with the pieces of what it prints. -/
inductive Op where
  | print (ps : List (Piece UInt8))
  | copy (xs : List UInt8)
  | v

def Op.pieces (s : Self) : Op → List (Piece UInt8)
  | .print ps => ps
  | .copy xs => [.data xs]
  | .v => [.data ((s.myV.map Vector.toList).getD [])]

@[simp] theorem Op.pieces_print (s : Self) (ps : List (Piece UInt8)) :
    (Op.print ps).pieces s = ps := rfl

@[simp] theorem Op.pieces_copy (s : Self) (xs : List UInt8) :
    (Op.copy xs).pieces s = [.data xs] := rfl

@[simp] theorem Op.pieces_v (s : Self) :
    Op.v.pieces s = [.data ((s.myV.map Vector.toList).getD [])] := rfl

def Op.run (s : Self) (size : Nat) : Op → List UInt8 → Option (List UInt8)
  | .print ps => put size (whole ps)
  | .copy xs => Dht.copy size xs
  | .v => addV size s

@[simp] theorem Op.run_print (s : Self) (size : Nat) (ps : List (Piece UInt8)) (buf : List UInt8) :
    (Op.print ps).run s size buf = put size (whole ps) buf := rfl

@[simp] theorem Op.run_copy (s : Self) (size : Nat) (xs buf : List UInt8) :
    (Op.copy xs).run s size buf = Dht.copy size xs buf := rfl

@[simp] theorem Op.run_v (s : Self) (size : Nat) (buf : List UInt8) :
    Op.v.run s size buf = addV size s buf := rfl

def draft (s : Self) (size : Nat) (ops : List Op) (buf : List UInt8) : Option (List UInt8) :=
  ops.foldlM (fun buf op => op.run s size buf) buf

def opening (letters : String) (s : Self) : List Op :=
  [.print [.lit (text letters), .lit Key.id.word], .copy s.myid.toList]

def stringOps (k : Key) (bytes : List UInt8) : List Op :=
  if bytes.length > 0 then [.print [.lit k.word, .data (decimal bytes.length), .lit (text ":")],
    .copy bytes]
  else []

def idOps (k : Key) (id : Id) : List Op := [.print [.lit k.word], .copy id.toList]

def wantOps (want : Nat) : List Op :=
  if want > 0 then [.print [.lit Key.want.word, .lit (text (wantFlags want)), .lit (text "e")]]
  else []

def peerOps (p : Peer) : List Op := [.print [.lit (text "6:")], .copy p.compact]

def valuesOps : Option (List Peer) → List Op
  | none => []
  | some slice =>
    .print [.lit Key.values.word] :: slice.flatMap peerOps ++ [.print [.lit (text "e")]]

def closing (tid : List UInt8) (front : List (Piece UInt8)) (k : Key) : List Op :=
  [.print (front ++ [.lit Key.tid.word, .data (decimal tid.length), .lit (text ":")]),
    .copy tid, .v, .print [.lit k.word, .lit (text "e")]]

def Sent.layout (s : Self) (tid : List UInt8) : Sent → List Op
  | .ping => opening "d1:ad" s ++ closing tid [.lit (text "e"), .lit Key.ping.word] .query
  | .pong => opening "d1:rd" s ++ closing tid [.lit (text "e")] .reply
  | .findNode target want =>
    opening "d1:ad" s ++ idOps .target target ++ wantOps want ++
      closing tid [.lit (text "e"), .lit Key.findNode.word] .query
  | .getPeers infohash want =>
    opening "d1:ad" s ++ idOps .infoHash infohash ++ wantOps want ++
      closing tid [.lit (text "e"), .lit Key.getPeers.word] .query
  | .announcePeer infohash port token =>
    opening "d1:ad" s ++ idOps .infoHash infohash ++
      [.print [.lit Key.port.word, .data (decimal port.toNat), .lit (text "e"), .lit Key.token.word,
        .data (decimal token.length), .lit (text ":")], .copy token] ++
      closing tid [.lit (text "e"), .lit Key.announcePeer.word] .query
  | .nodesPeers nodes peers token =>
    opening "d1:rd" s ++ stringOps .nodes (nodes.flatMap Contact.bytes) ++ stringOps .token token ++
      valuesOps peers ++ closing tid [.lit (text "e")] .reply
  | .error code message =>
    [.print [.lit (text "d1:eli"), .data (decimal code), .lit (text "e"),
      .data (decimal (text message).length), .lit (text ":")], .copy (text message)] ++
      closing tid [.lit (text "e")] .error

def Sent.pieces (s : Self) (tid : List UInt8) (x : Sent) : List (Piece UInt8) :=
  (x.layout s tid).flatMap (Op.pieces s)

section Printing

variable {s : Self} {size : Nat} {buf xs : List UInt8}

theorem put_room (h : buf.length + xs.length < size) : put size xs buf = some (buf ++ xs) := by
  rw [put, if_neg (by omega), if_neg (by omega)]

theorem copy_room (h : buf.length + xs.length < size) : copy size xs buf = some (buf ++ xs) := by
  rw [copy, if_neg (by omega)]

theorem addV_room (h : buf.length + ((s.myV.map Vector.toList).getD []).length < size) :
    addV size s buf = some (buf ++ (s.myV.map Vector.toList).getD []) := by
  unfold addV
  cases hv : s.myV with
  | none => simp
  | some v =>
    rw [hv] at h
    exact copy_room h

/-- With room for the whole message no step fails. -/
theorem draft_room {ops : List Op} (buf : List UInt8)
    (h : (buf ++ whole (ops.flatMap (Op.pieces s))).length < size) :
    draft s size ops buf = some (buf ++ whole (ops.flatMap (Op.pieces s))) := by
  induction ops generalizing buf with
  | nil => simp [draft]
  | cons op ops ih =>
    rw [List.flatMap_cons, whole_append, ← List.append_assoc] at h ⊢
    have hfront : buf.length + (whole (op.pieces s)).length < size := by
      simp only [List.length_append] at h
      omega
    have hrun : op.run s size buf = some (buf ++ whole (op.pieces s)) := by
      cases op with
      | print ps => exact put_room hfront
      | copy xs =>
        simp only [Op.pieces, whole_data, whole_nil, List.append_nil] at hfront ⊢
        exact copy_room hfront
      | v =>
        simp only [Op.pieces, whole_data, whole_nil, List.append_nil] at hfront ⊢
        exact addV_room hfront
    rw [← ih _ h, draft, List.foldlM_cons, hrun]
    rfl

theorem draft_append (ops more : List Op) (buf : List UInt8) :
    draft s size (ops ++ more) buf = (draft s size ops buf).bind (draft s size more) :=
  List.foldlM_append

theorem draft_peers (s : Self) (size : Nat) (slice : List Peer) (buf : List UInt8) :
    draft s size (slice.flatMap peerOps) buf =
    slice.foldlM (fun buf p => (put size (text "6:") buf).bind (copy size p.compact)) buf := by
  induction slice generalizing buf with
  | nil => rfl
  | cons p slice ih =>
    have hpeer : ∀ buf, draft s size (peerOps p) buf =
      (put size (text "6:") buf).bind (copy size p.compact) := by
      intro buf
      simp [draft, peerOps]
    rw [List.flatMap_cons, draft_append, hpeer, List.foldlM_cons]
    congr 1
    funext buf
    exact ih buf

theorem wantText_flags (want : Nat) :
    wantText want = Key.want.word ++ text (wantFlags want) ++ text "e" := by
  have h4 : want &&& want4 = want % 4 % 2 := by
    rw [want4, Nat.and_one_is_mod]
    omega
  have h6 : want &&& want6 = 2 * (want % 4 / 2) := by
    rw [want6, show (2 : Nat) = 2 ^ 1 from rfl, Nat.and_two_pow, Nat.testBit_eq_decide_div_mod_eq]
    rcases Nat.mod_two_eq_zero_or_one (want / 2) with hbit | hbit
    · simp only [pow_one, hbit, zero_ne_one, decide_false, Bool.toNat_false]
      omega
    · simp only [pow_one, hbit, decide_true, Bool.toNat_true]
      omega
  unfold wantText wantFlags
  rw [h4, h6]
  have hlt : want % 4 < 4 := Nat.mod_lt _ (by decide)
  generalize want % 4 = w at hlt
  match w, hlt with
  | 0, _ => rfl
  | 1, _ => rfl
  | 2, _ => rfl
  | 3, _ => rfl

/-- The texts of the source, cut where the keys are. -/
theorem text_words : text "d1:ad2:id20:" = text "d1:ad" ++ Key.id.word ∧
    text "d1:rd2:id20:" = text "d1:rd" ++ Key.id.word ∧ text "e1:t" = text "e" ++ Key.tid.word ∧
    text "1:y1:qe" = Key.query.word ++ text "e" ∧ text "1:y1:re" = Key.reply.word ++ text "e" ∧
    text "1:y1:ee" = Key.error.word ++ text "e" ∧ text "e5:token" = text "e" ++ Key.token.word := by
  decide

theorem text_queries : text "e1:q4:ping1:t" = text "e" ++ Key.ping.word ++ Key.tid.word ∧
    text "e1:q9:find_node1:t" = text "e" ++ Key.findNode.word ++ Key.tid.word ∧
    text "e1:q9:get_peers1:t" = text "e" ++ Key.getPeers.word ++ Key.tid.word ∧
    text "e1:q13:announce_peer1:t" = text "e" ++ Key.announcePeer.word ++ Key.tid.word := by
  decide

/-- A query for an id, its text cut where the keys are. -/
theorem queryMessage_draft {k q : Key} {query : String} (tid : List UInt8)
    (target : Id) (want : Nat) (hquery : text query = text "e" ++ q.word ++ Key.tid.word) :
    queryMessage k.name query s tid target want =
      draft s 512 (opening "d1:ad" s ++ idOps k target ++
      wantOps want ++ closing tid [.lit (text "e"), .lit q.word] .query) [] := by
  obtain ⟨had, _, _, hq, _⟩ := text_words
  have hkey : text k.name = k.word := rfl
  by_cases hwant : want > 0
  · simp [queryMessage, draft, opening, idOps, wantOps, closing, had, hkey, hwant,
      wantText_flags, hquery, hq]
  · simp [queryMessage, draft, opening, idOps, wantOps, closing, had, hkey, hwant, hquery, hq]

theorem nodesPeersMessage_draft (tid : List UInt8) (nodes : List Contact)
    (peers : Option (List Peer)) (token : List UInt8) : nodesPeersMessage s tid nodes peers token =
      draft s 2048 ((Sent.nodesPeers nodes peers token).layout s tid) [] := by
  obtain ⟨_, hrd, htid, _, hr, _⟩ := text_words
  have hnodes : text "5:nodes" = Key.nodes.word := rfl
  have htoken : text "5:token" = Key.token.word := rfl
  have hvalues : text "6:valuesl" = Key.values.word := rfl
  have hpeers := draft_peers s 2048
  unfold draft at hpeers
  unfold nodesPeersMessage
  simp only [Sent.layout]
  generalize nodes.flatMap Contact.bytes = compact
  cases peers with
  | none =>
    by_cases hc : compact.length > 0 <;> by_cases ht : token.length > 0 <;>
      simp [draft, opening, stringOps, valuesOps, closing, Option.bind_assoc, hc, ht, hrd, hnodes,
        htoken, htid, hr]
  | some slice =>
    by_cases hc : compact.length > 0 <;> by_cases ht : token.length > 0 <;>
      simp [draft, opening, stringOps, valuesOps, closing, Option.bind_assoc, hc, ht, hrd, hnodes,
        htoken, hvalues, hpeers, htid, hr]

theorem print_draft (s : Self) (tid : List UInt8) (x : Sent) :
    x.print s tid = draft s x.size (x.layout s tid) [] := by
  obtain ⟨had, hrd, htid, hq, hr, he, htoken⟩ := text_words
  obtain ⟨hping, hfind, hget, hannounce⟩ := text_queries
  cases x with
  | ping =>
    simp [Sent.print, Sent.size, Sent.layout, pingMessage, draft, opening, closing, had, hping, hq]
  | pong =>
    simp [Sent.print, Sent.size, Sent.layout, pongMessage, draft, opening, closing, hrd, htid, hr]
  | findNode target want => exact queryMessage_draft (k := .target) tid target want hfind
  | getPeers infohash want => exact queryMessage_draft (k := .infoHash) tid infohash want hget
  | announcePeer infohash port token =>
    have hhash : text "9:info_hash20:" = Key.infoHash.word := rfl
    have hport : text "4:porti" = Key.port.word := rfl
    simp [Sent.print, Sent.size, Sent.layout, announcePeerMessage, draft, opening,
      idOps, closing, had, hhash, hport, htoken, hannounce, hq]
  | nodesPeers nodes peers token => exact nodesPeersMessage_draft tid nodes peers token
  | error code message =>
    simp [Sent.print, Sent.size, Sent.layout, errorMessage, draft, closing, htid, he]

/-- With room for the message the functions of the source print its pieces. -/
theorem print_whole {tid : List UInt8} {x : Sent} (h : (whole (x.pieces s tid)).length < x.size) :
    x.print s tid = some (whole (x.pieces s tid)) := by
  rw [print_draft]
  exact draft_room [] h

end Printing

section Looking

variable {s : Self} {k : Key} {ps : List (Piece UInt8)}

theorem wantFlags_filler (want : Nat) : wantFlags want ∈ fillers := by
  unfold wantFlags
  split
  · decide
  split
  · decide
  split
  · decide
  · decide

theorem after_want (want : Nat) : after k.word ((wantOps want).flatMap (Op.pieces s) ++ ps) =
    if k = .want ∧ want > 0 then some
      (.lit [] :: .lit (text (wantFlags want)) :: .lit (text "e") :: ps)
    else after k.word ps := by
  have hflags : ∀ {ps}, after k.word (.lit (text (wantFlags want)) :: ps) = after k.word ps :=
    after_filler (wantFlags_filler want)
  have he : ∀ {ps}, after k.word (.lit (text "e") :: ps) = after k.word ps :=
    after_filler (by decide)
  unfold wantOps
  by_cases hwant : want > 0
  · simp [hwant, hflags, he]
  · simp [hwant]

theorem after_string (k' : Key) (bytes : List UInt8) :
    after k.word ((stringOps k' bytes).flatMap (Op.pieces s) ++ ps) =
      if k = k' ∧ bytes.length > 0 then
        some (.lit [] :: .data (decimal bytes.length) :: .lit (text ":") :: .data bytes :: ps)
      else after k.word ps := by
  have hcolon : ∀ {ps}, after k.word (.lit (text ":") :: ps) = after k.word ps :=
    after_filler (by decide)
  unfold stringOps
  by_cases hpos : bytes.length > 0
  · simp [hpos, hcolon]
  · simp [hpos]

theorem after_peers (slice : List Peer) :
    after k.word ((slice.flatMap peerOps).flatMap (Op.pieces s) ++ ps) = after k.word ps := by
  induction slice with
  | nil => rfl
  | cons p slice ih =>
    have hsix : ∀ {ps}, after k.word (.lit (text "6:") :: ps) = after k.word ps :=
      after_filler (by decide)
    rw [List.flatMap_cons, List.flatMap_append, List.append_assoc]
    simp only [peerOps, List.flatMap_cons, List.flatMap_nil, Op.pieces_print, Op.pieces_copy,
      List.cons_append, List.nil_append, hsix, after_data]
    exact ih

theorem whole_peers (slice : List Peer) : whole ((slice.flatMap peerOps).flatMap (Op.pieces s)) =
    (slice.map Peer.compact).flatMap (text "6:" ++ ·) := by
  induction slice with
  | nil => rfl
  | cons p slice ih =>
    rw [List.map_cons, List.flatMap_cons, List.flatMap_append, whole_append, ih]
    simp [peerOps]

theorem after_values (peers : Option (List Peer)) :
    after k.word ((valuesOps peers).flatMap (Op.pieces s) ++ ps) =
      if k = .values then match peers with
        | none => after k.word ps
        | some slice =>
          some (.lit [] :: (slice.flatMap peerOps).flatMap (Op.pieces s) ++ .lit (text "e") :: ps)
      else after k.word ps := by
  have he : ∀ {ps}, after k.word (.lit (text "e") :: ps) = after k.word ps :=
    after_filler (by decide)
  cases peers with
  | none => simp [valuesOps]
  | some slice =>
    by_cases hk : k = .values
    · subst hk
      simp [valuesOps]
    · simp only [valuesOps, List.cons_append, List.flatMap_cons, List.flatMap_append,
        List.flatMap_nil,
        Op.pieces_print, List.nil_append, List.append_assoc, after_word, if_neg hk, after_peers, he]

theorem peer_compact_length (p : Peer) : p.compact.length = 6 := by simp [Peer.compact]

theorem stringAt_optional (bytes more : List UInt8) : StringAt bytes
    (if 0 < bytes.length then some (decimal bytes.length ++ (text ":" ++ (bytes ++ more)))
      else none) := by
  split
  · exact ⟨more, rfl⟩
  · next hno => exact List.length_eq_zero_iff.mp (by omega)

theorem wantAt_optional (want : Nat) (more : List UInt8) : WantAt (want % 4)
    (if 0 < want then some (text (wantFlags want) ++ (text "e" ++ more)) else none) := by
  split
  · refine ⟨Nat.mod_lt _ (by decide), more, ?_⟩
    simp only [wantFlags, Nat.mod_mod]
  · next hno =>
    obtain rfl : want = 0 := by omega
    rfl

theorem valuesAt_slice (slice : List Peer) (ps : List (Piece UInt8)) :
    ValuesAt (slice.flatMap Peer.compact)
    (some (whole (.lit [] :: ((slice.flatMap peerOps).flatMap (Op.pieces s) ++
    .lit (text "e") :: ps)))) := by
  refine ⟨slice.map Peer.compact, whole ps, ?_, List.flatMap_def, ?_⟩
  · simpa using fun p _ => peer_compact_length p
  · rw [whole_lit, List.nil_append, whole_append, whole_peers, whole_lit]

end Looking

/-- A message shows behind each key what it is to say. -/
theorem message_reads (s : Self) (tid : List UInt8) (x : Sent) :
    Says (fun k => (after k.word (x.pieces s tid)).map whole) (x.message s tid) := by
  cases x with
  | ping =>
    constructor
    all_goals simp (disch := decide) [Sent.pieces, Sent.layout, opening, closing,
      after_filler, Sent.message, Message.empty, StringAt, IdAt, PortAt, ValuesAt, WantAt]
  | pong =>
    constructor
    all_goals simp (disch := decide) [Sent.pieces, Sent.layout, opening, closing,
      after_filler, Sent.message, Message.empty, StringAt, IdAt, PortAt, ValuesAt, WantAt]
  | findNode target want =>
    constructor
    case want =>
      simp (disch := decide) [Sent.pieces, Sent.layout, opening, idOps, closing, after_filler,
        after_want, Sent.message]
      exact wantAt_optional want _
    all_goals simp (disch := decide) [Sent.pieces, Sent.layout, opening, idOps, closing,
      after_filler, after_want, Sent.message, Message.empty, StringAt, IdAt, PortAt, ValuesAt]
  | getPeers infohash want =>
    constructor
    case want =>
      simp (disch := decide) [Sent.pieces, Sent.layout, opening, idOps, closing, after_filler,
        after_want, Sent.message]
      exact wantAt_optional want _
    all_goals simp (disch := decide) [Sent.pieces, Sent.layout, opening, idOps, closing,
      after_filler, after_want, Sent.message, Message.empty, StringAt, IdAt, PortAt, ValuesAt]
  | announcePeer infohash port token =>
    constructor
    all_goals simp (disch := decide) [Sent.pieces, Sent.layout, opening, closing,
      idOps, after_filler, Sent.message, Message.empty, StringAt, IdAt, PortAt, ValuesAt, WantAt]
  | nodesPeers nodes peers token =>
    constructor
    case nodes =>
      simp only [Sent.pieces, Sent.layout, Sent.message]
      generalize nodes.flatMap Contact.bytes = compact
      simp (disch := decide) [opening, closing, after_filler, after_string, after_values]
      exact stringAt_optional compact _
    case token =>
      simp (disch := decide) [Sent.pieces, Sent.layout, opening, closing, after_filler,
        after_string, after_values, Sent.message]
      exact stringAt_optional token _
    case values =>
      simp (disch := decide) [Sent.pieces, Sent.layout, opening, closing, after_filler,
        after_string, after_values, Sent.message]
      cases peers with
      | none => rfl
      | some slice =>
        exact valuesAt_slice slice _
    all_goals
      simp (disch := decide) [Sent.pieces, Sent.layout, opening, closing, after_filler,
        after_string, after_values, Sent.message, Message.empty, StringAt, IdAt, PortAt, WantAt]
  | error code message =>
    constructor
    all_goals simp (disch := decide) [Sent.pieces, Sent.layout, closing, after_filler, Sent.message,
      Message.empty, StringAt, IdAt, PortAt, ValuesAt, WantAt]

section Sending

variable {s : Self} {tid : List UInt8} {x : Sent}

theorem kindOf_behind (buf : List UInt8) : kindOf buf =
    if (behind buf .reply).isSome then some .reply
    else if (behind buf .error).isSome then some .error
    else if !(behind buf .query).isSome then none
    else if (behind buf .ping).isSome then some .ping
    else if (behind buf .findNode).isSome then some .findNode
    else if (behind buf .getPeers).isSome then some .getPeers
    else if (behind buf .announcePeer).isSome then some .announcePeer
    else none := by
  simp only [kindOf, behind, Option.isSome_map, Key.word, Key.name]

theorem kindOf_sent (hclear : ∀ k : Key, Clear k.word (x.pieces s tid)) :
    kindOf (whole (x.pieces s tid)) = some x.kind := by
  simp only [kindOf_behind, behind_whole (hclear _)]
  cases x with
  | ping =>
    simp (disch := decide) [Sent.pieces, Sent.layout, opening, closing, after_filler, Sent.kind]
  | pong =>
    simp (disch := decide) [Sent.pieces, Sent.layout, opening, closing, after_filler, Sent.kind]
  | findNode target want =>
    simp (disch := decide) [Sent.pieces, Sent.layout, opening, idOps, closing, after_filler,
      after_want, Sent.kind]
  | getPeers infohash want =>
    simp (disch := decide) [Sent.pieces, Sent.layout, opening, idOps, closing, after_filler,
      after_want, Sent.kind]
  | announcePeer infohash port token =>
    simp (disch := decide) [Sent.pieces, Sent.layout, opening, idOps, closing,
      after_filler, Sent.kind]
  | nodesPeers nodes peers token =>
    simp (disch := decide) [Sent.pieces, Sent.layout, opening, closing, after_filler,
      after_string, after_values, Sent.kind]
  | error code message =>
    simp (disch := decide) [Sent.pieces, Sent.layout, closing, after_filler, Sent.kind]

/-- What a `send_*` function prints, `parse_message` reads back: the kind and every field. The
arrays have room, and the words of the parser stand in the fixed text alone. -/
theorem parseMessage_sent (hroom : (whole (x.pieces s tid)).length < x.size)
    (hfits : (x.message s tid).Fits) (hclear : ∀ k : Key, Clear k.word (x.pieces s tid)) :
    ∃ buf, x.print s tid = some buf ∧ parseMessage buf = .next (some x.kind, x.message s tid) := by
  have hlook : behind (whole (x.pieces s tid)) = fun k =>
    (after k.word (x.pieces s tid)).map whole :=
    funext fun k => behind_whole (hclear k)
  have hreads := message_reads s tid x
  rw [← hlook] at hreads
  refine ⟨_, print_whole hroom, ?_⟩
  rw [parseMessage, fields_reads hreads hfits, kindOf_sent hclear]

end Sending

theorem parseMessage_sent_nodes :
    let s : Self := ⟨Vector.replicate 20 7, some ⟨#[49, 58, 118, 52, 58, 74, 67, 0, 1], rfl⟩⟩
    let x : Sent := .nodesPeers [⟨Vector.replicate 20 9, ⟨#[10, 0, 0, 1, 26, 225], rfl⟩⟩]
      (some [⟨5, ⟨#[10, 0, 0, 2], rfl⟩, 6881⟩]) (List.replicate 8 200)
    ∃ buf, x.print s (makeTid "gp" 513) = some buf ∧
      parseMessage buf = .next (some .reply, x.message s (makeTid "gp" 513)) :=
  parseMessage_sent (by decide +kernel) (by constructor <;> decide +kernel)
    fun k => clear_of_inFixed (word_ne_nil k) (by revert k; decide +kernel)

end Dht
