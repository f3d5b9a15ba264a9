import Mathlib.Data.List.Induction
import Pipensx.PeerSegmentation

/-!
# Which extended messages are ut_pex messages

A peer tags its ut_pex messages with the id from our extension handshake, `EXT_PEX_ID`.
`process_message` compares the tag with the id from the handshake of the peer, which is the
one to tag our messages with. The two are the same only for a peer that uses our number.
-/

namespace PeerIngest

open PeerSend PeerRequests Bencode

/-- `EXT_PEX_ID`. -/
def extPexId : UInt8 := 1

/-- An extended message that is not longer than `process_message` allows. -/
structure ExtMessage where
  extId : UInt8
  data : List UInt8
  fits : data.length + 2 ≤ 2 ^ 18

/-- The message with its length before it. -/
def ExtMessage.frame (m : ExtMessage) : List UInt8 :=
  lengthPrefix (m.data.length + 2) ++ 20 :: m.extId :: m.data

/-- The extension handshake offers ut_pex under the id `k`. -/
def Advertises (data : List UInt8) (k : UInt8) : Prop :=
  memory data 0 = letterD ∧ ∃ m pexId,
    beDictGet (memory data) 0 data.length (TorrentFile.ascii "m".toList) = some m ∧ m.type = .dict ∧
    beDictGet (memory data) m.buf (m.buf + m.rawLen) (TorrentFile.ascii "ut_pex".toList) =
    some pexId ∧ pexId.type = .int ∧ pexId.ival = k.toNat

/-- A peer with the id `k` for ut_pex, and what it sends. -/
structure Follows (k : UInt8) (messages : List ExtMessage) : Prop where
  nonzero : k ≠ 0
  handshakes : ∀ m ∈ messages, m.extId = 0 → Advertises m.data k

/-- The bytes of the message are in the buffer. -/
def Conn.put (c : Conn) (m : ExtMessage) : Conn := { c with rbuf := c.rbuf ++ m.frame }

/-- The messages are processed one after the other. -/
def hear (sys : System) (ctx : Ctx) (c : Conn) (messages : List ExtMessage) : Conn :=
  messages.foldl (fun c m => (processMessage sys ctx (c.put m)).1) c

/-- The callbacks of one message, after those before it. -/
def heard (sys : System) (ctx : Ctx) (c : Conn) (before : List ExtMessage) (m : ExtMessage) :
    List Event :=
  (processMessage sys ctx ((hear sys ctx c before).put m)).2.1

/-- Our extension handshake is sent, nothing is in the buffer, and none of the peer has
been seen. -/
structure Greeted (c : Conn) : Prop where
  sent : c.session.extHandshakeSent = true
  unheard : c.session.peerExtPex = 0
  read : c.rbufHead = c.rbuf.length

/-- Every ut_pex message is handed to `on_peers`, and no other message is. -/
def DispatchedRight (sys : System) (ctx : Ctx) (c : Conn) (messages : List ExtMessage) : Prop :=
  ∀ before m after, messages = before ++ m :: after →
    heard sys ctx c before m = if m.extId = extPexId then parsePex m.data else []

/-- The peer's own handshake is among the messages. -/
def Introduced (messages : List ExtMessage) : Prop := ∃ m ∈ messages, m.extId = 0

instance (messages : List ExtMessage) : Decidable (Introduced messages) :=
  inferInstanceAs (Decidable (∃ m ∈ messages, m.extId = 0))

/-- A message with endpoints bears our id exactly when it bears the one the peer has
introduced itself with. -/
def WellTimed (k : UInt8) (before : List ExtMessage) (m : ExtMessage) : Prop :=
  parsePex m.data ≠ [] → (m.extId = extPexId ↔ m.extId = k ∧ Introduced before)

section Dispatch

variable {sys : System} {ctx : Ctx} {k : UInt8}

theorem be32_lengthPrefix {n : Nat} (hn : n < 2 ^ 32) (rest : List UInt8) :
    be32 (lengthPrefix n ++ rest) = n := by
  simp only [lengthPrefix, List.cons_append, List.nil_append, be32, UInt8.toNat_ofNat']
  omega

theorem nextFrame_frame (m : ExtMessage) :
    nextFrame m.frame = .message 20 (m.extId :: m.data) [] := by
  have hfits := m.fits
  have hlen : m.frame.length = 4 + (m.data.length + 2) := by
    simp only [ExtMessage.frame, lengthPrefix, List.length_append, List.length_cons,
      List.length_nil]
  have hbody : (m.frame.drop 4).take (m.data.length + 2) = 20 :: m.extId :: m.data := by
    simp [ExtMessage.frame, lengthPrefix]
  rw [nextFrame, if_neg (by omega)]
  dsimp only
  rw [show be32 m.frame = m.data.length + 2 from be32_lengthPrefix (by omega) _, if_neg (by omega),
    if_neg (by omega), hbody]
  simp only [List.drop_of_length_le hlen.le]

/-- An extended message goes to the branch for `MSG_EXTENDED` and is taken off the buffer. -/
theorem processMessage_put {c : Conn} (hread : c.rbufHead = c.rbuf.length) (m : ExtMessage) :
    processMessage sys ctx (c.put m) =
      ({ c.put m with session :=
          (processExtended c.session (m.extId :: m.data)).1.tick.touch sys.clock }.consume
            (4 + ((m.extId :: m.data).length + 1)),
        (processExtended c.session (m.extId :: m.data)).2, .next) := by
  have hunread : (c.put m).unread = m.frame := by
    simp [Conn.unread, Conn.put, hread]
  rw [processMessage, hunread, nextFrame_frame]
  rfl

theorem parseExtHandshake_of_advertises {data : List UInt8} (h : Advertises data k) :
    parseExtHandshake data = some k := by
  obtain ⟨hletter, m, pexId, hm, hdict, hpex, hint, hval⟩ := h
  have hsome : data.length ≠ 0 := by
    intro hempty
    rw [List.length_eq_zero_iff.mp hempty] at hletter
    exact absurd hletter (by decide)
  rw [parseExtHandshake, if_neg (by rw [not_or, not_not]; exact ⟨hsome, hletter⟩)]
  have hkey : TorrentFile.ascii ['m'] = TorrentFile.ascii "m".toList := rfl
  have hkey' : TorrentFile.ascii ['u', 't', '_', 'p', 'e', 'x'] =
    TorrentFile.ascii "ut_pex".toList := rfl
  have hbyte : UInt8.ofNat (pexId.ival % 2 ^ 8).toNat = k := by
    rw [hval, ← UInt8.toNat_inj, UInt8.toNat_ofNat']
    have hlt := k.toNat_lt
    omega
  simp only [hkey, hm, hdict, ne_eq, not_true_eq_false, if_false, hkey', hpex, hint, if_true, hbyte]

theorem hear_snoc (c : Conn) (before : List ExtMessage) (m : ExtMessage) :
    hear sys ctx c (before ++ [m]) =
      (processMessage sys ctx ((hear sys ctx c before).put m)).1 := by
  simp [hear, List.foldl_append]

/-- After some messages the id of the peer is known if its handshake is among them, and the
buffer is empty. -/
theorem hear_known (sys : System) (ctx : Ctx) {c : Conn} (greeted : Greeted c)
    {messages : List ExtMessage} (follows : Follows k messages) :
    (hear sys ctx c messages).rbufHead = (hear sys ctx c messages).rbuf.length ∧
      (Introduced messages → (hear sys ctx c messages).session.peerExtPex = k) ∧
      (¬ Introduced messages → (hear sys ctx c messages).session.peerExtPex = 0) := by
  induction messages using List.reverseRecOn with
  | nil =>
    refine ⟨greeted.read, ?_, fun _ => greeted.unheard⟩
    rintro ⟨m, hm, _⟩
    cases hm
  | append_singleton before m ih =>
    have hbefore : Follows k before :=
      ⟨follows.nonzero, fun m' hm' => follows.handshakes m' (by simp [hm'])⟩
    obtain ⟨hread, hyes, hno⟩ := ih hbefore
    rw [hear_snoc, processMessage_put hread]
    refine ⟨?_, ?_⟩
    · simp only [Conn.consume, Conn.put, hread, List.length_append, ExtMessage.frame, lengthPrefix,
        List.length_cons, List.length_nil]
    · simp only [Conn.consume, Session.touch, Session.tick]
      by_cases hhand : m.extId = 0
      · have hparse := parseExtHandshake_of_advertises (follows.handshakes m (by simp) hhand)
        have hintro : Introduced (before ++ [m]) := ⟨m, by simp, hhand⟩
        simp only [processExtended, hhand, if_true, hparse, Option.getD_some]
        exact ⟨fun _ => trivial, fun hnot => absurd hintro hnot⟩
      · have hsame : Introduced (before ++ [m]) ↔ Introduced before := by
          constructor
          · rintro ⟨m', hm', hzero⟩
            rcases List.mem_append.mp hm' with hold | hnew
            · exact ⟨m', hold, hzero⟩
            · rw [List.mem_singleton.mp hnew] at hzero
              exact absurd hzero hhand
          · rintro ⟨m', hm', hzero⟩
            exact ⟨m', by simp [hm'], hzero⟩
        have hkept : (processExtended (hear sys ctx c before).session (m.extId :: m.data)).1 =
            (hear sys ctx c before).session := by
          simp only [processExtended, if_neg hhand]
          split <;> rfl
        rw [hkept, hsame]
        exact ⟨hyes, hno⟩

/-- What is done with one message. -/
theorem heard_eq {c : Conn} (greeted : Greeted c) {before : List ExtMessage}
    (follows : Follows k before) (m : ExtMessage) :
    heard sys ctx c before m = if m.extId = k ∧ Introduced before then parsePex m.data else [] := by
  obtain ⟨hread, hyes, hno⟩ := hear_known sys ctx greeted follows
  rw [heard, processMessage_put hread]
  simp only [processExtended]
  by_cases hintro : Introduced before
  · rw [hyes hintro]
    by_cases hid : m.extId = k
    · have hzero : m.extId ≠ 0 := by
        rw [hid]
        exact follows.nonzero
      rw [if_neg hzero, if_pos ⟨follows.nonzero, hid⟩, if_pos ⟨hid, hintro⟩]
    · rw [if_neg (by simp [hid] : ¬ (m.extId = k ∧ Introduced before))]
      split
      · rfl
      · rw [if_neg (by simp [hid])]
  · rw [hno hintro, if_neg (by simp [hintro] : ¬ (m.extId = k ∧ Introduced before))]
    split
    · rfl
    · rw [if_neg (by simp)]

end Dispatch

/-- ut_pex messages, and no others, reach `on_peers` exactly when every message with
endpoints is well timed. -/
theorem dispatchedRight_iff (sys : System) (ctx : Ctx) {c : Conn} (greeted : Greeted c) {k : UInt8}
    {messages : List ExtMessage} (follows : Follows k messages) :
    DispatchedRight sys ctx c messages ↔
      ∀ before m after, messages = before ++ m :: after → WellTimed k before m := by
  refine forall_congr' fun before => forall_congr' fun m => forall_congr' fun after =>
    forall_congr' fun hsplit => ?_
  have hbefore : Follows k before := by
    refine ⟨follows.nonzero, fun m' hm' => follows.handshakes m' ?_⟩
    rw [hsplit]
    exact List.mem_append_left _ hm'
  rw [heard_eq greeted hbefore, WellTimed]
  by_cases hright : m.extId = extPexId <;> by_cases hdone : m.extId = k ∧ Introduced before
  · rw [if_pos hright, if_pos hdone]
    exact ⟨fun _ _ => iff_of_true hright hdone, fun _ => rfl⟩
  · rw [if_pos hright, if_neg hdone]
    exact ⟨fun hnone hsome => absurd hnone.symm hsome,
      fun h => by_contra fun hsome => hdone ((h (Ne.symm hsome)).mp hright)⟩
  · rw [if_neg hright, if_pos hdone]
    exact ⟨fun hnone hsome => absurd hnone hsome,
      fun h => by_contra fun hsome => hright ((h hsome).mpr hdone)⟩
  · rw [if_neg hright, if_neg hdone]
    exact ⟨fun _ _ => iff_of_false hright hdone, fun _ => rfl⟩

def greetedConn : Conn :=
  { sampleConn with session := { sampleConn.session with
    supportsExt := true, extHandshakeSent := true } }

theorem greetedConn_greeted : Greeted greetedConn := ⟨rfl, rfl, rfl⟩

/-- The extension handshake of a peer that has ut_pex under a one-digit id. -/
def introduction (digit : Char) : List UInt8 :=
  TorrentFile.ascii "d1:md6:ut_pexi".toList ++ TorrentFile.ascii [digit] ++
    TorrentFile.ascii "eee".toList

def introductionMessage (digit : Char) : ExtMessage := ⟨0, introduction digit, by
  simp [introduction, TorrentFile.ascii]⟩

/-- One endpoint. -/
def oneEndpoint : ExtMessage := ⟨extPexId, TorrentFile.ascii "d5:added6:abcdefe".toList, by decide⟩

theorem oneEndpoint_parsePex :
    parsePex oneEndpoint.data = [.onPeers (TorrentFile.ascii "abcdef".toList) 1] := by
  decide

/-- The peer introduces itself and then sends one endpoint. -/
theorem follows_introduction {digit : Char} {k : UInt8} (nonzero : k ≠ 0)
    (advertises : Advertises (introduction digit) k) :
    Follows k [introductionMessage digit, oneEndpoint] := by
  refine ⟨nonzero, fun m hm hzero => ?_⟩
  simp only [List.mem_cons, List.not_mem_nil, or_false] at hm
  rcases hm with rfl | rfl
  · exact advertises
  · exact absurd hzero (by decide)

/-- A peer that has ut_pex under the id 2 tags its endpoint with our id, and it is dropped. -/
theorem other_numbering : Follows 2 [introductionMessage '2', oneEndpoint] ∧
    ¬ DispatchedRight sampleSystem sampleCtx greetedConn
    [introductionMessage '2', oneEndpoint] := by
  have hadvertises : Advertises (introduction '2') 2 := by
    refine ⟨by decide, ⟨.dict, 4, 13, 0, 0, 0⟩, ⟨.int, 13, 3, 2, 0, 0⟩, by decide, rfl, by decide,
      rfl, by decide⟩
  have hfollows := follows_introduction (by decide) hadvertises
  refine ⟨hfollows, fun hright => ?_⟩
  have hsecond := hright [introductionMessage '2'] oneEndpoint [] rfl
  have hbefore : Follows 2 [introductionMessage '2'] := ⟨hfollows.nonzero, fun m hm =>
    hfollows.handshakes m (by simp [List.mem_singleton.mp hm])⟩
  rw [heard_eq greetedConn_greeted hbefore, if_neg (by decide), if_pos (by rfl),
    oneEndpoint_parsePex] at hsecond
  cases hsecond

/-- With our own number the endpoint arrives. -/
theorem dispatchedRight_iff_same :
    DispatchedRight sampleSystem sampleCtx greetedConn [introductionMessage '1', oneEndpoint] := by
  have hadvertises : Advertises (introduction '1') 1 := by
    refine ⟨by decide, ⟨.dict, 4, 13, 0, 0, 0⟩, ⟨.int, 13, 3, 1, 0, 0⟩, by decide, rfl, by decide,
      rfl, by decide⟩
  refine (dispatchedRight_iff _ _ greetedConn_greeted
    (follows_introduction (by decide) hadvertises)).mpr fun before m after hsplit => ?_
  match before, hsplit with
  | [], hsplit =>
    cases hsplit
    exact fun hsome => absurd (by decide) hsome
  | [first], hsplit =>
    cases hsplit
    exact fun _ => iff_of_true rfl ⟨rfl, introductionMessage '1', by simp, rfl⟩
  | _ :: _ :: before, hsplit =>
    have hlen := congrArg List.length hsplit
    simp at hlen

end PeerIngest
