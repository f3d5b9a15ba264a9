import Pipensx.PeerIngest
import Pipensx.StreamReader

/-!
# Reading the receive buffer

`peer_process` on a peer that is past the encryption handshake: a reader that looks at the
front of the buffer, for the handshake first and then for one message after the other. It
uses what it has understood, and what it decides does not depend on what comes later.
-/

namespace PeerIngest

open PeerSend PeerRequests StreamReader

section Frames

variable {buf payload rest : List UInt8} {id : UInt8}

theorem be32_append (h : 4 ≤ buf.length) (more : List UInt8) : be32 (buf ++ more) = be32 buf := by
  match buf, h with
  | _ :: _ :: _ :: _ :: _, _ => rfl

/-- A buffer that waits is shorter than the longest message. -/
theorem nextFrame_wait (h : nextFrame buf = .wait) : buf.length < peerRecvBufferSize := by
  simp only [nextFrame] at h
  simp only [peerRecvBufferSize]
  split at h
  · omega
  · split at h
    · cases h
    · split at h
      · omega
      · split at h <;> cases h

theorem nextFrame_keepalive (h : nextFrame buf = .keepalive rest) : 4 ≤ buf.length := by
  simp only [nextFrame] at h
  split at h
  · cases h
  · omega

theorem nextFrame_length (h : nextFrame buf = .message id payload rest) :
    4 + (payload.length + 1) ≤ buf.length := by
  simp only [nextFrame] at h
  split at h
  · cases h
  · split at h
    · cases h
    · split at h
      · cases h
      · split at h
        · cases h
        · next id' payload' htake =>
          cases h
          have hsize := congrArg List.length htake
          rw [List.length_take, List.length_drop, List.length_cons] at hsize
          omega

/-- A frame that is complete is not changed by what comes after it. -/
theorem nextFrame_append (h : nextFrame buf ≠ .wait) (more : List UInt8) :
    nextFrame (buf ++ more) =
      match nextFrame buf with
      | .wait => .wait
      | .oversized => .oversized
      | .keepalive rest => .keepalive (rest ++ more)
      | .message id payload rest => .message id payload (rest ++ more) := by
  by_cases hshort : buf.length < 4
  · simp [nextFrame, hshort] at h
  have hlong : ¬ (buf ++ more).length < 4 := by
    rw [List.length_append]
    omega
  have hsame := be32_append (Nat.le_of_not_lt hshort) more
  by_cases hover : be32 buf > 2 ^ 18
  · simp only [nextFrame, hshort, hlong, if_false, hsame, hover, if_true]
  by_cases hpart : buf.length < 4 + be32 buf
  · refine absurd ?_ h
    simp only [nextFrame, hshort, hover, hpart, if_true, if_false]
  have hwhole : ¬ (buf ++ more).length < 4 + be32 buf := by
    rw [List.length_append]
    omega
  have hbody : ((buf ++ more).drop 4).take (be32 buf) = (buf.drop 4).take (be32 buf) := by
    rw [List.drop_append_of_le_length (by omega), List.take_append_of_le_length]
    rw [List.length_drop]
    omega
  have hdrop : (buf ++ more).drop 4 = buf.drop 4 ++ more := List.drop_append_of_le_length (by omega)
  have hafter : (buf ++ more).drop (4 + be32 buf) = buf.drop (4 + be32 buf) ++ more :=
    List.drop_append_of_le_length (by omega)
  simp only [nextFrame, hshort, hlong, if_false, hsame, hover, hpart, hwhole, hbody]
  cases (buf.drop 4).take (be32 buf) with
  | nil => simp only [hdrop]
  | cons id payload => simp only [hafter]

end Frames

/-- What is done with the front of the buffer. -/
def read (sys : System) (ctx : Ctx) (s : Session) (buf : List UInt8) : Step Session Event :=
  match s.peer.state with
  | .handshake =>
    if buf.length < btHandshakeLen then .wait
    else if buf.take 20 ≠ handshakeHeader ∨ (buf.drop 28).take 20 ≠ ctx.infoHash then .stop s [] 0
    else .next ((s.opened sys.clock buf).greet sys ctx) [] btHandshakeLen
  | .active =>
    match nextFrame buf with
    | .wait => .wait
    | .oversized => .stop s [] 0
    | .keepalive _ => .next s [] 4
    | .message id payload _ =>
      let r := dispatch ctx.numPieces (sys.clock s.readings) s id payload
      if r.2.2 then .next (r.1.tick.touch sys.clock) r.2.1 (4 + (payload.length + 1))
      else .stop r.1 r.2.1 0
  | _ => .wait

section Reader

variable {sys : System} {ctx : Ctx} {s s' : Session} {buf : List UInt8}
  {out : List Event} {used : Nat}

theorem read_next (h : read sys ctx s buf = .next s' out used) : 0 < used ∧ used ≤ buf.length := by
  unfold read at h
  split at h
  · split at h
    · cases h
    · split at h
      · cases h
      · next hlong _ =>
        cases h
        exact ⟨by decide, Nat.le_of_not_lt hlong⟩
  · split at h
    · cases h
    · cases h
    · next hframe =>
      cases h
      exact ⟨by decide, nextFrame_keepalive hframe⟩
    · next hframe =>
      dsimp only at h
      split at h
      · cases h
        exact ⟨by omega, nextFrame_length hframe⟩
      · cases h
  · cases h

theorem read_stop (h : read sys ctx s buf = .stop s' out used) : used = 0 := by
  unfold read at h
  split at h
  · split at h
    · cases h
    · split at h
      · cases h
        rfl
      · cases h
  · split at h
    · cases h
    · cases h
      rfl
    · cases h
    · dsimp only at h
      split at h
      · cases h
      · cases h
        rfl
  · cases h

theorem opened_append (clock : Nat → Nat) (s : Session) (h : btHandshakeLen ≤ buf.length)
    (more : List UInt8) : s.opened clock (buf ++ more) = s.opened clock buf := by
  have hbyte : (buf ++ more).getD 25 0 = buf.getD 25 0 := by
    simp only [btHandshakeLen] at h
    rw [List.getD_append _ _ _ _ (by omega)]
  simp only [Session.opened, hbyte]

theorem read_stable (h : read sys ctx s buf ≠ .wait) (more : List UInt8) :
    read sys ctx s (buf ++ more) = read sys ctx s buf := by
  cases hstate : s.peer.state with
  | handshake =>
    by_cases hshort : buf.length < btHandshakeLen
    · simp [read, hstate, hshort] at h
    have hlong : ¬ (buf ++ more).length < btHandshakeLen := by
      rw [List.length_append]
      omega
    have hlength := hshort
    simp only [btHandshakeLen] at hlength
    have hheader : (buf ++ more).take 20 = buf.take 20 := List.take_append_of_le_length (by omega)
    have hhash : ((buf ++ more).drop 28).take 20 = (buf.drop 28).take 20 := by
      rw [List.drop_append_of_le_length (by omega), List.take_append_of_le_length]
      rw [List.length_drop]
      omega
    have hopened := opened_append sys.clock s (Nat.le_of_not_lt hshort) more
    simp only [read, hstate, hshort, hlong, if_false, hheader, hhash, hopened]
  | active =>
    have hframe : nextFrame buf ≠ .wait := by
      intro hwait
      simp [read, hstate, hwait] at h
    have hmore := nextFrame_append hframe more
    simp only [read, hstate, hmore]
    cases hcase : nextFrame buf with
    | wait => exact absurd hcase hframe
    | oversized => rfl
    | keepalive rest => rfl
    | message id payload rest => rfl
  | connecting => simp [read, hstate] at h
  | mse => simp [read, hstate] at h
  | dead => simp [read, hstate] at h

theorem read_incremental (sys : System) (ctx : Ctx) : Incremental (read sys ctx) where
  progress := read_next
  last h := by
    rw [read_stop h]
    exact Nat.zero_le _
  stable := read_stable

/-- A peer that has come this far: it reads the handshake or messages. -/
def Live (s : Session) : Prop := s.peer.state = .handshake ∨ s.peer.state = .active

/-- A reader that waits for more has room for it. -/
theorem read_wait (live : Live s) (h : read sys ctx s buf = .wait) :
    buf.length < peerRecvBufferSize := by
  rcases live with hstate | hstate
  · simp only [read, hstate] at h
    split at h
    · next hshort =>
      simp only [btHandshakeLen] at hshort
      simp only [peerRecvBufferSize]
      omega
    · split at h <;> cases h
  · simp only [read, hstate] at h
    split at h
    · next hframe => exact nextFrame_wait hframe
    · cases h
    · cases h
    · split at h <;> cases h

end Reader

section Kept

variable {sys : System} {ctx : Ctx} {s s' : Session} {buf : List UInt8}

/-- The peer is still live, and its traffic encrypted or not as before. -/
structure Kept (s s' : Session) : Prop where
  live : Live s'
  mode : s'.peer.out.mseActive = s.peer.out.mseActive
  active : s.peer.state = .active → s'.peer.state = .active

theorem Kept.refl (live : Live s) : Kept s s := ⟨live, rfl, fun h => h⟩

theorem Kept.trans {s'' : Session} (first : Kept s s') (second : Kept s' s'') : Kept s s'' :=
  ⟨second.live, second.mode.trans first.mode, fun h => second.active (first.active h)⟩

theorem processPiece_out (now : Nat) (p : Peer) (payload : List UInt8) :
    (processPiece now p payload).1.out = p.out := by
  unfold processPiece
  split
  · rfl
  · dsimp only
    split
    · split <;> rfl
    · next htake =>
      obtain ⟨r, _, heq⟩ := Option.map_eq_some_iff.mp htake
      cases heq
      rfl

theorem dispatch_out (numPieces now : Nat) (p : Peer) (id : UInt8) (payload : List UInt8) :
    (PeerRequests.dispatch numPieces now p id payload).1.out = p.out := by
  unfold PeerRequests.dispatch
  split
  · rfl
  · rfl
  · dsimp only
    split <;> rfl
  · split <;> rfl
  · exact processPiece_out now p payload
  · rfl

theorem dispatch_kept (numPieces now : Nat) (id : UInt8) {payload : List UInt8} (live : Live s)
    (size : payload.length < 2 ^ 32) : Kept s (dispatch numPieces now s id payload).1 := by
  have hstate := (dispatch_answered numPieces now s.peer id size).1
  have hout := dispatch_out numPieces now s.peer id payload
  have hpeer : Kept s { s with
    peer := (PeerRequests.dispatch numPieces now s.peer id payload).1 } := by
    refine ⟨?_, by rw [hout], by rw [hstate]; exact fun h => h⟩
    simp only [Live, hstate]
    exact live
  unfold dispatch
  split
  · exact ⟨live, rfl, fun h => h⟩
  · exact ⟨live, rfl, fun h => h⟩
  · exact hpeer
  · unfold processExtended
    split
    · exact Kept.refl live
    · split
      · exact ⟨live, rfl, fun h => h⟩
      · split <;> exact Kept.refl live
  · dsimp only
    split
    · exact hpeer
    · exact ⟨hpeer.live, hpeer.mode, hpeer.active⟩
    · exact hpeer

theorem post_kept (net : Transport) (live : Live s) (msg : List UInt8) : Kept s (s.post net msg) :=
  ⟨live, sendMsg_mode net s.peer.out msg, fun h => h⟩

theorem peerSendExtHandshake_kept (net : Transport) (live : Live s) (listenPort : Nat) :
    Kept s (peerSendExtHandshake net s listenPort) := by
  have hkept := post_kept net live (extHandshake listenPort)
  unfold peerSendExtHandshake
  generalize s.post net (extHandshake listenPort) = t at hkept ⊢
  exact ⟨hkept.live, hkept.mode, hkept.active⟩

theorem peerSendBitfield_kept (sys : System) (live : Live s) (bf : List UInt8) :
    Kept s (peerSendBitfield sys s bf) := by
  unfold peerSendBitfield
  split
  · exact post_kept sys.net live (5 :: bf)
  · exact Kept.refl live

theorem peerSendInterested_kept (net : Transport) (live : Live s) :
    Kept s (peerSendInterested net s) := by
  have hlive : Live { s with amInterested := true } := live
  have hkept := post_kept net hlive [2]
  unfold peerSendInterested
  exact ⟨hkept.live, hkept.mode, hkept.active⟩

theorem greet_kept (sys : System) (ctx : Ctx) (live : Live s) : Kept s (s.greet sys ctx) := by
  have hfirst : Kept s (if s.supportsExt then peerSendExtHandshake sys.net s
    ctx.listenPort else s) := by
    split
    · exact peerSendExtHandshake_kept sys.net live ctx.listenPort
    · exact Kept.refl live
  have hsecond := peerSendBitfield_kept sys hfirst.live ctx.ourBf
  have hthird := peerSendInterested_kept sys.net hsecond.live
  unfold Session.greet
  exact (hfirst.trans hsecond).trans hthird

theorem read_kept (sys : System) (ctx : Ctx) (buf : List UInt8) (live : Live s) :
    match read sys ctx s buf with
    | .wait => True
    | .stop s' _ _ => Kept s s'
    | .next s' _ _ => Kept s s' := by
  rcases live with hstate | hstate
  · have hlive : Live s := Or.inl hstate
    by_cases hshort : buf.length < btHandshakeLen
    · simp only [read, hstate, hshort, if_true]
    by_cases hbad : buf.take 20 ≠ handshakeHeader ∨ (buf.drop 28).take 20 ≠ ctx.infoHash
    · simp only [read, hstate, hshort, if_false, hbad, if_true]
      exact Kept.refl hlive
    · simp only [read, hstate, hshort, hbad, if_false]
      have hopened : Kept s (s.opened sys.clock buf) := ⟨Or.inr rfl, rfl, fun _ => rfl⟩
      exact hopened.trans (greet_kept sys ctx hopened.live)
  · have hlive : Live s := Or.inr hstate
    simp only [read, hstate]
    cases hframe : nextFrame buf with
    | wait => trivial
    | oversized => exact Kept.refl hlive
    | keepalive rest => exact Kept.refl hlive
    | message id payload rest =>
      have hkept := dispatch_kept ctx.numPieces (sys.clock s.readings) id hlive
        (nextFrame_message hframe)
      simp only
      by_cases hok : (dispatch ctx.numPieces (sys.clock s.readings) s id payload).2.2 = true
      · simp only [hok, if_true]
        exact ⟨hkept.live, hkept.mode, hkept.active⟩
      · simp only [hok]
        exact hkept

theorem drain_kept (sys : System) (ctx : Ctx) (buf : List UInt8) (live : Live s) :
    Kept s (drain (read sys ctx) s buf).state := by
  induction s, buf using drain_induction (read_incremental sys ctx) with
  | wait s buf hread =>
    rw [drain_wait hread]
    exact Kept.refl live
  | stop s buf s' out used hread =>
    have hkept := read_kept sys ctx buf live
    rw [hread] at hkept
    rw [drain_stop hread]
    exact hkept
  | next s buf s' out used hread ih =>
    have hkept := read_kept sys ctx buf live
    rw [hread] at hkept
    rw [drain_next (read_incremental sys ctx) hread]
    exact hkept.trans (ih hkept.live)

end Kept

/-- The cursor is in the buffer, the bytes fit it, and there are none before it is
allocated. -/
structure Conn.Valid (c : Conn) : Prop where
  head : c.rbufHead ≤ c.rbuf.length
  fits : c.rbuf.length ≤ peerRecvBufferSize
  none : c.allocated = false → c.rbuf = []

/-- The connection when the reader is at `r` in what was unread. -/
def Conn.atResult (c : Conn) (r : Result Session UInt8 Event) : Conn :=
  { c.consume (c.unread.length - r.rest.length) with session := r.state }

section Buffer

variable {sys : System} {ctx : Ctx} {c : Conn} {data : List UInt8}

theorem unread_length (c : Conn) : c.unread.length = c.rbuf.length - c.rbufHead := List.length_drop

theorem peerRbufSpace_eq (c : Conn) : peerRbufSpace c = peerRecvBufferSize - c.unread.length := by
  rw [unread_length, peerRbufSpace]

theorem consume_unread (c : Conn) (n : Nat) : (c.consume n).unread = c.unread.drop n := by
  simp [Conn.unread, Conn.consume, List.drop_drop]

theorem atResult_unread {r : Result Session UInt8 Event} (rest : r.rest <:+ c.unread) :
    (c.atResult r).unread = r.rest := by
  have hdrop := List.suffix_iff_eq_drop.mp rest
  have hafter : (c.atResult r).unread = c.unread.drop (c.unread.length - r.rest.length) := by
    simp only [Conn.unread, Conn.atResult, Conn.consume, List.drop_drop]
  rw [hafter, ← hdrop]

theorem atResult_valid {r : Result Session UInt8 Event} (valid : c.Valid) :
    (c.atResult r).Valid := by
  have hhead := valid.head
  refine ⟨?_, valid.fits, valid.none⟩
  simp only [Conn.atResult, Conn.consume, unread_length]
  omega

/-- A step and then the rest is all of it. -/
theorem atResult_after (c : Conn) (s : Session) (out : List Event) {used : Nat}
    {r : Result Session UInt8 Event}
    (used_le : used ≤ c.unread.length) (rest_le : r.rest.length ≤ c.unread.length - used) :
    ({ c with session := s }.consume used).atResult r = c.atResult (r.after out) := by
  have hlength : ({ c with session := s }.consume used).unread.length = c.unread.length - used := by
    rw [consume_unread, List.length_drop]
    rfl
  simp only [Conn.atResult, hlength]
  simp only [Conn.consume, Result.after_state, Result.after_rest, Conn.mk.injEq, true_and]
  omega

theorem rewind_unread (c : Conn) : c.rewind.unread = c.unread := by
  unfold Conn.rewind
  split
  · next hdrained =>
    simp only [Conn.unread, hdrained, List.drop_length]
    rfl
  · rfl

theorem rewind_frame (c : Conn) :
    c.rewind.session = c.session ∧ c.rewind.mse = c.mse ∧ c.rewind.allocated = c.allocated ∧
      c.rewind.consumed = c.consumed := by
  unfold Conn.rewind
  split <;> exact ⟨rfl, rfl, rfl, rfl⟩

theorem rewind_valid (valid : c.Valid) : c.rewind.Valid := by
  unfold Conn.rewind
  split
  · exact ⟨Nat.le_refl 0, Nat.zero_le _, fun _ => rfl⟩
  · exact valid

theorem compact_unread (c : Conn) : c.compact.unread = c.unread := rfl

theorem compact_valid (valid : c.Valid) : c.compact.Valid := by
  have hfits := valid.fits
  have hlength := unread_length c
  refine ⟨Nat.zero_le _, ?_, ?_⟩
  · simp only [Conn.compact]
    omega
  · intro hfree
    have hempty := valid.none hfree
    simp [Conn.compact, Conn.unread, hempty]

/-- The message loop reads as the reader does. -/
theorem processMessage_read (sys : System) (ctx : Ctx) (active : c.session.peer.state = .active) :
    match read sys ctx c.session c.unread with
    | .wait => processMessage sys ctx c = (c, [], .wait)
    | .stop s out _ => processMessage sys ctx c = ({ c with session := s }, out, .fail)
    | .next s out used =>
      processMessage sys ctx c = ({ c with session := s }.consume used, out, .next) := by
  simp only [read, active, processMessage]
  cases hframe : nextFrame c.unread with
  | wait => rfl
  | oversized => rfl
  | keepalive rest => rfl
  | message id payload rest =>
    simp only
    by_cases hok : (dispatch ctx.numPieces (sys.clock c.session.readings) c.session id
      payload).2.2 = true
    · simp only [hok, if_true]
    · simp only [hok, if_false, Bool.false_eq_true]

theorem processMessages_eq {fuel : Nat} (active : c.session.peer.state = .active)
    (enough : c.unread.length < fuel) : processMessages sys ctx fuel c =
      ⟨c.atResult (drain (read sys ctx) c.session c.unread),
        (drain (read sys ctx) c.session c.unread).out,
        !(drain (read sys ctx) c.session c.unread).stopped⟩ := by
  induction fuel generalizing c with
  | zero => omega
  | succ fuel ih =>
    have hmessage := processMessage_read sys ctx active
    have hkept := read_kept sys ctx c.unread (Or.inr active)
    simp only [processMessages, active, if_true]
    cases hread : read sys ctx c.session c.unread with
    | wait =>
      rw [hread] at hmessage
      rw [hmessage, drain_wait hread]
      simp [Conn.atResult, Conn.consume]
    | stop s out used =>
      rw [hread] at hmessage
      rw [hmessage, drain_stop hread, read_stop hread]
      simp [Conn.atResult, Conn.consume]
    | next s out used =>
      rw [hread] at hmessage hkept
      obtain ⟨hpos, hle⟩ := read_next hread
      have hunread : ({ c with session := s }.consume used).unread = c.unread.drop used :=
        consume_unread _ used
      have hshort : (c.unread.drop used).length < fuel := by
        rw [List.length_drop]
        omega
      have hrest := (drain_rest (read_incremental sys ctx) s (c.unread.drop used)).length_le
      rw [List.length_drop] at hrest
      have htail := ih (c := { c with session := s }.consume used) (hkept.active active)
        (by rw [hunread]; exact hshort)
      have hsession : ({ c with session := s }.consume used).session = s := rfl
      rw [hunread, hsession] at htail
      rw [hmessage, drain_next (read_incremental sys ctx) hread]
      simp only [htail, Received.after, Result.after_out, Result.after_stopped,
        atResult_after c s out hle hrest]

/-- What `peer_process` leaves when the reader is at `r`. -/
def Conn.processed (c : Conn) (r : Result Session UInt8 Event) : Received :=
  ⟨if r.stopped then c.atResult r else (c.atResult r).rewind, r.out, !r.stopped⟩

theorem processed_frame {r : Result Session UInt8 Event} (rest : r.rest <:+ c.unread) :
    (c.processed r).conn.session = r.state ∧ (c.processed r).conn.mse = c.mse ∧
      (c.processed r).conn.allocated = c.allocated ∧ (c.processed r).conn.unread = r.rest := by
  have hunread := atResult_unread rest
  obtain ⟨hsession, hmse, hallocated, _⟩ := rewind_frame (c.atResult r)
  simp only [Conn.processed]
  split
  · exact ⟨rfl, rfl, rfl, hunread⟩
  · rw [hsession, hmse, hallocated, rewind_unread]
    exact ⟨rfl, rfl, rfl, hunread⟩

theorem processed_consumed (c : Conn) (r : Result Session UInt8 Event) :
    (c.processed r).conn.consumed = c.consumed + (c.unread.length - r.rest.length) := by
  simp only [Conn.processed]
  split
  · rfl
  · exact (rewind_frame (c.atResult r)).2.2.2

theorem processed_valid {r : Result Session UInt8 Event} (valid : c.Valid) :
    (c.processed r).conn.Valid := by
  simp only [Conn.processed]
  split
  · exact atResult_valid valid
  · exact rewind_valid (atResult_valid valid)

theorem processActive_eq (live : Live c.session)
    (waits : c.session.peer.state = .handshake → read sys ctx c.session c.unread = .wait) :
    processActive sys ctx c = c.processed (drain (read sys ctx) c.session c.unread) := by
  rcases live with hstate | hstate
  · have hloop : processMessages sys ctx (c.unread.length + 1) c = ⟨c, [], true⟩ := by
      simp [processMessages, hstate]
    have hsame : c.atResult ⟨c.session, [], c.unread, false⟩ = c := by
      simp [Conn.atResult, Conn.consume]
    rw [processActive, hloop, drain_wait (waits hstate)]
    simp [Conn.processed, hsame]
  · rw [processActive, processMessages_eq hstate (Nat.lt_succ_self _)]
    cases hstopped : (drain (read sys ctx) c.session c.unread).stopped with
    | false => simp [Conn.processed, hstopped]
    | true => simp [Conn.processed, hstopped]

theorem processed_after (c : Conn) (s : Session) (out : List Event) {used : Nat}
    {r : Result Session UInt8 Event}
    (used_le : used ≤ c.unread.length) (rest_le : r.rest.length ≤ c.unread.length - used) :
    (({ c with session := s }.consume used).processed r).after out = c.processed (r.after out) := by
  simp only [Conn.processed, Received.after, atResult_after c s out used_le rest_le,
    Result.after_stopped, Result.after_out]
  rfl

/-- After the handshake the messages behind it are read in the same call. -/
theorem processActive_opened {s : Session}
    (h : read sys ctx c.session c.unread = .next s [] btHandshakeLen)
    (active : s.peer.state = .active) :
    processActive sys ctx ({ c with session := s }.consume btHandshakeLen) =
      c.processed ((drain (read sys ctx) s (c.unread.drop btHandshakeLen)).after []) := by
  obtain ⟨_, hle⟩ := read_next h
  have hrest := (drain_rest (read_incremental sys ctx) s (c.unread.drop btHandshakeLen)).length_le
  rw [List.length_drop] at hrest
  have hunread : ({ c with session := s }.consume btHandshakeLen).unread =
    c.unread.drop btHandshakeLen :=
    consume_unread _ btHandshakeLen
  have hsession : ({ c with session := s }.consume btHandshakeLen).session = s := rfl
  rw [processActive_eq (Or.inr active) (fun hno => by rw [hsession, active] at hno; cases hno),
    hunread, hsession, ← processed_after c s [] hle hrest]
  rfl

/-- `peer_process` on a live peer drains the buffer. -/
theorem peerProcess_eq (sys : System) (ctx : Ctx) (live : Live c.session) :
    peerProcess sys ctx c = c.processed (drain (read sys ctx) c.session c.unread) := by
  have hopen : peerProcess sys ctx c = processOpen sys ctx c := by
    rw [peerProcess, if_neg]
    intro hmse
    rcases live with hstate | hstate
    · rw [hmse] at hstate
      cases hstate
    · rw [hmse] at hstate
      cases hstate
  rw [hopen]
  by_cases hstate : c.session.peer.state = .handshake
  · by_cases hshort : c.unread.length < btHandshakeLen
    · have hread : read sys ctx c.session c.unread = .wait := by
        simp only [read, hstate, hshort, if_true]
      simp only [processOpen, hstate, if_true, processHandshake, hshort]
      exact processActive_eq live (fun _ => hread)
    by_cases hbad : c.unread.take 20 ≠ handshakeHeader ∨ (c.unread.drop 28).take 20 ≠ ctx.infoHash
    · have hread : read sys ctx c.session c.unread = .stop c.session [] 0 := by
        simp only [read, hstate, hshort, if_false, hbad, if_true]
      have hfail : processHandshake sys ctx c = (c, .fail) := by
        simp only [processHandshake, hshort, if_false]
        by_cases hheader : c.unread.take 20 ≠ handshakeHeader
        · rw [if_pos hheader]
        · rw [if_neg hheader, if_pos (hbad.resolve_left hheader)]
      simp only [processOpen, hstate, if_true, hfail, drain_stop hread]
      simp [Conn.processed, Conn.atResult, Conn.consume]
    · have hread : read sys ctx c.session c.unread =
          .next ((c.session.opened sys.clock c.unread).greet sys ctx) [] btHandshakeLen := by
        simp only [read, hstate, hshort, if_false, hbad]
      have hnext : processHandshake sys ctx c =
          ({ c with session := c.session.opened sys.clock c.unread }.consume
            btHandshakeLen, .next) := by
        push Not at hbad
        simp only [processHandshake, hshort, if_false, hbad, not_true_eq_false, ne_eq]
      simp only [processOpen, hstate, if_true, hnext]
      rw [drain_next (read_incremental sys ctx) hread]
      have hopened : Live (c.session.opened sys.clock c.unread) := Or.inr rfl
      have hactive := (greet_kept sys ctx hopened).active rfl
      simp only [Conn.consume]
      generalize (c.session.opened sys.clock c.unread).greet sys ctx = s at hread hactive ⊢
      exact processActive_opened hread hactive
  · have hactive : c.session.peer.state = .active := live.resolve_left hstate
    simp only [processOpen, hstate, if_false]
    exact processActive_eq live (fun hno => absurd hno hstate)

end Buffer

end PeerIngest
