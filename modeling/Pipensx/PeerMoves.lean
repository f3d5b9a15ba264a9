import Pipensx.PeerIngest

/-!
# What receiving does to a connection

Whatever bytes come in, a connection changes by a few kinds of moves: the buffers, the
cipher and what is queued for sending; the state, as the handshakes go on; and one message
after the other. What the moves keep is kept by every call.
-/

namespace PeerIngest

open PeerSend PeerRequests

def Conn.peer (c : Conn) : Peer := c.session.peer

/-- Where `remember_dropped` writes next, and whether it has written outside. -/
def ring (p : Peer) : Int × Bool := (p.recentDroppedNext, p.overrun)

/-- Requests, state and transport are as before. -/
structure Quiet (c c' : Conn) : Prop where
  mseEnabled : c'.mseEnabled = c.mseEnabled
  utp : c'.peer.utp = c.peer.utp
  state : c'.peer.state = c.peer.state
  pipeline : c'.peer.pipeline = c.peer.pipeline
  downloaded : c'.peer.downloaded = c.peer.downloaded
  ring : ring c'.peer = ring c.peer

/-- The moves, with the callbacks they make. -/
inductive Moves : Conn → Conn → List Event → Prop where
  | quiet {c c' : Conn} : Quiet c c' → Moves c c' []
  | enter (c : Conn) (state : PeerState) : (state = .mse → c.mseEnabled = true) →
    Moves c (c.enter state) []
  | message (numPieces now : Nat) (c : Conn) (id : UInt8) {payload : List UInt8} :
      payload.length < 2 ^ 32 →
      Moves c { c with session := (dispatch numPieces now c.session id payload).1 }
        (dispatch numPieces now c.session id payload).2.1
  | trans {c c' c'' : Conn} {events more : List Event} :
      Moves c c' events → Moves c' c'' more → Moves c c'' (events ++ more)

section Calls

variable {c c' c'' : Conn} {events : List Event} (sys : System) (ctx : Ctx)

theorem Quiet.trans (first : Quiet c c') (second : Quiet c' c'') : Quiet c c'' :=
  ⟨second.mseEnabled.trans first.mseEnabled, second.utp.trans first.utp,
    second.state.trans first.state,
    second.pipeline.trans first.pipeline, second.downloaded.trans first.downloaded,
    second.ring.trans first.ring⟩

/-- Only the buffer and the cipher have changed. -/
theorem Quiet.of_session (session : c'.session = c.session)
    (mseEnabled : c'.mseEnabled = c.mseEnabled) :
    Quiet c c' := by
  refine ⟨mseEnabled, ?_, ?_, ?_, ?_, ?_⟩ <;> rw [Conn.peer, Conn.peer, session]

theorem Quiet.refl (c : Conn) : Quiet c c := Quiet.of_session rfl rfl

/-- A quiet move and what comes after it. -/
theorem Moves.after_quiet (first : Quiet c c') (second : Moves c' c'' events) :
    Moves c c'' events := by
  have hboth := (Moves.quiet first).trans second
  rw [List.nil_append] at hboth
  exact hboth

theorem Moves.then_quiet (first : Moves c c' events) (second : Quiet c' c'') :
    Moves c c'' events := by
  have hboth := first.trans (.quiet second)
  rw [List.append_nil] at hboth
  exact hboth

theorem processMessage_moves (c : Conn) :
    Moves c (processMessage sys ctx c).1 (processMessage sys ctx c).2.1 := by
  unfold PeerIngest.processMessage
  split
  · exact .quiet (Quiet.refl c)
  · exact .quiet (Quiet.refl c)
  · exact .quiet (Quiet.of_session rfl rfl)
  · next id payload rest hframe =>
    have hmessage := Moves.message ctx.numPieces (sys.clock c.session.readings) c id
      (nextFrame_message hframe)
    dsimp only
    split
    · exact hmessage.then_quiet ⟨rfl, rfl, rfl, rfl, rfl, rfl⟩
    · exact hmessage

theorem processMessages_moves (fuel : Nat) (c : Conn) :
    Moves c (processMessages sys ctx fuel c).conn (processMessages sys ctx fuel c).events := by
  induction fuel generalizing c with
  | zero => exact .quiet (Quiet.refl c)
  | succ fuel ih =>
    have hmessage := processMessage_moves sys ctx c
    unfold processMessages
    split
    · split
      · next heq =>
        rw [heq] at hmessage
        exact hmessage
      · next heq =>
        rw [heq] at hmessage
        exact hmessage
      · next c' events heq =>
        rw [heq] at hmessage
        exact hmessage.trans (ih c')
    · exact .quiet (Quiet.refl c)

theorem rewind_quiet (c : Conn) : Quiet c c.rewind := by
  unfold Conn.rewind
  split <;> exact Quiet.of_session rfl rfl

theorem processActive_moves (c : Conn) :
    Moves c (processActive sys ctx c).conn (processActive sys ctx c).events := by
  have hmessages := processMessages_moves sys ctx (c.unread.length + 1) c
  unfold processActive
  dsimp only
  split
  · exact hmessages.then_quiet (rewind_quiet _)
  · exact hmessages

theorem post_quiet (net : Transport) (c : Conn) (msg : List UInt8) :
    Quiet c { c with session := c.session.post net msg } := ⟨rfl, rfl, rfl, rfl, rfl, rfl⟩

theorem peerSendExtHandshake_quiet (net : Transport) (c : Conn) (listenPort : Nat) :
    Quiet c { c with session := peerSendExtHandshake net c.session listenPort } := by
  have hpost := post_quiet net c (extHandshake listenPort)
  unfold peerSendExtHandshake
  generalize c.session.post net (extHandshake listenPort) = s at hpost ⊢
  exact ⟨hpost.mseEnabled, hpost.utp, hpost.state, hpost.pipeline, hpost.downloaded, hpost.ring⟩

theorem peerSendBitfield_quiet (c : Conn) (bf : List UInt8) :
    Quiet c { c with session := peerSendBitfield sys c.session bf } := by
  unfold peerSendBitfield
  split
  · exact post_quiet sys.net c (5 :: bf)
  · exact Quiet.refl c

theorem peerSendInterested_quiet (net : Transport) (c : Conn) :
    Quiet c { c with session := peerSendInterested net c.session } := by
  have hflag : Quiet c { c with session := { c.session with amInterested := true } } :=
    ⟨rfl, rfl, rfl, rfl, rfl, rfl⟩
  exact hflag.trans (post_quiet net { c with
    session := { c.session with amInterested := true } } [2])

theorem greet_quiet (c : Conn) : Quiet c { c with session := c.session.greet sys ctx } := by
  have hfirst : Quiet c { c with session :=
      if c.session.supportsExt then peerSendExtHandshake sys.net c.session ctx.listenPort else
        c.session } := by
    split
    · exact peerSendExtHandshake_quiet sys.net c ctx.listenPort
    · exact Quiet.refl c
  unfold Session.greet
  exact (hfirst.trans (peerSendBitfield_quiet sys _ ctx.ourBf)).trans
    (peerSendInterested_quiet sys.net _)

theorem processHandshake_moves (c : Conn) : Moves c (processHandshake sys ctx c).1 [] := by
  unfold PeerIngest.processHandshake
  dsimp only
  split
  · exact .quiet (Quiet.refl c)
  · split
    · exact .quiet (Quiet.refl c)
    · split
      · exact .quiet (Quiet.refl c)
      · exact (Moves.enter c .active (fun h => PeerState.noConfusion h)).then_quiet
          ⟨rfl, rfl, rfl, rfl, rfl, rfl⟩

theorem processOpen_moves (c : Conn) :
    Moves c (processOpen sys ctx c).conn (processOpen sys ctx c).events := by
  have hopen := processHandshake_moves sys ctx c
  unfold processOpen
  split
  · split
    · next heq =>
      rw [heq] at hopen
      exact hopen
    · next c' heq =>
      rw [heq] at hopen
      exact hopen.trans (processActive_moves sys ctx c')
    · next c' heq =>
      rw [heq] at hopen
      have hgreeted := hopen.then_quiet (greet_quiet sys ctx c')
      exact hgreeted.trans (processActive_moves sys ctx
        { c' with session := c'.session.greet sys ctx })
  · exact processActive_moves sys ctx c

theorem sendRaw_quiet (net : Transport) (c : Conn) (data : List UInt8) :
    Quiet c (c.sendRaw net data).2 :=
  ⟨rfl, rfl, rfl, rfl, rfl, rfl⟩

theorem activate_moves (c : Conn) : Moves c c.activate [] :=
  (Moves.enter c .handshake (fun h => PeerState.noConfusion h)).then_quiet
    ⟨rfl, rfl, rfl, rfl, rfl, rfl⟩

theorem processMse_moves (c : Conn) : Moves c (processMse sys c).1 [] := by
  unfold processMse
  dsimp only
  generalize Mse.mseClientFeed sys.crypto 256 c.mse c.unread = r
  have hfed : Quiet c ({ c with mse := r.client }.consume r.consumed) := Quiet.of_session rfl rfl
  generalize { c with mse := r.client }.consume r.consumed = c1 at hfed ⊢
  have hsent : Quiet c (if r.produced.length > 0 then c1.sendRaw sys.net r.produced else
    (true, c1)).2 := by
    split
    · exact hfed.trans (sendRaw_quiet sys.net c1 r.produced)
    · exact hfed
  generalize (if r.produced.length > 0 then c1.sendRaw sys.net r.produced else (true, c1)) =
    sent at hsent ⊢
  split
  · exact .quiet hsent
  · cases r.status with
    | fail => exact .quiet hsent
    | done => exact (activate_moves sent.2).after_quiet hsent
    | more => exact .quiet hsent

theorem peerProcess_moves (c : Conn) :
    Moves c (peerProcess sys ctx c).conn (peerProcess sys ctx c).events := by
  have hmse := processMse_moves sys c
  unfold peerProcess
  split
  · dsimp only
    split
    · exact hmse.trans (processOpen_moves sys ctx (processMse sys c).1)
    · exact hmse
  · exact processOpen_moves sys ctx c

theorem peerRbufEnsure_quiet (c : Conn) : Quiet c (peerRbufEnsure sys c).2 := by
  unfold peerRbufEnsure
  split
  · exact Quiet.refl c
  · split <;> exact Quiet.of_session rfl rfl

theorem receive_quiet (c : Conn) (data : List UInt8) : Quiet c (c.receive data) := by
  unfold Conn.receive
  split <;> exact Quiet.of_session rfl rfl

theorem peerRbufAppend_quiet (c : Conn) (data : List UInt8) :
    Quiet c (peerRbufAppend sys c data).1 := by
  have hensure := peerRbufEnsure_quiet sys c
  have hrewind := hensure.trans (rewind_quiet (peerRbufEnsure sys c).2)
  unfold peerRbufAppend
  dsimp only
  generalize (peerRbufEnsure sys c).2.rewind = c1 at hrewind ⊢
  have hroom : Quiet c (if c1.tail < data.length ∧ c1.rbufHead > 0 then c1.compact else c1) := by
    split
    · exact hrewind.trans (Quiet.of_session rfl rfl)
    · exact hrewind
  generalize (if c1.tail < data.length ∧ c1.rbufHead > 0 then c1.compact else c1) = c2 at hroom ⊢
  split
  · exact Quiet.refl c
  · split
    · exact hensure
    · split
      · exact hroom
      · exact hroom.trans (receive_quiet c2 data)

theorem makeRoom_quiet (c : Conn) : Quiet c c.makeRoom := by
  unfold Conn.makeRoom
  split <;> exact Quiet.of_session rfl rfl

theorem recvLoop_moves (reads : List NetRead) (c : Conn) {r : Received}
    (h : recvLoop sys ctx reads c = some r) : Moves c r.conn r.events := by
  have hroom : ∀ c, Moves c (peerProcess sys ctx c).conn.makeRoom (peerProcess sys ctx c).events :=
    fun c =>
    (peerProcess_moves sys ctx c).then_quiet (makeRoom_quiet (peerProcess sys ctx c).conn)
  refine recvLoop_induction (motive := fun c r => Moves c r.conn r.events) ?_ ?_ ?_ h
  · exact fun c _ => peerProcess_moves sys ctx c
  · exact fun c _ _ => hroom c
  · intro c bytes t _ _ ih
    exact ((hroom c).then_quiet (receive_quiet _ bytes)).trans ih

theorem peerConnected_moves (c : Conn) : Moves c (peerConnected sys ctx c).2 [] := by
  unfold peerConnected
  split
  · next henabled =>
    generalize Mse.mseClientStart sys.crypto c.mse ctx.infoHash sys.priv [] (buildHandshake ctx)
      Mse.mseDhLen = r
    have hstarted : Quiet c { c with mse := r.1 } := Quiet.of_session rfl rfl
    dsimp only
    split
    · exact .quiet hstarted
    · have henter := Moves.enter { c with mse := r.1 } .mse (fun _ => henabled)
      exact (henter.after_quiet hstarted).then_quiet (sendRaw_quiet sys.net _ _)
  · have henter := Moves.enter c .handshake (fun h => PeerState.noConfusion h)
    exact henter.then_quiet (sendRaw_quiet sys.net _ _)

/-- The bytes come by TCP. -/
theorem peerRecv_moves (reads : List NetRead) (c : Conn) {r : Received}
    (h : peerRecv sys ctx reads c = some r) : Moves c r.conn r.events := by
  unfold peerRecv at h
  split at h
  · split at h
    · cases h
      exact .quiet (Quiet.refl c)
    · cases h
      exact peerConnected_moves sys ctx c
  · dsimp only at h
    have hensure := peerRbufEnsure_quiet sys c
    split at h
    · exact (recvLoop_moves sys ctx reads _ h).after_quiet hensure
    · cases h
      exact .quiet hensure

/-- The bytes come by μTP. -/
theorem utpReceive_moves (chunk : List UInt8) (c : Conn) :
    Moves c (utpReceive sys ctx chunk c).conn (utpReceive sys ctx chunk c).events := by
  have happend := peerRbufAppend_quiet sys c chunk
  unfold utpReceive
  dsimp only
  split
  · exact (peerProcess_moves sys ctx (peerRbufAppend sys c chunk).1).after_quiet happend
  · exact .quiet happend

end Calls

end PeerIngest
