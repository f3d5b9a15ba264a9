import Pipensx.Mse
import Pipensx.PeerRequests
import Pipensx.TorrentFile

/-!
# The bytes a peer receives

The two ways bytes come in, in `core/peer.c`: `peer_rbuf_append` followed by `peer_process`
for uTP, and the read loop of `peer_recv` for TCP. The receive buffer is linear, with a
cursor: `rbuf` holds its first `rbuf_len` bytes, those before `rbufHead` consumed already.
The callbacks are returned as a list of events.
-/

namespace PeerIngest

open PeerSend PeerRequests

/-- `PEER_RECV_BUFFER_SIZE`. -/
def peerRecvBufferSize : Nat := 256 * 1024 + 4

/-- The calls of `on_block`, `on_have` and `on_peers`. -/
inductive Event where
  | onBlock (idx off : Nat) (data : List UInt8)
  | onHave (idx : Nat)
  | onPeers (compact : List UInt8) (cnt : Nat)
  deriving DecidableEq, Repr

/-- What is outside the peer: the transport, the clock by number of reading, `malloc` by
size, the cryptography, the bytes `mse_dh_private` draws, and `SO_ERROR`. -/
structure System where
  net : Transport
  clock : Nat → Nat
  malloc : Nat → Bool
  crypto : Mse.Crypto
  priv : List UInt8
  connectError : Bool

/-- `peer_ctx_t`. -/
structure Ctx where
  infoHash : List UInt8
  peerId : List UInt8
  numPieces : Nat
  ourBf : List UInt8
  listenPort : Nat

/-- What messages change in `peer_t`. The bytes are in the buffer of the connection, not in
`peer.rbuf`; `readings` counts the readings of the clock. -/
structure Session where
  peer : Peer
  amInterested : Bool
  peerInterested : Bool
  supportsExt : Bool
  peerExtPex : UInt8
  extHandshakeSent : Bool
  telemetryPieceBytes : Nat
  readings : Nat

/-- `peer_t`, as far as receiving goes. The sending stream of `mse` is that of `peer.out`. -/
structure Conn where
  session : Session
  mseEnabled : Bool
  mse : Mse.Client
  allocated : Bool
  rbuf : List UInt8
  rbufHead : Nat
  -- how far the cursor has come since the connection was opened
  consumed : Nat

/-- The bytes not yet consumed. -/
def Conn.unread (c : Conn) : List UInt8 := c.rbuf.drop c.rbufHead

/-- What a call returns, with the callbacks it has made; `ok` is false for -1. -/
structure Received where
  conn : Conn
  events : List Event
  ok : Bool

/-- A later part of the same call, or a later call. -/
def Received.after (r : Received) (events : List Event) : Received :=
  { r with events := events ++ r.events }

/-- The bytes of a message as the bencode parser sees them. -/
def memory (data : List UInt8) : Bencode.Memory := fun i => data.getD i 0

/-- `parse_ext_handshake`: the new `peer_ext_pex`, if there is one. -/
def parseExtHandshake (data : List UInt8) : Option UInt8 :=
  if data.length = 0 ∨ memory data 0 ≠ Bencode.letterD then none
  else
    match Bencode.beDictGet (memory data) 0 data.length (TorrentFile.ascii ['m']) with
    | none => none
    | some m =>
      if m.type ≠ .dict then none
      else
        match Bencode.beDictGet (memory data) m.buf (m.buf + m.rawLen)
            (TorrentFile.ascii ['u', 't', '_', 'p', 'e', 'x']) with
        | none => none
        | some pexId =>
          if pexId.type = .int then some (UInt8.ofNat (pexId.ival % 2 ^ 8).toNat) else none

def parsePex (data : List UInt8) : List Event :=
  match Bencode.beDictGet (memory data) 0 data.length
    (TorrentFile.ascii ['a', 'd', 'd', 'e', 'd']) with
  | none => []
  | some added =>
    let cnt := added.slen / 6 % 2 ^ 32
    if added.type = .str ∧ cnt > 0 then
      [.onPeers (Bencode.slice (memory data) added.sval (6 * cnt)) cnt]
    else []

/-- The branch for `MSG_EXTENDED`. -/
def processExtended (s : Session) (payload : List UInt8) : Session × List Event :=
  match payload with
  | [] => (s, [])
  | extId :: data =>
    if extId = 0 then ({ s with peerExtPex := (parseExtHandshake data).getD s.peerExtPex }, [])
    else if s.peerExtPex ≠ 0 ∧ extId = s.peerExtPex then (s, parsePex data)
    else (s, [])

/-- The switch of `process_message`; the last component is false where it returns -1. -/
def dispatch (numPieces now : Nat) (s : Session) (id : UInt8) (payload : List UInt8) :
    Session × List Event × Bool :=
  let r := PeerRequests.dispatch numPieces now s.peer id payload
  match id.toNat with
  | 2 => ({ s with peerInterested := true }, [], true)
  | 3 => ({ s with peerInterested := false }, [], true)
  | 4 => ({ s with peer := r.1 }, if payload.length ≥ 4 then [.onHave (be32 payload)] else [], true)
  | 20 =>
    let e := processExtended s payload
    (e.1, e.2, true)
  | _ =>
    match r.2 with
    | .fail => ({ s with peer := r.1 }, [], false)
    | .block idx off data =>
      ({ s with peer := r.1, telemetryPieceBytes := s.telemetryPieceBytes + data.length },
        [.onBlock idx off data], true)
    | _ => ({ s with peer := r.1 }, [], true)

/-- `p->last_recv_ms = now_ms()`. -/
def Session.touch (clock : Nat → Nat) (s : Session) : Session :=
  { s with peer := { s.peer with lastRecvMs := clock s.readings }, readings := s.readings + 1 }

/-- One reading of the clock. -/
def Session.tick (s : Session) : Session := { s with readings := s.readings + 1 }

/-- The return value of `process_handshake` and `process_message`: 0, -1 or 1. -/
inductive Progress where
  | wait
  | fail
  | next
  deriving DecidableEq, Repr

/-- `p->rbuf_head += n`. -/
def Conn.consume (c : Conn) (n : Nat) : Conn :=
  { c with rbufHead := c.rbufHead + n, consumed := c.consumed + n }

def processMessage (sys : System) (ctx : Ctx) (c : Conn) : Conn × List Event × Progress :=
  match nextFrame c.unread with
  | .wait => (c, [], .wait)
  | .oversized => (c, [], .fail)
  | .keepalive _ => (c.consume 4, [], .next)
  | .message id payload _ =>
    let r := dispatch ctx.numPieces (sys.clock c.session.readings) c.session id payload
    if r.2.2 then ({ c with session := r.1.tick.touch sys.clock }.consume
      (4 + (payload.length + 1)), r.2.1, .next)
    else ({ c with session := r.1 }, r.2.1, .fail)

/-- The handshake is accepted. -/
def Session.opened (clock : Nat → Nat) (s : Session) (hs : List UInt8) : Session :=
  { s with
    supportsExt := hs.getD 25 0 &&& 0x10 != 0
    peer := { s.peer with state := .active } }.touch clock

def processHandshake (sys : System) (ctx : Ctx) (c : Conn) : Conn × Progress :=
  let hs := c.unread
  if hs.length < btHandshakeLen then (c, .wait)
  else if hs.take 20 ≠ handshakeHeader then (c, .fail)
  else if (hs.drop 28).take 20 ≠ ctx.infoHash then (c, .fail)
  else ({ c with session := c.session.opened sys.clock hs }.consume btHandshakeLen, .next)

/-- A message that is sent without looking at the result. -/
def Session.post (net : Transport) (s : Session) (msg : List UInt8) : Session :=
  { s with peer := { s.peer with out := (sendMsg net s.peer.out msg).2 } }

/-- The text of `peer_send_ext_handshake`. -/
def extHandshake (listenPort : Nat) : List UInt8 :=
  [20, 0] ++ TorrentFile.ascii "d1:md6:ut_pexi1ee1:pi".toList ++
    TorrentFile.ascii (toString (listenPort % 2 ^ 16)).toList ++ TorrentFile.ascii
    "e11:upload_onlyi0ee".toList

def peerSendExtHandshake (net : Transport) (s : Session) (listenPort : Nat) : Session :=
  { s.post net (extHandshake listenPort) with extHandshakeSent := true }

def peerSendBitfield (sys : System) (s : Session) (bf : List UInt8) : Session :=
  if sys.malloc (1 + bf.length) then s.post sys.net (5 :: bf) else s

def peerSendInterested (net : Transport) (s : Session) : Session :=
  { s with amInterested := true }.post net [2]

/-- What `peer_process` sends after the handshake. -/
def Session.greet (sys : System) (ctx : Ctx) (s : Session) : Session :=
  let s1 := if s.supportsExt then peerSendExtHandshake sys.net s ctx.listenPort else s
  peerSendInterested sys.net (peerSendBitfield sys s1 ctx.ourBf)

/-- `build_handshake`. -/
def buildHandshake (ctx : Ctx) : List UInt8 :=
  handshakeHeader ++ [0, 0, 0, 0, 0, 0x10, 0, 1] ++ ctx.infoHash ++ ctx.peerId

def Conn.enter (c : Conn) (state : PeerState) : Conn :=
  { c with session := { c.session with peer := { c.session.peer with state := state } } }

/-- `peer_send_raw` on the connection. -/
def Conn.sendRaw (net : Transport) (c : Conn) (data : List UInt8) : Bool × Conn :=
  let r := peerSendRaw net c.session.peer.out data
  (r.1, { c with session := { c.session with peer := { c.session.peer with out := r.2 } } })

/-- `peer_connected`; false is its failure. -/
def peerConnected (sys : System) (ctx : Ctx) (c : Conn) : Bool × Conn :=
  if c.mseEnabled then
    let r := Mse.mseClientStart sys.crypto c.mse ctx.infoHash sys.priv []
      (buildHandshake ctx) Mse.mseDhLen
    if r.2.1 ≠ .more then (false, { c with mse := r.1 })
    else ({ c with mse := r.1 }.enter .mse).sendRaw sys.net r.2.2
  else (c.enter .handshake).sendRaw sys.net (buildHandshake ctx)

/-- `MSE_DONE`: the bytes after the handshake are decrypted in place. -/
def Conn.activate (c : Conn) : Conn :=
  let r := rc4Crypt c.mse.recvRc4 c.unread
  let out := { c.session.peer.out with mseActive := true, sendRc4 := c.mse.sendRc4 }
  { c with
    mse := { c.mse with recvRc4 := r.2 }
    rbuf := c.rbuf.take c.rbufHead ++ r.1
    session := { c.session with peer := { c.session.peer with out := out, state := .handshake } } }

/-- The branch of `peer_process` for `PS_MSE`. -/
def processMse (sys : System) (c : Conn) : Conn × Bool :=
  let r := Mse.mseClientFeed sys.crypto 256 c.mse c.unread
  let c1 := { c with mse := r.client }.consume r.consumed
  let sent := if r.produced.length > 0 then c1.sendRaw sys.net r.produced else (true, c1)
  if sent.1 = false then (sent.2, false)
  else
    match r.status with
    | .fail => (sent.2, false)
    | .done => (sent.2.activate, true)
    | .more => (sent.2, true)

/-- The `while` of `peer_process`. A message takes at least four bytes, so the fuel is
enough. -/
def processMessages (sys : System) (ctx : Ctx) : Nat → Conn → Received
  | 0, c => ⟨c, [], true⟩
  | fuel + 1, c =>
    if c.session.peer.state = .active then
      match processMessage sys ctx c with
      | (c', events, .fail) => ⟨c', events, false⟩
      | (c', events, .wait) => ⟨c', events, true⟩
      | (c', events, .next) => (processMessages sys ctx fuel c').after events
    else ⟨c, [], true⟩

/-- The cursor goes back to the front when everything is consumed. -/
def Conn.rewind (c : Conn) : Conn :=
  if c.rbufHead = c.rbuf.length then { c with rbuf := [], rbufHead := 0 } else c

/-- The end of `peer_process`, from `PS_ACTIVE` on. -/
def processActive (sys : System) (ctx : Ctx) (c : Conn) : Received :=
  let r := processMessages sys ctx (c.unread.length + 1) c
  if r.ok then { r with conn := r.conn.rewind } else r

/-- `peer_process` from `PS_HANDSHAKE` on. -/
def processOpen (sys : System) (ctx : Ctx) (c : Conn) : Received :=
  if c.session.peer.state = .handshake then
    match processHandshake sys ctx c with
    | (c', .fail) => ⟨c', [], false⟩
    | (c', .wait) => processActive sys ctx c'
    | (c', .next) => processActive sys ctx { c' with session := c'.session.greet sys ctx }
  else processActive sys ctx c

def peerProcess (sys : System) (ctx : Ctx) (c : Conn) : Received :=
  if c.session.peer.state = .mse then
    let r := processMse sys c
    if r.2 then processOpen sys ctx r.1 else ⟨r.1, [], false⟩
  else processOpen sys ctx c

/-- The free capacity, the consumed bytes counted as free. -/
def peerRbufSpace (c : Conn) : Nat := peerRecvBufferSize - (c.rbuf.length - c.rbufHead)

/-- The room after `rbuf_len`. -/
def Conn.tail (c : Conn) : Nat := peerRecvBufferSize - c.rbuf.length

/-- The unread bytes are moved to the front. -/
def Conn.compact (c : Conn) : Conn := { c with rbuf := c.unread, rbufHead := 0 }

/-- The bytes are put after `rbuf_len` and decrypted there. -/
def Conn.receive (c : Conn) (data : List UInt8) : Conn :=
  if c.session.peer.out.mseActive then
    let r := rc4Crypt c.mse.recvRc4 data
    { c with rbuf := c.rbuf ++ r.1, mse := { c.mse with recvRc4 := r.2 } }
  else { c with rbuf := c.rbuf ++ data }

/-- `peer_rbuf_ensure`. -/
def peerRbufEnsure (sys : System) (c : Conn) : Bool × Conn :=
  if c.allocated then (true, c)
  else if sys.malloc peerRecvBufferSize then (true, { c with allocated := true })
  else (false, c)

/-- `peer_rbuf_append`; false is -1. -/
def peerRbufAppend (sys : System) (c : Conn) (data : List UInt8) : Conn × Bool :=
  if data.length = 0 then (c, true)
  else
    let e := peerRbufEnsure sys c
    if e.1 = false then (e.2, false)
    else
      let c1 := e.2.rewind
      let c2 := if c1.tail < data.length ∧ c1.rbufHead > 0 then c1.compact else c1
      if data.length > c2.tail then (c2, false) else (c2.receive data, true)

/-- What `net_recv` can return: some bytes, none of them at the end of the stream,
`EAGAIN`, or another error. -/
inductive NetRead where
  | data (bytes : List UInt8)
  | again
  | error

/-- The buffer is compacted when there is no room at its end. -/
def Conn.makeRoom (c : Conn) : Conn := if c.tail = 0 ∧ c.rbufHead > 0 then c.compact else c

/-- The read loop of `peer_recv`. When `reads` is used up there is `EAGAIN`; `none` is a
read of more bytes than were asked for. -/
def recvLoop (sys : System) (ctx : Ctx) : List NetRead → Conn → Option Received
  | reads, c =>
    let r := peerProcess sys ctx c
    if r.ok = false then some r
    else
      let c1 := r.conn.makeRoom
      if c1.tail = 0 then some ⟨c1, r.events, false⟩
      else
        match reads with
        | [] => some ⟨c1, r.events, true⟩
        | .again :: _ => some ⟨c1, r.events, true⟩
        | .error :: _ => some ⟨c1, r.events, false⟩
        | .data bytes :: rest =>
          if bytes.length > c1.tail then none
          else if bytes.length = 0 then some ⟨c1, r.events, false⟩
          else (recvLoop sys ctx rest (c1.receive bytes)).map (fun t => t.after r.events)

/-- A call of the loop fails on what is in the buffer, or stops behind it, or reads more and goes
on. -/
theorem recvLoop_induction {sys : System} {ctx : Ctx} {motive : Conn → Received → Prop}
    (fails : ∀ c, (peerProcess sys ctx c).ok = false → motive c (peerProcess sys ctx c))
    (stops : ∀ c ok, (peerProcess sys ctx c).ok = true →
      motive c ⟨(peerProcess sys ctx c).conn.makeRoom, (peerProcess sys ctx c).events, ok⟩)
    (more : ∀ c bytes t, (peerProcess sys ctx c).ok = true →
      bytes.length ≤ (peerProcess sys ctx c).conn.makeRoom.tail →
      motive ((peerProcess sys ctx c).conn.makeRoom.receive bytes) t →
        motive c (t.after (peerProcess sys ctx c).events))
    {reads : List NetRead} {c : Conn} {o : Received} (h : recvLoop sys ctx reads c = some o) :
    motive c o := by
  induction reads generalizing c o with
  | nil =>
    rw [recvLoop] at h
    dsimp only at h
    split at h
    · next hfail =>
      cases h
      exact fails c hfail
    · next hok =>
      split at h
      · cases h
        exact stops c false (Bool.of_not_eq_false hok)
      · cases h
        exact stops c true (Bool.of_not_eq_false hok)
  | cons first rest ih =>
    rw [recvLoop] at h
    dsimp only at h
    split at h
    · next hfail =>
      cases h
      exact fails c hfail
    · next hok =>
      split at h
      · cases h
        exact stops c false (Bool.of_not_eq_false hok)
      · cases first with
        | again =>
          cases h
          exact stops c true (Bool.of_not_eq_false hok)
        | error =>
          cases h
          exact stops c false (Bool.of_not_eq_false hok)
        | data bytes =>
          dsimp only at h
          split at h
          · cases h
          · next hfits =>
            split at h
            · cases h
              exact stops c false (Bool.of_not_eq_false hok)
            · obtain ⟨t, hrest, rfl⟩ := Option.map_eq_some_iff.mp h
              exact more c bytes t (Bool.of_not_eq_false hok) (Nat.le_of_not_lt hfits) (ih hrest)

def peerRecv (sys : System) (ctx : Ctx) (reads : List NetRead) (c : Conn) : Option Received :=
  if c.session.peer.state = .connecting then
    if sys.connectError then some ⟨c, [], false⟩
    else
      let r := peerConnected sys ctx c
      some ⟨r.2, [], r.1⟩
  else
    let e := peerRbufEnsure sys c
    if e.1 then recvLoop sys ctx reads e.2 else some ⟨e.2, [], false⟩

/-- `utp_cb_on_read`, whatever the size of the chunk. -/
def utpReceive (sys : System) (ctx : Ctx) (chunk : List UInt8) (c : Conn) : Received :=
  let a := peerRbufAppend sys c chunk
  if a.2 then peerProcess sys ctx a.1 else ⟨a.1, [], false⟩

/-- `utp_cb_on_read`: the bytes are appended and processed. `none` is a chunk that is larger
than the space libutp was told of. -/
def utpRead (sys : System) (ctx : Ctx) (chunk : List UInt8) (c : Conn) : Option Received :=
  if chunk.length > peerRbufSpace c then none
  else
    let a := peerRbufAppend sys c chunk
    if a.2 then some (peerProcess sys ctx a.1) else some ⟨a.1, [], false⟩

/-- One call after the other, until one returns -1. -/
def inTurn {α : Type} (call : α → Conn → Option Received) : List α → Conn → Option Received
  | [], c => some ⟨c, [], true⟩
  | a :: rest, c =>
    match call a c with
    | none => none
    | some r => if r.ok then (inTurn call rest r.conn).map (fun t => t.after r.events) else some r

/-- A stream is delivered by uTP in chunks, or by TCP in chunks that some calls of
`peer_recv` read. -/
inductive Delivery where
  | utp (chunks : List (List UInt8))
  | tcp (calls : List (List (List UInt8)))

def Delivery.chunks : Delivery → List (List UInt8)
  | .utp chunks => chunks
  | .tcp calls => calls.flatten

/-- The delivery cuts the stream into chunks, none of them empty, and no call of `peer_recv`
comes without one. -/
def Delivery.Cuts (d : Delivery) (stream : List UInt8) : Prop :=
  d.chunks.flatten = stream ∧ [] ∉ d.chunks ∧
    match d with
    | .utp _ => True
    | .tcp calls => [] ∉ calls

/-- `none` if some chunk does not fit the room that is offered. -/
def deliver (sys : System) (ctx : Ctx) (c : Conn) : Delivery → Option Received
  | .utp chunks => inTurn (utpRead sys ctx) chunks c
  | .tcp calls => inTurn (fun call => peerRecv sys ctx (call.map .data)) calls c

end PeerIngest
