import Pipensx.Engine
import Pipensx.PeerMoves
import Pipensx.PeerQueue

/-!
# Dialling peers

Where `core/torrent.c` keeps the endpoints it knows: the queue of those to dial, the slots of
the connected peers and the blocklist. Peers are found by trackers, the DHT, other peers and
the application; they are dialled from the queue and leave their slots when something fails.
A handler of `torrent_tick` is one step, and the steps come in any order.

The clock is monotone: a step says how much later each of its readings is than the one
before. `history` is a record that no function reads.
-/

namespace PeerDial

open PeerSend PeerRequests PeerIngest PeerQueue TorrentEngine

/-- `PEER_BLOCKLIST_SIZE`. -/
def peerBlocklistSize : Nat := 64

/-- `PEER_BLOCKLIST_MS`. -/
def peerBlocklistMs : Nat := 60000

/-- `CONNECT_TIMEOUT_MS`. -/
def connectTimeoutMs : Nat := 3000

/-- What is fixed for the life of a torrent; `utp` says whether there is a μTP context. -/
structure Setup where
  utp : Bool
  ctx : Ctx

/-- A peer in its slot: its address and the rest of `peer_t`. -/
structure Linked where
  addr : Endpoint
  conn : Conn

/-- An entry of the blocklist. -/
structure Blocked where
  addr : Endpoint
  untilMs : Nat

/-- The flags of a dial: over μTP, and without encryption. -/
abbrev Rung := Bool × Bool

/-- What happens to an endpoint. -/
inductive Note where
  | discovered (e : Endpoint)
  | attempt (e : Endpoint) (rung : Rung)
  | blocklisted (e : Endpoint)
  | active (e : Endpoint)
  deriving DecidableEq, Repr

/-- The part of `torrent_t` that knows endpoints. `now` is the last reading of the clock,
`tickMs` and `sweepMs` are the variables `now` and `now2` of `torrent_tick`. -/
structure Torrent where
  queue : Queue
  peers : Nat → Option Linked
  numPeers : Nat
  blocklist : Nat → Blocked
  blocklistNext : Nat
  now : Nat
  tickMs : Nat
  sweepMs : Nat
  history : List Note

/-- A torrent that is new. -/
def created (now : Nat) : Torrent where
  queue := zeroed
  peers := fun _ => none
  numPeers := 0
  blocklist := fun _ => ⟨⟨0, 0⟩, 0⟩
  blocklistNext := 0
  now := now
  tickMs := now
  sweepMs := now
  history := []

/-- The endpoints of the connected peers. -/
def Torrent.connected (t : Torrent) : List Endpoint :=
  (List.range maxActivePeers).filterMap (fun slot => (t.peers slot).map Linked.addr)

/-- A reading of the clock. -/
def Torrent.read (t : Torrent) (elapsed : Nat) : Torrent := { t with now := t.now + elapsed }

def Torrent.note (t : Torrent) (n : Note) : Torrent := { t with history := t.history ++ [n] }

def Torrent.setPeer (t : Torrent) (slot : Nat) (k : Option Linked) : Torrent :=
  { t with peers := Function.update t.peers slot k }

/-- What `queue_insert` looks at besides the queue. -/
def Torrent.around (t : Torrent) : Surroundings where
  peers := t.connected
  blocklist := (List.range peerBlocklistSize).map
    (fun i => ((t.blocklist i).addr, (t.blocklist i).untilMs))
  now := t.now

def blocklistAdd (t : Torrent) (e : Endpoint) (now : Nat) : Torrent :=
  { t.note (.blocklisted e) with
    blocklist := Function.update t.blocklist (t.blocklistNext % peerBlocklistSize)
      ⟨e, now + peerBlocklistMs⟩
    blocklistNext := t.blocklistNext + 1 }

def queueInsert (t : Torrent) (a : PeerAddr) (front : Bool) (elapsed : Nat) : Torrent × Bool :=
  let t1 := t.read elapsed
  let r := PeerQueue.queueInsert t1.queue a front t1.around
  ({ t1 with queue := r.1 }, r.2)

/-- An endpoint that was found is queued. -/
def queuePush (t : Torrent) (e : Endpoint) (elapsed : Nat) : Torrent × Bool :=
  let r := queueInsert t ⟨e, 0, 0⟩ false elapsed
  (if r.2 then r.1.note (.discovered e) else r.1, r.2)

/-- The number `i` of a list of compact endpoints. -/
def compactEndpoint (compact : List UInt8) (i : Nat) : Endpoint :=
  let byte := fun k => compact.getD (6 * i + k) 0
  ⟨(byte 0).toUInt32 ||| (byte 1).toUInt32 <<< 8 ||| (byte 2).toUInt32 <<< 16 |||
    (byte 3).toUInt32 <<< 24, (byte 4).toUInt16 ||| (byte 5).toUInt16 <<< 8⟩

def endpoints (compact : List UInt8) (cnt : Nat) : List Endpoint :=
  (List.range cnt).map (compactEndpoint compact)

/-- One after the other is pushed; the number of those that were accepted. -/
def pushAll (elapsed : Nat → Nat) : List Endpoint → Torrent → Torrent × Nat
  | [], t => (t, 0)
  | e :: rest, t =>
    let r := queuePush t e (elapsed rest.length)
    let s := pushAll elapsed rest r.1
    (s.1, s.2 + r.2.toNat)

/-- The endpoints that were queued before go to the back, with their flags. -/
def rotate (elapsed : Nat → Nat) : Nat → Torrent → Torrent
  | 0, t => t
  | k + 1, t =>
    match queuePop t.queue with
    | (_, none) => t
    | (q, some a) => rotate elapsed k (queueInsert { t with queue := q } a false (elapsed k)).1

/-- The endpoints as `torrent_add_initial_peers` reads them: the offset `i * 6` has 32 bits. -/
def initialEndpoints (compact : List UInt8) (count : Nat) : List Endpoint :=
  (List.range count).map (fun i => compactEndpoint (compact.drop (i * 6 % 2 ^ 32)) 0)

def torrentAddInitialPeers (t : Torrent) (compact : List UInt8) (count : Nat)
    (pushing rotating : Nat → Nat) : Torrent × Nat :=
  let r := pushAll pushing (initialEndpoints compact count) t
  (if r.2 > 0 then rotate rotating t.queue.qsize r.1 else r.1, r.2)

/-- `use_utp` and `no_mse` of an entry. -/
def rung (a : PeerAddr) : Rung := (a.useUtp != 0, a.noMse != 0)

def requeueUtp (u : Setup) (t : Torrent) (e : Endpoint) (elapsed : Nat) : Torrent × Bool :=
  if u.utp then queueInsert t ⟨e, 0, 1⟩ true elapsed else (t, false)

def shouldRetryUtp (u : Setup) (c : Conn) : Bool :=
  u.utp && !c.peer.utp && (decide (c.peer.state = .connecting) || decide
    (c.peer.state = .handshake))

/-- `handle_dial_failure`, with two readings of the clock. -/
def handleDialFailure (u : Setup) (t : Torrent) (e : Endpoint) (mseHs canUtp : Bool)
    (useUtp : UInt8) (now elapsed elapsed' : Nat) : Torrent :=
  let plain := if mseHs then queueInsert t ⟨e, 1, useUtp⟩ true elapsed else (t, false)
  if plain.2 then plain.1
  else
    let retry := if canUtp then requeueUtp u plain.1 e elapsed' else (plain.1, false)
    if retry.2 then retry.1 else blocklistAdd retry.1 e now

/-- The peer leaves its slot. -/
def Torrent.free (t : Torrent) (slot : Nat) : Torrent :=
  { t.setPeer slot none with numPeers := t.numPeers - 1 }

/-- A peer whose connection failed, in the event loop and in the sweep. -/
def closePeer (u : Setup) (t : Torrent) (slot now elapsed elapsed' : Nat) : Torrent :=
  match t.peers slot with
  | none => t
  | some k =>
    handleDialFailure u (t.free slot) k.addr (decide (k.conn.peer.state = .mse))
      (shouldRetryUtp u k.conn) (if k.conn.peer.utp then 1 else 0) now elapsed elapsed'

/-- A peer that is not retried. -/
def evictPeer (t : Torrent) (slot now : Nat) : Torrent :=
  match t.peers slot with
  | none => t
  | some k => blocklistAdd (t.free slot) k.addr now

/-- `peer_create` and `peer_create_utp`; `fill_ctx` asks for encryption. -/
def peerCreate (u : Setup) (a : PeerAddr) (now : Nat) : Linked where
  addr := a.endpoint
  conn :=
    { session := ⟨peerAlloc (a.useUtp != 0) ((u.ctx.numPieces + 7) / 8) now
        pipelineBootstrapBps, false, false, false, 0, false, 0, 0⟩
      mseEnabled := a.noMse == 0
      mse := Mse.Client.fresh [] [] []
      allocated := false
      rbuf := []
      rbufHead := 0
      consumed := 0 }

def freeSlot (t : Torrent) : Option Nat :=
  (List.range maxActivePeers).find? (fun slot => (t.peers slot).isNone)

/-- The peer is put into the first free slot. -/
def placePeer (t : Torrent) (k : Linked) : Torrent :=
  match freeSlot t with
  | some slot => { t.setPeer slot (some k) with numPeers := t.numPeers + 1 }
  | none => blocklistAdd t k.addr t.now

/-- What is done with an entry that was taken off the queue. `socket` and `alloc` say whether
there is a socket and memory. -/
def dial (u : Setup) (t : Torrent) (a : PeerAddr) (socket alloc : Bool) (elapsed elapsed' : Nat) :
    Torrent :=
  if a.useUtp ≠ 0 then
    if u.utp = true ∧ socket = true ∧ alloc = true then
      placePeer (t.read elapsed) (peerCreate u a (t.now + elapsed))
    else blocklistAdd (t.read elapsed) a.endpoint (t.now + elapsed)
  else if socket = false then
    let r := requeueUtp u t a.endpoint elapsed
    if r.2 then r.1 else blocklistAdd (r.1.read elapsed') a.endpoint (r.1.now + elapsed')
  else if alloc then placePeer (t.read elapsed) (peerCreate u a (t.now + elapsed))
  else blocklistAdd (t.read elapsed) a.endpoint (t.now + elapsed)

def tryConnect (u : Setup) (t : Torrent) (socket alloc : Bool) (elapsed elapsed' : Nat) : Torrent :=
  if t.numPeers ≥ maxActivePeers then t
  else
    match queuePop t.queue with
    | (_, none) => t
    | (q, some a) =>
      dial u ({ t with queue := q }.note (.attempt a.endpoint (rung a))) a socket alloc
        elapsed elapsed'

/-- The connection of the peer in a slot goes on. -/
def setConn (t : Torrent) (slot : Nat) (k : Linked) (conn : Conn) : Torrent :=
  let t1 := t.setPeer slot (some { k with conn := conn })
  if conn.peer.state = .active ∧ k.conn.peer.state ≠ .active then t1.note (.active k.addr) else t1

/-- `utp_mark_dead`. -/
def utpMarkDead (t : Torrent) (slot : Nat) : Torrent :=
  match t.peers slot with
  | none => t
  | some k => t.setPeer slot (some { k with conn := k.conn.enter .dead })

/-- The calls of `cb_peers`. -/
def found (events : List PeerIngest.Event) : List Endpoint :=
  events.flatMap (fun | .onPeers compact cnt => endpoints compact cnt | _ => [])

/-- `out` after `peer_flush`. -/
def Conn.flush (net : Transport) (c : Conn) : Bool × Conn :=
  let r := peerFlush net c.peer.out
  (r.1, { c with session := { c.session with peer := { c.session.peer with out := r.2 } } })

/-- One round of the event loop, for a peer over TCP. -/
def pollPeer (u : Setup) (t : Torrent) (slot : Nat) (pollout : Bool) (sys : System)
    (reads : List NetRead) (elapsed : Nat → Nat) (elapsed' elapsed'' : Nat) : Torrent :=
  match t.peers slot with
  | none => t
  | some k =>
    if k.conn.peer.utp then t
    else
      let flushed := if k.conn.peer.state ≠ .connecting ∧
        pollout = true then Conn.flush sys.net k.conn
        else (true, k.conn)
      if flushed.1 = false then closePeer u (setConn t slot k flushed.2) slot t.tickMs
        elapsed' elapsed''
      else
        match peerRecv sys u.ctx reads flushed.2 with
        | none => t
        | some r =>
          let t1 := (pushAll elapsed (found r.events) (setConn t slot k r.conn)).1
          if r.ok then t1 else closePeer u t1 slot t.tickMs elapsed' elapsed''

/-- The μTP callbacks. -/
inductive UtpCall where
  | read (sys : System) (chunk : List UInt8) (elapsed : Nat → Nat)
  | connected (sys : System)
  | writable (net : Transport)
  | ended

def utpCallback (u : Setup) (t : Torrent) (slot : Nat) (call : UtpCall) : Torrent :=
  match t.peers slot with
  | none => t
  | some k =>
    if k.conn.peer.utp = false then t
    else
      match call with
      | .read sys chunk elapsed =>
        if k.conn.peer.state = .dead then t
        else
          let r := utpReceive sys u.ctx chunk k.conn
          let t1 := (pushAll elapsed (found r.events) (setConn t slot k r.conn)).1
          if r.ok then t1 else utpMarkDead t1 slot
      | .connected sys =>
        let r := peerConnected sys u.ctx k.conn
        let t1 := setConn t slot k r.2
        if r.1 then t1 else utpMarkDead t1 slot
      | .writable net =>
        let r := Conn.flush net k.conn
        let t1 := setConn t slot k r.2
        if r.1 then t1 else utpMarkDead t1 slot
      | .ended => utpMarkDead t slot

/-- Requests, cancels, expiry and the estimates of rates leave state and transport alone. -/
def Conn.edit (c : Conn) (p : Peer) : Conn :=
  { c with
    session := { c.session with peer := { p with state := c.peer.state, utp := c.peer.utp } } }

/-- What the sweep makes of a peer. -/
inductive Verdict where
  | keep (p : Peer)
  | close
  | evict

def verdict (p : Peer) (now : Nat) : Verdict :=
  match p.state with
  | .dead => .evict
  | .active =>
    let idleRef := if p.lastPieceMs ≠ 0 then p.lastPieceMs else p.connectTimeMs
    if p.amChoked = true ∧ idleRef ≤ now ∧ now - idleRef ≥ 20000 then .evict
    else
      let r := peerExpireRequests p now (if p.lastPieceMs ≠ 0 then 15000 else 4000)
      let p1 := if r.2 = [] then r.1 else strike r.1 now
      if r.2 ≠ [] ∧ p1.timeoutStrikes ≥ 3 ∧ idleRef ≤ now ∧ now - idleRef ≥ 30000 then .evict
      else if p.lastRecvMs ≤ now ∧ now - p.lastRecvMs > 60000 then .evict
      else .keep p1
  | _ =>
    if p.connectTimeMs ≤ now ∧ now - p.connectTimeMs > connectTimeoutMs then .close else .keep p

/-- One round of the timeout sweep. -/
def sweepPeer (u : Setup) (t : Torrent) (slot elapsed elapsed' : Nat) : Torrent :=
  match t.peers slot with
  | none => t
  | some k =>
    match verdict k.conn.peer t.sweepMs with
    | .evict => evictPeer t slot t.sweepMs
    | .close => closePeer u t slot t.sweepMs elapsed elapsed'
    | .keep p => t.setPeer slot (some { k with conn := Conn.edit k.conn p })

inductive Op where
  | initialPeers (compact : List UInt8) (count : Nat) (pushing rotating : Nat → Nat)
  | tick (elapsed : Nat)
  | discover (e : Endpoint) (elapsed : Nat)
  | connect (socket alloc : Bool) (elapsed elapsed' : Nat)
  | poll (slot : Nat) (pollout : Bool) (sys : System) (reads : List NetRead) (elapsed : Nat → Nat)
      (elapsed' elapsed'' : Nat)
  | utp (slot : Nat) (call : UtpCall)
  | edit (slot : Nat) (p : Peer)
  | sweepBegins (elapsed : Nat)
  | sweep (slot elapsed elapsed' : Nat)

/-- The slots are those of the array. -/
def inArray (slot : Nat) (t t' : Torrent) : Torrent := if slot < maxActivePeers then t' else t

def step (u : Setup) (t : Torrent) : Op → Torrent
  | .initialPeers compact count pushing rotating =>
    (torrentAddInitialPeers t compact count pushing rotating).1
  | .tick elapsed => { t.read elapsed with tickMs := t.now + elapsed }
  | .discover e elapsed => (queuePush t e elapsed).1
  | .connect socket alloc elapsed elapsed' => tryConnect u t socket alloc elapsed elapsed'
  | .poll slot pollout sys reads elapsed elapsed' elapsed'' =>
    inArray slot t (pollPeer u t slot pollout sys reads elapsed elapsed' elapsed'')
  | .utp slot call => inArray slot t (utpCallback u t slot call)
  | .edit slot p =>
    inArray slot t (match t.peers slot with
      | none => t
      | some k => t.setPeer slot (some { k with conn := Conn.edit k.conn p }))
  | .sweepBegins elapsed => { t.read elapsed with sweepMs := t.now + elapsed }
  | .sweep slot elapsed elapsed' => inArray slot t (sweepPeer u t slot elapsed elapsed')

def run (u : Setup) (t : Torrent) (ops : List Op) : Torrent := ops.foldl (step u) t

end PeerDial
