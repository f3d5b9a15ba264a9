import Mathlib.Data.List.Sort
import Pipensx.HashPipeline
import Pipensx.PeerRequests
import Pipensx.PiecePicker

/-!
# The download engine

The torrent thread of `core/torrent.c`: connected peers in their slots, the piece manager
with its hash worker, and the handlers `torrent_tick` goes through. A handler is one step,
and the steps come in any order, so that every order in which ticks and the application
can call them is among the runs. The order of the handlers inside a tick is not used, and
neither are the trackers, the dial queue and the telemetry.

What the system answers is part of a step: the clock, the transport of each message sent,
the outcomes of allocations and writes, and the steps of the hash worker while the torrent
thread is inside the piece manager.
-/

namespace TorrentEngine

open PieceManager PeerRequests PieceGeometry

/-- `MAX_ACTIVE_PEERS`. -/
def maxActivePeers : Nat := 96

/-- `MIN_REQUEST_PIPELINE`. -/
def minRequestPipeline : Nat := 8

/-- `PIPELINE_TARGET_MS`. -/
def pipelineTargetMs : Nat := 2000

/-- `PIPELINE_BOOTSTRAP_BPS`. -/
def pipelineBootstrapBps : Nat := 1024 * 1024

/-- `BOOTSTRAP_PIPELINE`. -/
def bootstrapPipeline : Nat := 16

/-- `MAX_HEDGED_BLOCKS`. -/
def maxHedgedBlocks : Nat := 16

/-- `MAX_HEDGES_PER_TICK`. -/
def maxHedgesPerTick : Nat := 4

/-- `TIMEOUT_COOLDOWN_BASE_MS`. -/
def timeoutCooldownBaseMs : Nat := 2000

/-- `STRIKE_GRACE_MS`. -/
def strikeGraceMs : Nat := 2000

/-- `request_pipeline_limit` as `torrent_create_ex` clamps it. -/
def clampPipeline (option : Nat) : Nat :=
  max minRequestPipeline (min maxPipeline (if option ≠ 0 then option else maxPipeline))

/-- What is fixed for the life of a torrent. -/
structure Setup where
  pieces : Config
  pipelineOption : Nat
  hedgeAfterMs : Nat

def Setup.requestPipelineLimit (u : Setup) : Nat := clampPipeline u.pipelineOption

/-- The texts of `torrent_last_error`: that of the storage, or one of the two others. -/
inductive Failure where
  | storage (file : Nat)
  | pieceProcessing
  | webSeedPieceProcessing
  deriving DecidableEq, Repr

/-- `torrent_t`, with the hash worker of its piece manager. -/
structure Torrent where
  machine : Machine
  peers : Nat → Option Peer
  downloaded : Nat
  lastPayloadMs : Nat
  startupVerifying : Bool
  startupVerifyIndex : Nat
  startupVerifiedAll : Bool
  finalVerifying : Bool
  finalVerifyIndex : Nat
  lastHedgeMs : Nat
  hedgeEffectiveMs : Nat
  rateFreeze : Bool
  fatalError : Bool
  error : Option Failure

def Torrent.mgr (t : Torrent) : Mgr := t.machine.mgr

def Torrent.setMgr (t : Torrent) (s : Mgr) : Torrent :=
  { t with machine := { t.machine with mgr := s } }

def Torrent.setPeer (t : Torrent) (slot : Nat) (p : Option Peer) : Torrent :=
  { t with peers := Function.update t.peers slot p }

def Torrent.fail (t : Torrent) (otherwise : Failure) : Torrent :=
  { t with
    fatalError := true
    error := some (match t.mgr.store.error with | some file => .storage file | none => otherwise) }

/-- An action other than a new call of the torrent thread. -/
def inner : Act → Bool
  | .call _ _ => false
  | _ => true

/-- What happens during one call: the answers of the system, and the steps of both threads
until it returns. -/
structure Calling where
  env : Env
  acts : List Act

def returnValue (events : List Event) : Int :=
  (events.findSome? (fun | .returned value => some value | _ => none)).getD 0

/-- `cb_hash_result` for every result applied during a call. -/
def Torrent.hashResults (t : Torrent) (events : List Event) : Torrent :=
  if events.any (fun | .report _ status => decide (status < 0) | _ => false) then
    t.fail .pieceProcessing
  else t

/-- A whole call, if the steps given bring it to its end. -/
def callPieces (c : Config) (t : Torrent) (call : Call) (k : Calling) : Option (Torrent × Int) :=
  if k.acts.all inner = false then none
  else
    match run c t.machine (.call call k.env :: k.acts) with
    | none => none
    | some (m, events) =>
      if m.pc = .idle then
        some (Torrent.hashResults { t with machine := m } events, returnValue events)
      else none

def cancelDuplicateRequests (t : Torrent) (nets : Nat → PeerSend.Transport)
    (piece offset len : Nat) : Torrent :=
  { t with
    peers := fun slot =>
      (t.peers slot).map (fun p =>
        if slot < maxActivePeers ∧ p.state = .active then
          (peerCancelBlock (nets slot) p piece offset len).1
        else p) }

def cbBlock (c : Config) (t : Torrent) (idx off : Nat) (data : List UInt8) (now : Nat) (k : Calling)
    (nets : Nat → PeerSend.Transport) : Option Torrent :=
  let block := off / blockSize
  let alreadyHadBlock := hasBlock c t.mgr idx block
  let duplicated := decide (blockRequestCount c t.mgr idx block > 1)
  match callPieces c { t with downloaded := t.downloaded + data.length }
    (.gotBlock idx off (some data)) k with
  | none => none
  | some (t1, result) =>
    let t2 := if result ≥ 1 ∧ alreadyHadBlock = false then { t1 with lastPayloadMs := now } else t1
    let t3 := if result ≥ 1 ∧ duplicated = true then cancelDuplicateRequests t2 nets idx off
      data.length else t2
    some (if result < 0 then t3.fail .pieceProcessing else t3)

/-- The loop of `torrent_submit_web_piece` over the blocks from `block` on. -/
def submitBlocks (c : Config) (piece : Nat) (data : List UInt8) (calls : Nat → Calling) :
    Nat → Nat → Torrent → Option (Torrent × Bool)
  | 0, _, t => some (t, false)
  | fuel + 1, block, t =>
    let off := block * blockSize
    if off ≥ data.length then some (t, false)
    else if hasBlock c t.mgr piece block then submitBlocks c piece data calls fuel (block + 1) t
    else
      let bytes := (data.drop off).take blockSize
      match callPieces c t (.gotBlock piece off (some bytes)) (calls block) with
      | none => none
      | some (t1, result) =>
        if result < 0 then some (t1.fail .webSeedPieceProcessing, true)
        else submitBlocks c piece data calls fuel (block + 1)
          { t1 with downloaded := t1.downloaded + bytes.length }

/-- `torrent_submit_web_piece`; `last_payload_ms` is set when a block was taken. -/
def submitWebPiece (c : Config) (t : Torrent) (piece : Nat) (data : List UInt8) (alloc : Bool)
    (calls : Nat → Calling) (now : Nat) : Option Torrent :=
  if piece ≥ c.mi.numPieces ∨ ByteBits.msbHas t.mgr.haveBf piece = true ∨
      (data.length : Int) ≠ pieceLen c.mi piece % 2 ^ 32 then some t
  else
    match submitBlocks c piece data calls (data.length / blockSize + 1) 0
        (t.setMgr (markPending c alloc t.mgr piece)) with
    | none => none
    | some (t1, failed) =>
      some (if failed = false ∧
        t1.downloaded ≠ t.downloaded then { t1 with lastPayloadMs := now } else t1)

def clearRequest (c : Config) (s : Mgr) (r : BlockReq) : Mgr :=
  if r.index < 0 ∨ r.offset < 0 then s
  else clearBlockRequested c s r.index.toNat (r.offset.toNat / blockSize)

def clearPeerRequests (c : Config) (t : Torrent) (slot : Nat) (p : Peer) : Torrent :=
  (t.setMgr (p.pipeline.foldl (clearRequest c) t.mgr)).setPeer slot (some { p with pipeline := [] })

/-- `clear_peer_requests`, `peer_destroy` and an empty slot. -/
def removePeer (c : Config) (t : Torrent) (slot : Nat) : Torrent :=
  match t.peers slot with
  | none => t
  | some p => (clearPeerRequests c t slot p).setPeer slot none

/-- A connection that failed: a peer over TCP is removed, one over μTP is flagged for the
next sweep, as its socket belongs to libutp. -/
def dropPeer (c : Config) (t : Torrent) (slot : Nat) : Torrent :=
  match t.peers slot with
  | none => t
  | some p => if p.utp then t.setPeer slot (some { p with state := .dead }) else removePeer c t slot

/-- One round of the message loop in `peer_process`, with the callbacks it leads to. -/
def receiveMessage (c : Config) (t : Torrent) (slot now : Nat) (k : Calling)
    (nets : Nat → PeerSend.Transport) : Option Torrent :=
  match t.peers slot with
  | none => none
  | some p =>
    if p.state ≠ .active then none
    else
      let r := processMessage c.mi.numPieces now p
      let t1 := t.setPeer slot (some r.1)
      match r.2 with
      | .wait => some t1
      | .next => some t1
      | .fail => some (dropPeer c t1 slot)
      | .block idx off data => cbBlock c t1 idx off data now k nets

/-- A peer that chokes us gives its requests back. -/
def releaseChoked (c : Config) (t : Torrent) (slot now : Nat) : Option Torrent :=
  match t.peers slot with
  | none => none
  | some p =>
    if p.utp = false ∧ p.amChoked = true ∧ p.pipeline ≠ [] then
      some ((clearPeerRequests c t slot p).setPeer slot
        (some { p with pipeline := [], requestCooldownUntilMs := now + timeoutCooldownBaseMs }))
    else some t

/-- The strike for requests that expired, unless the peer has just delivered. -/
def strike (p : Peer) (now : Nat) : Peer :=
  if p.lastPieceMs ≠ 0 ∧ p.lastPieceMs ≤ now ∧ now - p.lastPieceMs < strikeGraceMs then
    { p with lastExpiryMs := now }
  else
    let strikes := if p.timeoutStrikes ≠ 2 ^ 32 - 1 then p.timeoutStrikes + 1 else p.timeoutStrikes
    { p with
      lastExpiryMs := now
      timeoutStrikes := strikes
      requestCooldownUntilMs := now + min (timeoutCooldownBaseMs * strikes) 10000 }

/-- One round of the timeout sweep of `torrent_tick`. -/
def sweepPeer (c : Config) (t : Torrent) (slot now : Nat) : Torrent :=
  match t.peers slot with
  | none => t
  | some p =>
    match p.state with
    | .dead => removePeer c t slot
    | .active =>
      let idleRef := if p.lastPieceMs ≠ 0 then p.lastPieceMs else p.connectTimeMs
      if p.amChoked = true ∧ idleRef ≤ now ∧ now - idleRef ≥ 20000 then removePeer c t slot
      else
        let r := peerExpireRequests p now (if p.lastPieceMs ≠ 0 then 15000 else 4000)
        let p1 := if r.2 = [] then r.1 else strike r.1 now
        let t1 := (t.setMgr (r.2.foldl (clearRequest c) t.mgr)).setPeer slot (some p1)
        if r.2 ≠ [] ∧ p1.timeoutStrikes ≥ 3 ∧ idleRef ≤ now ∧ now - idleRef ≥ 30000 then
          removePeer c t1 slot
        else if p.lastRecvMs ≤ now ∧ now - p.lastRecvMs > 60000 then removePeer c t1 slot
        else t1
    -- still connecting: the slot is given up without looking at the pipeline
    | _ =>
      if p.connectTimeMs ≤ now ∧ now - p.connectTimeMs > 3000 then t.setPeer slot none else t

def peerPipelineLimit (u : Setup) (p : Peer) : Nat :=
  if p.lastPieceMs = 0 then bootstrapPipeline
  else
    let want := min (p.dlRateBps * pipelineTargetMs % 2 ^ 64 / 1000 / blockSize)
      u.requestPipelineLimit
    max minRequestPipeline (want / 2 ^ min p.timeoutStrikes 2)

/-- The length `schedule_requests` computes for the block at `off`. -/
def requestLen (c : Config) (pidx off : Nat) : Nat :=
  if (off : Int) + blockSize ≤ pieceLen c.mi pidx then blockSize
  else ((pieceLen c.mi pidx - off) % 2 ^ 32).toNat

/-- The transport and the clock of one request. -/
structure Answer where
  net : PeerSend.Transport
  now : Nat

/-- The loop over the blocks of a piece, with the number of blocks asked for. -/
def requestBlocks (c : Config) (limit pidx : Nat) (answers : Nat → Answer) :
    List Nat → Mgr → Peer → Nat → Mgr × Peer × Nat
  | [], s, p, queued => (s, p, queued)
  | b :: rest, s, p, queued =>
    if p.pipeline.length ≥ limit then (s, p, queued)
    else
      let off := b * blockSize % 2 ^ 32
      if hasBlock c s pidx b = true ∨ blockRequestCount c s pidx b ≠ 0 ∨
        peerHasRequest p pidx off = true then
        requestBlocks c limit pidx answers rest s p queued
      else
        let r := peerRequestBlock (answers b).net (answers b).now p pidx off (requestLen c pidx off)
        if r.2 then
          requestBlocks c limit pidx answers rest (markBlockRequested c s pidx b) r.1 (queued + 1)
        else requestBlocks c limit pidx answers rest s r.1 queued

/-- What the system and the application answer in one round of `schedule_requests`. -/
structure Round where
  allowed : Nat → Bool
  alloc : Bool
  answers : Nat → Answer

/-- The loop of `schedule_requests`: a round that goes on has added a request, so `limit`
rounds are enough. -/
def scheduleLoop (c : Config) (limit : Nat) (rounds : Nat → Round) : Nat → Mgr → Peer → Mgr × Peer
  | 0, s, p => (s, p)
  | fuel + 1, s, p =>
    if p.pipeline.length ≥ limit then (s, p)
    else
      match pick c s (rounds fuel).allowed p.bitfield p.bfBytes with
      | none => (s, p)
      | some pidx =>
        let s1 := markPending c (rounds fuel).alloc s pidx
        let r := requestBlocks c limit pidx (rounds fuel).answers
          (List.range (s1.slots pidx).numBlocks) s1 p 0
        if r.2.2 = 0 then (r.1, r.2.1) else scheduleLoop c limit rounds fuel r.1 r.2.1

def scheduleRequests (u : Setup) (t : Torrent) (slot now : Nat) (rounds : Nat → Round) : Torrent :=
  match t.peers slot with
  | none => t
  | some p =>
    if p.amChoked = true ∨ p.state ≠ .active ∨ p.requestCooldownUntilMs > now then t
    else
      let limit := peerPipelineLimit u p
      let r := scheduleLoop u.pieces limit rounds limit t.mgr p
      (t.setMgr r.1).setPeer slot (some r.2)

/-- Whether `a` is to be preferred to the best peer so far. -/
def betterHedge (a best : Peer) : Bool :=
  decide (a.timeoutStrikes < best.timeoutStrikes) ||
    (decide (a.timeoutStrikes = best.timeoutStrikes) && decide
    (a.lastPieceMs > best.lastPieceMs)) ||
    (decide (a.timeoutStrikes = best.timeoutStrikes) && decide (a.lastPieceMs = best.lastPieceMs) &&
      decide (a.pipeline.length < best.pipeline.length))

def canHedge (u : Setup) (p : Peer) (piece offset now : Nat) : Bool :=
  decide (p.state = .active) && !p.amChoked && decide (p.requestCooldownUntilMs ≤ now) &&
    peerHas p.bitfield p.bfBytes piece && !peerHasRequest p piece offset &&
    decide (p.pipeline.length < peerPipelineLimit u p)

/-- `pick_hedge_peer`: the slot of the peer. -/
def pickHedgePeer (u : Setup) (peers : Nat → Option Peer) (primary piece offset now : Nat) :
    Option (Nat × Peer) :=
  (List.range maxActivePeers).foldl (fun best slot =>
    match peers slot with
    | none => best
    | some p =>
      if slot = primary ∨ canHedge u p piece offset now = false then best
      else
        match best with
        | none => some (slot, p)
        | some b => if betterHedge p b.2 then some (slot, p) else best) none

def adaptiveHedgeAfterMs (u : Setup) (peers : Nat → Option Peer) : Nat :=
  let latencies := (List.range maxActivePeers).filterMap (fun slot =>
    (peers slot).bind (fun p =>
      if p.state = .active ∧ p.blockLatEmaMs ≠ 0 then some p.blockLatEmaMs else none))
  if latencies.length < 2 then u.hedgeAfterMs
  else
    let threshold := (latencies.insertionSort (· ≤ ·)).getD (latencies.length / 2) 0 * 4
    min (max threshold 500) u.hedgeAfterMs

/-- The loop over the requests of one peer, from request number `j` on. -/
def hedgePipeline (u : Setup) (head primary budget hedgeAfterMs now : Nat)
    (answers : Nat → Nat → Answer) :
    List BlockReq → Nat → Mgr → (Nat → Option Peer) → Nat → Mgr × (Nat → Option Peer) × Nat
  | [], _, s, peers, hedged => (s, peers, hedged)
  | r :: rest, j, s, peers, hedged =>
    if hedged ≥ budget then (s, peers, hedged)
    else if r.index ≠ toInt head ∨ r.offset < 0 ∨ r.requestedMs > now ∨
        now - r.requestedMs < hedgeAfterMs then
      hedgePipeline u head primary budget hedgeAfterMs now answers rest (j + 1) s peers hedged
    else
      let offset := r.offset.toNat
      let block := offset / blockSize
      if hasBlock u.pieces s head block = true ∨ blockRequestCount u.pieces s head block ≠ 1 then
        hedgePipeline u head primary budget hedgeAfterMs now answers rest (j + 1) s peers hedged
      else
        match pickHedgePeer u peers primary head offset now with
        | none =>
          hedgePipeline u head primary budget hedgeAfterMs now answers rest (j + 1) s peers hedged
        | some (slot, p) =>
          let q := peerRequestBlock (answers primary j).net (answers primary j).now p head offset
            (r.length % 2 ^ 32).toNat
          let peers1 := Function.update peers slot (some q.1)
          if q.2 then
            hedgePipeline u head primary budget hedgeAfterMs now answers rest (j + 1)
              (markBlockRequested u.pieces s head block) peers1 (hedged + 1)
          else hedgePipeline u head primary budget hedgeAfterMs now answers rest (j + 1)
            s peers1 hedged

/-- The loop over the peers. -/
def hedgePeers (u : Setup) (head budget hedgeAfterMs now : Nat) (answers : Nat → Nat → Answer) :
    List Nat → Mgr → (Nat → Option Peer) → Nat → Mgr × (Nat → Option Peer) × Nat
  | [], s, peers, hedged => (s, peers, hedged)
  | slot :: rest, s, peers, hedged =>
    match peers slot with
    | none => hedgePeers u head budget hedgeAfterMs now answers rest s peers hedged
    | some p =>
      if p.state ≠ .active then hedgePeers u head budget hedgeAfterMs now answers rest
        s peers hedged
      else
        let r := hedgePipeline u head slot budget hedgeAfterMs now answers p.pipeline 0
          s peers hedged
        hedgePeers u head budget hedgeAfterMs now answers rest r.1 r.2.1 r.2.2

def scheduleHedgedRequests (u : Setup) (t : Torrent) (now : Nat) (answers : Nat → Nat → Answer) :
    Torrent :=
  if u.hedgeAfterMs = 0 ∨ u.pieces.strictOrder = false then t
  else if t.lastHedgeMs ≤ now ∧ now - t.lastHedgeMs < 250 then t
  else
    let t1 := { t with lastHedgeMs := now }
    match headPiece u.pieces t.mgr with
    | none => t1
    | some head =>
      let hedgeAfterMs := adaptiveHedgeAfterMs u t.peers
      let outstanding := (List.range (t.mgr.slots head).numBlocks).countP (fun b =>
        decide (blockRequestCount u.pieces t.mgr head b > 1))
      let t2 := { t1 with hedgeEffectiveMs := hedgeAfterMs }
      if outstanding ≥ maxHedgedBlocks then t2
      else
        let budget := min (maxHedgedBlocks - outstanding) maxHedgesPerTick
        let r := hedgePeers u head budget hedgeAfterMs now answers (List.range maxActivePeers)
          t.mgr t.peers 0
        { t2.setMgr r.1 with peers := r.2.1 }

def emaUpdate (previous sample : Nat) : Nat :=
  if sample ≥ previous then (previous + (sample - previous) * 3 % 2 ^ 64 / 10) % 2 ^ 64
  else previous - (previous - sample) * 3 % 2 ^ 64 / 10

/-- The rate of a peer since the last sample. The counters of its bytes do not wrap here, and the
difference is that of the `uint64_t` counters. -/
def rateSample (elapsedMs : Nat) (p : Peer) : Nat :=
  (p.downloaded - p.rateLastDownloaded) * 1000 % 2 ^ 64 / ((elapsedMs + 1) % 2 ^ 64)

/-- One round of `sample_peer_rates`. -/
def samplePeerRate (u : Setup) (frozen : Bool) (elapsedMs now : Nat) (p : Peer) : Peer :=
  if frozen then { p with rateLastDownloaded := p.downloaded }
  else
    let sample := rateSample elapsedMs p
    let next := emaUpdate p.dlRateBps sample
    let limit := peerPipelineLimit u p
    let binding := sample > 0 ∧ p.timeoutStrikes = 0 ∧ limit < u.requestPipelineLimit ∧
      p.pipeline.length * 4 % 2 ^ 32 ≥ limit * 3 % 2 ^ 32 ∧
      (p.lastExpiryMs = 0 ∨ (now + 2 ^ 64 - p.lastExpiryMs) % 2 ^ 64 ≥ strikeGraceMs)
    { p with
      dlRateBps := if binding then max next (p.dlRateBps * 3 % 2 ^ 64 / 2) else next
      rateLastDownloaded := p.downloaded }

def samplePeerRates (u : Setup) (t : Torrent) (elapsedMs now : Nat) : Torrent :=
  { t with
    peers := fun slot => (t.peers slot).map (fun p =>
      if slot < maxActivePeers then samplePeerRate u t.rateFreeze elapsedMs now p else p) }

/-- One round of the startup verification, and its end after the last piece. -/
def startupRound (c : Config) (t : Torrent) (alloc : Bool) : Torrent :=
  let t1 :=
    if t.startupVerifyIndex < c.mi.numPieces then
      { t.setMgr (checkExisting c alloc t.mgr t.startupVerifyIndex).1 with
        startupVerifyIndex := t.startupVerifyIndex + 1 }
    else t
  if t1.startupVerifyIndex ≥ c.mi.numPieces then
    { t1 with startupVerifying := false, startupVerifiedAll := decide (t1.mgr.numDone =
      c.mi.numPieces) }
  else t1

/-- `check_completion`; `flushed` is what `storage_flush` returns. -/
def checkCompletion (c : Config) (t : Torrent) (alloc flushed : Bool) : Torrent × Int :=
  if t.mgr.numDone ≠ c.mi.numPieces then
    ({ t with finalVerifying := false, finalVerifyIndex := 0, startupVerifiedAll := false }, 1)
  else if t.startupVerifiedAll then (t, 0)
  else if t.finalVerifying = false ∧ flushed = false then (t, 1)
  else
    let t1 := if t.finalVerifying then t else { t with
      finalVerifying := true, finalVerifyIndex := 0 }
    if t1.finalVerifyIndex < c.mi.numPieces then
      let r := verifyPiece c alloc t1.mgr t1.finalVerifyIndex
      if r.2 = 0 then ({ t1.setMgr r.1 with finalVerifying := false, finalVerifyIndex := 0 }, 1)
      else ({ t1.setMgr r.1 with finalVerifyIndex := t1.finalVerifyIndex + 1 }, 1)
    else (t1, 0)

/-- The place `try_connect` puts a new peer in. -/
def freeSlot (t : Torrent) : Option Nat :=
  (List.range maxActivePeers).find? (fun slot => (t.peers slot).isNone)

def connectPeer (c : Config) (t : Torrent) (utp : Bool) (now : Nat) : Torrent :=
  match freeSlot t with
  | none => t
  | some slot =>
    t.setPeer slot (some (peerAlloc utp ((c.mi.numPieces + 7) / 8) now pipelineBootstrapBps))

/-- A change of one peer, by what the peer is. -/
def Torrent.onPeer (t : Torrent) (slot : Nat) (f : Peer → Option Torrent) : Option Torrent :=
  if slot < maxActivePeers then (t.peers slot).bind f else none

/-- The steps of the engine. `connected` is reached once for a peer, when its transport is
up; `encryption` is one call of `mse_client_feed`, whose results are given: what is left of
the buffer afterwards, as plain text, the state of the sending side, and whether it is
done. -/
inductive Action where
  | worker
  | drainHashResults (k : Calling)
  | hashFlush (k : Calling)
  | startupVerify (alloc : Bool)
  | checkCompletion (alloc flushed : Bool)
  | submitWebPiece (piece : Nat) (data : List UInt8) (alloc : Bool)
    (calls : Nat → Calling) (now : Nat)
  | connect (utp : Bool) (now : Nat)
  | connected (slot : Nat) (encrypted : Bool) (out : PeerSend.Sender)
  | encryption (slot : Nat) (rbuf : List UInt8) (out : PeerSend.Sender) (done : Bool)
  | handshake (slot now : Nat) (out : PeerSend.Sender)
  | receive (slot : Nat) (bytes : List UInt8)
  | message (slot now : Nat) (k : Calling) (nets : Nat → PeerSend.Transport)
  | writable (slot : Nat) (net : PeerSend.Transport)
  | lost (slot : Nat)
  | markDead (slot : Nat)
  | releaseChoked (slot now : Nat)
  | sweep (slot now : Nat)
  | sampleRates (elapsedMs now : Nat)
  | hedge (now : Nat) (answers : Nat → Nat → Answer)
  | schedule (slot now : Nat) (rounds : Nat → Round)
  | setStrictLookahead (lookahead : Nat)
  | setRateFreeze (freeze : Bool)

def step (u : Setup) (t : Torrent) : Action → Option Torrent
  | .worker =>
    (PieceManager.step u.pieces t.machine .worker).map (fun r => { t with machine := r.1 })
  | .drainHashResults k => (callPieces u.pieces t .drainHashResults k).map Prod.fst
  | .hashFlush k => (callPieces u.pieces t .hashFlush k).map Prod.fst
  | .startupVerify alloc =>
    if t.startupVerifying then some (startupRound u.pieces t alloc) else none
  | .checkCompletion alloc flushed => some (checkCompletion u.pieces t alloc flushed).1
  | .submitWebPiece piece data alloc calls now =>
    submitWebPiece u.pieces t piece data alloc calls now
  | .connect utp now => some (connectPeer u.pieces t utp now)
  | .connected slot encrypted out => t.onPeer slot (fun p =>
      if p.state = .connecting then
        some (t.setPeer slot (some { p with state := if encrypted then .mse else .handshake,
                                            out := out }))
      else none)
  | .encryption slot rbuf out done => t.onPeer slot (fun p =>
      if p.state = .mse then
        some (t.setPeer slot (some { p with
          rbuf := rbuf, out := out, state := if done then .handshake else .mse }))
      else none)
  | .handshake slot now out => t.onPeer slot (fun p =>
      if p.state = .handshake then
        let r := processHandshake u.pieces.mi.infoHash now p
        match r.2 with
        | .fail => some (dropPeer u.pieces t slot)
        | .next => some (t.setPeer slot (some { r.1 with out := out }))
        | _ => some t
      else none)
  | .receive slot bytes => t.onPeer slot (fun p =>
      some (t.setPeer slot (some { p with rbuf := p.rbuf ++ bytes })))
  | .message slot now k nets =>
    if slot < maxActivePeers then receiveMessage u.pieces t slot now k nets else none
  | .writable slot net => t.onPeer slot (fun p =>
      let r := PeerSend.peerFlush net p.out
      let t1 := t.setPeer slot (some { p with out := r.2 })
      some (if r.1 then t1 else dropPeer u.pieces t1 slot))
  | .lost slot => if slot < maxActivePeers then some (dropPeer u.pieces t slot) else none
  | .markDead slot => t.onPeer slot (fun p =>
      if p.utp then some (t.setPeer slot (some { p with state := .dead })) else none)
  | .releaseChoked slot now =>
    if slot < maxActivePeers then releaseChoked u.pieces t slot now else none
  | .sweep slot now => if slot < maxActivePeers then some (sweepPeer u.pieces t slot now) else none
  | .sampleRates elapsedMs now => some (samplePeerRates u t elapsedMs now)
  | .hedge now answers =>
    -- unchecked pieces look empty to the picker, so nothing is asked for before the check is done
    if t.startupVerifying then none else some (scheduleHedgedRequests u t now answers)
  | .schedule slot now rounds =>
    if t.startupVerifying = false ∧ slot < maxActivePeers then
      some (scheduleRequests u t slot now rounds)
    else none
  | .setStrictLookahead lookahead =>
    some (if u.pieces.strictOrder ∧ lookahead ≠ 0 ∧ t.mgr.strictLookahead ≠ lookahead then
      t.setMgr (setStrictPolicy t.mgr lookahead t.mgr.strictFillPendingFirst) else t)
  | .setRateFreeze freeze => some { t with rateFreeze := freeze }

def run (u : Setup) : Torrent → List Action → Option Torrent
  | t, [] => some t
  | t, action :: rest =>
    match step u t action with
    | none => none
    | some t' => run u t' rest

/-- The options of `torrent_create_ex` that concern the pieces: the strict policy, and the
bitfield of a fast resume with its length. -/
structure Options where
  strictOrderLookahead : Nat
  strictFillPendingFirst : Bool
  haveBitfield : Option (Nat → UInt8)
  haveBitfieldLen : Nat

/-- Whether the startup check is skipped. -/
def Options.fastResume (o : Options) (numPieces : Nat) : Bool :=
  o.haveBitfield.isSome && decide (o.haveBitfieldLen = (numPieces + 7) / 8)

/-- The piece manager as `torrent_create_ex` leaves it. -/
def createPieces (c : Config) (options : Option Options) (s : Mgr) : Mgr :=
  match options with
  | none => s
  | some o =>
    let s1 := setStrictPolicy s o.strictOrderLookahead o.strictFillPendingFirst
    if o.fastResume c.mi.numPieces then presetHave c s1 o.haveBitfield o.haveBitfieldLen else s1

def createTorrent (u : Setup) (options : Option Options) (hashOk : Bool) (heap : Nat → Nat → UInt8)
    (store : Storage.Store) : Torrent :=
  { machine := ⟨createPieces u.pieces options (PieceManager.create u.pieces hashOk heap store),
    .idle, .idle⟩
    peers := fun _ => none
    downloaded := 0
    lastPayloadMs := 0
    startupVerifying := !(options.any (fun o => o.fastResume u.pieces.mi.numPieces))
    startupVerifyIndex := 0
    startupVerifiedAll := false
    finalVerifying := false
    finalVerifyIndex := 0
    lastHedgeMs := 0
    hedgeEffectiveMs := u.hedgeAfterMs
    rateFreeze := false
    fatalError := false
    error := none }

end TorrentEngine
