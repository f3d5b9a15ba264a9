import Mathlib.Data.Int.DivMod
import Pipensx.ByteBits
import Pipensx.PeerSend

/-!
# One peer: its requests and its messages

The request pipeline of `core/peer.c` and the message loop over the bytes received, from
the end of the encryption handshake on: `rbuf` holds the bytes as `process_message` sees
them, those not yet consumed only. Extension messages carry no blocks and are consumed
without effect. A callback of `process_message` is returned to the caller as an outcome.
-/

namespace PeerRequests

open ByteBits PeerSend

/-- `MAX_PIPELINE`. -/
def maxPipeline : Nat := 256

/-- `RECENT_DROPPED_REQUESTS`. -/
def recentDroppedRequests : Nat := 16

/-- `MAX_UNSOLICITED_PIECES`. -/
def maxUnsolicitedPieces : Nat := 8

/-- `BT_HANDSHAKE_LEN`. -/
def btHandshakeLen : Nat := 68

inductive PeerState where
  | connecting
  | mse
  | handshake
  | active
  | dead
  deriving DecidableEq, Repr

/-- The cast of a `uint32_t` to `int`. -/
def toInt (n : Nat) : Int := (n : Int).bmod (2 ^ 32)

/-- An `int` that leaves its range wraps. -/
def wrapInt (v : Int) : Int := v.bmod (2 ^ 32)

/-- `block_req_t`. -/
structure BlockReq where
  index : Int
  offset : Int
  length : Int
  requestedMs : Nat
  deriving DecidableEq, Repr

/-- `peer_t`. -/
structure Peer where
  state : PeerState
  utp : Bool
  rbuf : List UInt8
  out : Sender
  amChoked : Bool
  bitfield : Nat → UInt8
  bfBytes : Nat
  pipeline : List BlockReq
  recentDropped : Nat → BlockReq
  recentDroppedNext : Int
  recentDroppedCount : Nat
  -- a cell before `recent_dropped` was written: `pipeline` and `pipeline_len` are there
  overrun : Bool
  connectTimeMs : Nat
  lastRecvMs : Nat
  lastPieceMs : Nat
  downloaded : Nat
  requestCooldownUntilMs : Nat
  dlRateBps : Nat
  rateLastDownloaded : Nat
  blockLatEmaMs : Nat
  timeoutStrikes : Nat
  unsolicitedPieceStrikes : Nat
  lastExpiryMs : Nat

/-- `index == (int)piece && offset == (int)offset`. -/
def BlockReq.isFor (r : BlockReq) (piece offset : Nat) : Bool :=
  decide (r.index = toInt piece) && decide (r.offset = toInt offset)

/-- The comparison of `take_pipeline_request`, with the length. -/
def BlockReq.isExactly (r : BlockReq) (piece offset len : Nat) : Bool :=
  r.isFor piece offset && decide (r.length = toInt len)

/-- `peer_has_request`. -/
def peerHasRequest (p : Peer) (piece offset : Nat) : Bool :=
  p.pipeline.any (fun r => r.isFor piece offset)

def word (n : Nat) : List UInt8 := lengthPrefix n

/-- The 13 bytes of a request or a cancel. -/
def blockMessage (id : UInt8) (piece offset len : Nat) : List UInt8 :=
  id :: (word piece ++ word offset ++ word len)

/-- `peer_request_block`; `now` is the clock at its end. -/
def peerRequestBlock (net : Transport) (now : Nat) (p : Peer) (piece offset len : Nat) :
    Peer × Bool :=
  if p.pipeline.length ≥ maxPipeline then (p, false)
  else
    let r := sendMsg net p.out (blockMessage 6 piece offset len)
    if r.1 then
      ({ p with
          out := r.2
          pipeline := p.pipeline ++ [⟨toInt piece, toInt offset, toInt len, now⟩] }, true)
    else ({ p with out := r.2 }, false)

/-- The remainder of a negative `recent_dropped_next` is not positive. -/
def rememberDropped (p : Peer) (index offset length : Int) : Peer :=
  let slot := p.recentDroppedNext.tmod recentDroppedRequests
  { p with
    recentDropped :=
      if slot < 0 then p.recentDropped
      else Function.update p.recentDropped slot.toNat ⟨index, offset, length, 0⟩
    overrun := p.overrun || decide (slot < 0)
    recentDroppedNext := wrapInt (p.recentDroppedNext + 1)
    recentDroppedCount :=
      if p.recentDroppedCount < recentDroppedRequests then p.recentDroppedCount + 1
      else p.recentDroppedCount }

def wasRecentlyDropped (p : Peer) (index offset length : Int) : Bool :=
  (List.range p.recentDroppedCount).any (fun i =>
    decide ((p.recentDropped i).index = index) && decide ((p.recentDropped i).offset = offset) &&
      decide ((p.recentDropped i).length = length))

def BlockReq.expired (r : BlockReq) (now timeoutMs : Nat) : Bool :=
  decide (r.requestedMs ≤ now) && decide (now - r.requestedMs ≥ timeoutMs)

/-- `peer_expire_requests`, with the requests it calls `on_expired` for. -/
def peerExpireRequests (p : Peer) (now timeoutMs : Nat) : Peer × List BlockReq :=
  let gone := p.pipeline.filter (fun r => r.expired now timeoutMs)
  let p' := gone.foldl (fun p r => rememberDropped p r.index r.offset r.length) p
  ({ p' with pipeline := p.pipeline.filter (fun r => !r.expired now timeoutMs) }, gone)

/-- `take_pipeline_request`, with the time of the request. -/
def takePipelineRequest (p : Peer) (piece offset len : Nat) : Option (Peer × Nat) :=
  (p.pipeline.find? (fun r => r.isExactly piece offset len)).map (fun r =>
    ({ p with pipeline := p.pipeline.eraseP (fun r => r.isExactly piece offset len) },
      r.requestedMs))

def peerCancelBlock (net : Transport) (p : Peer) (piece offset len : Nat) : Peer × Bool :=
  if peerHasRequest p piece offset = false then (p, false)
  else
    let r := sendMsg net p.out (blockMessage 8 piece offset len)
    if r.1 then
      let p' := rememberDropped { p with out := r.2 } (toInt piece) (toInt offset) (toInt len)
      ({ p' with pipeline := p'.pipeline.eraseP (fun r => r.isFor piece offset) }, true)
    else ({ p with out := r.2 }, false)

def be32 : List UInt8 → Nat
  | a :: b :: c :: d :: _ => a.toNat * 2 ^ 24 + b.toNat * 2 ^ 16 + c.toNat * 2 ^ 8 + d.toNat
  | _ => 0

/-- What is at the front of the buffer, with the bytes after it. -/
inductive Frame where
  | wait
  | oversized
  | keepalive (rest : List UInt8)
  | message (id : UInt8) (payload rest : List UInt8)

def nextFrame (rbuf : List UInt8) : Frame :=
  if rbuf.length < 4 then .wait
  else
    let msgLen := be32 rbuf
    if msgLen > 2 ^ 18 then .oversized
    else if rbuf.length < 4 + msgLen then .wait
    else
      match (rbuf.drop 4).take msgLen with
      | [] => .keepalive (rbuf.drop 4)
      | id :: payload => .message id payload (rbuf.drop (4 + msgLen))

/-- What `process_message` asks its caller to do: wait for more bytes, drop the peer, go
on, or hand a block to `on_block` and go on. -/
inductive Outcome where
  | wait
  | fail
  | next
  | block (idx off : Nat) (data : List UInt8)

/-- The average of the block latencies, after an answer at `now`. -/
def latencyEma (ema requestedMs now : Nat) : Nat :=
  if requestedMs ≠ 0 ∧ requestedMs ≤ now then
    let latency := if (now - requestedMs) % 2 ^ 32 = 0 then 1 else (now - requestedMs) % 2 ^ 32
    if ema ≠ 0 then
      ((toInt ema + (wrapInt (wrapInt (toInt latency - toInt ema) * 3)).tdiv 10) % 2 ^ 32).toNat
    else latency
  else ema

/-- The branch for `MSG_PIECE`. -/
def processPiece (now : Nat) (p : Peer) (payload : List UInt8) : Peer × Outcome :=
  if payload.length < 8 then (p, .next)
  else
    let idx := be32 payload
    let off := be32 (payload.drop 4)
    let data := payload.drop 8
    match takePipelineRequest p idx off data.length with
    | none =>
      if wasRecentlyDropped p (toInt idx) (toInt off) (toInt data.length) then (p, .next)
      else
        let strikes := p.unsolicitedPieceStrikes + 1
        ({ p with unsolicitedPieceStrikes := strikes },
          if strikes ≥ maxUnsolicitedPieces then .fail else .next)
    | some (p', requestedMs) =>
      ({ p' with
          downloaded := p'.downloaded + data.length
          lastPieceMs := now
          blockLatEmaMs := latencyEma p'.blockLatEmaMs requestedMs now
          timeoutStrikes := p'.timeoutStrikes - 1 }, .block idx off data)

/-- The switch on the message id. -/
def dispatch (numPieces now : Nat) (p : Peer) (id : UInt8) (payload : List UInt8) :
    Peer × Outcome :=
  match id.toNat with
  | 0 => ({ p with amChoked := true }, .next)
  | 1 => ({ p with amChoked := false }, .next)
  | 4 =>
    let idx := be32 payload
    if payload.length ≥ 4 ∧ idx < numPieces ∧ idx / 8 < p.bfBytes then
      ({ p with bitfield := msbSet p.bitfield idx }, .next)
    else (p, .next)
  | 5 =>
    if payload.length ≤ p.bfBytes then
      ({ p with bitfield := fun i => payload.getD i (p.bitfield i) }, .next)
    else (p, .next)
  | 7 => processPiece now p payload
  | _ => (p, .next)

/-- `process_message`; the bytes are consumed unless it fails. -/
def processMessage (numPieces now : Nat) (p : Peer) : Peer × Outcome :=
  match nextFrame p.rbuf with
  | .wait => (p, .wait)
  | .oversized => (p, .fail)
  | .keepalive rest => ({ p with rbuf := rest }, .next)
  | .message id payload rest =>
    let r := dispatch numPieces now p id payload
    match r.2 with
    | .fail => r
    | outcome => ({ r.1 with rbuf := rest, lastRecvMs := now }, outcome)

/-- `"\x13BitTorrent protocol"`. -/
def handshakeHeader : List UInt8 :=
  [19, 66, 105, 116, 84, 111, 114, 114, 101, 110, 116, 32, 112, 114, 111, 116, 111, 99, 111, 108]

/-- `process_handshake`; what is sent after it does not touch the requests. -/
def processHandshake (infoHash : List UInt8) (now : Nat) (p : Peer) : Peer × Outcome :=
  if p.rbuf.length < btHandshakeLen then (p, .wait)
  else if p.rbuf.take 20 ≠ handshakeHeader ∨ (p.rbuf.drop 28).take 20 ≠ infoHash then (p, .fail)
  else ({ p with rbuf := p.rbuf.drop btHandshakeLen, state := .active, lastRecvMs := now }, .next)

/-- `peer_alloc`. -/
def peerAlloc (utp : Bool) (bfBytes now dlRateBps : Nat) : Peer :=
  { state := .connecting, utp := utp, rbuf := [], out := ⟨[], false, ⟨id, 0, 0⟩, [], 0⟩
    amChoked := true, bitfield := fun _ => 0, bfBytes := bfBytes, pipeline := []
    recentDropped := fun _ => ⟨0, 0, 0, 0⟩, recentDroppedNext := 0, recentDroppedCount := 0
    overrun := false, connectTimeMs := now, lastRecvMs := now, lastPieceMs := 0, downloaded := 0
    requestCooldownUntilMs := 0, dlRateBps := dlRateBps, rateLastDownloaded := 0
    blockLatEmaMs := 0, timeoutStrikes := 0, unsolicitedPieceStrikes := 0, lastExpiryMs := 0 }

theorem toInt_eq {n : Nat} (h : n < 2 ^ 31) : toInt n = n :=
  Int.bmod_eq_of_le_mul_two (by omega) (by omega)

theorem toInt_emod {n : Nat} (h : n < 2 ^ 32) : toInt n % 2 ^ 32 = n := by
  have hmod : toInt n % 2 ^ 32 = (n : Int) % 2 ^ 32 := Int.bmod_emod
  rw [hmod]
  exact Int.emod_eq_of_lt (by omega) (by omega)

theorem toInt_injective {n m : Nat} (hn : n < 2 ^ 32) (hm : m < 2 ^ 32) (h : toInt n = toInt m) :
    n = m := by
  have hcast : (n : Int) = m := by
    rw [← toInt_emod hn, ← toInt_emod hm, h]
  exact_mod_cast hcast

theorem isFor_iff {r : BlockReq} {piece offset : Nat} (hpiece : piece < 2 ^ 31)
    (hoffset : offset < 2 ^ 31) :
    r.isFor piece offset = true ↔ r.index = piece ∧ r.offset = offset := by
  simp [BlockReq.isFor, toInt_eq hpiece, toInt_eq hoffset]

/-- A request that was sent is at the end of the pipeline, and one that was not is not in it. -/
theorem peerRequestBlock_pipeline (net : Transport) (now : Nat) (p : Peer)
    (piece offset len : Nat) : (peerRequestBlock net now p piece offset len).1.pipeline =
      if (peerRequestBlock net now p piece offset len).2 then
        p.pipeline ++ [⟨toInt piece, toInt offset, toInt len, now⟩]
      else p.pipeline := by
  unfold peerRequestBlock
  by_cases hfull : p.pipeline.length ≥ maxPipeline
  · simp [hfull]
  · by_cases hsent : (sendMsg net p.out (blockMessage 6 piece offset len)).1 = true
    · simp [hfull, hsent]
    · simp [hfull, hsent]

@[simp] theorem peerRequestBlock_state (net : Transport) (now : Nat) (p : Peer)
    (piece offset len : Nat) : (peerRequestBlock net now p piece offset len).1.state = p.state := by
  unfold peerRequestBlock
  split
  · rfl
  · dsimp only
    split <;> rfl

theorem foldl_rememberDropped_state (gone : List BlockReq) (p : Peer) :
    (gone.foldl (fun p r => rememberDropped p r.index r.offset r.length) p).state = p.state := by
  induction gone generalizing p with
  | nil => rfl
  | cons r rest ih => exact ih _

@[simp] theorem peerExpireRequests_state (p : Peer) (now timeoutMs : Nat) :
    (peerExpireRequests p now timeoutMs).1.state = p.state :=
  foldl_rememberDropped_state _ _

theorem peerCancelBlock_state (net : Transport) (p : Peer) (piece offset len : Nat) :
    (peerCancelBlock net p piece offset len).1.state = p.state := by
  unfold peerCancelBlock
  split
  · rfl
  · dsimp only
    split <;> rfl

/-- A cancel takes out the first entry for the block, or nothing. -/
theorem peerCancelBlock_pipeline (net : Transport) (p : Peer) (piece offset len : Nat) :
    (peerCancelBlock net p piece offset len).1.pipeline = p.pipeline ∨
      (peerCancelBlock net p piece offset len).1.pipeline =
        p.pipeline.eraseP (fun r => r.isFor piece offset) := by
  unfold peerCancelBlock
  split
  · exact Or.inl rfl
  · dsimp only
    split
    · exact Or.inr rfl
    · exact Or.inl rfl

theorem be32_lt (bytes : List UInt8) : be32 bytes < 2 ^ 32 := by
  unfold be32
  split
  · rename_i a b c d rest
    have ha := a.toNat_lt
    have hb := b.toNat_lt
    have hc := c.toNat_lt
    have hd := d.toNat_lt
    omega
  · decide

/-- What a message leads to: a block handed on is one that was asked for exactly so, and its
entry is taken out; nothing else changes the pipeline. -/
inductive Answered (p p' : Peer) : Outcome → Prop where
  | block (idx off : Nat) (data : List UInt8) : idx < 2 ^ 32 → off < 2 ^ 32 → data.length < 2 ^ 32 →
      (p.pipeline.any (fun r => r.isExactly idx off data.length)) = true →
      p'.pipeline = p.pipeline.eraseP (fun r => r.isExactly idx off data.length) →
      Answered p p' (.block idx off data)
  | wait : p'.pipeline = p.pipeline → Answered p p' .wait
  | fail : p'.pipeline = p.pipeline → Answered p p' .fail
  | next : p'.pipeline = p.pipeline → Answered p p' .next

/-- A request is sent and put at the end of the pipeline, or it is not. -/
theorem peerRequestBlock_cases (net : Transport) (now : Nat) (p : Peer) (piece offset len : Nat) :
    ∃ out, peerRequestBlock net now p piece offset len = ({ p with out := out }, false) ∨
      (p.pipeline.length < maxPipeline ∧ peerRequestBlock net now p piece offset len =
        ({ p with
            out := out
            pipeline := p.pipeline ++ [⟨toInt piece, toInt offset, toInt len, now⟩] }, true)) := by
  by_cases hfull : p.pipeline.length ≥ maxPipeline
  · exact ⟨p.out, Or.inl (by simp only [peerRequestBlock, hfull, if_true])⟩
  · refine ⟨(sendMsg net p.out (blockMessage 6 piece offset len)).2, ?_⟩
    by_cases hsent : (sendMsg net p.out (blockMessage 6 piece offset len)).1 = true
    · right
      exact ⟨Nat.lt_of_not_le hfull, by simp only [peerRequestBlock, hfull, if_false,
        hsent, if_true]⟩
    · left
      simp only [peerRequestBlock, hfull, if_false, hsent, Bool.false_eq_true]

/-- A cancel is sent and the first request for the block is given up, or it is not. -/
theorem peerCancelBlock_cases (net : Transport) (p : Peer) (piece offset len : Nat) : ∃ out,
    peerCancelBlock net p piece offset len = ({ p with out := out }, false) ∨
      (peerHasRequest p piece offset = true ∧ peerCancelBlock net p piece offset len =
        ({ rememberDropped { p with out := out } (toInt piece) (toInt offset) (toInt len) with
            pipeline := p.pipeline.eraseP (fun r => r.isFor piece offset) }, true)) := by
  cases hasked : peerHasRequest p piece offset with
  | false => exact ⟨p.out, Or.inl (by simp only [peerCancelBlock, hasked, if_true])⟩
  | true =>
    refine ⟨(sendMsg net p.out (blockMessage 8 piece offset len)).2, ?_⟩
    by_cases hsent : (sendMsg net p.out (blockMessage 8 piece offset len)).1 = true
    · right
      refine ⟨rfl, ?_⟩
      simp only [peerCancelBlock, hasked, Bool.true_eq_false, if_false, hsent, if_true]
      rfl
    · left
      simp only [peerCancelBlock, hasked, Bool.true_eq_false, if_false, hsent, Bool.false_eq_true]

/-- What a piece leads to: it is ignored, it is a strike, or it answers the first request for
exactly this block. -/
theorem processPiece_cases (now : Nat) (p : Peer) (payload : List UInt8) :
    (payload.length < 8 ∧ processPiece now p payload = (p, .next)) ∨
      (8 ≤ payload.length ∧
        p.pipeline.find? (fun r => r.isExactly (be32 payload) (be32 (payload.drop 4))
        (payload.drop 8).length) = none ∧
        wasRecentlyDropped p (toInt (be32 payload)) (toInt (be32 (payload.drop 4)))
          (toInt (payload.drop 8).length) = true ∧
        processPiece now p payload = (p, .next)) ∨
      (8 ≤ payload.length ∧
        p.pipeline.find? (fun r => r.isExactly (be32 payload) (be32 (payload.drop 4))
        (payload.drop 8).length) = none ∧
        wasRecentlyDropped p (toInt (be32 payload)) (toInt (be32 (payload.drop 4)))
          (toInt (payload.drop 8).length) = false ∧
        processPiece now p payload =
          ({ p with unsolicitedPieceStrikes := p.unsolicitedPieceStrikes + 1 },
            if p.unsolicitedPieceStrikes + 1 ≥ maxUnsolicitedPieces then .fail else .next)) ∨
      (8 ≤ payload.length ∧ ∃ r,
        p.pipeline.find? (fun r => r.isExactly (be32 payload) (be32 (payload.drop 4))
        (payload.drop 8).length) = some r ∧ processPiece now p payload =
          ({ p with
              pipeline := p.pipeline.eraseP (fun r =>
                r.isExactly (be32 payload) (be32 (payload.drop 4)) (payload.drop 8).length)
              downloaded := p.downloaded + (payload.drop 8).length
              lastPieceMs := now
              blockLatEmaMs := latencyEma p.blockLatEmaMs r.requestedMs now
              timeoutStrikes := p.timeoutStrikes - 1 },
            .block (be32 payload) (be32 (payload.drop 4)) (payload.drop 8))) := by
  by_cases hshort : payload.length < 8
  · left
    exact ⟨hshort, by simp only [processPiece, hshort, if_true]⟩
  right
  have hlong : 8 ≤ payload.length := Nat.le_of_not_lt hshort
  cases hfind : p.pipeline.find? (fun r =>
      r.isExactly (be32 payload) (be32 (payload.drop 4)) (payload.drop 8).length) with
  | some r =>
    right
    right
    exact ⟨hlong, r, rfl, by simp only [processPiece, hshort, if_false, takePipelineRequest, hfind,
      Option.map_some]⟩
  | none =>
    cases hrecent : wasRecentlyDropped p (toInt (be32 payload)) (toInt (be32 (payload.drop 4)))
        (toInt (payload.drop 8).length) with
    | true =>
      left
      exact ⟨hlong, rfl, rfl, by
        simp only [processPiece, hshort, if_false, takePipelineRequest, hfind, Option.map_none,
          hrecent, if_true]⟩
    | false =>
      right
      left
      exact ⟨hlong, rfl, rfl, by
        simp only [processPiece, hshort, if_false, takePipelineRequest, hfind,
          Option.map_none, hrecent, Bool.false_eq_true]⟩

theorem processPiece_answered (now : Nat) (p : Peer) {payload : List UInt8}
    (hsize : payload.length < 2 ^ 32) : (processPiece now p payload).1.state = p.state ∧
      Answered p (processPiece now p payload).1 (processPiece now p payload).2 := by
  unfold processPiece
  by_cases hshort : payload.length < 8
  · simp only [hshort, if_true]
    exact ⟨trivial, .next rfl⟩
  simp only [hshort, if_false]
  cases htake : takePipelineRequest p (be32 payload) (be32 (payload.drop 4))
    (payload.drop 8).length with
  | none =>
    simp only
    split
    · exact ⟨rfl, .next rfl⟩
    · refine ⟨rfl, ?_⟩
      simp only
      split
      · exact .fail rfl
      · exact .next rfl
  | some taken =>
    obtain ⟨r, hfound, htaken⟩ := Option.map_eq_some_iff.mp htake
    subst htaken
    have hdata : (payload.drop 8).length < 2 ^ 32 := by
      rw [List.length_drop]
      omega
    refine ⟨rfl, .block _ _ _ (be32_lt _) (be32_lt _) hdata ?_ rfl⟩
    exact List.any_eq_true.mpr ⟨r, List.mem_of_find?_eq_some hfound,
      (List.find?_eq_some_iff_append.mp hfound).1⟩

theorem dispatch_answered (numPieces now : Nat) (p : Peer) (id : UInt8) {payload : List UInt8}
    (hsize : payload.length < 2 ^ 32) :
    (dispatch numPieces now p id payload).1.state = p.state ∧
      Answered p (dispatch numPieces now p id payload).1
      (dispatch numPieces now p id payload).2 := by
  unfold dispatch
  split
  · exact ⟨rfl, .next rfl⟩
  · exact ⟨rfl, .next rfl⟩
  · simp only
    split
    · exact ⟨rfl, .next rfl⟩
    · exact ⟨rfl, .next rfl⟩
  · split
    · exact ⟨rfl, .next rfl⟩
    · exact ⟨rfl, .next rfl⟩
  · exact processPiece_answered now p hsize
  · exact ⟨rfl, .next rfl⟩

/-- A message is at most 256 KiB long. -/
theorem nextFrame_message {rbuf payload rest : List UInt8} {id : UInt8}
    (h : nextFrame rbuf = .message id payload rest) : payload.length < 2 ^ 32 := by
  simp only [nextFrame] at h
  split at h
  · cases h
  · split at h
    · cases h
    · next hlen =>
      split at h
      · cases h
      · split at h
        · cases h
        · next id' payload' htake =>
          cases h
          have hsize : ((rbuf.drop 4).take (be32 rbuf)).length ≤ be32 rbuf :=
            List.length_take_le _ _
          rw [htake, List.length_cons] at hsize
          omega

theorem processMessage_answered (numPieces now : Nat) (p : Peer) :
    (processMessage numPieces now p).1.state = p.state ∧
      Answered p (processMessage numPieces now p).1 (processMessage numPieces now p).2 := by
  unfold processMessage
  split
  · exact ⟨rfl, .wait rfl⟩
  · exact ⟨rfl, .fail rfl⟩
  · exact ⟨rfl, .next rfl⟩
  · rename_i id payload rest hframe
    obtain ⟨hstate, hanswered⟩ := dispatch_answered numPieces now p id (nextFrame_message hframe)
    generalize dispatch numPieces now p id payload = r at hstate hanswered ⊢
    obtain ⟨p', outcome⟩ := r
    cases hanswered with
    | block idx off data hidx hoff hdata hany herase =>
      exact ⟨hstate, .block idx off data hidx hoff hdata hany herase⟩
    | wait hsame => exact ⟨hstate, .wait hsame⟩
    | fail hsame => exact ⟨hstate, .fail hsame⟩
    | next hsame => exact ⟨hstate, .next hsame⟩

theorem processHandshake_pipeline (infoHash : List UInt8) (now : Nat) (p : Peer) :
    (processHandshake infoHash now p).1.pipeline = p.pipeline := by
  unfold processHandshake
  split
  · rfl
  · split <;> rfl

theorem processHandshake_next (infoHash : List UInt8) (now : Nat) (p : Peer)
    (hnext : (processHandshake infoHash now p).2 = .next) :
    (processHandshake infoHash now p).1.state = .active := by
  unfold processHandshake at hnext ⊢
  split at hnext
  · cases hnext
  · split at hnext
    · cases hnext
    · simp [*]

end PeerRequests
