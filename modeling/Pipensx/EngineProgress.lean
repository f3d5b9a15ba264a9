import Pipensx.EngineMoves

/-!
# The two verification passes beside the handlers

How far the startup check and the final check have come is kept in five fields. The
rounds of the two checks are the only steps that write them, and apart from those only the
two request handlers look at one of them, so every other step commutes with a change of
them.
-/

namespace TorrentEngine

open PieceManager PeerRequests PieceGeometry

/-- Where the two verification passes stand. -/
structure Progress where
  startupVerifying : Bool
  startupVerifyIndex : Nat
  startupVerifiedAll : Bool
  finalVerifying : Bool
  finalVerifyIndex : Nat
  deriving DecidableEq

def Torrent.progress (t : Torrent) : Progress :=
  ⟨t.startupVerifying, t.startupVerifyIndex, t.startupVerifiedAll, t.finalVerifying,
    t.finalVerifyIndex⟩

def Torrent.withProgress (t : Torrent) (p : Progress) : Torrent :=
  { t with
    startupVerifying := p.startupVerifying
    startupVerifyIndex := p.startupVerifyIndex
    startupVerifiedAll := p.startupVerifiedAll
    finalVerifying := p.finalVerifying
    finalVerifyIndex := p.finalVerifyIndex }

/-- A round of one of the two passes. -/
def Action.verifies : Action → Bool
  | .startupVerify _ => true
  | .checkCompletion _ _ => true
  | _ => false

@[simp] theorem withProgress_self (t : Torrent) : t.withProgress t.progress = t := rfl

@[simp] theorem withProgress_progress (t : Torrent) (p : Progress) :
    (t.withProgress p).progress = p := rfl

@[simp] theorem withProgress_machine (t : Torrent) (p : Progress) :
    (t.withProgress p).machine = t.machine := rfl

@[simp] theorem withProgress_mgr (t : Torrent) (p : Progress) :
    (t.withProgress p).mgr = t.mgr := rfl

@[simp] theorem withProgress_peers (t : Torrent) (p : Progress) :
    (t.withProgress p).peers = t.peers := rfl

section Commute

variable (c : Config) (p : Progress)

theorem hashResults_withProgress (t : Torrent) (events : List Event) :
    (t.withProgress p).hashResults events = (t.hashResults events).withProgress p := by
  simp only [Torrent.hashResults]
  split
  · rfl
  · rfl

theorem callPieces_withProgress (t : Torrent) (call : Call) (k : Calling) :
    callPieces c (t.withProgress p) call k =
      (callPieces c t call k).map (fun r => (r.1.withProgress p, r.2)) := by
  simp only [callPieces, withProgress_machine]
  split
  · rfl
  · split
    · rfl
    · next m events _ =>
      split
      · exact congrArg some (congrArg (·, returnValue events)
          (hashResults_withProgress p { t with machine := m } events))
      · rfl

/-- What `cb_block` does with the answer of the piece manager. -/
def afterBlock (nets : Nat → PeerSend.Transport) (idx off len now : Nat) (had duplicated : Bool)
    (r : Torrent × Int) : Torrent :=
  let t2 := if r.2 ≥ 1 ∧ had = false then { r.1 with lastPayloadMs := now } else r.1
  let t3 := if r.2 ≥ 1 ∧ duplicated = true then cancelDuplicateRequests t2 nets idx off len else t2
  if r.2 < 0 then t3.fail .pieceProcessing else t3

theorem cbBlock_eq (t : Torrent) (idx off : Nat) (data : List UInt8) (now : Nat) (k : Calling)
    (nets : Nat → PeerSend.Transport) :
    cbBlock c t idx off data now k nets =
      (callPieces c { t with downloaded := t.downloaded + data.length }
        (.gotBlock idx off (some data)) k).map
        (afterBlock nets idx off data.length now (hasBlock c t.mgr idx (off / blockSize))
          (decide (blockRequestCount c t.mgr idx (off / blockSize) > 1))) := by
  simp only [cbBlock]
  split
  · next hnone => rw [hnone, Option.map_none]
  · next t1 result hsome =>
    rw [hsome, Option.map_some]
    rfl

theorem afterBlock_withProgress (nets : Nat → PeerSend.Transport) (idx off len now : Nat)
    (had duplicated : Bool) (r : Torrent × Int) :
    afterBlock nets idx off len now had duplicated (r.1.withProgress p, r.2) =
      (afterBlock nets idx off len now had duplicated r).withProgress p := by
  simp only [afterBlock]
  by_cases hnew : r.2 ≥ 1 ∧ had = false
  · by_cases htwice : r.2 ≥ 1 ∧ duplicated = true
    · simp only [if_pos hnew, if_pos htwice]
      split <;> rfl
    · simp only [if_pos hnew, if_neg htwice]
      split <;> rfl
  · by_cases htwice : r.2 ≥ 1 ∧ duplicated = true
    · simp only [if_neg hnew, if_pos htwice]
      split <;> rfl
    · simp only [if_neg hnew, if_neg htwice]
      split <;> rfl

theorem cbBlock_withProgress (t : Torrent) (idx off : Nat) (data : List UInt8)
    (now : Nat) (k : Calling) (nets : Nat → PeerSend.Transport) :
    cbBlock c (t.withProgress p) idx off data now k nets =
      (cbBlock c t idx off data now k nets).map (·.withProgress p) := by
  have hcall := callPieces_withProgress c p { t with downloaded := t.downloaded + data.length }
    (.gotBlock idx off (some data)) k
  rw [cbBlock_eq, cbBlock_eq, Option.map_map]
  refine (congrArg (Option.map _) hcall).trans ?_
  rw [Option.map_map]
  congr 1
  funext r
  exact afterBlock_withProgress p nets idx off data.length now _ _ r

theorem submitBlocks_withProgress (piece : Nat) (data : List UInt8) (calls : Nat → Calling)
    (fuel block : Nat) (t : Torrent) :
    submitBlocks c piece data calls fuel block (t.withProgress p) =
      (submitBlocks c piece data calls fuel block t).map (fun r => (r.1.withProgress p, r.2)) := by
  induction fuel generalizing block t with
  | zero => rfl
  | succ fuel ih =>
    simp only [submitBlocks, withProgress_mgr, callPieces_withProgress]
    split
    · rfl
    · split
      · exact ih (block + 1) t
      · cases hcall : callPieces c t (.gotBlock piece (block * blockSize)
            (some ((data.drop (block * blockSize)).take blockSize))) (calls block) with
        | none => rfl
        | some r =>
          simp only [Option.map_some]
          split
          · rfl
          · exact ih (block + 1) { r.1 with
              downloaded := r.1.downloaded + ((data.drop (block * blockSize)).take
                blockSize).length }

theorem submitWebPiece_withProgress (t : Torrent) (piece : Nat) (data : List UInt8) (alloc : Bool)
    (calls : Nat → Calling) (now : Nat) :
    submitWebPiece c (t.withProgress p) piece data alloc calls now =
      (submitWebPiece c t piece data alloc calls now).map (·.withProgress p) := by
  have hblocks := submitBlocks_withProgress c p piece data calls (data.length / blockSize + 1) 0
    (t.setMgr (markPending c alloc t.mgr piece))
  unfold submitWebPiece
  by_cases hinvalid : piece ≥ c.mi.numPieces ∨ ByteBits.msbHas t.mgr.haveBf piece = true ∨
      (data.length : Int) ≠ pieceLen c.mi piece % 2 ^ 32
  · rw [if_pos hinvalid]
    exact if_pos hinvalid
  · rw [if_neg hinvalid]
    refine (if_neg hinvalid).trans ?_
    cases hresult : submitBlocks c piece data calls (data.length / blockSize + 1) 0
        (t.setMgr (markPending c alloc t.mgr piece)) with
    | none =>
      rw [hresult] at hblocks
      have hsame : submitBlocks c piece data calls (data.length / blockSize + 1) 0
          ((t.withProgress p).setMgr (markPending c alloc (t.withProgress p).mgr piece)) = none :=
        hblocks
      rw [hsame]
      rfl
    | some r =>
      rw [hresult] at hblocks
      have hsame : submitBlocks c piece data calls (data.length / blockSize + 1) 0
          ((t.withProgress p).setMgr (markPending c alloc (t.withProgress p).mgr piece)) =
          some (r.1.withProgress p, r.2) := hblocks
      simp only [hsame, Option.map_some, Option.some.injEq]
      by_cases hreceived : r.2 = false ∧ r.1.downloaded ≠ t.downloaded
      · rw [if_pos hreceived]
        exact if_pos hreceived
      · rw [if_neg hreceived]
        exact if_neg hreceived

theorem removePeer_withProgress (t : Torrent) (slot : Nat) :
    removePeer c (t.withProgress p) slot = (removePeer c t slot).withProgress p := by
  simp only [removePeer, withProgress_peers]
  split
  · rfl
  · rfl

theorem dropPeer_withProgress (t : Torrent) (slot : Nat) :
    dropPeer c (t.withProgress p) slot = (dropPeer c t slot).withProgress p := by
  simp only [dropPeer, withProgress_peers]
  split
  · rfl
  · split
    · rfl
    · exact removePeer_withProgress c p t slot

theorem receiveMessage_withProgress (t : Torrent) (slot now : Nat) (k : Calling)
    (nets : Nat → PeerSend.Transport) :
    receiveMessage c (t.withProgress p) slot now k nets =
      (receiveMessage c t slot now k nets).map (·.withProgress p) := by
  simp only [receiveMessage, withProgress_peers]
  split
  · rfl
  · next q _ =>
    split
    · rfl
    · split
      · rfl
      · rfl
      · exact congrArg some (dropPeer_withProgress c p (t.setPeer slot _) slot)
      · exact cbBlock_withProgress c p (t.setPeer slot _) _ _ _ now k nets

theorem releaseChoked_withProgress (t : Torrent) (slot now : Nat) :
    releaseChoked c (t.withProgress p) slot now =
      (releaseChoked c t slot now).map (·.withProgress p) := by
  simp only [releaseChoked, withProgress_peers]
  split
  · rfl
  · split
    · rfl
    · rfl

theorem sweepPeer_withProgress (t : Torrent) (slot now : Nat) :
    sweepPeer c (t.withProgress p) slot now = (sweepPeer c t slot now).withProgress p := by
  simp only [sweepPeer, withProgress_peers]
  split
  · rfl
  · next q _ =>
    have hremove := fun t : Torrent => removePeer_withProgress c p t slot
    split
    · exact hremove t
    · generalize (if q.lastPieceMs ≠ 0 then q.lastPieceMs else q.connectTimeMs) = idleRef
      generalize peerExpireRequests q now (if q.lastPieceMs ≠ 0 then 15000 else 4000) = r
      generalize (if r.2 = [] then r.1 else strike r.1 now) = q1
      have hexpired := hremove ((t.setMgr (r.2.foldl (clearRequest c) t.mgr)).setPeer
        slot (some q1))
      split
      · exact hremove t
      · split
        · exact hexpired
        · split
          · exact hexpired
          · rfl
    · split
      · rfl
      · rfl

theorem scheduleRequests_withProgress (u : Setup) (t : Torrent) (slot now : Nat)
    (rounds : Nat → Round) : scheduleRequests u (t.withProgress p) slot now rounds =
      (scheduleRequests u t slot now rounds).withProgress p := by
  simp only [scheduleRequests, withProgress_peers]
  split
  · rfl
  · split
    · rfl
    · rfl

theorem scheduleHedgedRequests_withProgress (u : Setup) (t : Torrent) (now : Nat)
    (answers : Nat → Nat → Answer) :
    scheduleHedgedRequests u (t.withProgress p) now answers =
      (scheduleHedgedRequests u t now answers).withProgress p := by
  unfold scheduleHedgedRequests
  by_cases hoff : u.hedgeAfterMs = 0 ∨ u.pieces.strictOrder = false
  · rw [if_pos hoff, if_pos hoff]
  · rw [if_neg hoff, if_neg hoff]
    by_cases hearly : t.lastHedgeMs ≤ now ∧ now - t.lastHedgeMs < 250
    · rw [if_pos hearly]
      exact if_pos hearly
    · rw [if_neg hearly]
      refine (if_neg hearly).trans ?_
      have hhead : headPiece u.pieces (t.withProgress p).mgr = headPiece u.pieces t.mgr := rfl
      simp only [hhead]
      cases headPiece u.pieces t.mgr with
      | none => rfl
      | some head =>
        by_cases hfull : (List.range (t.mgr.slots head).numBlocks).countP (fun b =>
            decide (blockRequestCount u.pieces t.mgr head b > 1)) ≥ maxHedgedBlocks
        · simp only [if_pos hfull]
          exact if_pos hfull
        · simp only [if_neg hfull]
          exact if_neg hfull

theorem onPeer_withProgress (t : Torrent) (slot : Nat) {f f' : Peer → Option Torrent}
    (hf : ∀ q, f' q = (f q).map (·.withProgress p)) :
    (t.withProgress p).onPeer slot f' = (t.onPeer slot f).map (·.withProgress p) := by
  simp only [Torrent.onPeer, withProgress_peers]
  split
  · cases t.peers slot with
    | none => rfl
    | some q => exact hf q
  · rfl

theorem connectPeer_withProgress (t : Torrent) (utp : Bool) (now : Nat) :
    connectPeer c (t.withProgress p) utp now = (connectPeer c t utp now).withProgress p := by
  have hfree : freeSlot (t.withProgress p) = freeSlot t := rfl
  simp only [connectPeer, hfree]
  cases freeSlot t with
  | none => rfl
  | some slot => rfl

end Commute

section Steps

variable (p : Progress)

theorem handshake_withProgress (u : Setup) (t : Torrent) (slot now : Nat) (out : PeerSend.Sender) :
    step u (t.withProgress p) (.handshake slot now out) =
      (step u t (.handshake slot now out)).map (·.withProgress p) := by
  refine onPeer_withProgress p t slot ?_
  intro q
  split
  · generalize processHandshake u.pieces.mi.infoHash now q = r
    obtain ⟨q', outcome⟩ := r
    cases outcome with
    | fail => exact congrArg some (dropPeer_withProgress u.pieces p t slot)
    | _ => rfl
  · rfl

theorem writable_withProgress (u : Setup) (t : Torrent) (slot : Nat) (net : PeerSend.Transport) :
    step u (t.withProgress p) (.writable slot net) =
      (step u t (.writable slot net)).map (·.withProgress p) := by
  refine onPeer_withProgress p t slot ?_
  intro q
  simp only [Option.map_some, Option.some.injEq]
  split
  · rfl
  · exact dropPeer_withProgress u.pieces p (t.setPeer slot _) slot

theorem setStrictLookahead_withProgress (u : Setup) (t : Torrent) (lookahead : Nat) :
    step u (t.withProgress p) (.setStrictLookahead lookahead) =
      (step u t (.setStrictLookahead lookahead)).map (·.withProgress p) := by
  simp only [step, Option.map_some, Option.some.injEq]
  by_cases hset : u.pieces.strictOrder = true ∧ lookahead ≠ 0 ∧ t.mgr.strictLookahead ≠ lookahead
  · rw [if_pos hset]
    exact if_pos hset
  · rw [if_neg hset]
    exact if_neg hset

theorem hedge_withProgress {u : Setup} {t t' : Torrent} {now : Nat} {answers : Nat → Nat → Answer}
    (started : p.startupVerifying = true → t.startupVerifying = true)
    (h : step u t (.hedge now answers) = some t') :
    step u (t.withProgress p) (.hedge now answers) = some (t'.withProgress p) := by
  simp only [step] at h ⊢
  split at h
  · cases h
  · next hstarted =>
    cases h
    rw [scheduleHedgedRequests_withProgress]
    exact if_neg (fun hp => hstarted (started hp))

theorem schedule_withProgress {u : Setup} {t t' : Torrent} {slot now : Nat} {rounds : Nat → Round}
    (started : p.startupVerifying = true → t.startupVerifying = true)
    (h : step u t (.schedule slot now rounds) = some t') :
    step u (t.withProgress p) (.schedule slot now rounds) = some (t'.withProgress p) := by
  simp only [step] at h ⊢
  split at h
  · next hstarted =>
    cases h
    have hp : p.startupVerifying = false := by
      by_contra hp
      rw [started (by simpa using hp)] at hstarted
      cases hstarted.1
    rw [scheduleRequests_withProgress]
    exact if_pos ⟨hp, hstarted.2⟩
  · cases h

end Steps

/-- A step that is no round of a verification pass goes the same way whatever the progress
fields say, as long as the request handlers may run. -/
theorem step_withProgress {u : Setup} {t t' : Torrent} {action : Action} (p : Progress)
    (other : action.verifies = false) (h : step u t action = some t')
    (started : p.startupVerifying = true → t.startupVerifying = true) :
    step u (t.withProgress p) action = some (t'.withProgress p) := by
  have lift : ∀ {o o' : Option Torrent}, o = some t' → o' = o.map (·.withProgress p) →
      o' = some (t'.withProgress p) := by
    intro o o' ho ho'
    rw [ho', ho]
    rfl
  cases action with
  | startupVerify alloc => cases other
  | checkCompletion alloc flushed => cases other
  | worker =>
    refine lift h ?_
    simp only [step, withProgress_machine, Option.map_map]
    rfl
  | drainHashResults k =>
    refine lift h ?_
    simp only [step, callPieces_withProgress, Option.map_map]
    rfl
  | hashFlush k =>
    refine lift h ?_
    simp only [step, callPieces_withProgress, Option.map_map]
    rfl
  | submitWebPiece piece data alloc calls now =>
    exact lift h (submitWebPiece_withProgress u.pieces p t piece data alloc calls now)
  | connect utp now =>
    exact lift h (congrArg some (connectPeer_withProgress u.pieces p t utp now))
  | connected slot encrypted out =>
    refine lift h (onPeer_withProgress p t slot ?_)
    intro q
    split
    · rfl
    · rfl
  | encryption slot rbuf out done =>
    refine lift h (onPeer_withProgress p t slot ?_)
    intro q
    split
    · rfl
    · rfl
  | handshake slot now out => exact lift h (handshake_withProgress p u t slot now out)
  | receive slot bytes => exact lift h (onPeer_withProgress p t slot (fun _ => rfl))
  | message slot now k nets =>
    refine lift h ?_
    simp only [step]
    split
    · exact receiveMessage_withProgress u.pieces p t slot now k nets
    · rfl
  | writable slot net => exact lift h (writable_withProgress p u t slot net)
  | lost slot =>
    refine lift h ?_
    simp only [step, dropPeer_withProgress]
    split
    · rfl
    · rfl
  | markDead slot =>
    refine lift h (onPeer_withProgress p t slot ?_)
    intro q
    split
    · rfl
    · rfl
  | releaseChoked slot now =>
    refine lift h ?_
    simp only [step, releaseChoked_withProgress]
    split
    · rfl
    · rfl
  | sweep slot now =>
    refine lift h ?_
    simp only [step, sweepPeer_withProgress]
    split
    · rfl
    · rfl
  | sampleRates elapsedMs now =>
    cases h
    rfl
  | hedge now answers => exact hedge_withProgress p started h
  | schedule slot now rounds => exact schedule_withProgress p started h
  | setStrictLookahead lookahead => exact lift h (setStrictLookahead_withProgress p u t lookahead)
  | setRateFreeze freeze =>
    cases h
    rfl

/-- Such a step leaves the progress fields as they are. -/
theorem step_progress {u : Setup} {t t' : Torrent} {action : Action}
    (other : action.verifies = false)
    (h : step u t action = some t') : t'.progress = t.progress := by
  have hsame := step_withProgress t.progress other h id
  rw [withProgress_self, h] at hsame
  rw [Option.some.inj hsame]
  rfl

end TorrentEngine
