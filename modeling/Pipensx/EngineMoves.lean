import Mathlib.Logic.Relation
import Pipensx.Hedging

/-!
# What a handler can do

Every handler of the engine is a sequence of a few kinds of moves, each with what the code
has checked before it. The loops of the handlers are gone through here and nowhere else.
-/

namespace TorrentEngine

open PieceManager PeerRequests PieceGeometry

/-- A peer that has not been asked for anything yet. -/
def Fresh (p : Peer) : Prop := p.state ≠ .active ∧ p.state ≠ .dead

/-- A peer whose requests are the same, and that has not become fresh. -/
def SameRequests (p p' : Peer) : Prop := p'.pipeline = p.pipeline ∧ (Fresh p' → Fresh p)

def plainLicence : Licence := ⟨false, false, false⟩

/-- The torrent with another manager and another peer in one slot. -/
def Torrent.put (t : Torrent) (s : Mgr) (slot : Nat) (p : Peer) : Torrent :=
  (t.setMgr s).setPeer slot (some p)

/-- One move; `good` is what is known of the calls of the piece manager. -/
inductive Move (u : Setup) (good : Calling → Prop) : Torrent → Torrent → Prop where
  | flags (t t' : Torrent) : t'.machine = t.machine → t'.peers = t.peers →
      (t'.startupVerifying = true → t.startupVerifying = true) → t'.fatalError = t.fatalError →
      Move u good t t'
  | worker (t : Torrent) (m : Machine) (events : List Event) :
      PieceManager.step u.pieces t.machine .worker = some (m, events) →
      Move u good t { t with machine := m }
  | edit (t : Torrent) (call : Call) (env : Env) : (start u.pieces t.mgr env call).2.1 = .idle →
      call.licence = plainLicence → Move u good t (t.setMgr (start u.pieces t.mgr env call).1)
  | check (t : Torrent) (idx : Nat) (alloc : Bool) : t.startupVerifying = true →
      Move u good t (t.setMgr (checkExisting u.pieces alloc t.mgr idx).1)
  | call (t t' : Torrent) (call : Call) (k : Calling) (result : Int) : good k →
      call.licence = plainLicence → callPieces u.pieces t call k = some (t', result) →
      Move u good t t'
  | webFail (t t' : Torrent) (piece off : Nat) (data : List UInt8) (k : Calling) (result : Int) :
      good k → piece < u.pieces.mi.numPieces → (data.length : Int) =
      pieceLen u.pieces.mi piece % 2 ^ 32 → off % blockSize = 0 → off < data.length →
      callPieces u.pieces t (.gotBlock piece off (some ((data.drop off).take blockSize))) k =
        some (t', result) → result < 0 → Move u good t (t'.fail .webSeedPieceProcessing)
  | peers (t : Torrent) (peers : Nat → Option Peer) :
      (∀ slot, Option.Rel SameRequests (t.peers slot) (peers slot)) →
      Move u good t { t with peers := peers }
  | join (t : Torrent) (slot : Nat) (p : Peer) : t.peers slot = none → p.pipeline = [] →
      Move u good t (t.setPeer slot (some p))
  | leave (t : Torrent) (slot : Nat) (p : Peer) : t.peers slot = some p →
      Fresh p ∨ p.pipeline = [] → Move u good t (t.setPeer slot none)
  | release (t : Torrent) (slot : Nat) (p p' : Peer) (keep : BlockReq → Bool) : slot <
      maxActivePeers →
      t.peers slot = some p → p'.pipeline = p.pipeline.filter keep → (Fresh p' → Fresh p) →
      Move u good t (t.put ((p.pipeline.filter (fun r => !keep r)).foldl
        (clearRequest u.pieces) t.mgr) slot p')
  | ask (t : Torrent) (slot : Nat) (p p' : Peer) (idx b now : Nat) : slot < maxActivePeers →
      t.startupVerifying = false → t.peers slot = some p → p'.state = .active →
      Requestable u.pieces t.mgr idx → b < (t.mgr.slots idx).numBlocks →
      hasBlock u.pieces t.mgr idx b = false → blockRequestCount u.pieces t.mgr idx b = 0 →
      peerHasRequest p idx (b * blockSize % 2 ^ 32) = false →
      p'.pipeline = p.pipeline ++ [⟨toInt idx, toInt (b * blockSize % 2 ^ 32),
        toInt (requestLen u.pieces idx (b * blockSize % 2 ^ 32)), now⟩] →
      p.pipeline.length < max bootstrapPipeline u.requestPipelineLimit →
      (t.mgr.slots idx).state = .pending →
      Move u good t (t.put (markBlockRequested u.pieces t.mgr idx b) slot p')
  | hedge (t : Torrent) (slot primary : Nat) (p p' q : Peer) (r : BlockReq) (head now : Nat) :
      slot < maxActivePeers → t.startupVerifying = false →
      t.peers slot = some p → p'.state = .active →
      t.peers primary = some q → r ∈ q.pipeline → r.index = toInt head → 0 ≤ r.offset →
      head < u.pieces.mi.numPieces →
      hasBlock u.pieces t.mgr head (r.offset.toNat / blockSize) = false →
      blockRequestCount u.pieces t.mgr head (r.offset.toNat / blockSize) = 1 →
      peerHasRequest p head r.offset.toNat = false →
      p'.pipeline = p.pipeline ++ [⟨toInt head, toInt r.offset.toNat,
        toInt (r.length % 2 ^ 32).toNat, now⟩] →
      p.pipeline.length < max bootstrapPipeline u.requestPipelineLimit →
      (doubled t.mgr head).card < maxHedgedBlocks →
      Move u good t (t.put (markBlockRequested u.pieces t.mgr head (r.offset.toNat / blockSize))
        slot p')
  | block (t t' : Torrent) (slot : Nat) (p p' : Peer) (idx off : Nat)
      (data : List UInt8) (now : Nat)
      (k : Calling) (nets : Nat → PeerSend.Transport) : slot < maxActivePeers → good k →
      t.peers slot = some p → p'.state = .active → idx < 2 ^ 32 → off < 2 ^ 32 →
      data.length < 2 ^ 32 → (p.pipeline.any (fun r => r.isExactly idx off data.length)) = true →
      p'.pipeline = p.pipeline.eraseP (fun r => r.isExactly idx off data.length) →
      cbBlock u.pieces (t.setPeer slot (some p')) idx off data now k nets = some t' →
      Move u good t t'

abbrev Moves (u : Setup) (good : Calling → Prop) : Torrent → Torrent → Prop :=
  Relation.ReflTransGen (Move u good)

/-- An invariant of every move is an invariant of every sequence of moves. -/
theorem Moves.induction {u : Setup} {good : Calling → Prop} {P : Torrent → Prop}
    (preserved : ∀ t t', P t → Move u good t t' → P t') {t t' : Torrent} (h : Moves u good t t')
    (init : P t) : P t' := by
  induction h with
  | refl => exact init
  | tail _ hmove ih => exact preserved _ _ ih hmove

theorem Move.moves {u : Setup} {good : Calling → Prop} {t t' : Torrent} (h : Move u good t t') :
    Moves u good t t' := Relation.ReflTransGen.single h

/-- What the piece manager keeps when one request is cleared it keeps when a peer's are. -/
theorem clearRequests_induction {c : Config} {P : Mgr → Prop}
    (preserved : ∀ s piece block, P s → P (clearBlockRequested c s piece block))
    (gone : List BlockReq) {s : Mgr} (init : P s) : P (gone.foldl (clearRequest c) s) := by
  induction gone generalizing s with
  | nil => exact init
  | cons r rest ih =>
    refine ih ?_
    unfold clearRequest
    split
    · exact init
    · exact preserved s _ _ init

/-- The calls of the piece manager in an action. -/
def Action.Uses (good : Calling → Prop) : Action → Prop
  | .drainHashResults k => good k
  | .hashFlush k => good k
  | .submitWebPiece _ _ _ calls _ => ∀ block, good (calls block)
  | .message _ _ k _ => good k
  | _ => True

theorem Action.uses_any (action : Action) : action.Uses (fun _ => True) := by
  cases action <;> simp [Action.Uses]

@[simp] theorem setPeer_peers_self (t : Torrent) (slot : Nat) (p : Option Peer) :
    (t.setPeer slot p).peers slot = p := by
  simp [Torrent.setPeer]

@[simp] theorem setPeer_setPeer (t : Torrent) (slot : Nat) (p p' : Option Peer) :
    (t.setPeer slot p).setPeer slot p' = t.setPeer slot p' := by
  simp [Torrent.setPeer]

@[simp] theorem put_peers_self (t : Torrent) (s : Mgr) (slot : Nat) (p : Peer) :
    (t.put s slot p).peers slot = some p := by
  simp [Torrent.put]

@[simp] theorem put_put (t : Torrent) (s s' : Mgr) (slot : Nat) (p p' : Peer) :
    (t.put s slot p).put s' slot p' = t.put s' slot p' :=
  setPeer_setPeer (t.setMgr s') slot (some p) (some p')

theorem setPeer_self {t : Torrent} {slot : Nat} {p : Option Peer} (hpeer : t.peers slot = p) :
    t.setPeer slot p = t := by
  subst hpeer
  simp [Torrent.setPeer]

theorem put_self {t : Torrent} {slot : Nat} {p : Peer} (hpeer : t.peers slot = some p) :
    t.put t.mgr slot p = t := setPeer_self hpeer

theorem SameRequests.refl (p : Peer) : SameRequests p p := ⟨rfl, id⟩

/-- A peer that stays in its state keeps what is known of its requests. -/
theorem SameRequests.of_state {p p' : Peer} (hpipeline : p'.pipeline = p.pipeline)
    (hstate : p'.state = p.state) : SameRequests p p' := by
  refine ⟨hpipeline, ?_⟩
  rintro ⟨hactive, hdead⟩
  rw [hstate] at hactive hdead
  exact ⟨hactive, hdead⟩

theorem sameRequests_self (o : Option Peer) : Option.Rel SameRequests o o := by
  cases o with
  | none => exact .none
  | some p => exact .some (.refl p)

/-- A peer that is there was there before. -/
theorem rel_some {R : Peer → Peer → Prop} {o : Option Peer} {p' : Peer}
    (h : Option.Rel R o (some p')) : ∃ p, o = some p ∧ R p p' := by
  cases h with
  | some hrel => exact ⟨_, rfl, hrel⟩

section Handlers

variable {u : Setup} {good : Calling → Prop} {t : Torrent}

theorem moves_peer {slot : Nat} {p p' : Peer} (hpeer : t.peers slot = some p)
    (hsame : SameRequests p p') : Moves u good t (t.setPeer slot (some p')) := by
  refine (Move.peers t _ ?_).moves
  intro other
  by_cases hother : other = slot
  · subst hother
    rw [hpeer, Function.update_self]
    exact .some hsame
  · rw [Function.update_of_ne hother]
    exact sameRequests_self _

/-- A peer taken out of its slot gives its requests back first. -/
theorem moves_removePeer {slot : Nat} (hslot : slot < maxActivePeers) :
    Moves u good t (removePeer u.pieces t slot) := by
  unfold removePeer
  split
  · exact .refl
  · next p hpeer =>
    have hrelease : Move u good t _ := Move.release t slot p { p with pipeline := [] }
      (fun _ => false) hslot hpeer (by simp) id
    simp only [Bool.not_false, List.filter_true] at hrelease
    refine hrelease.moves.tail ?_
    exact Move.leave _ slot { p with pipeline := [] } (by simp) (Or.inr rfl)

theorem moves_dropPeer {slot : Nat} (hslot : slot < maxActivePeers) :
    Moves u good t (dropPeer u.pieces t slot) := by
  unfold dropPeer
  split
  · exact .refl
  · next p hpeer =>
    split
    · refine moves_peer hpeer ⟨rfl, ?_⟩
      rintro ⟨_, hdead⟩
      exact absurd rfl hdead
    · exact moves_removePeer hslot

theorem moves_releaseChoked {slot now : Nat} {t' : Torrent} (hslot : slot < maxActivePeers)
    (h : releaseChoked u.pieces t slot now = some t') : Moves u good t t' := by
  unfold releaseChoked at h
  split at h
  · cases h
  · next p hpeer =>
    split at h
    · cases h
      have hrelease : Move u good t _ := Move.release t slot p
        { p with pipeline := [], requestCooldownUntilMs := now + timeoutCooldownBaseMs }
        (fun _ => false) hslot hpeer (by simp) id
      simp only [Bool.not_false, List.filter_true] at hrelease
      simpa [clearPeerRequests, Torrent.put] using hrelease.moves
    · cases h
      exact .refl

@[simp] theorem strike_pipeline (p : Peer) (now : Nat) : (strike p now).pipeline = p.pipeline := by
  unfold strike
  split <;> rfl

@[simp] theorem strike_state (p : Peer) (now : Nat) : (strike p now).state = p.state := by
  unfold strike
  split <;> rfl

theorem moves_sweepPeer {slot : Nat} (now : Nat) (hslot : slot < maxActivePeers) :
    Moves u good t (sweepPeer u.pieces t slot now) := by
  unfold sweepPeer
  split
  · exact .refl
  · next p hpeer =>
    split
    · exact moves_removePeer hslot
    · next hactive =>
      dsimp only
      generalize (if p.lastPieceMs ≠ 0 then p.lastPieceMs else p.connectTimeMs) = idleRef
      generalize (if p.lastPieceMs ≠ 0 then 15000 else 4000) = timeoutMs
      generalize hp1 : (if (peerExpireRequests p now timeoutMs).2 = [] then
        (peerExpireRequests p now timeoutMs).1
        else strike (peerExpireRequests p now timeoutMs).1 now) = p1
      have hpipeline : p1.pipeline = p.pipeline.filter (fun r => !r.expired now timeoutMs) := by
        rw [← hp1]
        split
        · rfl
        · rw [strike_pipeline]
          rfl
      have hstate : p1.state = p.state := by
        rw [← hp1]
        split
        · simp
        · simp
      have hexpire : Move u good t _ := Move.release t slot p p1
        (fun r => !r.expired now timeoutMs) hslot hpeer hpipeline
        (fun hfresh => absurd (hstate.trans hactive) hfresh.1)
      simp only [Bool.not_not] at hexpire
      have hremove := hexpire.moves.trans (moves_removePeer hslot)
      split
      · exact moves_removePeer hslot
      · split
        · exact hremove
        · split
          · exact hremove
          · exact hexpire.moves
    · next hdead hactive =>
      split
      · exact (Move.leave t slot p hpeer (Or.inl ⟨hactive, hdead⟩)).moves
      · exact .refl

/-- A count is all that changes in a slot. -/
theorem setCount_slot (c : Config) (s : Mgr) (idx block i : Nat) (f : Nat → Nat) :
    ∃ counts, (setCount c s idx block f).slots i = { s.slots i with requestCounts := counts } := by
  obtain ⟨counts, hcounts⟩ := setCount_eq c s idx block f
  rw [hcounts]
  by_cases hi : i = idx
  · subst hi
    exact ⟨counts, by simp [Mgr.setSlot]⟩
  · exact ⟨(s.slots i).requestCounts, by simp [Mgr.setSlot, Function.update_of_ne hi]⟩

@[simp] theorem slots_setCount_numBlocks (c : Config) (s : Mgr) (idx block i : Nat)
    (f : Nat → Nat) : ((setCount c s idx block f).slots i).numBlocks = (s.slots i).numBlocks := by
  obtain ⟨counts, hslot⟩ := setCount_slot c s idx block i f
  rw [hslot]

@[simp] theorem slots_setCount_state (c : Config) (s : Mgr) (idx block i : Nat) (f : Nat → Nat) :
    ((setCount c s idx block f).slots i).state = (s.slots i).state := by
  obtain ⟨counts, hslot⟩ := setCount_slot c s idx block i f
  rw [hslot]

/-- The limit of a peer that has delivered is the configured one at most; that of a peer
that has not is a constant. -/
theorem peerPipelineLimit_le (u : Setup) (p : Peer) :
    peerPipelineLimit u p ≤ max bootstrapPipeline u.requestPipelineLimit := by
  have hmin : minRequestPipeline ≤ u.requestPipelineLimit := le_max_left _ _
  unfold peerPipelineLimit
  split
  · exact le_max_left _ _
  · refine le_trans (max_le hmin ?_) (le_max_right _ _)
    exact (Nat.div_le_self _ _).trans (min_le_right _ _)

theorem requestBlocks_moves {slot : Nat} (hslot : slot < maxActivePeers)
    (hstarted : t.startupVerifying = false) {limit : Nat}
    (hlimit : limit ≤ max bootstrapPipeline u.requestPipelineLimit) (idx : Nat)
    (answers : Nat → Answer)
    (blocks : List Nat) (s : Mgr) (p : Peer) (queued : Nat) (hactive : p.state = .active)
    (hopen : Requestable u.pieces s idx) (hpending : (s.slots idx).state = .pending)
    (hblocks : ∀ b ∈ blocks, b < (s.slots idx).numBlocks) :
    (requestBlocks u.pieces limit idx answers blocks s p queued).2.1.state = .active ∧
      Moves u good (t.put s slot p)
        (t.put (requestBlocks u.pieces limit idx answers blocks s p queued).1 slot
          (requestBlocks u.pieces limit idx answers blocks s p queued).2.1) := by
  induction blocks generalizing s p queued with
  | nil => exact ⟨hactive, .refl⟩
  | cons b rest ih =>
    have hb : b < (s.slots idx).numBlocks := hblocks b (by simp)
    have hrest : ∀ b ∈ rest, b < (s.slots idx).numBlocks := fun b' hb' => hblocks b' (by simp [hb'])
    simp only [requestBlocks]
    split
    · exact ⟨hactive, .refl⟩
    · next hroom =>
      split
      · exact ih s p queued hactive hopen hpending hrest
      · next hask =>
        simp only [not_or, Bool.not_eq_true, not_not] at hask
        obtain ⟨hmissing, hcount, hnew⟩ := hask
        generalize hsent : peerRequestBlock (answers b).net (answers b).now p idx
          (b * blockSize % 2 ^ 32) (requestLen u.pieces idx (b * blockSize % 2 ^ 32)) = sent
        have hpipeline := peerRequestBlock_pipeline (answers b).net (answers b).now p idx
          (b * blockSize % 2 ^ 32) (requestLen u.pieces idx (b * blockSize % 2 ^ 32))
        have hstate := peerRequestBlock_state (answers b).net (answers b).now p idx
          (b * blockSize % 2 ^ 32) (requestLen u.pieces idx (b * blockSize % 2 ^ 32))
        rw [hsent] at hpipeline hstate
        split
        · next hok =>
          rw [if_pos hok] at hpipeline
          have hask : Move u good (t.put s slot p) _ :=
            Move.ask (t.put s slot p) slot p sent.1 idx b
            (answers b).now hslot hstarted (by simp) (hstate.trans hactive) hopen hb
            hmissing hcount hnew hpipeline ((Nat.lt_of_not_le hroom).trans_le hlimit) hpending
          obtain ⟨hstate', hmoves⟩ := ih (markBlockRequested u.pieces s idx b) sent.1 (queued + 1)
            (hstate.trans hactive) (by simpa [Requestable, markBlockRequested] using hopen)
            (by simpa [markBlockRequested] using hpending)
            (by simpa [markBlockRequested] using hrest)
          rw [put_put] at hask
          exact ⟨hstate', hask.moves.trans hmoves⟩
        · next hnot =>
          rw [if_neg hnot] at hpipeline
          have hout : Moves u good (t.put s slot p) _ :=
            moves_peer (put_peers_self t s slot p) (SameRequests.of_state hpipeline hstate)
          obtain ⟨hstate', hmoves⟩ := ih s sent.1 queued (hstate.trans hactive) hopen hpending
            hrest
          refine ⟨hstate', Relation.ReflTransGen.trans ?_ hmoves⟩
          simpa [Torrent.put] using hout

/-- The answers of the system for an allocation alone. -/
def envOf (alloc : Bool) : Env := ⟨alloc, false, fun _ => ⟨false, 0, false⟩⟩

theorem markPending_state (c : Config) (alloc : Bool) {s : Mgr} {i : Nat} (h : Requestable c s i) :
    ((markPending c alloc s i).slots i).state = .pending := by
  obtain ⟨hlt, hdone, hhashing⟩ := h
  have hstate : (s.slots i).state = .empty ∨ (s.slots i).state = .pending := by
    cases hs : (s.slots i).state with
    | empty => exact Or.inl rfl
    | pending => exact Or.inr rfl
    | done => exact absurd hs hdone
    | hashing => exact absurd hs hhashing
  simp only [markPending, ge_iff_le, not_le.mpr hlt, if_false, hdone, hhashing, or_self]
  rw [slotBuf_slots, Function.update_self]
  rcases hstate with hempty | hpending
  · simp [hempty, Mgr.setSlot]
  · simp [hpending]

theorem requestable_markPending (c : Config) (alloc : Bool) {s : Mgr} {i : Nat}
    (h : Requestable c s i) : Requestable c (markPending c alloc s i) i := by
  have hpending := markPending_state c alloc h
  exact ⟨h.1, by rw [hpending]; decide, by rw [hpending]; decide⟩

theorem scheduleLoop_moves {slot : Nat} (hslot : slot < maxActivePeers)
    (hstarted : t.startupVerifying = false) {limit : Nat}
    (hlimit : limit ≤ max bootstrapPipeline u.requestPipelineLimit) (rounds : Nat → Round)
    (fuel : Nat) (s : Mgr) (p : Peer) (hactive : p.state = .active) :
    Moves u good (t.put s slot p)
      (t.put (scheduleLoop u.pieces limit rounds fuel s p).1 slot
        (scheduleLoop u.pieces limit rounds fuel s p).2) := by
  induction fuel generalizing s p with
  | zero => exact .refl
  | succ fuel ih =>
    simp only [scheduleLoop]
    split
    · exact .refl
    · split
      · exact .refl
      · next idx hpick =>
        have hopen := requestable_markPending u.pieces (rounds fuel).alloc (pick_requestable hpick)
        have hstate := markPending_state u.pieces (rounds fuel).alloc (pick_requestable hpick)
        have hpending : Move u good (t.put s slot p) _ :=
          Move.edit (t.put s slot p) (.markPending idx) (envOf (rounds fuel).alloc) rfl rfl
        obtain ⟨hactive', hmoves⟩ :=
          requestBlocks_moves hslot hstarted hlimit idx (rounds fuel).answers
          (List.range ((markPending u.pieces (rounds fuel).alloc s idx).slots idx).numBlocks)
          (markPending u.pieces (rounds fuel).alloc s idx) p 0 hactive hopen hstate
          (fun b hb => List.mem_range.mp hb)
        have hround := hpending.moves.trans hmoves
        split
        · exact hround
        · exact hround.trans (ih _ _ hactive')

theorem scheduleRequests_moves {slot : Nat} (hslot : slot < maxActivePeers)
    (hstarted : t.startupVerifying = false) (now : Nat) (rounds : Nat → Round) :
    Moves u good t (scheduleRequests u t slot now rounds) := by
  unfold scheduleRequests
  split
  · exact .refl
  · next p hpeer =>
    split
    · exact .refl
    · next hask =>
      simp only [not_or, not_not] at hask
      have hloop : Moves u good (t.put t.mgr slot p) _ :=
        scheduleLoop_moves hslot hstarted (peerPipelineLimit_le u p) rounds
          (peerPipelineLimit u p) t.mgr p hask.2.1
      rw [put_self hpeer] at hloop
      exact hloop

/-- The torrent with another manager and other peers. -/
def Torrent.putAll (t : Torrent) (s : Mgr) (peers : Nat → Option Peer) : Torrent :=
  { t.setMgr s with peers := peers }

/-- Every copy is a move, as long as the piece may have one more block asked for twice. -/
theorem Copies.moves (hstarted : t.startupVerifying = false) {head : Nat}
    (hhead : head < u.pieces.mi.numPieces) {s s' : Mgr} {peers peers' : Nat → Option Peer}
    {copies : List Copy} (h : Copies u head s peers copies s' peers')
    (hbudget : (doubled s head).card + copies.length ≤ maxHedgedBlocks) :
    Moves u good (t.putAll s peers) (t.putAll s' peers') := by
  induction h with
  | start => exact .refl
  | @refused copies s' peers' slot p p' _ hpeer hpipeline hstate ih =>
    have hout : Moves u good (t.putAll s' peers') _ :=
      moves_peer (t := t.putAll s' peers') hpeer (SameRequests.of_state hpipeline hstate)
    exact (ih hbudget).trans hout
  | @sent copies s' peers' d p p' now hcopies hdue hstate hpipeline ih =>
    rw [List.length_cons] at hbudget
    have hroom : (doubled s' head).card < maxHedgedBlocks := by
      rw [hcopies.doubles]
      omega
    obtain ⟨q, hprimary, _, hr⟩ := hdue.held
    have hhedge : Move u good (t.putAll s' peers') _ :=
      Move.hedge (t.putAll s' peers') d.slot d.primary p
      p' q d.request head now hdue.slot hstarted hdue.peer (hstate.trans hdue.active) hprimary hr
      hdue.index hdue.offset hhead hdue.missing hdue.single hdue.fresh hpipeline
      (hdue.room.trans_le (peerPipelineLimit_le u p)) hroom
    exact (ih (by omega)).trans hhedge.moves

theorem moves_flags {t t' : Torrent} (hmachine : t'.machine = t.machine)
    (hpeers : t'.peers = t.peers)
    (hstarting : t'.startupVerifying = true → t.startupVerifying = true)
    (hfatal : t'.fatalError = t.fatalError) : Moves u good t t' :=
  (Move.flags t t' hmachine hpeers hstarting hfatal).moves

theorem scheduleHedgedRequests_moves (hstarted : t.startupVerifying = false) (now : Nat)
    (answers : Nat → Nat → Answer) : Moves u good t (scheduleHedgedRequests u t now answers) := by
  obtain ⟨hmachine, hstarting, hfatal⟩ := scheduleHedgedRequests_rest u t now answers
  cases scheduleHedgedRequests_hedges t now answers with
  | none hmgr hpeers =>
    refine moves_flags ?_ hpeers (by rw [hstarting]; exact id) hfatal
    rw [hmachine, hmgr]
    rfl
  | copies head copies hhead hcopies _ hbudget =>
    have hhedges : Moves u good (t.putAll t.mgr t.peers) _ :=
      hcopies.moves hstarted (headPiece_lt hhead) hbudget
    refine Relation.ReflTransGen.trans hhedges ?_
    exact moves_flags hmachine rfl (by rw [hstarting]; exact id) hfatal

theorem submitBlocks_moves {piece : Nat} {data : List UInt8}
    (hpiece : piece < u.pieces.mi.numPieces)
    (hdata : (data.length : Int) = pieceLen u.pieces.mi piece % 2 ^ 32) {calls : Nat → Calling}
    (hcalls : ∀ block, good (calls block)) (fuel block : Nat) {t t' : Torrent} {failed : Bool}
    (h : submitBlocks u.pieces piece data calls fuel block t = some (t', failed)) :
    Moves u good t t' := by
  induction fuel generalizing block t with
  | zero =>
    cases h
    exact .refl
  | succ fuel ih =>
    simp only [submitBlocks] at h
    split at h
    · cases h
      exact .refl
    · next hoff =>
      split at h
      · exact ih _ h
      · split at h
        · cases h
        · next t1 result hcall =>
          split at h
          · next hfailed =>
            cases h
            exact (Move.webFail t t1 piece (block * blockSize) data (calls block) result
              (hcalls block) hpiece hdata (Nat.mul_mod_left _ _) (by omega) hcall hfailed).moves
          · have hstored : Moves u good t t1 :=
              (Move.call t t1 _ (calls block) result (hcalls block) rfl hcall).moves
            refine (hstored.trans ?_).trans (ih _ h)
            exact moves_flags rfl rfl id rfl

theorem submitWebPiece_moves {piece : Nat} {data : List UInt8} {alloc : Bool}
    {calls : Nat → Calling} {now : Nat} (hcalls : ∀ block, good (calls block)) {t' : Torrent}
    (h : submitWebPiece u.pieces t piece data alloc calls now = some t') : Moves u good t t' := by
  simp only [submitWebPiece] at h
  split at h
  · cases h
    exact .refl
  · next hvalid =>
    simp only [not_or, not_not, ge_iff_le, not_le] at hvalid
    have hpending : Move u good t _ := Move.edit t (.markPending piece) (envOf alloc) rfl rfl
    split at h
    · cases h
    · next t1 failed hblocks =>
      have hall := hpending.moves.trans
        (submitBlocks_moves hvalid.1 hvalid.2.2 hcalls _ _ hblocks)
      split at h
      · cases h
        exact hall.trans (moves_flags rfl rfl id rfl)
      · cases h
        exact hall

theorem startupRound_moves (hstarting : t.startupVerifying = true) (alloc : Bool) :
    Moves u good t (startupRound u.pieces t alloc) := by
  simp only [startupRound]
  split
  · have hcheck : Move u good t _ := Move.check t t.startupVerifyIndex alloc hstarting
    split
    · exact hcheck.moves.trans (moves_flags rfl rfl (by simp) rfl)
    · exact hcheck.moves.trans (moves_flags rfl rfl id rfl)
  · split
    · exact moves_flags rfl rfl (by simp) rfl
    · exact .refl

theorem checkCompletion_moves (alloc flushed : Bool) :
    Moves u good t (checkCompletion u.pieces t alloc flushed).1 := by
  simp only [checkCompletion]
  split
  · exact moves_flags rfl rfl id rfl
  · split
    · exact .refl
    · split
      · exact .refl
      · generalize hbegun : (if t.finalVerifying = true then t
          else { t with finalVerifying := true, finalVerifyIndex := 0 }) = t1
        have hbegin : Moves u good t t1 := by
          rw [← hbegun]
          split
          · exact .refl
          · exact moves_flags rfl rfl id rfl
        split
        · have hverify : Move u good t1 _ :=
            Move.edit t1 (.verifyPiece t1.finalVerifyIndex) (envOf alloc)
            rfl rfl
          split
          · exact (hbegin.trans hverify.moves).trans (moves_flags rfl rfl id rfl)
          · exact (hbegin.trans hverify.moves).trans (moves_flags rfl rfl id rfl)
        · exact hbegin

theorem receiveMessage_moves {slot now : Nat} {k : Calling} {nets : Nat → PeerSend.Transport}
    (hslot : slot < maxActivePeers) (hk : good k) {t' : Torrent}
    (h : receiveMessage u.pieces t slot now k nets = some t') : Moves u good t t' := by
  simp only [receiveMessage] at h
  split at h
  · cases h
  · next p hpeer =>
    split at h
    · cases h
    · next hactive =>
      obtain ⟨hstate, hanswered⟩ := processMessage_answered u.pieces.mi.numPieces now p
      generalize processMessage u.pieces.mi.numPieces now p = r at h hstate hanswered
      obtain ⟨p', outcome⟩ := r
      have stay : p'.pipeline = p.pipeline → Moves u good t (t.setPeer slot (some p')) :=
        fun hsame => moves_peer hpeer (SameRequests.of_state hsame hstate)
      cases hanswered with
      | wait hsame =>
        cases h
        exact stay hsame
      | next hsame =>
        cases h
        exact stay hsame
      | fail hsame =>
        cases h
        exact (stay hsame).trans (moves_dropPeer hslot)
      | block idx off data hidx hoff hdata hasked htaken =>
        exact (Move.block t t' slot p p' idx off data now k nets hslot hk hpeer
          (hstate.trans (not_not.mp hactive)) hidx hoff hdata hasked htaken h).moves

theorem freeSlot_spec {slot : Nat} (h : freeSlot t = some slot) : t.peers slot = none := by
  have hfree := List.find?_some h
  simpa using hfree

theorem connectPeer_moves (utp : Bool) (now : Nat) :
    Moves u good t (connectPeer u.pieces t utp now) := by
  unfold connectPeer
  split
  · exact .refl
  · next slot hfree => exact (Move.join t slot _ (freeSlot_spec hfree) rfl).moves

theorem samplePeerRates_moves (elapsedMs now : Nat) :
    Moves u good t (samplePeerRates u t elapsedMs now) := by
  refine (Move.peers t _ ?_).moves
  intro slot
  cases t.peers slot with
  | none => exact .none
  | some p =>
    refine .some ?_
    split
    · unfold samplePeerRate
      split
      · exact SameRequests.of_state rfl rfl
      · exact SameRequests.of_state rfl rfl
    · exact .refl p

/-- What is done to one peer, when its slot is taken. -/
theorem onPeer_some {slot : Nat} {f : Peer → Option Torrent} {t' : Torrent}
    (h : t.onPeer slot f = some t') :
    slot < maxActivePeers ∧ ∃ p, t.peers slot = some p ∧ f p = some t' := by
  unfold Torrent.onPeer at h
  split at h
  · next hslot => exact ⟨hslot, Option.bind_eq_some_iff.mp h⟩
  · cases h

theorem connected_moves {slot : Nat} {encrypted : Bool} {out : PeerSend.Sender} {t' : Torrent}
    (h : step u t (.connected slot encrypted out) = some t') : Moves u good t t' := by
  obtain ⟨_, p, hpeer, hf⟩ := onPeer_some h
  split at hf
  · next hconnecting =>
    cases hf
    refine moves_peer hpeer ⟨rfl, fun _ => ?_⟩
    exact ⟨by simp [hconnecting], by simp [hconnecting]⟩
  · cases hf

theorem encryption_moves {slot : Nat} {rbuf : List UInt8} {out : PeerSend.Sender} {done : Bool}
    {t' : Torrent}
    (h : step u t (.encryption slot rbuf out done) = some t') : Moves u good t t' := by
  obtain ⟨_, p, hpeer, hf⟩ := onPeer_some h
  split at hf
  · next hmse =>
    cases hf
    refine moves_peer hpeer ⟨rfl, fun _ => ?_⟩
    exact ⟨by simp [hmse], by simp [hmse]⟩
  · cases hf

theorem handshake_moves {slot now : Nat} {out : PeerSend.Sender} {t' : Torrent}
    (h : step u t (.handshake slot now out) = some t') : Moves u good t t' := by
  obtain ⟨hslot, p, hpeer, hf⟩ := onPeer_some h
  split at hf
  · dsimp only at hf
    split at hf
    · cases hf
      exact moves_dropPeer hslot
    · next hnext =>
      cases hf
      refine moves_peer hpeer ⟨processHandshake_pipeline _ now p, ?_⟩
      rintro ⟨hactive, _⟩
      exact absurd (processHandshake_next _ now p hnext) hactive
    · cases hf
      exact .refl
  · cases hf

theorem writable_moves {slot : Nat} {net : PeerSend.Transport} {t' : Torrent}
    (h : step u t (.writable slot net) = some t') : Moves u good t t' := by
  obtain ⟨hslot, p, hpeer, hf⟩ := onPeer_some h
  have hflushed : Moves u good t
    (t.setPeer slot (some { p with out := (PeerSend.peerFlush net p.out).2 })) :=
    moves_peer hpeer (SameRequests.of_state rfl rfl)
  dsimp only at hf
  split at hf
  · cases hf
    exact hflushed
  · cases hf
    exact hflushed.trans (moves_dropPeer hslot)

theorem step_moves {t' : Torrent} {action : Action} (huses : action.Uses good)
    (h : step u t action = some t') : Moves u good t t' := by
  cases action with
  | worker =>
    obtain ⟨⟨m, events⟩, hstep, rfl⟩ := Option.map_eq_some_iff.mp h
    exact (Move.worker t m events hstep).moves
  | drainHashResults k =>
    obtain ⟨⟨t1, result⟩, hcall, rfl⟩ := Option.map_eq_some_iff.mp h
    exact (Move.call t t1 .drainHashResults k result huses rfl hcall).moves
  | hashFlush k =>
    obtain ⟨⟨t1, result⟩, hcall, rfl⟩ := Option.map_eq_some_iff.mp h
    exact (Move.call t t1 .hashFlush k result huses rfl hcall).moves
  | startupVerify alloc =>
    simp only [step] at h
    split at h
    · next hstarting =>
      cases h
      exact startupRound_moves hstarting alloc
    · cases h
  | checkCompletion alloc flushed =>
    cases h
    exact checkCompletion_moves alloc flushed
  | submitWebPiece piece data alloc calls now => exact submitWebPiece_moves huses h
  | connect utp now =>
    cases h
    exact connectPeer_moves utp now
  | connected slot encrypted out => exact connected_moves h
  | encryption slot rbuf out done => exact encryption_moves h
  | handshake slot now out => exact handshake_moves h
  | receive slot bytes =>
    obtain ⟨_, p, hpeer, hf⟩ := onPeer_some h
    cases hf
    exact moves_peer hpeer (SameRequests.of_state rfl rfl)
  | message slot now k nets =>
    simp only [step] at h
    split at h
    · next hslot => exact receiveMessage_moves hslot huses h
    · cases h
  | writable slot net => exact writable_moves h
  | lost slot =>
    simp only [step] at h
    split at h
    · next hslot =>
      cases h
      exact moves_dropPeer hslot
    · cases h
  | markDead slot =>
    obtain ⟨_, p, hpeer, hf⟩ := onPeer_some h
    split at hf
    · cases hf
      refine moves_peer hpeer ⟨rfl, ?_⟩
      rintro ⟨_, hdead⟩
      exact absurd rfl hdead
    · cases hf
  | releaseChoked slot now =>
    simp only [step] at h
    split at h
    · next hslot => exact moves_releaseChoked hslot h
    · cases h
  | sweep slot now =>
    simp only [step] at h
    split at h
    · next hslot =>
      cases h
      exact moves_sweepPeer now hslot
    · cases h
  | sampleRates elapsedMs now =>
    cases h
    exact samplePeerRates_moves elapsedMs now
  | hedge now answers =>
    simp only [step] at h
    split at h
    · cases h
    · next hstarted =>
      cases h
      exact scheduleHedgedRequests_moves (by simpa using hstarted) now answers
  | schedule slot now rounds =>
    simp only [step] at h
    split at h
    · next hready =>
      cases h
      exact scheduleRequests_moves hready.2 hready.1 now rounds
    · cases h
  | setStrictLookahead lookahead =>
    simp only [step] at h
    cases h
    split
    · exact (Move.edit t (.setStrictPolicy lookahead t.mgr.strictFillPendingFirst) (envOf true)
        rfl rfl).moves
    · exact .refl
  | setRateFreeze freeze =>
    cases h
    exact moves_flags rfl rfl id rfl

/-- An invariant of every move is an invariant of every run. -/
theorem run_moves {P : Torrent → Prop} (preserved : ∀ t t', P t → Move u good t t' → P t')
    {actions : List Action} (huses : ∀ action ∈ actions, action.Uses good) {t t' : Torrent}
    (h : run u t actions = some t') (init : P t) : P t' := by
  induction actions generalizing t with
  | nil =>
    cases h
    exact init
  | cons action rest ih =>
    simp only [run] at h
    split at h
    · cases h
    · next t1 hstep =>
      have hmoves : Moves u good t t1 := step_moves (huses action (by simp)) hstep
      exact ih (fun a ha => huses a (by simp [ha])) h (hmoves.induction preserved init)

end Handlers

end TorrentEngine
