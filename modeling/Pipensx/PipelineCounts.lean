import Mathlib.Algebra.BigOperators.Group.Finset.Basic
import Pipensx.EngineMoves
import Pipensx.RequestCounts

/-!
# Requests in flight

For each block the piece manager counts the requests outstanding; the requests themselves
are in the pipelines of the peers. A count is never larger than the number of peers that
have the block in their pipeline.
-/

namespace TorrentEngine

open PieceManager PeerRequests PieceGeometry TorrentFile

/-- A block of a piece of the torrent. -/
structure Known (c : Config) (i b : Nat) : Prop where
  piece : i < c.mi.numPieces
  block : b < pieceNumBlocks c.mi i

section Bounds

variable {c : Config} {i b : Nat}

/-- A block starts inside its piece. -/
theorem Known.inside (wf : TorrentLayout.WellFormed c.mi) (h : Known c i b) :
    ((b * blockSize : Nat) : Int) < pieceLen c.mi i := by
  have hblock := h.block
  have hlow := (pieceLen_bounds wf.exact h.piece).1
  simp only [pieceNumBlocks, blockSize] at hblock ⊢
  rw [Int.tdiv_eq_ediv_of_nonneg (by omega)] at hblock
  omega

theorem Known.bounds (wf : TorrentLayout.WellFormed c.mi) (h : Known c i b) :
    i < 2 ^ 31 ∧ b * blockSize < 2 ^ 31 := by
  have hinside := h.inside wf
  have hup := (pieceLen_bounds wf.exact h.piece).2
  have hlen := wf.pieceLength_le
  have hindex := wf.hashIndex
  have hpiece := h.piece
  simp only [maxPieceLength] at hlen
  omega

/-- A block has at most 16 KiB, and its length is what is left of the piece. -/
theorem Known.length (wf : TorrentLayout.WellFormed c.mi) (h : Known c i b) :
    (expectedLen c i (b * blockSize) : Int) =
      min (blockSize : Int) (pieceLen c.mi i - (b * blockSize : Nat)) := by
  have hinside := h.inside wf
  unfold expectedLen
  split
  · rw [min_eq_left (by omega)]
  · next hshort =>
    simp only [blockSize] at hshort hinside ⊢
    rw [Int.emod_eq_of_lt (by omega) (by omega)]
    omega

theorem Known.length_lt (wf : TorrentLayout.WellFormed c.mi) (h : Known c i b) :
    expectedLen c i (b * blockSize) < 2 ^ 31 := by
  have hle : (expectedLen c i (b * blockSize) : Int) ≤ blockSize := by
    rw [h.length wf]
    exact min_le_left _ _
  have hsize : (blockSize : Int) = 16384 := rfl
  omega

theorem mul_blockSize_div (b : Nat) : b * blockSize / blockSize = b :=
  Nat.mul_div_cancel b (by decide)

end Bounds

/-- A request for a block of the torrent, with its length. -/
def ValidRequest (c : Config) (r : BlockReq) : Prop :=
  ∃ i b, Known c i b ∧ r.index = i ∧ r.offset = (b * blockSize : Nat) ∧
    r.length = expectedLen c i (b * blockSize)

/-- The peer in the slot has asked for the block. -/
def asks (o : Option Peer) (i b : Nat) : Bool := o.any (fun p => peerHasRequest p i (b * blockSize))

/-- The number of peers that have asked for the block. -/
def holders (peers : Nat → Option Peer) (i b : Nat) : Nat :=
  ((Finset.range maxActivePeers).filter (fun slot => asks (peers slot) i b = true)).card

/-- No count is larger than the number of requests in flight. -/
def Counted (c : Config) (s : Mgr) (peers : Nat → Option Peer) : Prop :=
  ∀ i b, Known c i b → (s.slots i).requestCounts b ≤ holders peers i b

section Holders

variable {peers peers' : Nat → Option Peer} {i b slot : Nat}

theorem holders_le (h : ∀ slot, asks (peers slot) i b = true → asks (peers' slot) i b = true) :
    holders peers i b ≤ holders peers' i b := by
  refine Finset.card_le_card ?_
  intro slot hslot
  simp only [Finset.mem_filter] at hslot ⊢
  exact ⟨hslot.1, h slot hslot.2⟩

/-- One peer changes: the count of those that asked changes by this peer alone. -/
theorem holders_update (peers : Nat → Option Peer) (i b : Nat) (hslot : slot < maxActivePeers)
    (o : Option Peer) :
    holders (Function.update peers slot o) i b + (asks (peers slot) i b).toNat =
      holders peers i b + (asks o i b).toNat := by
  have hsplit : ∀ peers : Nat → Option Peer, holders peers i b = (asks (peers slot) i b).toNat +
      ∑ k ∈ (Finset.range maxActivePeers).erase slot, (asks (peers k) i b).toNat := by
    intro peers
    have hcard : holders peers i b = ∑ k ∈ Finset.range maxActivePeers,
      (asks (peers k) i b).toNat := by
      unfold holders
      rw [Finset.card_filter]
      refine Finset.sum_congr rfl (fun k _ => ?_)
      cases asks (peers k) i b <;> rfl
    rw [hcard]
    exact (Finset.add_sum_erase _ _ (Finset.mem_range.mpr hslot)).symm
  have hothers : ∑ k ∈ (Finset.range maxActivePeers).erase slot,
      (asks (Function.update peers slot o k) i b).toNat =
      ∑ k ∈ (Finset.range maxActivePeers).erase slot, (asks (peers k) i b).toNat := by
    refine Finset.sum_congr rfl (fun k hk => ?_)
    rw [Function.update_of_ne (Finset.ne_of_mem_erase hk)]
  rw [hsplit (Function.update peers slot o), hsplit peers, hothers, Function.update_self]
  omega

end Holders

section Changes

variable {c : Config} {s s' : Mgr} {peers peers' : Nat → Option Peer}

/-- Requests may be forgotten once their block has no count. -/
theorem Counted.lower (h : Counted c s peers) (lower : Lower s s')
    (kept : ∀ i b, Known c i b → (s'.slots i).requestCounts b = 0 ∨
      ∀ slot, asks (peers slot) i b = true → asks (peers' slot) i b = true) :
    Counted c s' peers' := by
  intro i b known
  rcases kept i b known with hzero | hkept
  · omega
  · calc (s'.slots i).requestCounts b ≤ (s.slots i).requestCounts b := (lower i).2 b
      _ ≤ holders peers i b := h i b known
      _ ≤ holders peers' i b := holders_le hkept

/-- Giving back requests: what `clear_request` does for one entry. -/
theorem clearRequest_counts (wf : TorrentLayout.WellFormed c.mi) (s : Mgr) (r : BlockReq)
    (shape : ∀ i, (s.slots i).numBlocks = pieceNumBlocks c.mi i) {i b : Nat} (known : Known c i b)
    (hfor : r.isFor i (b * blockSize) = true) :
    ((clearRequest c s r).slots i).requestCounts b = (s.slots i).requestCounts b - 1 := by
  obtain ⟨hi, hb⟩ := known.bounds wf
  obtain ⟨hindex, hoffset⟩ := (isFor_iff hi hb).mp hfor
  have hknown : s.blockKnown c i b := ⟨known.piece, by rw [shape]; exact known.block⟩
  have hnonneg : ¬ (r.index < 0 ∨ r.offset < 0) := by omega
  have hi' : r.index.toNat = i := by omega
  have hb' : r.offset.toNat / blockSize = b := by
    rw [hoffset, Int.toNat_natCast, mul_blockSize_div]
  simp only [clearRequest, hnonneg, if_false, clearBlockRequested, setCount, hi', hb',
    hknown, if_true, Mgr.setSlot, Function.update_self]
  split <;> omega

theorem clearRequest_lower (c : Config) (s : Mgr) (r : BlockReq) :
    Lower s (clearRequest c s r) := by
  unfold clearRequest
  split
  · exact Lower.refl s
  · have hcall : (Call.clearBlockRequested r.index.toNat
        (r.offset.toNat / blockSize)).licence.request =
        false := rfl
    exact start_lower c s (envOf true) hcall

theorem clearRequests_lower (c : Config) (gone : List BlockReq) (s : Mgr) :
    Lower s (gone.foldl (clearRequest c) s) := by
  refine clearRequests_induction (fun s' piece block hlower => hlower.trans ?_) gone (Lower.refl s)
  have hcall : (Call.clearBlockRequested piece block).licence.request = false := rfl
  exact start_lower c s' (envOf true) hcall

theorem clearRequests_counts (wf : TorrentLayout.WellFormed c.mi) (gone : List BlockReq) (s : Mgr)
    (shape : ∀ i, (s.slots i).numBlocks = pieceNumBlocks c.mi i) {i b : Nat} (known : Known c i b)
    (hgone : ∃ r ∈ gone, r.isFor i (b * blockSize) = true) :
    ((gone.foldl (clearRequest c) s).slots i).requestCounts b ≤
      (s.slots i).requestCounts b - 1 := by
  induction gone generalizing s with
  | nil =>
    obtain ⟨r, hr, _⟩ := hgone
    cases hr
  | cons r rest ih =>
    have hshape := shape_lower shape (clearRequest_lower c s r)
    obtain ⟨r', hr', hfor⟩ := hgone
    rcases List.mem_cons.mp hr' with rfl | hrest
    · calc ((rest.foldl (clearRequest c) (clearRequest c s r')).slots i).requestCounts b
          ≤ ((clearRequest c s r').slots i).requestCounts b := (clearRequests_lower c rest _ i).2 b
        _ = (s.slots i).requestCounts b - 1 := clearRequest_counts wf s r' shape known hfor
    · have hfirst := (clearRequest_lower c s r i).2 b
      have hlater := ih _ hshape ⟨r', hrest, hfor⟩
      simp only [List.foldl_cons]
      omega

/-- A peer gives back some of its requests. -/
theorem Counted.release (wf : TorrentLayout.WellFormed c.mi) (h : Counted c s peers)
    (shape : ∀ i, (s.slots i).numBlocks = pieceNumBlocks c.mi i) {slot : Nat}
    (hslot : slot < maxActivePeers) {p p' : Peer} (hpeer : peers slot = some p)
    (keep : BlockReq → Bool) (hkeep : p'.pipeline = p.pipeline.filter keep) :
    Counted c ((p.pipeline.filter (fun r => !keep r)).foldl (clearRequest c) s)
      (Function.update peers slot (some p')) := by
  intro i b known
  have hupdate := holders_update peers i b hslot (some p')
  have hlower := (clearRequests_lower c (p.pipeline.filter (fun r => !keep r)) s i).2 b
  have hold := h i b known
  rw [hpeer] at hupdate
  by_cases hstill : asks (some p') i b = true
  · rw [hstill] at hupdate
    cases hasked : asks (some p) i b <;> rw [hasked] at hupdate <;>
      simp only [Bool.toNat_true, Bool.toNat_false] at hupdate <;> omega
  · rw [Bool.not_eq_true] at hstill
    rw [hstill] at hupdate
    by_cases hasked : asks (some p) i b = true
    · -- the entry for the block is among those given back
      have hgone : ∃ r ∈ p.pipeline.filter (fun r => !keep r),
        r.isFor i (b * blockSize) = true := by
        obtain ⟨r, hr, hfor⟩ := List.any_eq_true.mp hasked
        refine ⟨r, List.mem_filter.mpr ⟨hr, ?_⟩, hfor⟩
        by_contra hkept
        have hmem : r ∈ p'.pipeline := by
          rw [hkeep]
          exact List.mem_filter.mpr ⟨hr, by simpa using hkept⟩
        have hasks : asks (some p') i b = true := List.any_eq_true.mpr ⟨r, hmem, hfor⟩
        rw [hstill] at hasks
        cases hasks
      have hcounts := clearRequests_counts wf _ s shape known hgone
      rw [hasked] at hupdate
      simp only [Bool.toNat_true, Bool.toNat_false] at hupdate
      omega
    · rw [Bool.not_eq_true] at hasked
      rw [hasked] at hupdate
      simp only [Bool.toNat_false] at hupdate
      omega

/-- A peer is asked for one more block, and the count of that block goes up by one. -/
theorem Counted.ask (h : Counted c s peers) {slot : Nat}
    (hslot : slot < maxActivePeers) {p p' : Peer}
    (hpeer : peers slot = some p) (r : BlockReq) (hp' : p'.pipeline = p.pipeline ++ [r]) {i b : Nat}
    (hnew : asks (some p) i b = false) (hfor : r.isFor i (b * blockSize) = true) :
    Counted c (markBlockRequested c s i b) (Function.update peers slot (some p')) := by
  intro i' b' known
  have hold := h i' b' known
  have hkept : asks (some p) i' b' = true → asks (some p') i' b' = true := by
    intro hasked
    obtain ⟨r', hr', hfor'⟩ := List.any_eq_true.mp hasked
    exact List.any_eq_true.mpr ⟨r', by rw [hp']; simp [hr'], hfor'⟩
  have hcount : ((markBlockRequested c s i b).slots i').requestCounts b' ≤
      (s.slots i').requestCounts b' + (decide (i' = i ∧ b' = b)).toNat := by
    rcases setCount_slots c s i b (fun n => if n ≠ 255 then n + 1 else n) with hsame | ⟨_, hslots⟩
    · rw [markBlockRequested, hsame]
      omega
    · rw [markBlockRequested, hslots]
      by_cases hi : i' = i
      · subst hi
        rw [Function.update_self]
        by_cases hb : b' = b
        · subst hb
          simp only [Function.update_self, and_self, decide_true, Bool.toNat_true]
          split <;> omega
        · simp [hb]
      · simp [hi]
  have hupdate := holders_update peers i' b' hslot (some p')
  rw [hpeer] at hupdate
  by_cases hthis : i' = i ∧ b' = b
  · obtain ⟨rfl, rfl⟩ := hthis
    have hasks : asks (some p') i' b' = true := List.any_eq_true.mpr ⟨r, by rw [hp']; simp, hfor⟩
    rw [hnew, hasks] at hupdate
    simp only [and_self, decide_true, Bool.toNat_true, Bool.toNat_false] at hcount hupdate
    omega
  · have hle : (asks (some p) i' b').toNat ≤ (asks (some p') i' b').toNat := by
      cases hasked : asks (some p) i' b' with
      | false => simp
      | true => simp [hkept hasked]
    simp only [hthis, decide_false, Bool.toNat_false] at hcount
    omega

end Changes

/-- What is known of a peer in a slot. -/
structure PeerSound (c : Config) (p : Peer) : Prop where
  fresh : Fresh p → p.pipeline = []
  valid : ∀ r ∈ p.pipeline, ValidRequest c r

/-- What holds of the engine after every step. -/
structure EngineSound (u : Setup) (t : Torrent) : Prop where
  settled : Settled u.pieces t.machine
  starting : t.startupVerifying = true → NoCounts t.mgr
  peers : ∀ slot p, t.peers slot = some p → PeerSound u.pieces p
  counted : t.fatalError = false → Counted u.pieces t.mgr t.peers

theorem PeerSound.same {c : Config} {p p' : Peer} (h : PeerSound c p) (same : SameRequests p p') :
    PeerSound c p' := by
  obtain ⟨hpipeline, hfresh⟩ := same
  constructor
  · intro hfresh'
    rw [hpipeline]
    exact h.fresh (hfresh hfresh')
  · intro r hr
    rw [hpipeline] at hr
    exact h.valid r hr

theorem peerSound_nil (c : Config) {p : Peer} (empty : p.pipeline = []) : PeerSound c p := by
  constructor
  · intro _
    exact empty
  · intro r hr
    rw [empty] at hr
    cases hr

/-- A peer that has some of the requests it had, and is past its handshake or was fresh. -/
theorem PeerSound.fewer {c : Config} {p p' : Peer} (h : PeerSound c p)
    (sub : ∀ r ∈ p'.pipeline, r ∈ p.pipeline) (fresh : Fresh p' → Fresh p) : PeerSound c p' := by
  constructor
  · intro hfresh
    rw [List.eq_nil_iff_forall_not_mem]
    intro r hr
    have hr' := sub r hr
    rw [h.fresh (fresh hfresh)] at hr'
    cases hr'
  · exact fun r hr => h.valid r (sub r hr)

theorem PeerSound.more {c : Config} {p p' : Peer} (h : PeerSound c p) {r : BlockReq}
    (valid : ValidRequest c r) (hp' : p'.pipeline = p.pipeline ++ [r])
    (active : p'.state = .active) : PeerSound c p' := by
  constructor
  · intro hfresh
    exact absurd active hfresh.1
  · intro r' hr'
    rw [hp'] at hr'
    rcases List.mem_append.mp hr' with hold | hnew
    · exact h.valid r' hold
    · rw [List.mem_singleton.mp hnew]
      exact valid

section Calls

variable {c : Config} {t t' : Torrent}

@[simp] theorem hashResults_machine (t : Torrent) (events : List Event) :
    (t.hashResults events).machine = t.machine := by
  unfold Torrent.hashResults
  split <;> rfl

@[simp] theorem hashResults_peers (t : Torrent) (events : List Event) :
    (t.hashResults events).peers = t.peers := by
  unfold Torrent.hashResults
  split <;> rfl

@[simp] theorem hashResults_startupVerifying (t : Torrent) (events : List Event) :
    (t.hashResults events).startupVerifying = t.startupVerifying := by
  unfold Torrent.hashResults
  split <;> rfl

theorem hashResults_fatalError (t : Torrent) (events : List Event)
    (h : (t.hashResults events).fatalError = false) : t.fatalError = false := by
  unfold Torrent.hashResults at h
  split at h
  · cases h
  · exact h

/-- A call is a run of both threads that comes back to the torrent thread. -/
theorem callPieces_run {call : Call} {k : Calling} {result : Int}
    (h : callPieces c t call k = some (t', result)) :
    (∀ act ∈ k.acts, inner act = true) ∧ ∃ m events,
      PieceManager.run c t.machine (.call call k.env :: k.acts) = some (m, events) ∧ m.pc = .idle ∧
        t' = Torrent.hashResults { t with machine := m } events ∧ result = returnValue events := by
  simp only [callPieces] at h
  split at h
  · cases h
  · next hinner =>
    split at h
    · cases h
    · next m events hrun =>
      split at h
      · next hidle =>
        cases h
        exact ⟨by simpa using hinner, m, events, hrun, hidle, rfl, rfl⟩
      · cases h

theorem plain_of_inner {act : Act} (h : inner act = true) : act.Plain := by
  cases act with
  | call call env => cases h
  | _ => rfl

/-- What a whole call leaves behind. -/
structure Returned (c : Config) (t t' : Torrent) : Prop where
  settled : Settled c t'.machine
  lower : Lower t.mgr t'.mgr
  peers : t'.peers = t.peers
  starting : t'.startupVerifying = t.startupVerifying
  fatal : t'.fatalError = false → t.fatalError = false

theorem callPieces_returned (wf : TorrentLayout.WellFormed c.mi) (settled : Settled c t.machine)
    {call : Call} {k : Calling} {result : Int} (plain : call.licence = plainLicence)
    (h : callPieces c t call k = some (t', result)) : Returned c t t' := by
  obtain ⟨hinner, m, events, hrun, hidle, rfl, _⟩ := callPieces_run h
  have hplain : ∀ act ∈ .call call k.env :: k.acts, act.Plain := by
    intro act hact
    rcases List.mem_cons.mp hact with rfl | hrest
    · exact plain
    · exact plain_of_inner (hinner act hrest)
  have hsettled := settled.run wf hplain hrun hidle
  have hlower := run_lower hplain hrun
  refine ⟨?_, ?_, ?_, ?_, ?_⟩
  · rw [hashResults_machine]
    exact hsettled
  · simp only [Torrent.mgr, hashResults_machine]
    exact hlower
  · rw [hashResults_peers]
  · rw [hashResults_startupVerifying]
  · exact hashResults_fatalError _ events

/-- A block that was taken has no count when the call is over. -/
theorem callPieces_count (settled : Settled c t.machine) {idx off : Nat} {data : List UInt8}
    {k : Calling} {result : Int} (known : Known c idx (off / blockSize))
    (h : callPieces c t (.gotBlock idx off (some data)) k = some (t', result))
    (taken : 0 ≤ result) : (t'.mgr.slots idx).requestCounts (off / blockSize) = 0 := by
  obtain ⟨hinner, m, events, hrun, _, rfl, rfl⟩ := callPieces_run h
  obtain ⟨m1, first, later, hstep, hrest, rfl⟩ := run_cons hrun
  rw [step_idle_call settled.idle] at hstep
  have hblk : off / blockSize < (t.mgr.slots idx).numBlocks := by
    rw [Torrent.mgr, settled.shape]
    exact known.block
  have hzero : (m1.mgr.slots idx).requestCounts (off / blockSize) = 0 := by
    cases hstep
    have hcount := gotBlock_count k.env settled.clear (some data) known.piece hblk
    simp only [start] at taken ⊢
    split at taken
    · next s' r hgot =>
      rw [hgot] at hcount
      refine hcount ?_
      rintro _ ⟨⟩
      simpa [returnValue] using taken
    · next s' hgot =>
      rw [hgot] at hcount
      exact hcount (by simp)
  have hle := (run_lower (fun act hact => plain_of_inner (hinner act hact)) hrest idx).2
    (off / blockSize)
  simp only [Torrent.mgr, hashResults_machine]
  omega

end Calls

section Engine

variable {u : Setup} {t t' : Torrent}

theorem peers_setPeer {c : Config} {t : Torrent}
    (h : ∀ slot p, t.peers slot = some p → PeerSound c p)
    {slot : Nat} {o : Option Peer} (sound : ∀ p, o = some p → PeerSound c p) :
    ∀ k p, (t.setPeer slot o).peers k = some p → PeerSound c p := by
  intro k p hk
  by_cases hkk : k = slot
  · subst hkk
    rw [setPeer_peers_self] at hk
    exact sound p hk
  · simp only [Torrent.setPeer, Function.update_of_ne hkk] at hk
    exact h k p hk

theorem peers_setPeer_some {c : Config} {t : Torrent}
    (h : ∀ slot p, t.peers slot = some p → PeerSound c p)
    {slot : Nat} {p : Peer} (sound : PeerSound c p) :
    ∀ k p', (t.setPeer slot (some p)).peers k = some p' → PeerSound c p' := by
  refine peers_setPeer h ?_
  rintro _ ⟨⟩
  exact sound

/-- Counts only fall, and no request is forgotten whose block still has a count. -/
theorem EngineSound.lower (h : EngineSound u t) (settled : Settled u.pieces t'.machine)
    (lower : Lower t.mgr t'.mgr) (starting : t'.startupVerifying = true → t.startupVerifying = true)
    (peers : ∀ slot p, t'.peers slot = some p → PeerSound u.pieces p)
    (fatal : t'.fatalError = false → t.fatalError = false ∧ ∀ i b, Known u.pieces i b →
      (t'.mgr.slots i).requestCounts b = 0 ∨
        ∀ slot, asks (t.peers slot) i b = true → asks (t'.peers slot) i b = true) :
        EngineSound u t' := by
  refine ⟨settled, ?_, peers, ?_⟩
  · intro hstarting
    exact (h.starting (starting hstarting)).lower lower
  · intro hfatal
    obtain ⟨hbefore, hkept⟩ := fatal hfatal
    exact (h.counted hbefore).lower lower hkept

/-- The special case of a step that leaves the peers alone. -/
theorem EngineSound.manager (h : EngineSound u t) (settled : Settled u.pieces t'.machine)
    (lower : Lower t.mgr t'.mgr) (starting : t'.startupVerifying = true → t.startupVerifying = true)
    (peers : t'.peers = t.peers) (fatal : t'.fatalError = false → t.fatalError = false) :
    EngineSound u t' := by
  refine h.lower settled lower starting ?_ ?_
  · intro slot p hp
    rw [peers] at hp
    exact h.peers slot p hp
  · intro hfatal
    refine ⟨fatal hfatal, fun i b _ => Or.inr ?_⟩
    intro slot hasks
    rw [peers]
    exact hasks

theorem sound_flags (h : EngineSound u t) (hmachine : t'.machine = t.machine)
    (hpeers : t'.peers = t.peers)
    (hstarting : t'.startupVerifying = true → t.startupVerifying = true)
    (hfatal : t'.fatalError = t.fatalError) : EngineSound u t' := by
  have hmgr : t'.mgr = t.mgr := congrArg Machine.mgr hmachine
  refine h.manager ?_ ?_ hstarting hpeers ?_
  · rw [hmachine]
    exact h.settled
  · rw [hmgr]
    exact Lower.refl _
  · rw [hfatal]
    exact id

theorem sound_check (wf : TorrentLayout.WellFormed u.pieces.mi) (h : EngineSound u t) (idx : Nat)
    (alloc : Bool) (hstarting : t.startupVerifying = true) :
    EngineSound u (t.setMgr (checkExisting u.pieces alloc t.mgr idx).1) := by
  have hlower : Lower t.mgr (start u.pieces t.mgr (envOf alloc) (.checkExisting idx)).1 :=
    start_lower u.pieces t.mgr (envOf alloc) rfl
  have hclear : CountsClear u.pieces (start u.pieces t.mgr (envOf alloc) (.checkExisting idx)).1 :=
    ((h.starting hstarting).lower hlower).clear
  exact h.manager (h.settled.returns wf rfl (fun i => (hlower i).1) hclear) hlower id rfl id

theorem sound_returned (h : EngineSound u t) (returned : Returned u.pieces t t') :
    EngineSound u t' := by
  refine h.manager returned.settled returned.lower ?_ returned.peers returned.fatal
  rw [returned.starting]
  exact id

/-- A failure sets the flag, and counts are no longer watched. -/
theorem sound_fail (h : EngineSound u t) (f : Failure) : EngineSound u (t.fail f) :=
  ⟨h.settled, h.starting, h.peers, fun hfatal => by cases hfatal⟩

theorem asks_same {o o' : Option Peer} (h : Option.Rel SameRequests o o') (i b : Nat) :
    asks o' i b = asks o i b := by
  cases h with
  | none => rfl
  | some hsame =>
    simp only [asks, Option.any_some, peerHasRequest, hsame.1]

theorem sound_peers (h : EngineSound u t) {peers : Nat → Option Peer}
    (same : ∀ slot, Option.Rel SameRequests (t.peers slot) (peers slot)) :
    EngineSound u { t with peers := peers } := by
  refine h.lower h.settled (Lower.refl _) id ?_ ?_
  · intro slot p' (hp' : peers slot = some p')
    obtain ⟨p, hp, hsame⟩ := rel_some (hp' ▸ same slot)
    exact (h.peers slot p hp).same hsame
  · intro hfatal
    refine ⟨hfatal, fun i b _ => Or.inr ?_⟩
    intro slot hasks
    rw [asks_same (same slot)]
    exact hasks

/-- A slot that asks for nothing is filled or emptied. -/
theorem sound_setPeer (h : EngineSound u t) {slot : Nat} {o : Option Peer}
    (quiet : ∀ i b, asks (t.peers slot) i b = false)
    (sound : ∀ p, o = some p → PeerSound u.pieces p) :
    EngineSound u (t.setPeer slot o) := by
  refine h.lower h.settled (Lower.refl _) id (peers_setPeer h.peers sound) ?_
  intro hfatal
  refine ⟨hfatal, fun i b _ => Or.inr ?_⟩
  intro k hasks
  by_cases hk : k = slot
  · subst hk
    rw [quiet i b] at hasks
    cases hasks
  · simpa only [Torrent.setPeer, Function.update_of_ne hk] using hasks

theorem sound_leave (h : EngineSound u t) {slot : Nat} {p : Peer} (hpeer : t.peers slot = some p)
    (quiet : Fresh p ∨ p.pipeline = []) : EngineSound u (t.setPeer slot none) := by
  have hempty : p.pipeline = [] := by
    rcases quiet with hfresh | hempty
    · exact (h.peers slot p hpeer).fresh hfresh
    · exact hempty
  refine sound_setPeer h ?_ (by simp)
  intro i b
  simp [asks, hpeer, peerHasRequest, hempty]

theorem settled_clearRequests (wf : TorrentLayout.WellFormed u.pieces.mi) (gone : List BlockReq)
    {m : Machine} (h : Settled u.pieces m) :
    Settled u.pieces { m with mgr := gone.foldl (clearRequest u.pieces) m.mgr } := by
  refine clearRequests_induction (P := fun s => Settled u.pieces { m with mgr := s })
    (fun s piece block hs => ?_) gone h
  have hcall : Settled u.pieces
      { m with mgr := (start u.pieces s (envOf true) (.clearBlockRequested piece block)).1 } :=
    hs.call wf rfl rfl
  exact hcall

theorem sound_release (wf : TorrentLayout.WellFormed u.pieces.mi) (h : EngineSound u t) {slot : Nat}
    (hslot : slot < maxActivePeers) {p p' : Peer} (hpeer : t.peers slot = some p)
    (keep : BlockReq → Bool)
    (hkeep : p'.pipeline = p.pipeline.filter keep) (hfresh : Fresh p' → Fresh p) :
    EngineSound u (t.put ((p.pipeline.filter (fun r => !keep r)).foldl
      (clearRequest u.pieces) t.mgr)
      slot p') := by
  have hlower := clearRequests_lower u.pieces (p.pipeline.filter (fun r => !keep r)) t.mgr
  have hsound : PeerSound u.pieces p' := by
    refine (h.peers slot p hpeer).fewer ?_ hfresh
    intro r hr
    rw [hkeep] at hr
    exact List.mem_of_mem_filter hr
  refine ⟨settled_clearRequests wf _ h.settled, ?_, ?_, ?_⟩
  · intro hstarting
    exact (h.starting hstarting).lower hlower
  · exact peers_setPeer_some (t := t.setMgr _) h.peers hsound
  · intro hfatal
    exact (h.counted hfatal).release wf h.settled.shape hslot hpeer keep hkeep

/-- A block that is missing is asked for, and its entry says so. -/
theorem sound_asked (wf : TorrentLayout.WellFormed u.pieces.mi) (h : EngineSound u t) {slot : Nat}
    (hslot : slot < maxActivePeers) (hstarted : t.startupVerifying = false) {p p' : Peer}
    (hpeer : t.peers slot = some p) (hactive : p'.state = .active) {i b now : Nat}
    (known : Known u.pieces i b) (hopen : (t.mgr.slots i).Open)
    (hmissing : hasBlock u.pieces t.mgr i b = false)
    (hnew : peerHasRequest p i (b * blockSize) = false)
    (hp' : p'.pipeline = p.pipeline ++ [⟨toInt i, toInt (b * blockSize),
      toInt (expectedLen u.pieces i (b * blockSize)), now⟩]) :
    EngineSound u (t.put (markBlockRequested u.pieces t.mgr i b) slot p') := by
  obtain ⟨hi, hb⟩ := known.bounds wf
  have hvalid : ValidRequest u.pieces ⟨toInt i, toInt (b * blockSize),
      toInt (expectedLen u.pieces i (b * blockSize)), now⟩ := by
    refine ⟨i, b, known, ?_, ?_, ?_⟩
    · simp only [toInt_eq hi]
    · simp only [toInt_eq hb]
    · simp only [toInt_eq (known.length_lt wf)]
  have hclear : CountsClear u.pieces
      (start u.pieces t.mgr (envOf true) (.markBlockRequested i b)).1 :=
    h.settled.clear.mark hopen hmissing
  have hsettled : Settled u.pieces { t.machine with
      mgr := (start u.pieces t.mgr (envOf true) (.markBlockRequested i b)).1 } :=
    h.settled.returns wf rfl (fun k => slots_setCount_numBlocks _ _ _ _ k _) hclear
  refine ⟨hsettled, ?_, ?_, ?_⟩
  · intro hstarting
    exact absurd (hstarted.symm.trans hstarting) (by decide)
  · exact peers_setPeer_some (t := t.setMgr _) h.peers
      ((h.peers slot p hpeer).more hvalid hp' hactive)
  · intro hfatal
    refine (h.counted hfatal).ask hslot hpeer _ hp' hnew ?_
    simp [BlockReq.isFor]

theorem sound_ask (wf : TorrentLayout.WellFormed u.pieces.mi) (h : EngineSound u t) {slot : Nat}
    (hslot : slot < maxActivePeers) (hstarted : t.startupVerifying = false) {p p' : Peer}
    (hpeer : t.peers slot = some p) (hactive : p'.state = .active) {idx b now : Nat}
    (hopen : Requestable u.pieces t.mgr idx) (hblock : b < (t.mgr.slots idx).numBlocks)
    (hmissing : hasBlock u.pieces t.mgr idx b = false)
    (hnew : peerHasRequest p idx (b * blockSize % 2 ^ 32) = false)
    (hp' : p'.pipeline = p.pipeline ++ [⟨toInt idx, toInt (b * blockSize % 2 ^ 32),
      toInt (requestLen u.pieces idx (b * blockSize % 2 ^ 32)), now⟩]) :
    EngineSound u (t.put (markBlockRequested u.pieces t.mgr idx b) slot p') := by
  have known : Known u.pieces idx b := by
    refine ⟨hopen.1, ?_⟩
    rw [← h.settled.shape idx]
    exact hblock
  have hoff : b * blockSize % 2 ^ 32 = b * blockSize := Nat.mod_eq_of_lt (by
    have hb := (known.bounds wf).2
    omega)
  rw [hoff] at hnew hp'
  exact sound_asked wf h hslot hstarted hpeer hactive known hopen.2 hmissing hnew hp'

/-- A hedged request is for the same block, with the same length. -/
theorem sound_hedge (wf : TorrentLayout.WellFormed u.pieces.mi) (h : EngineSound u t)
    {slot primary : Nat}
    (hslot : slot < maxActivePeers) (hstarted : t.startupVerifying = false) {p p' q : Peer}
    (hpeer : t.peers slot = some p) (hactive : p'.state = .active)
    (hprimary : t.peers primary = some q)
    {r : BlockReq} (hr : r ∈ q.pipeline) {head now : Nat} (hindex : r.index = toInt head)
    (hhead : head < u.pieces.mi.numPieces)
    (hmissing : hasBlock u.pieces t.mgr head (r.offset.toNat / blockSize) = false)
    (hcount : blockRequestCount u.pieces t.mgr head (r.offset.toNat / blockSize) = 1)
    (hnew : peerHasRequest p head r.offset.toNat = false)
    (hp' : p'.pipeline = p.pipeline ++ [⟨toInt head, toInt r.offset.toNat,
      toInt (r.length % 2 ^ 32).toNat, now⟩]) :
    EngineSound u (t.put (markBlockRequested u.pieces t.mgr head (r.offset.toNat / blockSize))
      slot p') := by
  obtain ⟨i, b, known, hi, hoffset, hlength⟩ := (h.peers primary q hprimary).valid r hr
  have hbound := wf.hashIndex
  have hcast : toInt head = head := toInt_eq (by omega)
  have hsame : i = head := by omega
  subst hsame
  have hoff : r.offset.toNat = b * blockSize := by omega
  have hblock : r.offset.toNat / blockSize = b := by rw [hoff, mul_blockSize_div]
  have hlen : (r.length % 2 ^ 32).toNat = expectedLen u.pieces i (b * blockSize) := by
    have hlt := known.length_lt wf
    rw [hlength]
    omega
  rw [hblock] at hmissing hcount ⊢
  rw [hoff] at hnew hp'
  rw [hlen] at hp'
  have hopen : (t.mgr.slots i).Open := by
    by_contra hclosed
    have hnumBlocks : b < (t.mgr.slots i).numBlocks := by
      rw [Torrent.mgr, h.settled.shape]
      exact known.block
    have hzero := h.settled.clear i known.piece b hnumBlocks (Or.inr hclosed)
    rw [blockRequestCount, if_pos ⟨known.piece, hnumBlocks⟩, Torrent.mgr, hzero] at hcount
    cases hcount
  exact sound_asked wf h hslot hstarted hpeer hactive known hopen hmissing hnew hp'

/-- Some requests for one block are gone, and no others. -/
structure Dropped (piece offset : Nat) (p p' : Peer) : Prop where
  sub : ∀ r ∈ p'.pipeline, r ∈ p.pipeline
  kept : ∀ r ∈ p.pipeline, r.isFor piece offset = false → r ∈ p'.pipeline
  fresh : Fresh p' → Fresh p

theorem dropped_refl (piece offset : Nat) (p : Peer) : Dropped piece offset p p :=
  ⟨fun _ hr => hr, fun _ hr _ => hr, id⟩

theorem Dropped.trans {piece offset : Nat} {p q r : Peer} (h : Dropped piece offset p q)
    (h' : Dropped piece offset q r) : Dropped piece offset p r :=
  ⟨fun x hx => h.sub x (h'.sub x hx), fun x hx hne => h'.kept x (h.kept x hx hne) hne,
    fun hfresh => h.fresh (h'.fresh hfresh)⟩

theorem dropped_eraseP {piece offset : Nat} {p p' : Peer} {test : BlockReq → Bool}
    (htest : ∀ r, test r = true → r.isFor piece offset = true)
    (hp' : p'.pipeline = p.pipeline.eraseP test) (fresh : Fresh p' → Fresh p) :
    Dropped piece offset p p' := by
  constructor
  · intro r hr
    rw [hp'] at hr
    exact List.mem_of_mem_eraseP hr
  · intro r hr hother
    rw [hp', List.mem_eraseP_of_neg]
    · exact hr
    · intro hr'
      rw [htest r hr'] at hother
      cases hother
  · exact fresh

theorem dropped_cancel (net : PeerSend.Transport) (p : Peer) (piece offset len : Nat) :
    Dropped piece offset p (peerCancelBlock net p piece offset len).1 := by
  have hfresh : Fresh (peerCancelBlock net p piece offset len).1 → Fresh p := by
    rintro ⟨hactive, hdead⟩
    rw [peerCancelBlock_state] at hactive hdead
    exact ⟨hactive, hdead⟩
  rcases peerCancelBlock_pipeline net p piece offset len with hsame | herased
  · refine ⟨?_, ?_, hfresh⟩
    · intro r hr
      rwa [hsame] at hr
    · intro r hr _
      rwa [hsame]
  · exact dropped_eraseP (fun _ h => h) herased hfresh

/-- In every slot, requests for one block are gone and no others. -/
def DroppedAll (piece offset : Nat) (peers peers' : Nat → Option Peer) : Prop :=
  ∀ slot, Option.Rel (Dropped piece offset) (peers slot) (peers' slot)

theorem droppedAll_cancel {piece offset : Nat} {peers : Nat → Option Peer}
    (h : DroppedAll piece offset peers t.peers) (nets : Nat → PeerSend.Transport) (len : Nat) :
    DroppedAll piece offset peers (cancelDuplicateRequests t nets piece offset len).peers := by
  intro slot
  have hslot := h slot
  simp only [cancelDuplicateRequests]
  generalize peers slot = before at hslot ⊢
  generalize t.peers slot = now at hslot ⊢
  cases hslot with
  | none => exact .none
  | some hdropped =>
    refine .some (hdropped.trans ?_)
    dsimp only
    split
    · exact dropped_cancel _ _ piece offset len
    · exact dropped_refl piece offset _

theorem DroppedAll.sound {c : Config} {piece offset : Nat} {peers peers' : Nat → Option Peer}
    (h : DroppedAll piece offset peers peers')
    (sound : ∀ slot p, peers slot = some p → PeerSound c p) :
    ∀ slot p, peers' slot = some p → PeerSound c p := by
  intro slot p' hp'
  obtain ⟨p, hp, hdropped⟩ := rel_some (hp' ▸ h slot)
  exact (sound slot p hp).fewer hdropped.sub hdropped.fresh

theorem DroppedAll.still_asks {piece offset : Nat} {peers peers' : Nat → Option Peer}
    (h : DroppedAll piece offset peers peers') {i b : Nat}
    (other : ∀ r : BlockReq, r.isFor i (b * blockSize) = true → r.isFor piece offset = false)
    (slot : Nat) (hasks : asks (peers slot) i b = true) : asks (peers' slot) i b = true := by
  have hslot := h slot
  cases hp : peers slot with
  | none =>
    rw [hp] at hasks
    cases hasks
  | some p =>
    rw [hp] at hslot hasks
    obtain ⟨r, hr, hfor⟩ := List.any_eq_true.mp hasks
    generalize peers' slot = o at hslot ⊢
    cases hslot with
    | some hdropped => exact List.any_eq_true.mpr ⟨r, hdropped.kept r hr (other r hfor), hfor⟩

/-- A block that was asked for exactly so is a block of the torrent with its length. -/
theorem PeerSound.asked {c : Config} (wf : TorrentLayout.WellFormed c.mi) {p : Peer}
    (h : PeerSound c p)
    {idx off len : Nat} (hidx : idx < 2 ^ 32) (hoff : off < 2 ^ 32) (hlen : len < 2 ^ 32)
    (hasked : p.pipeline.any (fun r => r.isExactly idx off len) = true) :
    ∃ b, Known c idx b ∧ off = b * blockSize ∧ len = expectedLen c idx off := by
  obtain ⟨r, hr, hexact⟩ := List.any_eq_true.mp hasked
  obtain ⟨i, b, known, hindex, hoffset, hlength⟩ := h.valid r hr
  obtain ⟨hi, hb⟩ := known.bounds wf
  have hl := known.length_lt wf
  have hdouble : 2 ^ 31 < 2 ^ 32 := by decide
  simp only [BlockReq.isExactly, BlockReq.isFor, Bool.and_eq_true, decide_eq_true_eq] at hexact
  obtain ⟨⟨hindex', hoffset'⟩, hlength'⟩ := hexact
  have heqi : idx = i := by
    refine toInt_injective hidx (Nat.lt_trans hi hdouble) ?_
    rw [← hindex', hindex, toInt_eq hi]
  have heqo : off = b * blockSize := by
    refine toInt_injective hoff (Nat.lt_trans hb hdouble) ?_
    rw [← hoffset', hoffset, toInt_eq hb]
  have heql : len = expectedLen c i (b * blockSize) := by
    refine toInt_injective hlen (Nat.lt_trans hl hdouble) ?_
    rw [← hlength', hlength, toInt_eq hl]
  subst heqi heqo
  exact ⟨b, known, rfl, heql⟩

/-- The end of `cb_block`: what is left of the requests for the block may be cancelled, and
a block that was not taken is a failure. -/
theorem cbBlock_cases {c : Config} {idx off now : Nat} {data : List UInt8} {k : Calling}
    {nets : Nat → PeerSend.Transport} (h : cbBlock c t idx off data now k nets = some t') :
    ∃ t1 result,
      callPieces c { t with downloaded := t.downloaded + data.length }
        (.gotBlock idx off (some data)) k =
        some (t1, result) ∧ t'.machine = t1.machine ∧ t'.startupVerifying = t1.startupVerifying ∧
      DroppedAll idx off t1.peers t'.peers ∧
      t'.fatalError = (t1.fatalError || decide (result < 0)) := by
  simp only [cbBlock] at h
  split at h
  · cases h
  · next t1 result hcall =>
    have hsame : DroppedAll idx off t1.peers t1.peers := by
      intro slot
      cases t1.peers slot with
      | none => exact .none
      | some p => exact .some (dropped_refl idx off p)
    refine ⟨t1, result, hcall, ?_⟩
    cases h
    generalize hstamp : (if result ≥ 1 ∧ hasBlock c t.mgr idx (off / blockSize) = false then
      { t1 with lastPayloadMs := now } else t1) = t2
    have ht2 : t2.machine = t1.machine ∧ t2.startupVerifying = t1.startupVerifying ∧
        t2.peers = t1.peers ∧ t2.fatalError = t1.fatalError := by
      rw [← hstamp]
      split <;> exact ⟨rfl, rfl, rfl, rfl⟩
    obtain ⟨hmachine, hstarting, hpeers, hfatal⟩ := ht2
    rw [← hpeers] at hsame ⊢
    rw [← hmachine, ← hstarting, ← hfatal]
    generalize hcancel : (if result ≥ 1 ∧
      decide (blockRequestCount c t.mgr idx (off / blockSize) > 1) = true
      then cancelDuplicateRequests t2 nets idx off data.length else t2) = t3
    have ht3 : t3.machine = t2.machine ∧ t3.startupVerifying = t2.startupVerifying ∧
        DroppedAll idx off t2.peers t3.peers ∧ t3.fatalError = t2.fatalError := by
      rw [← hcancel]
      split
      · exact ⟨rfl, rfl, droppedAll_cancel hsame nets data.length, rfl⟩
      · exact ⟨rfl, rfl, hsame, rfl⟩
    obtain ⟨hmachine', hstarting', hdropped, hfatal'⟩ := ht3
    split
    · next hneg =>
      refine ⟨hmachine', hstarting', hdropped, ?_⟩
      simp [Torrent.fail, hneg]
    · next hneg =>
      refine ⟨hmachine', hstarting', hdropped, ?_⟩
      simp [hfatal', hneg]

theorem sound_block (wf : TorrentLayout.WellFormed u.pieces.mi) (h : EngineSound u t) {slot : Nat}
    {p p' : Peer} (hpeer : t.peers slot = some p) (hactive : p'.state = .active) {idx off now : Nat}
    {data : List UInt8} {k : Calling} {nets : Nat → PeerSend.Transport} (hidx : idx < 2 ^ 32)
    (hoff : off < 2 ^ 32) (hdata : data.length < 2 ^ 32)
    (hasked : p.pipeline.any (fun r => r.isExactly idx off data.length) = true)
    (htaken : p'.pipeline = p.pipeline.eraseP (fun r => r.isExactly idx off data.length))
    (hblock : cbBlock u.pieces (t.setPeer slot (some p')) idx off data now k nets = some t') :
    EngineSound u t' := by
  obtain ⟨b, known, heqoff, _⟩ := (h.peers slot p hpeer).asked wf hidx hoff hdata hasked
  have hdiv : off / blockSize = b := by rw [heqoff, mul_blockSize_div]
  obtain ⟨t1, result, hcall, hmachine, hstarting, hdropped, hfatal⟩ := cbBlock_cases hblock
  have hsettled : Settled u.pieces
      { t.setPeer slot (some p') with downloaded := t.downloaded + data.length }.machine :=
    h.settled
  have hreturned : Returned u.pieces
      { t.setPeer slot (some p') with downloaded := t.downloaded + data.length } t1 :=
    callPieces_returned wf hsettled rfl hcall
  have hmgr : t'.mgr = t1.mgr := congrArg Machine.mgr hmachine
  have hentry : Dropped idx off p p' := by
    refine dropped_eraseP ?_ htaken (fun hfresh => absurd hactive hfresh.1)
    intro r hr
    simp only [BlockReq.isExactly, Bool.and_eq_true] at hr
    exact hr.1
  have hall : DroppedAll idx off t.peers t'.peers := by
    intro other
    have hother := hdropped other
    rw [hreturned.peers] at hother
    simp only [Torrent.setPeer] at hother
    by_cases heq : other = slot
    · subst heq
      rw [Function.update_self] at hother
      rw [hpeer]
      generalize t'.peers other = o at hother ⊢
      cases hother with
      | some hlater => exact .some (hentry.trans hlater)
    · rwa [Function.update_of_ne heq] at hother
  refine h.lower ?_ ?_ ?_ (hall.sound h.peers) ?_
  · rw [hmachine]
    exact hreturned.settled
  · rw [hmgr]
    exact hreturned.lower
  · rw [hstarting, hreturned.starting]
    exact id
  · intro hok
    simp only [hfatal, Bool.or_eq_false_iff, decide_eq_false_iff_not, not_lt] at hok
    refine ⟨hreturned.fatal hok.1, ?_⟩
    intro i b' known'
    by_cases hthis : i = idx ∧ b' = b
    · -- the block itself: it has no count any more
      obtain ⟨rfl, rfl⟩ := hthis
      left
      rw [hmgr, ← hdiv]
      exact callPieces_count hsettled (by rw [hdiv]; exact known) hcall hok.2
    · right
      refine hall.still_asks ?_
      intro r hr
      obtain ⟨hi, hb⟩ := known.bounds wf
      obtain ⟨hi', hb'⟩ := known'.bounds wf
      obtain ⟨hindex, hoffset⟩ := (isFor_iff hi' hb').mp hr
      rw [← Bool.not_eq_true, heqoff]
      intro hsame
      obtain ⟨hindex', hoffset'⟩ := (isFor_iff hi hb).mp hsame
      refine hthis ⟨by omega, ?_⟩
      have hmul : b' * blockSize = b * blockSize := by omega
      exact Nat.eq_of_mul_eq_mul_right (by decide) hmul

/-- Every move keeps the engine sound. -/
theorem EngineSound.move {good : Calling → Prop} (wf : TorrentLayout.WellFormed u.pieces.mi)
    (h : EngineSound u t) (move : Move u good t t') : EngineSound u t' := by
  cases move with
  | flags _ hmachine hpeers hstarting hfatal => exact sound_flags h hmachine hpeers hstarting hfatal
  | worker m events hstep =>
    exact h.manager (h.settled.worker wf hstep)
      (lower_transition rfl (step_transition hstep)) id rfl id
  | edit call env hreturns hplain =>
    exact h.manager (h.settled.call wf hreturns hplain)
      (start_lower u.pieces t.mgr env (by rw [hplain]; rfl)) id rfl id
  | check idx alloc hstarting => exact sound_check wf h idx alloc hstarting
  | call _ call k result _ hplain hcall =>
    exact sound_returned h (callPieces_returned wf h.settled hplain hcall)
  | webFail t1 piece off data k result _ _ _ _ _ hcall _ =>
    exact sound_fail (sound_returned h (callPieces_returned wf h.settled rfl hcall)) _
  | peers peers hsame => exact sound_peers h hsame
  | join slot p hfree hempty =>
    refine sound_setPeer h (fun i b => by rw [hfree]; rfl) ?_
    rintro _ ⟨⟩
    exact peerSound_nil u.pieces hempty
  | leave slot p hpeer hquiet => exact sound_leave h hpeer hquiet
  | release slot p p' keep hslot hpeer hkeep hfresh =>
    exact sound_release wf h hslot hpeer keep hkeep hfresh
  | ask slot p p' idx b now hslot hstarted hpeer hactive hopen hblock hmissing _ hnew hp' =>
    exact sound_ask wf h hslot hstarted hpeer hactive hopen hblock hmissing hnew hp'
  | hedge slot primary p p' q r head now hslot hstarted hpeer hactive hprimary hr hindex _
      hhead hmissing hcount hnew hp' =>
    exact sound_hedge wf h hslot hstarted hpeer hactive hprimary hr hindex hhead hmissing
      hcount hnew hp'
  | block _ slot p p' idx off data now k nets _ _ hpeer hactive hidx hoff hdata hasked
    htaken hblock =>
    exact sound_block wf h hpeer hactive hidx hoff hdata hasked htaken hblock

theorem noCounts_createPieces (c : Config) (options : Option Options) (hashOk : Bool)
    (heap : Nat → Nat → UInt8) (store : Storage.Store) :
    NoCounts (createPieces c options (create c hashOk heap store)) := by
  have hnone : NoCounts (create c hashOk heap store) := fun _ _ => rfl
  unfold createPieces
  split
  · exact hnone
  · next o =>
    have hpolicy : NoCounts (setStrictPolicy (create c hashOk heap store)
        o.strictOrderLookahead o.strictFillPendingFirst) := hnone
    dsimp only
    split
    · generalize setStrictPolicy (create c hashOk heap store) o.strictOrderLookahead
        o.strictFillPendingFirst = s at hpolicy
      have hlower : Lower s (start c s (envOf true)
          (.presetHave o.haveBitfield o.haveBitfieldLen)).1 := start_lower c s (envOf true) rfl
      exact hpolicy.lower hlower
    · exact hpolicy

theorem sound_createTorrent (wf : TorrentLayout.WellFormed u.pieces.mi) (options : Option Options)
    (hashOk : Bool) (heap : Nat → Nat → UInt8) {store : Storage.Store}
    (opened : Storage.Opened u.pieces.mi store) :
    EngineSound u (createTorrent u options hashOk heap store) := by
  have hnone : NoCounts (create u.pieces hashOk heap store) := fun _ _ => rfl
  have hinitial : Settled u.pieces (initial u.pieces hashOk heap store) :=
    ⟨rfl, ⟨[], machineSound_initial wf hashOk heap opened⟩, fun _ => rfl, hnone.clear⟩
  have hcounts := noCounts_createPieces u.pieces options hashOk heap store
  have key : Settled u.pieces
      ⟨createPieces u.pieces options (create u.pieces hashOk heap store), .idle, .idle⟩ := by
    unfold createPieces at hcounts ⊢
    split
    · exact hinitial
    · next o =>
      dsimp only at hcounts ⊢
      have hpolicy : Settled u.pieces ⟨setStrictPolicy (create u.pieces hashOk heap store)
          o.strictOrderLookahead o.strictFillPendingFirst, .idle, .idle⟩ := by
        have hcall : Settled u.pieces { initial u.pieces hashOk heap store with
            mgr := (start u.pieces (create u.pieces hashOk heap store) (envOf true)
              (.setStrictPolicy o.strictOrderLookahead o.strictFillPendingFirst)).1 } :=
          hinitial.call wf rfl rfl
        exact hcall
      split
      · next hpreset =>
        rw [if_pos hpreset] at hcounts
        generalize setStrictPolicy (create u.pieces hashOk heap store) o.strictOrderLookahead
          o.strictFillPendingFirst = s at hpolicy hcounts
        have hlower : Lower s (start u.pieces s (envOf true)
            (.presetHave o.haveBitfield o.haveBitfieldLen)).1 :=
          start_lower u.pieces s (envOf true) rfl
        exact hpolicy.returns wf rfl (fun i => (hlower i).1) hcounts.clear
      · exact hpolicy
  refine ⟨key, fun _ => hcounts, ?_, ?_⟩
  · intro slot p hp
    cases hp
  · intro _ i b _
    have hzero := hcounts i b
    simp only [createTorrent, Torrent.mgr]
    omega

theorem run_sound (wf : TorrentLayout.WellFormed u.pieces.mi) {options : Option Options}
    {hashOk : Bool}
    {heap : Nat → Nat → UInt8} {store : Storage.Store} (opened : Storage.Opened u.pieces.mi store)
    {actions : List Action} (h : run u (createTorrent u options hashOk heap store)
    actions = some t) : EngineSound u t := by
  exact run_moves (P := EngineSound u) (fun _ _ hold hmove => hold.move wf hmove)
    (fun action _ => action.uses_any) h (sound_createTorrent wf options hashOk heap opened)

end Engine

/-- In every run that has not failed, a block is counted at most as often as it is in the
pipelines of the connected peers; a block that nobody is asked for has no count, and if it
is missing it can be asked for. -/
theorem run_counts_le {u : Setup} (wf : TorrentLayout.WellFormed u.pieces.mi)
    {options : Option Options} {hashOk : Bool} {heap : Nat → Nat → UInt8} {store : Storage.Store}
    (opened : Storage.Opened u.pieces.mi store) {actions : List Action} {t : Torrent}
    (h : run u (createTorrent u options hashOk heap store) actions = some t)
    (unfailed : t.fatalError = false) {idx b : Nat} (hidx : idx < u.pieces.mi.numPieces)
    (hb : b < (t.mgr.slots idx).numBlocks) :
    (t.mgr.slots idx).requestCounts b ≤ holders t.peers idx b ∧
      (holders t.peers idx b = 0 → blockRequestCount u.pieces t.mgr idx b = 0 ∧
        (hasBlock u.pieces t.mgr idx b = false →
          slotHasRequestableBlock (t.mgr.slots idx) = true)) := by
  have hsound := run_sound wf opened h
  have hknown : Known u.pieces idx b := by
    refine ⟨hidx, ?_⟩
    rw [← hsound.settled.shape idx]
    exact hb
  have hle := hsound.counted unfailed idx b hknown
  refine ⟨hle, ?_⟩
  intro hnobody
  have hzero : (t.mgr.slots idx).requestCounts b = 0 := by omega
  constructor
  · rw [blockRequestCount, if_pos ⟨hidx, hb⟩]
    exact hzero
  · intro hmissing
    simp only [hasBlock, hidx, decide_true, Bool.true_and] at hmissing
    exact List.any_eq_true.mpr ⟨b, List.mem_range.mpr hb, by simp [hmissing, hzero]⟩

/-- A torrent of three pieces, in strict order with hedging. -/
def threeSetup : Setup := ⟨{ threeConfig with strictOrder := true }, 0, 500⟩

def threeTorrent : Torrent := createTorrent threeSetup none true (fun _ _ => 7) threeStore

/-- A transport that takes everything. -/
def openNet : PeerSend.Transport := fun _ len => len

def emptySender : PeerSend.Sender := ⟨[], false, ⟨id, 0, 0⟩, [], 0⟩

/-- A handshake, an unchoke and a full bitfield. -/
def helloBytes : List UInt8 :=
  handshakeHeader ++ List.replicate 48 0 ++ [0, 0, 0, 1, 1] ++ [0, 0, 0, 2, 5, 224]

/-- A peer that has everything connects and says so. -/
def arrive (slot : Nat) (utp : Bool) : List Action :=
  [.connect utp 1, .connected slot false emptySender, .receive slot helloBytes,
    .handshake slot 1 emptySender, .message slot 1 ⟨willing, []⟩ (fun _ => openNet),
    .message slot 1 ⟨willing, []⟩ (fun _ => openNet)]

def askPeer (slot now : Nat) (alloc : Bool) : Action :=
  .schedule slot now (fun _ => ⟨fun _ => true, alloc, fun _ => ⟨openNet, now⟩⟩)

/-- The message with the one byte of a piece. -/
def pieceBytes (idx : UInt8) : List UInt8 := [0, 0, 0, 10, 7, 0, 0, 0, idx, 0, 0, 0, 0, 0]

def startupCheck : List Action := List.replicate 3 (.startupVerify true)

/-- The first peer does not answer in time, and the second one is asked as well. -/
def hedgedRun : List Action :=
  startupCheck ++ arrive 0 false ++ arrive 1 false ++
    [askPeer 0 1000 true, .hedge 1600 (fun _ _ => ⟨openNet, 1600⟩)]

theorem run_counts_le_hedged : ∃ t, run threeSetup threeTorrent hedgedRun = some t ∧
    (t.mgr.slots 0).requestCounts 0 = 2 ∧ (t.mgr.slots 0).requestCounts 0 ≤
      holders t.peers 0 0 := by
  have hrun : (run threeSetup threeTorrent hedgedRun).map (fun t => (t.fatalError,
      (t.mgr.slots 0).requestCounts 0, (t.mgr.slots 0).numBlocks)) = some (false, 2, 1) := by
    decide +kernel
  obtain ⟨t, hsome, hfacts⟩ := Option.map_eq_some_iff.mp hrun
  obtain ⟨hfatal, hcount, hblocks⟩ : t.fatalError = false ∧ (t.mgr.slots 0).requestCounts 0 = 2 ∧
      (t.mgr.slots 0).numBlocks = 1 := by simpa using hfacts
  have hopened : Storage.Opened threeSetup.pieces.mi threeStore := rfl
  refine ⟨t, hsome, hcount, ?_⟩
  exact (run_counts_le threePieces_wellFormed hopened hsome hfatal (by decide) (by omega)).1

/-- No memory for the buffer, neither when the piece is asked for nor when it comes. -/
def outOfMemory : List Action :=
  startupCheck ++ arrive 0 false ++
    [askPeer 0 1000 false, .receive 0 (pieceBytes 0),
      .message 0 1100 ⟨⟨false, true, willing.io⟩, []⟩ (fun _ => openNet)]

/-- A peer over μTP is flagged dead with its requests, before the next sweep. -/
def diesAsked : List Action := startupCheck ++ arrive 0 true ++ [askPeer 0 1000 true, .markDead 0]

/-- A failed torrent keeps the count of a block whose request is gone, and a request of a
peer flagged dead is counted until the peer is swept. -/
theorem phantom_counts :
    (run threeSetup threeTorrent outOfMemory).map (fun t =>
      (t.fatalError, (t.mgr.slots 0).requestCounts 0, holders t.peers 0 0)) = some (true, 1, 0) ∧
    (run threeSetup threeTorrent diesAsked).map (fun t =>
      (t.fatalError, (t.mgr.slots 0).requestCounts 0,
        (List.range maxActivePeers).all
          (fun slot => (t.peers slot).all (fun p => decide (p.state = .dead))))) =
      some (false, 1, true) := by
  constructor
  · decide +kernel
  · decide +kernel

end TorrentEngine
