import Pipensx.EngineProgress
import Pipensx.PipelineCounts

/-!
# The limit of requests in flight

`request_pipeline_limit` is the most that one peer is asked for at a time. A peer that has
delivered is kept within it. One that has not is asked for `BOOTSTRAP_PIPELINE` blocks,
whatever the limit: `peer_pipeline_limit` returns before the ceiling is applied.
-/

namespace TorrentEngine

open PieceManager PeerRequests PieceGeometry

/-- No peer is asked for more than `most` blocks. -/
def AsksAtMost (most : Nat) (peers : Nat → Option Peer) : Prop :=
  ∀ slot p, peers slot = some p → p.pipeline.length ≤ most

section Bound

variable {u : Setup} {t t' : Torrent} {most : Nat} {peers peers' : Nat → Option Peer}

theorem AsksAtMost.fewer (h : AsksAtMost most peers)
    (fewer : ∀ slot, Option.Rel (fun p p' => p'.pipeline.length ≤ p.pipeline.length) (peers slot)
    (peers' slot)) : AsksAtMost most peers' := by
  intro slot p' hp'
  obtain ⟨p, hp, hle⟩ := rel_some (hp' ▸ fewer slot)
  exact hle.trans (h slot p hp)

theorem AsksAtMost.update (h : AsksAtMost most peers) (slot : Nat) {o : Option Peer}
    (bound : ∀ p ∈ o, p.pipeline.length ≤ most) :
    AsksAtMost most (Function.update peers slot o) := by
  intro other p hp
  rw [Function.update_apply] at hp
  split at hp
  · exact bound p hp
  · exact h other p hp

theorem cancelDuplicateRequests_fewer (t : Torrent) (nets : Nat → PeerSend.Transport)
    (piece offset len slot : Nat) :
    Option.Rel (fun p p' : Peer => p'.pipeline.length ≤ p.pipeline.length) (t.peers slot)
      ((cancelDuplicateRequests t nets piece offset len).peers slot) := by
  simp only [cancelDuplicateRequests]
  cases t.peers slot with
  | none => exact .none
  | some p =>
    refine .some ?_
    dsimp only
    split
    · rcases peerCancelBlock_pipeline (nets slot) p piece offset len with hsame | herased
      · rw [hsame]
      · rw [herased]
        exact List.eraseP_sublist.length_le
    · exact Nat.le_refl _

theorem callPieces_peers {c : Config} {call : Call} {k : Calling} {result : Int}
    (h : callPieces c t call k = some (t', result)) : t'.peers = t.peers := by
  obtain ⟨_, m, events, _, _, rfl, _⟩ := callPieces_run h
  rw [hashResults_peers]

theorem AsksAtMost.cbBlock {c : Config} {idx off now : Nat} {data : List UInt8} {k : Calling}
    {nets : Nat → PeerSend.Transport} (h : AsksAtMost most t.peers)
    (block : cbBlock c t idx off data now k nets = some t') : AsksAtMost most t'.peers := by
  rw [cbBlock_eq, Option.map_eq_some_iff] at block
  obtain ⟨⟨t1, result⟩, hcall, rfl⟩ := block
  have hpeers : t1.peers = t.peers := (callPieces_peers hcall).trans rfl
  have hcancelled := (hpeers ▸ h : AsksAtMost most t1.peers).fewer
    (cancelDuplicateRequests_fewer t1 nets idx off data.length)
  simp only [afterBlock]
  split <;> split <;> split <;> first | exact hcancelled | exact hpeers ▸ h

theorem AsksAtMost.move {good : Calling → Prop}
    (enough : max bootstrapPipeline u.requestPipelineLimit ≤ most)
    (h : AsksAtMost most t.peers) (move : Move u good t t') : AsksAtMost most t'.peers := by
  cases move with
  | flags _ _ hpeers _ _ =>
    rw [hpeers]
    exact h
  | worker m events hstep => exact h
  | edit call env _ _ => exact h
  | check idx alloc _ => exact h
  | call _ call k result _ _ hcall =>
    rw [callPieces_peers hcall]
    exact h
  | webFail t1 piece off data k result _ _ _ _ _ hcall _ =>
    change AsksAtMost most t1.peers
    rw [callPieces_peers hcall]
    exact h
  | peers peers hsame =>
    refine h.fewer ?_
    intro slot
    have hslot := hsame slot
    dsimp only
    generalize t.peers slot = before at hslot ⊢
    generalize peers slot = after at hslot ⊢
    cases hslot with
    | none => exact .none
    | some same => exact .some (by rw [same.1])
  | join slot p _ hempty =>
    refine h.update slot ?_
    rintro p' ⟨⟩
    rw [hempty]
    exact Nat.zero_le _
  | leave slot p _ _ =>
    refine h.update slot ?_
    rintro p' ⟨⟩
  | release slot p p' keep _ hpeer hp' _ =>
    refine h.update slot ?_
    rintro p'' ⟨⟩
    rw [hp']
    exact (List.length_filter_le _ _).trans (h slot p hpeer)
  | ask slot p p' idx b now _ _ _ _ _ _ _ _ _ hp' hroom =>
    refine h.update slot ?_
    rintro p'' ⟨⟩
    rw [hp', List.length_append, List.length_singleton]
    omega
  | hedge slot primary p p' q r head now _ _ _ _ _ _ _ _ _ _ _ _ hp' hroom =>
    refine h.update slot ?_
    rintro p'' ⟨⟩
    rw [hp', List.length_append, List.length_singleton]
    omega
  | block _ slot p p' idx off data now k nets _ _ hpeer _ _ _ _ _ hp' hblock =>
    refine AsksAtMost.cbBlock ?_ hblock
    refine h.update slot ?_
    rintro p'' ⟨⟩
    rw [hp']
    exact List.eraseP_sublist.length_le.trans (h slot p hpeer)

theorem run_asksAtMost {options : Option Options} {hashOk : Bool} {heap : Nat → Nat → UInt8}
    {store : Storage.Store} {actions : List Action} {t : Torrent}
    (h : run u (createTorrent u options hashOk heap store) actions = some t) :
    AsksAtMost (max bootstrapPipeline u.requestPipelineLimit) t.peers := by
  refine run_moves (P := fun t => AsksAtMost (max bootstrapPipeline u.requestPipelineLimit) t.peers)
    (fun _ _ hbound move => hbound.move (Nat.le_refl _) move) (fun action _ => action.uses_any) h ?_
  intro slot p hp
  cases hp

end Bound

/-- One piece of sixteen blocks. -/
def widePiece : TorrentFile.Metainfo :=
  { TorrentFile.Metainfo.zero with
    name := [97], pieceLength := 2 ^ 18, numPieces := 1, totalLength := 2 ^ 18, numFiles := 1
    pieceHashes := .live zeroDigest
    files := .live [⟨[97], 2 ^ 18, 0⟩] }

def wideSetup (option : Nat) : Setup := ⟨⟨widePiece, fun _ => zeroDigest, false, []⟩, option, 0⟩

def wideStore : Storage.Store := ⟨[⟨0, 2 ^ 18, .disk, false, 0, some []⟩], [], none⟩

/-- Nothing is there yet, so the startup check is skipped. -/
def nothingYet : Options := ⟨0, false, some (fun _ => 0), 1⟩

def wideTorrent (option : Nat) : Torrent :=
  createTorrent (wideSetup option) (some nothingYet) true (fun _ _ => 7) wideStore

/-- A peer arrives that has the piece, and is asked. -/
def askedAtOnce : List Action := arrive 0 false ++ [askPeer 0 1000 true]

theorem wide_asked : ∀ option, option < 16 →
    (run (wideSetup option) (wideTorrent option) askedAtOnce).map (fun t =>
    (t.peers 0).map (fun p => p.pipeline.length)) = some (some 16) := by
  decide +kernel

/-- The limit is kept in every run of every torrent that is created with this option. -/
def WithinLimit (option : Nat) : Prop :=
  ∀ (pieces : Config) (hedgeAfterMs : Nat) (options : Option Options) (hashOk : Bool)
    (heap : Nat → Nat → UInt8) (store : Storage.Store) (actions : List Action) (t : Torrent),
    run ⟨pieces, option, hedgeAfterMs⟩
      (createTorrent ⟨pieces, option, hedgeAfterMs⟩ options hashOk heap store) actions = some t →
    AsksAtMost (clampPipeline option) t.peers

theorem exceeds_limit {option : Nat} (small : option < bootstrapPipeline)
    (set : clampPipeline option < bootstrapPipeline) :
    ¬ WithinLimit option := by
  intro hwithin
  obtain ⟨t, hrun, hasked⟩ := Option.map_eq_some_iff.mp (wide_asked option small)
  obtain ⟨p, hpeer, hlength⟩ := Option.map_eq_some_iff.mp hasked
  have hbound := hwithin (wideSetup option).pieces 0 (some nothingYet) true (fun _ _ => 7)
    wideStore askedAtOnce t hrun 0 p hpeer
  simp only [bootstrapPipeline] at set
  omega

/-- The limit is kept exactly if it is not set below the number of blocks that a new peer is
asked for. -/
theorem withinLimit_iff (option : Nat) :
    WithinLimit option ↔ option = 0 ∨ bootstrapPipeline ≤ option := by
  constructor
  · intro hwithin
    by_contra hset
    rw [not_or, Nat.not_le] at hset
    obtain ⟨hnonzero, hsmall⟩ := hset
    refine exceeds_limit hsmall ?_ hwithin
    simp only [clampPipeline, hnonzero, ne_eq, not_false_eq_true, if_true,
      minRequestPipeline, maxPipeline, bootstrapPipeline] at hsmall ⊢
    omega
  · intro hset pieces hedgeAfterMs options hashOk heap store actions t hrun
    have hbound := run_asksAtMost hrun
    have hceiling : bootstrapPipeline ≤ clampPipeline option := by
      simp only [clampPipeline, minRequestPipeline, maxPipeline, bootstrapPipeline] at hset ⊢
      split <;> omega
    have hmax : max bootstrapPipeline (clampPipeline option) = clampPipeline option :=
      max_eq_right hceiling
    change AsksAtMost (max bootstrapPipeline (clampPipeline option)) t.peers at hbound
    rw [hmax] at hbound
    exact hbound

/-- With a limit of eight, a new peer is asked for sixteen blocks. -/
theorem limit_exceeded : clampPipeline 8 = 8 ∧
    (run (wideSetup 8) (wideTorrent 8) askedAtOnce).map
      (fun t => (t.peers 0).map (fun p => p.pipeline.length)) =
      some (some 16) ∧ ¬ WithinLimit 8 :=
  ⟨by decide, wide_asked 8 (by decide), exceeds_limit (by decide) (by decide)⟩

end TorrentEngine
