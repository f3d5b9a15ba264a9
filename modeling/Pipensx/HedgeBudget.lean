import Pipensx.PipelineCounts

/-!
# The budget of second requests

A count goes up in two places: from nought when a free block is asked for, and from one when
the block is hedged. Hedging stops at sixteen blocks of a piece, whatever has been received,
dropped or reset since the last tick, for everything else only lowers the counts.
-/

namespace TorrentEngine

open PieceManager PeerRequests PieceGeometry

/-- No block is asked for more than twice, and only so many of a piece are asked for twice. -/
structure Budgeted (s : Mgr) : Prop where
  counts : ∀ i b, (s.slots i).requestCounts b ≤ 2
  blocks : ∀ i, (doubled s i).card ≤ maxHedgedBlocks

section Budget

variable {u : Setup} {good : Calling → Prop} {t t' : Torrent} {c : Config} {s s' : Mgr}

theorem Budgeted.lower (h : Budgeted s) (lower : Lower s s') : Budgeted s' :=
  ⟨fun i b => ((lower i).2 b).trans (h.counts i b), fun i =>
    (doubled_lower lower i).trans (h.blocks i)⟩

theorem budgeted_of_noCounts (h : NoCounts s) : Budgeted s := by
  constructor
  · intro i b
    rw [h i b]
    omega
  · intro i
    have hnone : doubled s i = ∅ := by
      refine Finset.eq_empty_of_forall_notMem fun b hb => ?_
      have hcount := (mem_doubled.mp hb).2
      rw [h i b] at hcount
      omega
    rw [hnone, Finset.card_empty]
    exact Nat.zero_le _

/-- A block that is asked for at most once may be asked for once more, if it is the first
time or the piece has room. -/
theorem Budgeted.mark (h : Budgeted s) {i b : Nat} (hknown : s.blockKnown c i b)
    (hcount : (s.slots i).requestCounts b ≤ 1)
    (hroom : (s.slots i).requestCounts b = 0 ∨ (doubled s i).card < maxHedgedBlocks) :
    Budgeted (markBlockRequested c s i b) := by
  have hcounts : ∀ i' b', ((markBlockRequested c s i b).slots i').requestCounts b' =
      (s.slots i').requestCounts b' + if i' = i ∧ b' = b then 1 else 0 := fun i' b' =>
    (markBlockRequested_counts hknown i' b').2 (by have := h.counts i' b'; omega)
  have hsub : ∀ i' b', b' ∈ doubled (markBlockRequested c s i b) i' →
      b' ∈ doubled s i' ∨ (i' = i ∧ b' = b ∧ (s.slots i).requestCounts b = 1) := by
    intro i' b' hmem
    obtain ⟨hlt, htwo⟩ := mem_doubled.mp hmem
    rw [(markBlockRequested_counts hknown i' b').1] at hlt
    rw [hcounts] at htwo
    by_cases hthis : i' = i ∧ b' = b
    · obtain ⟨rfl, rfl⟩ := hthis
      rw [if_pos ⟨rfl, rfl⟩] at htwo
      exact Or.inr ⟨rfl, rfl, by omega⟩
    · rw [if_neg hthis] at htwo
      exact Or.inl (mem_doubled.mpr ⟨hlt, htwo⟩)
  constructor
  · intro i' b'
    rw [hcounts]
    split
    · next hthis =>
      obtain ⟨rfl, rfl⟩ := hthis
      omega
    · exact h.counts i' b'
  · intro i'
    by_cases hspent : (s.slots i).requestCounts b = 1 ∧ i' = i
    · obtain ⟨hone, rfl⟩ := hspent
      have hle : doubled (markBlockRequested c s i' b) i' ⊆ insert b (doubled s i') := by
        intro b' hmem
        rcases hsub i' b' hmem with hold | ⟨_, rfl, _⟩
        · exact Finset.mem_insert_of_mem hold
        · exact Finset.mem_insert_self _ _
      have hcard := (Finset.card_le_card hle).trans (Finset.card_insert_le _ _)
      omega
    · have hle : doubled (markBlockRequested c s i b) i' ⊆ doubled s i' := by
        intro b' hmem
        rcases hsub i' b' hmem with hold | ⟨hi, _, hone⟩
        · exact hold
        · exact absurd ⟨hone, hi⟩ hspent
      exact (Finset.card_le_card hle).trans (h.blocks i')

theorem Budgeted.move (wf : TorrentLayout.WellFormed u.pieces.mi) (sound : EngineSound u t)
    (h : Budgeted t.mgr) (move : Move u good t t') : Budgeted t'.mgr := by
  cases move with
  | flags _ hmachine _ _ _ =>
    rw [Torrent.mgr, hmachine]
    exact h
  | worker m events hstep => exact h.lower (lower_transition rfl (step_transition hstep))
  | edit call env _ hplain => exact h.lower (start_lower u.pieces t.mgr env (by rw [hplain]; rfl))
  | check idx alloc _ =>
    have hlower : Lower t.mgr (start u.pieces t.mgr (envOf alloc) (.checkExisting idx)).1 :=
      start_lower u.pieces t.mgr (envOf alloc) rfl
    exact h.lower hlower
  | call _ call k result _ hplain hcall =>
    exact h.lower (callPieces_returned wf sound.settled hplain hcall).lower
  | webFail t1 piece off data k result _ _ _ _ _ hcall _ =>
    have hlower := (callPieces_returned wf sound.settled rfl hcall).lower
    exact h.lower hlower
  | peers peers _ => exact h
  | join slot p _ _ => exact h
  | leave slot p _ _ => exact h
  | release slot p p' keep _ _ _ _ => exact h.lower (clearRequests_lower u.pieces _ t.mgr)
  | ask slot p p' idx b now _ _ _ _ hopen hblock _ hcount =>
    have hknown : t.mgr.blockKnown u.pieces idx b := ⟨hopen.1, hblock⟩
    rw [blockRequestCount, if_pos hknown] at hcount
    exact h.mark hknown (by omega) (Or.inl hcount)
  | hedge slot primary p p' q r head now _ _ _ _ _ _ _ _ _ _ hcount _ _ _ hroom =>
    rw [blockRequestCount] at hcount
    split at hcount
    · next hknown => exact h.mark hknown (by omega) (Or.inr hroom)
    · cases hcount
  | block _ slot p p' idx off data now k nets _ _ _ _ _ _ _ _ _ hblock =>
    obtain ⟨t1, result, hcall, hmachine, _, _, _⟩ := cbBlock_cases hblock
    rw [Torrent.mgr, hmachine]
    exact h.lower (callPieces_returned (t := { t.setPeer slot (some p') with
      downloaded := (t.setPeer slot (some p')).downloaded + data.length }) wf sound.settled
        rfl hcall).lower

end Budget

/-- In every reachable state no block is asked for more than twice, and at most sixteen
blocks of a piece are asked for twice. A call of `schedule_hedged_requests` there sends at
most four copies, each of them for a block of the head piece that is missing and is asked of
one other peer, to a peer that does not have the request. -/
theorem run_hedges_within_budget {u : Setup} (wf : TorrentLayout.WellFormed u.pieces.mi)
    {options : Option Options} {hashOk : Bool} {heap : Nat → Nat → UInt8} {store : Storage.Store}
    (opened : Storage.Opened u.pieces.mi store) {actions : List Action} {t : Torrent}
    (h : run u (createTorrent u options hashOk heap store) actions = some t) :
    Budgeted t.mgr ∧
      ∀ now answers, Hedges u t (scheduleHedgedRequests u t now answers) := by
  refine ⟨?_, fun now answers => scheduleHedgedRequests_hedges t now answers⟩
  have hstart : EngineSound u (createTorrent u options hashOk heap store) :=
    sound_createTorrent wf options hashOk heap opened
  have hfresh : Budgeted (createTorrent u options hashOk heap store).mgr :=
    budgeted_of_noCounts (noCounts_createPieces u.pieces options hashOk heap store)
  have hboth := run_moves (P := fun t => EngineSound u t ∧ Budgeted t.mgr) ?_
    (fun action _ => action.uses_any) h ⟨hstart, hfresh⟩
  · exact hboth.2
  · rintro t t' ⟨hsound, hbudget⟩ hmove
    exact ⟨hsound.move wf hmove, hbudget.move wf hsound hmove⟩

/-- The first block is asked of two peers; another call a second later would stay within
the budget as well. -/
theorem run_hedges_within_budget_twice : ∃ t, run threeSetup threeTorrent hedgedRun = some t ∧
    (t.mgr.slots 0).requestCounts 0 = 2 ∧ Budgeted t.mgr ∧
    Hedges threeSetup t (scheduleHedgedRequests threeSetup t 2600
      (fun _ _ => ⟨openNet, 2600⟩)) := by
  have hrun : (run threeSetup threeTorrent hedgedRun).map
      (fun t => (t.mgr.slots 0).requestCounts 0) = some 2 := by decide +kernel
  obtain ⟨t, hsome, hcount⟩ := Option.map_eq_some_iff.mp hrun
  have hopened : Storage.Opened threeSetup.pieces.mi threeStore := rfl
  obtain ⟨hbudget, hhedges⟩ := run_hedges_within_budget threePieces_wellFormed hopened hsome
  exact ⟨t, hsome, hcount, hbudget, hhedges _ _⟩

end TorrentEngine
