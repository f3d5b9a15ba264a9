import Mathlib.Data.Finset.Card
import Pipensx.Engine
import Pipensx.RequestCounts

/-!
# Asking a second peer

A block of the head piece that one peer keeps waiting is asked of another peer too. The
loops that look for such blocks stop when the budget of the tick is used up, so that no
piece has more than `MAX_HEDGED_BLOCKS` of its blocks asked for twice.
-/

namespace TorrentEngine

open PieceManager PeerRequests PieceGeometry

/-- The blocks of a piece that are asked for more than once. -/
def doubled (s : Mgr) (i : Nat) : Finset Nat :=
  (Finset.range (s.slots i).numBlocks).filter (fun b => 1 < (s.slots i).requestCounts b)

section Doubled

variable {c : Config} {s s' : Mgr} {i b : Nat}

theorem mem_doubled : b ∈ doubled s i ↔ b < (s.slots i).numBlocks ∧
    1 < (s.slots i).requestCounts b := by
  simp [doubled]

/-- What `schedule_hedged_requests` counts before it starts. -/
theorem outstanding_eq (hi : i < c.mi.numPieces) :
    (List.range (s.slots i).numBlocks).countP (fun b => decide (blockRequestCount c s i b > 1)) =
      (doubled s i).card := by
  have hsame : ∀ b ∈ List.range (s.slots i).numBlocks,
      (decide (blockRequestCount c s i b > 1) = true ↔
        decide (1 < (s.slots i).requestCounts b) = true) := by
    intro b hb
    rw [blockRequestCount, if_pos ⟨hi, List.mem_range.mp hb⟩]
  rw [List.countP_congr hsame, List.countP_eq_length_filter]
  rfl

theorem doubled_lower (h : Lower s s') (i : Nat) : (doubled s' i).card ≤ (doubled s i).card := by
  refine Finset.card_le_card fun b hb => ?_
  obtain ⟨hlt, hcount⟩ := mem_doubled.mp hb
  rw [(h i).1] at hlt
  exact mem_doubled.mpr ⟨hlt, hcount.trans_le ((h i).2 b)⟩

/-- One more request for a block that is known. -/
theorem markBlockRequested_counts (hknown : s.blockKnown c i b) (i' b' : Nat) :
    ((markBlockRequested c s i b).slots i').numBlocks = (s.slots i').numBlocks ∧
    ((s.slots i').requestCounts b' < 255 →
      ((markBlockRequested c s i b).slots i').requestCounts b' =
      (s.slots i').requestCounts b' + if i' = i ∧ b' = b then 1 else 0) := by
  rw [markBlockRequested, setCount, if_pos hknown]
  by_cases hi : i' = i
  · subst hi
    refine ⟨by simp [Mgr.setSlot], fun hsmall => ?_⟩
    by_cases hb : b' = b
    · subst hb
      simp [Mgr.setSlot, Nat.ne_of_lt hsmall]
    · simp [Mgr.setSlot, hb]
  · simp [Mgr.setSlot, hi]

end Doubled

/-- A request of the peer in slot `primary`, sent to the peer in `slot` too. -/
structure Copy where
  primary : Nat
  slot : Nat
  request : BlockReq

def Copy.block (d : Copy) : Nat := d.request.offset.toNat / blockSize

/-- What has been checked when the copy is sent: the block is missing and is asked of the
primary only, and the other peer `p` does not have the request. -/
structure Copy.Due (u : Setup) (head : Nat) (s : Mgr) (peers : Nat → Option Peer)
    (d : Copy) (p : Peer) : Prop where
  held : ∃ q, peers d.primary = some q ∧ q.state = .active ∧ d.request ∈ q.pipeline
  index : d.request.index = toInt head
  offset : 0 ≤ d.request.offset
  missing : hasBlock u.pieces s head d.block = false
  single : blockRequestCount u.pieces s head d.block = 1
  slot : d.slot < maxActivePeers
  other : d.slot ≠ d.primary
  peer : peers d.slot = some p
  active : p.state = .active
  fresh : peerHasRequest p head d.request.offset.toNat = false
  room : p.pipeline.length < peerPipelineLimit u p

/-- The copies sent, last one first, and what they make of the manager and the peers. A
message that is not taken may still change the peer, but not its requests. -/
inductive Copies (u : Setup) (head : Nat) (s : Mgr) (peers : Nat → Option Peer) :
    List Copy → Mgr → (Nat → Option Peer) → Prop where
  | start : Copies u head s peers [] s peers
  | refused {copies : List Copy} {s' : Mgr} {peers' : Nat → Option Peer} (slot : Nat)
      (p p' : Peer) :
      Copies u head s peers copies s' peers' → peers' slot = some p → p'.pipeline = p.pipeline →
      p'.state = p.state → Copies u head s peers copies s' (Function.update peers' slot (some p'))
  | sent {copies : List Copy} {s' : Mgr} {peers' : Nat → Option Peer} (d : Copy)
      (p p' : Peer) (now : Nat) :
      Copies u head s peers copies s' peers' → d.Due u head s' peers' p → p'.state = p.state →
      p'.pipeline = p.pipeline ++ [⟨toInt head, toInt d.request.offset.toNat,
        toInt (d.request.length % 2 ^ 32).toNat, now⟩] →
      Copies u head s peers (d :: copies) (markBlockRequested u.pieces s' head d.block)
        (Function.update peers' d.slot (some p'))

section Copies

variable {u : Setup} {head : Nat} {s s' : Mgr} {peers peers' : Nat → Option Peer}
  {copies : List Copy}

/-- A block that has a count is a block of the head piece. -/
theorem Copy.Due.known {d : Copy} {p : Peer} (h : d.Due u head s peers p) :
    s.blockKnown u.pieces head d.block ∧ (s.slots head).requestCounts d.block = 1 := by
  have hsingle := h.single
  rw [blockRequestCount] at hsingle
  split at hsingle
  · next hknown => exact ⟨hknown, hsingle⟩
  · cases hsingle

theorem Copy.Due.doubles {d : Copy} {p : Peer} (h : d.Due u head s peers p) :
    (doubled (markBlockRequested u.pieces s head d.block) head).card =
      (doubled s head).card + 1 := by
  obtain ⟨hknown, hone⟩ := h.known
  have hold : d.block ∉ doubled s head := by
    intro hmem
    have htwo := (mem_doubled.mp hmem).2
    omega
  have hnew : doubled (markBlockRequested u.pieces s head d.block) head =
      insert d.block (doubled s head) := by
    ext b
    obtain ⟨hblocks, hcount⟩ := markBlockRequested_counts hknown head b
    rw [Finset.mem_insert, mem_doubled, mem_doubled, hblocks]
    by_cases hb : b = d.block
    · subst hb
      have htwo := hcount (by omega)
      simp only [and_self, if_true] at htwo
      simp only [true_or, iff_true]
      exact ⟨hknown.2, by omega⟩
    · simp only [hb, false_or]
      rw [markBlockRequested, setCount, if_pos hknown]
      simp [Mgr.setSlot, hb]
  rw [hnew, Finset.card_insert_of_notMem hold]

/-- Every copy is one more block that is asked for twice. -/
theorem Copies.doubles (h : Copies u head s peers copies s' peers') :
    (doubled s' head).card = (doubled s head).card + copies.length := by
  induction h with
  | start => rfl
  | refused slot p p' _ _ _ _ ih => exact ih
  | sent d p p' now _ hdue _ _ ih =>
    rw [hdue.doubles, ih, List.length_cons]
    omega

end Copies

section Loops

variable {u : Setup} {head : Nat}

/-- The peer a request is hedged to is another one, and has room for it. -/
theorem pickHedgePeer_spec {peers : Nat → Option Peer}
    {primary piece offset now slot : Nat} {p : Peer}
    (h : pickHedgePeer u peers primary piece offset now = some (slot, p)) :
    slot < maxActivePeers ∧ slot ≠ primary ∧ peers slot = some p ∧
      canHedge u p piece offset now = true := by
  refine List.foldlRecOn (motive := fun best => ∀ slot p, best = some (slot, p) →
    slot < maxActivePeers ∧ slot ≠ primary ∧ peers slot = some p ∧
    canHedge u p piece offset now = true) (List.range maxActivePeers) _ (by simp) ?_ slot p h
  intro best hbest first hfirst slot' p' hnext
  split at hnext
  · exact hbest slot' p' hnext
  · next q hq =>
    split at hnext
    · exact hbest slot' p' hnext
    · next hable =>
      simp only [not_or, Bool.not_eq_false] at hable
      have hchosen : some (first, q) = some (slot', p') → slot' < maxActivePeers ∧ slot' ≠ primary ∧
          peers slot' = some p' ∧ canHedge u p' piece offset now = true := by
        rintro ⟨⟩
        exact ⟨List.mem_range.mp hfirst, hable.1, hq, hable.2⟩
      split at hnext
      · exact hchosen hnext
      · split at hnext
        · exact hchosen hnext
        · exact hbest slot' p' hnext

/-- The copies a loop has sent so far, within the budget. -/
def Hedged (u : Setup) (head budget : Nat) (s : Mgr) (peers : Nat → Option Peer)
    (r : Mgr × (Nat → Option Peer) × Nat) : Prop :=
  ∃ copies, Copies u head s peers copies r.1 r.2.1 ∧ copies.length = r.2.2 ∧ copies.length ≤ budget

variable {s0 : Mgr} {peers0 : Nat → Option Peer}

theorem hedgePipeline_hedged (primary budget hedgeAfterMs now : Nat) (answers : Nat → Nat → Answer)
    (q : Peer) (hactive : q.state = .active) (requests : List BlockReq) (j : Nat) (s : Mgr)
    (peers : Nat → Option Peer) (hedged : Nat) (hprimary : peers primary = some q)
    (hrequests : ∀ r ∈ requests, r ∈ q.pipeline)
    (h : Hedged u head budget s0 peers0 (s, peers, hedged)) :
    Hedged u head budget s0 peers0
      (hedgePipeline u head primary budget hedgeAfterMs now answers requests j s peers hedged) := by
  induction requests generalizing j s peers hedged with
  | nil => exact h
  | cons r rest ih =>
    have hrest : ∀ r ∈ rest, r ∈ q.pipeline := fun r' hr' => hrequests r' (by simp [hr'])
    simp only [hedgePipeline]
    split
    · exact h
    · next hroom =>
      split
      · exact ih _ s peers hedged hprimary hrest h
      · next hlate =>
        simp only [not_or, not_not, not_lt] at hlate
        split
        · exact ih _ s peers hedged hprimary hrest h
        · next hlonely =>
          simp only [not_or, Bool.not_eq_true, not_not] at hlonely
          split
          · exact ih _ s peers hedged hprimary hrest h
          · next slot p hpick =>
            obtain ⟨hslot, hother, hpeer, hable⟩ := pickHedgePeer_spec hpick
            simp only [canHedge, Bool.and_eq_true, decide_eq_true_eq, Bool.not_eq_true'] at hable
            have hdue : Copy.Due u head s peers ⟨primary, slot, r⟩ p :=
              ⟨⟨q, hprimary, hactive, hrequests r (by simp)⟩, hlate.1, hlate.2.1,
                hlonely.1, hlonely.2, hslot, hother, hpeer, hable.1.1.1.1.1, hable.1.2, hable.2⟩
            generalize hsent : peerRequestBlock (answers primary j).net
              (answers primary j).now p head r.offset.toNat (r.length % 2 ^ 32).toNat = sent
            have hpipeline := peerRequestBlock_pipeline (answers primary j).net
              (answers primary j).now p head r.offset.toNat (r.length % 2 ^ 32).toNat
            have hstate := peerRequestBlock_state (answers primary j).net (answers primary j).now p
              head r.offset.toNat (r.length % 2 ^ 32).toNat
            rw [hsent] at hpipeline hstate
            have hprimary' : Function.update peers slot (some sent.1) primary = some q := by
              rw [Function.update_of_ne (Ne.symm hother)]
              exact hprimary
            obtain ⟨copies, hcopies, hcount, hbudget⟩ := h
            dsimp only at hcount
            split
            · next hok =>
              rw [if_pos hok] at hpipeline
              refine ih _ _ _ _ hprimary' hrest
                ⟨_, hcopies.sent _ p _ _ hdue hstate hpipeline, ?_, ?_⟩
              · rw [List.length_cons, hcount]
              · rw [List.length_cons, hcount]
                omega
            · next hnot =>
              rw [if_neg hnot] at hpipeline
              exact ih _ _ _ _ hprimary' hrest
                ⟨copies, hcopies.refused slot p _ hpeer hpipeline hstate, hcount, hbudget⟩

theorem hedgePeers_hedged (budget hedgeAfterMs now : Nat) (answers : Nat → Nat → Answer)
    (slots : List Nat) (s : Mgr) (peers : Nat → Option Peer) (hedged : Nat)
    (h : Hedged u head budget s0 peers0 (s, peers, hedged)) :
    Hedged u head budget s0 peers0
      (hedgePeers u head budget hedgeAfterMs now answers slots s peers hedged) := by
  induction slots generalizing s peers hedged with
  | nil => exact h
  | cons slot rest ih =>
    simp only [hedgePeers]
    split
    · exact ih s peers hedged h
    · next p hpeer =>
      split
      · exact ih s peers hedged h
      · next hactive =>
        have hactive' : p.state = .active := not_not.mp hactive
        exact ih _ _ _ (hedgePipeline_hedged slot budget hedgeAfterMs now answers p hactive'
          p.pipeline 0 s peers hedged hpeer (fun _ hr => hr) h)

/-- What one call does: nothing to the requests, or a few copies of requests for the head
piece, as many as the budgets of the tick and of the piece allow. -/
inductive Hedges (u : Setup) (t t' : Torrent) : Prop where
  | none : t'.mgr = t.mgr → t'.peers = t.peers → Hedges u t t'
  | copies (head : Nat) (copies : List Copy) : headPiece u.pieces t.mgr = some head →
      Copies u head t.mgr t.peers copies t'.mgr t'.peers → copies.length ≤ maxHedgesPerTick →
      (doubled t.mgr head).card + copies.length ≤ maxHedgedBlocks → Hedges u t t'

theorem scheduleHedgedRequests_hedges (t : Torrent) (now : Nat) (answers : Nat → Nat → Answer) :
    Hedges u t (scheduleHedgedRequests u t now answers) := by
  unfold scheduleHedgedRequests
  split
  · exact .none rfl rfl
  · split
    · exact .none rfl rfl
    · dsimp only
      split
      · exact .none rfl rfl
      · next head hhead =>
        rw [outstanding_eq (headPiece_lt hhead)]
        split
        · exact .none rfl rfl
        · next hroom =>
          generalize hbudget : min (maxHedgedBlocks - (doubled t.mgr head).card)
            maxHedgesPerTick = budget
          generalize adaptiveHedgeAfterMs u t.peers = hedgeAfterMs
          have hnone : Hedged u head budget t.mgr t.peers (t.mgr, t.peers, 0) :=
            ⟨[], .start, rfl, Nat.zero_le _⟩
          obtain ⟨copies, hcopies, _, hwithin⟩ :=
            hedgePeers_hedged budget hedgeAfterMs now answers
              (List.range maxActivePeers) _ _ _ hnone
          exact .copies head copies hhead hcopies (by omega) (by omega)

/-- What else a call leaves alone. -/
theorem scheduleHedgedRequests_rest (u : Setup) (t : Torrent) (now : Nat)
    (answers : Nat → Nat → Answer) : (scheduleHedgedRequests u t now answers).machine =
        { t.machine with mgr := (scheduleHedgedRequests u t now answers).mgr } ∧
      (scheduleHedgedRequests u t now answers).startupVerifying = t.startupVerifying ∧
      (scheduleHedgedRequests u t now answers).fatalError = t.fatalError := by
  unfold scheduleHedgedRequests
  split
  · exact ⟨rfl, rfl, rfl⟩
  · split
    · exact ⟨rfl, rfl, rfl⟩
    · dsimp only
      split
      · exact ⟨rfl, rfl, rfl⟩
      · split <;> exact ⟨rfl, rfl, rfl⟩

end Loops

end TorrentEngine
