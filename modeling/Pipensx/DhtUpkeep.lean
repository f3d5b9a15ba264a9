import Pipensx.DhtSplit

/-!
# Maintenance and answers

What expires buckets, asks for nodes and answers a request only moves what `Moves` allows.
-/

namespace Dht

section Upkeep

variable (w : World) (s : State)

variable {s} in
/-- A bucket drops the nodes of one kind and counts them off. -/
theorem moves_filterBucket {i : Nat} {b : Bucket} (hb : s.buckets[i]? = some b) (p : Node → Bool) :
    Moves s (s.modifyBucket i fun c =>
      { c with nodes := c.nodes.filter fun n => !p n,
               count := c.count - (b.nodes.filter p).length }) := by
  refine moves_modifyBucket s i (fun _ => rfl) (fun _ => rfl) (fun c hc hok => ?_)
  obtain rfl : b = c := by simpa [hb] using hc
  exact hok.filter p

/-- `expire_buckets` moves, and sets the time of the next expiry. -/
theorem moves_expireBuckets : ∃ s1, Moves s s1 ∧
    expireBuckets w s = { s1 with expireStuffTime := (expireBuckets w s).expireStuffTime } := by
  unfold expireBuckets
  refine ⟨_, Moves.trans ?_ (moves_draw w _), rfl⟩
  apply Moves.foldl
  intro s i
  split
  · exact Moves.refl s
  · next b hb =>
    have hdrop := moves_filterBucket hb fun n => decide (n.pinged ≥ 4)
    dsimp only
    split
    · exact hdrop.trans (moves_sendCachedPing _ i)
    · exact hdrop

theorem moves_sometimes (always : Bool) : Moves s (sometimes w s always).2 := by
  unfold sometimes
  split
  · exact Moves.refl s
  · exact moves_draw w s

theorem moves_pickBucket (i : Nat) : Moves s (pickBucket w s i).2 := by
  unfold pickBucket
  have hnext : Moves s (if i + 1 < s.buckets.length then
      sometimes w s (decide ((s.buckets[i]?.map Bucket.count).getD 0 = 0)) else (false, s)).2 := by
    split
    · exact moves_sometimes w s _
    · exact Moves.refl s
  dsimp only
  generalize (if i + 1 < s.buckets.length then
    sometimes w s (decide ((s.buckets[i]?.map Bucket.count).getD 0 = 0)) else (false, s)) =
      r at hnext
  obtain ⟨next, s1⟩ := r
  have hback := fun always => moves_sometimes w s1 always
  dsimp only at hnext ⊢
  generalize (if next = true then i + 1 else i) = q
  cases previousBucket i with
  | none => exact hnext.trans (hback _)
  | some p =>
    dsimp only
    split <;> exact hnext.trans (hback _)

theorem moves_askRandomNode (q : Nat) (id : Id) : Moves s (askRandomNode w s q id).2 := by
  unfold askRandomNode
  split
  · exact Moves.refl s
  · next b _ =>
    split
    · exact Moves.refl s
    · simp only [State.draw]
      have hdraw : Moves s { s with draws := s.draws + 1 } := Moves.aside rfl rfl rfl rfl
      split
      · exact hdraw
      · next j n _ => exact hdraw.trans ((moves_send _ _ _ _).trans (moves_pinged _ q j (some q)))

theorem moves_neighbourhoodMaintenance : Moves s (neighbourhoodMaintenance w s).2 := by
  unfold neighbourhoodMaintenance
  split
  · exact Moves.refl s
  · next b _ =>
    exact (moves_draw w s).trans ((moves_pickBucket w _ b).trans (moves_askRandomNode w _ _ _))

theorem moves_bucketMaintenanceLoop (left i : Nat) (s : State) :
    Moves s (bucketMaintenanceLoop w left i s).2 := by
  induction left generalizing i s with
  | zero => exact Moves.refl s
  | succ left ih =>
    rw [bucketMaintenanceLoop]
    split
    · exact Moves.refl s
    · next b _ =>
      dsimp only
      split
      · generalize bucketRandom w.random s.draws s.buckets i b = r
        obtain ⟨id, draws⟩ := r
        have hdraw : Moves s { s with draws := draws } := Moves.aside rfl rfl rfl rfl
        have hpick := moves_pickBucket w { s with draws := draws } i
        dsimp only
        generalize pickBucket w { s with draws := draws } i = p at hpick
        obtain ⟨q, s1⟩ := p
        have hask := moves_askRandomNode w s1 q id
        dsimp only at hpick ⊢
        generalize askRandomNode w s1 q id = a at hask
        obtain ⟨done, s2⟩ := a
        have h2 : Moves s s2 := hdraw.trans (hpick.trans hask)
        cases done with
        | true => exact h2
        | false => exact h2.trans (ih (i + 1) s2)
      · exact ih (i + 1) s

theorem moves_bucketMaintenance : Moves s (bucketMaintenance w s).2 :=
  moves_bucketMaintenanceLoop w _ 0 s

/-- The answers to requests for nodes and peers. -/
theorem moves_sendClosestNodes (sa : Endpoint) (tid : List UInt8) (id : Id) (want : Nat)
    (st : Option (List Peer)) (token : List UInt8) :
    Moves s (sendClosestNodes w s sa tid id want st token) := by
  unfold sendClosestNodes
  dsimp only
  split
  · exact moves_send s sa _ _
  · exact (moves_draw w s).trans (moves_send _ sa _ _)

theorem moves_heardOf (sr : Option Nat) (c : Contact) (hgood : s.Good) :
    Moves s (heardOf w sr s c) := by
  unfold heardOf
  split
  · exact Moves.refl s
  · have hnew := moves_newNode w s c.id c.ss 0 hgood
    dsimp only
    split
    · exact hnew
    · exact hnew.trans (moves_insertSearchNode _ _ _ _ _ _)

theorem moves_handleAnnounced (sa : Endpoint) (m : Message) (tid : UInt16) (hgood : s.Good) :
    Moves s (handleAnnounced w s sa m tid) := by
  unfold handleAnnounced
  split
  · exact moves_newNode w s m.id sa 1 hgood
  · next k _ =>
    have hnew := moves_newNode w s m.id sa 2 hgood
    dsimp only
    split
    · exact hnew.trans (moves_searchSendGetPeers _ k none)
    · refine hnew.trans (Moves.trans ?_ (moves_searchSendGetPeers _ k none))
      exact moves_modifySearchNode _ k _ (fun _ => rfl) (fun _ h => h)

end Upkeep

end Dht
