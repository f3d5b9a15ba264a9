import Pipensx.PieceFrames

/-!
# A piece is hashing while its job is in the ring

The state of a slot and the ring are changed by different functions: `hash_enqueue` sets
both, `hash_apply` takes the job off first and the slot is changed after. The slot of a job
that has been taken off and not yet applied still counts as hashing. What breaks the
agreement is a check of what is on disk that gets to a piece while it is hashing.
-/

namespace PieceManager

open PieceGeometry Storage

/-- The pieces of the jobs in the ring, from the head on. -/
def Mgr.ringPieces (s : Mgr) : List Nat :=
  (List.range s.hashQCount).map (fun k => (s.hashQ (s.entry k)).idx)

/-- The pieces whose hash result is still to be applied. -/
def Machine.owed (m : Machine) : List Nat :=
  (m.pc.flight.map HashJob.idx).toList ++ m.mgr.ringPieces

/-- The slots that are hashing are those of the jobs, one job each. -/
structure HashingMatches (m : Machine) : Prop where
  hashing_iff : ∀ i, (m.mgr.slots i).state = .hashing ↔ i ∈ m.owed
  once : m.owed.Nodup

/-- An action that is no fast resume, and no check of a piece that is hashing; a check that
ends for want of a scratch buffer does no harm. -/
def Act.Spares (c : Config) (m : Machine) : Act → Prop
  | .call (.checkExisting idx) env => (m.mgr.slots idx).state = .hashing →
      storageRangeSkipped m.mgr.store (absOff c.mi idx) (plenOf c idx) = false ∧
        m.mgr.verifyBuf = false ∧ env.alloc = false
  | .call (.presetHave _ _) _ => False
  | _ => True

section Ring

variable {s : Mgr}

theorem ringPieces_of_ring {s' : Mgr} (h : s'.ring = s.ring) : s'.ringPieces = s.ringPieces := by
  obtain ⟨hq, hcount, _, hentry⟩ := ring_fields h
  simp only [Mgr.ringPieces, hentry, hq, hcount]

theorem ringPieces_popHead (head : s.hashQHead < hashQueueMax) (pos : 0 < s.hashQCount) :
    s.ringPieces = s.headJob.idx :: s.popHead.ringPieces := by
  obtain ⟨n, hn⟩ : ∃ n, s.hashQCount = n + 1 := ⟨s.hashQCount - 1, by omega⟩
  have hn' : s.popHead.hashQCount = n := by simp [Mgr.popHead, hn]
  rw [Mgr.ringPieces, Mgr.ringPieces, hn, hn', List.range_succ_eq_map, List.map_cons, List.map_map,
    entry_zero head]
  congr 1
  apply List.map_congr_left
  intro k _
  rw [entry_popHead]
  rfl

theorem ringPieces_pushJob (room : s.hashQCount < hashQueueMax) (idx plen : Nat) :
    (s.pushJob idx plen).ringPieces = s.ringPieces ++ [idx] := by
  have hcount : (s.pushJob idx plen).hashQCount = s.hashQCount + 1 := rfl
  have hentry : ∀ k, (s.pushJob idx plen).entry k = s.entry k := fun _ => rfl
  simp only [Mgr.ringPieces, hcount, List.range_succ, List.map_append, List.map_singleton, hentry]
  congr 1
  · apply List.map_congr_left
    intro k hk
    have hlt := List.mem_range.mp hk
    have hne := entry_ne s (by omega) room (Nat.ne_of_lt hlt)
    simp [Mgr.pushJob, Mgr.setSlot, hne]
  · simp [Mgr.pushJob, Mgr.setSlot]

theorem ringPieces_publish (s : Mgr) (entry : Nat) (ok : Bool) :
    (s.publish entry ok).ringPieces = s.ringPieces := by
  have hentry : ∀ k, (s.publish entry ok).entry k = s.entry k := fun _ => rfl
  have hcount : (s.publish entry ok).hashQCount = s.hashQCount := rfl
  simp only [Mgr.ringPieces, hcount, hentry]
  apply List.map_congr_left
  intro k _
  by_cases hk : s.entry k = entry
  · simp [Mgr.publish, hk]
  · simp [Mgr.publish, hk]

end Ring

section Slots

variable {c : Config} {s s' : Mgr} {i : Nat}

/-- Only `hash_enqueue` makes a slot hashing. -/
theorem Edit.hashing {l : Licence} (h : Edit c l s s') (hashing : (s'.slots i).state = .hashing) :
    (s.slots i).state = .hashing := by
  have slot : ∀ {idx : Nat} {sl : Slot}, s'.slots = Function.update s.slots idx sl →
      (sl.state = .hashing → (s.slots idx).state = .hashing) → (s.slots i).state = .hashing := by
    intro idx sl hslots hstate
    rw [hslots] at hashing
    by_cases hii : i = idx
    · subst hii
      rw [Function.update_self] at hashing
      exact hstate hashing
    · rwa [Function.update_of_ne hii] at hashing
  cases h with
  | flags v ok started lookahead first => exact hashing
  | count idx block f =>
    obtain ⟨counts, hcounts⟩ := setCount_eq c s idx block f
    rw [hcounts] at hashing
    by_cases hii : i = idx
    · subst hii
      simpa [Mgr.setSlot] using hashing
    · simpa [Mgr.setSlot, hii] using hashing
  | pending idx hidx hempty => exact slot rfl (by rintro ⟨⟩)
  | buffer idx alloc hidx hopen => exact slot (slotBuf_slots alloc s idx) id
  | block idx offset data b hidx hopen hbuf _ _ hblk =>
    exact slot (storeBlock_slots c s data b hidx hblk) (by simp)
  | reset idx hidx => exact slot (resetPiece_slots c s idx) (by rintro ⟨⟩)
  | skipped idx => exact slot (markDoneUnhashed_slots c s idx false) (by rintro ⟨⟩)
  | readable idx => exact slot (markDoneUnhashed_slots c s idx true) (by rintro ⟨⟩)
  | written idx io st _ _ _ _ _ _ =>
    by_cases hii : i = idx
    · subst hii
      simp [Mgr.setSlot] at hashing
    · simpa [Mgr.setSlot, hii] using hashing
  | refused idx io st _ _ _ _ =>
    exact slot (resetPiece_slots c { s with store := st } idx) (by rintro ⟨⟩)

theorem verifyPiece_hashing (alloc : Bool) {idx : Nat} (hashing : (s.slots i).state = .hashing) :
    (verifyPiece c alloc s idx).1.slots i = s.slots i := by
  by_cases hii : i = idx
  · subst hii
    simp only [verifyPiece]
    split
    · rfl
    · rw [if_pos (by rw [hashing]; decide)]
  · exact verifyPiece_state alloc s (fun heq => absurd heq hii)

/-- A call leaves a piece alone that is hashing, unless it checks what is on disk. -/
theorem start_hashing (env : Env) {m : Machine} {call : Call}
    (spares : Act.Spares c m (.call call env)) (hashing : (m.mgr.slots i).state = .hashing) :
    ((start c m.mgr env call).1.slots i).state = .hashing := by
  have hclosed : ¬ (m.mgr.slots i).Open := not_open_of_hashing hashing
  cases call with
  | markPending idx =>
    by_cases hii : i = idx
    · subst hii
      simp only [start, markPending_closed env.alloc hclosed]
      exact hashing
    · simp only [start, markPending_other env.alloc m.mgr hii]
      exact hashing
  | gotBlock idx offset data =>
    rw [start_gotBlock]
    by_cases hii : i = idx
    · subst hii
      rw [gotBlock_closed env offset data hclosed]
      exact hashing
    · rw [gotBlock_other env m.mgr offset data hii]
      exact hashing
  | drainHashResults =>
    rw [start_drainHashResults]
    exact hashing
  | hashFlush =>
    rw [start_hashFlush]
    exact hashing
  | verifyPiece idx =>
    simp only [start, verifyPiece_hashing env.alloc hashing]
    exact hashing
  | checkExisting idx =>
    by_cases hii : i = idx
    · subst hii
      obtain ⟨hwanted, hnone, hrefused⟩ := spares hashing
      simp only [start, checkExisting, hwanted, verifyScratch, hnone, hrefused]
      split <;> exact hashing
    · simp only [start, checkExisting_other env.alloc m.mgr hii]
      exact hashing
  | presetHave bf bfLen => exact absurd spares id
  | markBlockRequested idx block => exact (setCount_other c m.mgr block _ i).trans hashing
  | clearBlockRequested idx block => exact (setCount_other c m.mgr block _ i).trans hashing
  | setStrictPolicy lookahead first => exact hashing

end Slots

section Machine

variable {c : Config} {m m' : Machine}

theorem HashingMatches.same (h : HashingMatches m) (owed : m'.owed = m.owed)
    (slots : ∀ i, (m'.mgr.slots i).state = .hashing ↔ (m.mgr.slots i).state = .hashing) :
    HashingMatches m' := by
  constructor
  · intro i
    rw [slots, owed]
    exact h.hashing_iff i
  · rw [owed]
    exact h.once

theorem HashingMatches.call (h : HashingMatches m) (env : Env) {call : Call} (idle : m.pc = .idle)
    (spares : Act.Spares c m (.call call env)) :
    HashingMatches ⟨(start c m.mgr env call).1, (start c m.mgr env call).2.1, m.worker⟩ := by
  have hedits := (start_edits c m.mgr env call).1
  refine h.same ?_ ?_
  · have hidle : m.pc.flight = none := by
      rw [idle]
      rfl
    simp only [Machine.owed, (start_pc c m.mgr env call).1, ringPieces_of_ring hedits.ring, hidle]
  · intro i
    refine ⟨?_, start_hashing env spares⟩
    exact hedits.induction (P := fun s => (s.slots i).state = .hashing →
      (m.mgr.slots i).state = .hashing)
      (fun _ _ hold hedit hashing => hold (hedit.hashing hashing)) id

theorem HashingMatches.push (h : HashingMatches m) (buffers : BuffersOwned c m) {idx plen : Nat}
    (entering : m.pc.entering = some (idx, plen)) (none : m.pc.flight = none)
    (room : m.mgr.hashQCount < hashQueueMax) : HashingMatches (pushStep m idx plen).1 := by
  obtain ⟨⟨_, hpending, _, _⟩, _, _⟩ := buffers.entering idx plen entering
  have howed : m.owed = m.mgr.ringPieces := by simp [Machine.owed, none]
  have howed' : (pushStep m idx plen).1.owed = m.mgr.ringPieces ++ [idx] := by
    simp [Machine.owed, pushStep, Pc.flight, ringPieces_pushJob room]
  have hnew : idx ∉ m.mgr.ringPieces := by
    rw [← howed, ← h.hashing_iff, hpending]
    decide
  constructor
  · intro i
    rw [howed', List.mem_append, List.mem_singleton, ← howed, ← h.hashing_iff]
    by_cases hii : i = idx
    · subst hii
      simp [pushStep, Mgr.pushJob, Mgr.setSlot]
    · simp [pushStep, Mgr.pushJob, Mgr.setSlot, hii]
  · rw [howed', List.nodup_append]
    refine ⟨howed ▸ h.once, by simp, ?_⟩
    intro i hi j hj heq
    rw [List.mem_singleton.mp hj] at heq
    subst heq
    exact hnew hi

/-- `hash_apply` finds the slot of its job hashing. -/
theorem HashingMatches.applies (h : HashingMatches m) {job : HashJob}
    (flight : m.pc.flight = some job) : (m.mgr.slots job.idx).state = .hashing := by
  rw [h.hashing_iff]
  simp [Machine.owed, flight]

theorem HashingMatches.apply (h : HashingMatches m) {job : HashJob}
    (flight : m.pc.flight = some job) (io : Faults) (next : Resume) :
    HashingMatches ⟨(hashApply c io m.mgr job).1, next.pc, m.worker⟩ := by
  have happlied := hashApply_applied c io m.mgr job
  have howed : m.owed = job.idx :: m.mgr.ringPieces := by simp [Machine.owed, flight]
  have hnone : next.pc.flight = none := by cases next <;> rfl
  have howed' : (⟨(hashApply c io m.mgr job).1, next.pc, m.worker⟩ : Machine).owed =
    m.mgr.ringPieces := by
    simp [Machine.owed, hnone, ringPieces_of_ring happlied.ring.1]
  have honce := h.once
  rw [howed, List.nodup_cons] at honce
  have hdone : ((hashApply c io m.mgr job).1.slots job.idx).state ≠ .hashing := by
    generalize (hashApply c io m.mgr job).1 = s', (hashApply c io m.mgr job).2 = report at happlied
    cases happlied with
    | stale hstale => exact absurd (h.applies flight) hstale
    | mismatch _ _ => simp [Slot.cleared]
    | refused _ st _ _ _ => simp [Slot.cleared]
    | written _ st _ _ _ => simp
  have hothers : ∀ i, i ≠ job.idx → (hashApply c io m.mgr job).1.slots i = m.mgr.slots i := by
    intro i hne
    generalize (hashApply c io m.mgr job).1 = s', (hashApply c io m.mgr job).2 = report at happlied
    cases happlied with
    | stale _ => simp
    | mismatch _ _ => simp [Mgr.attach, Mgr.setSlot, hne]
    | refused _ st _ _ _ => simp [Mgr.attach, Mgr.setSlot, hne]
    | written _ st _ _ _ => simp [hne]
  constructor
  · intro i
    rw [howed']
    by_cases hii : i = job.idx
    · subst hii
      exact ⟨fun hashing => absurd hashing hdone, fun hmem => absurd hmem honce.1⟩
    · rw [hothers i hii, h.hashing_iff, howed, List.mem_cons]
      simp [hii]
  · rw [howed']
    exact honce.2

theorem HashingMatches.transition {act : Act} {events : List Event} (h : HashingMatches m)
    (buffers : BuffersOwned c m) (spares : act.Spares c m) (t : Transition c m act m' events) :
    HashingMatches m' := by
  cases t with
  | call call env hpc => exact h.call env hpc spares
  | drained flushing hpc _ =>
    exact h.same (by simp [Machine.owed, hpc, Pc.flight]) (fun _ => Iff.rfl)
  | pop next hpc hpos _ =>
    have hnone : m.pc.flight = none := by
      rw [hpc]
      exact (before_facts next).1
    have howed : m.owed = m.mgr.ringPieces := by simp [Machine.owed, hnone]
    refine h.same ?_ (fun _ => Iff.rfl)
    rw [howed, ringPieces_popHead buffers.head hpos]
    rfl
  | awaited hpc _ => exact h.same (by simp [Machine.owed, hpc, Pc.flight]) (fun _ => Iff.rfl)
  | push idx plen hpc =>
    obtain ⟨hflight, hentering, hroom, _⟩ := buffers.pushing hpc
    exact h.push buffers hentering hflight hroom
  | apply io job next hpc => exact h.apply (by rw [hpc]; rfl) io next
  | take _ _ => exact h.same rfl (fun _ => Iff.rfl)
  | hash entry idx buf plen _ => exact h.same rfl (fun _ => Iff.rfl)
  | publish entry idx buf plen ok _ =>
    exact h.same (by simp [Machine.owed, ringPieces_publish]) (fun _ => Iff.rfl)

end Machine

end PieceManager
