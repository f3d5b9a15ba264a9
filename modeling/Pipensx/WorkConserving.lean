import Mathlib.Data.Nat.Count
import Pipensx.EngineRuns
import Pipensx.OrderCursor

/-!
# Work that the picker leaves undone

A piece is worth picking when one of its blocks is neither here nor asked for. The strict
scan looks for such a piece. The second pass of the other scan takes the first piece that
is not done, also when all its blocks are asked for, and the caller then stops.
-/

namespace PieceManager

open PieceGeometry Storage ByteBits

/-- Some block is neither received nor asked for. -/
def Slot.HasWork (sl : Slot) : Prop :=
  ∃ b < sl.numBlocks, blockIsSet sl b = false ∧ sl.requestCounts b = 0

theorem slotHasRequestableBlock_iff (sl : Slot) :
    slotHasRequestableBlock sl = true ↔ sl.HasWork := by
  simp [slotHasRequestableBlock, Slot.HasWork, List.any_eq_true]

instance (sl : Slot) : Decidable sl.HasWork :=
  decidable_of_iff _ (slotHasRequestableBlock_iff sl)

instance (c : Config) (s : Mgr) : DecidablePred (Passed c s) :=
  fun _ => inferInstanceAs (Decidable (_ ∨ _))

/-- The lookahead of the strict order, with its default. -/
def lookaheadOf (s : Mgr) : Nat :=
  if s.strictLookahead ≠ 0 then s.strictLookahead else strictOrderLookahead

/-- An unfinished position of the order among the first `lookahead` unfinished ones, with
no disallowed piece at it or before. -/
structure InWindow (c : Config) (s : Mgr) (allowed : Nat → Bool) (n : Nat) : Prop where
  inside : n < orderCount c
  unfinished : ¬ Passed c s n
  permitted : ∀ m ≤ n, ¬ Passed c s m → allowed (orderPieceAt c m) = true
  near : Nat.count (fun m => ¬ Passed c s m) n < lookaheadOf s

/-- What the application and the order allow to be asked for. -/
def Offered (c : Config) (s : Mgr) (allowed : Nat → Bool) (i : Nat) : Prop :=
  if c.strictOrder then ∃ n, InWindow c s allowed n ∧ orderPieceAt c n = i else allowed i = true

structure Eligible (c : Config) (s : Mgr) (allowed : Nat → Bool) (peerBf : Nat → UInt8)
    (bfBytes i : Nat) : Prop where
  requestable : Requestable c s i
  peer : peerHas peerBf bfBytes i = true
  offered : Offered c s allowed i

/-- An eligible piece with a free block. -/
def Worthwhile (c : Config) (s : Mgr) (allowed : Nat → Bool) (peerBf : Nat → UInt8)
    (bfBytes i : Nat) : Prop :=
  Eligible c s allowed peerBf bfBytes i ∧ (s.slots i).HasWork

/-- Where there is work for the peer, some of it is picked. -/
def WorkConserving (c : Config) (s : Mgr) (allowed : Nat → Bool) (peerBf : Nat → UInt8)
    (bfBytes : Nat) : Prop :=
  (∃ i, Worthwhile c s allowed peerBf bfBytes i) →
    ∃ i, pick c s allowed peerBf bfBytes = some i ∧ Worthwhile c s allowed peerBf bfBytes i

/-- Some eligible piece is untouched, or no eligible piece has a free block that the
lowest of them has not. -/
def LowestServes (c : Config) (s : Mgr) (allowed : Nat → Bool) (peerBf : Nat → UInt8)
    (bfBytes : Nat) : Prop :=
  (∃ i, Eligible c s allowed peerBf bfBytes i ∧ (s.slots i).state = .empty) ∨
    ∀ i, Eligible c s allowed peerBf bfBytes i →
      (∀ j < i, ¬ Eligible c s allowed peerBf bfBytes j) →
      (∃ j, Worthwhile c s allowed peerBf bfBytes j) → (s.slots i).HasWork

/-- A piece that was not started has no block, and none is asked for. -/
def Slot.Blank (sl : Slot) : Prop :=
  sl.state = .empty → ∀ b, blockIsSet sl b = false ∧ sl.requestCounts b = 0

theorem Slot.Blank.hasWork {sl : Slot} (h : sl.Blank) (empty : sl.state = .empty)
    (blocks : 0 < sl.numBlocks) : sl.HasWork :=
  ⟨0, blocks, h empty 0⟩

/-- What the picker relies on. -/
structure PickReady (c : Config) (s : Mgr) : Prop where
  blank : ∀ i, (s.slots i).Blank
  frontier : NoRepeat c → Frontier c s

theorem blank_cleared (sl : Slot) : sl.cleared.Blank := by
  intro _ b
  simp [blockIsSet, Slot.cleared]

theorem blank_of_ne {sl : Slot} (h : sl.state ≠ .empty) : sl.Blank := fun hempty => absurd hempty h

section Blank

variable {c : Config} {s s' : Mgr} {idx : Nat}

theorem blank_slot (h : ∀ i, (s.slots i).Blank) {sl : Slot}
    (slots : s'.slots = Function.update s.slots idx sl) (blank : sl.Blank) :
    ∀ i, (s'.slots i).Blank := by
  intro i
  rw [slots]
  by_cases hi : i = idx
  · subst hi
    rwa [Function.update_self]
  · rw [Function.update_of_ne hi]
    exact h i

theorem blank_reset (h : ∀ i, (s.slots i).Blank) : ∀ i, ((resetPiece c s idx).slots i).Blank :=
  blank_slot h (resetPiece_slots c s idx) (blank_cleared _)

theorem blank_edit {l : Licence} (unrequested : l.request = false) (h : ∀ i, (s.slots i).Blank)
    (edit : Edit c l s s') : ∀ i, (s'.slots i).Blank := by
  cases edit with
  | flags v ok started lookahead first => exact h
  | count idx block f hf =>
    rcases hf with hf | hrequest
    · rcases setCount_slots c s idx block f with hsame | ⟨_, hslots⟩
      · rwa [hsame]
      · refine blank_slot h hslots ?_
        intro hempty b
        obtain ⟨hmissing, hzero⟩ := h idx hempty b
        refine ⟨hmissing, ?_⟩
        by_cases hb : b = block
        · subst hb
          have hle := hf ((s.slots idx).requestCounts b)
          rw [hzero] at hle
          simpa [hzero] using hle
        · simpa [hb] using hzero
    · rw [unrequested] at hrequest
      cases hrequest
  | pending idx _ _ => exact blank_slot h rfl (blank_of_ne (by simp))
  | buffer idx alloc _ _ => exact blank_slot h (slotBuf_slots alloc s idx) (h idx)
  | block idx offset data b hidx _ _ _ _ hblk =>
    exact blank_slot h (storeBlock_slots c s data b hidx hblk) (blank_of_ne (by simp))
  | reset idx _ => exact blank_reset h
  | skipped idx _ _ _ _ => exact blank_slot h rfl (blank_of_ne (by simp [Slot.filled]))
  | readable idx _ _ _ => exact blank_slot h rfl (blank_of_ne (by simp [Slot.filled]))
  | written idx io st => exact blank_slot h (written_slots c s idx st) (blank_of_ne (by simp))
  | refused idx io st => exact blank_reset (s := { s with store := st }) h

theorem blank_applied (h : ∀ i, (s.slots i).Blank) {job : HashJob} {report : Option (Nat × Int)}
    (applied : Applied c s job s' report) : ∀ i, (s'.slots i).Blank := by
  cases applied with
  | stale _ => simpa using h
  | mismatch _ _ =>
    refine blank_slot ?_ (resetPiece_slots c _ job.idx) (blank_cleared _)
    exact blank_slot h rfl (h job.idx)
  | refused io st _ _ _ =>
    refine blank_slot ?_ (resetPiece_slots c _ job.idx) (blank_cleared _)
    exact blank_slot h rfl (h job.idx)
  | written io st _ _ _ =>
    exact blank_slot h (applied_slots c s job st) (blank_of_ne (by simp))

theorem blank_transition {m m' : Machine} {act : Act} {events : List Event}
    (unrequested : act.licence.request = false) (h : ∀ i, (m.mgr.slots i).Blank)
    (t : Transition c m act m' events) : ∀ i, (m'.mgr.slots i).Blank := by
  cases t with
  | call call env _ =>
    obtain ⟨hedits, _⟩ := start_edits c m.mgr env call
    exact hedits.induction (P := fun s => ∀ i, (s.slots i).Blank)
      (fun _ _ hold hedit => blank_edit unrequested hold hedit) h
  | push idx plen _ => exact blank_slot h rfl (blank_of_ne (by simp))
  | apply io job next _ => exact blank_applied h (hashApply_applied c io m.mgr job)
  | _ => exact h

/-- Asking for a block of a piece that was started. -/
theorem blank_mark (h : ∀ i, (s.slots i).Blank) {block : Nat}
    (started : (s.slots idx).state ≠ .empty) :
    ∀ i, ((markBlockRequested c s idx block).slots i).Blank := by
  rcases setCount_slots c s idx block (fun n => if n ≠ 255 then n + 1 else n) with
    hsame | ⟨_, hslots⟩
  · rw [markBlockRequested, hsame]
    exact h
  · exact blank_slot h hslots (blank_of_ne started)

end Blank

section Ready

variable {c : Config}

theorem PickReady.edits {s s' : Mgr} {l : Licence} (unrequested : l.request = false)
    (h : PickReady c s) (edits : Edits c l s s') : PickReady c s' := by
  refine edits.induction (P := PickReady c) ?_ h
  intro s s' hold hedit
  exact ⟨blank_edit unrequested hold.blank hedit, fun single =>
    (hold.frontier single).edit single hedit⟩

theorem PickReady.start {s : Mgr} (h : PickReady c s) (call : Call) (env : Env)
    (unrequested : call.licence.request = false) : PickReady c (start c s env call).1 :=
  h.edits unrequested (start_edits c s env call).1

theorem PickReady.transition {m m' : Machine} {act : Act} {log events : List Event}
    (h : PickReady c m.mgr) (sound : MachineSound c m log)
    (unrequested : act.licence.request = false) (t : Transition c m act m' events) :
    PickReady c m'.mgr :=
  ⟨blank_transition unrequested h.blank t,
    fun single => (h.frontier single).transition single sound.buffers sound.ring t⟩

theorem PickReady.run (wf : TorrentLayout.WellFormed c.mi) {m m' : Machine} (h : PickReady c m.mgr)
    (settled : Settled c m) {acts : List Act} {events : List Event}
    (plain : ∀ act ∈ acts, act.Plain) (hrun : run c m acts = some (m', events)) :
    PickReady c m'.mgr := by
  obtain ⟨log, hsound⟩ := settled.sound
  have key := run_induction (fun m1 log => MachineSound c m1 log ∧ PickReady c m1.mgr) Act.Plain
    ?_ log hrun plain ⟨hsound, h⟩
  · exact key.2
  · rintro m1 log act m2 events ⟨hsound, hold⟩ hplain hstep
    exact ⟨hsound.step wf hstep, hold.transition hsound (by rw [hplain]) (step_transition hstep)⟩

theorem PickReady.mark {s : Mgr} (h : PickReady c s) {idx block : Nat}
    (started : (s.slots idx).state ≠ .empty) : PickReady c (markBlockRequested c s idx block) := by
  refine ⟨blank_mark h.blank started, fun single => ?_⟩
  have hedit : Edit c ⟨false, false, true⟩ s (markBlockRequested c s idx block) :=
    Edit.count s idx block _ (Or.inr rfl)
  exact (h.frontier single).edit single hedit

end Ready

section Strict

variable {c : Config} {s : Mgr} {allowed : Nat → Bool} {peerBf : Nat → UInt8} {bfBytes : Nat}

/-- A position of the window with work for the peer. -/
structure WorkAt (c : Config) (s : Mgr) (allowed : Nat → Bool) (peerBf : Nat → UInt8)
    (bfBytes n : Nat) : Prop where
  window : InWindow c s allowed n
  requestable : Requestable c s (orderPieceAt c n)
  peer : peerHas peerBf bfBytes (orderPieceAt c n) = true
  work : (s.slots (orderPieceAt c n)).HasWork

theorem WorkAt.worthwhile (strict : c.strictOrder = true) {n : Nat}
    (h : WorkAt c s allowed peerBf bfBytes n) :
    Worthwhile c s allowed peerBf bfBytes (orderPieceAt c n) := by
  refine ⟨⟨h.requestable, h.peer, ?_⟩, h.work⟩
  rw [Offered, if_pos strict]
  exact ⟨n, h.window, rfl⟩

theorem Worthwhile.workAt (strict : c.strictOrder = true) {i : Nat}
    (h : Worthwhile c s allowed peerBf bfBytes i) : ∃ n, WorkAt c s allowed peerBf bfBytes n := by
  obtain ⟨⟨hopen, hpeer, hoffered⟩, hwork⟩ := h
  rw [Offered, if_pos strict] at hoffered
  obtain ⟨n, hwindow, rfl⟩ := hoffered
  exact ⟨n, hwindow, hopen, hpeer, hwork⟩

/-- A candidate of the scan is worth picking. -/
def Candidate (c : Config) (s : Mgr) (allowed : Nat → Bool) (peerBf : Nat → UInt8) (bfBytes : Nat)
    (o : Option Nat) : Prop :=
  ∀ i, o = some i → Worthwhile c s allowed peerBf bfBytes i

/-- What is known when the scan stands at position `n`. -/
structure Scanned (c : Config) (s : Mgr) (allowed : Nat → Bool) (peerBf : Nat → UInt8)
    (bfBytes n unfinished : Nat) (pending empty : Option Nat) : Prop where
  counted : unfinished = Nat.count (fun m => ¬ Passed c s m) n
  before : ∀ m < n, ¬ Passed c s m → allowed (orderPieceAt c m) = true
  started : Candidate c s allowed peerBf bfBytes pending
  untouched : Candidate c s allowed peerBf bfBytes empty
  seen : ∀ m < n, WorkAt c s allowed peerBf bfBytes m → pending.or empty ≠ none

section Scan

variable {n unfinished : Nat} {pending empty : Option Nat}

/-- Nothing is left to see, so the candidates are the answer. -/
theorem Scanned.stop (h : Scanned c s allowed peerBf bfBytes n unfinished pending empty)
    (rest : ∀ m, WorkAt c s allowed peerBf bfBytes m → m < n)
    (work : ∃ m, WorkAt c s allowed peerBf bfBytes m) :
    ∃ i, pending.or empty = some i ∧ Worthwhile c s allowed peerBf bfBytes i := by
  obtain ⟨m, hm⟩ := work
  obtain ⟨i, hi⟩ := Option.ne_none_iff_exists'.mp (h.seen m (rest m hm) hm)
  refine ⟨i, hi, ?_⟩
  rcases Option.or_eq_some_iff.mp hi with hpending | ⟨_, hempty⟩
  · exact h.started i hpending
  · exact h.untouched i hempty

theorem Scanned.passed (h : Scanned c s allowed peerBf bfBytes n unfinished pending empty)
    (hpassed : Passed c s n) :
    Scanned c s allowed peerBf bfBytes (n + 1) unfinished pending empty := by
  refine ⟨?_, ?_, h.started, h.untouched, ?_⟩
  · rw [Nat.count_succ, if_neg (not_not.mpr hpassed), Nat.add_zero]
    exact h.counted
  · intro m hm hopen
    rcases Nat.lt_succ_iff_lt_or_eq.mp hm with hlt | rfl
    · exact h.before m hlt hopen
    · exact absurd hpassed hopen
  · intro m hm hwork
    rcases Nat.lt_succ_iff_lt_or_eq.mp hm with hlt | rfl
    · exact h.seen m hlt hwork
    · exact absurd hpassed hwork.window.unfinished

/-- One more unfinished position was looked at. -/
theorem Scanned.next (h : Scanned c s allowed peerBf bfBytes n unfinished pending empty)
    (hopen : ¬ Passed c s n) (hallowed : allowed (orderPieceAt c n) = true)
    {pending' empty' : Option Nat} (hpending : Candidate c s allowed peerBf bfBytes pending')
    (hempty : Candidate c s allowed peerBf bfBytes empty')
    (kept : pending.or empty ≠ none → pending'.or empty' ≠ none)
    (here : WorkAt c s allowed peerBf bfBytes n → pending'.or empty' ≠ none) :
    Scanned c s allowed peerBf bfBytes (n + 1) (unfinished + 1) pending' empty' := by
  refine ⟨?_, ?_, hpending, hempty, ?_⟩
  · rw [Nat.count_succ, if_pos hopen, h.counted]
  · intro m hm hm'
    rcases Nat.lt_succ_iff_lt_or_eq.mp hm with hlt | rfl
    · exact h.before m hlt hm'
    · exact hallowed
  · intro m hm hwork
    rcases Nat.lt_succ_iff_lt_or_eq.mp hm with hlt | rfl
    · exact kept (h.seen m hlt hwork)
    · exact here hwork

theorem Scanned.window (h : Scanned c s allowed peerBf bfBytes n unfinished pending empty)
    (inside : n < orderCount c) (hopen : ¬ Passed c s n)
    (hallowed : allowed (orderPieceAt c n) = true) (hnear : unfinished < lookaheadOf s) :
    InWindow c s allowed n := by
  refine ⟨inside, hopen, ?_, h.counted ▸ hnear⟩
  intro m hm hm'
  rcases Nat.lt_or_eq_of_le hm with hlt | rfl
  · exact h.before m hlt hm'
  · exact hallowed

/-- Past a disallowed piece, or past the lookahead, no position is in the window. -/
theorem Scanned.closed (h : Scanned c s allowed peerBf bfBytes n unfinished pending empty)
    (hopen : ¬ Passed c s n)
    (hstop : allowed (orderPieceAt c n) = false ∨ unfinished ≥ lookaheadOf s) {m : Nat}
    (hm : WorkAt c s allowed peerBf bfBytes m) : m < n := by
  by_contra hge
  rcases hstop with hdisallowed | hfar
  · have hallowed := hm.window.permitted n (by omega) hopen
    rw [hdisallowed] at hallowed
    cases hallowed
  · have hmono : Nat.count (fun m => ¬ Passed c s m) n ≤ Nat.count (fun m => ¬ Passed c s m) m :=
      Nat.count_monotone _ (by omega)
    have hnear := hm.window.near
    rw [h.counted] at hfar
    omega

end Scan

theorem candidate_some {i : Nat} (h : Worthwhile c s allowed peerBf bfBytes i) :
    Candidate c s allowed peerBf bfBytes (some i) := by
  rintro _ ⟨⟩
  exact h

/-- The scan finds work when some position of the window has work. -/
theorem pickStrict_work (strict : c.strictOrder = true)
    (untouched : ∀ i < c.mi.numPieces, (s.slots i).state = .empty → (s.slots i).HasWork)
    (fuel n unfinished : Nat) (pending empty : Option Nat) (reach : orderCount c ≤ n + fuel)
    (h : Scanned c s allowed peerBf bfBytes n unfinished pending empty)
    (work : ∃ m, WorkAt c s allowed peerBf bfBytes m) :
    ∃ i, pickStrict c s allowed peerBf bfBytes (lookaheadOf s) fuel n unfinished pending
      empty = some i ∧ Worthwhile c s allowed peerBf bfBytes i := by
  induction fuel generalizing n unfinished pending empty with
  | zero => exact h.stop (fun m hm => by have := hm.window.inside; omega) work
  | succ fuel ih =>
    simp only [pickStrict]
    split
    · next hend => exact h.stop (fun m hm => by have := hm.window.inside; omega) work
    · next hinside =>
      split
      · next hpassed => exact ih _ _ _ _ (by omega) (h.passed hpassed)
      · next hopen =>
        have hopen' : ¬ Passed c s n := hopen
        obtain ⟨hlt, hdone⟩ := not_passed_iff.mp hopen'
        split
        · next hstop => exact h.stop (fun m hm => h.closed hopen' hstop hm) work
        · next hgo =>
          simp only [not_or, Bool.not_eq_false, not_le, ge_iff_le] at hgo
          have hwindow := h.window (by omega) hopen' hgo.1 hgo.2
          split
          · next hpeer =>
            refine ih _ _ _ _ (by omega) (h.next hopen' hgo.1 h.started h.untouched id ?_)
            intro hwork
            rw [hwork.peer] at hpeer
            cases hpeer
          · next hpeer =>
            rw [Bool.not_eq_false] at hpeer
            -- the position has work: the piece may be taken, now or at the end
            have hthis (hstate : (s.slots (orderPieceAt c n)).state ≠ .hashing)
                (hwork : (s.slots (orderPieceAt c n)).HasWork) :
                Worthwhile c s allowed peerBf bfBytes (orderPieceAt c n) :=
              WorkAt.worthwhile strict ⟨hwindow, ⟨hlt, hdone, hstate⟩, hpeer, hwork⟩
            split
            · next htake =>
              have hgood := hthis (by simp [htake.1])
                ((slotHasRequestableBlock_iff _).mp htake.2.1)
              split
              · exact ⟨_, rfl, hgood⟩
              · exact ih _ _ _ _ (by omega) (h.next hopen' hgo.1 (candidate_some hgood) h.untouched
                  (by simp) (by simp))
            · next hleave =>
              split
              · next htake =>
                have hgood := hthis (by simp [htake.1]) (untouched _ hlt htake.1)
                split
                · exact ⟨_, rfl, hgood⟩
                · refine ih _ _ _ _ (by omega)
                    (h.next hopen' hgo.1 h.started (candidate_some hgood) ?_ ?_)
                  · simp
                  · simp
              · next hempty =>
                refine ih _ _ _ _ (by omega) (h.next hopen' hgo.1 h.started h.untouched id ?_)
                intro hwork
                have hrequestable := (slotHasRequestableBlock_iff _).mpr hwork.work
                cases hstate : (s.slots (orderPieceAt c n)).state with
                | empty =>
                  have : empty ≠ none := fun hnone => hempty ⟨hstate, hnone⟩
                  simp [this]
                | pending =>
                  have : pending ≠ none := fun hnone => hleave ⟨hstate, hrequestable, hnone⟩
                  simp [this]
                | hashing => exact absurd hstate hwork.requestable.2.2
                | done => exact absurd hstate hdone

/-- With nothing unfinished before the cursor, the strict order finds work. -/
theorem workConserving_strict (strict : c.strictOrder = true)
    (untouched : ∀ i < c.mi.numPieces, (s.slots i).state = .empty → (s.slots i).HasWork)
    (before : ∀ n < s.orderCursor, Passed c s n) : WorkConserving c s allowed peerBf bfBytes := by
  rintro ⟨i, hi⟩
  have hwork := hi.workAt strict
  have hscanned : Scanned c s allowed peerBf bfBytes s.orderCursor 0 none none := by
    refine ⟨?_, fun m hm hopen =>
      absurd (before m hm) hopen, by simp [Candidate], by simp [Candidate],
      fun m hm hat => absurd (before m hm) hat.window.unfinished⟩
    rw [eq_comm, Nat.count_iff_forall_not]
    exact fun m hm => not_not.mpr (before m hm)
  rw [pick, if_pos strict]
  exact pickStrict_work strict untouched _ _ _ _ _ (by omega) hscanned hwork

end Strict

section Sequential

variable {c : Config} {s : Mgr} {allowed : Nat → Bool} {peerBf : Nat → UInt8} {bfBytes : Nat}

/-- The test of the second pass is eligibility. -/
theorem eligible_iff (books : Bookkeeping c s) (sequential : c.strictOrder = false) {i : Nat} :
    Eligible c s allowed peerBf bfBytes i ↔ i < c.mi.numPieces ∧
      (decide ((s.slots i).state ≠ .done ∧ (s.slots i).state ≠ .hashing) &&
        wanted s allowed peerBf bfBytes i) = true := by
  have hoffered : Offered c s allowed i ↔ allowed i = true := by simp [Offered, sequential]
  simp only [wanted, Bool.and_eq_true, decide_eq_true_eq, Bool.not_eq_true']
  constructor
  · rintro ⟨⟨hi, hdone, hhashing⟩, hpeer, hallowed⟩
    have hhave : msbHas s.haveBf i = false := by
      rw [← Bool.not_eq_true]
      exact fun hset => hdone ((books.haveBf i).mp hset).2
    exact ⟨hi, ⟨hdone, hhashing⟩, ⟨hoffered.mp hallowed, hhave⟩, hpeer⟩
  · rintro ⟨hi, ⟨hdone, hhashing⟩, ⟨hallowed, _⟩, hpeer⟩
    exact ⟨⟨hi, hdone, hhashing⟩, hpeer, hoffered.mpr hallowed⟩

/-- What the two passes return. -/
inductive Picked (c : Config) (s : Mgr) (allowed : Nat → Bool) (peerBf : Nat → UInt8)
    (bfBytes : Nat) : Option Nat → Prop where
  | untouched (i : Nat) : Eligible c s allowed peerBf bfBytes i → (s.slots i).state = .empty →
      Picked c s allowed peerBf bfBytes (some i)
  | lowest (i : Nat) :
      (∀ j, Eligible c s allowed peerBf bfBytes j → (s.slots j).state ≠ .empty) →
      Eligible c s allowed peerBf bfBytes i → (∀ j < i, ¬ Eligible c s allowed peerBf bfBytes j) →
      Picked c s allowed peerBf bfBytes (some i)
  | nothing : (∀ j, ¬ Eligible c s allowed peerBf bfBytes j) →
    Picked c s allowed peerBf bfBytes none

theorem pick_picked (books : Bookkeeping c s) (sequential : c.strictOrder = false) :
    Picked c s allowed peerBf bfBytes (pick c s allowed peerBf bfBytes) := by
  have heligible : ∀ i, Eligible c s allowed peerBf bfBytes i ↔ i < c.mi.numPieces ∧
      (decide ((s.slots i).state ≠ .done ∧ (s.slots i).state ≠ .hashing) &&
        wanted s allowed peerBf bfBytes i) = true := fun i => eligible_iff books sequential
  rw [pick, if_neg (by simp [sequential])]
  cases hfirst : (List.range c.mi.numPieces).find? (fun i =>
      decide ((s.slots i).state = .empty) && wanted s allowed peerBf bfBytes i) with
  | some i =>
    have hlt := List.mem_range.mp (List.mem_of_find?_eq_some hfirst)
    have htest := List.find?_some hfirst
    simp only [Bool.and_eq_true, decide_eq_true_eq] at htest
    exact .untouched i ((heligible i).mpr ⟨hlt, by simp [htest.1, htest.2]⟩) htest.1
  | none =>
    have hno : ∀ j, Eligible c s allowed peerBf bfBytes j → (s.slots j).state ≠ .empty := by
      intro j hj hempty
      obtain ⟨hlt, htest⟩ := (heligible j).mp hj
      have := List.find?_eq_none.mp hfirst j (List.mem_range.mpr hlt)
      simp only [Bool.and_eq_true] at htest
      simp [hempty, htest.2] at this
    rw [Option.none_or]
    cases hsecond : (List.range c.mi.numPieces).find? (fun i =>
        decide ((s.slots i).state ≠ .done ∧ (s.slots i).state ≠ .hashing) &&
          wanted s allowed peerBf bfBytes i) with
    | some i =>
      obtain ⟨htest, hmem, hlower⟩ := List.find?_range_eq_some.mp hsecond
      refine .lowest i hno ((heligible i).mpr ⟨List.mem_range.mp hmem, htest⟩) ?_
      intro j hj hopen
      have hnot := hlower j hj
      rw [((heligible j).mp hopen).2] at hnot
      cases hnot
    | none =>
      refine .nothing fun j hj => ?_
      obtain ⟨hlt, htest⟩ := (heligible j).mp hj
      exact List.find?_eq_none.mp hsecond j (List.mem_range.mpr hlt) htest

/-- The two passes find work exactly when an untouched piece is eligible or the lowest
eligible piece serves. -/
theorem workConserving_iff (books : Bookkeeping c s) (sequential : c.strictOrder = false)
    (untouched : ∀ i < c.mi.numPieces, (s.slots i).state = .empty → (s.slots i).HasWork) :
    WorkConserving c s allowed peerBf bfBytes ↔ LowestServes c s allowed peerBf bfBytes := by
  have hpicked : Picked c s allowed peerBf bfBytes (pick c s allowed peerBf bfBytes) :=
    pick_picked books sequential
  unfold WorkConserving LowestServes
  generalize pick c s allowed peerBf bfBytes = picked at hpicked
  cases hpicked with
  | untouched i hi hempty =>
    refine ⟨fun _ => Or.inl ⟨i, hi, hempty⟩, fun _ _ => ⟨i, rfl, hi, ?_⟩⟩
    exact untouched i hi.requestable.1 hempty
  | lowest i hno hi hlower =>
    constructor
    · intro h
      refine Or.inr fun k hk hklower hwork => ?_
      obtain ⟨j, hj, hgood⟩ := h hwork
      obtain rfl := Option.some.inj hj
      have hik : i = k := by
        rcases Nat.lt_trichotomy i k with hlt | heq | hgt
        · exact absurd hi (hklower i hlt)
        · exact heq
        · exact absurd hk (hlower k hgt)
      exact hik ▸ hgood.2
    · rintro (⟨j, hj, hempty⟩ | hserves) hwork
      · exact absurd hempty (hno j hj)
      · exact ⟨i, rfl, hi, hserves i hi hlower hwork⟩
  | nothing hno =>
    refine ⟨fun _ => Or.inr fun i hi => absurd hi (hno i), ?_⟩
    rintro _ ⟨i, hi⟩
    exact absurd hi.1 (hno i)

end Sequential

end PieceManager

namespace TorrentEngine

open PieceManager PeerRequests PieceGeometry

section Ready

variable {u : Setup} {good : Calling → Prop} {t t' : Torrent}

theorem ready_callPieces {c : Config} (wf : TorrentLayout.WellFormed c.mi)
    (settled : Settled c t.machine)
    {call : Call} {k : Calling} {result : Int} (plain : call.licence = plainLicence)
    (h : PickReady c t.mgr) (hcall : callPieces c t call k = some (t', result)) :
    PickReady c t'.mgr := by
  obtain ⟨hinner, m, events, hrun, _, rfl, _⟩ := callPieces_run hcall
  simp only [Torrent.mgr, hashResults_machine]
  refine PickReady.run wf h settled ?_ hrun
  intro act hact
  rcases List.mem_cons.mp hact with rfl | hrest
  · exact plain
  · exact plain_of_inner (hinner act hrest)

theorem ready_clearRequests {c : Config} (gone : List BlockReq) {s : Mgr} (h : PickReady c s) :
    PickReady c (gone.foldl (clearRequest c) s) :=
  clearRequests_induction (fun _ piece block hs => hs.start (.clearBlockRequested piece block)
    (envOf true) rfl) gone h

/-- Every move keeps what the picker relies on. -/
theorem ready_move (wf : TorrentLayout.WellFormed u.pieces.mi) (sound : EngineSound u t)
    (h : PickReady u.pieces t.mgr) (move : Move u good t t') : PickReady u.pieces t'.mgr := by
  cases move with
  | flags _ hmachine _ _ _ =>
    rw [Torrent.mgr, hmachine]
    exact h
  | worker m events hstep =>
    obtain ⟨log, hsound⟩ := sound.settled.sound
    exact h.transition hsound rfl (step_transition hstep)
  | edit call env _ hplain => exact h.start call env (by rw [hplain]; rfl)
  | check idx alloc _ => exact h.start (.checkExisting idx) (envOf alloc) rfl
  | call _ call k result _ hplain hcall => exact ready_callPieces wf sound.settled hplain h hcall
  | webFail t1 piece off data k result _ _ _ _ _ hcall _ =>
    have hready := ready_callPieces wf sound.settled rfl h hcall
    exact hready
  | peers peers _ => exact h
  | join slot p _ _ => exact h
  | leave slot p _ _ => exact h
  | release slot p p' keep _ _ _ _ => exact ready_clearRequests _ h
  | ask slot p p' idx b now _ _ _ _ _ _ _ _ _ _ _ hpending =>
    exact h.mark (by simp [hpending])
  | hedge slot primary p p' q r head now _ _ _ _ _ _ _ _ hhead _ hcount =>
    refine h.mark fun hempty => ?_
    -- a block of an untouched piece has no count
    have hzero := (h.blank head hempty (r.offset.toNat / blockSize)).2
    rw [blockRequestCount] at hcount
    split at hcount
    · omega
    · cases hcount
  | block _ slot p p' idx off data now k nets _ _ _ _ _ _ _ _ _ hblock =>
    rw [cbBlock_eq, Option.map_eq_some_iff] at hblock
    obtain ⟨⟨t1, result⟩, hcall, rfl⟩ := hblock
    rw [Torrent.mgr, afterBlock_machine]
    exact ready_callPieces (t := { t.setPeer slot (some p') with
      downloaded := (t.setPeer slot (some p')).downloaded + data.length }) wf
        sound.settled rfl h hcall

theorem ready_createTorrent (options : Option Options) (hashOk : Bool) (heap : Nat → Nat → UInt8)
    (store : Storage.Store) :
    PickReady u.pieces (createTorrent u options hashOk heap store).mgr := by
  have hcreated : PickReady u.pieces (create u.pieces hashOk heap store) := by
    refine ⟨fun i _ b => ⟨?_, rfl⟩, fun _ => frontier_create u.pieces hashOk heap store⟩
    simp [blockIsSet, create]
  simp only [createTorrent, Torrent.mgr, createPieces]
  split
  · exact hcreated
  · next o =>
    have hpolicy := hcreated.start
      (.setStrictPolicy o.strictOrderLookahead o.strictFillPendingFirst) (envOf true) rfl
    split
    · exact hpolicy.start (.presetHave o.haveBitfield o.haveBitfieldLen) (envOf true) rfl
    · exact hpolicy

theorem run_ready (wf : TorrentLayout.WellFormed u.pieces.mi) {options : Option Options}
    {hashOk : Bool} {heap : Nat → Nat → UInt8} {store : Storage.Store}
    (opened : Storage.Opened u.pieces.mi store) {actions : List Action}
    (h : run u (createTorrent u options hashOk heap store) actions = some t) :
    EngineSound u t ∧ PickReady u.pieces t.mgr := by
  refine run_moves (P := fun t => EngineSound u t ∧ PickReady u.pieces t.mgr) ?_
    (fun action _ => action.uses_any) h
    ⟨sound_createTorrent wf options hashOk heap opened, ready_createTorrent options
      hashOk heap store⟩
  rintro t t' ⟨hsound, hready⟩ hmove
  exact ⟨hsound.move wf hmove, ready_move wf hsound hready hmove⟩

/-- Every piece has a block. -/
theorem known_first {c : Config} (wf : TorrentLayout.WellFormed c.mi) {i : Nat}
    (hi : i < c.mi.numPieces) : Known c i 0 := by
  refine ⟨hi, ?_⟩
  have hbounds := pieceLen_bounds wf.exact hi
  have hlen := wf.pieceLength_le
  simp only [TorrentFile.maxPieceLength] at hlen
  simp only [pieceNumBlocks, blockSize]
  rw [Int.tdiv_eq_ediv_of_nonneg (by omega)]
  omega

end Ready

/-- In every reachable state, sequential picking conserves work exactly when an eligible
piece is untouched or the lowest eligible piece serves; strict picking conserves work when
nothing unfinished stands before the cursor, and so it is when the order repeats no piece. -/
theorem run_workConserving {u : Setup} (wf : TorrentLayout.WellFormed u.pieces.mi)
    {options : Option Options} {hashOk : Bool} {heap : Nat → Nat → UInt8} {store : Storage.Store}
    (opened : Storage.Opened u.pieces.mi store) {actions : List Action} {t : Torrent}
    (h : run u (createTorrent u options hashOk heap store) actions = some t) (allowed : Nat → Bool)
    (peerBf : Nat → UInt8) (bfBytes : Nat) :
    (u.pieces.strictOrder = false → (WorkConserving u.pieces t.mgr allowed peerBf bfBytes ↔
      LowestServes u.pieces t.mgr allowed peerBf bfBytes)) ∧
    (u.pieces.strictOrder = true → (∀ n < t.mgr.orderCursor, Passed u.pieces t.mgr n) →
      WorkConserving u.pieces t.mgr allowed peerBf bfBytes) ∧
    (NoRepeat u.pieces → ∀ n < t.mgr.orderCursor, Passed u.pieces t.mgr n) := by
  obtain ⟨hsound, hready⟩ := run_ready wf opened h
  have huntouched : ∀ i < u.pieces.mi.numPieces, (t.mgr.slots i).state = .empty →
      (t.mgr.slots i).HasWork := by
    intro i hi hempty
    refine (hready.blank i).hasWork hempty ?_
    rw [Torrent.mgr, hsound.settled.shape i]
    exact (known_first wf hi).block
  exact ⟨fun sequential => workConserving_iff hsound.bookkeeping sequential huntouched,
    fun strict before => workConserving_strict strict huntouched before,
    fun single => (hready.frontier single).passed⟩

/-- The three pieces in sequential order. -/
def looseSetup : Setup := ⟨threeConfig, 0, 0⟩

def looseTorrent : Torrent := createTorrent looseSetup none true (fun _ _ => 7) threeStore

/-- The first peer is asked for piece 0 and keeps it waiting; the second is asked for the
other two and goes away. -/
def leftBehind : List Action :=
  startupCheck ++ arrive 0 false ++ arrive 1 false ++
    [.schedule 0 1000 (fun _ => ⟨fun i => decide (i = 0), true, fun _ => ⟨openNet, 1000⟩⟩),
      askPeer 1 1000 true, .lost 1]

/-- A peer that has everything is offered piece 0, of which nothing is left to ask for,
while the other two wait. -/
theorem pick_hides_work : ∃ t, run looseSetup looseTorrent leftBehind = some t ∧
    pick looseSetup.pieces t.mgr (fun _ => true) (fun _ => 255) 1 = some 0 ∧
    ¬ WorkConserving looseSetup.pieces t.mgr (fun _ => true) (fun _ => 255) 1 := by
  have hrun : (run looseSetup looseTorrent leftBehind).map (fun t =>
      (pick looseSetup.pieces t.mgr (fun _ => true) (fun _ => 255) 1,
        (t.mgr.slots 1).state, slotHasRequestableBlock (t.mgr.slots 0),
        slotHasRequestableBlock (t.mgr.slots 1))) = some (some 0, .pending, false, true) := by
    decide +kernel
  obtain ⟨t, hsome, hfacts⟩ := Option.map_eq_some_iff.mp hrun
  simp only [Prod.mk.injEq] at hfacts
  obtain ⟨hpick, hstate, hfull, hfree⟩ := hfacts
  refine ⟨t, hsome, hpick, fun hconserving => ?_⟩
  have hwork : Worthwhile looseSetup.pieces t.mgr (fun _ => true) (fun _ => 255) 1 1 := by
    refine ⟨⟨⟨by decide, by simp [hstate], by simp [hstate]⟩, by decide, ?_⟩,
      (slotHasRequestableBlock_iff _).mp hfree⟩
    simp [Offered, looseSetup, threeConfig]
  obtain ⟨i, hi, hgood⟩ := hconserving ⟨1, hwork⟩
  rw [hpick] at hi
  obtain rfl := Option.some.inj hi
  have hnot := (slotHasRequestableBlock_iff _).mpr hgood.2
  rw [hfull] at hnot
  cases hnot

/-- Picking in strict order while a block is asked for twice, and in sequential order before
anything is asked for. -/
theorem run_workConserving_both :
    (∃ t, run threeSetup threeTorrent hedgedRun = some t ∧
      ∀ allowed peerBf bfBytes, WorkConserving threeSetup.pieces t.mgr allowed peerBf bfBytes) ∧
    ∃ t, run looseSetup looseTorrent startupCheck = some t ∧
      WorkConserving looseSetup.pieces t.mgr (fun _ => true) (fun _ => 255) 1 := by
  have hopened : Storage.Opened threePieces threeStore := rfl
  constructor
  · have hrun : (run threeSetup threeTorrent hedgedRun).isSome = true := by decide +kernel
    obtain ⟨t, hsome⟩ := Option.isSome_iff_exists.mp hrun
    have single : NoRepeat threeSetup.pieces := List.nodup_nil
    refine ⟨t, hsome, fun allowed peerBf bfBytes => ?_⟩
    obtain ⟨_, hstrict, hbefore⟩ :=
      run_workConserving threePieces_wellFormed hopened hsome allowed peerBf bfBytes
    exact hstrict rfl (hbefore single)
  · have hrun : (run looseSetup looseTorrent startupCheck).map (fun t => (t.mgr.slots 0).state) =
        some .empty := by decide +kernel
    obtain ⟨t, hsome, hempty⟩ := Option.map_eq_some_iff.mp hrun
    refine ⟨t, hsome, ?_⟩
    obtain ⟨hsequential, _, _⟩ := run_workConserving threePieces_wellFormed hopened hsome
      (fun _ => true) (fun _ => 255) 1
    refine (hsequential rfl).mpr (Or.inl ⟨0, ⟨⟨by decide, ?_, ?_⟩, by decide, ?_⟩, hempty⟩)
    · simp [hempty]
    · simp [hempty]
    · simp [Offered, looseSetup, threeConfig]

end TorrentEngine
