import Pipensx.TorrentTick

/-!
# What is reported at completion

`torrent_tick` returns 0 either at the end of the final pass or, when the startup check has
found every piece, without a final pass at all. `torrent_stat` looks at the final pass alone.
-/

namespace TorrentEngine

open PieceManager PieceGeometry Storage

/-- What the flags of the two passes say of each other. -/
structure FlagsSound (c : Config) (t : Torrent) : Prop where
  final : t.finalVerifyIndex ≤ c.mi.numPieces
  starting : t.startupVerifying = true → t.startupVerifiedAll = false

section Flags

variable {c : Config} {t t' : Torrent}

theorem FlagsSound.same (h : FlagsSound c t) (progress : t'.progress = t.progress) :
    FlagsSound c t' := by
  constructor
  · have hindex : t'.finalVerifyIndex = t.finalVerifyIndex :=
      congrArg Progress.finalVerifyIndex progress
    rw [hindex]
    exact h.final
  · have hstarting : t'.startupVerifying = t.startupVerifying :=
      congrArg Progress.startupVerifying progress
    have hall : t'.startupVerifiedAll = t.startupVerifiedAll :=
      congrArg Progress.startupVerifiedAll progress
    rw [hstarting, hall]
    exact h.starting

theorem startupRound_final (c : Config) (t : Torrent) (alloc : Bool) :
    (startupRound c t alloc).finalVerifying = t.finalVerifying ∧
      (startupRound c t alloc).finalVerifyIndex = t.finalVerifyIndex := by
  simp only [startupRound]
  by_cases hmore : t.startupVerifyIndex < c.mi.numPieces
  · simp only [hmore, if_true]
    split <;> exact ⟨rfl, rfl⟩
  · simp only [hmore, if_false]
    split <;> exact ⟨rfl, rfl⟩

/-- A round that is not the last leaves the check running and its result open; the last
one sets it. -/
theorem startupRound_result (c : Config) (t : Torrent) (alloc : Bool) :
    if t.startupVerifyIndex + 1 < c.mi.numPieces then
      (startupRound c t alloc).startupVerifying = t.startupVerifying ∧
        (startupRound c t alloc).startupVerifiedAll = t.startupVerifiedAll
    else
      (startupRound c t alloc).startupVerifying = false ∧
        (startupRound c t alloc).startupVerifiedAll =
          decide ((startupRound c t alloc).mgr.numDone = c.mi.numPieces) := by
  simp only [startupRound]
  by_cases hmore : t.startupVerifyIndex < c.mi.numPieces
  · simp only [hmore, if_true]
    by_cases hlast : t.startupVerifyIndex + 1 < c.mi.numPieces
    · have hend : ¬ t.startupVerifyIndex + 1 ≥ c.mi.numPieces := by omega
      rw [if_pos hlast, if_neg hend]
      exact ⟨rfl, rfl⟩
    · have hend : t.startupVerifyIndex + 1 ≥ c.mi.numPieces := by omega
      rw [if_neg hlast, if_pos hend]
      exact ⟨rfl, rfl⟩
  · have hlast : ¬ t.startupVerifyIndex + 1 < c.mi.numPieces := by omega
    have hend : t.startupVerifyIndex ≥ c.mi.numPieces := by omega
    simp only [hmore, if_false]
    rw [if_neg hlast, if_pos hend]
    exact ⟨rfl, rfl⟩

theorem FlagsSound.startup (h : FlagsSound c t) (alloc : Bool) :
    FlagsSound c (startupRound c t alloc) := by
  constructor
  · rw [(startupRound_final c t alloc).2]
    exact h.final
  · intro hstarting
    have hresult := startupRound_result c t alloc
    split at hresult
    · rw [hresult.1] at hstarting
      rw [hresult.2]
      exact h.starting hstarting
    · rw [hresult.1] at hstarting
      cases hstarting

theorem FlagsSound.checkCompletion (h : FlagsSound c t) (alloc flushed : Bool) :
    FlagsSound c (checkCompletion c t alloc flushed).1 := by
  have hcases := checkCompletion_cases c t alloc flushed
  generalize TorrentEngine.checkCompletion c t alloc flushed = r at hcases ⊢
  cases hcases with
  | missing _ => exact ⟨Nat.zero_le _, fun _ => rfl⟩
  | shortcut _ _ => exact h
  | unflushed _ _ _ _ => exact h
  | wrong _ hopen _ _ _ => exact ⟨Nat.zero_le _, fun _ => by simpa [Torrent.setMgr] using hopen⟩
  | right _ hopen _ hmore _ => exact ⟨hmore, fun _ => by simpa [Torrent.setMgr] using hopen⟩
  | finished _ hopen hend =>
    refine ⟨?_, fun _ => by simpa using hopen⟩
    rw [begun_finalVerifyIndex]
    split
    · exact h.final
    · exact Nat.zero_le _

theorem FlagsSound.step {u : Setup} {action : Action} (h : FlagsSound u.pieces t)
    (hstep : step u t action = some t') : FlagsSound u.pieces t' := by
  by_cases hother : action.verifies = false
  · exact h.same (step_progress hother hstep)
  · cases action with
    | startupVerify alloc =>
      simp only [TorrentEngine.step] at hstep
      split at hstep
      · cases hstep
        exact h.startup alloc
      · cases hstep
    | checkCompletion alloc flushed =>
      cases hstep
      exact h.checkCompletion alloc flushed
    | _ => exact absurd rfl hother

end Flags

/-- When the completion check succeeds without the shortcut, or after a final pass of its
own, the statistics say complete. -/
theorem checkCompletion_complete {c : Config} {t : Torrent} {alloc flushed : Bool}
    (skippedBytes : Nat)
    (flags : FlagsSound c t) (zero : (checkCompletion c t alloc flushed).2 = 0) :
    (torrentStat c skippedBytes (checkCompletion c t alloc flushed).1).complete = true ↔
      t.startupVerifiedAll = false ∨
        (t.finalVerifying = true ∧ t.finalVerifyIndex = c.mi.numPieces) := by
  have hcases := checkCompletion_cases c t alloc flushed
  generalize checkCompletion c t alloc flushed = r at hcases zero ⊢
  cases hcases with
  | missing _ => cases zero
  | shortcut hdone hall => simp [torrentStat, hdone, hall]
  | unflushed _ _ _ _ => cases zero
  | wrong _ _ _ _ _ => cases zero
  | right _ _ _ _ _ => cases zero
  | finished hdone hopen hend =>
    have hle : t.begun.finalVerifyIndex ≤ c.mi.numPieces := by
      rw [begun_finalVerifyIndex]
      split
      · exact flags.final
      · exact Nat.zero_le _
    simp [torrentStat, hdone, hopen, Nat.le_antisymm hle hend]

/-- The scratch buffer is there when the check gets to piece `j`: it was allocated before,
or for a piece on the way that is not skipped. -/
def Scratch (c : Config) (t : Torrent) (allocs : List Bool) (j : Nat) : Prop :=
  t.mgr.verifyBuf = true ∨ ∃ m, t.startupVerifyIndex + m ≤ j ∧ allocs[m]? = some true ∧
    storageRangeSkipped t.mgr.store (absOff c.mi (t.startupVerifyIndex + m))
      (plenOf c (t.startupVerifyIndex + m)) = false

/-- The piece is done when the check has been through: it was before, or the check finds it. -/
def Found (c : Config) (t : Torrent) (allocs : List Bool) (j : Nat) : Prop :=
  if j < t.startupVerifyIndex then (t.mgr.slots j).state = .done
  else storageRangeSkipped t.mgr.store (absOff c.mi j) (plenOf c j) = true ∨
    (Scratch c t allocs j ∧ onDiskValid c t.mgr j = true) ∨
    (¬ Scratch c t allocs j ∧ (t.mgr.slots j).state = .done)

/-- The startup check ends within this tick, with every piece done. -/
structure ScanFindsAll (c : Config) (t : Torrent) (allocs : List Bool) : Prop where
  starting : t.startupVerifying = true
  ends : c.mi.numPieces ≤ t.startupVerifyIndex + allocs.length
  found : ∀ j, j < c.mi.numPieces → Found c t allocs j

section Scan

variable {c : Config} {t : Torrent} {alloc : Bool} {allocs rest : List Bool}

theorem startupRound_mgr (c : Config) (alloc : Bool)
    (hmore : t.startupVerifyIndex < c.mi.numPieces) :
    (startupRound c t alloc).mgr = (checkExisting c alloc t.mgr t.startupVerifyIndex).1 ∧
      (startupRound c t alloc).startupVerifyIndex = t.startupVerifyIndex + 1 := by
  obtain ⟨hmachine, hindex, _⟩ := startupRound_spec c t alloc
  rw [if_pos hmore] at hindex
  refine ⟨?_, hindex⟩
  have hmgr := congrArg Machine.mgr hmachine
  dsimp only at hmgr
  rwa [if_pos hmore] at hmgr

theorem startupRound_store (c : Config) (alloc : Bool)
    (hmore : t.startupVerifyIndex < c.mi.numPieces) :
    (startupRound c t alloc).mgr.store = t.mgr.store := by
  rw [(startupRound_mgr c alloc hmore).1]
  exact checkExisting_store c alloc t.mgr _

/-- The piece of the round itself. -/
theorem found_this (hmore : t.startupVerifyIndex < c.mi.numPieces) :
    Found c t (alloc :: rest) t.startupVerifyIndex ↔
      ((startupRound c t alloc).mgr.slots t.startupVerifyIndex).state = .done := by
  rw [(startupRound_mgr c alloc hmore).1, checkExisting_done_iff alloc t.mgr hmore]
  have hscratch : storageRangeSkipped t.mgr.store (absOff c.mi t.startupVerifyIndex)
      (plenOf c t.startupVerifyIndex) = false →
      (Scratch c t (alloc :: rest) t.startupVerifyIndex ↔ (t.mgr.verifyBuf || alloc) = true) := by
    intro hwanted
    rw [Bool.or_eq_true]
    constructor
    · rintro (hbuf | ⟨m, hm, halloc, _⟩)
      · exact Or.inl hbuf
      · have hzero : m = 0 := by omega
        subst hzero
        exact Or.inr (by simpa using halloc)
    · rintro (hbuf | halloc)
      · exact Or.inl hbuf
      · exact Or.inr ⟨0, by omega, by simpa using halloc, hwanted⟩
  simp only [Found, Nat.lt_irrefl, if_false]
  cases hskipped : storageRangeSkipped t.mgr.store (absOff c.mi t.startupVerifyIndex)
      (plenOf c t.startupVerifyIndex) with
  | true => simp
  | false => simp only [hscratch hskipped, Bool.not_eq_true]

/-- A later piece: the round has only changed whether the scratch buffer is there. -/
theorem scratch_later (hmore : t.startupVerifyIndex < c.mi.numPieces) {j : Nat}
    (later : t.startupVerifyIndex < j) :
    Scratch c t (alloc :: rest) j ↔ Scratch c (startupRound c t alloc) rest j := by
  obtain ⟨hmgr, hindex⟩ := startupRound_mgr c alloc hmore
  have hbuf := checkExisting_scratch alloc t.mgr hmore
  rw [← hmgr] at hbuf
  simp only [Scratch, hbuf, hindex, startupRound_store c alloc hmore, Bool.or_eq_true,
    Bool.and_eq_true, Bool.not_eq_true']
  constructor
  · rintro (hbefore | ⟨m, hm, halloc, hwanted⟩)
    · exact Or.inl (Or.inl hbefore)
    · cases m with
      | zero => exact Or.inl (Or.inr ⟨by simpa using halloc, hwanted⟩)
      | succ m =>
        have hnext : t.startupVerifyIndex + 1 + m = t.startupVerifyIndex + (m + 1) := by omega
        refine Or.inr ⟨m, by omega, by simpa using halloc, ?_⟩
        rw [hnext]
        exact hwanted
  · rintro ((hbefore | ⟨halloc, hwanted⟩) | ⟨m, hm, halloc, hwanted⟩)
    · exact Or.inl hbefore
    · exact Or.inr ⟨0, by omega, by simpa using halloc, hwanted⟩
    · have hnext : t.startupVerifyIndex + 1 + m = t.startupVerifyIndex + (m + 1) := by omega
      rw [hnext] at hwanted
      exact Or.inr ⟨m + 1, by omega, by simpa using halloc, hwanted⟩

theorem found_round (hmore : t.startupVerifyIndex < c.mi.numPieces) (j : Nat) :
    Found c t (alloc :: rest) j ↔ Found c (startupRound c t alloc) rest j := by
  obtain ⟨hmgr, hindex⟩ := startupRound_mgr c alloc hmore
  have hstore := startupRound_store c alloc hmore
  by_cases hthis : j = t.startupVerifyIndex
  · rw [hthis, found_this hmore]
    have hbefore : t.startupVerifyIndex < t.startupVerifyIndex + 1 := Nat.lt_succ_self _
    simp only [Found, hindex, hbefore, if_true]
  · have hslot : (startupRound c t alloc).mgr.slots j = t.mgr.slots j := by
      rw [hmgr]
      exact checkExisting_other alloc t.mgr hthis
    have hvalid : onDiskValid c (startupRound c t alloc).mgr j = onDiskValid c t.mgr j := by
      simp only [onDiskValid, hstore]
    by_cases hbefore : j < t.startupVerifyIndex
    · have hbefore' : j < t.startupVerifyIndex + 1 := by omega
      simp only [Found, hindex, hbefore, hbefore', if_true, hslot]
    · have hlater : t.startupVerifyIndex < j := by omega
      have hafter : ¬ j < t.startupVerifyIndex + 1 := by omega
      simp only [Found, hindex, hbefore, hafter, if_false, hslot, hstore, hvalid,
        scratch_later hmore hlater]

/-- When there is nothing left to check, a piece is found iff it is done. -/
theorem found_past (hend : c.mi.numPieces ≤ t.startupVerifyIndex) {j : Nat}
    (hj : j < c.mi.numPieces) : Found c t allocs j ↔ (t.mgr.slots j).state = .done := by
  have hbefore : j < t.startupVerifyIndex := by omega
  simp only [Found, hbefore, if_true]

theorem numDone_iff {s : Mgr} (books : Bookkeeping c s) :
    s.numDone = c.mi.numPieces ↔ ∀ j, j < c.mi.numPieces → (s.slots j).state = .done := by
  rw [books.numDone]
  constructor
  · intro hcard j hj
    have hall : doneSet c s = Finset.range c.mi.numPieces := by
      refine Finset.eq_of_subset_of_card_le (Finset.filter_subset _ _) ?_
      rw [Finset.card_range, hcard]
    have hmem : j ∈ doneSet c s := by
      rw [hall]
      exact Finset.mem_range.mpr hj
    exact (mem_doneSet.mp hmem).2
  · intro hall
    have hset : doneSet c s = Finset.range c.mi.numPieces := by
      ext j
      rw [mem_doneSet, Finset.mem_range]
      exact ⟨fun h => h.1, fun h => ⟨h, hall j h⟩⟩
    rw [hset, Finset.card_range]

end Scan

section Ticks

variable {u : Setup} {t t' : Torrent}

/-- After the last round a piece is done iff the check found it. -/
theorem found_last {c : Config} {alloc : Bool} {rest : List Bool}
    (last : c.mi.numPieces ≤ t.startupVerifyIndex + 1) {j : Nat} (hj : j < c.mi.numPieces) :
    Found c t (alloc :: rest) j ↔ ((startupRound c t alloc).mgr.slots j).state = .done := by
  by_cases hmore : t.startupVerifyIndex < c.mi.numPieces
  · rw [found_round hmore, found_past ?_ hj]
    rw [(startupRound_mgr c alloc hmore).2]
    exact last
  · have hmgr : (startupRound c t alloc).mgr = t.mgr := by
      have hsame := congrArg Machine.mgr (startupRound_spec c t alloc).1
      dsimp only at hsame
      rwa [if_neg hmore] at hsame
    rw [hmgr, found_past (Nat.le_of_not_lt hmore) hj]

/-- The startup check declares every piece verified iff it ends in this tick and finds every
piece. -/
theorem scanRounds_result (wf : TorrentLayout.WellFormed u.pieces.mi) (sound : EngineSound u t)
    (starting : t.startupVerifying = true) (undecided : t.startupVerifiedAll = false)
    (allocs : List Bool) :
    (scanRounds u.pieces t allocs).1.startupVerifiedAll = true ↔
      allocs ≠ [] ∧ ScanFindsAll u.pieces t allocs := by
  induction allocs generalizing t with
  | nil => simp [scanRounds, undecided]
  | cons alloc rest ih =>
    have hstep : step u t (.startupVerify alloc) = some (startupRound u.pieces t alloc) := by
      simp only [step, starting, if_true]
    have hsound := step_sound wf sound hstep
    have hresult := startupRound_result u.pieces t alloc
    simp only [scanRounds, starting, if_true, ne_eq, List.cons_ne_nil, not_false_eq_true, true_and]
    by_cases hmore : t.startupVerifyIndex + 1 < u.pieces.mi.numPieces
    · rw [if_pos hmore, starting, undecided] at hresult
      have hthis : t.startupVerifyIndex < u.pieces.mi.numPieces := by omega
      have hindex := (startupRound_mgr u.pieces alloc hthis).2
      rw [ih hsound hresult.1 hresult.2]
      constructor
      · rintro ⟨_, _, hends, hfound⟩
        rw [hindex] at hends
        refine ⟨starting, ?_, ?_⟩
        · rw [List.length_cons]
          omega
        · intro j hj
          exact (found_round hthis j).mpr (hfound j hj)
      · rintro ⟨_, hends, hfound⟩
        rw [List.length_cons] at hends
        refine ⟨?_, hresult.1, ?_, ?_⟩
        · rintro rfl
          rw [List.length_nil] at hends
          omega
        · rw [hindex]
          omega
        · intro j hj
          exact (found_round hthis j).mp (hfound j hj)
    · rw [if_neg hmore] at hresult
      have hstopped : scanRounds u.pieces (startupRound u.pieces t alloc) rest =
          (startupRound u.pieces t alloc, []) := by
        cases rest with
        | nil => rfl
        | cons _ _ => simp [scanRounds, hresult.1]
      rw [hstopped, hresult.2, decide_eq_true_eq, numDone_iff hsound.bookkeeping]
      constructor
      · intro hall
        refine ⟨starting, ?_, ?_⟩
        · rw [List.length_cons]
          omega
        · intro j hj
          exact (found_last (by omega) hj).mpr (hall j hj)
      · rintro ⟨_, _, hfound⟩ j hj
        exact (found_last (by omega) hj).mp (hfound j hj)

theorem scanRounds_final (c : Config) (t : Torrent) (allocs : List Bool) :
    (scanRounds c t allocs).1.finalVerifying = t.finalVerifying ∧
      (scanRounds c t allocs).1.finalVerifyIndex = t.finalVerifyIndex := by
  induction allocs generalizing t with
  | nil => exact ⟨rfl, rfl⟩
  | cons alloc rest ih =>
    simp only [scanRounds]
    split
    · obtain ⟨hfinal, hindex⟩ := ih (startupRound c t alloc)
      obtain ⟨hfinal', hindex'⟩ := startupRound_final c t alloc
      exact ⟨hfinal.trans hfinal', hindex.trans hindex'⟩
    · exact ⟨rfl, rfl⟩

theorem verifies_of_handled {action : Action} (h : action.handles = true ∨ action.requests = true) :
    action.verifies = false := by
  cases action with
  | startupVerify alloc => rcases h with h | h <;> cases h
  | checkCompletion alloc flushed => rcases h with h | h <;> cases h
  | _ => rfl

/-- The handlers of a tick leave the flags of both passes alone. -/
theorem Handled.progress {middle : List Action} (h : Handled u t middle t') :
    t'.progress = t.progress := by
  have hrun := h.run
  have hkind := h.kind
  clear h
  induction middle generalizing t with
  | nil =>
    cases hrun
    rfl
  | cons action rest ih =>
    simp only [TorrentEngine.run] at hrun
    split at hrun
    · cases hrun
    · next t1 hstep =>
      have hother := verifies_of_handled (hkind action (by simp))
      exact (ih hrun (fun a ha => hkind a (by simp [ha]))).trans (step_progress hother hstep)

/-- The shortcut past the final pass: the startup check has found every piece before this
tick, or does so in it. -/
def Shortcut (c : Config) (t : Torrent) (i : Tick) : Prop :=
  (t.startupVerifying = false ∧ t.startupVerifiedAll = true) ∨
    ScanFindsAll c t (i.scratch :: i.more)

theorem shortcut_iff (wf : TorrentLayout.WellFormed u.pieces.mi) (sound : EngineSound u t)
    (flags : FlagsSound u.pieces t) (i : Tick) :
    (scanRounds u.pieces t (i.scratch :: i.more)).1.startupVerifiedAll = true ↔
      Shortcut u.pieces t i := by
  cases hstarting : t.startupVerifying with
  | true =>
    rw [scanRounds_result wf sound hstarting (flags.starting hstarting)]
    simp [Shortcut, hstarting]
  | false =>
    have hidle : scanRounds u.pieces t (i.scratch :: i.more) = (t, []) := by
      simp [scanRounds, hstarting]
    rw [hidle]
    constructor
    · intro hall
      exact Or.inl ⟨hstarting, hall⟩
    · rintro (⟨_, hall⟩ | hscan)
      · exact hall
      · have := hscan.starting
        rw [hstarting] at this
        cases this

end Ticks

/-- After a tick that returns 0 the statistics say complete, exactly if the tick did not
take the shortcut, or a final pass had ended before. -/
theorem tick_complete_iff {u : Setup} (wf : TorrentLayout.WellFormed u.pieces.mi)
    {options : Option Options} {hashOk : Bool} {heap : Nat → Nat → UInt8} {store : Store}
    (opened : Opened u.pieces.mi store) {t t' : Torrent} {actions more : List Action} {i : Tick}
    (session : Session u (fun _ _ => True) (createTorrent u options hashOk heap store) t actions)
    (tick : torrentTick u t i = some (t', 0, more)) (skippedBytes : Nat) :
    (torrentStat u.pieces skippedBytes t').complete = true ↔
      ¬ Shortcut u.pieces t i ∨
        (t.finalVerifying = true ∧ t.finalVerifyIndex = u.pieces.mi.numPieces) := by
  obtain ⟨hsound, hflags⟩ := run_keeps wf (P := FlagsSound u.pieces)
    (fun t t' action _ hold hstep => hold.step hstep) session.run
    (sound_createTorrent wf options hashOk heap opened) ⟨Nat.zero_le _, fun _ => rfl⟩
  have hticked := torrentTick_ticked tick
  generalize hr : (0 : Int) = r at hticked
  cases hticked with
  | fatal _ => cases hr
  | unpolled _ _ _ => cases hr
  | @checked t1 t2 middle _ hdrain handled =>
    -- between the startup check and the completion check no flag changes
    have hprogress := handled.progress.trans (step_progress rfl hdrain)
    have hall : t2.startupVerifiedAll =
      (scanRounds u.pieces t (i.scratch :: i.more)).1.startupVerifiedAll :=
      congrArg Progress.startupVerifiedAll hprogress
    have hfinal : t2.finalVerifying =
      (scanRounds u.pieces t (i.scratch :: i.more)).1.finalVerifying :=
      congrArg Progress.finalVerifying hprogress
    have hindex : t2.finalVerifyIndex =
      (scanRounds u.pieces t (i.scratch :: i.more)).1.finalVerifyIndex :=
      congrArg Progress.finalVerifyIndex hprogress
    obtain ⟨hfinal', hindex'⟩ := scanRounds_final u.pieces t (i.scratch :: i.more)
    have hflags2 : FlagsSound u.pieces t2 := by
      have hscanned : FlagsSound u.pieces (scanRounds u.pieces t (i.scratch :: i.more)).1 :=
        (run_keeps wf (P := FlagsSound u.pieces) (fun t t' action _ hold hstep => hold.step hstep)
          (scanRounds_run u t (i.scratch :: i.more)) hsound hflags).2
      exact hscanned.same hprogress
    rw [checkCompletion_complete skippedBytes hflags2 hr.symm, hall, hfinal, hindex,
      hfinal', hindex', ← shortcut_iff wf hsound hflags i, Bool.not_eq_true]

/-! Three pieces that are all on disk, resumed with and without a bitfield. -/

def onDiskSetup : Setup :=
  { threeSetup with
    pieces := { threeSetup.pieces with
      sha1 := fun data => if data = [1] then List.replicate 20 0 else zeroDigest } }

def onDiskStore : Store := ⟨[⟨0, 3, .disk, false, 0, some [0, 0, 1]⟩], [], none⟩

/-- A tick with nothing to do for the peers and time for three pieces of the startup check. -/
def quietTick : Tick := ⟨true, [true, true], ⟨envOf true, []⟩, [], true, [], [], true, true⟩

/-- A fast resume goes through the final pass: the fourth tick returns 0. -/
theorem tick_complete_resumed : ∃ t t' actions more,
    Session onDiskSetup (fun _ _ => True) (createTorrent onDiskSetup
      (some ⟨0, false, some (fun _ => 224), 1⟩) true (fun _ _ => 7) onDiskStore) t actions ∧
    torrentTick onDiskSetup t quietTick = some (t', 0, more) ∧
    (torrentStat onDiskSetup.pieces 0 t').complete = true := by
  have hrun : (performAll onDiskSetup (createTorrent onDiskSetup
      (some ⟨0, false, some (fun _ => 224), 1⟩) true (fun _ _ => 7) onDiskStore)
      (List.replicate 3 (.tick quietTick))).map (fun r =>
        (r.1.finalVerifying, r.1.finalVerifyIndex,
          (torrentTick onDiskSetup r.1 quietTick).map (fun r => r.2.1))) =
            some (true, 3, some 0) := by
    decide +kernel
  obtain ⟨⟨t, actions⟩, hcalls, hfacts⟩ := Option.map_eq_some_iff.mp hrun
  obtain ⟨hfinal, hrest⟩ := Prod.mk.inj hfacts
  obtain ⟨hindex, htick⟩ := Prod.mk.inj hrest
  obtain ⟨⟨t', r, more⟩, hzero, rfl⟩ := Option.map_eq_some_iff.mp htick
  have hopened : Opened onDiskSetup.pieces.mi onDiskStore := rfl
  have hsession := Session.created.performAll hcalls
  refine ⟨t, t', _, more, hsession, hzero, ?_⟩
  exact (tick_complete_iff threePieces_wellFormed hopened hsession hzero 0).mpr
    (Or.inr ⟨hfinal, hindex⟩)

/-- The startup check finds everything: the first tick returns 0 and nothing is reported. -/
theorem shortcut_unreported : ∃ t' more,
    torrentTick onDiskSetup (createTorrent onDiskSetup none true (fun _ _ => 7) onDiskStore)
      quietTick = some (t', 0, more) ∧ (torrentStat onDiskSetup.pieces 0 t').complete = false := by
  have htick : (torrentTick onDiskSetup
      (createTorrent onDiskSetup none true (fun _ _ => 7) onDiskStore)
      quietTick).map (fun r => (r.2.1, (torrentStat onDiskSetup.pieces 0 r.1).complete)) =
      some (0, false) := by decide +kernel
  obtain ⟨⟨t', r, more⟩, hzero, hfacts⟩ := Option.map_eq_some_iff.mp htick
  obtain ⟨rfl, hcomplete⟩ := Prod.mk.inj hfacts
  exact ⟨t', more, hzero, hcomplete⟩

end TorrentEngine
