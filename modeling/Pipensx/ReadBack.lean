import Pipensx.EngineCalls

/-!
# What is written and what is read back

The accesses to the storage a run makes: `storage_write` for a piece, whatever comes of it,
and a read of a whole piece that matched its hash. A piece is backed if it was read back
after the last write to it. Pieces do not overlap, so a write touches the piece it is for
and no other.
-/

namespace PieceManager

open PieceGeometry Storage

inductive Access where
  | wrote (idx : Nat)
  | matched (idx : Nat)
  deriving DecidableEq, Repr

/-- The piece was read back with its hash, and not written since. -/
def Backed (log : List Access) (i : Nat) : Prop :=
  ∃ before after, log = before ++ .matched i :: after ∧ .wrote i ∉ after

theorem Backed.append {log more : List Access} {i : Nat} (h : Backed log i)
    (unwritten : .wrote i ∉ more) : Backed (log ++ more) i := by
  obtain ⟨before, after, rfl, hafter⟩ := h
  refine ⟨before, after ++ more, by simp, ?_⟩
  intro hmem
  rcases List.mem_append.mp hmem with hold | hnew
  · exact hafter hold
  · exact unwritten hnew

theorem backed_matched (log : List Access) (i : Nat) : Backed (log ++ [.matched i]) i :=
  ⟨log, [], rfl, by simp⟩

theorem Backed.mem {log : List Access} {i : Nat} (h : Backed log i) : .matched i ∈ log := by
  obtain ⟨before, after, rfl, _⟩ := h
  simp

/-- Whether `piece_mgr_got_block` gets to the `storage_write` of its inline fallback. -/
def gotBlockWrites (c : Config) (env : Env) (s : Mgr) (idx offset : Nat) :
    Option (List UInt8) → Bool
  | none => false
  | some data =>
    if idx ≥ c.mi.numPieces ∨ (s.slots idx).state = .done ∨ (s.slots idx).state = .hashing ∨
        offset % blockSize ≠ 0 ∨ (offset : Int) ≥ pieceLen c.mi idx ∨
        offset / blockSize ≥ (s.slots idx).numBlocks ∨
        data.length ≠ expectedLen c idx offset then false
    else
      match (slotBuf env.alloc s idx).1 with
      | none => false
      | some b =>
        let s1 := storeBlock c (slotBuf env.alloc s idx).2 idx offset data b
        let ready := hashWorkerReady env.spawn s1
        decide ((s1.slots idx).numBlocksDone = (s1.slots idx).numBlocks) && !ready.1 &&
          hashMatches c idx (ready.2.bytes (ready.2.slots idx).buf (plenOf c idx))

/-- The accesses of one step of the torrent thread. -/
def actAccesses (c : Config) (m : Machine) : Act → List Access
  | .apply _ =>
    match m.pc with
    | .apply job _ =>
      if (m.mgr.slots job.idx).state = .hashing ∧ job.ok = true then [.wrote job.idx] else []
    | _ => []
  | .call (.gotBlock idx offset data) env =>
    if gotBlockWrites c env m.mgr idx offset data then [.wrote idx] else []
  | .call (.verifyPiece idx) env =>
    if idx < c.mi.numPieces ∧ (m.mgr.slots idx).state = .done ∧
        storageRangeReadable m.mgr.store (absOff c.mi idx) (plenOf c idx) = true ∧
        (verifyScratch env.alloc m.mgr).1 = true ∧
        onDiskValid c m.mgr idx = true then [.matched idx]
    else []
  | .call (.checkExisting idx) env =>
    if idx < c.mi.numPieces ∧
        storageRangeSkipped m.mgr.store (absOff c.mi idx) (plenOf c idx) = false ∧
        (verifyScratch env.alloc m.mgr).1 = true ∧
        onDiskValid c m.mgr idx = true then [.matched idx]
    else []
  | _ => []

/-- The accesses of a run of both threads. -/
def runAccesses (c : Config) : Machine → List Act → List Access
  | _, [] => []
  | m, act :: rest => actAccesses c m act ++
    match step c m act with
    | none => []
    | some (m', _) => runAccesses c m' rest

section Accesses

variable {c : Config} {m : Machine} {i : Nat}

/-- A piece that is done is not written. -/
theorem wrote_notDone {act : Act} (h : .wrote i ∈ actAccesses c m act) :
    (m.mgr.slots i).state ≠ .done := by
  cases act with
  | apply io =>
    simp only [actAccesses] at h
    split at h
    · split at h
      · next job _ _ hashing =>
        cases List.mem_singleton.mp h
        rw [hashing.1]
        decide
      · cases h
    · cases h
  | call call env =>
    cases call with
    | gotBlock idx offset data =>
      simp only [actAccesses] at h
      split at h
      · next hwrites =>
        cases List.mem_singleton.mp h
        intro hdone
        cases data with
        | none => cases hwrites
        | some bytes => simp [gotBlockWrites, hdone] at hwrites
      · cases h
    | verifyPiece idx =>
      simp only [actAccesses] at h
      split at h
      · cases List.mem_singleton.mp h
      · cases h
    | checkExisting idx =>
      simp only [actAccesses] at h
      split at h
      · cases List.mem_singleton.mp h
      · cases h
    | _ => cases h
  | _ => cases h

/-- A block that gets to no `storage_write` leaves the files alone. -/
theorem gotBlock_unwritten {env : Env} {s : Mgr} {idx offset : Nat} {data : Option (List UInt8)}
    (h : gotBlockWrites c env s idx offset data = false) :
    (gotBlock c env s idx offset data).1.store = s.store := by
  cases data with
  | none => rfl
  | some bytes =>
    have hbuf := (slotBuf_frame env.alloc s idx).2.2.1
    simp only [gotBlockWrites] at h
    simp only [gotBlock]
    split
    · rfl
    · next hidx =>
      split
      · rfl
      · next hopen =>
        split
        · rfl
        · next hoff =>
          split
          · rfl
          · next hlen =>
            have hgood : ¬ (idx ≥ c.mi.numPieces ∨ (s.slots idx).state = .done ∨
                (s.slots idx).state = .hashing ∨ offset % blockSize ≠ 0 ∨
                (offset : Int) ≥ pieceLen c.mi idx ∨ offset / blockSize ≥ (s.slots idx).numBlocks ∨
                bytes.length ≠ expectedLen c idx offset) := by
              tauto
            rw [if_neg hgood] at h
            split
            · exact hbuf
            · next b hb =>
              simp only [hb] at h
              have hstored := (storeBlock_frame c (slotBuf env.alloc s idx).2 idx offset bytes
                b).2.2.1.trans hbuf
              generalize storeBlock c (slotBuf env.alloc s idx).2 idx offset bytes b =
                s1 at h hstored ⊢
              obtain ⟨ok, started, hready, _, _⟩ := hashWorkerReady_eq env.spawn s1
              simp only [finishBlock]
              split
              · exact hstored
              · next hfull =>
                split
                · rw [hready]
                  exact hstored
                · next hinline =>
                  have hwrong : hashMatches c idx ((hashWorkerReady env.spawn s1).2.bytes
                      ((hashWorkerReady env.spawn s1).2.slots idx).buf (plenOf c idx)) = false := by
                    simpa [not_not.mp hfull, hinline] using h
                  simp only [verifyInline, hwrong, if_true]
                  rw [(Untouched.resetPiece c _ idx).store, hready]
                  exact hstored

/-- The log has every write: a step that logs none leaves the files alone. -/
theorem Transition.unwritten {m' : Machine} {act : Act} {events : List Event}
    (h : ∀ idx, .wrote idx ∉ actAccesses c m act) (t : Transition c m act m' events) :
    m'.mgr.store = m.mgr.store := by
  cases t with
  | call call env _ =>
    cases call with
    | markPending idx => exact markPending_store c env.alloc m.mgr idx
    | gotBlock idx offset data =>
      have hnone : gotBlockWrites c env m.mgr idx offset data = false := by
        cases hwrites : gotBlockWrites c env m.mgr idx offset data with
        | false => rfl
        | true => exact absurd (by simp [actAccesses, hwrites]) (h idx)
      show (start c m.mgr env (.gotBlock idx offset data)).1.store = m.mgr.store
      rw [start_gotBlock]
      exact gotBlock_unwritten hnone
    | drainHashResults => exact congrArg Mgr.store (start_drainHashResults c m.mgr env)
    | hashFlush => exact congrArg Mgr.store (start_hashFlush c m.mgr env)
    | verifyPiece idx => exact verifyPiece_store c env.alloc m.mgr idx
    | checkExisting idx => exact checkExisting_store c env.alloc m.mgr idx
    | presetHave bf bfLen =>
      simp only [start, presetHave]
      split
      · rfl
      · split
        · rfl
        · exact (presetLoop_spec c _ m.mgr _ 0).1
    | markBlockRequested idx block => exact setCount_store c m.mgr idx block _
    | clearBlockRequested idx block => exact setCount_store c m.mgr idx block _
    | setStrictPolicy lookahead first => rfl
  | apply io job next hpc =>
    have hnot : ¬ ((m.mgr.slots job.idx).state = .hashing ∧ job.ok = true) := by
      intro hwrites
      exact h job.idx (by simp [actAccesses, hpc, hwrites])
    simp only [hashApply]
    split
    · obtain ⟨pool, hpool⟩ := pieceBufPut_eq m.mgr job.buf
      rw [hpool]
    · next hhashing =>
      have hbad : job.ok = false := by
        cases hok : job.ok with
        | false => rfl
        | true => exact absurd ⟨not_not.mp hhashing, hok⟩ hnot
      rw [if_pos hbad]
      exact (Untouched.resetPiece c _ job.idx).store
  | _ => rfl

/-- A kept piece is not written in a run that keeps it. -/
theorem KeptPiece.unwritten (wf : TorrentLayout.WellFormed c.mi) {acts : List Act}
    {log : List Event}
    (sound : MachineSound c m log) (hi : i < c.mi.numPieces) (kept : KeptPiece c m.mgr i)
    (hashing : ∀ act ∈ acts, act.Hashing) : .wrote i ∉ runAccesses c m acts := by
  induction acts generalizing m log with
  | nil => simp [runAccesses]
  | cons act rest ih =>
    intro hmem
    rcases List.mem_append.mp hmem with hfirst | hlater
    · exact wrote_notDone hfirst kept.1
    · split at hlater
      · cases hlater
      · next m' events hstep =>
        have hkept := kept.transition wf sound hi (hashing act (by simp)) (step_transition hstep)
        exact ih (sound.step wf hstep) hkept (fun a ha => hashing a (by simp [ha])) hlater

end Accesses

end PieceManager

namespace TorrentEngine

open PieceManager PieceGeometry Storage

/-- The accesses of one step of the engine. -/
def stepAccesses (u : Setup) (t : Torrent) (action : Action) : List Access :=
  (stepCalls u t action).flatMap (fun made => runAccesses u.pieces made.machine made.acts)

/-- The accesses of a run. -/
def accesses (u : Setup) : Torrent → List Action → List Access
  | _, [] => []
  | t, action :: rest => stepAccesses u t action ++
    match step u t action with
    | none => []
    | some t' => accesses u t' rest

theorem accesses_append {u : Setup} {t t1 : Torrent} {actions actions' : List Action}
    (h : run u t actions = some t1) :
    accesses u t (actions ++ actions') = accesses u t actions ++ accesses u t1 actions' := by
  induction actions generalizing t with
  | nil =>
    cases h
    rfl
  | cons action rest ih =>
    simp only [run] at h
    split at h
    · cases h
    · next t2 hstep => simp only [List.cons_append, accesses, hstep, ih h, List.append_assoc]

/-- A done piece that lies on disk as a whole, is right there and was read back. -/
structure BackedPiece (c : Config) (log : List Access) (s : Mgr) (i : Nat) : Prop where
  kept : KeptPiece c s i
  disk : s.store.OnDisk (absOff c.mi i) (plenOf c i)
  backed : Backed log i

section Steps

variable {u : Setup} {t t' : Torrent} {log : List Access} {i : Nat}

theorem Reached.sound {c : Config} (wf : TorrentLayout.WellFormed c.mi) {m m' : Machine}
    (settled : Settled c m) (h : Reached c m m') : ∃ log, MachineSound c m' log := by
  refine h.induction wf settled (P := fun m => ∃ log, MachineSound c m log) ?_ settled.sound
  rintro m log act m' events hsound _ _ ht
  exact ⟨log ++ events, hsound.buffers.transition ht, hsound.ring.transition hsound.buffers ht,
    hsound.books.transition wf hsound.buffers hsound.ring ht⟩

/-- No step but one of the startup check writes a kept piece, and that one does not write. -/
theorem stepAccesses_unwritten (wf : TorrentLayout.WellFormed u.pieces.mi) {action : Action}
    (sound : EngineSound u t) (hi : i < u.pieces.mi.numPieces) (kept : KeptPiece u.pieces t.mgr i)
    (h : step u t action = some t') : .wrote i ∉ stepAccesses u t action := by
  intro hmem
  obtain ⟨made, hmade, hwrote⟩ := List.mem_flatMap.mp hmem
  by_cases hstartup : ∃ alloc, action = .startupVerify alloc
  · obtain ⟨alloc, rfl⟩ := hstartup
    simp only [stepCalls] at hmade
    split at hmade
    · rw [List.mem_singleton.mp hmade] at hwrote
      rcases List.mem_append.mp hwrote with hfirst | hlater
      · exact wrote_notDone hfirst kept.1
      · split at hlater
        · cases hlater
        · cases hlater
    · cases hmade
  · have hother : ∀ alloc, action ≠ .startupVerify alloc := fun alloc heq => hstartup ⟨alloc, heq⟩
    obtain ⟨hreached, hashing⟩ := stepCalls_hashing hother h made hmade
    obtain ⟨events, hsound⟩ := hreached.sound wf sound.settled
    have hkept := hreached.kept wf sound.settled hi kept
    exact hkept.unwritten wf hsound hi hashing hwrote

/-- What was read back stays so, whatever step comes next. -/
theorem BackedPiece.step (wf : TorrentLayout.WellFormed u.pieces.mi) {action : Action}
    (sound : EngineSound u t) (hi : i < u.pieces.mi.numPieces)
    (h : BackedPiece u.pieces log t.mgr i) (reached : Reached u.pieces t.machine t'.machine)
    (hstep : step u t action = some t') :
    BackedPiece u.pieces (log ++ stepAccesses u t action) t'.mgr i := by
  obtain ⟨events, hsound⟩ := sound.settled.sound
  refine ⟨reached.kept wf sound.settled hi h.kept, ?_, ?_⟩
  · exact ((reached.shape wf sound.settled).onDisk hsound.books.laid).mpr h.disk
  · exact h.backed.append (stepAccesses_unwritten wf sound hi h.kept hstep)

theorem stepAccesses_startup {alloc : Bool} (hmore : t.startupVerifyIndex < u.pieces.mi.numPieces) :
    stepAccesses u t (.startupVerify alloc) =
      actAccesses u.pieces t.machine
      (.call (.checkExisting t.startupVerifyIndex) (envOf alloc)) := by
  simp only [stepAccesses, stepCalls, hmore, if_true, List.flatMap_cons, List.flatMap_nil,
    List.append_nil, runAccesses]
  split <;> simp

/-- A piece that was read back is found again by the startup check. -/
theorem BackedPiece.startup (wf : TorrentLayout.WellFormed u.pieces.mi) (sound : EngineSound u t)
    (hi : i < u.pieces.mi.numPieces) (h : BackedPiece u.pieces log t.mgr i)
    (starting : t.startupVerifying = true) (alloc : Bool) :
    BackedPiece u.pieces (log ++ stepAccesses u t (.startupVerify alloc))
      (startupRound u.pieces t alloc).mgr i := by
  obtain ⟨events, hsound⟩ := sound.settled.sound
  have hstep : TorrentEngine.step u t (.startupVerify alloc) =
    some (startupRound u.pieces t alloc) := by
    simp only [TorrentEngine.step, starting, if_true]
  have hunwritten := stepAccesses_unwritten wf sound hi h.kept hstep
  have hmgr := congrArg Machine.mgr (startupRound_spec u.pieces t alloc).1
  dsimp only at hmgr
  have hkept : KeptPiece u.pieces (startupRound u.pieces t alloc).mgr i ∧
      (startupRound u.pieces t alloc).mgr.store = t.mgr.store := by
    rw [Torrent.mgr, hmgr]
    split
    · have hstore := checkExisting_store u.pieces alloc t.mgr t.startupVerifyIndex
      refine ⟨h.kept.same ?_ hstore, hstore⟩
      by_cases hthis : i = t.startupVerifyIndex
      · subst hthis
        have hvalid : onDiskValid u.pieces t.mgr t.startupVerifyIndex = true :=
          (onDiskValid_iff wf hsound.books.laid hi).mpr (h.kept.2 h.disk)
        rw [checkExisting_done_iff alloc t.mgr hi]
        cases hscratch : (t.mgr.verifyBuf || alloc) with
        | true => exact Or.inr (Or.inl ⟨rfl, hvalid⟩)
        | false => exact Or.inr (Or.inr ⟨rfl, h.kept.1⟩)
      · rw [checkExisting_other alloc t.mgr hthis]
        exact h.kept.1
    · exact ⟨h.kept, rfl⟩
  refine ⟨hkept.1, ?_, h.backed.append hunwritten⟩
  rw [hkept.2]
  exact h.disk

/-- A piece on disk is not skipped. -/
theorem onDisk_wanted {c : Config} {s : Mgr} (wf : TorrentLayout.WellFormed c.mi)
    (laid : Laid s.store.files)
    (hi : i < c.mi.numPieces) (disk : s.store.OnDisk (absOff c.mi i) (plenOf c i)) :
    storageRangeSkipped s.store (absOff c.mi i) (plenOf c i) = false := by
  cases hskipped : storageRangeSkipped s.store (absOff c.mi i) (plenOf c i) with
  | false => rfl
  | true =>
    have hpos := (plenOf_pos wf hi).2
    exact absurd (disk 0 hpos) (storageRangeSkipped_notDisk laid hskipped 0 hpos)

/-- A piece on disk that a round of the startup check leaves done has been read back by it,
if it got its scratch buffer. -/
theorem backed_startup (wf : TorrentLayout.WellFormed u.pieces.mi) (sound : EngineSound u t)
    {alloc : Bool} (hmore : t.startupVerifyIndex < u.pieces.mi.numPieces)
    (scratch : (t.mgr.verifyBuf || alloc) = true)
    (disk : t.mgr.store.OnDisk (absOff u.pieces.mi t.startupVerifyIndex)
      (plenOf u.pieces t.startupVerifyIndex))
    (valid : onDiskValid u.pieces t.mgr t.startupVerifyIndex = true) :
    BackedPiece u.pieces (log ++ stepAccesses u t (.startupVerify alloc))
      (startupRound u.pieces t alloc).mgr t.startupVerifyIndex := by
  obtain ⟨events, hsound⟩ := sound.settled.sound
  have hmgr := congrArg Machine.mgr (startupRound_spec u.pieces t alloc).1
  dsimp only at hmgr
  rw [if_pos hmore] at hmgr
  have hstore : (startupRound u.pieces t alloc).mgr.store = t.mgr.store := by
    rw [Torrent.mgr, hmgr]
    exact checkExisting_store u.pieces alloc t.mgr _
  have hwanted := onDisk_wanted wf hsound.books.laid hmore disk
  have hscratch : (verifyScratch alloc t.mgr).1 = true :=
    (verifyScratch_got alloc t.mgr).trans scratch
  have hlog : stepAccesses u t (.startupVerify alloc) = [.matched t.startupVerifyIndex] := by
    rw [stepAccesses_startup hmore]
    exact if_pos ⟨hmore, hwanted, hscratch, valid⟩
  refine ⟨⟨?_, ?_⟩, ?_, ?_⟩
  · rw [Torrent.mgr, hmgr, checkExisting_done_iff alloc t.mgr hmore]
    exact Or.inr (Or.inl ⟨scratch, valid⟩)
  · intro _
    rw [hstore]
    exact (onDiskValid_iff wf hsound.books.laid hmore).mp valid
  · rw [hstore]
    exact disk
  · rw [hlog]
    exact backed_matched log _

theorem stepAccesses_verify {alloc flushed : Bool} (done : t.mgr.numDone = u.pieces.mi.numPieces)
    (undecided : t.startupVerifiedAll = false)
    (begins : ¬ (t.finalVerifying = false ∧ flushed = false))
    (hmore : t.begun.finalVerifyIndex < u.pieces.mi.numPieces) :
    stepAccesses u t (.checkCompletion alloc flushed) =
      actAccesses u.pieces t.machine
      (.call (.verifyPiece t.begun.finalVerifyIndex) (envOf alloc)) := by
  have hnot : ¬ (t.mgr.numDone ≠ u.pieces.mi.numPieces ∨ t.startupVerifiedAll = true ∨
      (t.finalVerifying = false ∧ flushed = false)) := by
    rintro (hmissing | hall | hflush)
    · exact hmissing done
    · rw [undecided] at hall
      cases hall
    · exact begins hflush
  simp only [stepAccesses, stepCalls]
  rw [if_neg hnot, if_pos hmore]
  simp only [List.flatMap_cons, List.flatMap_nil, List.append_nil, runAccesses]
  split <;> simp

/-- A piece on disk that passes the final pass has been read back by it. -/
theorem backed_verify (wf : TorrentLayout.WellFormed u.pieces.mi) (sound : EngineSound u t)
    {alloc flushed : Bool} (done : t.mgr.numDone = u.pieces.mi.numPieces)
    (undecided : t.startupVerifiedAll = false)
    (begins : ¬ (t.finalVerifying = false ∧ flushed = false))
    (hmore : t.begun.finalVerifyIndex < u.pieces.mi.numPieces)
    (right : (verifyPiece u.pieces alloc t.mgr t.begun.finalVerifyIndex).2 ≠ 0)
    (disk : t.mgr.store.OnDisk (absOff u.pieces.mi t.begun.finalVerifyIndex)
      (plenOf u.pieces t.begun.finalVerifyIndex)) :
    BackedPiece u.pieces (log ++ stepAccesses u t (.checkCompletion alloc flushed))
      (verifyPiece u.pieces alloc t.mgr t.begun.finalVerifyIndex).1 t.begun.finalVerifyIndex := by
  obtain ⟨events, hsound⟩ := sound.settled.sound
  rw [stepAccesses_verify done undecided begins hmore]
  generalize t.begun.finalVerifyIndex = idx at hmore right disk ⊢
  have hreadable : storageRangeReadable t.mgr.store (absOff u.pieces.mi idx)
    (plenOf u.pieces idx) = true :=
    (storageRangeReadable_iff hsound.books.laid _ _).mpr disk
  obtain ⟨v, hv⟩ := verifyScratch_eq alloc t.mgr
  have hsame : onDiskValid u.pieces { t.mgr with verifyBuf := v } idx =
    onDiskValid u.pieces t.mgr idx := rfl
  have hbound : ¬ idx ≥ u.pieces.mi.numPieces := Nat.not_le.mpr hmore
  have hstore := verifyPiece_store u.pieces alloc t.mgr idx
  -- a result other than 0 for a readable piece comes from reading it
  have hread : (t.mgr.slots idx).state = .done ∧ (verifyScratch alloc t.mgr).1 = true ∧
      onDiskValid u.pieces t.mgr idx = true := by
    simp only [verifyPiece, hbound, if_false, hreadable, Bool.true_eq_false, hv, hsame] at right
    by_cases hdone : (t.mgr.slots idx).state = .done
    · by_cases hscratch : (verifyScratch alloc t.mgr).1 = true
      · by_cases hvalid : onDiskValid u.pieces t.mgr idx = true
        · exact ⟨hdone, hscratch, hvalid⟩
        · simp [hdone, hscratch, hvalid] at right
      · simp [hdone, hscratch] at right
    · simp [hdone] at right
  have hlog : actAccesses u.pieces t.machine (.call (.verifyPiece idx) (envOf alloc)) =
    [.matched idx] :=
    if_pos ⟨hmore, hread.1, hreadable, hread.2.1, hread.2.2⟩
  refine ⟨⟨?_, ?_⟩, ?_, ?_⟩
  · rw [verifyPiece_state alloc t.mgr (fun _ _ => hread.2.2)]
    exact hread.1
  · intro _
    rw [hstore]
    exact (onDiskValid_iff wf hsound.books.laid hmore).mp hread.2.2
  · rw [hstore]
    exact disk
  · rw [hlog]
    exact backed_matched log idx

end Steps

end TorrentEngine
