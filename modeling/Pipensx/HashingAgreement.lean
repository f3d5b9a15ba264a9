import Pipensx.EngineCalls
import Pipensx.HashingJobs

/-!
# The hashing pieces of a torrent

From the creation of a torrent on, the pieces that are hashing are those in the ring, and
every result that comes off the ring is written and reported, as long as the startup check
does not get to a piece that a web seed has just completed.
-/

namespace TorrentEngine

open PieceManager PieceGeometry Storage

/-- A round of the startup check that finds its piece hashing, and could act on it, is the
one step that is not allowed. -/
def SparesHashing (c : Config) (t : Torrent) : Action → Prop
  | .startupVerify alloc => (t.mgr.slots t.startupVerifyIndex).state = .hashing →
      storageRangeSkipped t.mgr.store (absOff c.mi t.startupVerifyIndex)
        (plenOf c t.startupVerifyIndex) = false ∧ t.mgr.verifyBuf = false ∧ alloc = false
  | _ => True

/-- A job that is about to be applied belongs to a piece that is hashing. If the hash was
right, the piece is written, and the result of the write is reported; if not, that is
reported. -/
def Delivers (c : Config) (m : Machine) : Prop :=
  ∀ io job next, m.pc = .apply job next → (m.mgr.slots job.idx).state = .hashing ∧
    if job.ok = true then
      match storageWrite io m.mgr.store (absOff c.mi job.idx) (m.mgr.bytes job.buf job.plen) with
      | .ok st => (hashApply c io m.mgr job).1.store = st ∧
          (hashApply c io m.mgr job).2 = some (job.idx, 2)
      | .error st => (hashApply c io m.mgr job).1.store = st ∧
          (hashApply c io m.mgr job).2 = some (job.idx, -1)
    else (hashApply c io m.mgr job).2 = some (job.idx, 0)

section Machine

variable {c : Config} {m m' : Machine}

theorem spares_of_hashing {act : Act} (h : act.Hashing) : act.Spares c m := by
  cases act with
  | call call env =>
    cases call with
    | checkExisting idx => cases h.2
    | presetHave bf bfLen => cases h.1
    | _ => trivial
  | _ => trivial

theorem hashing_delivers (h : HashingMatches m) : Delivers c m := by
  intro io job next hpc
  have hashing := h.applies (by rw [hpc]; rfl)
  refine ⟨hashing, ?_⟩
  cases hok : job.ok with
  | false => simp [hashApply, hashing, hok]
  | true =>
    simp only [if_true, hashApply, hashing, hok, ne_eq, not_true_eq_false,
      Bool.true_eq_false, if_false]
    cases hwrite : storageWrite io m.mgr.store (absOff c.mi job.idx)
      (m.mgr.bytes job.buf job.plen) with
    | ok st =>
      obtain ⟨pool, hpool⟩ := pieceBufPut_eq
        (markPieceDone c { m.mgr with store := st } job.idx job.plen)
        job.buf
      refine ⟨?_, rfl⟩
      dsimp only
      rw [hpool]
      rfl
    | error st => exact ⟨(Untouched.resetPiece c _ job.idx).store, rfl⟩

theorem hashing_reached (wf : TorrentLayout.WellFormed c.mi) (settled : Settled c m)
    (h : HashingMatches m) (reached : Reached c m m') : HashingMatches m' := by
  refine reached.induction wf settled (P := HashingMatches) ?_ h
  intro m log act m' events hsound hold hashing ht
  exact hold.transition hsound.buffers (spares_of_hashing hashing) ht

/-- The jobs still to be applied between two calls are those in the ring. -/
theorem hashing_ring (h : HashingMatches m) (idle : m.pc = .idle) (i : Nat) :
    (m.mgr.slots i).state = .hashing ↔ m.mgr.ringPieces.count i = 1 := by
  have howed : m.owed = m.mgr.ringPieces := by simp [Machine.owed, idle, Pc.flight]
  have honce := h.once
  rw [howed] at honce
  rw [h.hashing_iff, howed]
  constructor
  · exact List.count_eq_one_of_mem honce
  · intro hcount
    exact List.count_pos_iff.mp (by omega)

end Machine

section Steps

variable {u : Setup} {t t' : Torrent}

theorem hashing_startup (sound : EngineSound u t) (h : HashingMatches t.machine) {alloc : Bool}
    (spares : SparesHashing u.pieces t (.startupVerify alloc)) :
    HashingMatches (startupRound u.pieces t alloc).machine := by
  obtain ⟨hmachine, _, _⟩ := startupRound_spec u.pieces t alloc
  obtain ⟨log, hsound⟩ := sound.settled.sound
  rw [hmachine]
  by_cases hmore : t.startupVerifyIndex < u.pieces.mi.numPieces
  · rw [if_pos hmore]
    have hspares : Act.Spares u.pieces t.machine
        (.call (.checkExisting t.startupVerifyIndex) (envOf alloc)) := spares
    have hcall := h.call (envOf alloc) sound.settled.idle hspares
    refine hcall.same ?_ (fun _ => Iff.rfl)
    simp only [Machine.owed, sound.settled.idle]
    rfl
  · rw [if_neg hmore]
    exact h

theorem hashing_step (wf : TorrentLayout.WellFormed u.pieces.mi) {action : Action}
    (sound : EngineSound u t) (h : HashingMatches t.machine)
    (spares : SparesHashing u.pieces t action)
    (hstep : step u t action = some t') : HashingMatches t'.machine := by
  by_cases hother : action.verifies = false
  · exact hashing_reached wf sound.settled h (step_reached hother hstep)
  · cases action with
    | startupVerify alloc =>
      simp only [step] at hstep
      split at hstep
      · cases hstep
        exact hashing_startup sound h spares
      · cases hstep
    | checkCompletion alloc flushed =>
      cases hstep
      exact hashing_reached wf sound.settled h (checkCompletion_reached u.pieces t alloc flushed)
    | _ => exact absurd rfl hother

/-- Inside a call every state of the two threads has the agreement, up to the job that is
being applied. -/
theorem hashing_inside (wf : TorrentLayout.WellFormed u.pieces.mi) (sound : EngineSound u t)
    (h : HashingMatches t.machine) {made : Made} (hmade : made.Hashing u.pieces t.machine)
    {acts : List Act} (before : acts <+: made.acts) {m : Machine} {events : List Event}
    (hrun : PieceManager.run u.pieces made.machine acts = some (m, events)) : HashingMatches m := by
  have hstart : (∃ log, MachineSound u.pieces made.machine log) ∧ HashingMatches made.machine := by
    refine hmade.reached.induction wf sound.settled
      (P := fun m => (∃ log, MachineSound u.pieces m log) ∧ HashingMatches m) ?_
      ⟨sound.settled.sound, h⟩
    rintro m log act m' events hsound ⟨_, hold⟩ hashing ht
    refine ⟨?_, hold.transition hsound.buffers (spares_of_hashing hashing) ht⟩
    exact ⟨log ++ events, hsound.buffers.transition ht, hsound.ring.transition hsound.buffers ht,
      hsound.books.transition wf hsound.buffers hsound.ring ht⟩
  obtain ⟨⟨log, hsound⟩, hmatches⟩ := hstart
  have key := run_induction (fun m log => MachineSound u.pieces m log ∧ HashingMatches m)
    Act.Hashing ?_
    log hrun (fun act hact => hmade.hashing act (before.subset hact)) ⟨hsound, hmatches⟩
  · exact key.2
  · rintro m log act m' events ⟨hsound, hold⟩ hashing hstep
    exact ⟨hsound.step wf hstep,
      hold.transition hsound.buffers (spares_of_hashing hashing) (step_transition hstep)⟩

theorem hashing_createTorrent (u : Setup) (options : Option Options) (hashOk : Bool)
    (heap : Nat → Nat → UInt8) (store : Store) :
    HashingMatches (createTorrent u options hashOk heap store).machine := by
  -- an empty ring and no piece hashing, through the calls of the creation
  have keeps : ∀ {s : Mgr} (call : Call), s.hashQCount = 0 ∧ (∀ i, (s.slots i).state ≠ .hashing) →
      (start u.pieces s (envOf true) call).1.hashQCount = 0 ∧
        ∀ i, ((start u.pieces s (envOf true) call).1.slots i).state ≠ .hashing := by
    rintro s call ⟨hempty, hnone⟩
    have hedits := (start_edits u.pieces s (envOf true) call).1
    refine ⟨(ring_fields hedits.ring).2.1.trans hempty, ?_⟩
    intro i hashing
    refine hnone i (hedits.induction
      (P := fun s' => (s'.slots i).state = .hashing → (s.slots i).state = .hashing) ?_ id hashing)
    exact fun _ _ hold hedit hashing => hold (hedit.hashing hashing)
  have hcreated : (createPieces u.pieces options (create u.pieces hashOk heap store)).hashQCount =
      0 ∧ ∀ i, ((createPieces u.pieces options (create u.pieces hashOk heap store)).slots i).state ≠
        .hashing := by
    have hfresh : (create u.pieces hashOk heap store).hashQCount = 0 ∧
        ∀ i, ((create u.pieces hashOk heap store).slots i).state ≠ .hashing :=
      ⟨rfl, fun i => by simp [create]⟩
    unfold createPieces
    split
    · exact hfresh
    · next o =>
      have hpolicy := keeps (.setStrictPolicy o.strictOrderLookahead o.strictFillPendingFirst)
        hfresh
      dsimp only
      split
      · exact keeps (.presetHave o.haveBitfield o.haveBitfieldLen) hpolicy
      · exact hpolicy
  obtain ⟨hempty, hnone⟩ := hcreated
  have howed : (createTorrent u options hashOk heap store).machine.owed = [] := by
    simp [Machine.owed, createTorrent, Pc.flight, Mgr.ringPieces, hempty]
  constructor
  · intro i
    rw [howed]
    simpa [createTorrent] using hnone i
  · rw [howed]
    exact List.nodup_nil

end Steps

/-- In every run whose startup check spares the pieces that are hashing, a piece is hashing
iff it has exactly one job in the ring, and has no buffer then; and whatever step comes
next, every result it takes off the ring is delivered. -/
theorem run_hashing_agrees {u : Setup} (wf : TorrentLayout.WellFormed u.pieces.mi)
    {options : Option Options} {hashOk : Bool} {heap : Nat → Nat → UInt8} {store : Store}
    (opened : Opened u.pieces.mi store) {actions : List Action} {t : Torrent}
    (h : run u (createTorrent u options hashOk heap store) actions = some t)
    (spares : Conforms u (SparesHashing u.pieces)
    (createTorrent u options hashOk heap store) actions) :
    (∀ i, (t.mgr.slots i).state = .hashing ↔ t.mgr.ringPieces.count i = 1) ∧
      (∀ i, (t.mgr.slots i).state = .hashing → (t.mgr.slots i).buf = none) ∧
      ∀ action t', step u t action = some t' → ∀ made ∈ stepCalls u t action,
        ∀ acts, acts <+: made.acts → ∀ m events,
          PieceManager.run u.pieces made.machine acts = some (m, events) → Delivers u.pieces m := by
  obtain ⟨hsound, hmatches⟩ := run_keeps_where wf (P := fun t => HashingMatches t.machine)
    (fun _ _ _ hsound hold hok hstep => hashing_step wf hsound hold hok hstep) h spares
    (sound_createTorrent wf options hashOk heap opened)
    (hashing_createTorrent u options hashOk heap store)
  obtain ⟨log, hmachine⟩ := hsound.settled.sound
  refine ⟨hashing_ring hmatches hsound.settled.idle, hmachine.buffers.owned.detached, ?_⟩
  intro action t' hstep made hmade acts hbefore m events hrun
  by_cases hstartup : ∃ alloc, action = .startupVerify alloc
  · -- a round of the startup check comes back at once
    obtain ⟨alloc, rfl⟩ := hstartup
    have hidle : m.pc = .idle := by
      simp only [stepCalls] at hmade
      split at hmade
      · rw [List.mem_singleton.mp hmade] at hbefore hrun
        have hcases : acts = [] ∨
            acts = [.call (.checkExisting t.startupVerifyIndex) (envOf alloc)] := by
          obtain ⟨rest, hrest⟩ := hbefore
          cases acts with
          | nil => exact Or.inl rfl
          | cons act more =>
            simp only [List.cons_append, List.cons.injEq, List.append_eq_nil_iff] at hrest
            exact Or.inr (by rw [hrest.1, hrest.2.1])
        rcases hcases with rfl | rfl
        · cases hrun
          exact hsound.settled.idle
        · rw [PieceManager.run, step_idle_call hsound.settled.idle] at hrun
          cases hrun
          rfl
      · cases hmade
    intro io job next hpc
    rw [hidle] at hpc
    cases hpc
  · have hother : ∀ alloc, action ≠ .startupVerify alloc := fun alloc heq => hstartup ⟨alloc, heq⟩
    exact hashing_delivers (hashing_inside wf hsound hmatches
      (stepCalls_hashing hother hstep made hmade) hbefore hrun)

/-- A web seed has the first piece, and the hash worker has it then. -/
def webPiece : Action := .submitWebPiece 0 [0] true (fun _ => ⟨willing, [.lock]⟩) 5

theorem run_hashing_agrees_web : ∃ t,
    run threeSetup threeTorrent (startupCheck ++ [webPiece]) = some t ∧
      (t.mgr.slots 0).state = .hashing ∧ t.mgr.ringPieces.count 0 = 1 ∧
      (t.mgr.slots 0).buf = none := by
  have hrun : (run threeSetup threeTorrent (startupCheck ++ [webPiece])).map
      (fun t => (t.mgr.slots 0).state) = some .hashing := by decide +kernel
  obtain ⟨t, hsome, hstate⟩ := Option.map_eq_some_iff.mp hrun
  have hopened : Opened threeSetup.pieces.mi threeStore := rfl
  have hspares : Conforms threeSetup (SparesHashing threeSetup.pieces) threeTorrent
      (startupCheck ++ [webPiece]) := by
    refine ⟨fun hashing => absurd hashing (by decide +kernel), ?_⟩
    rintro _ ⟨⟩
    refine ⟨fun hashing => absurd hashing (by decide +kernel), ?_⟩
    rintro _ ⟨⟩
    refine ⟨fun hashing => absurd hashing (by decide +kernel), ?_⟩
    rintro _ ⟨⟩
    exact ⟨trivial, fun _ _ => trivial⟩
  obtain ⟨hiff, hdetached, _⟩ := run_hashing_agrees threePieces_wellFormed hopened hsome hspares
  exact ⟨t, hsome, hstate, (hiff 0).mp hstate, hdetached 0 hstate⟩

/-- The piece comes while the startup check is at it. The check finds nothing on disk and
resets the slot, with the job in the ring; the hash is right, and nothing is written. -/
theorem hashing_dropped :
    (run threeSetup threeTorrent [webPiece, .startupVerify true]).map (fun t =>
      ((t.mgr.slots 0).state, t.mgr.ringPieces)) = some (.empty, [0]) ∧
    (run threeSetup threeTorrent [webPiece, .startupVerify true, .worker, .worker, .worker,
      .drainHashResults ⟨willing, [.lock, .apply willing.io, .lock]⟩]).map (fun t =>
      ((t.mgr.slots 0).state, t.mgr.ringPieces, t.mgr.store.files.map FileHandle.fp)) =
      some (.empty, [], [some []]) := by
  constructor
  · decide +kernel
  · decide +kernel

end TorrentEngine
