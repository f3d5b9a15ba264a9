import Pipensx.SkippedPieces

/-!
# Resuming from a saved bitfield

The startup check reads and hashes every piece; a fast resume takes the pieces of the saved
bitfield without reading them. A session that started with the check has written nothing
else to disk than pieces with their hash, so on the pieces it saved both give the same
answer.
-/

namespace Storage

theorem modeAt_of_files {s s' : Store} (h : s'.files = s.files) (x : Int) :
    s'.modeAt x = s.modeAt x := by
  simp only [Store.modeAt, h]

theorem byteAt_of_files {s s' : Store} (h : s'.files = s.files) (x : Int) :
    s'.byteAt x = s.byteAt x := by
  simp only [Store.byteAt, h]

end Storage

namespace TorrentEngine

open PieceManager PieceGeometry Storage ByteBits

section Integrity

variable {u : Setup} {t t' : Torrent}

theorem integrity_reached {c : Config} (wf : TorrentLayout.WellFormed c.mi) {m m' : Machine}
    (settled : Settled c m) (h : Integrity c m.mgr) (reached : Reached c m m') :
    Integrity c m'.mgr := by
  refine reached.induction wf settled (P := fun m => Integrity c m.mgr) ?_ h
  intro m log act m' events hsound hold hashing ht
  have hallowed : act.presets = false := by
    cases act with
    | call call env => exact hashing.1
    | _ => rfl
  exact hold.transition wf hsound.buffers hsound.ring hallowed ht

/-- The startup check takes no piece that it has not read, and writes nothing. -/
theorem integrity_startup (wf : TorrentLayout.WellFormed u.pieces.mi)
    (h : Integrity u.pieces t.mgr) (alloc : Bool) :
    Integrity u.pieces (startupRound u.pieces t alloc).mgr := by
  have hmgr := congrArg Machine.mgr (startupRound_spec u.pieces t alloc).1
  dsimp only at hmgr
  rw [Torrent.mgr, hmgr]
  split
  · have hedits := (start_edits u.pieces t.mgr (envOf alloc)
      (.checkExisting t.startupVerifyIndex)).1
    exact hedits.induction (P := Integrity u.pieces) (fun _ _ hold hedit =>
      hold.edit wf rfl hedit) h
  · exact h

theorem integrity_step (wf : TorrentLayout.WellFormed u.pieces.mi) {action : Action}
    (sound : EngineSound u t) (h : Integrity u.pieces t.mgr) (hstep : step u t action = some t') :
    Integrity u.pieces t'.mgr := by
  by_cases hother : action.verifies = false
  · exact integrity_reached wf sound.settled h (step_reached hother hstep)
  · cases action with
    | startupVerify alloc =>
      simp only [step] at hstep
      split at hstep
      · cases hstep
        exact integrity_startup wf h alloc
      · cases hstep
    | checkCompletion alloc flushed =>
      cases hstep
      exact integrity_reached wf sound.settled h (checkCompletion_reached u.pieces t alloc flushed)
    | _ => exact absurd rfl hother

theorem integrity_createTorrent (wf : TorrentLayout.WellFormed u.pieces.mi)
    {options : Option Options}
    (hashOk : Bool) (heap : Nat → Nat → UInt8) {store : Store} (opened : Opened u.pieces.mi store)
    (scanned : (createTorrent u options hashOk heap store).startupVerifying = true) :
    Integrity u.pieces (createTorrent u options hashOk heap store).mgr := by
  have hempty : Integrity u.pieces (create u.pieces hashOk heap store) := by
    refine ⟨laid_of_opened wf.layout opened, ?_⟩
    intro i _ hdone
    cases hdone
  simp only [createTorrent, Bool.not_eq_true'] at scanned
  simp only [createTorrent, Torrent.mgr, createPieces]
  cases options with
  | none => exact hempty
  | some o =>
    simp only [Option.any_some] at scanned
    simp only [scanned]
    exact hempty.keep rfl (fun _ _ => id)

end Integrity

section Start

variable {c : Config} {s : Mgr} {bf : Nat → UInt8} {i : Nat}

/-- A piece of a new manager that a check does not find is left as it was. -/
theorem reset_empty (c : Config) (s : Mgr) (empty : (s.slots i).state = .empty) :
    ((resetPiece c s i).slots i).state = .empty ∧
      msbHas (resetPiece c s i).availableBf i = msbHas s.availableBf i := by
  obtain ⟨n, hn⟩ := orderCursorRewind_eq c ((forgetDone c s i).setSlot i Slot.cleared) i
  have hforget : forgetDone c s i = s := by simp [forgetDone, empty]
  rw [resetPiece, hn, hforget]
  exact ⟨by simp [Mgr.setSlot, Slot.cleared], rfl⟩

/-- A saved piece whose bytes are right where it lies on disk: the two agree. -/
theorem preset_agrees (wf : TorrentLayout.WellFormed c.mi) (laid : Laid s.store.files)
    (hi : i < c.mi.numPieces) (empty : (s.slots i).state = .empty) (saved : msbHas bf i = true)
    (right : s.store.OnDisk (absOff c.mi i) (plenOf c i) → Verified c s.store i) :
    (((presetOne c bf s i).record i).1.state = .done ↔
        (checkExisting c true s i).2 = 1 ∧ ((checkExisting c true s i).1.slots i).state = .done) ∧
      ((presetOne c bf s i).record i).2.2 = msbHas (checkExisting c true s i).1.availableBf i := by
  have hbound : ¬ i ≥ c.mi.numPieces := Nat.not_le.mpr hi
  have hfresh : ¬ (msbHas bf i = false ∨ (s.slots i).state = .done) := by simp [saved, empty]
  have hnot : (s.slots i).state ≠ .done := by simp [empty]
  have hreadable := storageRangeReadable_iff laid (absOff c.mi i) (plenOf c i)
  obtain ⟨v, hv⟩ := verifyScratch_eq true s
  have hscratch : (verifyScratch true s).1 = true := by
    unfold verifyScratch
    split <;> rfl
  have hvalid : onDiskValid c { s with verifyBuf := v } i = onDiskValid c s i := rfl
  simp only [presetOne, hfresh, if_false, checkExisting, hbound, hscratch, hv, hvalid,
    Bool.true_eq_false]
  by_cases hskipped : storageRangeSkipped s.store (absOff c.mi i) (plenOf c i) = true
  · simp only [hskipped, if_true, hnot, ne_eq, not_false_eq_true]
    constructor
    · simp [record_markDoneUnhashed, Slot.filled]
    · rfl
  · simp only [hskipped, if_false, Bool.false_eq_true]
    by_cases hdisk : s.store.OnDisk (absOff c.mi i) (plenOf c i)
    · have hread : onDiskValid c s i = true := (onDiskValid_iff wf laid hi).mpr (right hdisk)
      simp only [hreadable.mpr hdisk, if_true, hread, hnot, ne_eq, not_false_eq_true]
      constructor
      · simp [record_markDoneUnhashed, Slot.filled]
      · rfl
    · -- what does not lie on disk as a whole can be neither taken over nor read
      have hread : ¬ onDiskValid c s i = true := fun h => hdisk (onDisk_of_valid wf laid hi h)
      have hnone : ¬ storageRangeReadable s.store (absOff c.mi i) (plenOf c i) = true :=
        fun h => hdisk (hreadable.mp h)
      obtain ⟨hstate, havailable⟩ := reset_empty c { s with verifyBuf := v } empty
      simp only [hnone, hread, if_false, Bool.false_eq_true]
      refine ⟨?_, havailable.symm⟩
      simp [Mgr.record, empty]

/-- A piece that was not saved is not touched. -/
theorem preset_unsaved (unsaved : msbHas bf i = false) : presetOne c bf s i = s := by
  simp [presetOne, unsaved]

end Start

/-- A bitfield as the application hands it back. -/
def savedBits (bits : List UInt8) (j : Nat) : UInt8 := bits.getD j 0

theorem savedBits_copy {c : Config} {t : Torrent} {outLen : Nat} {bits : List UInt8}
    (snapshot : copyHaveBitfield c t outLen = some bits) :
    bits.length = (c.mi.numPieces + 7) / 8 ∧
      ∀ i, i < c.mi.numPieces → msbHas (savedBits bits) i = msbHas t.mgr.haveBf i := by
  simp only [copyHaveBitfield] at snapshot
  split at snapshot
  · cases snapshot
  · split at snapshot
    · cases snapshot
    · cases snapshot
      refine ⟨by simp, ?_⟩
      intro i hi
      have hbyte : i / 8 < (c.mi.numPieces + 7) / 8 := by omega
      simp [msbHas, test, savedBits, hbyte]

/-- In a session that started with the startup check, a bitfield is copied out and then
handed to a new manager over the same files: each saved piece is taken over exactly if the
startup check of the new manager would find it, with the same bit in `available_bf`, and all
others are as they were. -/
theorem preset_iff_check {u : Setup} (wf : TorrentLayout.WellFormed u.pieces.mi)
    {options : Option Options} {hashOk : Bool} {heap : Nat → Nat → UInt8} {store : Store}
    (opened : Opened u.pieces.mi store)
    (scanned : (createTorrent u options hashOk heap store).startupVerifying = true)
    {actions : List Action} {t t' : Torrent} {k : Calling}
    (h : run u (createTorrent u options hashOk heap store) actions = some t)
    (flush : step u t (.hashFlush k) = some t') {outLen : Nat} {bits : List UInt8}
    (snapshot : copyHaveBitfield u.pieces t' outLen = some bits) {store' : Store}
    (files : store'.files = t'.mgr.store.files) {hashOk' : Bool}
    {heap' : Nat → Nat → UInt8} {s : Mgr}
    (fresh : s = create u.pieces hashOk' heap' store') {i : Nat} (hi : i < u.pieces.mi.numPieces) :
    if msbHas (savedBits bits) i = true then
      (((presetHave u.pieces s (some (savedBits bits)) bits.length).slots i).state = .done ↔
        (checkExisting u.pieces true s i).2 = 1 ∧
          ((checkExisting u.pieces true s i).1.slots i).state = .done) ∧
      msbHas (presetHave u.pieces s (some (savedBits bits)) bits.length).availableBf i =
        msbHas (checkExisting u.pieces true s i).1.availableBf i
    else (presetHave u.pieces s (some (savedBits bits)) bits.length).record i = s.record i := by
  obtain ⟨hsound, hintegrity⟩ := run_keeps wf (P := fun t => Integrity u.pieces t.mgr)
    (fun _ _ _ hsound hold hstep => integrity_step wf hsound hold hstep) h
    (sound_createTorrent wf options hashOk heap opened)
    (integrity_createTorrent wf hashOk heap opened scanned)
  have hsound' := step_sound wf hsound flush
  have hintegrity' := integrity_step wf hsound hintegrity flush
  obtain ⟨hlength, hbits⟩ := savedBits_copy snapshot
  have hrecord := presetHave_record s (savedBits bits) hi
  rw [hlength]
  have hstore : s.store.files = t'.mgr.store.files := by
    rw [fresh]
    exact files
  have hlaid : Laid s.store.files := by
    rw [hstore]
    exact hintegrity'.laid
  have hempty : (s.slots i).state = .empty := by
    rw [fresh]
    rfl
  split
  · next hsaved =>
    have hdone : (t'.mgr.slots i).state = .done := by
      rw [hbits i hi, hsound'.bookkeeping.haveBf] at hsaved
      exact hsaved.2
    have hright : s.store.OnDisk (absOff u.pieces.mi i) (plenOf u.pieces i) →
        Verified u.pieces s.store i := by
      intro hdisk
      obtain ⟨data, hdata, hmatch, hbytes⟩ := hintegrity'.verified i hi hdone (by
        intro k hk
        rw [← modeAt_of_files hstore]
        exact hdisk k hk)
      refine ⟨data, hdata, hmatch, ?_⟩
      intro k hk
      rw [byteAt_of_files hstore]
      exact hbytes k hk
    have hagrees := preset_agrees wf hlaid hi hempty hsaved hright
    rw [← hrecord] at hagrees
    exact hagrees
  · next hsaved =>
    rw [hrecord, preset_unsaved (by simpa using hsaved)]

/-- The first piece comes from a web seed and is still being hashed. -/
def webStarted : List Action :=
  startupCheck ++ [.submitWebPiece 0 [0] true (fun _ => ⟨willing, [.lock]⟩) 5]

/-- The worker finishes, and the flush applies the result. -/
def webFlush : Calling :=
  ⟨willing, [.worker, .worker, .worker, .lock, .lock, .apply willing.io, .lock]⟩

theorem preset_iff_check_web : ∃ t t' bits,
    run threeSetup threeTorrent webStarted = some t ∧
      step threeSetup t (.hashFlush webFlush) = some t' ∧
      copyHaveBitfield threeSetup.pieces t' 1 = some bits ∧ msbHas (savedBits bits) 0 = true ∧
      (((presetHave threeSetup.pieces (create threeSetup.pieces true (fun _ _ => 0)
          ⟨t'.mgr.store.files, [], none⟩) (some (savedBits bits)) bits.length).slots
            0).state = .done ↔
        (checkExisting threeSetup.pieces true (create threeSetup.pieces true (fun _ _ => 0)
          ⟨t'.mgr.store.files, [], none⟩) 0).2 = 1 ∧
        ((checkExisting threeSetup.pieces true (create threeSetup.pieces true (fun _ _ => 0)
          ⟨t'.mgr.store.files, [], none⟩) 0).1.slots 0).state = .done) := by
  have hrun : (run threeSetup threeTorrent webStarted).map (fun t =>
      (step threeSetup t (.hashFlush webFlush)).map (fun t' =>
        copyHaveBitfield threeSetup.pieces t' 1)) = some (some (some [128])) := by decide +kernel
  obtain ⟨t, hsome, hflushed⟩ := Option.map_eq_some_iff.mp hrun
  obtain ⟨t', hflush, hsnapshot⟩ := Option.map_eq_some_iff.mp hflushed
  have hopened : Opened threeSetup.pieces.mi threeStore := rfl
  have hsaved : msbHas (savedBits [128]) 0 = true := by decide
  have hscan : threeTorrent.startupVerifying = true := rfl
  have hfiles : (⟨t'.mgr.store.files, [], none⟩ : Store).files = t'.mgr.store.files := rfl
  have hfresh : create threeSetup.pieces true (fun _ _ => 0) ⟨t'.mgr.store.files, [], none⟩ =
      create threeSetup.pieces true (fun _ _ => 0) ⟨t'.mgr.store.files, [], none⟩ := rfl
  have hfirst := preset_iff_check threePieces_wellFormed hopened hscan hsome hflush
    hsnapshot hfiles hfresh (i := 0) (by decide)
  rw [if_pos hsaved] at hfirst
  exact ⟨t, t', [128], hsome, hflush, hsnapshot, hsaved, hfirst.1⟩

end TorrentEngine
