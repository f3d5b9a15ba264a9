import Mathlib.Algebra.BigOperators.Ring.Finset
import Mathlib.Algebra.Order.BigOperators.Group.Finset
import Pipensx.SinkDelivery
import Pipensx.TorrentTick

/-!
# Pieces nobody wants

A piece that lies in skipped files, or in what a sink has consumed before, is marked done
at the start: by the startup check when it gets to the piece, or by the fast resume, but
there only if the saved bitfield has the piece. `skipped_bytes` counts all such pieces, and
the application takes it off `completed_bytes`.
-/

namespace Storage

open SinkDelivery

/-- Whether a position is skipped does not depend on what the files contain. -/
theorem SameShape.idle {s s' : Store} (h : SameShape s s') (laid : Laid s.files) {x : Int}
    (idle : Idle s.files x) : Idle s'.files x := by
  obtain ⟨i, fh, localOff, hfind, hmode⟩ := idle
  obtain ⟨fh', hfind', hshape⟩ := h.findFile laid hfind
  obtain ⟨_, _, hsame, hready⟩ := shape_fields hshape
  refine ⟨i, fh', localOff, hfind', ?_⟩
  rw [hsame, hready]
  exact hmode

theorem SameShape.skipped {s s' : Store} (h : SameShape s s') (laid : Laid s.files) (offset : Int)
    (len : Nat) : storageRangeSkipped s' offset len = storageRangeSkipped s offset len := by
  rw [Bool.eq_iff_iff, storageRangeSkipped_iff (h.laid laid), storageRangeSkipped_iff laid]
  constructor
  · intro hidle k hk
    exact h.symm.idle (h.laid laid) (hidle k hk)
  · intro hidle k hk
    exact h.idle laid (hidle k hk)

end Storage

namespace TorrentEngine

open PieceManager PieceGeometry Storage ByteBits

/-- What the application relies on when it takes `skipped_bytes` off `completed_bytes`;
`store` is as it was opened. -/
structure SkippedCounted (c : Config) (store : Store) (t : Torrent) : Prop where
  done : ∀ i, i < c.mi.numPieces →
    storageRangeSkipped t.mgr.store (absOff c.mi i) (plenOf c i) = true →
    (t.mgr.slots i).state = .done
  skipped : (torrentStat c (refreshSkippedBytes c store) t).skippedBytes ≤
    (torrentStat c (refreshSkippedBytes c store) t).completedBytes
  completed : ((torrentStat c (refreshSkippedBytes c store) t).completedBytes : Int) ≤
    (torrentStat c (refreshSkippedBytes c store) t).totalBytes

/-- A fast resume, if there is one, whose bitfield has every skipped piece. -/
def SkippedSaved (c : Config) (options : Option Options) (store : Store) : Prop :=
  ∀ o bf, options = some o → o.haveBitfield = some bf →
    o.haveBitfieldLen = (c.mi.numPieces + 7) / 8 →
    ∀ i, i < c.mi.numPieces → storageRangeSkipped store (absOff c.mi i) (plenOf c i) = true →
      msbHas bf i = true

/-- Every skipped piece is done, as far as the startup check has got. -/
structure SkippedDone (c : Config) (store : Store) (t : Torrent) : Prop where
  shape : SameShape store t.mgr.store
  done : ∀ i, i < c.mi.numPieces → storageRangeSkipped store (absOff c.mi i) (plenOf c i) = true →
    (t.startupVerifying = true → i < t.startupVerifyIndex) → (t.mgr.slots i).state = .done

section Steps

variable {u : Setup} {t t' : Torrent} {store : Store}

/-- A skipped piece is not on disk, so that it is kept whatever the disk holds. -/
theorem kept_of_skipped {c : Config} {s : Mgr} {i : Nat} (wf : TorrentLayout.WellFormed c.mi)
    (laid : Laid s.store.files) (hi : i < c.mi.numPieces)
    (skipped : storageRangeSkipped s.store (absOff c.mi i) (plenOf c i) = true)
    (done : (s.slots i).state = .done) : KeptPiece c s i := by
  refine ⟨done, ?_⟩
  intro hdisk
  have hpos := (plenOf_pos wf hi).2
  exact absurd (hdisk 0 hpos) (storageRangeSkipped_notDisk laid skipped 0 hpos)

theorem SkippedDone.reached (wf : TorrentLayout.WellFormed u.pieces.mi) (laid : Laid store.files)
    (sound : EngineSound u t) (h : SkippedDone u.pieces store t)
    (reached : Reached u.pieces t.machine t'.machine)
    (starting : t'.startupVerifying = t.startupVerifying)
    (index : t'.startupVerifyIndex = t.startupVerifyIndex) : SkippedDone u.pieces store t' := by
  refine ⟨h.shape.trans (reached.shape wf sound.settled), ?_⟩
  intro i hi hskipped hchecked
  rw [starting, index] at hchecked
  have hskipped' := hskipped
  rw [← h.shape.skipped laid] at hskipped'
  have hkept := kept_of_skipped wf (h.shape.laid laid) hi hskipped' (h.done i hi hskipped hchecked)
  exact (reached.kept wf sound.settled hi hkept).1

theorem SkippedDone.startup (laid : Laid store.files) (h : SkippedDone u.pieces store t)
    (starting : t.startupVerifying = true) (alloc : Bool) :
    SkippedDone u.pieces store (startupRound u.pieces t alloc) := by
  obtain ⟨hmachine, hindex, hover⟩ := startupRound_spec u.pieces t alloc
  have hmgr : (startupRound u.pieces t alloc).mgr =
      if t.startupVerifyIndex < u.pieces.mi.numPieces then
        (checkExisting u.pieces alloc t.mgr t.startupVerifyIndex).1 else t.mgr :=
    congrArg Machine.mgr hmachine
  have hstore : (startupRound u.pieces t alloc).mgr.store = t.mgr.store := by
    rw [hmgr]
    split
    · exact checkExisting_store u.pieces alloc t.mgr _
    · rfl
  constructor
  · rw [hstore]
    exact h.shape
  · intro i hi hskipped hchecked
    -- the piece of this round, or one that an earlier round has been at
    by_cases hthis : i = t.startupVerifyIndex
    · subst hthis
      rw [hmgr, if_pos hi]
      refine checkExisting_skipped alloc hi ?_
      rw [h.shape.skipped laid]
      exact hskipped
    · have hbefore : i < t.startupVerifyIndex := by
        cases hmore : (startupRound u.pieces t alloc).startupVerifying with
        | true =>
          have hlt := hchecked hmore
          rw [hindex] at hlt
          split at hlt <;> omega
        | false =>
          rcases hover hmore with hstopped | hend
          · rw [starting] at hstopped
            cases hstopped
          · rw [hindex] at hend
            split at hend <;> omega
      have hdone := h.done i hi hskipped (fun _ => hbefore)
      rw [hmgr]
      split
      · rw [checkExisting_other alloc t.mgr hthis]
        exact hdone
      · exact hdone

theorem SkippedDone.step (wf : TorrentLayout.WellFormed u.pieces.mi) (laid : Laid store.files)
    {action : Action} (sound : EngineSound u t) (h : SkippedDone u.pieces store t)
    (hstep : step u t action = some t') : SkippedDone u.pieces store t' := by
  by_cases hother : action.verifies = false
  · have hprogress := step_progress hother hstep
    exact h.reached wf laid sound (step_reached hother hstep)
      (congrArg Progress.startupVerifying hprogress)
      (congrArg Progress.startupVerifyIndex hprogress)
  · cases action with
    | startupVerify alloc =>
      simp only [TorrentEngine.step] at hstep
      split at hstep
      · next hstarting =>
        cases hstep
        exact h.startup laid hstarting alloc
      · cases hstep
    | checkCompletion alloc flushed =>
      cases hstep
      obtain ⟨hstarting, hindex⟩ := checkCompletion_starting u.pieces t alloc flushed
      exact h.reached wf laid sound (checkCompletion_reached u.pieces t alloc flushed)
        hstarting hindex
    | _ => exact absurd rfl hother

end Steps

section Sums

variable {c : Config} {s : Mgr} {store : Store}

theorem refreshSkippedBytes_eq (c : Config) (store : Store) :
    refreshSkippedBytes c store = ∑ i ∈ (Finset.range c.mi.numPieces).filter (fun i =>
      storageRangeSkipped store (absOff c.mi i) (plenOf c i) = true), plenOf c i := by
  have hloop : ∀ n, (List.range n).foldl (fun skipped idx =>
      if storageRangeSkipped store (absOff c.mi idx) (plenOf c idx) then skipped + plenOf c idx
      else skipped) 0 = ∑ i ∈ (Finset.range n).filter (fun i =>
        storageRangeSkipped store (absOff c.mi i) (plenOf c i) = true), plenOf c i := by
    intro n
    induction n with
    | zero => rfl
    | succ n ih =>
      rw [List.range_succ, List.foldl_append, ih, Finset.range_add_one, Finset.filter_insert]
      simp only [List.foldl_cons, List.foldl_nil]
      split
      · rw [Finset.sum_insert (by simp)]
        omega
      · rfl
  exact hloop c.mi.numPieces

/-- The done pieces are some of all pieces. -/
theorem completed_le (wf : TorrentLayout.WellFormed c.mi) (books : Bookkeeping c s) :
    (s.completedBytes : Int) ≤ c.mi.totalLength := by
  have hsum : (s.completedBytes : Int) = ∑ i ∈ doneSet c s, pieceLen c.mi i := by
    rw [books.completed]
    push_cast
    exact Finset.sum_congr rfl (fun i hi => (plenOf_pos wf (mem_doneSet.mp hi).1).1)
  have htotal := sum_pieceLen wf.exact
  rw [hsum, ← htotal]
  refine Finset.sum_le_sum_of_subset_of_nonneg ?_ ?_
  · intro i hi
    exact Finset.mem_range.mpr (mem_doneSet.mp hi).1
  · intro i hi _
    have hlow := (pieceLen_bounds wf.exact (Finset.mem_range.mp hi)).1
    omega

theorem skipped_le (books : Bookkeeping c s)
    (done : ∀ i, i < c.mi.numPieces →
      storageRangeSkipped store (absOff c.mi i) (plenOf c i) = true →
      (s.slots i).state = .done) : refreshSkippedBytes c store ≤ s.completedBytes := by
  rw [refreshSkippedBytes_eq, books.completed]
  refine Finset.sum_le_sum_of_subset ?_
  intro i hi
  obtain ⟨hrange, hskipped⟩ := Finset.mem_filter.mp hi
  have hlt := Finset.mem_range.mp hrange
  exact mem_doneSet.mpr ⟨hlt, done i hlt hskipped⟩

end Sums

section Start

variable {u : Setup} {options : Option Options} {hashOk : Bool} {heap : Nat → Nat → UInt8}
  {store : Store}

theorem createPieces_store (c : Config) (options : Option Options) (s : Mgr) :
    (createPieces c options s).store = s.store := by
  unfold createPieces
  split
  · rfl
  · next o =>
    dsimp only
    split
    · unfold presetHave
      split
      · rfl
      · next bf _ =>
        split
        · rfl
        · exact (presetLoop_spec c bf (setStrictPolicy s _ _) c.mi.numPieces 0).1
    · rfl

/-- Among the pieces the fast resume finds empty, a skipped one becomes done iff the
bitfield has it. -/
theorem preset_skipped_iff {c : Config} {s : Mgr} {bf : Nat → UInt8} {i : Nat}
    (hi : i < c.mi.numPieces) (empty : (s.slots i).state = .empty)
    (skipped : storageRangeSkipped s.store (absOff c.mi i) (plenOf c i) = true) :
    ((presetHave c s (some bf) ((c.mi.numPieces + 7) / 8)).slots i).state = .done ↔
      msbHas bf i = true := by
  have hslot : (presetHave c s (some bf) ((c.mi.numPieces + 7) / 8)).slots i =
      (presetOne c bf s i).slots i := congrArg Prod.fst (presetHave_record s bf hi)
  rw [hslot]
  cases hbit : msbHas bf i with
  | false => simp [presetOne, hbit, empty]
  | true => simp [presetOne, hbit, empty, skipped, Slot.filled]

/-- After a fast resume a skipped piece is done iff the bitfield has it. -/
theorem createTorrent_skipped_iff {o : Options} {bf : Nat → UInt8}
    (bitfield : o.haveBitfield = some bf)
    (length : o.haveBitfieldLen = (u.pieces.mi.numPieces + 7) / 8) {i : Nat}
    (hi : i < u.pieces.mi.numPieces)
    (skipped : storageRangeSkipped store (absOff u.pieces.mi i) (plenOf u.pieces i) = true) :
    ((createTorrent u (some o) hashOk heap store).mgr.slots i).state = .done ↔
      msbHas bf i = true := by
  have hresume : o.fastResume u.pieces.mi.numPieces = true := by
    simp [Options.fastResume, bitfield, length]
  simp only [createTorrent, createPieces, Torrent.mgr, hresume, if_true, bitfield, length]
  exact preset_skipped_iff (s := setStrictPolicy (create u.pieces hashOk heap store)
    o.strictOrderLookahead o.strictFillPendingFirst) hi rfl skipped

theorem createTorrent_skippedDone (saved : SkippedSaved u.pieces options store) :
    SkippedDone u.pieces store (createTorrent u options hashOk heap store) := by
  constructor
  · have hstore : (createTorrent u options hashOk heap store).mgr.store = store :=
      createPieces_store u.pieces options _
    rw [hstore]
    exact SameShape.refl store
  · intro i hi hskipped hchecked
    by_cases hresume : options.any (fun o => o.fastResume u.pieces.mi.numPieces) = true
    · obtain ⟨o, rfl, hfast⟩ : ∃ o, options = some o ∧
        o.fastResume u.pieces.mi.numPieces = true := by
        simpa [Option.any_eq_true] using hresume
      simp only [Options.fastResume, Bool.and_eq_true, decide_eq_true_eq,
        Option.isSome_iff_exists] at hfast
      obtain ⟨⟨bf, hbitfield⟩, hlength⟩ := hfast
      refine (createTorrent_skipped_iff hbitfield hlength hi hskipped).mpr ?_
      exact saved o bf rfl hbitfield hlength i hi hskipped
    · have hnone : ¬ i < 0 := Nat.not_lt_zero i
      exact absurd (hchecked (by simpa [createTorrent] using hresume)) hnone

end Start

/-- In every state of every run in which no startup check is running, every skipped piece
is done and the three sums are in order, exactly if a fast resume that was started with had
every skipped piece in its bitfield. -/
theorem run_skipped_iff {u : Setup} (wf : TorrentLayout.WellFormed u.pieces.mi)
    {options : Option Options} {hashOk : Bool} {heap : Nat → Nat → UInt8} {store : Store}
    (opened : Opened u.pieces.mi store) :
    (∀ actions t, run u (createTorrent u options hashOk heap store) actions = some t →
        t.startupVerifying = false → SkippedCounted u.pieces store t) ↔
      SkippedSaved u.pieces options store := by
  have hlaid := laid_of_opened wf.layout opened
  constructor
  · rintro hall o bf rfl hbitfield hlength i hi hskipped
    have hresume : o.fastResume u.pieces.mi.numPieces = true := by
      simp [Options.fastResume, hbitfield, hlength]
    have hstart := hall [] _ rfl (by simp [createTorrent, hresume])
    have hstore : (createTorrent u (some o) hashOk heap store).mgr.store = store :=
      createPieces_store u.pieces (some o) _
    have hdone := hstart.done i hi (by rw [hstore]; exact hskipped)
    exact (createTorrent_skipped_iff hbitfield hlength hi hskipped).mp hdone
  · intro hsaved actions t hrun hstopped
    obtain ⟨hsound, hdone⟩ := run_keeps wf
      (fun t t' action hsound hold hstep => SkippedDone.step wf hlaid hsound hold hstep) hrun
      (sound_createTorrent wf options hashOk heap opened) (createTorrent_skippedDone hsaved)
    have hbooks := hsound.bookkeeping
    have hall : ∀ i, i < u.pieces.mi.numPieces →
        storageRangeSkipped store (absOff u.pieces.mi i) (plenOf u.pieces i) = true →
        (t.mgr.slots i).state = .done := by
      intro i hi hskipped
      refine hdone.done i hi hskipped ?_
      intro hstarting
      rw [hstopped] at hstarting
      cases hstarting
    refine ⟨?_, skipped_le hbooks hall, completed_le wf hbooks⟩
    intro i hi hskipped
    rw [hdone.shape.skipped hlaid] at hskipped
    exact hall i hi hskipped

/-- The three pieces in a file that is not wanted. -/
def unwantedStore : Store := ⟨[⟨0, 3, .skip, false, 0, none⟩], [], none⟩

/-- A resume whose bitfield has the pieces of `bits`. -/
def resumeWith (bits : UInt8) : Options := ⟨0, false, some (fun _ => bits), 1⟩

theorem run_skipped_saved : SkippedSaved threeSetup.pieces (some (resumeWith 224)) unwantedStore ∧
    ∀ actions t, run threeSetup (createTorrent threeSetup (some (resumeWith 224)) true
        (fun _ _ => 7) unwantedStore) actions = some t →
      t.startupVerifying = false → SkippedCounted threeSetup.pieces unwantedStore t := by
  have hopened : Opened threeSetup.pieces.mi unwantedStore := rfl
  have hsaved : SkippedSaved threeSetup.pieces (some (resumeWith 224)) unwantedStore := by
    rintro o bf ⟨⟩ ⟨⟩ _ i hi _
    have hall : ∀ j < 3, msbHas (fun _ => 224) j = true := by decide
    exact hall i hi
  exact ⟨hsaved, (run_skipped_iff threePieces_wellFormed hopened).mpr hsaved⟩

/-- Saved when the file was still wanted and nothing was there: all three bytes are skipped
and none is completed. -/
theorem skipped_unsaved : ∃ t, run threeSetup (createTorrent threeSetup (some (resumeWith 0)) true
      (fun _ _ => 7) unwantedStore) [] = some t ∧ t.startupVerifying = false ∧
    ((torrentStat threeSetup.pieces (refreshSkippedBytes threeSetup.pieces unwantedStore)
      t).skippedBytes,
      (torrentStat threeSetup.pieces (refreshSkippedBytes threeSetup.pieces unwantedStore)
      t).completedBytes) = (3, 0) ∧ ¬ SkippedCounted threeSetup.pieces unwantedStore t := by
  have hsums : ((torrentStat threeSetup.pieces (refreshSkippedBytes threeSetup.pieces unwantedStore)
      (createTorrent threeSetup (some (resumeWith 0)) true (fun _ _ => 7)
      unwantedStore)).skippedBytes,
      (torrentStat threeSetup.pieces (refreshSkippedBytes threeSetup.pieces unwantedStore)
        (createTorrent threeSetup (some (resumeWith 0)) true (fun _ _ => 7)
          unwantedStore)).completedBytes) =
      (3, 0) := by decide +kernel
  refine ⟨_, rfl, rfl, hsums, ?_⟩
  intro hcounted
  have hskipped := hcounted.skipped
  rw [(Prod.mk.inj hsums).1, (Prod.mk.inj hsums).2] at hskipped
  omega

end TorrentEngine
