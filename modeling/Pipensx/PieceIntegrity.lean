import Pipensx.PieceBookkeeping

/-!
# What is on disk under a done piece

A piece becomes done after its bytes were hashed, and then they are either written from
the very buffer that was hashed or were read from the disk in the first place. The range
of a piece is written by no other piece, so the bytes stay.
-/

namespace PieceManager

open PieceGeometry Storage

/-- The bytes on disk in the range of a piece are there and have its hash. -/
def Verified (c : Config) (st : Store) (idx : Nat) : Prop :=
  ∃ data : List UInt8, data.length = plenOf c idx ∧ hashMatches c idx data = true ∧
    ∀ k, k < plenOf c idx → st.byteAt (absOff c.mi idx + k) = data[k]?

structure Integrity (c : Config) (s : Mgr) : Prop where
  laid : Laid s.store.files
  verified : ∀ idx, idx < c.mi.numPieces → (s.slots idx).state = .done →
    s.store.OnDisk (absOff c.mi idx) (plenOf c idx) → Verified c s.store idx

section Steps

variable {c : Config} {s s' : Mgr} {idx : Nat}

/-- No piece becomes done, and nothing is written. -/
theorem Integrity.keep (h : Integrity c s) (store : s'.store = s.store)
    (done : ∀ i, i < c.mi.numPieces → (s'.slots i).state = .done → (s.slots i).state = .done) :
    Integrity c s' := by
  constructor
  · rw [store]
    exact h.laid
  · intro i hi hdone hdisk
    rw [store] at hdisk ⊢
    exact h.verified i hi (done i hi hdone) hdisk

/-- One slot changes, and is not done afterwards. -/
theorem Integrity.slot (h : Integrity c s) {sl : Slot} (store : s'.store = s.store)
    (slots : s'.slots = Function.update s.slots idx sl)
    (done : sl.state = .done → (s.slots idx).state = .done) : Integrity c s' := by
  refine h.keep store ?_
  intro i _ hdone
  rw [slots] at hdone
  by_cases hii : i = idx
  · subst hii
    rw [Function.update_self] at hdone
    exact done hdone
  · rwa [Function.update_of_ne hii] at hdone

/-- One slot becomes done over a store that has its bytes. -/
theorem Integrity.finish (h : Integrity c s) {sl : Slot} (store : s'.store = s.store)
    (slots : s'.slots = Function.update s.slots idx sl)
    (bytes : s.store.OnDisk (absOff c.mi idx) (plenOf c idx) → Verified c s.store idx) :
    Integrity c s' := by
  constructor
  · rw [store]
    exact h.laid
  · intro i hi hdone hdisk
    rw [store] at hdisk ⊢
    by_cases hii : i = idx
    · subst hii
      exact bytes hdisk
    · rw [slots, Function.update_of_ne hii] at hdone
      exact h.verified i hi hdone hdisk

theorem plenOf_pos (wf : TorrentLayout.WellFormed c.mi) (hidx : idx < c.mi.numPieces) :
    (plenOf c idx : Int) = pieceLen c.mi idx ∧ 0 < plenOf c idx := by
  have hlen := pieceLen_bounds wf.exact hidx
  simp only [plenOf]
  omega

/-- A write inside the range of one piece leaves the bytes of every other piece. -/
theorem Verified.outside (wf : TorrentLayout.WellFormed c.mi) {st st' : Store} {i : Nat}
    (h : Verified c st i) (hi : i < c.mi.numPieces) (hidx : idx < c.mi.numPieces) (hne : i ≠ idx)
    (wrote : WroteWithin (absOff c.mi idx) (plenOf c idx) st st') : Verified c st' i := by
  obtain ⟨data, hlen, hmatch, hbytes⟩ := h
  refine ⟨data, hlen, hmatch, ?_⟩
  intro k hk
  have hold := hbytes k hk
  rw [List.getElem?_eq_getElem (by omega)] at hold ⊢
  refine wrote.frame _ _ ?_ hold
  have hleni := (plenOf_pos wf hi).1
  have hlenx := (plenOf_pos wf hidx).1
  rcases Nat.lt_or_gt_of_ne hne with hlt | hgt
  · have hsep := piece_disjoint wf.exact hi hlt
    left
    omega
  · have hsep := piece_disjoint wf.exact hidx hgt
    right
    omega

/-- A write for a piece that is not done. -/
theorem Integrity.write (wf : TorrentLayout.WellFormed c.mi) (h : Integrity c s)
    (hidx : idx < c.mi.numPieces) (notDone : (s.slots idx).state ≠ .done) {st : Store}
    (wrote : WroteWithin (absOff c.mi idx) (plenOf c idx) s.store st) :
    Integrity c { s with store := st } := by
  constructor
  · exact wrote.shape.laid h.laid
  · intro i hi hdone hdisk
    have hne : i ≠ idx := by
      rintro rfl
      exact notDone hdone
    have hold := h.verified i hi hdone ((wrote.shape.onDisk h.laid).mp hdisk)
    exact hold.outside wf hi hidx hne wrote

theorem Integrity.resetPiece (h : Integrity c s) (idx : Nat) :
    Integrity c (resetPiece c s idx) := by
  refine h.slot (Untouched.resetPiece c s idx).store (resetPiece_slots c s idx) ?_
  intro hdone
  cases hdone

theorem Integrity.setBuf (h : Integrity c s) (idx : Nat) (buf : Option Nat) :
    Integrity c (s.setSlot idx (fun sl => { sl with buf := buf })) :=
  h.slot rfl rfl id

theorem Integrity.setPool (h : Integrity c s) (buf : Option Nat) :
    Integrity c (pieceBufPut s buf) := by
  obtain ⟨pool, hpool⟩ := pieceBufPut_eq s buf
  rw [hpool]
  exact h.keep rfl (fun _ _ => id)

/-- A failed write for a piece that is then reset. -/
theorem Integrity.refused (wf : TorrentLayout.WellFormed c.mi) (h : Integrity c s)
    (hidx : idx < c.mi.numPieces) (notDone : (s.slots idx).state ≠ .done) {io : Faults} {st : Store}
    {bytes : List UInt8} (length : bytes.length = plenOf c idx)
    (hwrite : storageWrite io s.store (absOff c.mi idx) bytes = .error st) :
    Integrity c { s with store := st } := by
  have hspec := storageWrite_spec io h.laid (absOff c.mi idx) bytes
  rw [hwrite, length] at hspec
  exact h.write wf hidx notDone hspec

/-- A write of bytes that were hashed. -/
theorem Integrity.written (wf : TorrentLayout.WellFormed c.mi) (h : Integrity c s)
    (hidx : idx < c.mi.numPieces) (notDone : (s.slots idx).state ≠ .done) {io : Faults} {st : Store}
    {bytes : List UInt8} (length : bytes.length = plenOf c idx)
    (hmatch : hashMatches c idx bytes = true)
    (hwrite : storageWrite io s.store (absOff c.mi idx) bytes = .ok st) :
    Integrity c (markPieceDone c { s with store := st } idx (plenOf c idx)) := by
  have hspec := storageWrite_spec io h.laid (absOff c.mi idx) bytes
  rw [hwrite, length] at hspec
  obtain ⟨hwrote, hbytes⟩ := hspec
  have hst := h.write wf hidx notDone hwrote
  refine hst.finish rfl (markPieceDone_slots c _ idx _) ?_
  intro hdisk
  refine ⟨bytes, length, hmatch, ?_⟩
  intro k hk
  exact hbytes k hk ((hwrote.shape.onDisk h.laid).mp hdisk k hk)

theorem Integrity.edit (wf : TorrentLayout.WellFormed c.mi) {l : Licence}
    (unpreset : l.preset = false) (h : Integrity c s) (edit : Edit c l s s') : Integrity c s' := by
  cases edit with
  | flags v ok started => exact h.keep rfl (fun _ _ => id)
  | count idx block f =>
    obtain ⟨counts, hcounts⟩ := setCount_eq c s idx block f
    rw [hcounts]
    exact h.slot rfl rfl id
  | pending idx hidx hempty =>
    refine h.slot rfl rfl ?_
    intro hdone
    cases hdone
  | buffer idx alloc hidx hopen =>
    exact h.slot (slotBuf_frame alloc s idx).2.2.1 (slotBuf_slots alloc s idx) id
  | block idx offset data b hidx hopen hbuf _ _ hblk =>
    refine h.slot (storeBlock_frame c s idx offset data b).2.2.1
      (storeBlock_slots c s data b hidx hblk) ?_
    intro hdone
    simp at hdone
  | reset idx hidx => exact h.resetPiece idx
  | skipped idx hidx hstate _ hskipped =>
    refine h.finish rfl (markDoneUnhashed_slots c s idx false) ?_
    intro hdisk
    -- a piece has a byte, and it cannot be both skipped and on disk
    have hpos := (plenOf_pos wf hidx).2
    exact absurd (hdisk 0 hpos) (storageRangeSkipped_notDisk h.laid hskipped 0 hpos)
  | readable idx hidx hstate hvalid =>
    refine h.finish rfl (markDoneUnhashed_slots c s idx true) (fun _ => ?_)
    rcases hvalid with ⟨_, hvalid⟩ | ⟨hpreset, _⟩
    · exact bytes_of_valid wf h.laid hidx hvalid
    · rw [unpreset] at hpreset
      cases hpreset
  | written idx io st hidx hstate hmatch hwrite hbuf =>
    have hdone := h.written wf hidx (by simp [hstate]) (bytes_length s hbuf _) hmatch hwrite
    exact (hdone.setPool _).setBuf idx none
  | refused idx io st hidx hstate hwrite hbuf =>
    exact (h.refused wf hidx (by simp [hstate]) (bytes_length s hbuf _) hwrite).resetPiece idx

theorem Integrity.applied (wf : TorrentLayout.WellFormed c.mi) (h : Integrity c s) {job : HashJob}
    {report : Option (Nat × Int)} (sound : JobSound c job) (hbuf : job.buf ≠ none)
    (hok : job.ok = hashMatches c job.idx (s.bytes job.buf job.plen))
    (applied : Applied c s job s' report) : Integrity c s' := by
  obtain ⟨hidx, hplen⟩ := sound
  have hlength : (s.bytes job.buf job.plen).length = plenOf c job.idx := by
    rw [bytes_length s hbuf, hplen]
  cases applied with
  | stale _ => exact h.setPool job.buf
  | mismatch _ _ => exact (h.setBuf job.idx job.buf).resetPiece job.idx
  | refused io st hstate _ hwrite =>
    have hst := h.refused wf hidx (by simp [hstate]) hlength hwrite
    exact (hst.setBuf job.idx job.buf).resetPiece job.idx
  | written io st hstate htrue hwrite =>
    have hdone := h.written wf hidx (by simp [hstate]) hlength (hok.symm.trans htrue) hwrite
    rw [hplen]
    exact hdone.setPool job.buf

theorem Integrity.transition (wf : TorrentLayout.WellFormed c.mi) {m m' : Machine} {act : Act}
    {log events : List Event} (h : Integrity c m.mgr) (buffers : BuffersOwned c m)
    (ring : RingInv c m log) (allowed : act.presets = false) (t : Transition c m act m' events) :
    Integrity c m'.mgr := by
  cases t with
  | call call env hpc =>
    obtain ⟨hedits, _⟩ := start_edits c m.mgr env call
    exact hedits.induction (P := Integrity c) (fun _ _ hold hedit => hold.edit wf allowed hedit) h
  | drained flushing _ _ => exact h
  | pop next _ _ _ => exact h.keep rfl (fun _ _ => id)
  | awaited _ _ => exact h
  | push idx plen hpc =>
    refine h.slot rfl rfl ?_
    intro hdone
    cases hdone
  | apply io job next hpc =>
    have hflight : m.pc.flight = some job := by
      rw [hpc]
      rfl
    obtain ⟨hsound, hok⟩ := ring.held job hflight
    exact h.applied wf hsound (buffers.owned.flightBuf job hflight) hok
      (hashApply_applied c io m.mgr job)
  | take _ _ => exact h
  | hash entry idx buf plen _ => exact h
  | publish entry idx buf plen ok _ => exact h.keep rfl (fun _ _ => id)

end Steps

/-- Without the index wrapping, the expected hash of a piece is its 20 bytes. -/
theorem expectedHash_eq {mi : TorrentFile.Metainfo} (wf : TorrentLayout.WellFormed mi) {idx : Nat}
    (hidx : idx < mi.numPieces) : expectedHash mi idx = (mi.hashBytes.drop (20 * idx)).take 20 := by
  have hsmall := wf.hashIndex
  have hmod : idx * 20 % 2 ^ 32 = 20 * idx := by
    rw [Nat.mod_eq_of_lt (by omega), Nat.mul_comm]
  rw [expectedHash, hmod]

/-- In every run without the fast-resume call, whatever is received and whichever writes
fail, a done piece on disk reads back with its hash. -/
theorem run_integrity {c : Config} (wf : TorrentLayout.WellFormed c.mi) {hashOk : Bool}
    {heap : Nat → Nat → UInt8} {store : Store} (opened : Opened c.mi store) {acts : List Act}
    {m : Machine} {log : List Event} (unpreset : ∀ act ∈ acts, act.presets = false)
    (h : run c (initial c hashOk heap store) acts = some (m, log)) {idx : Nat}
    (hidx : idx < c.mi.numPieces) (done : (m.mgr.slots idx).state = .done)
    (disk : m.mgr.store.OnDisk (absOff c.mi idx) (plenOf c idx)) :
    ∃ data, storageRead m.mgr.store (absOff c.mi idx) (plenOf c idx) =
        ((plenOf c idx : Int), data) ∧
      c.sha1 data = (c.mi.hashBytes.drop (20 * idx)).take 20 := by
  have hinit : Integrity c (initial c hashOk heap store).mgr := by
    refine ⟨laid_of_opened wf.layout opened, ?_⟩
    intro i _ hdone
    cases hdone
  have key : MachineSound c m log ∧ Integrity c m.mgr := by
    refine run_induction (fun m log => MachineSound c m log ∧ Integrity c m.mgr)
      (fun act => act.presets = false) ?_ [] h unpreset
      ⟨machineSound_initial wf hashOk heap opened, hinit⟩
    rintro m log act m' events ⟨hsound, hintegrity⟩ hallowed hstep
    exact ⟨hsound.step wf hstep,
      hintegrity.transition wf hsound.buffers hsound.ring hallowed (step_transition hstep)⟩
  obtain ⟨_, hintegrity⟩ := key
  obtain ⟨data, hlength, hmatch, hbytes⟩ := hintegrity.verified idx hidx done disk
  refine ⟨data, ?_, ?_⟩
  · rw [← hlength]
    apply storageRead_of_bytes hintegrity.laid
    rw [hlength]
    exact hbytes
  · rw [← expectedHash_eq wf hidx]
    exact hashMatches_iff.mp hmatch

/-- A disk that takes nothing. -/
def fullDisk : Env := ⟨true, true, fun _ => ⟨true, 0, true⟩⟩

/-- The write of the first piece fails, and the piece is downloaded again. -/
def failedWrite : List Act :=
  [receive 0, .lock, .worker, .worker, .worker, .call .hashFlush willing, .lock, .lock,
    .apply fullDisk.io, .lock] ++ fullRing

theorem run_integrity_failed : ∃ m log data,
    run threeConfig (initial threeConfig true (fun _ _ => 7) threeStore) failedWrite =
      some (m, log) ∧ (m.mgr.slots 0).state = .done ∧
      storageRead m.mgr.store (absOff threePieces 0) (plenOf threeConfig 0) =
        ((plenOf threeConfig 0 : Int), data) ∧
      threeConfig.sha1 data = (threePieces.hashBytes.drop (20 * 0)).take 20 := by
  have hrun : (run threeConfig (initial threeConfig true (fun _ _ => 7) threeStore)
      failedWrite).map (fun r => ((r.1.mgr.slots 0).state,
        r.1.mgr.store.modeAt (absOff threePieces 0 + (0 : Nat)))) = some (.done, some .disk) := by
    decide +kernel
  obtain ⟨⟨m, log⟩, hsome, hfacts⟩ := Option.map_eq_some_iff.mp hrun
  obtain ⟨hdone, hmode⟩ := Prod.mk.inj hfacts
  have hopened : Opened threeConfig.mi threeStore := rfl
  have hdisk : m.mgr.store.OnDisk (absOff threePieces 0) (plenOf threeConfig 0) := by
    intro k hk
    have hone : plenOf threeConfig 0 = 1 := by decide
    have hzero : k = 0 := by omega
    rw [hzero]
    exact hmode
  obtain ⟨data, hdata⟩ := run_integrity threePieces_wellFormed hopened (by decide) hsome
    (by decide) hdone hdisk
  exact ⟨m, log, data, hsome, hdone, hdata⟩

end PieceManager
