import Mathlib.Algebra.BigOperators.Group.Finset.Basic
import Mathlib.Data.Finset.Card
import Pipensx.HashRing
import Pipensx.StorageFlat

/-!
# The counters and bitfields of the piece manager

The set of done pieces is kept five times over: in the states of the slots, as a number,
as a number of bytes, and in two bitfields. Each operation that changes one of them
changes the others with it.
-/

namespace PieceManager

open PieceGeometry Storage ByteBits

/-- The pieces in state `PS_DONE`. -/
def doneSet (c : Config) (s : Mgr) : Finset Nat :=
  (Finset.range c.mi.numPieces).filter (fun i => (s.slots i).state = .done)

/-- The blocks of a slot whose bit is set. -/
def Slot.blockSet (sl : Slot) : Finset Nat :=
  (Finset.range sl.numBlocks).filter (fun b => lsbHas sl.haveBlocks b = true)

structure Bookkeeping (c : Config) (s : Mgr) : Prop where
  numDone : s.numDone = (doneSet c s).card
  haveBf : ∀ i, msbHas s.haveBf i = true ↔ i < c.mi.numPieces ∧ (s.slots i).state = .done
  available : ∀ i, msbHas s.availableBf i = true →
    msbHas s.haveBf i = true ∧ s.store.OnDisk (absOff c.mi i) (plenOf c i)
  completed : s.completedBytes = ∑ i ∈ doneSet c s, plenOf c i
  blocks : ∀ i, i < c.mi.numPieces → (s.slots i).numBlocksDone = (s.slots i).blockSet.card

theorem mem_doneSet {c : Config} {s : Mgr} {i : Nat} :
    i ∈ doneSet c s ↔ i < c.mi.numPieces ∧ (s.slots i).state = .done := by
  simp [doneSet]

section Operations

variable {c : Config} {s s' : Mgr} {idx : Nat}

/-- The numbers and bitfields are as they were, and so are the done pieces. -/
theorem Bookkeeping.keep (h : Bookkeeping c s)
    (done : ∀ i, i < c.mi.numPieces → ((s'.slots i).state = .done ↔ (s.slots i).state = .done))
    (numDone : s'.numDone = s.numDone) (completed : s'.completedBytes = s.completedBytes)
    (haveBf : s'.haveBf = s.haveBf) (availableBf : s'.availableBf = s.availableBf)
    (store : ∀ i, s.store.OnDisk (absOff c.mi i) (plenOf c i) →
      s'.store.OnDisk (absOff c.mi i) (plenOf c i))
    (blocks : ∀ i, i < c.mi.numPieces → (s'.slots i).numBlocksDone = (s'.slots i).blockSet.card) :
    Bookkeeping c s' := by
  have hset : doneSet c s' = doneSet c s := by
    ext i
    simp only [mem_doneSet]
    constructor
    · rintro ⟨hi, hd⟩
      exact ⟨hi, (done i hi).mp hd⟩
    · rintro ⟨hi, hd⟩
      exact ⟨hi, (done i hi).mpr hd⟩
  refine ⟨?_, ?_, ?_, ?_, blocks⟩
  · rw [numDone, hset]
    exact h.numDone
  · intro i
    rw [haveBf, h.haveBf]
    constructor
    · rintro ⟨hi, hd⟩
      exact ⟨hi, (done i hi).mpr hd⟩
    · rintro ⟨hi, hd⟩
      exact ⟨hi, (done i hi).mp hd⟩
  · intro i hi
    rw [availableBf] at hi
    rw [haveBf]
    obtain ⟨hbit, hdisk⟩ := h.available i hi
    exact ⟨hbit, store i hdisk⟩
  · rw [completed, hset]
    exact h.completed

/-- One slot changes, but neither reaches nor leaves `PS_DONE`. -/
theorem Bookkeeping.slot (h : Bookkeeping c s) {sl : Slot}
    (slots : s'.slots = Function.update s.slots idx sl)
    (done : sl.state = .done ↔ (s.slots idx).state = .done)
    (blocks : idx < c.mi.numPieces → sl.numBlocksDone = sl.blockSet.card)
    (numDone : s'.numDone = s.numDone) (completed : s'.completedBytes = s.completedBytes)
    (haveBf : s'.haveBf = s.haveBf) (availableBf : s'.availableBf = s.availableBf)
    (store : s'.store = s.store) : Bookkeeping c s' := by
  apply h.keep _ numDone completed haveBf availableBf (fun i hd => by rw [store]; exact hd)
  · intro i hi
    rw [slots]
    by_cases hii : i = idx
    · subst hii
      rw [Function.update_self]
      exact blocks hi
    · rw [Function.update_of_ne hii]
      exact h.blocks i hi
  · intro i hi
    rw [slots]
    by_cases hii : i = idx
    · subst hii
      rw [Function.update_self]
      exact done
    · rw [Function.update_of_ne hii]

/-- A change of the store that moves no file. -/
theorem Bookkeeping.restore (h : Bookkeeping c s) (laid : Laid s.store.files) {st : Store}
    (shape : SameShape s.store st) : Bookkeeping c { s with store := st } := by
  refine h.keep ?_ ?_ ?_ ?_ ?_ ?_ h.blocks
  · exact fun i _ => Iff.rfl
  · rfl
  · rfl
  · rfl
  · rfl
  · intro i hd
    exact (shape.onDisk laid).mpr hd

/-- A piece reaches `PS_DONE`. -/
theorem Bookkeeping.finish (h : Bookkeeping c s) {sl : Slot} (readable : Bool)
    (hidx : idx < c.mi.numPieces) (notDone : (s.slots idx).state ≠ .done)
    (slots : s'.slots = Function.update s.slots idx sl) (done : sl.state = .done)
    (blocks : sl.numBlocksDone = sl.blockSet.card) (numDone : s'.numDone = s.numDone + 1)
    (completed : s'.completedBytes = s.completedBytes + plenOf c idx)
    (haveBf : s'.haveBf = msbSet s.haveBf idx)
    (availableBf : s'.availableBf = if readable then msbSet s.availableBf idx else s.availableBf)
    (disk : readable = true → s.store.OnDisk (absOff c.mi idx) (plenOf c idx))
    (store : s'.store = s.store) : Bookkeeping c s' := by
  have hset : doneSet c s' = insert idx (doneSet c s) := by
    ext i
    rw [Finset.mem_insert, mem_doneSet, mem_doneSet, slots]
    by_cases hii : i = idx
    · subst hii
      simp [hidx, done]
    · simp [hii]
  have hnew : idx ∉ doneSet c s := by
    rw [mem_doneSet]
    exact fun hd => notDone hd.2
  refine ⟨?_, ?_, ?_, ?_, ?_⟩
  · rw [numDone, hset, Finset.card_insert_of_notMem hnew, h.numDone]
  · intro i
    rw [haveBf, msbHas_set, Bool.or_eq_true, decide_eq_true_iff, h.haveBf, slots]
    by_cases hii : i = idx
    · subst hii
      simp [hidx, done]
    · simp [hii]
  · intro i hi
    rw [haveBf, msbHas_set, Bool.or_eq_true, decide_eq_true_iff, store]
    rw [availableBf] at hi
    by_cases hii : i = idx
    · subst hii
      refine ⟨Or.inl rfl, ?_⟩
      by_cases hr : readable = true
      · exact disk hr
      · simp only [hr, Bool.false_eq_true, if_false] at hi
        exact (h.available i hi).2
    · have hold : msbHas s.availableBf i = true := by
        split at hi
        · rw [msbHas_set, Bool.or_eq_true, decide_eq_true_iff] at hi
          rcases hi with heq | hold
          · exact absurd heq hii
          · exact hold
        · exact hi
      obtain ⟨hbit, hdisk⟩ := h.available i hold
      exact ⟨Or.inr hbit, hdisk⟩
  · rw [completed, hset, Finset.sum_insert hnew, h.completed, Nat.add_comm]
  · intro i hi
    rw [slots]
    by_cases hii : i = idx
    · subst hii
      rw [Function.update_self]
      exact blocks
    · rw [Function.update_of_ne hii]
      exact h.blocks i hi

/-- A piece leaves `PS_DONE`. -/
theorem Bookkeeping.forget (h : Bookkeeping c s) {sl : Slot}
    (hidx : idx < c.mi.numPieces) (wasDone : (s.slots idx).state = .done)
    (slots : s'.slots = Function.update s.slots idx sl) (notDone : sl.state ≠ .done)
    (blocks : sl.numBlocksDone = sl.blockSet.card) (numDone : s'.numDone = s.numDone - 1)
    (completed : s'.completedBytes =
      if s.completedBytes ≥ plenOf c idx then s.completedBytes - plenOf c idx else 0)
    (haveBf : s'.haveBf = msbClear s.haveBf idx)
    (availableBf : s'.availableBf = msbClear s.availableBf idx)
    (store : s'.store = s.store) : Bookkeeping c s' := by
  have hset : doneSet c s' = (doneSet c s).erase idx := by
    ext i
    rw [Finset.mem_erase, mem_doneSet, mem_doneSet, slots]
    by_cases hii : i = idx
    · subst hii
      simp [notDone]
    · simp [hii]
  have hold : idx ∈ doneSet c s := mem_doneSet.mpr ⟨hidx, wasDone⟩
  have hsum : plenOf c idx + ∑ i ∈ (doneSet c s).erase idx, plenOf c i = s.completedBytes := by
    rw [Finset.add_sum_erase _ _ hold, h.completed]
  refine ⟨?_, ?_, ?_, ?_, ?_⟩
  · rw [numDone, hset, Finset.card_erase_of_mem hold, h.numDone]
  · intro i
    rw [haveBf, msbHas_clear, Bool.and_eq_true, h.haveBf, slots]
    by_cases hii : i = idx
    · subst hii
      simp [notDone]
    · simp [hii]
  · intro i hi
    rw [availableBf, msbHas_clear, Bool.and_eq_true] at hi
    rw [haveBf, msbHas_clear, Bool.and_eq_true, store]
    obtain ⟨hbit, hdisk⟩ := h.available i hi.2
    exact ⟨⟨hi.1, hbit⟩, hdisk⟩
  · rw [completed, hset]
    split
    · omega
    · omega
  · intro i hi
    rw [slots]
    by_cases hii : i = idx
    · subst hii
      rw [Function.update_self]
      exact blocks
    · rw [Function.update_of_ne hii]
      exact h.blocks i hi

theorem blockSet_cleared (sl : Slot) : sl.cleared.numBlocksDone = sl.cleared.blockSet.card := by
  simp [Slot.cleared, Slot.blockSet]

theorem blockSet_filled (sl : Slot) : sl.filled.numBlocksDone = sl.filled.blockSet.card := by
  simp [Slot.filled, Slot.blockSet]

/-- A block counts once, however often it is received. -/
theorem blockSet_stored {sl : Slot} {blk : Nat} (hblk : blk < sl.numBlocks)
    (h : sl.numBlocksDone = sl.blockSet.card) :
    (sl.stored blk).numBlocksDone = (sl.stored blk).blockSet.card := by
  by_cases hset : blockIsSet sl blk = true
  · have hstored : sl.stored blk = { sl with state := .pending } := by
      rw [Slot.stored, if_pos hset]
    rw [hstored]
    exact h
  · have hnew : blk ∉ sl.blockSet := by
      intro hmem
      simp only [Slot.blockSet, Finset.mem_filter] at hmem
      exact hset (by simp [blockIsSet, hblk, hmem.2])
    have hstored : sl.stored blk = { sl with
        state := .pending, haveBlocks := lsbSet sl.haveBlocks blk,
        numBlocksDone := sl.numBlocksDone + 1 } := by
      rw [Slot.stored, if_neg hset]
    have hinsert : (sl.stored blk).blockSet = insert blk sl.blockSet := by
      rw [hstored]
      ext b
      simp only [Slot.blockSet, Finset.mem_filter, Finset.mem_range, lsbHas_set, Bool.or_eq_true,
        decide_eq_true_iff, Finset.mem_insert]
      constructor
      · rintro ⟨hb, hor⟩
        rcases hor with heq | hhas
        · exact Or.inl heq
        · exact Or.inr ⟨hb, hhas⟩
      · rintro (rfl | ⟨hb, hhas⟩)
        · exact ⟨hblk, Or.inl rfl⟩
        · exact ⟨hb, Or.inr hhas⟩
    rw [hinsert, Finset.card_insert_of_notMem hnew, ← h, hstored]

theorem Bookkeeping.resetPiece (h : Bookkeeping c s) (hidx : idx < c.mi.numPieces) :
    Bookkeeping c (resetPiece c s idx) := by
  obtain ⟨n, hn⟩ := orderCursorRewind_eq c ((forgetDone c s idx).setSlot idx Slot.cleared) idx
  have hslots := resetPiece_slots c s idx
  rw [PieceManager.resetPiece, hn] at hslots ⊢
  by_cases hdone : (s.slots idx).state = .done
  · have hpos : s.numDone > 0 := by
      rw [h.numDone]
      exact Finset.card_pos.mpr ⟨idx, mem_doneSet.mpr ⟨hidx, hdone⟩⟩
    have hcond : (s.slots idx).state = .done ∧ s.numDone > 0 := ⟨hdone, hpos⟩
    simp only [forgetDone, if_pos hcond] at hslots ⊢
    refine h.forget hidx hdone hslots ?_ (blockSet_cleared _) ?_ ?_ ?_ ?_ ?_
    · simp [Slot.cleared]
    · rfl
    · rfl
    · rfl
    · rfl
    · rfl
  · have hcond : ¬ ((s.slots idx).state = .done ∧ s.numDone > 0) := fun hand => hdone hand.1
    simp only [forgetDone, if_neg hcond] at hslots ⊢
    refine h.slot hslots ?_ (fun _ => blockSet_cleared _) ?_ ?_ ?_ ?_ ?_
    · simp [Slot.cleared, hdone]
    · rfl
    · rfl
    · rfl
    · rfl
    · rfl

theorem Bookkeeping.markPieceDone (h : Bookkeeping c s) (laid : Laid s.store.files)
    (hidx : idx < c.mi.numPieces) (notDone : (s.slots idx).state ≠ .done) :
    Bookkeeping c (markPieceDone c s idx (plenOf c idx)) := by
  refine h.finish (storageRangeReadable s.store (absOff c.mi idx) (plenOf c idx)) hidx notDone
    (markPieceDone_slots c s idx _) rfl ?_ ?_ ?_ ?_ ?_ ?_ ?_
  · exact h.blocks idx hidx
  · rfl
  · rfl
  · rfl
  · rfl
  · exact (storageRangeReadable_iff laid _ _).mp
  · rfl

theorem Bookkeeping.markDoneUnhashed (h : Bookkeeping c s) {readable : Bool}
    (hidx : idx < c.mi.numPieces) (notDone : (s.slots idx).state ≠ .done)
    (disk : readable = true → s.store.OnDisk (absOff c.mi idx) (plenOf c idx)) :
    Bookkeeping c (markDoneUnhashed c s idx readable) := by
  refine h.finish readable hidx notDone (markDoneUnhashed_slots c s idx readable) rfl
    (blockSet_filled _) ?_ ?_ ?_ ?_ disk ?_
  · rfl
  · rfl
  · rfl
  · rfl
  · rfl

/-- The bytes of a piece that was read back with its hash. -/
theorem bytes_of_valid (wf : TorrentLayout.WellFormed c.mi) (laid : Laid s.store.files)
    (hidx : idx < c.mi.numPieces) (valid : onDiskValid c s idx = true) :
    ∃ data : List UInt8, data.length = plenOf c idx ∧ hashMatches c idx data = true ∧
      ∀ k, k < plenOf c idx → s.store.byteAt (absOff c.mi idx + k) = data[k]? := by
  have hlen := pieceLen_bounds wf.exact hidx
  simp only [onDiskValid] at valid
  split at valid
  · cases valid
  · next hret =>
    rcases storageRead_spec laid (absOff c.mi idx) (plenOf c idx) with
      ⟨_, hlength, hbytes⟩ | ⟨hfail, _⟩
    · exact ⟨_, hlength, valid, hbytes⟩
    · rw [hfail] at hret
      simp only [ne_eq, Decidable.not_not] at hret
      omega

/-- A piece that was read back lies on disk. -/
theorem onDisk_of_valid (wf : TorrentLayout.WellFormed c.mi) (laid : Laid s.store.files)
    (hidx : idx < c.mi.numPieces) (valid : onDiskValid c s idx = true) :
    s.store.OnDisk (absOff c.mi idx) (plenOf c idx) := by
  obtain ⟨data, hlength, _, hbytes⟩ := bytes_of_valid wf laid hidx valid
  intro k hk
  have hbyte := hbytes k hk
  rw [List.getElem?_eq_getElem (by omega)] at hbyte
  exact modeAt_of_byteAt hbyte

end Operations

/-- The bookkeeping is right, over a store whose files lie where the torrent says. -/
structure Bookkept (c : Config) (s : Mgr) : Prop where
  laid : Laid s.store.files
  books : Bookkeeping c s

section Runs

variable {c : Config} {s s' : Mgr}

theorem Bookkept.write (h : Bookkept c s) {io : Faults} {off : Int}
    {bytes : List UInt8} {st : Store} (hwrite : storageWrite io s.store off bytes = .ok st ∨
      storageWrite io s.store off bytes = .error st) : Bookkept c { s with store := st } := by
  have hspec := storageWrite_spec io h.laid off bytes
  have hwithin : WroteWithin off bytes.length s.store st := by
    rcases hwrite with hok | herr
    · rw [hok] at hspec
      exact hspec.1
    · rw [herr] at hspec
      exact hspec
  exact ⟨hwithin.shape.laid h.laid, h.books.restore h.laid hwithin.shape⟩

/-- The pool and the flags are not part of the bookkeeping. -/
theorem Bookkept.setPool (h : Bookkept c s) (buf : Option Nat) :
    Bookkept c (pieceBufPut s buf) := by
  obtain ⟨pool, hpool⟩ := pieceBufPut_eq s buf
  rw [hpool]
  exact ⟨h.laid, h.books.numDone, h.books.haveBf, h.books.available, h.books.completed,
    h.books.blocks⟩

theorem Bookkept.resetPiece (h : Bookkept c s) {idx : Nat} (hidx : idx < c.mi.numPieces) :
    Bookkept c (resetPiece c s idx) := by
  refine ⟨?_, h.books.resetPiece hidx⟩
  rw [(Untouched.resetPiece c s idx).store]
  exact h.laid

theorem Bookkept.markPieceDone (h : Bookkept c s) {idx : Nat} (hidx : idx < c.mi.numPieces)
    (notDone : (s.slots idx).state ≠ .done) :
    Bookkept c (markPieceDone c s idx (plenOf c idx)) :=
  ⟨h.laid, h.books.markPieceDone h.laid hidx notDone⟩

/-- A slot that changes its buffer only. -/
theorem Bookkept.setBuf (h : Bookkept c s) (idx : Nat) (buf : Option Nat) :
    Bookkept c (s.setSlot idx (fun sl => { sl with buf := buf })) := by
  refine ⟨h.laid, h.books.slot rfl ?_ ?_ ?_ ?_ ?_ ?_ ?_⟩
  · exact Iff.rfl
  · exact h.books.blocks idx
  · rfl
  · rfl
  · rfl
  · rfl
  · rfl

theorem Bookkept.edit (wf : TorrentLayout.WellFormed c.mi) {l : Licence} (h : Bookkept c s)
    (edit : Edit c l s s') : Bookkept c s' := by
  obtain ⟨laid, books⟩ := h
  cases edit with
  | flags v ok started =>
    exact ⟨laid, books.numDone, books.haveBf, books.available, books.completed, books.blocks⟩
  | count idx block f =>
    obtain ⟨counts, hcounts⟩ := setCount_eq c s idx block f
    rw [hcounts]
    refine ⟨laid, books.slot rfl ?_ ?_ ?_ ?_ ?_ ?_ ?_⟩
    · exact Iff.rfl
    · exact books.blocks idx
    · rfl
    · rfl
    · rfl
    · rfl
    · rfl
  | pending idx hidx hempty =>
    refine ⟨laid, books.slot rfl ?_ ?_ ?_ ?_ ?_ ?_ ?_⟩
    · simp [hempty]
    · exact books.blocks idx
    · rfl
    · rfl
    · rfl
    · rfl
    · rfl
  | buffer idx alloc hidx hopen =>
    have hbooks : Bookkeeping c (slotBuf alloc s idx).2 := by
      refine books.slot (slotBuf_slots alloc s idx) Iff.rfl (books.blocks idx) ?_ ?_ ?_ ?_
        (slotBuf_frame alloc s idx).2.2.1
      all_goals
        simp only [slotBuf, pieceBufGet]
        split
        · rfl
        · split
          · rfl
          · split
            · rfl
            · rfl
    exact ⟨by rw [(slotBuf_frame alloc s idx).2.2.1]; exact laid, hbooks⟩
  | block idx offset data b hidx hopen hbuf _ _ hblk =>
    obtain ⟨counts, hcounts⟩ := setCount_eq c ({ s with
        heap := Function.update s.heap b (copyIn (s.heap b) offset data) }.setSlot idx
        (fun sl => sl.stored (offset / blockSize))) idx (offset / blockSize) (fun _ => 0)
    have hslots := storeBlock_slots c s data b hidx hblk
    simp only [storeBlock, clearAllBlockRequests, hcounts] at hslots ⊢
    refine ⟨laid, books.slot hslots ?_ ?_ ?_ ?_ ?_ ?_ ?_⟩
    · simp [hopen.1]
    · exact fun hi => blockSet_stored hblk (books.blocks idx hi)
    · rfl
    · rfl
    · rfl
    · rfl
    · rfl
  | reset idx hidx => exact Bookkept.resetPiece ⟨laid, books⟩ hidx
  | skipped idx hidx hstate => exact ⟨laid, books.markDoneUnhashed hidx hstate (by simp)⟩
  | readable idx hidx hstate hvalid =>
    refine ⟨laid, books.markDoneUnhashed hidx hstate (fun _ => ?_)⟩
    rcases hvalid with ⟨_, hvalid⟩ | ⟨_, hreadable⟩
    · exact onDisk_of_valid wf laid hidx hvalid
    · exact (storageRangeReadable_iff laid _ _).mp hreadable
  | written idx io st hidx hstate _ hwrite =>
    have hst := Bookkept.write ⟨laid, books⟩ (Or.inl hwrite)
    exact ((hst.markPieceDone hidx (by simp [hstate])).setPool _).setBuf idx none
  | refused idx io st hidx _ hwrite =>
    have hst := Bookkept.write ⟨laid, books⟩ (Or.inr hwrite)
    exact hst.resetPiece hidx

theorem Bookkept.applied (h : Bookkept c s) {job : HashJob} {report : Option (Nat × Int)}
    (sound : JobSound c job) (applied : Applied c s job s' report) : Bookkept c s' := by
  obtain ⟨hidx, hplen⟩ := sound
  cases applied with
  | stale _ => exact h.setPool job.buf
  | mismatch _ _ => exact (h.setBuf job.idx job.buf).resetPiece hidx
  | refused io st _ _ hwrite =>
    exact ((h.write (Or.inr hwrite)).setBuf job.idx job.buf).resetPiece hidx
  | written io st hstate _ hwrite =>
    rw [hplen]
    exact ((h.write (Or.inl hwrite)).markPieceDone hidx (by simp [hstate])).setPool job.buf

/-- A complete piece goes into the ring: it was pending and is now being hashed. -/
theorem Bookkept.pushJob (h : Bookkept c s) {idx : Nat} (plen : Nat)
    (pending : (s.slots idx).state = .pending) : Bookkept c (s.pushJob idx plen) := by
  refine ⟨h.laid, h.books.slot rfl ?_ ?_ ?_ ?_ ?_ ?_ ?_⟩
  · simp [pending]
  · exact h.books.blocks idx
  · rfl
  · rfl
  · rfl
  · rfl
  · rfl

/-- The other locked sections move the ring only. -/
theorem Bookkept.ring (h : Bookkept c s) (q : Nat → HashJob) (head count hashed : Nat) :
    Bookkept c { s with hashQ := q, hashQHead := head, hashQCount := count,
                        hashQHashed := hashed } :=
  ⟨h.laid, h.books.numDone, h.books.haveBf, h.books.available, h.books.completed, h.books.blocks⟩

theorem Bookkept.transition (wf : TorrentLayout.WellFormed c.mi) {m m' : Machine} {act : Act}
    {log events : List Event} (h : Bookkept c m.mgr) (buffers : BuffersOwned c m)
    (ring : RingInv c m log) (t : Transition c m act m' events) : Bookkept c m'.mgr := by
  cases t with
  | call call env hpc =>
    obtain ⟨hedits, _⟩ := start_edits c m.mgr env call
    exact hedits.induction (P := Bookkept c) (fun _ _ hold hedit => hold.edit wf hedit) h
  | drained flushing _ _ => exact h
  | pop next _ _ _ => exact h.ring _ _ _ _
  | awaited _ _ => exact h
  | push idx plen hpc =>
    obtain ⟨_, _, _, ⟨_, hpending, _, _⟩⟩ := buffers.pushing hpc
    exact h.pushJob plen hpending
  | apply io job next hpc =>
    have hheld := ring.held job (by rw [hpc]; rfl)
    exact h.applied hheld.1 (hashApply_applied c io m.mgr job)
  | take _ _ => exact h
  | hash entry idx buf plen _ => exact h
  | publish entry idx buf plen ok _ => exact h.ring _ _ _ _

theorem bookkept_initial (hashOk : Bool) (heap : Nat → Nat → UInt8) {store : Store}
    (laid : Laid store.files) : Bookkept c (initial c hashOk heap store).mgr := by
  refine ⟨laid, ?_, ?_, ?_, ?_, ?_⟩
  all_goals simp [initial, create, doneSet, Slot.blockSet]

end Runs

/-- Everything that holds of the two threads and the manager in every state of a run. -/
structure MachineSound (c : Config) (m : Machine) (log : List Event) : Prop where
  buffers : BuffersOwned c m
  ring : RingInv c m log
  books : Bookkept c m.mgr

theorem MachineSound.step {c : Config} (wf : TorrentLayout.WellFormed c.mi)
    {m m' : Machine} {act : Act} {log events : List Event} (h : MachineSound c m log)
    (hstep : step c m act = some (m', events)) : MachineSound c m' (log ++ events) := by
  have ht := step_transition hstep
  exact ⟨h.buffers.transition ht, h.ring.transition h.buffers ht,
    h.books.transition wf h.buffers h.ring ht⟩

theorem machineSound_initial {c : Config} (wf : TorrentLayout.WellFormed c.mi) (hashOk : Bool)
    (heap : Nat → Nat → UInt8) {store : Store} (opened : Opened c.mi store) :
    MachineSound c (initial c hashOk heap store) [] :=
  ⟨buffersOwned_initial c hashOk heap store, ringInv_initial c hashOk heap store,
    bookkept_initial hashOk heap (laid_of_opened wf.layout opened)⟩

/-- In every run the five records of the done pieces agree. -/
theorem run_bookkeeping {c : Config} (wf : TorrentLayout.WellFormed c.mi) {hashOk : Bool}
    {heap : Nat → Nat → UInt8} {store : Store} (opened : Opened c.mi store) {acts : List Act}
    {m : Machine} {log : List Event}
    (h : run c (initial c hashOk heap store) acts = some (m, log)) : Bookkeeping c m.mgr := by
  have key : MachineSound c m log :=
    run_induction (MachineSound c) (fun _ => True) (fun _ _ _ _ _ hold _ hstep =>
      hold.step wf hstep) [] h (fun _ _ => trivial) (machineSound_initial wf hashOk heap opened)
  exact key.books.books

theorem threePieces_wellFormed : TorrentLayout.WellFormed threePieces := by
  have honly : ∀ (i : Nat) (f : TorrentFile.MiFile), threePieces.fileTable[i]? = some f →
      i = 0 ∧ f = ⟨[97], 3, 0⟩ := by
    intro i f hf
    obtain ⟨hi, hget⟩ := List.getElem?_eq_some_iff.mp hf
    have hzero : i = 0 := by
      have : threePieces.fileTable.length = 1 := rfl
      omega
    subst hzero
    exact ⟨rfl, hget.symm⟩
  refine ⟨⟨by decide, by decide, by decide, by decide, by decide⟩, by decide, by decide,
    ?_, by decide⟩
  apply TorrentLayout.FileLayout.of_offsets
  · rfl
  · intro i f hf
    rw [(honly i f hf).2]
    decide
  · intro i f hf
    rw [(honly i f hf).2]
    decide
  · intro i f hf
    rw [(honly i f hf).1, (honly i f hf).2]
    decide
  · decide

/-- A piece taken on trust and found wrong, and the other two downloaded, one of them with
a hash that does not fit. -/
def trustAndCheck : List Act :=
  [.call (.presetHave (some (fun _ => 128)) 1) willing, .call (.verifyPiece 0) willing] ++ fullRing

theorem run_bookkeeping_trust : ∃ m log,
    run threeConfig (initial threeConfig true (fun _ _ => 7) threeStore) trustAndCheck =
      some (m, log) ∧ m.mgr.numDone = 2 ∧ Bookkeeping threeConfig m.mgr := by
  have hrun : (run threeConfig (initial threeConfig true (fun _ _ => 7) threeStore)
      trustAndCheck).map (fun r => r.1.mgr.numDone) = some 2 := by decide +kernel
  obtain ⟨⟨m, log⟩, hsome, hdone⟩ := Option.map_eq_some_iff.mp hrun
  have hopened : Opened threeConfig.mi threeStore := rfl
  exact ⟨m, log, hsome, hdone, run_bookkeeping threePieces_wellFormed hopened hsome⟩

end PieceManager
