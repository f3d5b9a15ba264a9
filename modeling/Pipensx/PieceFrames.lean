import Pipensx.PieceIntegrity
import Pipensx.RequestCounts

/-!
# Pieces a call leaves alone

A block changes the slot of its own piece and no other, and the only bytes it can lead to
on disk are those of that piece. So a done piece stays done, and stays on disk as it is,
through everything but a check that reads it back and finds it wrong.
-/

namespace PieceManager

open PieceGeometry Storage ByteBits

section Slots

variable {c : Config} {s : Mgr} {idx i : Nat}

theorem slotBuf_other (alloc : Bool) (s : Mgr) (hne : i ≠ idx) :
    (slotBuf alloc s idx).2.slots i = s.slots i := by
  rw [slotBuf_slots, Function.update_of_ne hne]

theorem setCount_other (c : Config) (s : Mgr) (block : Nat) (f : Nat → Nat) (i : Nat) :
    ((setCount c s idx block f).slots i).state = (s.slots i).state := by
  obtain ⟨counts, hcounts⟩ := setCount_eq c s idx block f
  rw [hcounts]
  by_cases hii : i = idx
  · subst hii
    simp [Mgr.setSlot]
  · simp [Mgr.setSlot, hii]

theorem storeBlock_other (s : Mgr) (offset : Nat) (data : List UInt8) (b : Nat) (hne : i ≠ idx) :
    (storeBlock c s idx offset data b).slots i = s.slots i := by
  obtain ⟨counts, hcounts⟩ := setCount_eq c ({ s with
      heap := Function.update s.heap b (copyIn (s.heap b) offset data) }.setSlot idx
      (fun sl => sl.stored (offset / blockSize))) idx (offset / blockSize) (fun _ => 0)
  simp only [storeBlock, clearAllBlockRequests, hcounts]
  simp [Mgr.setSlot, hne]

theorem verifyInline_other (io : Faults) (s : Mgr) (plen : Nat) (hne : i ≠ idx) :
    (verifyInline c io s idx plen).1.slots i = s.slots i := by
  simp only [verifyInline]
  split
  · simp [hne]
  · split
    · simp [hne]
    · simp [Mgr.setSlot, hne]

theorem finishBlock_other (env : Env) (s : Mgr) (hne : i ≠ idx) :
    (finishBlock c env s idx).1.slots i = s.slots i := by
  obtain ⟨ok, started, hready, _, _⟩ := hashWorkerReady_eq env.spawn s
  simp only [finishBlock]
  split
  · rfl
  · split
    · rw [hready]
    · rw [verifyInline_other _ _ _ hne, hready]

/-- A block changes the slot of its own piece only. -/
theorem gotBlock_other (env : Env) (s : Mgr) (offset : Nat) (data : Option (List UInt8))
    (hne : i ≠ idx) : (gotBlock c env s idx offset data).1.slots i = s.slots i := by
  have htaken := gotBlock_taken c env s idx offset data
  generalize gotBlock c env s idx offset data = taken at htaken ⊢
  cases htaken with
  | rejected _ => rfl
  | late _ _ => rfl
  | noBuffer _ _ _ => exact slotBuf_other env.alloc s hne
  | stored bytes b _ _ _ =>
    rw [finishBlock_other env _ hne, storeBlock_other _ _ _ _ hne, slotBuf_other env.alloc s hne]

/-- A block for a piece that takes no more is dropped. -/
theorem gotBlock_closed (env : Env) {s : Mgr} (offset : Nat) (data : Option (List UInt8))
    (closed : ¬ (s.slots idx).Open) : (gotBlock c env s idx offset data).1 = s := by
  have htaken := gotBlock_taken c env s idx offset data
  generalize gotBlock c env s idx offset data = taken at htaken ⊢
  cases htaken with
  | rejected _ => rfl
  | late _ _ => rfl
  | noBuffer _ hopen _ => exact absurd hopen closed
  | stored bytes b hopen _ _ => exact absurd hopen closed

theorem markPending_other (alloc : Bool) (s : Mgr) (hne : i ≠ idx) :
    (markPending c alloc s idx).slots i = s.slots i := by
  simp only [markPending]
  split
  · rfl
  · split
    · rfl
    · split
      · rw [slotBuf_other alloc _ hne]
        simp [Mgr.setSlot, hne]
      · exact slotBuf_other alloc s hne

theorem markPending_closed (alloc : Bool) {s : Mgr} (closed : ¬ (s.slots idx).Open) :
    markPending c alloc s idx = s := by
  simp only [markPending]
  split
  · rfl
  · split
    · rfl
    · next hopen =>
      simp only [not_or] at hopen
      exact absurd hopen closed

theorem markPending_store (c : Config) (alloc : Bool) (s : Mgr) (idx : Nat) :
    (markPending c alloc s idx).store = s.store := by
  simp only [markPending]
  split
  · rfl
  · split
    · rfl
    · split
      · exact (slotBuf_frame alloc _ idx).2.2.1
      · exact (slotBuf_frame alloc s idx).2.2.1

theorem setCount_store (c : Config) (s : Mgr) (idx block : Nat) (f : Nat → Nat) :
    (setCount c s idx block f).store = s.store := by
  obtain ⟨counts, hcounts⟩ := setCount_eq c s idx block f
  rw [hcounts]
  rfl

theorem verifyPiece_store (c : Config) (alloc : Bool) (s : Mgr) (idx : Nat) :
    (verifyPiece c alloc s idx).1.store = s.store := by
  obtain ⟨v, hv⟩ := verifyScratch_eq alloc s
  simp only [verifyPiece, hv]
  split
  · rfl
  · split
    · rfl
    · split
      · rfl
      · split
        · rfl
        · split
          · rfl
          · exact (Untouched.resetPiece c _ idx).store

/-- `piece_mgr_check_existing` only touches its own piece. -/
theorem checkExisting_other (alloc : Bool) (s : Mgr) (hne : i ≠ idx) :
    (checkExisting c alloc s idx).1.slots i = s.slots i := by
  obtain ⟨v, hv⟩ := verifyScratch_eq alloc s
  simp only [checkExisting, hv]
  split
  · rfl
  · split
    · split
      · simp [hne]
      · rfl
    · split
      · rfl
      · split
        · split
          · simp [hne]
          · rfl
        · simp [hne]

theorem checkExisting_store (c : Config) (alloc : Bool) (s : Mgr) (idx : Nat) :
    (checkExisting c alloc s idx).1.store = s.store := by
  obtain ⟨v, hv⟩ := verifyScratch_eq alloc s
  simp only [checkExisting, hv]
  split
  · rfl
  · split
    · split <;> rfl
    · split
      · rfl
      · split
        · split <;> rfl
        · exact (Untouched.resetPiece c _ idx).store

theorem checkExisting_skipped (alloc : Bool) {s : Mgr} (hidx : idx < c.mi.numPieces)
    (skipped : storageRangeSkipped s.store (absOff c.mi idx) (plenOf c idx) = true) :
    ((checkExisting c alloc s idx).1.slots idx).state = .done := by
  simp only [checkExisting, Nat.not_le.mpr hidx, if_false, skipped, if_true]
  split
  · simp [Slot.filled]
  · next hdone => simpa using hdone

theorem verifyScratch_got (alloc : Bool) (s : Mgr) :
    (verifyScratch alloc s).1 = (s.verifyBuf || alloc) := by
  unfold verifyScratch
  split <;> simp_all

/-- When `piece_mgr_check_existing` leaves its piece done: skipped, or read back with its
hash, or done before and left alone for want of a scratch buffer. -/
theorem checkExisting_done_iff (alloc : Bool) (s : Mgr) (hidx : idx < c.mi.numPieces) :
    ((checkExisting c alloc s idx).1.slots idx).state = .done ↔
      storageRangeSkipped s.store (absOff c.mi idx) (plenOf c idx) = true ∨
      ((s.verifyBuf || alloc) = true ∧ onDiskValid c s idx = true) ∨
      ((s.verifyBuf || alloc) = false ∧ (s.slots idx).state = .done) := by
  have hbound : ¬ idx ≥ c.mi.numPieces := Nat.not_le.mpr hidx
  by_cases hskipped : storageRangeSkipped s.store (absOff c.mi idx) (plenOf c idx) = true
  · simp only [checkExisting_skipped alloc hidx hskipped, hskipped, true_or]
  · obtain ⟨v, hv⟩ := verifyScratch_eq alloc s
    have hvalid : onDiskValid c { s with verifyBuf := v } idx = onDiskValid c s idx := rfl
    simp only [checkExisting, hbound, hskipped, if_false, verifyScratch_got, hv, hvalid,
      Bool.false_eq_true, false_or]
    cases hscratch : (s.verifyBuf || alloc) with
    | false => simp
    | true =>
      simp only [Bool.true_eq_false, if_false, true_and, false_and, or_false]
      by_cases hread : onDiskValid c s idx = true
      · simp only [hread, if_true, iff_true]
        split
        · simp [Slot.filled]
        · next hdone => simpa using hdone
      · simp [hread, Slot.cleared]

/-- A piece that is not skipped and not found is left empty, if there was a scratch buffer or
it was empty before. -/
theorem checkExisting_leaves (alloc : Bool) {s : Mgr} (hidx : idx < c.mi.numPieces)
    (wanted : storageRangeSkipped s.store (absOff c.mi idx) (plenOf c idx) = false)
    (invalid : (s.verifyBuf || alloc) = true → onDiskValid c s idx = false)
    (scratch : (s.verifyBuf || alloc) = true ∨ (s.slots idx).state = .empty) :
    ((checkExisting c alloc s idx).1.slots idx).state = .empty := by
  have hbound : ¬ idx ≥ c.mi.numPieces := Nat.not_le.mpr hidx
  obtain ⟨v, hv⟩ := verifyScratch_eq alloc s
  have hvalid : onDiskValid c { s with verifyBuf := v } idx = onDiskValid c s idx := rfl
  simp only [checkExisting, hbound, wanted, if_false, verifyScratch_got, hv, hvalid,
    Bool.false_eq_true]
  cases hscratch : (s.verifyBuf || alloc) with
  | true => simp [invalid hscratch, Slot.cleared]
  | false =>
    rcases scratch with hyes | hempty
    · rw [hscratch] at hyes
      cases hyes
    · simpa using hempty

/-- The scratch buffer stays once it was allocated. -/
theorem checkExisting_scratch (alloc : Bool) (s : Mgr) (hidx : idx < c.mi.numPieces) :
    (checkExisting c alloc s idx).1.verifyBuf = (s.verifyBuf ||
      (alloc && !storageRangeSkipped s.store (absOff c.mi idx) (plenOf c idx))) := by
  have hbound : ¬ idx ≥ c.mi.numPieces := Nat.not_le.mpr hidx
  have hreset : ∀ s : Mgr, (resetPiece c s idx).verifyBuf = s.verifyBuf := by
    intro s
    obtain ⟨n, hn⟩ := orderCursorRewind_eq c ((forgetDone c s idx).setSlot idx Slot.cleared) idx
    rw [resetPiece, hn]
    simp only [Mgr.setSlot, forgetDone]
    split <;> rfl
  by_cases hskipped : storageRangeSkipped s.store (absOff c.mi idx) (plenOf c idx) = true
  · simp only [checkExisting, hbound, hskipped, if_false, if_true, Bool.not_true, Bool.and_false,
      Bool.or_false]
    split <;> rfl
  · have hafter : (verifyScratch alloc s).2.verifyBuf = (s.verifyBuf || alloc) := by
      unfold verifyScratch
      split <;> simp_all
    simp only [checkExisting, hbound, hskipped, if_false, Bool.not_false, Bool.and_true,
      Bool.false_eq_true]
    split
    · exact hafter
    · split
      · split <;> exact hafter
      · exact (hreset _).trans hafter

theorem not_open_of_done (done : (s.slots idx).state = .done) : ¬ (s.slots idx).Open :=
  fun hopen => hopen.1 done

theorem not_open_of_hashing (hashing : (s.slots idx).state = .hashing) : ¬ (s.slots idx).Open :=
  fun hopen => hopen.2 hashing

/-- `piece_mgr_verify_piece` resets a done piece that reads back wrong, and does nothing
else to the pieces. -/
theorem verifyPiece_state (alloc : Bool) (s : Mgr)
    (right : i = idx → storageRangeReadable s.store (absOff c.mi i) (plenOf c i) = true →
      onDiskValid c s i = true) :
    ((verifyPiece c alloc s idx).1.slots i) = s.slots i := by
  obtain ⟨v, hv⟩ := verifyScratch_eq alloc s
  simp only [verifyPiece]
  split
  · rfl
  · split
    · rfl
    · split
      · rfl
      · next hreadable =>
        split
        · rw [hv]
        · rw [hv]
          split
          · rfl
          · next hwrong =>
            by_cases hii : i = idx
            · subst hii
              have hvalid := right rfl (by simpa using hreadable)
              exact absurd hvalid hwrong
            · simp [hii]

end Slots

/-- Everything the manager records of one piece: its slot and its bits in the two bitfields. -/
def Mgr.record (s : Mgr) (i : Nat) : Slot × Bool × Bool :=
  (s.slots i, msbHas s.haveBf i, msbHas s.availableBf i)

section Preset

variable {c : Config} {bf : Nat → UInt8} {i idx : Nat}

theorem record_markDoneUnhashed (c : Config) (s : Mgr) (idx i : Nat) (readable : Bool) :
    (markDoneUnhashed c s idx readable).record i =
      if i = idx then ((s.slots i).filled, true, readable || msbHas s.availableBf i) else
        s.record i := by
  by_cases hii : i = idx
  · subst hii
    cases readable <;> simp [Mgr.record, markDoneUnhashed, orderCursorAdvance, Mgr.setSlot]
  · cases readable <;> simp [Mgr.record, markDoneUnhashed, orderCursorAdvance, Mgr.setSlot, hii]

theorem presetOne_store (c : Config) (bf : Nat → UInt8) (s : Mgr) (idx : Nat) :
    (presetOne c bf s idx).store = s.store := by
  simp only [presetOne]
  split
  · rfl
  · split
    · rfl
    · split <;> rfl

theorem presetOne_other (c : Config) (bf : Nat → UInt8) (s : Mgr) (hne : i ≠ idx) :
    (presetOne c bf s idx).record i = s.record i := by
  simp only [presetOne]
  split
  · rfl
  · split
    · rw [record_markDoneUnhashed, if_neg hne]
    · split
      · rw [record_markDoneUnhashed, if_neg hne]
      · rfl

/-- What one round does to its piece depends on that piece and the files alone. -/
theorem presetOne_congr {s s' : Mgr} (store : s'.store = s.store)
    (record : s'.record i = s.record i) :
    (presetOne c bf s' i).record i = (presetOne c bf s i).record i := by
  have hslot : s'.slots i = s.slots i := congrArg Prod.fst record
  have havailable : msbHas s'.availableBf i = msbHas s.availableBf i :=
    congrArg (fun r => r.2.2) record
  simp only [presetOne, store, hslot]
  split
  · exact record
  · split
    · simp only [record_markDoneUnhashed, if_true, hslot, havailable]
    · split
      · simp only [record_markDoneUnhashed, if_true, hslot, havailable]
      · exact record

/-- The loop treats every piece as if it were the only one. -/
theorem presetLoop_spec (c : Config) (bf : Nat → UInt8) (s : Mgr) (n i : Nat) :
    ((List.range n).foldl (presetOne c bf) s).store = s.store ∧
      ((List.range n).foldl (presetOne c bf) s).record i =
        (if i < n then presetOne c bf s i else s).record i := by
  induction n with
  | zero => exact ⟨rfl, rfl⟩
  | succ n ih =>
    obtain ⟨hstore, hrecord⟩ := ih
    rw [List.range_succ, List.foldl_append, List.foldl_cons, List.foldl_nil]
    refine ⟨(presetOne_store c bf _ n).trans hstore, ?_⟩
    by_cases hin : i = n
    · subst hin
      simp only [Nat.lt_irrefl, if_false] at hrecord
      simp only [Nat.lt_succ_self, if_true]
      exact presetOne_congr hstore hrecord
    · have hother := presetOne_other c bf ((List.range n).foldl (presetOne c bf) s) hin
      have hsame : i < n + 1 ↔ i < n := by omega
      simp only [hsame]
      exact hother.trans hrecord

theorem presetHave_record (s : Mgr) (bf : Nat → UInt8) (hi : i < c.mi.numPieces) :
    (presetHave c s (some bf) ((c.mi.numPieces + 7) / 8)).record i =
      (presetOne c bf s i).record i := by
  have hloop := (presetLoop_spec c bf s c.mi.numPieces i).2
  rw [if_pos hi] at hloop
  simp only [presetHave, ne_eq, not_true_eq_false, if_false]
  exact hloop

end Preset

section Writes

variable {c : Config} {s : Mgr} {idx : Nat}

theorem wroteWithin_of_write {io : Faults} {st st' : Store} (laid : Laid st.files) {offset : Int}
    {bytes : List UInt8} {len : Nat} (length : bytes.length = len)
    (h : storageWrite io st offset bytes = .ok st' ∨ storageWrite io st offset bytes = .error st') :
    WroteWithin offset len st st' := by
  have hspec := storageWrite_spec io laid offset bytes
  subst length
  rcases h with hok | herror
  · rw [hok] at hspec
    exact hspec.1
  · rw [herror] at hspec
    exact hspec

theorem verifyInline_wrote (io : Faults) {s : Mgr} (laid : Laid s.store.files)
    (hbuf : (s.slots idx).buf ≠ none) :
    WroteWithin (absOff c.mi idx) (plenOf c idx) s.store
      (verifyInline c io s idx (plenOf c idx)).1.store := by
  have hlength := bytes_length s hbuf (plenOf c idx)
  simp only [verifyInline]
  split
  · rw [(Untouched.resetPiece c s idx).store]
    exact WroteWithin.refl _ _ _
  · split
    · next st hwrite =>
      rw [(Untouched.resetPiece c _ idx).store]
      exact wroteWithin_of_write laid hlength (Or.inr hwrite)
    · next st hwrite =>
      obtain ⟨pool, hpool⟩ := pieceBufPut_eq
        (markPieceDone c { s with store := st } idx (plenOf c idx))
        (((markPieceDone c { s with store := st } idx (plenOf c idx)).slots idx).buf)
      rw [hpool]
      exact wroteWithin_of_write laid hlength (Or.inl hwrite)

theorem gotBlock_wrote (env : Env) {s : Mgr} (laid : Laid s.store.files) (idx offset : Nat)
    (data : Option (List UInt8)) :
    WroteWithin (absOff c.mi idx) (plenOf c idx) s.store
    (gotBlock c env s idx offset data).1.store := by
  have htaken := gotBlock_taken c env s idx offset data
  generalize gotBlock c env s idx offset data = taken at htaken ⊢
  cases htaken with
  | rejected _ => exact WroteWithin.refl _ _ _
  | late _ _ => exact WroteWithin.refl _ _ _
  | noBuffer _ _ _ => exact wroteWithin_of_files (by rw [(slotBuf_frame env.alloc s idx).2.2.1])
  | stored bytes b hopen hgood hb =>
    have hstore : (storeBlock c (slotBuf env.alloc s idx).2 idx offset bytes b).store = s.store :=
      (storeBlock_frame c _ idx offset bytes b).2.2.1.trans (slotBuf_frame env.alloc s idx).2.2.1
    have hcollecting := collecting_stored hgood hb
    generalize storeBlock c (slotBuf env.alloc s idx).2 idx offset bytes b =
      s1 at hstore hcollecting ⊢
    obtain ⟨ok, started, hready, _, _⟩ := hashWorkerReady_eq env.spawn s1
    rw [← hstore] at laid ⊢
    simp only [finishBlock]
    split
    · exact WroteWithin.refl _ _ _
    · split
      · rw [hready]
        exact WroteWithin.refl _ _ _
      · rw [hready]
        exact verifyInline_wrote (s := { s1 with hashOk := ok, hashStarted := started }) env.io laid
          hcollecting.2.2

end Writes

/-- A piece that is done and, where it is wholly on disk, has its bytes there. -/
def KeptPiece (c : Config) (s : Mgr) (i : Nat) : Prop :=
  (s.slots i).state = .done ∧ (s.store.OnDisk (absOff c.mi i) (plenOf c i) → Verified c s.store i)

section Kept

variable {c : Config} {s s' : Mgr} {i idx : Nat}

/-- A piece reads back with its hash iff its bytes are on disk. -/
theorem onDiskValid_iff (wf : TorrentLayout.WellFormed c.mi) (laid : Laid s.store.files)
    (hi : i < c.mi.numPieces) : onDiskValid c s i = true ↔ Verified c s.store i := by
  constructor
  · exact bytes_of_valid wf laid hi
  · rintro ⟨data, hlength, hmatch, hbytes⟩
    have hread := storageRead_of_bytes laid (by rw [hlength]; exact hbytes)
    rw [hlength] at hread
    have hplen := (plenOf_pos wf hi).1
    simp only [onDiskValid, hread, hplen, ne_eq, not_true_eq_false, if_false]
    exact hmatch

theorem KeptPiece.right (wf : TorrentLayout.WellFormed c.mi) (laid : Laid s.store.files)
    (hi : i < c.mi.numPieces) (h : KeptPiece c s i)
    (readable : storageRangeReadable s.store (absOff c.mi i) (plenOf c i) = true) :
    onDiskValid c s i = true := by
  rw [onDiskValid_iff wf laid hi]
  exact h.2 ((storageRangeReadable_iff laid _ _).mp readable)

/-- Only bytes of another piece are written. -/
theorem KeptPiece.wrote (wf : TorrentLayout.WellFormed c.mi) (laid : Laid s.store.files)
    (hi : i < c.mi.numPieces) (hidx : idx < c.mi.numPieces) (hne : i ≠ idx) (h : KeptPiece c s i)
    (state : (s'.slots i).state = .done)
    (wrote : WroteWithin (absOff c.mi idx) (plenOf c idx) s.store s'.store) : KeptPiece c s' i := by
  refine ⟨state, ?_⟩
  intro hdisk
  exact (h.2 ((wrote.shape.onDisk laid).mp hdisk)).outside wf hi hidx hne wrote

/-- Nothing is written. -/
theorem KeptPiece.same (h : KeptPiece c s i) (state : (s'.slots i).state = .done)
    (store : s'.store = s.store) : KeptPiece c s' i := by
  refine ⟨state, ?_⟩
  rw [store]
  exact h.2

theorem KeptPiece.call (wf : TorrentLayout.WellFormed c.mi) (laid : Laid s.store.files)
    (hi : i < c.mi.numPieces) (h : KeptPiece c s i) (env : Env) {call : Call}
    (hashing : call.licence.preset = false ∧ call.licence.check = false) :
    KeptPiece c (start c s env call).1 i := by
  have hclosed : ¬ (s.slots i).Open := not_open_of_done h.1
  cases call with
  | markPending idx =>
    by_cases hii : i = idx
    · subst hii
      simp only [start, markPending_closed env.alloc hclosed]
      exact h
    · refine h.same ?_ ?_
      · simp only [start, markPending_other env.alloc s hii]
        exact h.1
      · exact markPending_store c env.alloc s idx
  | gotBlock idx offset data =>
    rw [start_gotBlock]
    by_cases hii : i = idx
    · subst hii
      rw [gotBlock_closed env offset data hclosed]
      exact h
    · by_cases hidx : idx < c.mi.numPieces
      · refine h.wrote wf laid hi hidx hii ?_ (gotBlock_wrote env laid idx offset data)
        rw [gotBlock_other env s offset data hii]
        exact h.1
      · have hbeyond : (gotBlock c env s idx offset data).1 = s := by
          cases data with
          | none => rfl
          | some bytes => simp [gotBlock, Nat.le_of_not_lt hidx]
        rw [hbeyond]
        exact h
  | drainHashResults =>
    rw [start_drainHashResults]
    exact h
  | hashFlush =>
    rw [start_hashFlush]
    exact h
  | verifyPiece idx =>
    refine h.same ?_ (verifyPiece_store c env.alloc s idx)
    simp only [start]
    rw [verifyPiece_state env.alloc s (fun _ => h.right wf laid hi)]
    exact h.1
  | checkExisting idx => cases hashing.2
  | presetHave bf bfLen => cases hashing.1
  | markBlockRequested idx block =>
    exact h.same ((setCount_other c s block _ i).trans h.1) (setCount_store c s idx block _)
  | clearBlockRequested idx block =>
    exact h.same ((setCount_other c s block _ i).trans h.1) (setCount_store c s idx block _)
  | setStrictPolicy lookahead first => exact h

/-- No job, no block and no check of bytes that are right takes a kept piece back. -/
theorem KeptPiece.transition (wf : TorrentLayout.WellFormed c.mi) {m m' : Machine} {act : Act}
    {log events : List Event} (sound : MachineSound c m log) (hi : i < c.mi.numPieces)
    (h : KeptPiece c m.mgr i)
    (hashing : act.licence.preset = false ∧ act.licence.check = false)
    (t : Transition c m act m' events) : KeptPiece c m'.mgr i := by
  have laid := sound.books.laid
  cases t with
  | call call env _ => exact h.call wf laid hi env hashing
  | apply io job next hpc =>
    have hflight : m.pc.flight = some job := by
      rw [hpc]
      rfl
    obtain ⟨⟨hidx, hplen⟩, _⟩ := sound.ring.held job hflight
    have hlength : (m.mgr.bytes job.buf job.plen).length = plenOf c job.idx := by
      rw [bytes_length m.mgr (sound.buffers.owned.flightBuf job hflight), hplen]
    have happlied := hashApply_applied c io m.mgr job
    have hslot := happlied.slots (i := i) (by rw [h.1]; decide)
    have hstate : ((hashApply c io m.mgr job).1.slots i).state = .done := by
      rw [hslot]
      exact h.1
    by_cases hashingJob : (m.mgr.slots job.idx).state = .hashing
    · have hne : i ≠ job.idx := by
        rintro rfl
        rw [h.1] at hashingJob
        cases hashingJob
      refine h.wrote wf laid hi hidx hne hstate ?_
      generalize (hashApply c io m.mgr job).1 = s', (hashApply c io m.mgr job).2 =
        report at happlied ⊢
      cases happlied with
      | stale _ =>
        obtain ⟨pool, hpool⟩ := pieceBufPut_eq m.mgr job.buf
        rw [hpool]
        exact WroteWithin.refl _ _ _
      | mismatch _ _ =>
        rw [(Untouched.resetPiece c _ job.idx).store]
        exact WroteWithin.refl _ _ _
      | refused io st _ _ hwrite =>
        rw [(Untouched.resetPiece c _ job.idx).store]
        exact wroteWithin_of_write laid hlength (Or.inr hwrite)
      | written io st _ _ hwrite =>
        obtain ⟨pool, hpool⟩ := pieceBufPut_eq
          (markPieceDone c { m.mgr with store := st } job.idx job.plen) job.buf
        rw [hpool]
        exact wroteWithin_of_write laid hlength (Or.inl hwrite)
    · refine h.same hstate ?_
      simp only [hashApply, ne_eq, hashingJob, not_false_eq_true, if_true]
      obtain ⟨pool, hpool⟩ := pieceBufPut_eq m.mgr job.buf
      rw [hpool]
  | push idx plen hpc =>
    refine h.same ?_ rfl
    obtain ⟨_, _, _, ⟨_, hpending, _, _⟩⟩ := sound.buffers.pushing hpc
    have hne : i ≠ idx := by
      rintro rfl
      rw [h.1] at hpending
      cases hpending
    simpa [pushStep, Mgr.pushJob, Mgr.setSlot, hne] using h.1
  | _ => exact h

end Kept

end PieceManager
