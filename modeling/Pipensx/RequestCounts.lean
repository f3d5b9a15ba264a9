import Pipensx.PieceBookkeeping

/-!
# How often a block is asked for

The counts of outstanding requests go up in one call only; everything else the manager
does lowers them or leaves them alone. A block that has arrived has no count, and neither
has any block of a piece that no longer takes blocks.
-/

namespace PieceManager

open PieceGeometry Storage ByteBits

/-- Blocks that need not be asked for are not asked for. -/
def Slot.Clear (sl : Slot) : Prop :=
  ∀ b, b < sl.numBlocks → blockIsSet sl b = true ∨ ¬ sl.Open → sl.requestCounts b = 0

def CountsClear (c : Config) (s : Mgr) : Prop := ∀ i, i < c.mi.numPieces → (s.slots i).Clear

/-- No block is asked for. -/
def NoCounts (s : Mgr) : Prop := ∀ i b, (s.slots i).requestCounts b = 0

/-- No count is raised, and no piece changes its number of blocks. -/
def Lower (s s' : Mgr) : Prop :=
  ∀ i, (s'.slots i).numBlocks = (s.slots i).numBlocks ∧
    ∀ b, (s'.slots i).requestCounts b ≤ (s.slots i).requestCounts b

theorem Lower.refl (s : Mgr) : Lower s s := fun _ => ⟨rfl, fun _ => Nat.le_refl _⟩

theorem Lower.trans {s t u : Mgr} (h : Lower s t) (h' : Lower t u) : Lower s u :=
  fun i => ⟨(h' i).1.trans (h i).1, fun b => ((h' i).2 b).trans ((h i).2 b)⟩

theorem NoCounts.lower {s s' : Mgr} (h : NoCounts s) (lower : Lower s s') : NoCounts s' := by
  intro i b
  have hle := (lower i).2 b
  rw [h i b] at hle
  omega

theorem NoCounts.clear {c : Config} {s : Mgr} (h : NoCounts s) : CountsClear c s :=
  fun i _ b _ _ => h i b

section Slots

variable {c : Config} {s s' : Mgr} {idx : Nat}

theorem lower_slot {sl : Slot} (slots : s'.slots = Function.update s.slots idx sl)
    (blocks : sl.numBlocks = (s.slots idx).numBlocks)
    (counts : ∀ b, sl.requestCounts b ≤ (s.slots idx).requestCounts b) : Lower s s' := by
  intro i
  rw [slots]
  by_cases hii : i = idx
  · subst hii
    rw [Function.update_self]
    exact ⟨blocks, counts⟩
  · rw [Function.update_of_ne hii]
    exact ⟨rfl, fun _ => Nat.le_refl _⟩

theorem CountsClear.slot (h : CountsClear c s) {sl : Slot}
    (slots : s'.slots = Function.update s.slots idx sl)
    (clear : idx < c.mi.numPieces → sl.Clear) : CountsClear c s' := by
  intro i hi
  rw [slots]
  by_cases hii : i = idx
  · subst hii
    rw [Function.update_self]
    exact clear hi
  · rw [Function.update_of_ne hii]
    exact h i hi

theorem clear_cleared (sl : Slot) : sl.cleared.Clear := fun _ _ _ => rfl

theorem blockIsSet_stored {sl : Slot} {blk : Nat} (hblk : blk < sl.numBlocks) (b : Nat) :
    blockIsSet (sl.stored blk) b = (decide (b = blk) || blockIsSet sl b) := by
  by_cases hset : blockIsSet sl blk = true
  · have hstored : sl.stored blk = { sl with state := .pending } := by
      rw [Slot.stored, if_pos hset]
    rw [hstored]
    by_cases hb : b = blk
    · subst hb
      simpa [blockIsSet] using hset
    · simp [hb, blockIsSet]
  · have hstored : sl.stored blk = { sl with
        state := .pending, haveBlocks := lsbSet sl.haveBlocks blk,
        numBlocksDone := sl.numBlocksDone + 1 } := by
      rw [Slot.stored, if_neg hset]
    rw [hstored]
    by_cases hb : b = blk
    · subst hb
      simp [blockIsSet, hblk]
    · simp [blockIsSet, hb]

/-- A slot with as many blocks done as it has blocks has every bit set. -/
theorem blockIsSet_of_complete {sl : Slot} (books : sl.numBlocksDone = sl.blockSet.card)
    (complete : sl.numBlocksDone = sl.numBlocks) {b : Nat} (hb : b < sl.numBlocks) :
    blockIsSet sl b = true := by
  have hcard : (Finset.range sl.numBlocks).card ≤ sl.blockSet.card := by
    rw [Finset.card_range, ← books, complete]
  have hall : sl.blockSet = Finset.range sl.numBlocks :=
    Finset.eq_of_subset_of_card_le (Finset.filter_subset _ _) hcard
  have hmem : b ∈ sl.blockSet := by
    rw [hall]
    exact Finset.mem_range.mpr hb
  simp only [Slot.blockSet, Finset.mem_filter] at hmem
  simp [blockIsSet, hb, hmem.2]

/-- A slot that has all its blocks asks for none. -/
theorem Slot.Clear.complete {sl : Slot} (h : sl.Clear) (books : sl.numBlocksDone = sl.blockSet.card)
    (complete : sl.numBlocksDone = sl.numBlocks) {b : Nat} (hb : b < sl.numBlocks) :
    sl.requestCounts b = 0 := by
  exact h b hb (Or.inl (blockIsSet_of_complete books complete hb))

end Slots

section Edits

variable {c : Config} {l : Licence} {s s' : Mgr}

theorem lower_resetPiece (c : Config) (s : Mgr) (idx : Nat) : Lower s (resetPiece c s idx) := by
  refine lower_slot (resetPiece_slots c s idx) rfl ?_
  intro b
  exact Nat.zero_le _

theorem setCount_slots (c : Config) (s : Mgr) (idx block : Nat) (f : Nat → Nat) :
    (setCount c s idx block f).slots = s.slots ∨ (s.blockKnown c idx block ∧
      (setCount c s idx block f).slots = Function.update s.slots idx { s.slots idx with
        requestCounts := Function.update (s.slots idx).requestCounts block
          (f ((s.slots idx).requestCounts block)) }) := by
  simp only [setCount]
  split
  · next hknown => exact Or.inr ⟨hknown, rfl⟩
  · exact Or.inl rfl

/-- The slot of a piece that was hashed and written inline. -/
theorem written_slots (c : Config) (s : Mgr) (idx : Nat) (st : Store) :
    ((pieceBufPut (markPieceDone c { s with store := st } idx (plenOf c idx))
      (s.slots idx).buf).setSlot idx (fun sl => { sl with buf := none })).slots =
      Function.update s.slots idx { s.slots idx with state := .done, buf := none } := by
  simp [Mgr.setSlot]

theorem Edit.lower (unrequested : l.request = false) (h : Edit c l s s') : Lower s s' := by
  cases h with
  | flags v ok started lookahead first => exact Lower.refl s
  | count idx block f hf =>
    rcases hf with hf | hrequest
    · rcases setCount_slots c s idx block f with hsame | ⟨_, hslots⟩
      · intro i
        rw [hsame]
        exact ⟨rfl, fun _ => Nat.le_refl _⟩
      · refine lower_slot hslots rfl ?_
        intro b
        by_cases hb : b = block
        · subst hb
          simpa using hf _
        · simp [hb]
    · rw [unrequested] at hrequest
      cases hrequest
  | pending idx => exact lower_slot rfl rfl (fun _ => Nat.le_refl _)
  | buffer idx alloc =>
    exact lower_slot (slotBuf_slots alloc s idx) rfl (fun _ => Nat.le_refl _)
  | block idx offset data b hidx _ _ _ _ hblk =>
    refine lower_slot (storeBlock_slots c s data b hidx hblk) (by simp) ?_
    intro b'
    by_cases hb : b' = offset / blockSize
    · simp [hb]
    · simp [hb]
  | reset idx => exact lower_resetPiece c s idx
  | skipped idx => exact lower_slot rfl rfl (fun _ => Nat.le_refl _)
  | readable idx => exact lower_slot rfl rfl (fun _ => Nat.le_refl _)
  | written idx io st => exact lower_slot (written_slots c s idx st) rfl (fun _ => Nat.le_refl _)
  | refused idx io st => exact lower_resetPiece c { s with store := st } idx

/-- A piece that has just got a block. -/
theorem clear_stored {sl : Slot} (h : sl.Clear) {blk : Nat} (hblk : blk < sl.numBlocks) :
    Slot.Clear { sl.stored blk with requestCounts := Function.update sl.requestCounts blk 0 } := by
  intro b hb hor
  by_cases heq : b = blk
  · simp [heq]
  · simp only [Function.update_of_ne heq]
    rcases hor with hset | hopen
    · have hold : blockIsSet sl b = true := by
        have hstored := blockIsSet_stored hblk b
        simp only [heq, decide_false, Bool.false_or] at hstored
        rw [← hstored]
        exact hset
      exact h b (by simpa using hb) (Or.inl hold)
    · exact absurd ⟨by simp, by simp⟩ hopen

/-- Changing the state between open states, or the buffer, says nothing about blocks. -/
theorem clear_reopened {sl sl' : Slot} (h : sl.Clear) (blocks : sl'.numBlocks = sl.numBlocks)
    (haveBlocks : sl'.haveBlocks = sl.haveBlocks) (counts : sl'.requestCounts = sl.requestCounts)
    (state : sl.Open → sl'.Open) : sl'.Clear := by
  intro b hb hor
  rw [counts]
  rw [blocks] at hb
  refine h b hb ?_
  rcases hor with hset | hopen
  · left
    simpa [blockIsSet, blocks, haveBlocks] using hset
  · right
    exact fun hold => hopen (state hold)

/-- A slot that has no counts may become anything. -/
theorem clear_of_zero {sl : Slot} (zero : ∀ b, b < sl.numBlocks → sl.requestCounts b = 0) :
    sl.Clear :=
  fun b hb _ => zero b hb

theorem CountsClear.edit (plain : l = ⟨false, false, false⟩) (h : CountsClear c s)
    (books : Bookkept c s) (edit : Edit c l s s') : CountsClear c s' := by
  subst plain
  cases edit with
  | flags v ok started lookahead first => exact h
  | count idx block f hf =>
    rcases hf with hf | hrequest
    · rcases setCount_slots c s idx block f with hsame | ⟨_, hslots⟩
      · intro i hi
        rw [hsame]
        exact h i hi
      · refine h.slot hslots ?_
        intro hidx b hb hor
        have hzero := h idx hidx b hb hor
        by_cases heq : b = block
        · subst heq
          have hle := hf ((s.slots idx).requestCounts b)
          rw [hzero] at hle
          simp only [Function.update_self, hzero]
          omega
        · simp only [Function.update_of_ne heq]
          exact hzero
    · cases hrequest
  | pending idx hidx hempty =>
    refine h.slot rfl (fun hi => clear_reopened (h idx hi) rfl rfl rfl ?_)
    intro _
    exact ⟨by simp, by simp⟩
  | buffer idx alloc =>
    exact h.slot (slotBuf_slots alloc s idx) (fun hi => clear_reopened (h idx hi) rfl rfl rfl id)
  | block idx offset data b hidx _ _ _ _ hblk =>
    exact h.slot (storeBlock_slots c s data b hidx hblk) (fun hi => clear_stored (h idx hi) hblk)
  | reset idx => exact h.slot (resetPiece_slots c s idx) (fun _ => clear_cleared _)
  | skipped idx _ _ hlicence =>
    rcases hlicence with hcheck | hpreset
    · cases hcheck
    · cases hpreset
  | readable idx _ _ hlicence =>
    rcases hlicence with ⟨hcheck, _⟩ | ⟨hpreset, _⟩
    · cases hcheck
    · cases hpreset
  | written idx io st hidx _ _ _ _ hcomplete =>
    refine h.slot (written_slots c s idx st) (fun hi => clear_of_zero ?_)
    intro b hb
    exact (h idx hi).complete (books.books.blocks idx hi) hcomplete hb
  | refused idx io st =>
    exact h.slot (resetPiece_slots c { s with store := st } idx) (fun _ => clear_cleared _)

end Edits

def Act.licence : Act → Licence
  | .call made _ => made.licence
  | _ => ⟨false, false, false⟩

section Runs

variable {c : Config}

/-- The slot of a piece that was hashed by the worker and written. -/
theorem applied_slots (c : Config) (s : Mgr) (job : HashJob) (st : Store) :
    (pieceBufPut (markPieceDone c { s with store := st } job.idx job.plen) job.buf).slots =
      Function.update s.slots job.idx { s.slots job.idx with state := .done } := by
  simp

theorem Applied.lower {s s' : Mgr} {job : HashJob} {report : Option (Nat × Int)}
    (h : Applied c s job s' report) : Lower s s' := by
  have hattach : ∀ t : Mgr, Lower t (t.attach job) :=
    fun t => lower_slot rfl rfl (fun _ => Nat.le_refl _)
  cases h with
  | stale _ =>
    intro i
    simp
  | mismatch _ _ => exact (hattach s).trans (lower_resetPiece c _ job.idx)
  | refused io st _ _ _ =>
    exact (hattach { s with store := st }).trans (lower_resetPiece c _ job.idx)
  | written io st _ _ _ =>
    exact lower_slot (applied_slots c s job st) rfl (fun _ => Nat.le_refl _)

theorem CountsClear.applied {s s' : Mgr} (h : CountsClear c s) {job : HashJob}
    {report : Option (Nat × Int)} (applied : Applied c s job s' report) : CountsClear c s' := by
  cases applied with
  | stale _ =>
    intro i hi
    rw [pieceBufPut_slots]
    exact h i hi
  | mismatch _ _ =>
    refine CountsClear.slot ?_ (resetPiece_slots c _ job.idx) (fun _ => clear_cleared _)
    exact h.slot rfl (fun hi => clear_reopened (h job.idx hi) rfl rfl rfl id)
  | refused io st _ _ _ =>
    refine CountsClear.slot ?_ (resetPiece_slots c _ job.idx) (fun _ => clear_cleared _)
    exact h.slot rfl (fun hi => clear_reopened (h job.idx hi) rfl rfl rfl id)
  | written io st hstate _ _ =>
    refine h.slot (applied_slots c s job st)
      (fun hi => clear_reopened (h job.idx hi) rfl rfl rfl ?_)
    intro hopen
    exact absurd hstate hopen.2

theorem lower_transition {m m' : Machine} {act : Act} {events : List Event}
    (unrequested : act.licence.request = false) (t : Transition c m act m' events) :
    Lower m.mgr m'.mgr := by
  cases t with
  | call call env _ =>
    obtain ⟨hedits, _⟩ := start_edits c m.mgr env call
    exact hedits.induction (P := Lower m.mgr)
      (fun _ _ hold hedit => hold.trans (hedit.lower unrequested)) (Lower.refl _)
  | push idx plen _ => exact lower_slot rfl rfl (fun _ => Nat.le_refl _)
  | apply io job next _ => exact (hashApply_applied c io m.mgr job).lower
  | _ => exact Lower.refl _

theorem CountsClear.transition (wf : TorrentLayout.WellFormed c.mi) {m m' : Machine} {act : Act}
    {log events : List Event} (h : CountsClear c m.mgr) (sound : MachineSound c m log)
    (plain : act.licence = ⟨false, false, false⟩) (t : Transition c m act m' events) :
    CountsClear c m'.mgr := by
  cases t with
  | call call env _ =>
    obtain ⟨hedits, _⟩ := start_edits c m.mgr env call
    have key : Bookkept c (start c m.mgr env call).1 ∧
      CountsClear c (start c m.mgr env call).1 := by
      refine hedits.induction (P := fun s => Bookkept c s ∧ CountsClear c s) ?_ ⟨sound.books, h⟩
      rintro s s' ⟨hbooks, hclear⟩ hedit
      exact ⟨hbooks.edit wf hedit, hclear.edit plain hbooks hedit⟩
    exact key.2
  | push idx plen hpc =>
    obtain ⟨_, _, _, ⟨hidx, _, _, hcomplete⟩⟩ := sound.buffers.pushing hpc
    refine h.slot rfl (fun hi => clear_of_zero ?_)
    intro b hb
    exact (h idx hi).complete (sound.books.books.blocks idx hi) hcomplete hb
  | apply io job next _ => exact h.applied (hashApply_applied c io m.mgr job)
  | _ => exact h

end Runs

/-- What holds between two calls of the torrent thread. -/
structure Settled (c : Config) (m : Machine) : Prop where
  idle : m.pc = .idle
  sound : ∃ log, MachineSound c m log
  shape : ∀ i, (m.mgr.slots i).numBlocks = pieceNumBlocks c.mi i
  clear : CountsClear c m.mgr

section Calls

variable {c : Config}

theorem shape_lower {s s' : Mgr} (h : ∀ i, (s.slots i).numBlocks = pieceNumBlocks c.mi i)
    (lower : Lower s s') : ∀ i, (s'.slots i).numBlocks = pieceNumBlocks c.mi i :=
  fun i => (lower i).1.trans (h i)

theorem step_idle_call {m : Machine} (idle : m.pc = .idle) (call : Call) (env : Env) :
    step c m (.call call env) =
      some (⟨(start c m.mgr env call).1, (start c m.mgr env call).2.1, m.worker⟩,
        (start c m.mgr env call).2.2) := by
  simp only [step, idle]

/-- A call that returns at once leaves the manager settled, if it leaves no count behind
that it should not. -/
theorem Settled.returns (wf : TorrentLayout.WellFormed c.mi) {m : Machine} (h : Settled c m)
    {call : Call} {env : Env} (returns : (start c m.mgr env call).2.1 = .idle)
    (shape : ∀ i, ((start c m.mgr env call).1.slots i).numBlocks = (m.mgr.slots i).numBlocks)
    (clear : CountsClear c (start c m.mgr env call).1) :
    Settled c { m with mgr := (start c m.mgr env call).1 } := by
  obtain ⟨log, hsound⟩ := h.sound
  have hstep := step_idle_call (c := c) h.idle call env
  have hsound' := hsound.step wf hstep
  rw [returns, ← h.idle] at hsound'
  exact ⟨h.idle, ⟨_, hsound'⟩, fun i => (shape i).trans (h.shape i), clear⟩

theorem start_lower (c : Config) (s : Mgr) (env : Env) {call : Call}
    (unrequested : call.licence.request = false) : Lower s (start c s env call).1 :=
  (start_edits c s env call).1.induction (P := Lower s)
    (fun _ _ hold hedit => hold.trans (hedit.lower unrequested)) (Lower.refl s)

theorem Settled.call (wf : TorrentLayout.WellFormed c.mi) {m : Machine} (h : Settled c m)
    {call : Call} {env : Env} (returns : (start c m.mgr env call).2.1 = .idle)
    (plain : call.licence = ⟨false, false, false⟩) :
    Settled c { m with mgr := (start c m.mgr env call).1 } := by
  obtain ⟨log, hsound⟩ := h.sound
  have hstep := step_idle_call (c := c) h.idle call env
  refine h.returns wf returns (fun i => (start_lower c m.mgr env (by rw [plain]) i).1) ?_
  have hplain : (Act.call call env).licence = ⟨false, false, false⟩ := plain
  exact h.clear.transition wf hsound hplain (step_transition hstep)

/-- A step of either thread inside a call, or a call itself, of those that raise no count. -/
def Act.Plain (act : Act) : Prop := act.licence = ⟨false, false, false⟩

theorem run_lower {m m' : Machine} {acts : List Act} {events : List Event}
    (plain : ∀ act ∈ acts, act.Plain) (h : run c m acts = some (m', events)) : Lower m.mgr m'.mgr :=
  run_induction (fun m1 _ => Lower m.mgr m1.mgr) Act.Plain
    (fun _ _ _ _ _ hold hplain hstep =>
      hold.trans (lower_transition (by rw [hplain]) (step_transition hstep)))
    [] h plain (Lower.refl _)

theorem run_clear (wf : TorrentLayout.WellFormed c.mi) {m m' : Machine} {acts : List Act}
    {log events : List Event} (sound : MachineSound c m log) (clear : CountsClear c m.mgr)
    (plain : ∀ act ∈ acts, act.Plain) (h : run c m acts = some (m', events)) :
    MachineSound c m' (log ++ events) ∧ CountsClear c m'.mgr := by
  refine run_induction (fun m1 log => MachineSound c m1 log ∧ CountsClear c m1.mgr) Act.Plain
    ?_ log h plain ⟨sound, clear⟩
  rintro m1 log act m2 events ⟨hsound, hclear⟩ hplain hstep
  exact ⟨hsound.step wf hstep, hclear.transition wf hsound hplain (step_transition hstep)⟩

theorem Settled.run (wf : TorrentLayout.WellFormed c.mi) {m m' : Machine} (h : Settled c m)
    {acts : List Act} {events : List Event} (plain : ∀ act ∈ acts, act.Plain)
    (hrun : run c m acts = some (m', events)) (idle : m'.pc = .idle) : Settled c m' := by
  obtain ⟨log, hsound⟩ := h.sound
  obtain ⟨hsound', hclear⟩ := run_clear wf hsound h.clear plain hrun
  exact ⟨idle, ⟨_, hsound'⟩, shape_lower h.shape (run_lower plain hrun), hclear⟩

/-- The worker moves while the torrent thread is elsewhere. -/
theorem Settled.worker (wf : TorrentLayout.WellFormed c.mi) {m m' : Machine} (h : Settled c m)
    {events : List Event} (hstep : step c m .worker = some (m', events)) : Settled c m' := by
  have hrun : PieceManager.run c m [.worker] = some (m', events ++ []) := by
    simp only [PieceManager.run, hstep]
  refine h.run wf (by simp [Act.Plain, Act.licence]) hrun ?_
  have hpc : m'.pc = m.pc := by
    cases step_transition hstep <;> rfl
  exact hpc.trans h.idle

/-- Asking for a block that is missing, of a piece that takes blocks. -/
theorem CountsClear.mark {s : Mgr} (h : CountsClear c s) {idx block : Nat}
    (hopen : (s.slots idx).Open) (missing : hasBlock c s idx block = false) :
    CountsClear c (markBlockRequested c s idx block) := by
  rcases setCount_slots c s idx block (fun n => if n ≠ 255 then n + 1 else n) with
    hsame | ⟨hknown, hslots⟩
  · intro i hi
    rw [markBlockRequested, hsame]
    exact h i hi
  · refine h.slot hslots ?_
    intro hidx b hb hor
    have hne : b ≠ block := by
      rintro rfl
      rcases hor with hset | hclosed
      · simp only [hasBlock, hidx, decide_true, Bool.true_and] at missing
        have hold : blockIsSet (s.slots idx) b = true := hset
        rw [missing] at hold
        cases hold
      · exact hclosed hopen
    simp only [Function.update_of_ne hne]
    exact h idx hidx b hb hor

/-- A block that was taken is no longer asked for. -/
theorem gotBlock_count (env : Env) {s : Mgr} (h : CountsClear c s) {idx offset : Nat}
    (data : Option (List UInt8)) (hidx : idx < c.mi.numPieces)
    (hblk : offset / blockSize < (s.slots idx).numBlocks)
    (accepted : ∀ r, (gotBlock c env s idx offset data).2 = some r → 0 ≤ r) :
    ((gotBlock c env s idx offset data).1.slots idx).requestCounts (offset / blockSize) = 0 := by
  have htaken := gotBlock_taken c env s idx offset data
  generalize gotBlock c env s idx offset data = taken at htaken accepted ⊢
  cases htaken with
  | rejected _ => exact absurd (accepted (-1) rfl) (by decide)
  | late _ hclosed => exact h idx hidx _ hblk (Or.inr hclosed)
  | noBuffer _ _ _ => exact absurd (accepted (-1) rfl) (by decide)
  | stored bytes b hopen hgood hb =>
    have hlower : Lower (storeBlock c (slotBuf env.alloc s idx).2 idx offset bytes b)
        (finishBlock c env (storeBlock c (slotBuf env.alloc s idx).2 idx offset bytes b) idx).1 :=
      (edits_finishBlock ⟨false, false, false⟩ env _ (collecting_stored hgood hb)).1.induction
        (P := Lower _) (fun _ _ hold hedit => hold.trans (hedit.lower rfl)) (Lower.refl _)
    have hslots := storeBlock_slots c (slotBuf env.alloc s idx).2 bytes b hidx
      (show offset / blockSize < ((slotBuf env.alloc s idx).2.slots idx).numBlocks by
        rw [slotBuf_slot hb]
        exact hblk)
    have hle := (hlower idx).2 (offset / blockSize)
    rw [hslots, Function.update_self] at hle
    simp only [Function.update_self] at hle
    omega

end Calls

end PieceManager
