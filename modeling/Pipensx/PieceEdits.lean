import Mathlib.Logic.Relation
import Pipensx.HashPipeline

/-!
# What a call can do to the manager

Every call of the torrent thread changes the manager in a few kinds of elementary edits,
each under the conditions the code has checked before it. An invariant that survives each
edit survives every call, so the control flow of the calls is gone through here and
nowhere else.
-/

namespace PieceManager

open PieceGeometry Storage

/-- A piece that still takes blocks. -/
def Slot.Open (sl : Slot) : Prop := sl.state ≠ .done ∧ sl.state ≠ .hashing

/-- What only some calls may do: mark pieces done on trust, mark them done after reading
them from the disk, and raise the count of requests for a block. -/
structure Licence where
  preset : Bool
  check : Bool
  request : Bool
  deriving DecidableEq

def Call.licence : Call → Licence
  | .presetHave _ _ => ⟨true, false, false⟩
  | .checkExisting _ => ⟨false, true, false⟩
  | .markBlockRequested _ _ => ⟨false, false, true⟩
  | _ => ⟨false, false, false⟩

/-- One elementary edit. -/
inductive Edit (c : Config) (l : Licence) : Mgr → Mgr → Prop where
  | flags (s : Mgr) (v ok started : Bool) (lookahead : Nat) (first : Bool) :
      (s.hashStarted = true → started = true) →
      Edit c l s { s with verifyBuf := v, hashOk := ok, hashStarted := started,
                          strictLookahead := lookahead, strictFillPendingFirst := first }
  | count (s : Mgr) (idx block : Nat) (f : Nat → Nat) : (∀ n, f n ≤ n) ∨ l.request = true →
      Edit c l s (setCount c s idx block f)
  | pending (s : Mgr) (idx : Nat) : idx < c.mi.numPieces → (s.slots idx).state = .empty →
      Edit c l s (s.setSlot idx (fun sl => { sl with state := .pending }))
  | buffer (s : Mgr) (idx : Nat) (alloc : Bool) : idx < c.mi.numPieces → (s.slots idx).Open →
      Edit c l s (slotBuf alloc s idx).2
  | block (s : Mgr) (idx offset : Nat) (data : List UInt8) (b : Nat) : idx < c.mi.numPieces →
      (s.slots idx).Open → (s.slots idx).buf = some b → offset % blockSize = 0 →
      (offset : Int) < pieceLen c.mi idx → offset / blockSize < (s.slots idx).numBlocks →
      data.length = expectedLen c idx offset →
      Edit c l s (storeBlock c s idx offset data b)
  | reset (s : Mgr) (idx : Nat) : idx < c.mi.numPieces → Edit c l s (resetPiece c s idx)
  | skipped (s : Mgr) (idx : Nat) : idx < c.mi.numPieces → (s.slots idx).state ≠ .done →
      l.check = true ∨ l.preset = true →
      storageRangeSkipped s.store (absOff c.mi idx) (plenOf c idx) = true →
      Edit c l s (markDoneUnhashed c s idx false)
  | readable (s : Mgr) (idx : Nat) : idx < c.mi.numPieces → (s.slots idx).state ≠ .done →
      (l.check = true ∧ onDiskValid c s idx = true) ∨ (l.preset = true ∧
        storageRangeReadable s.store (absOff c.mi idx) (plenOf c idx) = true) →
      Edit c l s (markDoneUnhashed c s idx true)
  | written (s : Mgr) (idx : Nat) (io : Faults) (st : Store) : idx < c.mi.numPieces →
      (s.slots idx).state = .pending →
      hashMatches c idx (s.bytes (s.slots idx).buf (plenOf c idx)) = true →
      storageWrite io s.store (absOff c.mi idx) (s.bytes (s.slots idx).buf (plenOf c idx)) =
      .ok st → (s.slots idx).buf ≠ none → (s.slots idx).numBlocksDone = (s.slots idx).numBlocks →
      Edit c l s
        ((pieceBufPut (markPieceDone c { s with store := st } idx (plenOf c idx))
          (s.slots idx).buf).setSlot idx (fun sl => { sl with buf := none }))
  | refused (s : Mgr) (idx : Nat) (io : Faults) (st : Store) : idx < c.mi.numPieces →
      (s.slots idx).state = .pending →
      storageWrite io s.store (absOff c.mi idx) (s.bytes (s.slots idx).buf (plenOf c idx)) =
        .error st →
      (s.slots idx).buf ≠ none →
      Edit c l s (resetPiece c { s with store := st } idx)

abbrev Edits (c : Config) (l : Licence) : Mgr → Mgr → Prop := Relation.ReflTransGen (Edit c l)

/-- An invariant of every edit is an invariant of every sequence of edits. -/
theorem Edits.induction {c : Config} {l : Licence} {P : Mgr → Prop}
    (preserved : ∀ s s', P s → Edit c l s s' → P s') {s s' : Mgr} (h : Edits c l s s')
    (init : P s) : P s' := by
  induction h with
  | refl => exact init
  | tail _ hedit ih => exact preserved _ _ ih hedit

theorem Edit.edits {c : Config} {l : Licence} {s s' : Mgr} (h : Edit c l s s') :
    Edits c l s s' := Relation.ReflTransGen.single h

section Calls

variable {c : Config} {l : Licence}

theorem edits_verifyScratch (alloc : Bool) (s : Mgr) : Edits c l s (verifyScratch alloc s).2 := by
  obtain ⟨v, hv⟩ := verifyScratch_eq alloc s
  rw [hv]
  exact (Edit.flags s v s.hashOk s.hashStarted s.strictLookahead s.strictFillPendingFirst id).edits

theorem edits_hashWorkerReady (spawn : Bool) (s : Mgr) :
    Edits c l s (hashWorkerReady spawn s).2 := by
  obtain ⟨ok, started, hready, hstarted, _⟩ := hashWorkerReady_eq spawn s
  rw [hready]
  exact (Edit.flags s s.verifyBuf ok started s.strictLookahead s.strictFillPendingFirst
    hstarted).edits

theorem edits_markPending (alloc : Bool) (s : Mgr) (idx : Nat) :
    Edits c l s (markPending c alloc s idx) := by
  simp only [markPending]
  split
  · exact .refl
  · next hidx =>
    split
    · exact .refl
    · next hopen =>
      have hopen' : (s.slots idx).Open := by
        constructor
        · intro h
          exact hopen (Or.inl h)
        · intro h
          exact hopen (Or.inr h)
      split
      · next hempty =>
        refine Relation.ReflTransGen.head (Edit.pending s idx (by omega) hempty) ?_
        apply (Edit.buffer _ idx alloc (by omega) _).edits
        simp [Slot.Open, Mgr.setSlot]
      · exact (Edit.buffer s idx alloc (by omega) hopen').edits

/-- What the torrent thread knows of a piece it has just put a block into. -/
def Collecting (c : Config) (s : Mgr) (idx : Nat) : Prop :=
  idx < c.mi.numPieces ∧ (s.slots idx).state = .pending ∧ (s.slots idx).buf ≠ none

/-- What the torrent thread knows of the piece it takes to the ring. -/
def Entering (c : Config) (s : Mgr) (idx : Nat) : Prop :=
  idx < c.mi.numPieces ∧ (s.slots idx).state = .pending ∧ (s.slots idx).buf ≠ none ∧
    (s.slots idx).numBlocksDone = (s.slots idx).numBlocks

theorem edits_verifyInline (io : Faults) (s : Mgr) {idx : Nat} (entering : Entering c s idx) :
    Edits c l s (verifyInline c io s idx (plenOf c idx)).1 := by
  obtain ⟨hidx, hpending, hbuf, hcomplete⟩ := entering
  simp only [verifyInline]
  split
  · exact (Edit.reset s idx hidx).edits
  · next hmatch =>
    split
    · next st hwrite => exact (Edit.refused s idx io st hidx hpending hwrite hbuf).edits
    · next st hwrite =>
      have hslot : ((markPieceDone c { s with store := st } idx (plenOf c idx)).slots idx).buf =
          (s.slots idx).buf := by simp
      rw [hslot]
      exact (Edit.written s idx io st hidx hpending (by simpa using hmatch) hwrite hbuf
        hcomplete).edits

theorem edits_finishBlock (l : Licence) (env : Env) (s : Mgr) {idx : Nat}
    (collecting : Collecting c s idx) :
    Edits c l s (finishBlock c env s idx).1 ∧
      ((finishBlock c env s idx).2 = none → Entering c (finishBlock c env s idx).1 idx ∧
        (finishBlock c env s idx).1.hashStarted = true) := by
  obtain ⟨hidx, hpending, hbuf⟩ := collecting
  obtain ⟨ok, started, hready, _, hstarted⟩ := hashWorkerReady_eq env.spawn s
  have hedits : Edits c l s (hashWorkerReady env.spawn s).2 := edits_hashWorkerReady env.spawn s
  simp only [finishBlock]
  split
  · exact ⟨.refl, by intro h; cases h⟩
  · next hcomplete =>
    have hentering : Entering c (hashWorkerReady env.spawn s).2 idx := by
      rw [hready]
      exact ⟨hidx, hpending, hbuf, by simpa using hcomplete⟩
    split
    · next hworker =>
      refine ⟨hedits, fun _ => ⟨hentering, ?_⟩⟩
      rw [hready]
      exact hstarted hworker
    · exact ⟨hedits.trans (edits_verifyInline env.io _ hentering), by intro h; cases h⟩

/-- What `piece_mgr_got_block` checks of a block for a piece that still takes blocks. -/
structure Acceptable (c : Config) (s : Mgr) (idx offset : Nat) (data : List UInt8) : Prop where
  piece : idx < c.mi.numPieces
  aligned : offset % blockSize = 0
  inside : (offset : Int) < pieceLen c.mi idx
  block : offset / blockSize < (s.slots idx).numBlocks
  length : data.length = expectedLen c idx offset

/-- The ways through `piece_mgr_got_block`, with the results. -/
inductive BlockTaken (c : Config) (env : Env) (s : Mgr) (idx offset : Nat)
    (data : Option (List UInt8)) : Mgr × Option Int → Prop where
  | rejected : (∀ bytes, data = some bytes → ¬ Acceptable c s idx offset bytes) →
      BlockTaken c env s idx offset data (s, some (-1))
  | late : idx < c.mi.numPieces → ¬ (s.slots idx).Open →
    BlockTaken c env s idx offset data (s, some 1)
  | noBuffer : idx < c.mi.numPieces → (s.slots idx).Open → (slotBuf env.alloc s idx).1 = none →
      BlockTaken c env s idx offset data ((slotBuf env.alloc s idx).2, some (-1))
  | stored (bytes : List UInt8) (b : Nat) : (s.slots idx).Open → Acceptable c s idx offset bytes →
      (slotBuf env.alloc s idx).1 = some b →
      BlockTaken c env s idx offset data
        (finishBlock c env (storeBlock c (slotBuf env.alloc s idx).2 idx offset bytes b) idx)

theorem gotBlock_taken (c : Config) (env : Env) (s : Mgr) (idx offset : Nat)
    (data : Option (List UInt8)) :
    BlockTaken c env s idx offset data (gotBlock c env s idx offset data) := by
  simp only [gotBlock]
  split
  · exact .rejected (by simp)
  · next bytes =>
    have reject : ¬ Acceptable c s idx offset bytes →
        BlockTaken c env s idx offset (some bytes) (s, some (-1)) := by
      intro hbad
      refine .rejected ?_
      rintro _ ⟨⟩ hgood
      exact hbad hgood
    split
    · next hidx => exact reject (fun h => absurd h.piece (by omega))
    · next hidx =>
      split
      · next hclosed =>
        refine .late (by omega) ?_
        rintro ⟨hdone, hhashing⟩
        rcases hclosed with hstate | hstate
        · exact hdone hstate
        · exact hhashing hstate
      · next hopen =>
        simp only [not_or] at hopen
        split
        · next hoff =>
          refine reject (fun h => ?_)
          have haligned := h.aligned
          have hinside := h.inside
          omega
        · split
          · next hlen =>
            refine reject (fun h => ?_)
            have hblock := h.block
            have hlength := h.length
            omega
          · next hoff hlen =>
            have hgood : Acceptable c s idx offset bytes :=
              ⟨by omega, by omega, by omega, by omega, by omega⟩
            split
            · next hnone => exact .noBuffer (by omega) hopen hnone
            · next b hb => exact .stored bytes b hopen hgood hb

/-- The slot a block goes into, and the same slot with the block in it. -/
theorem slotBuf_slot {alloc : Bool} {s : Mgr} {idx b : Nat}
    (hb : (slotBuf alloc s idx).1 = some b) :
    (slotBuf alloc s idx).2.slots idx = { s.slots idx with buf := some b } := by
  rw [slotBuf_slots, Function.update_self, hb]

theorem collecting_stored {alloc : Bool} {s : Mgr} {idx offset b : Nat} {bytes : List UInt8}
    (hgood : Acceptable c s idx offset bytes) (hb : (slotBuf alloc s idx).1 = some b) :
    Collecting c (storeBlock c (slotBuf alloc s idx).2 idx offset bytes b) idx := by
  have hslot := slotBuf_slot hb
  have hblk : offset / blockSize < ((slotBuf alloc s idx).2.slots idx).numBlocks := by
    rw [hslot]
    exact hgood.block
  have hstored := storeBlock_slots c (slotBuf alloc s idx).2 bytes b hgood.piece hblk
  refine ⟨hgood.piece, ?_, ?_⟩
  · rw [hstored, Function.update_self]
    exact stored_state _ _
  · rw [hstored, Function.update_self]
    simp [hslot]

theorem edits_gotBlock (l : Licence) (env : Env) (s : Mgr) (idx offset : Nat)
    (data : Option (List UInt8)) : Edits c l s (gotBlock c env s idx offset data).1 ∧
      ((gotBlock c env s idx offset data).2 = none →
        Entering c (gotBlock c env s idx offset data).1 idx ∧
          (gotBlock c env s idx offset data).1.hashStarted = true) := by
  have htaken := gotBlock_taken c env s idx offset data
  generalize gotBlock c env s idx offset data = taken at htaken ⊢
  cases htaken with
  | rejected _ => exact ⟨.refl, by intro h; cases h⟩
  | late _ _ => exact ⟨.refl, by intro h; cases h⟩
  | noBuffer hidx hopen _ =>
    exact ⟨(Edit.buffer s idx env.alloc hidx hopen).edits, by intro h; cases h⟩
  | stored bytes b hopen hgood hb =>
    have hslot := slotBuf_slot hb
    have hbuf : Edits c l s (slotBuf env.alloc s idx).2 :=
      (Edit.buffer s idx env.alloc hgood.piece hopen).edits
    have hblock : Edits c l (slotBuf env.alloc s idx).2
        (storeBlock c (slotBuf env.alloc s idx).2 idx offset bytes b) := by
      apply (Edit.block _ idx offset bytes b hgood.piece _ _ hgood.aligned hgood.inside _
        hgood.length).edits
      · rw [hslot]
        exact hopen
      · rw [hslot]
      · rw [hslot]
        exact hgood.block
    have hfinish := edits_finishBlock l env _ (collecting_stored hgood hb)
    exact ⟨(hbuf.trans hblock).trans hfinish.1, hfinish.2⟩

theorem edits_verifyPiece (alloc : Bool) (s : Mgr) (idx : Nat) :
    Edits c l s (verifyPiece c alloc s idx).1 := by
  have hscratch : Edits c l s (verifyScratch alloc s).2 := edits_verifyScratch alloc s
  simp only [verifyPiece]
  split
  · exact .refl
  · next hidx =>
    split
    · exact .refl
    · split
      · exact .refl
      · split
        · exact hscratch
        · split
          · exact hscratch
          · exact hscratch.trans (Edit.reset _ idx (by omega)).edits

theorem edits_checkExisting (alloc : Bool) (s : Mgr) (idx : Nat) :
    Edits c (Call.checkExisting idx).licence s (checkExisting c alloc s idx).1 := by
  have hscratch : Edits c (Call.checkExisting idx).licence s (verifyScratch alloc s).2 :=
    edits_verifyScratch alloc s
  simp only [checkExisting]
  split
  · exact .refl
  · next hidx =>
    split
    · next hskipped =>
      split
      · next hstate => exact (Edit.skipped s idx (by omega) hstate (Or.inl rfl) hskipped).edits
      · exact .refl
    · split
      · exact hscratch
      · split
        · next hvalid =>
          split
          · next hstate =>
            exact hscratch.trans (Edit.readable _ idx (by omega) hstate
              (Or.inl ⟨rfl, hvalid⟩)).edits
          · exact hscratch
        · exact hscratch.trans (Edit.reset _ idx (by omega)).edits

theorem edits_presetOne (bf : Nat → UInt8) (s : Mgr) {idx : Nat} (hidx : idx < c.mi.numPieces) :
    Edits c ⟨true, false, false⟩ s (presetOne c bf s idx) := by
  simp only [presetOne]
  split
  · exact .refl
  · next hstate =>
    have hne : (s.slots idx).state ≠ .done := fun h => hstate (Or.inr h)
    split
    · next hskipped => exact (Edit.skipped s idx hidx hne (Or.inr rfl) hskipped).edits
    · split
      · next hreadable => exact (Edit.readable s idx hidx hne (Or.inr ⟨rfl, hreadable⟩)).edits
      · exact .refl

theorem edits_presetHave (s : Mgr) (bf : Option (Nat → UInt8)) (bfLen : Nat) :
    Edits c ⟨true, false, false⟩ s (presetHave c s bf bfLen) := by
  simp only [presetHave]
  split
  · exact .refl
  · next bf =>
    split
    · exact .refl
    · have loop : ∀ (pieces : List Nat) (s : Mgr), (∀ idx ∈ pieces, idx < c.mi.numPieces) →
          Edits c ⟨true, false, false⟩ s (pieces.foldl (presetOne c bf) s) := by
        intro pieces
        induction pieces with
        | nil => intro s _; exact .refl
        | cons idx rest ih =>
          intro s hall
          exact (edits_presetOne bf s (hall idx (by simp))).trans
            (ih _ (fun i hi => hall i (by simp [hi])))
      exact loop _ s (fun idx hidx => List.mem_range.mp hidx)

end Calls

/-- No call touches the ring before its locked sections. -/
theorem Edit.ring {c : Config} {l : Licence} {s s' : Mgr} (h : Edit c l s s') :
    s'.ring = s.ring := by
  cases h with
  | flags v ok started => rfl
  | count idx block f =>
    obtain ⟨counts, hcounts⟩ := setCount_eq c s idx block f
    rw [hcounts]
    rfl
  | pending idx => rfl
  | buffer idx alloc => exact (slotBuf_frame alloc s idx).1
  | block idx offset data b => exact (storeBlock_frame c s idx offset data b).1
  | reset idx => exact (Untouched.resetPiece c s idx).ring
  | skipped idx => rfl
  | readable idx => rfl
  | written idx io st =>
    obtain ⟨pool, hpool⟩ := pieceBufPut_eq
      (markPieceDone c { s with store := st } idx (plenOf c idx)) (s.slots idx).buf
    rw [hpool]
    rfl
  | refused idx io st => exact (Untouched.resetPiece c { s with store := st } idx).ring

theorem Edit.started {c : Config} {l : Licence} {s s' : Mgr} (h : Edit c l s s')
    (started : s.hashStarted = true) : s'.hashStarted = true := by
  cases h with
  | flags v ok start lookahead first mono => exact mono started
  | count idx block f =>
    obtain ⟨counts, hcounts⟩ := setCount_eq c s idx block f
    rw [hcounts]
    exact started
  | pending idx => exact started
  | buffer idx alloc =>
    rw [(slotBuf_frame alloc s idx).2.2.2]
    exact started
  | block idx offset data b =>
    rw [(storeBlock_frame c s idx offset data b).2.2.2.1]
    exact started
  | reset idx =>
    rw [(Untouched.resetPiece c s idx).started]
    exact started
  | skipped idx => exact started
  | readable idx => exact started
  | written idx io st =>
    obtain ⟨pool, hpool⟩ := pieceBufPut_eq
      (markPieceDone c { s with store := st } idx (plenOf c idx)) (s.slots idx).buf
    rw [hpool]
    exact started
  | refused idx io st =>
    rw [(Untouched.resetPiece c { s with store := st } idx).started]
    exact started

theorem Edits.started {c : Config} {l : Licence} {s s' : Mgr} (h : Edits c l s s')
    (started : s.hashStarted = true) : s'.hashStarted = true :=
  h.induction (P := fun s => s.hashStarted = true) (fun _ _ hold hedit =>
    hedit.started hold) started

theorem Edits.ring {c : Config} {l : Licence} {s s' : Mgr} (h : Edits c l s s') :
    s'.ring = s.ring := by
  induction h with
  | refl => rfl
  | tail _ hedit ih => exact hedit.ring.trans ih

/-- Whether an action trusts the disk without reading it. -/
def Act.presets : Act → Bool
  | .call made _ => made.licence.preset
  | _ => false

/-- A call makes edits; it is then done, or it waits for the ring with the manager as the
edits left it, with a complete piece in hand in the case of `hash_enqueue`. -/
theorem start_edits (c : Config) (s : Mgr) (env : Env) (call : Call) :
    Edits c call.licence s (start c s env call).1 ∧
      ∀ idx plen, (start c s env call).2.1.entering = some (idx, plen) →
        Entering c (start c s env call).1 idx ∧ plen = plenOf c idx ∧
          (start c s env call).1.hashStarted = true := by
  cases call with
  | markPending idx => exact ⟨edits_markPending env.alloc s idx, by intro _ _ h; cases h⟩
  | gotBlock idx offset data =>
    obtain ⟨hedits, hentering⟩ :=
      edits_gotBlock (c := c) ⟨false, false, false⟩ env s idx offset data
    simp only [start]
    split
    · next s' r heq =>
      rw [heq] at hedits
      exact ⟨hedits, by intro _ _ h; cases h⟩
    · next s' heq =>
      rw [heq] at hedits hentering
      refine ⟨hedits, ?_⟩
      intro idx' plen h
      cases h
      exact ⟨(hentering rfl).1, rfl, (hentering rfl).2⟩
  | drainHashResults =>
    simp only [start]
    split
    · exact ⟨.refl, by intro _ _ h; cases h⟩
    · exact ⟨.refl, by intro _ _ h; cases h⟩
  | hashFlush =>
    simp only [start]
    split
    · exact ⟨.refl, by intro _ _ h; cases h⟩
    · exact ⟨.refl, by intro _ _ h; cases h⟩
  | verifyPiece idx => exact ⟨edits_verifyPiece env.alloc s idx, by intro _ _ h; cases h⟩
  | checkExisting idx => exact ⟨edits_checkExisting env.alloc s idx, by intro _ _ h; cases h⟩
  | presetHave bf bfLen => exact ⟨edits_presetHave s bf bfLen, by intro _ _ h; cases h⟩
  | markBlockRequested idx block =>
    exact ⟨(Edit.count s idx block _ (Or.inr rfl)).edits, by intro _ _ h; cases h⟩
  | clearBlockRequested idx block =>
    have hlower : ∀ n : Nat, (if n > 0 then n - 1 else n) ≤ n := by
      intro n
      split
      · omega
      · omega
    exact ⟨(Edit.count s idx block _ (Or.inl hlower)).edits, by intro _ _ h; cases h⟩
  | setStrictPolicy lookahead first =>
    exact ⟨(Edit.flags s s.verifyBuf s.hashOk s.hashStarted _ first id).edits,
      by intro _ _ h; cases h⟩

/-- A slot that gets the buffer of a job back. -/
def Mgr.attach (s : Mgr) (job : HashJob) : Mgr :=
  s.setSlot job.idx (fun sl => { sl with buf := job.buf })

/-- The four ways `hash_apply` can go. -/
inductive Applied (c : Config) (s : Mgr) (job : HashJob) : Mgr → Option (Nat × Int) → Prop where
  | stale : (s.slots job.idx).state ≠ .hashing → Applied c s job (pieceBufPut s job.buf) none
  | mismatch : (s.slots job.idx).state = .hashing → job.ok = false →
      Applied c s job (resetPiece c (s.attach job) job.idx) (some (job.idx, 0))
  | refused (io : Faults) (st : Store) : (s.slots job.idx).state = .hashing → job.ok = true →
      storageWrite io s.store (absOff c.mi job.idx) (s.bytes job.buf job.plen) = .error st →
      Applied c s job (resetPiece c ({ s with store := st }.attach job) job.idx)
      (some (job.idx, -1))
  | written (io : Faults) (st : Store) : (s.slots job.idx).state = .hashing → job.ok = true →
      storageWrite io s.store (absOff c.mi job.idx) (s.bytes job.buf job.plen) = .ok st →
      Applied c s job
        (pieceBufPut (markPieceDone c { s with store := st } job.idx job.plen) job.buf)
        (some (job.idx, 2))

theorem hashApply_applied (c : Config) (io : Faults) (s : Mgr) (job : HashJob) :
    Applied c s job (hashApply c io s job).1 (hashApply c io s job).2 := by
  simp only [hashApply]
  split
  · next hstate => exact .stale hstate
  · next hstate =>
    have hhashing : (s.slots job.idx).state = .hashing := by simpa using hstate
    split
    · next hok => exact .mismatch hhashing hok
    · next hok =>
      have hok' : job.ok = true := by simpa using hok
      split
      · next st hwrite => exact .refused io st hhashing hok' hwrite
      · next st hwrite => exact .written io st hhashing hok' hwrite

@[simp] theorem pieceBufPut_slots (s : Mgr) (buf : Option Nat) :
    (pieceBufPut s buf).slots = s.slots := by
  obtain ⟨pool, hpool⟩ := pieceBufPut_eq s buf
  rw [hpool]

/-- `hash_apply` only touches the slot of its job, and only while it is hashing. -/
theorem Applied.slots {c : Config} {s s' : Mgr} {job : HashJob} {report : Option (Nat × Int)}
    (h : Applied c s job s' report) {i : Nat} (hi : (s.slots i).state ≠ .hashing) :
    s'.slots i = s.slots i := by
  have other : (s.slots job.idx).state = .hashing → i ≠ job.idx := by
    rintro hjob rfl
    exact hi hjob
  cases h with
  | stale _ => simp
  | mismatch hjob _ => simp [Mgr.attach, Mgr.setSlot, other hjob]
  | refused io st hjob _ _ => simp [Mgr.attach, Mgr.setSlot, other hjob]
  | written io st hjob _ _ => simp [other hjob]

theorem Applied.ring {c : Config} {s s' : Mgr} {job : HashJob} {report : Option (Nat × Int)}
    (h : Applied c s job s' report) :
    s'.ring = s.ring ∧ s'.heap = s.heap ∧ s'.hashStarted = s.hashStarted := by
  cases h with
  | stale _ =>
    obtain ⟨pool, hpool⟩ := pieceBufPut_eq s job.buf
    rw [hpool]
    exact ⟨rfl, rfl, rfl⟩
  | mismatch _ _ =>
    have u := Untouched.resetPiece c (s.attach job) job.idx
    exact ⟨u.ring, u.heap, u.started⟩
  | refused io st _ _ _ =>
    have u := Untouched.resetPiece c ({ s with store := st }.attach job) job.idx
    exact ⟨u.ring, u.heap, u.started⟩
  | written io st _ _ _ =>
    obtain ⟨pool, hpool⟩ := pieceBufPut_eq
      (markPieceDone c { s with store := st } job.idx job.plen) job.buf
    rw [hpool]
    exact ⟨rfl, rfl, rfl⟩

end PieceManager
