import Pipensx.RequestCounts

/-!
# No stale byte is hashed

Buffers come out of the pool with old bytes in them and stay with a slot over a reset. What
keeps these bytes from being hashed is the block bitmap. The trace of a run records what
happens to the bytes: a block stored, a piece reset, a piece handed to the worker or hashed
inline with the bytes of its buffer, the bytes read later for the digest of the worker and
for the write to the files, and a buffer freed.
-/

namespace PieceManager

open PieceGeometry Storage ByteBits

inductive Trace where
  | stored (idx offset : Nat) (data : List UInt8)
  | reset (idx : Nat)
  | hashing (idx : Nat) (bytes : List UInt8)
  | read (idx : Nat) (bytes : List UInt8)
  | freed (buf : Nat)
  deriving DecidableEq, Repr

/-! The trace of a step. Each function has the branches of the function it traces. -/

def putTrace (s : Mgr) (buf : Option Nat) : List Trace :=
  match buf with
  | none => []
  | some b => if s.bufPool.length < bufPoolMax then [] else [.freed b]

def inlineTrace (c : Config) (io : Faults) (s : Mgr) (idx plen : Nat) : List Trace :=
  let bytes := s.bytes (s.slots idx).buf plen
  .hashing idx bytes ::
    if hashMatches c idx bytes = false then [.reset idx]
    else
      .read idx bytes ::
        match storageWrite io s.store (absOff c.mi idx) bytes with
        | .error _ => [.reset idx]
        | .ok _ => putTrace s (s.slots idx).buf

def finishTrace (c : Config) (env : Env) (s : Mgr) (idx : Nat) : List Trace :=
  if (s.slots idx).numBlocksDone ≠ (s.slots idx).numBlocks then []
  else
    let ready := hashWorkerReady env.spawn s
    if ready.1 then [] else inlineTrace c env.io ready.2 idx (plenOf c idx)

def gotBlockTrace (c : Config) (env : Env) (s : Mgr) (idx offset : Nat)
    (data : Option (List UInt8)) : List Trace :=
  match data with
  | none => []
  | some data =>
    if idx ≥ c.mi.numPieces then []
    else
      let sl := s.slots idx
      if sl.state = .done ∨ sl.state = .hashing then []
      else if offset % blockSize ≠ 0 ∨ (offset : Int) ≥ pieceLen c.mi idx then []
      else if offset / blockSize ≥ sl.numBlocks ∨ data.length ≠ expectedLen c idx offset then []
      else
        let got := slotBuf env.alloc s idx
        match got.1 with
        | none => []
        | some b =>
          .stored idx offset data :: finishTrace c env (storeBlock c got.2 idx offset data b) idx

def verifyPieceTrace (c : Config) (alloc : Bool) (s : Mgr) (idx : Nat) : List Trace :=
  if idx ≥ c.mi.numPieces then []
  else if (s.slots idx).state ≠ .done then []
  else if storageRangeReadable s.store (absOff c.mi idx) (plenOf c idx) = false then []
  else
    let scratch := verifyScratch alloc s
    if scratch.1 = false then []
    else if onDiskValid c scratch.2 idx then []
    else [.reset idx]

def checkExistingTrace (c : Config) (alloc : Bool) (s : Mgr) (idx : Nat) : List Trace :=
  if idx ≥ c.mi.numPieces then []
  else if storageRangeSkipped s.store (absOff c.mi idx) (plenOf c idx) then []
  else
    let scratch := verifyScratch alloc s
    if scratch.1 = false then []
    else if onDiskValid c scratch.2 idx then []
    else [.reset idx]

def callTrace (c : Config) (s : Mgr) (env : Env) : Call → List Trace
  | .gotBlock idx offset data => gotBlockTrace c env s idx offset data
  | .verifyPiece idx => verifyPieceTrace c env.alloc s idx
  | .checkExisting idx => checkExistingTrace c env.alloc s idx
  | _ => []

def applyTrace (c : Config) (io : Faults) (s : Mgr) (job : HashJob) : List Trace :=
  if (s.slots job.idx).state ≠ .hashing then putTrace s job.buf
  else if job.ok = false then [.reset job.idx]
  else
    .read job.idx (s.bytes job.buf job.plen) ::
      match storageWrite io s.store (absOff c.mi job.idx) (s.bytes job.buf job.plen) with
      | .error _ => [.reset job.idx]
      | .ok _ => putTrace s job.buf

def handTrace (m : Machine) (idx plen : Nat) : List Trace :=
  [.hashing idx (m.mgr.bytes (m.mgr.slots idx).buf plen)]

def lockTrace (m : Machine) : List Trace :=
  match m.pc with
  | .enqueue idx plen => if m.mgr.hashQCount = hashQueueMax then [] else handTrace m idx plen
  | .put idx plen => handTrace m idx plen
  | _ => []

def workerTrace (m : Machine) : List Trace :=
  match m.worker with
  | .hash _ idx buf plen => [.read idx (m.mgr.bytes buf plen)]
  | _ => []

def actTrace (c : Config) (m : Machine) : Act → List Trace
  | .call call env => callTrace c m.mgr env call
  | .lock => lockTrace m
  | .apply io =>
    match m.pc with
    | .apply job _ => applyTrace c io m.mgr job
    | _ => []
  | .worker => workerTrace m

def runTrace (c : Config) : Machine → List Act → List Trace
  | _, [] => []
  | m, act :: rest => actTrace c m act ++
    match step c m act with
    | none => []
    | some (m', _) => runTrace c m' rest

/-- The latest block stored for the piece at this offset, and the piece was not reset since. -/
def Latest (log : List Trace) (idx offset : Nat) (data : List UInt8) : Prop :=
  ∃ before after, log = before ++ .stored idx offset data :: after ∧ .reset idx ∉ after ∧
    ∀ data', .stored idx offset data' ∉ after

/-- Every byte of the piece is that of the latest block stored over it since the last reset. -/
def FreshBytes (c : Config) (log : List Trace) (idx : Nat) (bytes : List UInt8) : Prop :=
  bytes.length = plenOf c idx ∧
    ∀ k < plenOf c idx, ∃ offset data, Latest log idx offset data ∧
      offset ≤ k ∧ k < offset + data.length ∧ bytes[k]? = data[k - offset]?

/-- Whatever is handed over or hashed is fresh at that time, and what is read later are
bytes that were handed over. -/
structure HashedFresh (c : Config) (log : List Trace) : Prop where
  hashed : ∀ before idx bytes after, log = before ++ .hashing idx bytes :: after →
    FreshBytes c before idx bytes
  read : ∀ before idx bytes after, log = before ++ .read idx bytes :: after →
    .hashing idx bytes ∈ before

/-- A buffer that was allocated is either freed and nowhere, or has one owner. -/
def OneOwner (m : Machine) (log : List Trace) : Prop :=
  m.mgr.bufPool.Nodup ∧
    ∀ b < m.mgr.nextBuf, (.freed b ∈ log ∧ ∀ o, ¬ Refers m.mgr m.pc.flight o b) ∨
      (.freed b ∉ log ∧ ∃! o, Refers m.mgr m.pc.flight o b)

section Log

variable {c : Config} {log more : List Trace} {idx offset : Nat} {data : List UInt8}

theorem latest_stored (log : List Trace) (idx offset : Nat) (data : List UInt8) :
    Latest (log ++ [.stored idx offset data]) idx offset data :=
  ⟨log, [], rfl, by simp, by simp⟩

theorem Latest.append (h : Latest log idx offset data) (unreset : .reset idx ∉ more)
    (unstored : ∀ data', .stored idx offset data' ∉ more) :
    Latest (log ++ more) idx offset data := by
  obtain ⟨before, after, rfl, hreset, hstored⟩ := h
  refine ⟨before, after ++ more, by simp, ?_, ?_⟩
  · intro hmem
    exact (List.mem_append.mp hmem).elim hreset unreset
  · intro data' hmem
    exact (List.mem_append.mp hmem).elim (hstored data') (unstored data')

/-- The last entry of a log that is split at some entry. -/
theorem snoc_split {entry e : Trace} {before after : List Trace}
    (h : log ++ [entry] = before ++ e :: after) :
    (before = log ∧ e = entry) ∨ ∃ init, log = before ++ e :: init := by
  rcases List.eq_nil_or_concat after with rfl | ⟨init, last, rfl⟩
  · obtain ⟨rfl, hlast⟩ := List.append_inj' h rfl
    exact Or.inl ⟨rfl, by simpa using hlast.symm⟩
  · have hsplit : log ++ [entry] = (before ++ e :: init) ++ [last] := by simpa using h
    obtain ⟨rfl, _⟩ := List.append_inj' hsplit rfl
    exact Or.inr ⟨init, rfl⟩

theorem HashedFresh.snoc (h : HashedFresh c log) {entry : Trace}
    (fresh : ∀ idx bytes, entry = .hashing idx bytes → FreshBytes c log idx bytes)
    (known : ∀ idx bytes, entry = .read idx bytes → .hashing idx bytes ∈ log) :
    HashedFresh c (log ++ [entry]) := by
  constructor
  · intro before idx bytes after heq
    rcases snoc_split heq with ⟨rfl, hlast⟩ | ⟨init, rfl⟩
    · exact fresh idx bytes hlast.symm
    · exact h.hashed before idx bytes init rfl
  · intro before idx bytes after heq
    rcases snoc_split heq with ⟨rfl, hlast⟩ | ⟨init, rfl⟩
    · exact known idx bytes hlast.symm
    · exact h.read before idx bytes init rfl

/-- Entries that hash and read nothing leave this as it is. -/
theorem HashedFresh.append (h : HashedFresh c log)
    (quiet : ∀ idx bytes, .hashing idx bytes ∉ more ∧ .read idx bytes ∉ more) :
    HashedFresh c (log ++ more) := by
  induction more using List.reverseRecOn with
  | nil => simpa using h
  | append_singleton init last ih =>
    have hinit : HashedFresh c (log ++ init) := ih fun idx bytes => by
      obtain ⟨hhashing, hread⟩ := quiet idx bytes
      exact ⟨fun hmem => hhashing (by simp [hmem]), fun hmem => hread (by simp [hmem])⟩
    rw [← List.append_assoc]
    refine hinit.snoc ?_ ?_
    · rintro idx bytes rfl
      exact absurd (by simp) (quiet idx bytes).1
    · rintro idx bytes rfl
      exact absurd (by simp) (quiet idx bytes).2

end Log

/-- A block of the piece is in the buffer of its slot, as it was stored last. -/
structure Holds (c : Config) (s : Mgr) (log : List Trace) (i b buf : Nat) (data : List UInt8) :
    Prop where
  owned : (s.slots i).buf = some buf
  latest : Latest log i (b * blockSize) data
  short : data.length ≤ blockSize
  whole : ∀ k < b * blockSize + blockSize, k < plenOf c i → k < b * blockSize + data.length
  bytes : ∀ k < data.length, data[k]? = some (s.heap buf (b * blockSize + k))

/-- The bits of a piece that takes blocks stand for blocks in its buffer. -/
structure Filled (c : Config) (s : Mgr) (log : List Trace) : Prop where
  shape : ∀ i, (s.slots i).numBlocks = pieceNumBlocks c.mi i
  blocks : ∀ i, (s.slots i).Open → ∀ b, blockIsSet (s.slots i) b = true →
    ∃ buf data, Holds c s log i b buf data

section Filled

variable {c : Config} {s s' : Mgr} {log more : List Trace} {idx : Nat}

theorem Filled.append (h : Filled c s log) (quiet : ∀ i, .reset i ∉ more)
    (unstored : ∀ i offset data, .stored i offset data ∉ more) : Filled c s (log ++ more) := by
  refine ⟨h.shape, fun i hopen b hset => ?_⟩
  obtain ⟨buf, data, hold⟩ := h.blocks i hopen b hset
  exact ⟨buf, data, { hold with latest := hold.latest.append (quiet i) (unstored i _) }⟩

/-- One slot changes and gets no block. -/
theorem Filled.slot (h : Filled c s log) {sl : Slot}
    (slots : s'.slots = Function.update s.slots idx sl)
    (heap : s'.heap = s.heap) (shape : sl.numBlocks = (s.slots idx).numBlocks)
    (kept : sl.Open → ∀ b, blockIsSet sl b = true → (s.slots idx).Open ∧
      blockIsSet (s.slots idx) b = true ∧ ∀ buf, (s.slots idx).buf = some buf → sl.buf = some buf) :
    Filled c s' log := by
  have hother : ∀ i, i ≠ idx → s'.slots i = s.slots i := by
    intro i hi
    rw [slots, Function.update_of_ne hi]
  have hthis : s'.slots idx = sl := by rw [slots, Function.update_self]
  constructor
  · intro i
    by_cases hi : i = idx
    · subst hi
      rw [hthis, shape]
      exact h.shape i
    · rw [hother i hi]
      exact h.shape i
  · intro i hopen b hset
    by_cases hi : i = idx
    · subst hi
      rw [hthis] at hopen hset
      obtain ⟨hopen', hset', hbuf⟩ := kept hopen b hset
      obtain ⟨buf, data, hold⟩ := h.blocks i hopen' b hset'
      refine ⟨buf, data, ?_, hold.latest, hold.short, hold.whole, ?_⟩
      · rw [hthis]
        exact hbuf buf hold.owned
      · rw [heap]
        exact hold.bytes
    · rw [hother i hi] at hopen hset
      obtain ⟨buf, data, hold⟩ := h.blocks i hopen b hset
      refine ⟨buf, data, ?_, hold.latest, hold.short, hold.whole, ?_⟩
      · rw [hother i hi]
        exact hold.owned
      · rw [heap]
        exact hold.bytes

theorem Filled.frame (h : Filled c s log) (slots : s'.slots = s.slots) (heap : s'.heap = s.heap) :
    Filled c s' log := by
  have hslots : s'.slots = Function.update s.slots 0 (s.slots 0) := by
    rw [slots, Function.update_eq_self]
  exact h.slot hslots heap rfl fun hopen b hset => ⟨hopen, hset, fun _ => id⟩

theorem Filled.close (h : Filled c s log) {sl : Slot}
    (slots : s'.slots = Function.update s.slots idx sl) (heap : s'.heap = s.heap)
    (shape : sl.numBlocks = (s.slots idx).numBlocks) (closed : ¬ sl.Open) :
    Filled c s' log :=
  h.slot slots heap shape fun hopen => absurd hopen closed

theorem Filled.reset (h : Filled c s log) (idx : Nat) :
    Filled c (resetPiece c s idx) (log ++ [.reset idx]) := by
  have hheap := (Untouched.resetPiece c s idx).heap
  have hslots := resetPiece_slots c s idx
  constructor
  · intro i
    rw [hslots]
    by_cases hi : i = idx
    · subst hi
      rw [Function.update_self]
      exact h.shape i
    · rw [Function.update_of_ne hi]
      exact h.shape i
  · intro i hopen b hset
    by_cases hi : i = idx
    · subst hi
      rw [hslots, Function.update_self] at hset
      simp [blockIsSet, Slot.cleared] at hset
    · rw [hslots, Function.update_of_ne hi] at hopen hset
      obtain ⟨buf, data, hold⟩ := h.blocks i hopen b hset
      refine ⟨buf, data, ?_, hold.latest.append (by simpa using hi) (by simp), hold.short,
        hold.whole, ?_⟩
      · rw [hslots, Function.update_of_ne hi]
        exact hold.owned
      · rw [hheap]
        exact hold.bytes

/-- The length a block must have covers the piece up to the next block. -/
theorem expectedLen_covers {offset : Nat} (inside : (offset : Int) < pieceLen c.mi idx) :
    expectedLen c idx offset ≤ blockSize ∧
      ∀ k < offset + blockSize, k < plenOf c idx → k < offset + expectedLen c idx offset := by
  simp only [expectedLen, plenOf]
  split
  · exact ⟨Nat.le_refl _, fun k hk _ => hk⟩
  · next hlast =>
    have hsize : (blockSize : Int) = 16384 := rfl
    have hrest : ((pieceLen c.mi idx - offset) % 2 ^ 32).toNat =
      (pieceLen c.mi idx - offset).toNat := by
      rw [Int.emod_eq_of_lt (by omega) (by omega)]
    rw [hrest]
    constructor
    · omega
    · intro k _ hk
      omega

/-- Storing a block overwrites its range of the buffer and nothing else. -/
theorem copyIn_inside (bytes : Nat → UInt8) {offset k : Nat} {data : List UInt8}
    (hk : k < data.length) : data[k]? = some (copyIn bytes offset data (offset + k)) := by
  rw [copyIn, if_pos ⟨Nat.le_add_right _ _, by omega⟩, Nat.add_sub_cancel_left,
    List.getD_eq_getElem?_getD, List.getElem?_eq_getElem hk, Option.getD_some]

theorem copyIn_outside (bytes : Nat → UInt8) {offset k : Nat} {data : List UInt8}
    (hk : k < offset ∨ offset + data.length ≤ k) : copyIn bytes offset data k = bytes k := by
  rw [copyIn, if_neg (by omega)]

theorem blocks_apart {b b' : Nat} (hb : b' ≠ b) :
    b' * blockSize + blockSize ≤ b * blockSize ∨ b * blockSize + blockSize ≤ b' * blockSize := by
  rcases Nat.lt_or_gt_of_ne hb with hlt | hgt
  · left
    rw [← Nat.succ_mul]
    exact Nat.mul_le_mul_right _ hlt
  · right
    rw [← Nat.succ_mul]
    exact Nat.mul_le_mul_right _ hgt

/-- A block stays where it is when another one is stored. -/
theorem Holds.stored_other {i b buf offset : Nat} {data new : List UInt8}
    (held : Holds c s log i b buf data)
    (other : i = idx → b * blockSize ≠ offset) (owned : (s'.slots i).buf = some buf)
    (bytes : ∀ k < data.length, s'.heap buf (b * blockSize + k) = s.heap buf (b * blockSize + k)) :
    Holds c s' (log ++ [.stored idx offset new]) i b buf data := by
  refine ⟨owned, held.latest.append (by simp) ?_, held.short, held.whole, ?_⟩
  · intro d hmem
    simp only [List.mem_singleton, Trace.stored.injEq] at hmem
    exact other hmem.1 hmem.2.1
  · intro k hk
    rw [bytes k hk]
    exact held.bytes k hk

theorem Filled.store (h : Filled c s log) (owned : Owned s none) {offset b : Nat}
    {data : List UInt8}
    (hidx : idx < c.mi.numPieces) (hopen : (s.slots idx).Open) (hbuf : (s.slots idx).buf = some b)
    (aligned : offset % blockSize = 0) (inside : (offset : Int) < pieceLen c.mi idx)
    (block : offset / blockSize < (s.slots idx).numBlocks)
    (length : data.length = expectedLen c idx offset) :
    Filled c (storeBlock c s idx offset data b) (log ++ [.stored idx offset data]) := by
  obtain ⟨_, _, _, _, hheap⟩ := storeBlock_frame c s idx offset data b
  have hslots := storeBlock_slots c s data b hidx block
  obtain ⟨hshort, hcovers⟩ := expectedLen_covers inside
  rw [← length] at hshort hcovers
  have hoffset : offset / blockSize * blockSize = offset := by
    have hdiv := Nat.div_add_mod offset blockSize
    rw [Nat.mul_comm]
    omega
  have hsame : ∀ i, ((storeBlock c s idx offset data b).slots i).buf = (s.slots i).buf := by
    intro i
    rw [hslots]
    by_cases hi : i = idx
    · subst hi
      simp
    · rw [Function.update_of_ne hi]
  constructor
  · intro i
    rw [hslots]
    by_cases hi : i = idx
    · subst hi
      simpa using h.shape i
    · rw [Function.update_of_ne hi]
      exact h.shape i
  · intro i hopen' b' hset
    by_cases hi : i = idx
    · subst hi
      by_cases hb : b' = offset / blockSize
      · -- the block that was stored
        subst hb
        refine ⟨b, data, ?_, ?_, hshort, ?_, ?_⟩
        · rw [hsame]
          exact hbuf
        · rw [hoffset]
          exact latest_stored log i offset data
        · rw [hoffset]
          exact hcovers
        · intro k hk
          rw [hheap, Function.update_self, hoffset]
          exact copyIn_inside _ hk
      · -- another block of the same piece
        have hold : blockIsSet (s.slots i) b' = true := by
          rw [hslots, Function.update_self] at hset
          have hstored := blockIsSet_stored block b'
          simp only [hb, decide_false, Bool.false_or] at hstored
          rw [← hstored]
          exact hset
        obtain ⟨buf, data', hheld⟩ := h.blocks i hopen b' hold
        obtain rfl : buf = b := Option.some.inj (hheld.owned.symm.trans hbuf)
        have hapart := blocks_apart hb
        rw [hoffset] at hapart
        have hpos : 0 < blockSize := by decide
        have hshort' := hheld.short
        refine ⟨buf, data', hheld.stored_other (fun _ => by omega) ?_ fun k hk => ?_⟩
        · rw [hsame]
          exact hbuf
        · rw [hheap, Function.update_self, copyIn_outside _ (by omega)]
    · -- another piece, which has another buffer
      rw [hslots, Function.update_of_ne hi] at hopen' hset
      obtain ⟨buf, data', hheld⟩ := h.blocks i hopen' b' hset
      have hne : buf ≠ b := by
        rintro rfl
        have howner := owned.unique _ _ _ (.slot hheld.owned) (.slot hbuf)
        exact hi (by simpa using howner)
      refine ⟨buf, data', hheld.stored_other (fun heq => absurd heq hi) ?_ fun k hk => ?_⟩
      · rw [hsame]
        exact hheld.owned
      · rw [hheap, Function.update_of_ne hne]

/-- A piece with all its blocks has fresh bytes only. -/
theorem Filled.fresh (wf : TorrentLayout.WellFormed c.mi) (h : Filled c s log)
    (books : Bookkeeping c s) (entering : Entering c s idx) :
    FreshBytes c log idx (s.bytes (s.slots idx).buf (plenOf c idx)) := by
  obtain ⟨hidx, hpending, hbuf, hcomplete⟩ := entering
  have hopen : (s.slots idx).Open := ⟨by simp [hpending], by simp [hpending]⟩
  obtain ⟨b, hb⟩ := Option.ne_none_iff_exists'.mp hbuf
  refine ⟨bytes_length s hbuf _, fun k hk => ?_⟩
  have hlen := pieceLen_bounds wf.exact hidx
  have hlimit := wf.pieceLength_le
  have hblock : k / blockSize < (s.slots idx).numBlocks := by
    simp only [TorrentFile.maxPieceLength] at hlimit
    simp only [plenOf] at hk
    rw [h.shape]
    simp only [pieceNumBlocks, blockSize]
    rw [Int.tdiv_eq_ediv_of_nonneg (by omega)]
    omega
  have hset := blockIsSet_of_complete (books.blocks idx hidx) hcomplete hblock
  obtain ⟨buf, data, hheld⟩ := h.blocks idx hopen _ hset
  obtain rfl : buf = b := Option.some.inj (hheld.owned.symm.trans hb)
  have hdiv := Nat.div_add_mod k blockSize
  have hmod := Nat.mod_lt k (show 0 < blockSize by decide)
  have hstart : k / blockSize * blockSize ≤ k := Nat.div_mul_le_self k blockSize
  have hwithin : k < k / blockSize * blockSize + blockSize := by
    rw [Nat.mul_comm]
    omega
  have hcovered := hheld.whole k hwithin hk
  refine ⟨k / blockSize * blockSize, data, hheld.latest, hstart, hcovered, ?_⟩
  rw [hheld.bytes (k - k / blockSize * blockSize) (by omega), Nat.add_sub_cancel' hstart, hb]
  simp [Mgr.bytes, hk]

end Filled

/-- Every buffer that was allocated has an owner or was freed, and a freed one is nowhere. -/
structure Live (s : Mgr) (flight : Option HashJob) (log : List Trace) : Prop where
  held : ∀ b < s.nextBuf, .freed b ∈ log ∨ ∃ o, Refers s flight o b
  dead : ∀ o b, Refers s flight o b → .freed b ∉ log
  spent : ∀ b, .freed b ∈ log → b < s.nextBuf

section Live

variable {c : Config} {s s' : Mgr} {flight flight' : Option HashJob}
  {log more : List Trace} {idx : Nat}

/-- Buffers change their owners, some are freed and some are new. -/
theorem Live.move (h : Live s flight log) (grows : s.nextBuf ≤ s'.nextBuf)
    (new : ∀ b, s.nextBuf ≤ b → b < s'.nextBuf → ∃ o, Refers s' flight' o b)
    (forward : ∀ o b, Refers s flight o b → .freed b ∈ more ∨ ∃ o', Refers s' flight' o' b)
    (back : ∀ o b, Refers s' flight' o b → .freed b ∉ more ∧
      (s.nextBuf ≤ b ∨ ∃ o', Refers s flight o' b))
    (known : ∀ b, .freed b ∈ more → b < s.nextBuf) : Live s' flight' (log ++ more) := by
  constructor
  · intro b hb
    rcases Nat.lt_or_ge b s.nextBuf with hold | hnew
    · rcases h.held b hold with hfreed | ⟨o, href⟩
      · exact Or.inl (List.mem_append_left _ hfreed)
      · rcases forward o b href with hfreed | hmoved
        · exact Or.inl (List.mem_append_right _ hfreed)
        · exact Or.inr hmoved
    · exact Or.inr (new b hnew hb)
  · intro o b href hmem
    obtain ⟨hkept, hbefore⟩ := back o b href
    rcases List.mem_append.mp hmem with hfreed | hfreed
    · rcases hbefore with hnew | ⟨o', hold⟩
      · have := h.spent b hfreed
        omega
      · exact h.dead o' b hold hfreed
    · exact hkept hfreed
  · intro b hmem
    rcases List.mem_append.mp hmem with hfreed | hfreed
    · exact Nat.lt_of_lt_of_le (h.spent b hfreed) grows
    · exact Nat.lt_of_lt_of_le (known b hfreed) grows

theorem refers_congr (bufs : ∀ i, (s'.slots i).buf = (s.slots i).buf) (pool : s'.pool = s.pool)
    (ring : s'.ring = s.ring) {o : Owner} {b : Nat} (h : Refers s flight o b) :
    Refers s' flight o b := by
  simp only [Mgr.pool, Mgr.ring, Prod.mk.injEq] at pool ring
  obtain ⟨_, hpool⟩ := pool
  obtain ⟨hq, hhead, hcount, _⟩ := ring
  cases h with
  | slot hb => exact .slot ((bufs _).trans hb)
  | pool hb => exact .pool (hpool ▸ hb)
  | @ring k b hk hb =>
    have hentry : s'.entry k = s.entry k := by simp only [Mgr.entry, hhead]
    rw [← hentry]
    refine .ring (by omega) ?_
    rw [hentry, hq]
    exact hb
  | flight hjob hb => exact .flight hjob hb

/-- No buffer changes its owner. -/
theorem Live.frame (h : Live s flight log) (bufs : ∀ i, (s'.slots i).buf = (s.slots i).buf)
    (pool : s'.pool = s.pool) (ring : s'.ring = s.ring) (kept : ∀ b, .freed b ∉ more) :
    Live s' flight (log ++ more) := by
  have hnext : s'.nextBuf = s.nextBuf := congrArg Prod.fst pool
  refine h.move hnext.ge ?_ ?_ ?_ ?_
  · intro b hlow hhigh
    omega
  · intro o b href
    exact Or.inr ⟨o, refers_congr bufs pool ring href⟩
  · intro o b href
    exact ⟨kept b, Or.inr ⟨o, refers_congr (fun i => (bufs i).symm) pool.symm ring.symm href⟩⟩
  · intro b hfreed
    exact absurd hfreed (kept b)

theorem Live.slot (h : Live s flight log) {sl : Slot}
    (slots : s'.slots = Function.update s.slots idx sl)
    (buf : sl.buf = (s.slots idx).buf) (pool : s'.pool = s.pool) (ring : s'.ring = s.ring)
    (kept : ∀ b, .freed b ∉ more) : Live s' flight (log ++ more) := by
  refine h.frame ?_ pool ring kept
  intro i
  rw [slots]
  by_cases hi : i = idx
  · subst hi
    rwa [Function.update_self]
  · rw [Function.update_of_ne hi]

/-- Some job of the ring, at this entry, has the buffer. -/
def InRing (s : Mgr) (e b : Nat) : Prop :=
  ∃ k < s.hashQCount, s.entry k = e ∧ (s.hashQ e).buf = some b

theorem refers_slot_iff {i b : Nat} : Refers s flight (.slot i) b ↔ (s.slots i).buf = some b := by
  constructor
  · intro h
    cases h with
    | slot hb => exact hb
  · exact .slot

theorem refers_pool_iff {b : Nat} : Refers s flight .pool b ↔ b ∈ s.bufPool := by
  constructor
  · intro h
    cases h with
    | pool hb => exact hb
  · exact .pool

theorem refers_ring_iff {e b : Nat} : Refers s flight (.ring e) b ↔ InRing s e b := by
  constructor
  · intro h
    cases h with
    | ring hk hb => exact ⟨_, hk, rfl, hb⟩
  · rintro ⟨k, hk, rfl, hb⟩
    exact .ring hk hb

theorem refers_flight_iff {b : Nat} :
    Refers s flight .flight b ↔ ∃ job, flight = some job ∧ job.buf = some b := by
  constructor
  · intro h
    cases h with
    | flight hjob hb => exact ⟨_, hjob, hb⟩
  · rintro ⟨job, hjob, hb⟩
    exact .flight hjob hb

/-- Every other buffer stays where it is. -/
def Others (b : Nat) (s : Mgr) (flight : Option HashJob) (s' : Mgr) (flight' : Option HashJob) :
    Prop :=
  ∀ o b', b' ≠ b → (Refers s' flight' o b' ↔ Refers s flight o b')

theorem others_of {b : Nat}
    (slots : ∀ i b', b' ≠ b → ((s'.slots i).buf = some b' ↔ (s.slots i).buf = some b'))
    (pool : ∀ b', b' ≠ b → (b' ∈ s'.bufPool ↔ b' ∈ s.bufPool))
    (ring : ∀ e b', b' ≠ b → (InRing s' e b' ↔ InRing s e b'))
    (flights : ∀ b', b' ≠ b → ((∃ job, flight' = some job ∧ job.buf = some b') ↔
      ∃ job, flight = some job ∧ job.buf = some b')) : Others b s flight s' flight' := by
  intro o b' hne
  cases o with
  | slot i => rw [refers_slot_iff, refers_slot_iff, slots i b' hne]
  | pool => rw [refers_pool_iff, refers_pool_iff, pool b' hne]
  | ring e => rw [refers_ring_iff, refers_ring_iff, ring e b' hne]
  | flight => rw [refers_flight_iff, refers_flight_iff, flights b' hne]

theorem inRing_of_same (ring : s'.ring = s.ring) (e b : Nat) : InRing s' e b ↔ InRing s e b := by
  simp only [Mgr.ring, Prod.mk.injEq] at ring
  obtain ⟨hq, hhead, hcount, _⟩ := ring
  simp only [InRing, Mgr.entry, hq, hhead, hcount]

theorem Live.rehome (h : Live s flight log) {b : Nat} {o : Owner} (was : Refers s flight o b)
    (others : Others b s flight s' flight') (next : s'.nextBuf = s.nextBuf)
    (home : ∃ o', Refers s' flight' o' b) : Live s' flight' log := by
  have hmoved : Live s' flight' (log ++ []) := by
    refine h.move next.ge (fun b hlow hhigh => by omega) ?_ ?_ (by simp)
    · intro o1 b1 href
      by_cases hb : b1 = b
      · exact Or.inr (hb ▸ home)
      · exact Or.inr ⟨o1, (others o1 b1 hb).mpr href⟩
    · intro o1 b1 href
      by_cases hb : b1 = b
      · exact ⟨by simp, Or.inr ⟨o, hb ▸ was⟩⟩
      · exact ⟨by simp, Or.inr ⟨o1, (others o1 b1 hb).mp href⟩⟩
  simpa using hmoved

theorem Live.free (h : Live s flight log) {b : Nat} {o : Owner} (was : Refers s flight o b)
    (others : Others b s flight s' flight') (next : s'.nextBuf = s.nextBuf) (alive : b < s.nextBuf)
    (gone : ∀ o', ¬ Refers s' flight' o' b) : Live s' flight' (log ++ [.freed b]) := by
  refine h.move next.ge (fun b hlow hhigh => by omega) ?_ ?_ ?_
  · intro o1 b1 href
    by_cases hb : b1 = b
    · exact Or.inl (by simp [hb])
    · exact Or.inr ⟨o1, (others o1 b1 hb).mpr href⟩
  · intro o1 b1 href
    have hb : b1 ≠ b := by
      rintro rfl
      exact gone o1 href
    exact ⟨by simpa using hb, Or.inr ⟨o1, (others o1 b1 hb).mp href⟩⟩
  · intro b1 hmem
    obtain rfl : b1 = b := by simpa using hmem
    exact alive

theorem Live.grow (h : Live s flight log) (others : Others s.nextBuf s flight s' flight')
    (owned : Owned s flight) (next : s'.nextBuf = s.nextBuf + 1)
    (home : ∃ o, Refers s' flight' o s.nextBuf) : Live s' flight' log := by
  have hmoved : Live s' flight' (log ++ []) := by
    refine h.move (by omega) ?_ ?_ ?_ (by simp)
    · intro b hlow hhigh
      obtain rfl : b = s.nextBuf := by omega
      exact home
    · intro o1 b1 href
      have hbound := owned.bound o1 b1 href
      exact Or.inr ⟨o1, (others o1 b1 (by omega)).mpr href⟩
    · intro o1 b1 href
      by_cases hb : b1 = s.nextBuf
      · exact ⟨by simp, Or.inl hb.ge⟩
      · exact ⟨by simp, Or.inr ⟨o1, (others o1 b1 hb).mp href⟩⟩
  simpa using hmoved

/-- The slot has no buffer or this one, before and after. -/
theorem slots_other {b : Nat} {sl : Slot} (slots : s'.slots = Function.update s.slots idx sl)
    (before : ∀ b', (s.slots idx).buf = some b' → b' = b) (after : ∀ b', sl.buf = some b' → b' = b)
    (i b' : Nat) (hne : b' ≠ b) : (s'.slots i).buf = some b' ↔ (s.slots i).buf = some b' := by
  rw [slots]
  by_cases hi : i = idx
  · subst hi
    rw [Function.update_self]
    exact ⟨fun h => absurd (after b' h) hne, fun h => absurd (before b' h) hne⟩
  · rw [Function.update_of_ne hi]

theorem Live.slotBuf (h : Live s none log) (owned : Owned s none) (alloc : Bool) (idx : Nat) :
    Live (slotBuf alloc s idx).2 none log := by
  simp only [PieceManager.slotBuf]
  split
  · exact h
  · next hnone =>
    have hbefore : ∀ b b', (s.slots idx).buf = some b' → b' = b := by
      intro b b' hb'
      rw [hnone] at hb'
      cases hb'
    simp only [pieceBufGet]
    split
    · next b rest hpool =>
      have hnodup := owned.nodup
      rw [hpool, List.nodup_cons] at hnodup
      have hmem : b ∈ s.bufPool := by simp [hpool]
      refine h.rehome (.pool hmem) ?_ rfl ⟨.slot idx, .slot (by simp [Mgr.setSlot])⟩
      refine others_of (slots_other rfl (hbefore b) (by simp [eq_comm])) ?_
        (fun e b' _ => inRing_of_same rfl e b') (fun _ _ => Iff.rfl)
      intro b' hne
      simp [Mgr.setSlot, hpool, hne]
    · split
      · refine h.grow ?_ owned rfl ⟨.slot idx, .slot (by simp [Mgr.setSlot])⟩
        exact others_of (slots_other rfl (hbefore _) (by simp [eq_comm])) (fun _ _ => Iff.rfl)
          (fun e b' _ => inRing_of_same rfl e b') (fun _ _ => Iff.rfl)
      · have hframe : Live (s.setSlot idx (fun sl => { sl with buf := none })) none (log ++ []) :=
          h.slot rfl hnone.symm rfl rfl (by simp)
        simpa using hframe

/-- A buffer goes to the pool, or is freed when the pool is full. -/
theorem Live.put (h : Live s flight log) (owned : Owned s flight) {b : Nat} {o : Owner}
    (was : Refers s flight o b) (notPool : o ≠ .pool) (next : s'.nextBuf = s.nextBuf)
    (slots : ∀ i b', (s'.slots i).buf = some b' ↔ (s.slots i).buf = some b' ∧ b' ≠ b)
    (pool : s'.bufPool = (pieceBufPut s (some b)).bufPool)
    (ring : s'.ring = s.ring) (notRing : ∀ e, o ≠ .ring e)
    (flights : ∀ b', b' ≠ b → ¬ ∃ job, flight = some job ∧ job.buf = some b') :
    Live s' none (log ++ putTrace s (some b)) := by
  have hring : ∀ e b', InRing s' e b' ↔ InRing s e b' := inRing_of_same ring
  have hflights : ∀ b', b' ≠ b → ((∃ job : HashJob, none = some job ∧ job.buf = some b') ↔
      ∃ job, flight = some job ∧ job.buf = some b') := by
    intro b' hne
    simpa using flights b' hne
  have hpool : b ∉ s.bufPool := fun hmem => notPool (owned.unique _ _ _ was (.pool hmem))
  simp only [pieceBufPut] at pool
  simp only [putTrace]
  split
  · next hroom =>
    rw [if_pos hroom] at pool
    have hlive : Live s' none log := by
      refine h.rehome was ?_ next ⟨.pool, .pool (by simp [pool])⟩
      refine others_of (fun i b' hne => ?_) (fun b' hne => ?_) (fun e b' _ => hring e b') hflights
      · rw [slots]
        exact and_iff_left hne
      · simp [pool, hne]
    simpa using hlive
  · next hfull =>
    rw [if_neg hfull] at pool
    refine h.free was ?_ next (owned.bound _ _ was) ?_
    · refine others_of (fun i b' hne => ?_) (fun b' hne => ?_) (fun e b' _ => hring e b') hflights
      · rw [slots]
        exact and_iff_left hne
      · rw [pool]
    · intro o' href
      cases o' with
      | slot i => exact ((slots i b).mp (refers_slot_iff.mp href)).2 rfl
      | pool =>
        rw [refers_pool_iff, pool] at href
        exact hpool href
      | ring e =>
        rw [refers_ring_iff, hring] at href
        exact notRing e (owned.unique _ _ _ was (refers_ring_iff.mpr href))
      | flight =>
        obtain ⟨job, hjob, _⟩ := refers_flight_iff.mp href
        cases hjob

/-- The job in flight gives its buffer back to its slot. -/
theorem Live.attach {job : HashJob} (h : Live s (some job) log) (owned : Owned s (some job))
    (hashing : (s.slots job.idx).state = .hashing) {sl : Slot}
    (slots : s'.slots = Function.update s.slots job.idx sl) (buf : sl.buf = job.buf)
    (pool : s'.pool = s.pool) (ring : s'.ring = s.ring) : Live s' none log := by
  obtain ⟨b, hb⟩ := Option.ne_none_iff_exists'.mp (owned.flightBuf job rfl)
  have hdetached := owned.detached _ hashing
  simp only [Mgr.pool, Prod.mk.injEq] at pool
  refine h.rehome (.flight rfl hb) ?_ pool.1 ⟨.slot job.idx, .slot (by simp [slots, buf, hb])⟩
  refine others_of (slots_other slots ?_ ?_) (fun b' _ => by rw [pool.2])
    (fun e b' _ => inRing_of_same ring e b') ?_
  · intro b' hb'
    rw [hdetached] at hb'
    cases hb'
  · intro b' hb'
    rw [buf, hb] at hb'
    exact (Option.some.inj hb').symm
  · intro b' hne
    simp [hb, Ne.symm hne]

theorem Live.popHead (h : Live s none log) (owned : Owned s none)
    (head : s.hashQHead < hashQueueMax)
    (nonempty : 0 < s.hashQCount) : Live s.popHead (some s.headJob) log := by
  have hjob : s.headJob = s.hashQ (s.entry 0) := by rw [Mgr.headJob, entry_zero head]
  obtain ⟨b, hb⟩ := Option.ne_none_iff_exists'.mp (owned.ringBuf 0 nonempty)
  refine h.rehome (.ring nonempty hb) ?_ rfl ⟨.flight, .flight rfl (hjob ▸ hb)⟩
  refine others_of (fun _ _ _ => Iff.rfl) (fun _ _ => Iff.rfl) ?_ ?_
  · intro e b' hne
    constructor
    · rintro ⟨k, hk, hentry, hbuf⟩
      rw [entry_popHead] at hentry
      refine ⟨k + 1, ?_, hentry, hbuf⟩
      simp only [Mgr.popHead] at hk
      omega
    · rintro ⟨k, hk, hentry, hbuf⟩
      cases k with
      | zero =>
        rw [← hentry, hb] at hbuf
        exact absurd (Option.some.inj hbuf).symm hne
      | succ k =>
        refine ⟨k, ?_, (entry_popHead s k).trans hentry, hbuf⟩
        simp only [Mgr.popHead]
        omega
  · intro b' hne
    simp [hjob, hb, Ne.symm hne]

theorem Live.pushJob (h : Live s none log) (room : s.hashQCount < hashQueueMax) {plen : Nat}
    (buf : (s.slots idx).buf ≠ none) : Live (s.pushJob idx plen) none log := by
  obtain ⟨b, hb⟩ := Option.ne_none_iff_exists'.mp buf
  have hq : (s.pushJob idx plen).hashQ =
      Function.update s.hashQ (s.entry s.hashQCount) ⟨idx, (s.slots idx).buf, plen, false, false⟩ :=
    rfl
  have hlast : ((s.pushJob idx plen).hashQ (s.entry s.hashQCount)).buf = some b := by
    rw [hq, Function.update_self, hb]
  have hhome : Refers (s.pushJob idx plen) none (.ring (s.entry s.hashQCount)) b :=
    refers_ring_iff.mpr ⟨s.hashQCount, Nat.lt_succ_self _, rfl, hlast⟩
  refine h.rehome (.slot hb) ?_ rfl ⟨_, hhome⟩
  refine others_of (slots_other rfl (by simp [hb, eq_comm]) (by simp)) (fun _ _ => Iff.rfl) ?_
    (fun _ _ => Iff.rfl)
  intro e b' hne
  have hold : ∀ k, k < s.hashQCount → (s.pushJob idx plen).hashQ (s.entry k) =
    s.hashQ (s.entry k) := by
    intro k hk
    rw [hq, Function.update_of_ne (entry_ne s (by omega) room (by omega))]
  constructor
  · rintro ⟨k, hk, rfl, hbuf⟩
    have hk' : k < s.hashQCount + 1 := hk
    rcases Nat.lt_succ_iff_lt_or_eq.mp hk' with hlt | rfl
    · exact ⟨k, hlt, rfl, (hold k hlt) ▸ hbuf⟩
    · have hthis := hlast.symm.trans hbuf
      exact absurd (Option.some.inj hthis).symm hne
  · rintro ⟨k, hk, rfl, hbuf⟩
    refine ⟨k, Nat.lt_succ_of_lt hk, rfl, ?_⟩
    rw [hold k hk]
    exact hbuf

end Live

/-- The buffers of the jobs have the bytes they were handed over with. -/
structure Handed (s : Mgr) (flight : Option HashJob) (log : List Trace) : Prop where
  ring : ∀ k < s.hashQCount, .hashing (s.hashQ (s.entry k)).idx
    (s.bytes (s.hashQ (s.entry k)).buf (s.hashQ (s.entry k)).plen) ∈ log
  flight : ∀ job, flight = some job → .hashing job.idx (s.bytes job.buf job.plen) ∈ log

section Handed

variable {c : Config} {s s' : Mgr} {flight : Option HashJob} {log more : List Trace} {idx : Nat}

theorem Handed.append (h : Handed s flight log) (more : List Trace) :
    Handed s flight (log ++ more) :=
  ⟨fun k hk => List.mem_append_left _ (h.ring k hk),
    fun job hjob => List.mem_append_left _ (h.flight job hjob)⟩

/-- The ring is as it was, and so are the bytes of the buffers in it. -/
theorem Handed.frame (h : Handed s flight log) (ring : s'.ring = s.ring)
    (bytes : ∀ k < s.hashQCount, ∀ n, s'.bytes (s.hashQ (s.entry k)).buf n =
      s.bytes (s.hashQ (s.entry k)).buf n) : Handed s' none log := by
  obtain ⟨hq, hcount, _, hentry⟩ := ring_fields ring
  constructor
  · intro k hk
    rw [hcount] at hk
    rw [hq, hentry, bytes k hk]
    exact h.ring k hk
  · intro job hjob
    cases hjob

theorem Handed.edits {l : Licence} (h : Handed s none log) (owned : Owned s none)
    (edits : Edits c l s s') : Handed s' none log :=
  h.frame edits.ring fun _ hk n => bytes_edits owned edits hk n

theorem Handed.popHead (h : Handed s none log) (head : s.hashQHead < hashQueueMax)
    (nonempty : 0 < s.hashQCount) : Handed s.popHead (some s.headJob) log := by
  constructor
  · intro k hk
    rw [entry_popHead]
    refine h.ring (k + 1) ?_
    simp only [Mgr.popHead] at hk
    omega
  · intro job hjob
    obtain rfl : s.headJob = job := Option.some.inj hjob
    have hfirst := h.ring 0 nonempty
    rw [entry_zero head] at hfirst
    exact hfirst

theorem Handed.pushJob (h : Handed s none log) (room : s.hashQCount < hashQueueMax) {plen : Nat}
    (handed : .hashing idx (s.bytes (s.slots idx).buf plen) ∈ log) :
    Handed (s.pushJob idx plen) none log := by
  have hq : (s.pushJob idx plen).hashQ =
      Function.update s.hashQ (s.entry s.hashQCount) ⟨idx, (s.slots idx).buf, plen, false, false⟩ :=
    rfl
  have hentry : ∀ k, (s.pushJob idx plen).entry k = s.entry k := fun _ => rfl
  constructor
  · intro k hk
    have hk' : k < s.hashQCount + 1 := hk
    rw [hentry, hq]
    rcases Nat.lt_succ_iff_lt_or_eq.mp hk' with hlt | rfl
    · rw [Function.update_of_ne (entry_ne s (by omega) room (by omega))]
      exact h.ring k hlt
    · rw [Function.update_self]
      exact handed
  · intro job hjob
    cases hjob

theorem publish_job (s : Mgr) (entry : Nat) (ok : Bool) (e : Nat) :
    ((s.publish entry ok).hashQ e).idx = (s.hashQ e).idx ∧
      ((s.publish entry ok).hashQ e).buf = (s.hashQ e).buf ∧
      ((s.publish entry ok).hashQ e).plen = (s.hashQ e).plen := by
  by_cases he : e = entry
  · subst he
    simp [Mgr.publish]
  · simp [Mgr.publish, he]

theorem Handed.publish (h : Handed s flight log) (entry : Nat) (ok : Bool) :
    Handed (s.publish entry ok) flight log := by
  refine ⟨fun k hk => ?_, h.flight⟩
  have hentry : (s.publish entry ok).entry k = s.entry k := rfl
  obtain ⟨hidx, hbuf, hplen⟩ := publish_job s entry ok (s.entry k)
  rw [hentry, hidx, hbuf, hplen]
  exact h.ring k hk

theorem Live.publish (h : Live s flight log) (entry : Nat) (ok : Bool) :
    Live (s.publish entry ok) flight log := by
  have hrefers : ∀ o b, Refers (s.publish entry ok) flight o b ↔ Refers s flight o b := by
    intro o b
    cases o with
    | slot i => rw [refers_slot_iff, refers_slot_iff]; rfl
    | pool => rw [refers_pool_iff, refers_pool_iff]; rfl
    | ring e =>
      rw [refers_ring_iff, refers_ring_iff, InRing, InRing, (publish_job s entry ok e).2.1]
      rfl
    | flight => rw [refers_flight_iff, refers_flight_iff]
  constructor
  · intro b hb
    rcases h.held b hb with hfreed | ⟨o, href⟩
    · exact Or.inl hfreed
    · exact Or.inr ⟨o, (hrefers o b).mpr href⟩
  · intro o b href
    exact h.dead o b ((hrefers o b).mp href)
  · exact h.spent

end Handed

/-- What holds of the manager and the trace so far. -/
structure Traced (c : Config) (s : Mgr) (flight : Option HashJob) (log : List Trace) : Prop where
  books : Bookkept c s
  owned : Owned s flight
  filled : Filled c s log
  live : Live s flight log
  hashed : HashedFresh c log
  handed : Handed s flight log

section Calls

variable {c : Config} {l : Licence} {s s' : Mgr} {log more : List Trace} {idx : Nat}

theorem Traced.edit (wf : TorrentLayout.WellFormed c.mi) (h : Traced c s none log)
    (edit : Edit c l s s') (filled : Filled c s' (log ++ more)) (live : Live s' none (log ++ more))
    (hashed : HashedFresh c (log ++ more)) : Traced c s' none (log ++ more) :=
  ⟨h.books.edit wf edit, h.owned.edit edit, filled, live, hashed,
    (h.handed.edits h.owned edit.edits).append more⟩

/-- An edit that stores nothing, resets nothing and moves no buffer. -/
theorem Traced.quiet (wf : TorrentLayout.WellFormed c.mi) (h : Traced c s none log)
    (edit : Edit c l s s') (filled : Filled c s' log)
    (bufs : ∀ i, (s'.slots i).buf = (s.slots i).buf)
    (pool : s'.pool = s.pool) (ring : s'.ring = s.ring) : Traced c s' none log := by
  have hlive : Live s' none (log ++ []) := h.live.frame bufs pool ring (by simp)
  rw [List.append_nil] at hlive
  exact ⟨h.books.edit wf edit, h.owned.edit edit, filled, hlive, h.hashed,
    h.handed.edits h.owned edit.edits⟩

theorem Traced.flags (wf : TorrentLayout.WellFormed c.mi) (h : Traced c s none log)
    (v ok started : Bool) (lookahead : Nat) (first : Bool)
    (kept : s.hashStarted = true → started = true) :
    Traced c { s with verifyBuf := v, hashOk := ok, hashStarted := started,
                      strictLookahead := lookahead, strictFillPendingFirst := first } none log :=
  h.quiet wf (Edit.flags (l := ⟨false, false, false⟩) s v ok started lookahead first kept)
    (h.filled.frame rfl rfl) (fun _ => rfl) rfl rfl

theorem Traced.verifyScratch (wf : TorrentLayout.WellFormed c.mi) (h : Traced c s none log)
    (alloc : Bool) : Traced c (verifyScratch alloc s).2 none log := by
  obtain ⟨v, hv⟩ := verifyScratch_eq alloc s
  rw [hv]
  exact h.flags wf v s.hashOk s.hashStarted s.strictLookahead s.strictFillPendingFirst id

theorem Traced.hashWorkerReady (wf : TorrentLayout.WellFormed c.mi) (h : Traced c s none log)
    (spawn : Bool) : Traced c (hashWorkerReady spawn s).2 none log := by
  obtain ⟨ok, started, hready, hstarted, _⟩ := hashWorkerReady_eq spawn s
  rw [hready]
  exact h.flags wf s.verifyBuf ok started s.strictLookahead s.strictFillPendingFirst hstarted

theorem Traced.count (wf : TorrentLayout.WellFormed c.mi) (h : Traced c s none log)
    (idx block : Nat) (f : Nat → Nat) : Traced c (setCount c s idx block f) none log := by
  have hedit : Edit c ⟨false, false, true⟩ s (setCount c s idx block f) :=
    Edit.count s idx block f (Or.inr rfl)
  obtain ⟨counts, hcounts⟩ := setCount_eq c s idx block f
  rw [hcounts] at hedit ⊢
  refine h.quiet wf hedit (h.filled.slot rfl rfl rfl ?_) ?_ rfl rfl
  · intro hopen b hset
    exact ⟨hopen, hset, fun _ => id⟩
  · intro i
    by_cases hi : i = idx
    · subst hi
      simp [Mgr.setSlot]
    · simp [Mgr.setSlot, hi]

theorem Traced.pending (wf : TorrentLayout.WellFormed c.mi) (h : Traced c s none log)
    (hidx : idx < c.mi.numPieces) (empty : (s.slots idx).state = .empty) :
    Traced c (s.setSlot idx (fun sl => { sl with state := .pending })) none log := by
  refine h.quiet wf (Edit.pending (l := ⟨false, false, false⟩) s idx hidx empty)
    (h.filled.slot rfl rfl rfl ?_) ?_ rfl rfl
  · intro _ b hset
    exact ⟨⟨by simp [empty], by simp [empty]⟩, hset, fun _ => id⟩
  · intro i
    by_cases hi : i = idx
    · subst hi
      simp [Mgr.setSlot]
    · simp [Mgr.setSlot, hi]

theorem Traced.slotBuf (wf : TorrentLayout.WellFormed c.mi) (h : Traced c s none log)
    (alloc : Bool) (hidx : idx < c.mi.numPieces) (hopen : (s.slots idx).Open) :
    Traced c (slotBuf alloc s idx).2 none log := by
  have hedit : Edit c ⟨false, false, false⟩ s (PieceManager.slotBuf alloc s idx).2 :=
    Edit.buffer s idx alloc hidx hopen
  refine ⟨h.books.edit wf hedit, h.owned.edit hedit, ?_, h.live.slotBuf h.owned alloc idx, h.hashed,
    h.handed.edits h.owned hedit.edits⟩
  refine h.filled.slot (slotBuf_slots alloc s idx) (slotBuf_frame alloc s idx).2.1 rfl ?_
  intro _ b hset
  refine ⟨hopen, hset, fun buf hbuf => ?_⟩
  simp [PieceManager.slotBuf, hbuf]

theorem Traced.markPending (wf : TorrentLayout.WellFormed c.mi) (h : Traced c s none log)
    (alloc : Bool) (idx : Nat) : Traced c (markPending c alloc s idx) none log := by
  simp only [PieceManager.markPending]
  split
  · exact h
  · next hidx =>
    split
    · exact h
    · next hclosed =>
      rw [not_or] at hclosed
      split
      · next hempty =>
        exact (h.pending wf (by omega) hempty).slotBuf wf alloc (by omega)
          (by simp [Slot.Open, Mgr.setSlot])
      · exact h.slotBuf wf alloc (by omega) hclosed

/-- A piece found on the disk, or not wanted. -/
theorem Traced.done (wf : TorrentLayout.WellFormed c.mi) (h : Traced c s none log) {readable : Bool}
    (edit : Edit c l s (markDoneUnhashed c s idx readable)) :
    Traced c (markDoneUnhashed c s idx readable) none log := by
  refine h.quiet wf edit (h.filled.close (markDoneUnhashed_slots c s idx readable) rfl rfl
    ?_) ?_ rfl rfl
  · simp [Slot.Open, Slot.filled]
  · intro i
    rw [markDoneUnhashed_slots]
    by_cases hi : i = idx
    · subst hi
      simp [Slot.filled]
    · simp [hi]

theorem Traced.reset (wf : TorrentLayout.WellFormed c.mi) (h : Traced c s none log)
    (hidx : idx < c.mi.numPieces) : Traced c (resetPiece c s idx) none (log ++ [.reset idx]) := by
  have huntouched := Untouched.resetPiece c s idx
  refine h.edit wf (Edit.reset (l := ⟨false, false, false⟩) s idx hidx) (h.filled.reset idx) ?_ ?_
  · exact h.live.slot (resetPiece_slots c s idx) rfl huntouched.pool huntouched.ring (by simp)
  · exact h.hashed.append (by simp)

theorem Traced.store (wf : TorrentLayout.WellFormed c.mi) (h : Traced c s none log) {offset b : Nat}
    {data : List UInt8} (hopen : (s.slots idx).Open) (good : Acceptable c s idx offset data)
    (hbuf : (s.slots idx).buf = some b) :
    Traced c (storeBlock c s idx offset data b) none (log ++ [.stored idx offset data]) := by
  obtain ⟨hring, hpool, _, _, _⟩ := storeBlock_frame c s idx offset data b
  have hedit : Edit c ⟨false, false, false⟩ s (storeBlock c s idx offset data b) :=
    Edit.block s idx offset data b good.piece hopen hbuf good.aligned good.inside
      good.block good.length
  refine h.edit wf hedit ?_ ?_ (h.hashed.append (by simp))
  · exact h.filled.store h.owned good.piece hopen hbuf good.aligned good.inside
      good.block good.length
  · exact h.live.slot (storeBlock_slots c s data b good.piece good.block)
      (stored_buf _ _) hpool hring (by simp)

/-- The bytes of a complete piece are hashed. -/
theorem Traced.hash (wf : TorrentLayout.WellFormed c.mi) (h : Traced c s none log)
    (entering : Entering c s idx) :
    Traced c s none (log ++ [.hashing idx (s.bytes (s.slots idx).buf (plenOf c idx))]) := by
  refine ⟨h.books, h.owned, h.filled.append (by simp) (by simp), ?_, h.hashed.snoc ?_ (by simp),
    h.handed.append _⟩
  · exact h.live.frame (fun _ => rfl) rfl rfl (by simp)
  · rintro i bytes heq
    cases heq
    exact h.filled.fresh wf h.books.books entering

/-- Bytes that were handed over are read. -/
theorem Traced.read {flight : Option HashJob} (h : Traced c s flight log) {bytes : List UInt8}
    (known : .hashing idx bytes ∈ log) : Traced c s flight (log ++ [.read idx bytes]) := by
  refine ⟨h.books, h.owned, h.filled.append (by simp) (by simp), ?_, h.hashed.snoc (by simp) ?_,
    h.handed.append _⟩
  · exact h.live.frame (fun _ => rfl) rfl rfl (by simp)
  · rintro i bytes heq
    cases heq
    exact known

/-- The store is not looked at by the trace. -/
theorem Traced.refused (wf : TorrentLayout.WellFormed c.mi) (h : Traced c s none log) {io : Faults}
    {st : Store} (entering : Entering c s idx)
    (hwrite : storageWrite io s.store (absOff c.mi idx) (s.bytes (s.slots idx).buf (plenOf c idx)) =
      .error st) : Traced c (resetPiece c { s with store := st } idx) none
      (log ++ [.reset idx]) := by
  obtain ⟨hidx, hpending, hbuf, _⟩ := entering
  have hedit : Edit c ⟨false, false, false⟩ s (resetPiece c { s with store := st } idx) :=
    Edit.refused s idx io st hidx hpending hwrite hbuf
  have huntouched := Untouched.resetPiece c { s with store := st } idx
  have hfilled : Filled c { s with store := st } log := h.filled.frame rfl rfl
  refine h.edit wf hedit (hfilled.reset idx) ?_ (h.hashed.append (by simp))
  exact h.live.slot (resetPiece_slots c { s with store := st } idx) rfl huntouched.pool
    huntouched.ring (by simp)

theorem putTrace_quiet (s : Mgr) (buf : Option Nat) :
    (∀ i, .reset i ∉ putTrace s buf) ∧ (∀ i offset data, .stored i offset data ∉ putTrace s buf) ∧
      ∀ i bytes, .hashing i bytes ∉ putTrace s buf ∧ .read i bytes ∉ putTrace s buf := by
  simp only [putTrace]
  split
  · simp
  · split <;> simp

theorem pieceBufPut_bufPool (pool : s'.bufPool = s.bufPool) (buf : Option Nat) :
    (pieceBufPut s' buf).bufPool = (pieceBufPut s buf).bufPool := by
  cases buf with
  | none => exact pool
  | some b =>
    simp only [pieceBufPut, pool]
    split
    · rfl
    · exact pool

theorem Traced.written (wf : TorrentLayout.WellFormed c.mi) (h : Traced c s none log) {io : Faults}
    {st : Store} (entering : Entering c s idx)
    (hmatch : hashMatches c idx (s.bytes (s.slots idx).buf (plenOf c idx)) = true)
    (hwrite : storageWrite io s.store (absOff c.mi idx) (s.bytes (s.slots idx).buf (plenOf c idx)) =
      .ok st) :
    Traced c ((pieceBufPut (markPieceDone c { s with store := st } idx (plenOf c idx))
      (s.slots idx).buf).setSlot idx (fun sl => { sl with buf := none })) none
      (log ++ putTrace s (s.slots idx).buf) := by
  obtain ⟨hidx, hpending, hbuf, hcomplete⟩ := entering
  obtain ⟨b, hb⟩ := Option.ne_none_iff_exists'.mp hbuf
  obtain ⟨hreset, hstored, hhashing⟩ := putTrace_quiet s (s.slots idx).buf
  have hslots := written_slots c s idx st
  have hedit : Edit c ⟨false, false, false⟩ s _ :=
    Edit.written s idx io st hidx hpending hmatch hwrite hbuf hcomplete
  refine h.edit wf hedit ?_ ?_ (h.hashed.append hhashing)
  · refine (h.filled.append hreset hstored).close hslots ?_ rfl (by simp [Slot.Open])
    obtain ⟨pool, hpool⟩ := pieceBufPut_eq
      (markPieceDone c { s with store := st } idx (plenOf c idx))
      (s.slots idx).buf
    rw [hpool]
    rfl
  · rw [hb] at hslots ⊢
    obtain ⟨pool, hpool⟩ := pieceBufPut_eq
      (markPieceDone c { s with store := st } idx (plenOf c idx))
      (some b)
    refine h.live.put h.owned (.slot hb) (by simp) ?_ ?_ ?_ ?_ (by simp) (by simp)
    · rw [hpool]
      rfl
    · intro i b'
      rw [hslots]
      by_cases hi : i = idx
      · subst hi
        simp [hb, eq_comm]
      · rw [Function.update_of_ne hi]
        refine ⟨fun hb' => ⟨hb', ?_⟩, fun hb' => hb'.1⟩
        rintro rfl
        exact hi (by simpa using h.owned.unique _ _ _ (.slot hb') (.slot hb))
    · have hsame : (pieceBufPut (markPieceDone c { s with store := st } idx (plenOf c idx))
          (some b)).bufPool =
          (pieceBufPut s (some b)).bufPool := pieceBufPut_bufPool (by rfl) (some b)
      exact hsame
    · rw [hpool]
      rfl

theorem Traced.verifyInline (wf : TorrentLayout.WellFormed c.mi)
    (h : Traced c s none log) (io : Faults) (entering : Entering c s idx) :
    Traced c (verifyInline c io s idx (plenOf c idx)).1 none
      (log ++ inlineTrace c io s idx (plenOf c idx)) := by
  have hhashed := h.hash wf entering
  simp only [PieceManager.verifyInline, inlineTrace]
  rw [List.append_cons]
  split
  · exact hhashed.reset wf entering.1
  · next hmatch =>
    have hread := hhashed.read (List.mem_append_right _ (List.mem_singleton_self _))
    rw [List.append_cons]
    cases hwrite : storageWrite io s.store (absOff c.mi idx)
      (s.bytes (s.slots idx).buf (plenOf c idx)) with
    | error st => exact hread.refused wf entering hwrite
    | ok st =>
      have hslot : ((markPieceDone c { s with store := st } idx (plenOf c idx)).slots idx).buf =
          (s.slots idx).buf := by simp
      simp only
      rw [hslot]
      exact hread.written wf entering (by simpa using hmatch) hwrite

theorem Traced.finishBlock (wf : TorrentLayout.WellFormed c.mi)
    (h : Traced c s none log) (env : Env) (collecting : Collecting c s idx) :
    Traced c (finishBlock c env s idx).1 none (log ++ finishTrace c env s idx) := by
  have hready := h.hashWorkerReady wf env.spawn
  obtain ⟨hidx, hpending, hbuf⟩ := collecting
  obtain ⟨ok, started, heq, _, _⟩ := hashWorkerReady_eq env.spawn s
  simp only [PieceManager.finishBlock, finishTrace]
  split
  · simpa using h
  · next hcomplete =>
    split
    · simpa using hready
    · refine hready.verifyInline wf env.io ?_
      rw [heq]
      exact ⟨hidx, hpending, hbuf, not_not.mp hcomplete⟩

theorem Traced.gotBlock (wf : TorrentLayout.WellFormed c.mi) (h : Traced c s none log) (env : Env)
    (idx offset : Nat) (data : Option (List UInt8)) :
    Traced c (gotBlock c env s idx offset data).1 none
      (log ++ gotBlockTrace c env s idx offset data) := by
  cases data with
  | none => simpa [PieceManager.gotBlock, gotBlockTrace] using h
  | some bytes =>
    simp only [PieceManager.gotBlock, gotBlockTrace]
    split
    · simpa using h
    · next hidx =>
      split
      · simpa using h
      · next hclosed =>
        rw [not_or] at hclosed
        split
        · simpa using h
        · next hoff =>
          split
          · simpa using h
          · next hlen =>
            have hgood : Acceptable c s idx offset bytes :=
              ⟨by omega, by omega, by omega, by omega, by omega⟩
            have hbuffer := h.slotBuf wf env.alloc hgood.piece hclosed
            cases hb : (PieceManager.slotBuf env.alloc s idx).1 with
            | none => simpa using hbuffer
            | some b =>
              have hslot := slotBuf_slot hb
              have hgood' : Acceptable c (PieceManager.slotBuf env.alloc s idx).2 idx
                offset bytes :=
                { hgood with block := by rw [hslot]; exact hgood.block }
              have hstored := hbuffer.store wf (by rw [hslot]; exact hclosed) hgood' (by rw [hslot])
              have hfinish := hstored.finishBlock wf env (collecting_stored hgood hb)
              rwa [← List.append_cons] at hfinish

theorem Traced.verifyPiece (wf : TorrentLayout.WellFormed c.mi) (h : Traced c s none log)
    (alloc : Bool) (idx : Nat) :
    Traced c (verifyPiece c alloc s idx).1 none (log ++ verifyPieceTrace c alloc s idx) := by
  have hscratch := h.verifyScratch wf alloc
  simp only [PieceManager.verifyPiece, verifyPieceTrace]
  split
  · simpa using h
  · next hidx =>
    split
    · simpa using h
    · split
      · simpa using h
      · split
        · simpa using hscratch
        · split
          · simpa using hscratch
          · exact hscratch.reset wf (by omega)

theorem Traced.checkExisting (wf : TorrentLayout.WellFormed c.mi) (h : Traced c s none log)
    (alloc : Bool) (idx : Nat) :
    Traced c (checkExisting c alloc s idx).1 none (log ++ checkExistingTrace c alloc s idx) := by
  have hscratch := h.verifyScratch wf alloc
  have hlicence : (Call.checkExisting idx).licence.check = true := rfl
  simp only [PieceManager.checkExisting, checkExistingTrace]
  split
  · simpa using h
  · next hidx =>
    split
    · next hskipped =>
      rw [List.append_nil]
      split
      · next hstate =>
        exact h.done wf (Edit.skipped s idx (by omega) hstate (Or.inl hlicence) hskipped)
      · exact h
    · split
      · simpa using hscratch
      · split
        · next hvalid =>
          rw [List.append_nil]
          split
          · next hstate =>
            exact hscratch.done wf
              (Edit.readable _ idx (by omega) hstate (Or.inl ⟨hlicence, hvalid⟩))
          · exact hscratch
        · exact hscratch.reset wf (by omega)

theorem Traced.presetHave (wf : TorrentLayout.WellFormed c.mi) (h : Traced c s none log)
    (bf : Option (Nat → UInt8)) (bfLen : Nat) : Traced c (presetHave c s bf bfLen) none log := by
  have hlicence : (Call.presetHave bf bfLen).licence.preset = true := rfl
  simp only [PieceManager.presetHave]
  split
  · exact h
  · next bits =>
    split
    · exact h
    · have loop : ∀ (pieces : List Nat) (s : Mgr), (∀ i ∈ pieces, i < c.mi.numPieces) →
          Traced c s none log → Traced c (pieces.foldl (presetOne c bits) s) none log := by
        intro pieces
        induction pieces with
        | nil => exact fun s _ hs => hs
        | cons i rest ih =>
          intro s hin hs
          refine ih _ (fun j hj => hin j (by simp [hj])) ?_
          have hi := hin i (by simp)
          simp only [presetOne]
          split
          · exact hs
          · next hwanted =>
            rw [not_or] at hwanted
            split
            · next hskipped =>
              exact hs.done wf (Edit.skipped s i hi hwanted.2 (Or.inr hlicence) hskipped)
            · split
              · next hreadable =>
                exact hs.done wf (Edit.readable s i hi hwanted.2 (Or.inr ⟨hlicence, hreadable⟩))
              · exact hs
      exact loop _ s (fun i hi => List.mem_range.mp hi) h

theorem Traced.start (wf : TorrentLayout.WellFormed c.mi) (h : Traced c s none log) (env : Env)
    (call : Call) : Traced c (start c s env call).1 none (log ++ callTrace c s env call) := by
  cases call with
  | gotBlock idx offset data =>
    rw [start_gotBlock]
    exact h.gotBlock wf env idx offset data
  | verifyPiece idx => exact h.verifyPiece wf env.alloc idx
  | checkExisting idx => exact h.checkExisting wf env.alloc idx
  | markPending idx =>
    simp only [callTrace, List.append_nil]
    exact h.markPending wf env.alloc idx
  | drainHashResults =>
    simp only [start_drainHashResults, callTrace, List.append_nil]
    exact h
  | hashFlush =>
    simp only [start_hashFlush, callTrace, List.append_nil]
    exact h
  | presetHave bf bfLen =>
    simp only [callTrace, List.append_nil]
    exact h.presetHave wf bf bfLen
  | markBlockRequested idx block =>
    simp only [callTrace, List.append_nil]
    exact h.count wf idx block _
  | clearBlockRequested idx block =>
    simp only [callTrace, List.append_nil]
    exact h.count wf idx block _
  | setStrictPolicy lookahead first =>
    simp only [callTrace, List.append_nil]
    exact h.flags wf s.verifyBuf s.hashOk s.hashStarted
      (if lookahead ≠ 0 then lookahead else strictOrderLookahead) first id

end Calls

section Applied

variable {c : Config} {s s' : Mgr} {job : HashJob} {report : Option (Nat × Int)}
  {log more : List Trace}

theorem Traced.applied (h : Traced c s (some job) log) (sound : JobSound c job)
    (applied : Applied c s job s' report) (filled : Filled c s' (log ++ more))
    (live : Live s' none (log ++ more)) (hashed : HashedFresh c (log ++ more)) :
    Traced c s' none (log ++ more) := by
  obtain ⟨hring, hheap, _⟩ := applied.ring
  refine ⟨h.books.applied sound applied, h.owned.applied applied, filled, live, hashed, ?_⟩
  refine (h.handed.frame hring fun k _ n => ?_).append more
  simp only [Mgr.bytes, hheap]

/-- The buffer of the job goes back to its slot, which is reset. -/
theorem Traced.reattach (h : Traced c s (some job) log)
    (hashing : (s.slots job.idx).state = .hashing)
    (st : Store) :
    Filled c (resetPiece c ({ s with store := st }.attach job) job.idx) (log ++ [.reset job.idx]) ∧
      Live (resetPiece c ({ s with store := st }.attach job) job.idx) none
      (log ++ [.reset job.idx]) := by
  have hattached : ({ s with store := st }.attach job).slots =
      Function.update s.slots job.idx { s.slots job.idx with buf := job.buf } := rfl
  have huntouched := Untouched.resetPiece c ({ s with store := st }.attach job) job.idx
  constructor
  · refine Filled.reset (h.filled.close hattached rfl rfl ?_) job.idx
    simp [Slot.Open, hashing]
  · have hlive : Live ({ s with store := st }.attach job) none log :=
      h.live.attach h.owned hashing hattached rfl rfl rfl
    have hslots := resetPiece_slots c ({ s with store := st }.attach job) job.idx
    exact hlive.slot hslots rfl huntouched.pool huntouched.ring (by simp)

/-- The buffer of the job goes to the pool or is freed. -/
theorem Traced.putFlight (h : Traced c s (some job) log) (next : s'.nextBuf = s.nextBuf)
    (bufs : ∀ i, (s'.slots i).buf = (s.slots i).buf)
    (pool : s'.bufPool = (pieceBufPut s job.buf).bufPool) (ring : s'.ring = s.ring) :
    Live s' none (log ++ putTrace s job.buf) := by
  obtain ⟨b, hb⟩ := Option.ne_none_iff_exists'.mp (h.owned.flightBuf job rfl)
  have hwas : Refers s (some job) .flight b := .flight rfl hb
  rw [hb] at pool ⊢
  refine h.live.put h.owned hwas (by simp) next ?_ pool ring (by simp) ?_
  · intro i b'
    rw [bufs]
    refine ⟨fun hb' => ⟨hb', ?_⟩, fun hb' => hb'.1⟩
    exact h.owned.ne hwas (.slot hb') (by simp)
  · rintro b' hne ⟨job', hjob, hb'⟩
    obtain rfl : job = job' := Option.some.inj hjob
    rw [hb] at hb'
    exact hne (Option.some.inj hb').symm

theorem Traced.hashApply (h : Traced c s (some job) log) (sound : JobSound c job) (io : Faults) :
    Traced c (hashApply c io s job).1 none (log ++ applyTrace c io s job) := by
  have happlied := hashApply_applied c io s job
  obtain ⟨hreset, hstored, hquiet⟩ := putTrace_quiet s job.buf
  simp only [PieceManager.hashApply, applyTrace] at happlied ⊢
  split
  · next hstale =>
    rw [if_pos hstale] at happlied
    obtain ⟨pool, hpool⟩ := pieceBufPut_eq s job.buf
    refine h.applied sound happlied ?_ ?_ (h.hashed.append hquiet)
    · refine (h.filled.append hreset hstored).frame (pieceBufPut_slots s job.buf) ?_
      rw [hpool]
    · refine h.putFlight ?_ ?_ rfl ?_
      · rw [hpool]
      · simp
      · rw [hpool]
        rfl
  · next hstate =>
    have hhashing : (s.slots job.idx).state = .hashing := by simpa using hstate
    rw [if_neg hstate] at happlied
    split
    · next hok =>
      rw [if_pos hok] at happlied
      obtain ⟨hfilled, hlive⟩ := h.reattach hhashing s.store
      exact h.applied sound happlied hfilled hlive (h.hashed.append (by simp))
    · next hok =>
      rw [if_neg hok] at happlied
      have hread := h.read (h.handed.flight job rfl)
      rw [List.append_cons]
      split
      · next st hwrite =>
        simp only [hwrite] at happlied ⊢
        obtain ⟨hfilled, hlive⟩ := hread.reattach hhashing st
        exact hread.applied sound happlied hfilled hlive (hread.hashed.append (by simp))
      · next st hwrite =>
        simp only [hwrite] at happlied ⊢
        obtain ⟨pool, hpool⟩ := pieceBufPut_eq
          (markPieceDone c { s with store := st } job.idx job.plen) job.buf
        have hslots : (pieceBufPut (markPieceDone c { s with store := st } job.idx job.plen)
            job.buf).slots =
            Function.update s.slots job.idx { s.slots job.idx with state := .done } := by
          simp
        refine hread.applied sound happlied ?_ ?_ (hread.hashed.append hquiet)
        · refine (hread.filled.append hreset hstored).close hslots ?_ rfl (by simp [Slot.Open])
          rw [hpool]
          rfl
        · refine hread.putFlight ?_ ?_ (pieceBufPut_bufPool (by rfl) job.buf) ?_
          · rw [hpool]
            rfl
          · intro i
            rw [hslots]
            by_cases hi : i = job.idx
            · subst hi
              simp
            · simp [hi]
          · rw [hpool]
            rfl

end Applied

section Runs

variable {c : Config} {m m' : Machine} {act : Act} {events : List Event} {log : List Event}
  {trace : List Trace}

theorem Traced.popHead {s : Mgr} (h : Traced c s none trace) (head : s.hashQHead < hashQueueMax)
    (count : s.hashQCount ≤ hashQueueMax) (nonempty : 0 < s.hashQCount) :
    Traced c s.popHead (some s.headJob) trace :=
  ⟨h.books.ring _ _ _ _, h.owned.popHead head count nonempty, h.filled.frame rfl rfl,
    h.live.popHead h.owned head nonempty, h.hashed, h.handed.popHead head nonempty⟩

/-- A complete piece is handed to the worker. -/
theorem Traced.pushJob (wf : TorrentLayout.WellFormed c.mi) {s : Mgr} {idx : Nat}
    (h : Traced c s none trace) (entering : Entering c s idx) (room : s.hashQCount < hashQueueMax) :
    Traced c (s.pushJob idx (plenOf c idx)) none
      (trace ++ [.hashing idx (s.bytes (s.slots idx).buf (plenOf c idx))]) := by
  have hhashed := h.hash wf entering
  obtain ⟨_, hpending, hbuf, _⟩ := entering
  refine ⟨hhashed.books.pushJob _ hpending, hhashed.owned.pushJob room hbuf, ?_,
    hhashed.live.pushJob room hbuf, hhashed.hashed, hhashed.handed.pushJob room (by simp)⟩
  exact hhashed.filled.close rfl rfl rfl (by simp [Slot.Open])

theorem Traced.publish {s : Mgr} {flight : Option HashJob}
    (h : Traced c s flight trace) (entry : Nat)
    (ok : Bool) : Traced c (s.publish entry ok) flight trace :=
  ⟨h.books.ring _ _ _ _, h.owned.publish entry ok, h.filled.frame rfl rfl, h.live.publish entry ok,
    h.hashed, h.handed.publish entry ok⟩

theorem Traced.popStep (buffers : BuffersOwned c m) (h : Traced c m.mgr m.pc.flight trace)
    (next : Resume) (hpc : m.pc = next.before) (nonempty : 0 < m.mgr.hashQCount) :
    Traced c (popStep m next).1.mgr (popStep m next).1.pc.flight trace := by
  rw [hpc, (before_facts next).1] at h
  exact h.popHead buffers.head buffers.count nonempty

theorem Traced.pushStep (wf : TorrentLayout.WellFormed c.mi) (buffers : BuffersOwned c m)
    (h : Traced c m.mgr m.pc.flight trace) {idx plen : Nat}
    (hpc : (m.pc = .enqueue idx plen ∧ m.mgr.hashQCount ≠ hashQueueMax) ∨ m.pc = .put idx plen) :
    Traced c (pushStep m idx plen).1.mgr (pushStep m idx plen).1.pc.flight
      (trace ++ handTrace m idx plen) := by
  obtain ⟨hflight, hentering, hroom, hready⟩ := buffers.pushing hpc
  obtain ⟨_, rfl, _⟩ := buffers.entering idx plen hentering
  rw [hflight] at h
  exact h.pushJob wf hready hroom

theorem Traced.lockStep (wf : TorrentLayout.WellFormed c.mi) (buffers : BuffersOwned c m)
    (h : Traced c m.mgr m.pc.flight trace) (hstep : lockStep m = some (m', events)) :
    Traced c m'.mgr m'.pc.flight (trace ++ lockTrace m) := by
  simp only [PieceManager.lockStep] at hstep
  simp only [lockTrace]
  split at hstep
  · next flushing hpc =>
    simp only [hpc, List.append_nil]
    split at hstep
    · cases hstep
      rw [hpc] at h
      exact h
    · next hmore =>
      cases hstep
      refine h.popStep buffers (.drain flushing) hpc ?_
      by_contra hzero
      exact hmore (Or.inl (by omega))
  · next hpc =>
    simp only [hpc, List.append_nil]
    split at hstep
    · cases hstep
    · cases hstep
      rw [hpc] at h
      exact h
  · next idx plen hpc =>
    simp only [hpc]
    split at hstep
    · next hfull =>
      rw [if_pos hfull, List.append_nil]
      split at hstep
      · cases hstep
      · cases hstep
        refine h.popStep buffers (.enqueue idx plen) hpc ?_
        rw [hfull]
        decide
    · next hroom =>
      rw [if_neg hroom]
      cases hstep
      exact h.pushStep wf buffers (Or.inl ⟨hpc, hroom⟩)
  · next idx plen hpc =>
    simp only [hpc]
    cases hstep
    exact h.pushStep wf buffers (Or.inr hpc)
  · cases hstep

theorem Traced.workerStep (ring : RingInv c m log) (h : Traced c m.mgr m.pc.flight trace)
    (hstep : workerStep c m = some (m', events)) :
    Traced c m'.mgr m'.pc.flight (trace ++ workerTrace m) := by
  have hworker := ring.worker
  simp only [PieceManager.workerStep] at hstep
  simp only [WorkerSound] at hworker
  simp only [workerTrace]
  split at hstep
  · next hw =>
    simp only [hw, List.append_nil]
    split at hstep
    · cases hstep
    · cases hstep
      exact h
  · next entry idx buf plen hw =>
    cases hstep
    simp only [hw] at hworker ⊢
    obtain ⟨hlt, rfl, rfl, rfl, rfl⟩ := hworker
    exact h.read (h.handed.ring _ hlt)
  · next entry idx buf plen ok hw =>
    simp only [hw, List.append_nil]
    cases hstep
    exact h.publish entry ok

/-- One step of the two threads. -/
theorem Traced.step (wf : TorrentLayout.WellFormed c.mi) (sound : MachineSound c m log)
    (h : Traced c m.mgr m.pc.flight trace) (hstep : step c m act = some (m', events)) :
    Traced c m'.mgr m'.pc.flight (trace ++ actTrace c m act) := by
  cases act with
  | call call env =>
    simp only [PieceManager.step] at hstep
    split at hstep
    · next hpc =>
      cases hstep
      rw [hpc] at h
      rw [(start_pc c m.mgr env call).1]
      exact h.start wf env call
    · cases hstep
  | lock => exact h.lockStep wf sound.buffers hstep
  | apply io =>
    simp only [PieceManager.step] at hstep
    split at hstep
    · next job next hpc =>
      cases hstep
      have hheld := sound.ring.held job (by rw [hpc]; rfl)
      have hafter : next.pc.flight = none := by
        cases next with
        | drain flushing => rfl
        | enqueue idx plen => rfl
      rw [hpc] at h
      rw [hafter]
      simp only [actTrace, hpc]
      exact h.hashApply hheld.1 io
    · cases hstep
  | worker => exact h.workerStep sound.ring hstep

theorem run_traced (wf : TorrentLayout.WellFormed c.mi) {acts : List Act}
    (sound : MachineSound c m log)
    (h : Traced c m.mgr m.pc.flight trace) (hrun : run c m acts = some (m', events)) :
    Traced c m'.mgr m'.pc.flight (trace ++ runTrace c m acts) := by
  induction acts generalizing m log trace events with
  | nil =>
    cases hrun
    simpa [runTrace] using h
  | cons act rest ih =>
    obtain ⟨m1, first, later, hstep, hrest, _⟩ := run_cons hrun
    have htail := ih (sound.step wf hstep) (h.step wf sound hstep) hrest
    rw [List.append_assoc] at htail
    simpa only [runTrace, hstep] using htail

theorem traced_initial (wf : TorrentLayout.WellFormed c.mi) (hashOk : Bool)
    (heap : Nat → Nat → UInt8) {store : Store} (opened : Opened c.mi store) :
    Traced c (initial c hashOk heap store).mgr (initial c hashOk heap store).pc.flight [] := by
  have hsound := machineSound_initial wf hashOk heap opened
  refine ⟨hsound.books, hsound.buffers.owned, ⟨fun _ => rfl, ?_⟩, ⟨?_, by simp, by simp⟩,
    ⟨by simp, by simp⟩, ⟨?_, ?_⟩⟩
  · intro i _ b hset
    simp [initial, create, blockIsSet] at hset
  · intro b hb
    cases hb
  · intro k hk
    cases hk
  · intro job hjob
    cases hjob

end Runs

/-- In every run: a piece that is handed to the worker or hashed inline has, in every one of
its bytes, what the latest block stored over that byte since the last reset put there; what
the worker hashes and what is written are such bytes; and a buffer that is not freed has one
owner. -/
theorem run_hashes_fresh_bytes {c : Config} (wf : TorrentLayout.WellFormed c.mi) {hashOk : Bool}
    {heap : Nat → Nat → UInt8} {store : Store} (opened : Opened c.mi store) {acts : List Act}
    {m : Machine} {log : List Event}
    (h : run c (initial c hashOk heap store) acts = some (m, log)) :
    HashedFresh c (runTrace c (initial c hashOk heap store) acts) ∧
      OneOwner m (runTrace c (initial c hashOk heap store) acts) := by
  have htraced := run_traced wf (machineSound_initial wf hashOk heap opened)
    (traced_initial wf hashOk heap opened) h
  rw [List.nil_append] at htraced
  refine ⟨htraced.hashed, htraced.owned.nodup, fun b hb => ?_⟩
  rcases htraced.live.held b hb with hfreed | ⟨o, href⟩
  · exact Or.inl ⟨hfreed, fun o href => htraced.live.dead o b href hfreed⟩
  · exact Or.inr ⟨htraced.live.dead o b href, o, href,
      fun o' href' => htraced.owned.unique o' o b href' href⟩

/-- The run that fills the ring, in buffers that come with old bytes. -/
theorem run_hashes_fresh_bytes_full : ∃ m log,
    run threeConfig (initial threeConfig true (fun _ _ => 7) threeStore) fullRing = some (m, log) ∧
      .hashing 0 [0] ∈ runTrace threeConfig
      (initial threeConfig true (fun _ _ => 7) threeStore) fullRing ∧
      HashedFresh threeConfig
        (runTrace threeConfig (initial threeConfig true (fun _ _ => 7) threeStore) fullRing) ∧
      OneOwner m (runTrace threeConfig (initial threeConfig true (fun _ _ => 7) threeStore)
        fullRing) := by
  have hrun : (run threeConfig (initial threeConfig true (fun _ _ => 7) threeStore)
      fullRing).isSome = true := by decide +kernel
  have hhashing : .hashing 0 [0] ∈
      runTrace threeConfig (initial threeConfig true (fun _ _ => 7) threeStore) fullRing := by
    decide +kernel
  obtain ⟨⟨m, log⟩, hsome⟩ := Option.isSome_iff_exists.mp hrun
  have hopened : Opened threeConfig.mi threeStore := rfl
  exact ⟨m, log, hsome, hhashing, run_hashes_fresh_bytes threePieces_wellFormed hopened hsome⟩

end PieceManager
