import Mathlib.Data.List.Basic
import Mathlib.Logic.Function.Basic
import Pipensx.ByteBits
import Pipensx.PieceGeometry
import Pipensx.Storage

/-!
# The piece manager and its hash worker

`core/piece.c`: the slots of the pieces, the buffers their blocks are collected in, the
two bitfields, and the ring through which complete pieces go to the hash worker and back.

A buffer is a number, and `heap` holds its bytes; `malloc` takes a number never used
before and leaves the bytes there as they are. Arrays are functions of the index. The
store is always there: the store-less manager of the unit tests is left out, and so is
`piece_mgr_destroy`.
-/

namespace PieceManager

open TorrentFile PieceGeometry Storage ByteBits

/-- `PIECE_BUF_POOL_MAX`. -/
def bufPoolMax : Nat := 4

/-- `PIECE_HASH_QUEUE_MAX`. -/
def hashQueueMax : Nat := 2

/-- `STRICT_ORDER_LOOKAHEAD`. -/
def strictOrderLookahead : Nat := 32

inductive PieceState where
  | empty
  | pending
  | done
  | hashing
  deriving DecidableEq, Repr

/-- `piece_slot_t`. -/
structure Slot where
  state : PieceState
  buf : Option Nat
  haveBlocks : Nat → UInt8
  requestCounts : Nat → Nat
  numBlocks : Nat
  numBlocksDone : Nat

/-- `piece_hash_job_t`. -/
structure HashJob where
  idx : Nat
  buf : Option Nat
  plen : Nat
  done : Bool
  ok : Bool
  deriving DecidableEq, Repr

/-- What is fixed for the life of a manager. An empty `pieceOrder` is no order at all. -/
structure Config where
  mi : Metainfo
  sha1 : List UInt8 → List UInt8
  strictOrder : Bool
  pieceOrder : List Nat

/-- `piece_mgr_t` with the memory and the store it works on. The top of the buffer pool
is the head of the list, and `verifyBuf` says whether the scratch buffer is allocated. -/
structure Mgr where
  slots : Nat → Slot
  numDone : Nat
  completedBytes : Nat
  haveBf : Nat → UInt8
  availableBf : Nat → UInt8
  strictLookahead : Nat
  strictFillPendingFirst : Bool
  verifyBuf : Bool
  bufPool : List Nat
  orderCursor : Nat
  hashQ : Nat → HashJob
  hashQHead : Nat
  hashQCount : Nat
  hashQHashed : Nat
  hashOk : Bool
  hashStarted : Bool
  heap : Nat → Nat → UInt8
  nextBuf : Nat
  store : Store

/-- What the system answers during one call: `malloc`, `pthread_create`, and the files
and sinks under a write. -/
structure Env where
  alloc : Bool
  spawn : Bool
  io : Faults

def Mgr.setSlot (s : Mgr) (idx : Nat) (f : Slot → Slot) : Mgr :=
  { s with slots := Function.update s.slots idx (f (s.slots idx)) }

/-- The first `n` bytes of a buffer. -/
def Mgr.bytes (s : Mgr) (buf : Option Nat) (n : Nat) : List UInt8 :=
  match buf with
  | some b => (List.range n).map (s.heap b)
  | none => []

/-- The 20 bytes at `piece_hashes + idx * 20`, a `uint32_t` product. -/
def expectedHash (mi : Metainfo) (idx : Nat) : List UInt8 :=
  (mi.hashBytes.drop (idx * 20 % 2 ^ 32)).take 20

/-- SHA-1 and `memcmp` with the hash of the torrent. -/
def hashMatches (c : Config) (idx : Nat) (bytes : List UInt8) : Bool :=
  decide (c.sha1 bytes = expectedHash c.mi idx)

/-- The length of a piece as a number of bytes. -/
def plenOf (c : Config) (idx : Nat) : Nat := (pieceLen c.mi idx).toNat

def blockIsSet (sl : Slot) (block : Nat) : Bool :=
  decide (block < sl.numBlocks) && lsbHas sl.haveBlocks block

def orderCount (c : Config) : Nat :=
  if c.pieceOrder = [] then c.mi.numPieces else c.pieceOrder.length

def orderPieceAt (c : Config) (n : Nat) : Nat :=
  if c.pieceOrder = [] then n else c.pieceOrder.getD n 0

/-- The loop in `piece_mgr_create_ex` that fills `order_pos`; `none` is `(uint32_t)-1`. -/
def fillOrderPos (numPieces : Nat) : List Nat → Nat → (Nat → Option Nat) → Nat → Option Nat
  | [], _, pos => pos
  | piece :: rest, n, pos =>
    fillOrderPos numPieces rest (n + 1)
      (if piece < numPieces then Function.update pos piece (some n) else pos)

def orderPos (c : Config) (idx : Nat) : Option Nat :=
  if c.pieceOrder = [] then some idx
  else fillOrderPos c.mi.numPieces c.pieceOrder 0 (fun _ => none) idx

def advanceLoop (c : Config) (slots : Nat → Slot) : Nat → Nat → Nat
  | 0, cursor => cursor
  | fuel + 1, cursor =>
    if cursor < orderCount c then
      let i := orderPieceAt c cursor
      if i < c.mi.numPieces ∧ (slots i).state ≠ .done then cursor
      else advanceLoop c slots fuel (cursor + 1)
    else cursor

def orderCursorAdvance (c : Config) (s : Mgr) : Mgr :=
  { s with orderCursor := advanceLoop c s.slots (orderCount c - s.orderCursor) s.orderCursor }

def orderCursorRewind (c : Config) (s : Mgr) (idx : Nat) : Mgr :=
  match orderPos c idx with
  | none => s
  | some pos => if pos < s.orderCursor then { s with orderCursor := pos } else s

def pieceBufGet (alloc : Bool) (s : Mgr) : Option Nat × Mgr :=
  match s.bufPool with
  | buf :: rest => (some buf, { s with bufPool := rest })
  | [] => if alloc then (some s.nextBuf, { s with nextBuf := s.nextBuf + 1 }) else (none, s)

def pieceBufPut (s : Mgr) (buf : Option Nat) : Mgr :=
  match buf with
  | none => s
  | some b => if s.bufPool.length < bufPoolMax then { s with bufPool := b :: s.bufPool } else s

/-- `memcpy` into a buffer. -/
def copyIn (bytes : Nat → UInt8) (offset : Nat) (data : List UInt8) : Nat → UInt8 :=
  fun k => if offset ≤ k ∧ k < offset + data.length then data.getD (k - offset) 0 else bytes k

/-- The blocks and requests of a slot forgotten, as `reset_piece` leaves it. -/
def Slot.cleared (sl : Slot) : Slot :=
  { sl with haveBlocks := fun _ => 0, requestCounts := fun _ => 0, numBlocksDone := 0,
            state := .empty }

/-- The first half of `reset_piece`: a piece that was done is counted out. -/
def forgetDone (c : Config) (s : Mgr) (idx : Nat) : Mgr :=
  if (s.slots idx).state = .done ∧ s.numDone > 0 then
    { s with
      numDone := s.numDone - 1
      completedBytes :=
        if s.completedBytes ≥ plenOf c idx then s.completedBytes - plenOf c idx else 0
      haveBf := msbClear s.haveBf idx
      availableBf := msbClear s.availableBf idx }
  else s

def resetPiece (c : Config) (s : Mgr) (idx : Nat) : Mgr :=
  orderCursorRewind c ((forgetDone c s idx).setSlot idx Slot.cleared) idx

def markPieceDone (c : Config) (s : Mgr) (idx plen : Nat) : Mgr :=
  let s1 := s.setSlot idx (fun sl => { sl with state := .done })
  orderCursorAdvance c
    { s1 with
      haveBf := msbSet s1.haveBf idx
      availableBf :=
        if storageRangeReadable s1.store (absOff c.mi idx) plen then msbSet s1.availableBf idx
        else s1.availableBf
      numDone := s1.numDone + 1
      completedBytes := s1.completedBytes + plen }

/-- A slot with all its blocks, as `mark_done_unhashed` leaves it. -/
def Slot.filled (sl : Slot) : Slot :=
  { sl with state := .done, numBlocksDone := sl.numBlocks, haveBlocks := fun _ => 255 }

def markDoneUnhashed (c : Config) (s : Mgr) (idx : Nat) (readable : Bool) : Mgr :=
  let s1 := s.setSlot idx Slot.filled
  orderCursorAdvance c
    { s1 with
      haveBf := msbSet s1.haveBf idx
      availableBf := if readable then msbSet s1.availableBf idx else s1.availableBf
      numDone := s1.numDone + 1
      completedBytes := s1.completedBytes + plenOf c idx }

def Mgr.blockKnown (c : Config) (s : Mgr) (idx block : Nat) : Prop :=
  idx < c.mi.numPieces ∧ block < (s.slots idx).numBlocks

instance (c : Config) (s : Mgr) (idx block : Nat) : Decidable (s.blockKnown c idx block) :=
  inferInstanceAs (Decidable (_ ∧ _))

/-- The three request-count functions change one count, if the block exists. -/
def setCount (c : Config) (s : Mgr) (idx block : Nat) (f : Nat → Nat) : Mgr :=
  if s.blockKnown c idx block then
    s.setSlot idx (fun sl =>
      { sl with
        requestCounts := Function.update sl.requestCounts block (f (sl.requestCounts block)) })
  else s

/-- The count is a `uint8_t` that saturates. -/
def markBlockRequested (c : Config) (s : Mgr) (idx block : Nat) : Mgr :=
  setCount c s idx block (fun n => if n ≠ 255 then n + 1 else n)

def clearBlockRequested (c : Config) (s : Mgr) (idx block : Nat) : Mgr :=
  setCount c s idx block (fun n => if n > 0 then n - 1 else n)

def clearAllBlockRequests (c : Config) (s : Mgr) (idx block : Nat) : Mgr :=
  setCount c s idx block (fun _ => 0)

def hasBlock (c : Config) (s : Mgr) (idx block : Nat) : Bool :=
  decide (idx < c.mi.numPieces) && blockIsSet (s.slots idx) block

def blockRequestCount (c : Config) (s : Mgr) (idx block : Nat) : Nat :=
  if s.blockKnown c idx block then (s.slots idx).requestCounts block else 0

/-- `piece_mgr_set_strict_policy`. -/
def setStrictPolicy (s : Mgr) (lookahead : Nat) (fillPendingFirst : Bool) : Mgr :=
  { s with
    strictLookahead := if lookahead ≠ 0 then lookahead else strictOrderLookahead
    strictFillPendingFirst := fillPendingFirst }

/-- `if (!sl->buf) sl->buf = piece_buf_get(pm)`, with the buffer of the slot after it. -/
def slotBuf (alloc : Bool) (s : Mgr) (idx : Nat) : Option Nat × Mgr :=
  match (s.slots idx).buf with
  | some b => (some b, s)
  | none =>
    let got := pieceBufGet alloc s
    (got.1, got.2.setSlot idx (fun sl => { sl with buf := got.1 }))

def markPending (c : Config) (alloc : Bool) (s : Mgr) (idx : Nat) : Mgr :=
  if idx ≥ c.mi.numPieces then s
  else
    let sl := s.slots idx
    if sl.state = .done ∨ sl.state = .hashing then s
    else
      let s1 := if sl.state = .empty then s.setSlot idx
        (fun sl => { sl with state := .pending }) else s
      (slotBuf alloc s1 idx).2

/-- The length a block at `offset` must have. -/
def expectedLen (c : Config) (idx offset : Nat) : Nat :=
  if (offset : Int) + blockSize ≤ pieceLen c.mi idx then blockSize
  else ((pieceLen c.mi idx - offset) % 2 ^ 32).toNat

/-- A slot with one more block in its buffer. -/
def Slot.stored (sl : Slot) (blk : Nat) : Slot :=
  if blockIsSet sl blk then { sl with state := .pending }
  else { sl with state := .pending, haveBlocks := lsbSet sl.haveBlocks blk,
                 numBlocksDone := sl.numBlocksDone + 1 }

/-- The middle of `piece_mgr_got_block`: the block goes into the buffer `b`. -/
def storeBlock (c : Config) (s : Mgr) (idx offset : Nat) (data : List UInt8) (b : Nat) : Mgr :=
  let blk := offset / blockSize
  let s1 := { s with heap := Function.update s.heap b (copyIn (s.heap b) offset data) }
  clearAllBlockRequests c (s1.setSlot idx (fun sl => sl.stored blk)) idx blk

/-- The head of `hash_enqueue`: whether there is a worker to hand the piece to. -/
def hashWorkerReady (spawn : Bool) (s : Mgr) : Bool × Mgr :=
  if s.hashOk = false then (false, s)
  else if s.hashStarted then (true, s)
  else if spawn then (true, { s with hashStarted := true })
  else (false, { s with hashOk := false })

/-- The inline fallback at the end of `piece_mgr_got_block`. -/
def verifyInline (c : Config) (io : Faults) (s : Mgr) (idx plen : Nat) : Mgr × Int :=
  let bytes := s.bytes (s.slots idx).buf plen
  if hashMatches c idx bytes = false then (resetPiece c s idx, 0)
  else
    match storageWrite io s.store (absOff c.mi idx) bytes with
    | .error st => (resetPiece c { s with store := st } idx, -1)
    | .ok st =>
      let s1 := markPieceDone c { s with store := st } idx plen
      let s2 := pieceBufPut s1 (s1.slots idx).buf
      (s2.setSlot idx (fun sl => { sl with buf := none }), 2)

/-- `piece_mgr_got_block` after the block is stored; `none` means that the call goes on
in the locked part of `hash_enqueue`. -/
def finishBlock (c : Config) (env : Env) (s : Mgr) (idx : Nat) : Mgr × Option Int :=
  if (s.slots idx).numBlocksDone ≠ (s.slots idx).numBlocks then (s, some 1)
  else
    let ready := hashWorkerReady env.spawn s
    if ready.1 then (ready.2, none)
    else
      let r := verifyInline c env.io ready.2 idx (plenOf c idx)
      (r.1, some r.2)

def gotBlock (c : Config) (env : Env) (s : Mgr) (idx offset : Nat) (data : Option (List UInt8)) :
    Mgr × Option Int :=
  match data with
  | none => (s, some (-1))
  | some data =>
    if idx ≥ c.mi.numPieces then (s, some (-1))
    else
      let sl := s.slots idx
      if sl.state = .done ∨ sl.state = .hashing then (s, some 1)
      else if offset % blockSize ≠ 0 ∨ (offset : Int) ≥ pieceLen c.mi idx then (s, some (-1))
      else if offset / blockSize ≥ sl.numBlocks ∨ data.length ≠ expectedLen c idx offset then
        (s, some (-1))
      else
        let got := slotBuf env.alloc s idx
        match got.1 with
        | none => (got.2, some (-1))
        | some b => finishBlock c env (storeBlock c got.2 idx offset data b) idx

def verifyScratch (alloc : Bool) (s : Mgr) : Bool × Mgr :=
  if s.verifyBuf then (true, s) else (alloc, { s with verifyBuf := alloc })

/-- Whether the piece can be read back with its hash. -/
def onDiskValid (c : Config) (s : Mgr) (idx : Nat) : Bool :=
  let r := storageRead s.store (absOff c.mi idx) (plenOf c idx)
  if r.1 ≠ pieceLen c.mi idx then false else hashMatches c idx r.2

def verifyPiece (c : Config) (alloc : Bool) (s : Mgr) (idx : Nat) : Mgr × Int :=
  if idx ≥ c.mi.numPieces then (s, 0)
  else if (s.slots idx).state ≠ .done then (s, 0)
  else if storageRangeReadable s.store (absOff c.mi idx) (plenOf c idx) = false then (s, 1)
  else
    let scratch := verifyScratch alloc s
    if scratch.1 = false then (scratch.2, 0)
    else if onDiskValid c scratch.2 idx then (scratch.2, 1)
    else (resetPiece c scratch.2 idx, 0)

def checkExisting (c : Config) (alloc : Bool) (s : Mgr) (idx : Nat) : Mgr × Int :=
  if idx ≥ c.mi.numPieces then (s, -1)
  else if storageRangeSkipped s.store (absOff c.mi idx) (plenOf c idx) then
    (if (s.slots idx).state ≠ .done then markDoneUnhashed c s idx false else s, 1)
  else
    let scratch := verifyScratch alloc s
    if scratch.1 = false then (scratch.2, 0)
    else if onDiskValid c scratch.2 idx then
      (if (scratch.2.slots idx).state ≠ .done then markDoneUnhashed c scratch.2 idx true
       else scratch.2, 1)
    else (resetPiece c scratch.2 idx, 0)

/-- One round of the loop in `piece_mgr_preset_have`. -/
def presetOne (c : Config) (bf : Nat → UInt8) (s : Mgr) (idx : Nat) : Mgr :=
  if msbHas bf idx = false ∨ (s.slots idx).state = .done then s
  else if storageRangeSkipped s.store (absOff c.mi idx) (plenOf c idx) then
    markDoneUnhashed c s idx false
  else if storageRangeReadable s.store (absOff c.mi idx) (plenOf c idx) then
    markDoneUnhashed c s idx true
  else s

def presetHave (c : Config) (s : Mgr) (bf : Option (Nat → UInt8)) (bfLen : Nat) : Mgr :=
  match bf with
  | none => s
  | some bf =>
    if bfLen ≠ (c.mi.numPieces + 7) / 8 then s
    else (List.range c.mi.numPieces).foldl (presetOne c bf) s

/-- `hash_apply`, with the arguments of the call of `hash_result_cb`. -/
def hashApply (c : Config) (io : Faults) (s : Mgr) (job : HashJob) : Mgr × Option (Nat × Int) :=
  if (s.slots job.idx).state ≠ .hashing then (pieceBufPut s job.buf, none)
  else
    let attach := fun s : Mgr => s.setSlot job.idx (fun sl => { sl with buf := job.buf })
    if job.ok = false then (resetPiece c (attach s) job.idx, some (job.idx, 0))
    else
      match storageWrite io s.store (absOff c.mi job.idx) (s.bytes job.buf job.plen) with
      | .error st => (resetPiece c (attach { s with store := st }) job.idx, some (job.idx, -1))
      | .ok st =>
        (pieceBufPut (markPieceDone c { s with store := st } job.idx job.plen) job.buf,
          some (job.idx, 2))

/-- `piece_mgr_create_ex`, when its allocations succeed; `hashOk` says whether the mutex
and the two condition variables could be initialised. -/
def create (c : Config) (hashOk : Bool) (heap : Nat → Nat → UInt8) (store : Store) : Mgr :=
  { slots := fun i => ⟨.empty, none, fun _ => 0, fun _ => 0, pieceNumBlocks c.mi i, 0⟩
    numDone := 0
    completedBytes := 0
    haveBf := fun _ => 0
    availableBf := fun _ => 0
    strictLookahead := strictOrderLookahead
    strictFillPendingFirst := false
    verifyBuf := false
    bufPool := []
    orderCursor := 0
    hashQ := fun _ => ⟨0, none, 0, false, false⟩
    hashQHead := 0
    hashQCount := 0
    hashQHashed := 0
    hashOk := hashOk
    hashStarted := false
    heap := heap
    nextBuf := 0
    store := store }

/-- The part of the state the two threads share. -/
def Mgr.ring (s : Mgr) : (Nat → HashJob) × Nat × Nat × Nat :=
  (s.hashQ, s.hashQHead, s.hashQCount, s.hashQHashed)

/-- The buffers in the pool, and where the next new one comes from. -/
def Mgr.pool (s : Mgr) : Nat × List Nat := (s.nextBuf, s.bufPool)

/-- `s'` has the ring, the worker, the pool, the bytes and the store of `s`. -/
structure Untouched (s s' : Mgr) : Prop where
  ring : s'.ring = s.ring
  pool : s'.pool = s.pool
  heap : s'.heap = s.heap
  store : s'.store = s.store
  started : s'.hashStarted = s.hashStarted

theorem Untouched.refl (s : Mgr) : Untouched s s := ⟨rfl, rfl, rfl, rfl, rfl⟩

theorem Untouched.trans {s t u : Mgr} (h : Untouched s t) (h' : Untouched t u) : Untouched s u :=
  ⟨h'.ring.trans h.ring, h'.pool.trans h.pool, h'.heap.trans h.heap, h'.store.trans h.store,
    h'.started.trans h.started⟩

theorem orderCursorRewind_eq (c : Config) (s : Mgr) (idx : Nat) :
    ∃ n, orderCursorRewind c s idx = { s with orderCursor := n } := by
  simp only [orderCursorRewind]
  split
  · exact ⟨s.orderCursor, rfl⟩
  · split
    · exact ⟨_, rfl⟩
    · exact ⟨s.orderCursor, rfl⟩

theorem Untouched.forgetDone (c : Config) (s : Mgr) (idx : Nat) :
    Untouched s (forgetDone c s idx) := by
  simp only [PieceManager.forgetDone]
  split
  · exact ⟨rfl, rfl, rfl, rfl, rfl⟩
  · exact Untouched.refl s

@[simp] theorem forgetDone_slots (c : Config) (s : Mgr) (idx : Nat) :
    (forgetDone c s idx).slots = s.slots := by
  simp only [forgetDone]
  split
  · rfl
  · rfl

theorem Untouched.resetPiece (c : Config) (s : Mgr) (idx : Nat) :
    Untouched s (resetPiece c s idx) := by
  obtain ⟨n, hn⟩ := orderCursorRewind_eq c
    ((PieceManager.forgetDone c s idx).setSlot idx Slot.cleared) idx
  have hforget := Untouched.forgetDone c s idx
  simp only [PieceManager.resetPiece, hn]
  exact ⟨hforget.ring, hforget.pool, hforget.heap, hforget.store, hforget.started⟩

@[simp] theorem resetPiece_slots (c : Config) (s : Mgr) (idx : Nat) :
    (resetPiece c s idx).slots = Function.update s.slots idx (s.slots idx).cleared := by
  obtain ⟨n, hn⟩ := orderCursorRewind_eq c ((forgetDone c s idx).setSlot idx Slot.cleared) idx
  rw [resetPiece, hn]
  simp only [Mgr.setSlot, forgetDone_slots]

theorem Untouched.markPieceDone (c : Config) (s : Mgr) (idx plen : Nat) :
    Untouched s (markPieceDone c s idx plen) := ⟨rfl, rfl, rfl, rfl, rfl⟩

@[simp] theorem markPieceDone_slots (c : Config) (s : Mgr) (idx plen : Nat) :
    (markPieceDone c s idx plen).slots =
      Function.update s.slots idx { s.slots idx with state := .done } := rfl

theorem Untouched.markDoneUnhashed (c : Config) (s : Mgr) (idx : Nat) (readable : Bool) :
    Untouched s (markDoneUnhashed c s idx readable) := ⟨rfl, rfl, rfl, rfl, rfl⟩

@[simp] theorem markDoneUnhashed_slots (c : Config) (s : Mgr) (idx : Nat) (readable : Bool) :
    (markDoneUnhashed c s idx readable).slots =
      Function.update s.slots idx (s.slots idx).filled := rfl

theorem Untouched.setSlot (s : Mgr) (idx : Nat) (f : Slot → Slot) :
    Untouched s (s.setSlot idx f) := ⟨rfl, rfl, rfl, rfl, rfl⟩

theorem setCount_eq (c : Config) (s : Mgr) (idx block : Nat) (f : Nat → Nat) :
    ∃ counts, setCount c s idx block f =
      s.setSlot idx (fun sl => { sl with requestCounts := counts }) := by
  simp only [setCount]
  split
  · exact ⟨_, rfl⟩
  · refine ⟨(s.slots idx).requestCounts, ?_⟩
    simp [Mgr.setSlot]

@[simp] theorem stored_state (sl : Slot) (blk : Nat) : (sl.stored blk).state = .pending := by
  simp only [Slot.stored]
  split
  · rfl
  · rfl

@[simp] theorem stored_buf (sl : Slot) (blk : Nat) : (sl.stored blk).buf = sl.buf := by
  simp only [Slot.stored]
  split
  · rfl
  · rfl

@[simp] theorem stored_numBlocks (sl : Slot) (blk : Nat) :
    (sl.stored blk).numBlocks = sl.numBlocks := by
  simp only [Slot.stored]
  split
  · rfl
  · rfl

@[simp] theorem stored_requestCounts (sl : Slot) (blk : Nat) :
    (sl.stored blk).requestCounts = sl.requestCounts := by
  simp only [Slot.stored]
  split
  · rfl
  · rfl

/-- A slot after a block was stored: the block is there and nobody is asked for it. -/
theorem storeBlock_slots (c : Config) (s : Mgr) {idx offset : Nat} (data : List UInt8) (b : Nat)
    (hidx : idx < c.mi.numPieces) (hblk : offset / blockSize < (s.slots idx).numBlocks) :
    (storeBlock c s idx offset data b).slots = Function.update s.slots idx
      { (s.slots idx).stored (offset / blockSize) with
        requestCounts := Function.update (s.slots idx).requestCounts (offset / blockSize) 0 } := by
  have hknown : Mgr.blockKnown c ({ s with
      heap := Function.update s.heap b (copyIn (s.heap b) offset data) }.setSlot idx
      (fun sl => sl.stored (offset / blockSize))) idx (offset / blockSize) := by
    refine ⟨hidx, ?_⟩
    simpa [Mgr.setSlot] using hblk
  simp only [storeBlock, clearAllBlockRequests, setCount, hknown, if_true]
  simp [Mgr.setSlot]

/-- Storing a block changes the bytes of its own buffer only. -/
theorem storeBlock_frame (c : Config) (s : Mgr) (idx offset : Nat) (data : List UInt8) (b : Nat) :
    (storeBlock c s idx offset data b).ring = s.ring ∧
    (storeBlock c s idx offset data b).pool = s.pool ∧
    (storeBlock c s idx offset data b).store = s.store ∧
    (storeBlock c s idx offset data b).hashStarted = s.hashStarted ∧
    (storeBlock c s idx offset data b).heap =
      Function.update s.heap b (copyIn (s.heap b) offset data) := by
  obtain ⟨counts, hcounts⟩ := setCount_eq c ({ s with
      heap := Function.update s.heap b (copyIn (s.heap b) offset data) }.setSlot idx
      (fun sl => sl.stored (offset / blockSize))) idx (offset / blockSize) (fun _ => 0)
  simp only [storeBlock, clearAllBlockRequests, hcounts]
  exact ⟨rfl, rfl, rfl, rfl, rfl⟩

theorem slotBuf_slots (alloc : Bool) (s : Mgr) (idx : Nat) :
    (slotBuf alloc s idx).2.slots =
      Function.update s.slots idx { s.slots idx with buf := (slotBuf alloc s idx).1 } := by
  simp only [slotBuf]
  split
  · next b hb =>
    simp only [← hb]
    exact (Function.update_eq_self idx s.slots).symm
  · simp only [pieceBufGet]
    split
    · rfl
    · split
      · rfl
      · rfl

/-- Everything but the pool and the slot stays. -/
theorem slotBuf_frame (alloc : Bool) (s : Mgr) (idx : Nat) :
    (slotBuf alloc s idx).2.ring = s.ring ∧ (slotBuf alloc s idx).2.heap = s.heap ∧
      (slotBuf alloc s idx).2.store = s.store ∧
      (slotBuf alloc s idx).2.hashStarted = s.hashStarted := by
  simp only [slotBuf]
  split
  · exact ⟨rfl, rfl, rfl, rfl⟩
  · simp only [pieceBufGet]
    split
    · exact ⟨rfl, rfl, rfl, rfl⟩
    · split
      · exact ⟨rfl, rfl, rfl, rfl⟩
      · exact ⟨rfl, rfl, rfl, rfl⟩

theorem pieceBufPut_eq (s : Mgr) (buf : Option Nat) :
    ∃ pool, pieceBufPut s buf = { s with bufPool := pool } := by
  simp only [pieceBufPut]
  split
  · exact ⟨s.bufPool, rfl⟩
  · split
    · exact ⟨_, rfl⟩
    · exact ⟨s.bufPool, rfl⟩

theorem verifyScratch_eq (alloc : Bool) (s : Mgr) :
    ∃ v, (verifyScratch alloc s).2 = { s with verifyBuf := v } := by
  simp only [verifyScratch]
  split
  · exact ⟨s.verifyBuf, rfl⟩
  · exact ⟨alloc, rfl⟩

/-- The worker is started at most once, and there is one if the piece goes to it. -/
theorem hashWorkerReady_eq (spawn : Bool) (s : Mgr) :
    ∃ ok started, (hashWorkerReady spawn s).2 = { s with hashOk := ok, hashStarted := started } ∧
      (s.hashStarted = true → started = true) ∧
      ((hashWorkerReady spawn s).1 = true → started = true) := by
  simp only [hashWorkerReady]
  split
  · exact ⟨s.hashOk, s.hashStarted, rfl, id, by simp⟩
  · split
    · next hstarted => exact ⟨s.hashOk, s.hashStarted, rfl, id, fun _ => hstarted⟩
    · split
      · exact ⟨s.hashOk, true, rfl, fun _ => rfl, fun _ => rfl⟩
      · exact ⟨false, s.hashStarted, rfl, id, by simp⟩

end PieceManager
