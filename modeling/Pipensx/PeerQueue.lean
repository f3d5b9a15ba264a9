import Pipensx.ProbeTable
import Pipensx.RingQueue

/-!
# The queue of peers to dial

The ring of endpoints in `core/torrent.c` and the hash table beside it that answers
whether an endpoint is queued. Addresses and ports are in network order, as the bytes of a
little-endian machine show them.

`queue_insert` puts the entry into the ring before it adds it to the table. When the
table is rebuilt on that occasion, the entry is already among those rehashed, and it is
added a second time.
-/

namespace PeerQueue

open ProbeTable

/-- `MAX_PEER_QUEUE`. -/
def maxPeerQueue : Nat := 1024

/-- `QUEUE_HASH_CAP`. -/
def queueHashCap : Nat := 2 * maxPeerQueue

structure Endpoint where
  ip : UInt32
  port : UInt16
  deriving DecidableEq, Repr

/-- `struct peer_addr`. -/
structure PeerAddr where
  endpoint : Endpoint
  noMse : UInt8
  useUtp : UInt8
  deriving DecidableEq, Repr

/-- The fields of `torrent_t` the queue consists of; `qhash` has the tombstone counter
with it. -/
structure Queue where
  queue : Nat → PeerAddr
  qhead : Nat
  qtail : Nat
  qsize : Nat
  qhash : Index Endpoint

/-- What else `queue_insert` looks at: the addresses of the connected peers, the blocklist
with the time each entry runs to, and the clock. -/
structure Surroundings where
  peers : List Endpoint
  blocklist : List (Endpoint × Nat)
  now : Nat

def queueHashIndex (e : Endpoint) : Nat :=
  ((e.ip * 2654435761 ^^^ e.port.toUInt32 * 40503) &&& 2047).toNat

def queueHashContains (q : Queue) (e : Endpoint) : Bool :=
  q.qhash.contains queueHashCap queueHashIndex e

def queueHashAddRaw (q : Queue) (e : Endpoint) : Queue :=
  { q with qhash := q.qhash.add queueHashCap queueHashIndex e }

/-- The entries in the ring, from the head on. -/
def Queue.live (q : Queue) : List PeerAddr :=
  RingQueue.entries maxPeerQueue q.queue q.qhead q.qsize

def queueHashRebuild (q : Queue) : Queue :=
  q.live.foldl (fun q a => queueHashAddRaw q a.endpoint) { q with qhash := Index.zeroed ⟨0, 0⟩ }

def queueHashAdd (q : Queue) (e : Endpoint) : Queue :=
  queueHashAddRaw (if q.qhash.tombstones > queueHashCap / 4 then queueHashRebuild q else q) e

def queueHashRemove (q : Queue) (e : Endpoint) : Queue :=
  { q with qhash := q.qhash.remove queueHashCap queueHashIndex e }

def ntohs (x : UInt16) : UInt16 := (x <<< 8) ||| (x >>> 8)

def ntohl (x : UInt32) : UInt32 :=
  (x <<< 24) ||| ((x &&& (0xff00 : UInt32)) <<< 8) |||
    ((x >>> 8) &&& (0xff00 : UInt32)) ||| (x >>> 24)

/-- The addresses no peer can have. -/
def unusable (e : Endpoint) : Bool :=
  let first := (ntohl e.ip >>> 24).toUInt8
  let second := (ntohl e.ip >>> 16).toUInt8
  e.ip == 0 || e.ip == 0xffffffff || ntohs e.port < 2 || first == 0 || first == 10 ||
    first == 127 || first ≥ 224 || (first == 169 && second == 254) ||
    (first == 172 && second ≥ 16 && second ≤ 31) || (first == 192 && second == 168)

def blocklistBlocked (around : Surroundings) (e : Endpoint) : Bool :=
  around.blocklist.any (fun b => decide (b.1 = e) && decide (b.2 > around.now))

/-- The checks of `queue_insert`. -/
def accepts (q : Queue) (e : Endpoint) (around : Surroundings) : Bool :=
  !unusable e && decide (q.qsize < maxPeerQueue) && !queueHashContains q e &&
    !around.peers.contains e && !blocklistBlocked around e

/-- The entry goes into the ring. -/
def place (q : Queue) (a : PeerAddr) (front : Bool) : Queue :=
  if front then
    let head := (q.qhead + maxPeerQueue - 1) % maxPeerQueue
    { q with qhead := head, queue := Function.update q.queue head a, qsize := q.qsize + 1 }
  else
    { q with queue := Function.update q.queue q.qtail a, qtail := (q.qtail + 1) % maxPeerQueue,
             qsize := q.qsize + 1 }

def queueInsert (q : Queue) (a : PeerAddr) (front : Bool) (around : Surroundings) : Queue × Bool :=
  if accepts q a.endpoint around = false then (q, false)
  else (queueHashAdd (place q a front) a.endpoint, true)

def queuePop (q : Queue) : Queue × Option PeerAddr :=
  if q.qsize = 0 then (q, none)
  else
    let a := q.queue q.qhead
    (queueHashRemove { q with qhead := (q.qhead + 1) % maxPeerQueue, qsize := q.qsize - 1 }
      a.endpoint, some a)

/-- The zeroed torrent. -/
def zeroed : Queue := ⟨fun _ => ⟨⟨0, 0⟩, 0, 0⟩, 0, 0, 0, Index.zeroed ⟨0, 0⟩⟩

inductive Op where
  | insert (a : PeerAddr) (front : Bool) (around : Surroundings)
  | pop

def step (q : Queue) : Op → Queue
  | .insert a front around => (queueInsert q a front around).1
  | .pop => (queuePop q).1

def run (q : Queue) (ops : List Op) : Queue := ops.foldl step q

theorem run_append (q : Queue) (ops more : List Op) : run q (ops ++ more) = run (run q ops) more :=
  List.foldl_append

/-- The number of slots in use for an endpoint. -/
def Queue.indexed (q : Queue) (e : Endpoint) : Nat := q.qhash.count queueHashCap e

def Queue.endpoints (q : Queue) : List Endpoint := q.live.map PeerAddr.endpoint

/-- The table holds each endpoint as often as the ring does, at most once, and finds it
exactly if it is there. -/
def IndexAgrees (q : Queue) : Prop :=
  ∀ e, q.indexed e = q.endpoints.count e ∧ q.endpoints.count e ≤ 1 ∧
    (queueHashContains q e = true ↔ e ∈ q.endpoints)

/-- The ring and the table are well formed and agree. -/
structure InStep (q : Queue) : Prop where
  head : q.qhead < maxPeerQueue
  size : q.qsize ≤ maxPeerQueue
  tail : q.qtail = (q.qhead + q.qsize) % maxPeerQueue
  sound : q.qhash.Sound queueHashCap queueHashIndex
  load : q.qhash.load queueHashCap = q.qsize
  counts : ∀ e, q.indexed e = q.endpoints.count e
  distinct : q.endpoints.Nodup

theorem queueHashCap_pos : 0 < queueHashCap := by decide

theorem contains_iff_indexed {q : Queue} (sound : q.qhash.Sound queueHashCap queueHashIndex)
    (e : Endpoint) : queueHashContains q e = true ↔ 0 < q.indexed e :=
  sound.contains_iff queueHashCap_pos

theorem InStep.agrees {q : Queue} (h : InStep q) : IndexAgrees q := by
  intro e
  refine ⟨h.counts e, List.nodup_iff_count_le_one.mp h.distinct e, ?_⟩
  rw [contains_iff_indexed h.sound, h.counts, List.count_pos_iff]

theorem inStep_zeroed : InStep zeroed := by
  refine ⟨by decide, by decide, by decide, sound_zeroed _ _ _, load_zeroed _, ?_, ?_⟩
  · intro e
    exact count_zeroed _ _
  · exact List.nodup_nil

/-- The ring after an insertion: the entry is new at one of the two ends. -/
theorem place_ring {q : Queue} (hhead : q.qhead < maxPeerQueue)
    (htail : q.qtail = (q.qhead + q.qsize) % maxPeerQueue) (room : q.qsize < maxPeerQueue)
    (a : PeerAddr) (front : Bool) : (place q a front).qhead < maxPeerQueue ∧
      (place q a front).qtail = ((place q a front).qhead + (place q a front).qsize) % maxPeerQueue ∧
      (place q a front).qsize = q.qsize + 1 ∧ (place q a front).qhash = q.qhash ∧
      (place q a front).live.Perm (a :: q.live) := by
  cases front with
  | true =>
    have hlive : (place q a true).live = a :: q.live := RingQueue.entries_pushFront room hhead a
    refine ⟨Nat.mod_lt _ (by decide), ?_, rfl, rfl, ?_⟩
    · simp only [place, if_true]
      rw [htail, Nat.mod_add_mod]
      rw [show q.qhead + maxPeerQueue - 1 + (q.qsize + 1) =
        q.qhead + q.qsize + maxPeerQueue by omega, Nat.add_mod_right]
    · simp [hlive]
  | false =>
    have hlive : (place q a false).live = q.live ++ [a] := by
      rw [Queue.live, Queue.live, ← RingQueue.entries_pushBack room, ← htail]
      rfl
    refine ⟨hhead, ?_, rfl, rfl, ?_⟩
    · simp only [place, Bool.false_eq_true, if_false]
      rw [htail, Nat.mod_add_mod, Nat.add_assoc]
    · rw [hlive]
      exact List.perm_append_comm

/-- The entries go into the table, and the rest of the queue stays. -/
theorem addRaw_foldl (q : Queue) (entries : List PeerAddr) (x : Index Endpoint) :
    entries.foldl (fun q a => queueHashAddRaw q a.endpoint) { q with qhash := x } =
      { q with
        qhash := (entries.map PeerAddr.endpoint).foldl
          (Index.add queueHashCap queueHashIndex) x } := by
  induction entries generalizing x with
  | nil => rfl
  | cons a rest ih => exact ih _

theorem queueHashRebuild_eq (q : Queue) : queueHashRebuild q =
    { q with
      qhash := q.endpoints.foldl (Index.add queueHashCap queueHashIndex) (Index.zeroed ⟨0, 0⟩) } :=
  addRaw_foldl q q.live _

theorem accepts_iff {q : Queue} {e : Endpoint} {around : Surroundings}
    (h : accepts q e around = true) : q.qsize < maxPeerQueue ∧ queueHashContains q e = false := by
  simp only [accepts, Bool.and_eq_true, decide_eq_true_iff, Bool.not_eq_true'] at h
  exact ⟨h.1.1.1.2, h.1.1.2⟩

/-- The ring takes the endpoint once; the table takes it once more for each entry that a
rebuild finds in the ring. -/
theorem InStep.insert {q : Queue} (h : InStep q) {a : PeerAddr} (front : Bool)
    {around : Surroundings} (accepted : accepts q a.endpoint around = true) :
    (queueInsert q a front around).1.endpoints.Perm (a.endpoint :: q.endpoints) ∧
      a.endpoint ∉ q.endpoints ∧
      (q.qhash.tombstones ≤ queueHashCap / 4 → InStep (queueInsert q a front around).1) ∧
      (queueHashCap / 4 < q.qhash.tombstones →
        (queueInsert q a front around).1.indexed a.endpoint = 2) := by
  obtain ⟨room, habsent⟩ := accepts_iff accepted
  obtain ⟨hhead, htail, hsize, hhash, hring⟩ := place_ring h.head h.tail room a front
  have hperm : (place q a front).endpoints.Perm (a.endpoint :: q.endpoints) :=
    hring.map PeerAddr.endpoint
  have hnew : a.endpoint ∉ q.endpoints := by
    intro hmem
    have hfound := ((h.agrees a.endpoint).2.2).mpr hmem
    rw [habsent] at hfound
    cases hfound
  have hzero : q.endpoints.count a.endpoint = 0 := List.count_eq_zero_of_not_mem hnew
  have hinsert : (queueInsert q a front around).1 = queueHashAdd (place q a front) a.endpoint := by
    simp [queueInsert, accepted]
  have hcap : queueHashCap = 2048 := rfl
  have hmax : maxPeerQueue = 1024 := rfl
  rw [hinsert]
  refine ⟨?_, hnew, ?_, ?_⟩
  · have hlive : (queueHashAdd (place q a front) a.endpoint).endpoints =
        (place q a front).endpoints := by
      simp only [queueHashAdd, queueHashRebuild_eq]
      split
      · rfl
      · rfl
    rw [hlive]
    exact hperm
  · intro few
    have hadd : queueHashAdd (place q a front) a.endpoint =
        queueHashAddRaw (place q a front) a.endpoint := by
      rw [queueHashAdd, if_neg (by rw [hhash]; omega)]
    have hload := h.load
    obtain ⟨hsound, hload', hcount⟩ := h.sound.add (by omega) a.endpoint
    rw [hadd]
    refine ⟨hhead, ?_, htail, ?_, ?_, ?_, ?_⟩
    · simp only [queueHashAddRaw, hsize]
      omega
    · simp only [queueHashAddRaw, hhash]
      exact hsound
    · simp only [queueHashAddRaw, hhash, hsize]
      omega
    · intro e
      have hplaced : (queueHashAddRaw (place q a front) a.endpoint).endpoints.count e =
          (a.endpoint :: q.endpoints).count e := hperm.count_eq e
      have hold := h.counts e
      simp only [Queue.indexed] at hold
      simp only [Queue.indexed] at hplaced ⊢
      rw [hplaced, List.count_cons]
      simp only [queueHashAddRaw, hhash, hcount, hold]
      by_cases heq : e = a.endpoint
      · simp [heq]
      · simp [heq, Ne.symm heq]
    · exact hperm.nodup_iff.mpr (List.nodup_cons.mpr ⟨hnew, h.distinct⟩)
  · intro many
    -- the rebuild counts the new entry already, and it is added once more
    have hadd : queueHashAdd (place q a front) a.endpoint =
        queueHashAddRaw (queueHashRebuild (place q a front)) a.endpoint := by
      rw [queueHashAdd, if_pos (by rw [hhash]; omega)]
    have hlength : (place q a front).endpoints.length = q.qsize + 1 := by
      simp [Queue.endpoints, Queue.live, hsize]
    obtain ⟨hsound, hload, hcount⟩ := addAll_spec (place q a front).endpoints
      (sound_zeroed queueHashCap queueHashIndex (⟨0, 0⟩ : Endpoint))
      (by rw [load_zeroed, hlength]; omega)
    rw [load_zeroed, hlength] at hload
    have hagain := (hsound.add (by omega) a.endpoint).2.2 a.endpoint
    rw [hadd, queueHashRebuild_eq]
    simp only [Queue.indexed, queueHashAddRaw]
    rw [hagain, hcount, count_zeroed, hperm.count_eq, List.count_cons_self, hzero, if_pos rfl]

theorem queuePop_none {q q' : Queue} (h : queuePop q = (q', none)) : q' = q := by
  unfold queuePop at h
  split at h
  · cases h
    rfl
  · cases h

/-- The first entry of the ring is taken off. -/
theorem queuePop_some {q q' : Queue} {a : PeerAddr} (head : q.qhead < maxPeerQueue)
    (h : queuePop q = (q', some a)) : ∃ n, q.qsize = n + 1 ∧ q.live = a :: q'.live ∧
      q' = queueHashRemove { q with qhead := (q.qhead + 1) % maxPeerQueue, qsize := n }
      a.endpoint := by
  unfold queuePop at h
  split at h
  · cases h
  · next hsome =>
    obtain ⟨n, hn⟩ : ∃ n, q.qsize = n + 1 := ⟨q.qsize - 1, by omega⟩
    cases h
    refine ⟨n, hn, ?_, ?_⟩
    · rw [Queue.live, hn, RingQueue.entries_popFront, Nat.mod_eq_of_lt head]
      rfl
    · simp only [hn, Nat.add_sub_cancel]

/-- What taking an entry off leaves of the ring and the table. -/
theorem queuePop_leaves {q q' : Queue} {a : PeerAddr} (head : q.qhead < maxPeerQueue)
    (tail : q.qtail = (q.qhead + q.qsize) % maxPeerQueue)
    (sound : q.qhash.Sound queueHashCap queueHashIndex)
    (stored : 0 < q.indexed a.endpoint) (h : queuePop q = (q', some a)) :
    q'.qhead < maxPeerQueue ∧ q.qsize = q'.qsize + 1 ∧
      q'.qtail = (q'.qhead + q'.qsize) % maxPeerQueue ∧
      q'.qhash.Sound queueHashCap queueHashIndex ∧ q'.qhash.load queueHashCap =
      q.qhash.load queueHashCap - 1 ∧
      ∀ e, q'.indexed e = q.indexed e - if e = a.endpoint then 1 else 0 := by
  obtain ⟨n, hn, _, rfl⟩ := queuePop_some head h
  obtain ⟨hsound, hload, hcount⟩ := sound.remove queueHashCap_pos stored
  refine ⟨Nat.mod_lt _ (by decide), hn, ?_, hsound, hload, hcount⟩
  simp only [queueHashRemove]
  rw [tail, hn, Nat.mod_add_mod, show q.qhead + 1 + n = q.qhead + (n + 1) by omega]

theorem queuePop_endpoints {q q' : Queue} {a : PeerAddr} (head : q.qhead < maxPeerQueue)
    (h : queuePop q = (q', some a)) : q.endpoints = a.endpoint :: q'.endpoints := by
  obtain ⟨_, _, hlive, _⟩ := queuePop_some head h
  rw [Queue.endpoints, hlive, List.map_cons, Queue.endpoints]

theorem InStep.pop {q : Queue} (h : InStep q) : InStep (queuePop q).1 := by
  cases hpopped : queuePop q with
  | mk q' popped =>
  cases popped with
  | none =>
    rw [queuePop_none hpopped]
    exact h
  | some a =>
    have hends := queuePop_endpoints h.head hpopped
    have hcounts := h.counts
    have hdistinct := h.distinct
    rw [hends] at hdistinct
    simp only [hends, List.count_cons] at hcounts
    have hstored : 0 < q.indexed a.endpoint := by
      have hthis := hcounts a.endpoint
      simp only [BEq.rfl, if_true] at hthis
      omega
    obtain ⟨hhead, hcount, htail, hsound, hload, hindexed⟩ :=
      queuePop_leaves h.head h.tail h.sound hstored hpopped
    have hsize : q'.qsize ≤ maxPeerQueue := by
      have hold := h.size
      omega
    have hfull : q'.qhash.load queueHashCap = q'.qsize := by
      have hold := h.load
      omega
    refine ⟨hhead, hsize, htail, hsound, hfull, fun e => ?_, (List.nodup_cons.mp hdistinct).2⟩
    rw [hindexed, hcounts]
    by_cases heq : e = a.endpoint
    · simp [heq]
    · simp [heq, Ne.symm heq]

/-- No entry is accepted while the table is due for a rebuild. -/
def Timely (q : Queue) : Op → Prop
  | .insert a _ around => accepts q a.endpoint around = true → q.qhash.tombstones ≤ queueHashCap / 4
  | .pop => True

instance (q : Queue) (op : Op) : Decidable (Timely q op) :=
  match op with
  | .insert _ _ _ => inferInstanceAs (Decidable (_ → _))
  | .pop => inferInstanceAs (Decidable True)

def EveryTimely : Queue → List Op → Prop
  | _, [] => True
  | q, op :: rest => Timely q op ∧ EveryTimely (step q op) rest

instance decidableEveryTimely : (q : Queue) → (ops : List Op) → Decidable (EveryTimely q ops)
  | _, [] => inferInstanceAs (Decidable True)
  | q, op :: rest =>
    match decidableEveryTimely (step q op) rest with
    | isTrue h => decidable_of_iff (Timely q op) ⟨fun ht => ⟨ht, h⟩, fun ht => ht.1⟩
    | isFalse h => isFalse (fun ht => h ht.2)

theorem InStep.step {q : Queue} (h : InStep q) {op : Op} (timely : Timely q op) :
    InStep (step q op) := by
  cases op with
  | pop => exact h.pop
  | insert a front around =>
    by_cases haccepts : accepts q a.endpoint around = true
    · exact (h.insert front haccepts).2.2.1 (timely haccepts)
    · simpa [PeerQueue.step, queueInsert, haccepts] using h

theorem InStep.run {q : Queue} (h : InStep q) {ops pre : List Op} (timely : EveryTimely q ops)
    (reached : pre <+: ops) : InStep (run q pre) := by
  induction pre generalizing q ops with
  | nil => exact h
  | cons op pre ih =>
    obtain ⟨post, rfl⟩ := reached
    obtain ⟨hop, hrest⟩ := timely
    exact ih (h.step hop) hrest (List.prefix_append pre post)

/-- As long as no entry is accepted while the table is due for a rebuild, ring and table
agree in every state of a run. -/
theorem run_indexAgrees {ops : List Op} (timely : EveryTimely zeroed ops) {pre : List Op}
    (reached : pre <+: ops) : IndexAgrees (run zeroed pre) :=
  (inStep_zeroed.run timely reached).agrees

/-- Two endpoints are queued, one of them again and in vain, and one is taken off. -/
theorem run_indexAgrees_two : IndexAgrees (run zeroed [.insert ⟨⟨0x08080808, 512⟩, 0, 0⟩ false
    ⟨[], [], 0⟩, .insert ⟨⟨0x01010101, 512⟩, 1, 1⟩ true ⟨[], [], 0⟩,
    .insert ⟨⟨0x08080808, 512⟩, 0, 1⟩ true ⟨[], [], 0⟩, .pop]) :=
  run_indexAgrees (by decide +kernel) (List.prefix_refl _)

/-- From a state in which they agree, an accepted entry keeps them in agreement exactly if
the table is not due for a rebuild. -/
theorem InStep.insert_agrees_iff {q : Queue} (h : InStep q) {a : PeerAddr} {front : Bool}
    {around : Surroundings} (accepted : accepts q a.endpoint around = true) :
    IndexAgrees (queueInsert q a front around).1 ↔ q.qhash.tombstones ≤ queueHashCap / 4 := by
  obtain ⟨_, _, hfew, hmany⟩ := h.insert front accepted
  constructor
  · intro hagrees
    by_contra hover
    obtain ⟨hcount, hone, _⟩ := hagrees a.endpoint
    have htwo := hmany (by omega)
    omega
  · intro few
    exact (hfew few).agrees

/-- Public endpoints with different places in the table: one address, ports from 512 on as
they stand in memory. -/
def dialled (i : Nat) : PeerAddr := ⟨⟨0x08080808, UInt16.ofNat (512 + i)⟩, 0, 0⟩

/-- Nobody is connected or blocked. -/
def alone : Surroundings := ⟨[], [], 0⟩

theorem dialled_usable : ∀ i, i < 514 → unusable (dialled i).endpoint = false := by decide +kernel

theorem queueHashIndex_lt (e : Endpoint) : queueHashIndex e < queueHashCap := by
  have hand := UInt32.toNat_and (e.ip * 2654435761 ^^^ e.port.toUInt32 * 40503) 2047
  have hle : queueHashIndex e ≤ (2047 : UInt32).toNat := by
    rw [queueHashIndex, hand]
    exact Nat.and_le_right
  have hmask : (2047 : UInt32).toNat = 2047 := by decide
  have hcap : queueHashCap = 2048 := rfl
  omega

/-- The multiplication by 40503 can be undone modulo 2048, so the place tells the port. -/
theorem dialled_index : ∀ i, i < 514 →
    ((queueHashIndex (dialled i).endpoint ^^^ 1416) * 1927 + 1536) % 2048 = i := by decide +kernel

/-- One endpoint is queued and taken off again, then the next. -/
def churn : Nat → List Op
  | 0 => []
  | n + 1 => churn n ++ [.insert (dialled n) false alone, .pop]

/-- After `n` rounds: nothing is queued, `n` slots are dead, and the places of the
endpoints to come are still empty. -/
structure AfterRounds (q : Queue) (n : Nat) : Prop where
  inStep : InStep q
  qsize : q.qsize = 0
  tombstones : q.qhash.tombstones = n
  clean : ∀ i, n ≤ i → i < 514 →
    (q.qhash.slots (queueHashIndex (dialled i).endpoint)).state = .empty

theorem AfterRounds.accepts {q : Queue} {n : Nat} (h : AfterRounds q n) (hn : n < 514) :
    accepts q (dialled n).endpoint alone = true := by
  have habsent : queueHashContains q (dialled n).endpoint = false := by
    have hiff := (h.inStep.agrees (dialled n).endpoint).2.2
    have hempty : q.endpoints = [] := by
      rw [Queue.endpoints, Queue.live, h.qsize]
      rfl
    rw [hempty] at hiff
    simpa using hiff
  simp [PeerQueue.accepts, dialled_usable n hn, h.qsize, habsent, alone, blocklistBlocked,
    maxPeerQueue]

theorem AfterRounds.round {q : Queue} {n : Nat} (h : AfterRounds q n) (hn : n < 513) :
    AfterRounds (run q [.insert (dialled n) false alone, .pop]) (n + 1) := by
  have hcap : queueHashCap = 2048 := rfl
  have haccepts := h.accepts (show n < 514 by omega)
  have htomb := h.tombstones
  have hhead := Nat.mod_eq_of_lt h.inStep.head
  have htail : q.qtail = q.qhead := by
    rw [h.inStep.tail, h.qsize, Nat.add_zero, hhead]
  have hlt := queueHashIndex_lt (dialled n).endpoint
  have hhome : queueHashIndex (dialled n).endpoint % queueHashCap =
      queueHashIndex (dialled n).endpoint := Nat.mod_eq_of_lt hlt
  have hfree := h.clean n (Nat.le_refl n) (by omega)
  have hinserted : (step q (.insert (dialled n) false alone)) =
      { place q (dialled n) false with
        qhash := ⟨Function.update q.qhash.slots (queueHashIndex (dialled n).endpoint)
          ⟨.used, (dialled n).endpoint⟩, n⟩ } := by
    simp only [step, queueInsert, haccepts, Bool.true_eq_false, if_false, queueHashAdd]
    rw [if_neg (by simp only [place, Bool.false_eq_true, if_false]; omega)]
    simp only [queueHashAddRaw, place, Bool.false_eq_true, if_false]
    rw [Index.add_home queueHashCap_pos (by rw [hhome]; exact hfree), hhome, htomb]
  have hpopped : run q [.insert (dialled n) false alone, .pop] =
      { place q (dialled n) false with
        qhead := (q.qhead + 1) % maxPeerQueue, qsize := 0
        qhash := ⟨Function.update q.qhash.slots (queueHashIndex (dialled n).endpoint)
          ⟨.dead, (dialled n).endpoint⟩, n + 1⟩ } := by
    rw [run, List.foldl_cons, List.foldl_cons, List.foldl_nil, hinserted]
    simp only [step, queuePop, place, Bool.false_eq_true, if_false, h.qsize, htail, queueHashRemove,
      Function.update_self]
    rw [if_neg (by decide), Index.remove_home queueHashCap_pos (by rw [hhome]; simp [Holds]), hhome]
    simp
  have htimely : EveryTimely q [.insert (dialled n) false alone, .pop] :=
    ⟨fun _ => by omega, trivial, trivial⟩
  refine ⟨h.inStep.run htimely (List.prefix_refl _), ?_, ?_, ?_⟩
  · rw [hpopped]
  · rw [hpopped]
  · intro i hlo hhi
    have hne : queueHashIndex (dialled i).endpoint ≠ queueHashIndex (dialled n).endpoint := by
      intro heq
      have hi := dialled_index i hhi
      rw [heq, dialled_index n (by omega)] at hi
      omega
    rw [hpopped]
    simp only [Function.update_of_ne hne]
    exact h.clean i (by omega) hhi

theorem afterRounds_churn {n : Nat} (hn : n ≤ 513) : AfterRounds (run zeroed (churn n)) n := by
  induction n with
  | zero => exact ⟨inStep_zeroed, rfl, rfl, fun _ _ _ => rfl⟩
  | succ n ih =>
    rw [churn, run_append]
    exact (ih (by omega)).round (by omega)

theorem AfterRounds.duplicates {q : Queue} {n : Nat} (h : AfterRounds q n) (hn : n < 514)
    (many : queueHashCap / 4 < n) : ¬ IndexAgrees (run q [.insert (dialled n) false alone]) := by
  intro hagrees
  have hfew := (h.inStep.insert_agrees_iff (h.accepts hn)).mp hagrees
  rw [h.tombstones] at hfew
  omega

/-- 513 endpoints come and go, and the next one is in the table twice. -/
theorem rebuild_duplicates :
    ¬ IndexAgrees (run zeroed (churn 513 ++ [.insert (dialled 513) false alone])) := by
  rw [run_append]
  exact (afterRounds_churn (Nat.le_refl 513)).duplicates (by decide) (by decide)

end PeerQueue
