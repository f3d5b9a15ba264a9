import Pipensx.PieceBuffers

/-!
# The hash ring under every interleaving

The ring holds the jobs that were enqueued and not yet popped, in this order; the worker
has finished an initial part of them and is at work on the first of the others. From that
follows what the two threads rely on: a job is popped once, in the order of the enqueues,
after the worker has hashed its buffer, and the worker never writes a result to an entry
that holds another job.
-/

namespace PieceManager

def enqueuedJobs (log : List Event) : List Job :=
  log.filterMap (fun | .enqueued job => some job | _ => none)

def hashedJobs (log : List Event) : List Job :=
  log.filterMap (fun | .hashed job => some job | _ => none)

def poppedJobs (log : List Event) : List Job :=
  log.filterMap (fun | .popped job _ => some job | _ => none)

@[simp] theorem enqueuedJobs_append (log events : List Event) :
    enqueuedJobs (log ++ events) = enqueuedJobs log ++ enqueuedJobs events :=
  List.filterMap_append

@[simp] theorem hashedJobs_append (log events : List Event) :
    hashedJobs (log ++ events) = hashedJobs log ++ hashedJobs events :=
  List.filterMap_append

@[simp] theorem poppedJobs_append (log events : List Event) :
    poppedJobs (log ++ events) = poppedJobs log ++ poppedJobs events :=
  List.filterMap_append

/-- Events that say nothing about the ring. -/
def Quiet (events : List Event) : Prop :=
  ∀ e ∈ events, (∃ idx status, e = .report idx status) ∨ ∃ value, e = .returned value

theorem Quiet.jobs {events : List Event} (h : Quiet events) :
    enqueuedJobs events = [] ∧ hashedJobs events = [] ∧ poppedJobs events = [] := by
  refine ⟨List.filterMap_eq_nil_iff.mpr ?_, List.filterMap_eq_nil_iff.mpr ?_,
    List.filterMap_eq_nil_iff.mpr ?_⟩
  all_goals
    intro e he
    rcases h e he with ⟨idx, status, rfl⟩ | ⟨value, rfl⟩
    · rfl
    · rfl

/-- The jobs in the ring, from the head on. -/
def Mgr.ringJobs (s : Mgr) : List Job :=
  (List.range s.hashQCount).map (fun k => jobOf s (s.hashQ (s.entry k)))

/-- The worker has a pointer to the first entry it has not finished, and that entry still
holds the job it has read. -/
def AtWork (s : Mgr) (entry idx : Nat) (buf : Option Nat) (plen : Nat) : Prop :=
  s.hashQHashed < s.hashQCount ∧ entry = s.entry s.hashQHashed ∧
    (s.hashQ entry).idx = idx ∧ (s.hashQ entry).buf = buf ∧ (s.hashQ entry).plen = plen

def WorkerSound (c : Config) (m : Machine) : Prop :=
  match m.worker with
  | .idle => True
  | .hash entry idx buf plen => AtWork m.mgr entry idx buf plen
  | .publish entry idx buf plen ok =>
    AtWork m.mgr entry idx buf plen ∧ ok = hashMatches c idx (m.mgr.bytes buf plen)

/-- The torrent thread is in the drain loop of a flush. -/
def Pc.flushing : Pc → Prop
  | .drain true => True
  | .apply _ (.drain true) => True
  | _ => False

/-- A job of a piece of the torrent, with a buffer of its length. -/
def JobSound (c : Config) (job : HashJob) : Prop :=
  job.idx < c.mi.numPieces ∧ job.plen = plenOf c job.idx

structure RingInv (c : Config) (m : Machine) (log : List Event) : Prop where
  hashed_le : m.mgr.hashQHashed ≤ m.mgr.hashQCount
  done_iff : ∀ k, k < m.mgr.hashQCount →
    ((m.mgr.hashQ (m.mgr.entry k)).done = true ↔ k < m.mgr.hashQHashed)
  contents : enqueuedJobs log = poppedJobs log ++ m.mgr.ringJobs
  hashed : hashedJobs log =
    (enqueuedJobs log).take ((poppedJobs log).length + m.mgr.hashQHashed)
  ok : ∀ k, k < m.mgr.hashQHashed → (m.mgr.hashQ (m.mgr.entry k)).ok =
    hashMatches c (m.mgr.hashQ (m.mgr.entry k)).idx
      (m.mgr.bytes (m.mgr.hashQ (m.mgr.entry k)).buf (m.mgr.hashQ (m.mgr.entry k)).plen)
  sound : ∀ k, k < m.mgr.hashQCount → JobSound c (m.mgr.hashQ (m.mgr.entry k))
  worker : WorkerSound c m
  held : ∀ job, m.pc.flight = some job → JobSound c job ∧
    job.ok = hashMatches c job.idx (m.mgr.bytes job.buf job.plen)
  popped : ∀ job ok, Event.popped job ok ∈ log → ok = hashMatches c job.idx job.bytes
  enqueued : ∀ job ∈ enqueuedJobs log, job.idx < c.mi.numPieces ∧ job.plen = plenOf c job.idx ∧
    job.bytes.length = job.plen
  started : 0 < m.mgr.hashQCount → m.mgr.hashStarted = true
  settled : m.pc.flushing → m.mgr.hashQHashed = m.mgr.hashQCount
  flushed : ∀ before after, log = before ++ .flushed :: after →
    poppedJobs before = enqueuedJobs before

section Steps

variable {c : Config} {m m' : Machine} {log events : List Event}

theorem bytes_length (s : Mgr) {buf : Option Nat} (h : buf ≠ none) (n : Nat) :
    (s.bytes buf n).length = n := by
  obtain ⟨b, rfl⟩ := Option.ne_none_iff_exists'.mp h
  simp [Mgr.bytes]

theorem ringJobs_length (s : Mgr) : s.ringJobs.length = s.hashQCount := by
  simp [Mgr.ringJobs]

/-- Storing blocks leaves the bytes of a buffer in the ring alone: such a buffer is in
no slot. -/
theorem bytes_edits {l : Licence} {s s' : Mgr} (owned : Owned s none) (edits : Edits c l s s')
    {k : Nat} (hk : k < s.hashQCount) (n : Nat) :
    s'.bytes (s.hashQ (s.entry k)).buf n = s.bytes (s.hashQ (s.entry k)).buf n := by
  obtain ⟨b, hb⟩ := Option.ne_none_iff_exists'.mp (owned.ringBuf k hk)
  have key : Owned s' none ∧ s'.ring = s.ring ∧ s'.heap b = s.heap b := by
    refine edits.induction (P := fun t => Owned t none ∧ t.ring = s.ring ∧ t.heap b = s.heap b)
      ?_ ⟨owned, rfl, rfl⟩
    rintro t t' ⟨howned, hring, hheap⟩ hedit
    refine ⟨howned.edit hedit, hedit.ring.trans hring, ?_⟩
    cases hedit with
    | block idx offset data b' hidx hopen hbuf =>
      have hne : b ≠ b' := by
        have hin : Refers t none (.ring (s.entry k)) b := by
          have := hring
          simp only [Mgr.ring, Prod.mk.injEq] at this
          obtain ⟨hq, hhead, hcount, _⟩ := this
          have hentry : t.entry k = s.entry k := by simp only [Mgr.entry, hhead]
          rw [← hentry]
          exact .ring (by rw [hcount]; exact hk) (by rw [hentry, hq]; exact hb)
        exact howned.ne (.slot hbuf) hin (by simp)
      rw [(storeBlock_frame c t idx offset data b').2.2.2.2, Function.update_of_ne hne]
      exact hheap
    | flags => exact hheap
    | count idx block f =>
      obtain ⟨counts, hcounts⟩ := setCount_eq c t idx block f
      rw [hcounts]
      exact hheap
    | pending => exact hheap
    | buffer idx alloc =>
      rw [(slotBuf_frame alloc t idx).2.1]
      exact hheap
    | reset idx =>
      rw [(Untouched.resetPiece c t idx).heap]
      exact hheap
    | skipped => exact hheap
    | readable => exact hheap
    | written idx io st =>
      obtain ⟨pool, hpool⟩ := pieceBufPut_eq
        (markPieceDone c { t with store := st } idx (plenOf c idx)) (t.slots idx).buf
      rw [hpool]
      exact hheap
    | refused idx io st =>
      rw [(Untouched.resetPiece c { t with store := st } idx).heap]
      exact hheap
  simp only [hb, Mgr.bytes, key.2.2]

/-- A `flushed` event is either an old one or the first of the new events. -/
theorem flushed_extend
    (old : ∀ before after, log = before ++ .flushed :: after →
      poppedJobs before = enqueuedJobs before)
    (new : ∀ before after, events = before ++ .flushed :: after →
      before = [] ∧ poppedJobs log = enqueuedJobs log) :
    ∀ before after, log ++ events = before ++ .flushed :: after →
      poppedJobs before = enqueuedJobs before := by
  intro before after h
  rcases List.append_eq_append_iff.mp h with ⟨more, rfl, hevents⟩ | ⟨rest, hlog, hrest⟩
  · obtain ⟨rfl, heq⟩ := new more after hevents
    simpa using heq
  · cases rest with
    | nil =>
      rw [List.append_nil] at hlog
      rw [← hlog]
      exact (new [] after hrest.symm).2
    | cons e rest =>
      obtain ⟨rfl, _⟩ := List.cons.inj hrest
      exact old before rest hlog

theorem flushed_without
    (old : ∀ before after, log = before ++ .flushed :: after →
      poppedJobs before = enqueuedJobs before)
    (unflushed : Event.flushed ∉ events) :
    ∀ before after, log ++ events = before ++ .flushed :: after →
      poppedJobs before = enqueuedJobs before := by
  apply flushed_extend old
  rintro before after rfl
  exact absurd (List.mem_append_right before List.mem_cons_self) unflushed

theorem Quiet.not_flushed (quiet : Quiet events) (before after : List Event) :
    events ≠ before ++ .flushed :: after := by
  rintro rfl
  rcases quiet .flushed (by simp) with ⟨idx, status, h⟩ | ⟨value, h⟩
  · cases h
  · cases h

theorem ring_fields {s s' : Mgr} (h : s'.ring = s.ring) :
    s'.hashQ = s.hashQ ∧ s'.hashQCount = s.hashQCount ∧ s'.hashQHashed = s.hashQHashed ∧
      ∀ k, s'.entry k = s.entry k := by
  simp only [Mgr.ring, Prod.mk.injEq] at h
  obtain ⟨hq, hhead, hcount, hhashed⟩ := h
  exact ⟨hq, hcount, hhashed, fun k => by simp only [Mgr.entry, hhead]⟩

/-- What the worker has in hand stays right while its entry and the bytes of its buffer stay. -/
theorem WorkerSound.kept (sound : WorkerSound c m) (worker : m'.worker = m.worker)
    (work : ∀ entry idx buf plen, AtWork m.mgr entry idx buf plen →
      AtWork m'.mgr entry idx buf plen ∧ m'.mgr.bytes buf plen = m.mgr.bytes buf plen) :
    WorkerSound c m' := by
  simp only [WorkerSound, worker] at sound ⊢
  split
  · trivial
  · next entry idx buf plen hw =>
    rw [hw] at sound
    exact (work _ _ _ _ sound).1
  · next entry idx buf plen ok hw =>
    rw [hw] at sound
    obtain ⟨hat, hok⟩ := sound
    rw [(work _ _ _ _ hat).2]
    exact ⟨(work _ _ _ _ hat).1, hok⟩

/-- A step of the torrent thread outside its locked sections: the ring is as it was, and
so are the bytes of the buffers in it. -/
theorem RingInv.outside (h : RingInv c m log) (ring : m'.mgr.ring = m.mgr.ring)
    (bytes : ∀ k, k < m.mgr.hashQCount → ∀ n,
      m'.mgr.bytes (m.mgr.hashQ (m.mgr.entry k)).buf n =
        m.mgr.bytes (m.mgr.hashQ (m.mgr.entry k)).buf n)
    (worker : m'.worker = m.worker)
    (start : m.mgr.hashStarted = true → m'.mgr.hashStarted = true)
    (held : ∀ job, m'.pc.flight = some job → JobSound c job ∧
      job.ok = hashMatches c job.idx (m'.mgr.bytes job.buf job.plen))
    (settled : m'.pc.flushing → m.mgr.hashQHashed = m.mgr.hashQCount)
    (jobs : enqueuedJobs events = [] ∧ hashedJobs events = [] ∧ poppedJobs events = [])
    (pops : ∀ job ok, Event.popped job ok ∉ events)
    (flush : ∀ before after, events = before ++ .flushed :: after →
      before = [] ∧ poppedJobs log = enqueuedJobs log) :
    RingInv c m' (log ++ events) := by
  obtain ⟨hq, hcount, hhashed, hentry⟩ := ring_fields ring
  obtain ⟨henq, hhash, hpop⟩ := jobs
  have hring : m'.mgr.ringJobs = m.mgr.ringJobs := by
    simp only [Mgr.ringJobs, hcount, hq, hentry]
    apply List.map_congr_left
    intro k hk
    simp only [jobOf, bytes k (List.mem_range.mp hk)]
  constructor
  · rw [hhashed, hcount]
    exact h.hashed_le
  · simp only [hq, hcount, hhashed, hentry]
    exact h.done_iff
  · rw [enqueuedJobs_append, poppedJobs_append, henq, hpop, hring]
    simpa using h.contents
  · rw [hashedJobs_append, enqueuedJobs_append, poppedJobs_append, henq, hhash, hpop, hhashed]
    simpa using h.hashed
  · simp only [hq, hhashed, hentry]
    intro k hk
    rw [bytes k (Nat.lt_of_lt_of_le hk h.hashed_le)]
    exact h.ok k hk
  · simp only [hq, hcount, hentry]
    exact h.sound
  · apply h.worker.kept worker
    rintro entry idx buf plen ⟨hlt, rfl, hidx, rfl, hplen⟩
    refine ⟨?_, bytes _ hlt plen⟩
    simp only [AtWork, hq, hcount, hhashed, hentry]
    exact ⟨hlt, trivial, hidx, trivial, hplen⟩
  · exact held
  · intro job ok hmem
    rcases List.mem_append.mp hmem with hmem | hmem
    · exact h.popped job ok hmem
    · exact absurd hmem (pops job ok)
  · rw [enqueuedJobs_append, henq, List.append_nil]
    exact h.enqueued
  · rw [hcount]
    intro hpos
    exact start (h.started hpos)
  · rw [hcount, hhashed]
    exact settled
  · exact flushed_extend h.flushed flush

theorem ringJobs_popHead {s : Mgr} (pos : 0 < s.hashQCount) :
    s.ringJobs = jobOf s (s.hashQ (s.entry 0)) :: s.popHead.ringJobs := by
  obtain ⟨n, hn⟩ : ∃ n, s.hashQCount = n + 1 := ⟨s.hashQCount - 1, by omega⟩
  have hn' : s.popHead.hashQCount = n := by simp [Mgr.popHead, hn]
  rw [Mgr.ringJobs, Mgr.ringJobs, hn, hn', List.range_succ_eq_map, List.map_cons, List.map_map]
  congr 1
  apply List.map_congr_left
  intro k _
  rw [entry_popHead]
  rfl

/-- The head leaves the ring: everything moves up by one place. -/
theorem RingInv.pop (h : RingInv c m log) (buffers : BuffersOwned c m) {next : Resume}
    (from_ : m.pc = next.before) (pos : 0 < m.mgr.hashQCount) (done : m.mgr.headJob.done = true) :
    RingInv c (popStep m next).1 (log ++ (popStep m next).2) := by
  have hhead : m.mgr.headJob = m.mgr.hashQ (m.mgr.entry 0) := by
    rw [Mgr.headJob, entry_zero buffers.head]
  have hhashed : 0 < m.mgr.hashQHashed := by
    rw [hhead] at done
    exact (h.done_iff 0 pos).mp done
  have hle := h.hashed_le
  have hring : m.mgr.ringJobs = jobOf m.mgr m.mgr.headJob :: m.mgr.popHead.ringJobs := by
    rw [hhead]
    exact ringJobs_popHead pos
  constructor
  · simp only [popStep, Mgr.popHead]
    omega
  · intro k hk
    simp only [popStep, entry_popHead]
    simp only [popStep, Mgr.popHead] at hk ⊢
    rw [h.done_iff (k + 1) (by omega)]
    omega
  · have hpopped : poppedJobs (popStep m next).2 = [jobOf m.mgr m.mgr.headJob] := rfl
    have henq : enqueuedJobs (popStep m next).2 = [] := rfl
    rw [enqueuedJobs_append, poppedJobs_append, hpopped, henq, List.append_nil, h.contents, hring]
    simp [popStep]
  · have hpopped : poppedJobs (popStep m next).2 = [jobOf m.mgr m.mgr.headJob] := rfl
    have henq : enqueuedJobs (popStep m next).2 = [] := rfl
    have hhash : hashedJobs (popStep m next).2 = [] := rfl
    rw [hashedJobs_append, enqueuedJobs_append, poppedJobs_append, hpopped, henq, hhash,
      List.append_nil, List.append_nil, h.hashed]
    simp only [List.length_append, List.length_singleton, popStep, Mgr.popHead]
    congr 1
    omega
  · intro k hk
    simp only [popStep, entry_popHead]
    simp only [popStep, Mgr.popHead] at hk
    exact h.ok (k + 1) (by omega)
  · intro k hk
    simp only [popStep, entry_popHead]
    simp only [popStep, Mgr.popHead] at hk
    exact h.sound (k + 1) (by omega)
  · refine h.worker.kept rfl ?_
    rintro entry idx buf plen ⟨hlt, rfl, hrest⟩
    refine ⟨⟨?_, ?_, hrest⟩, rfl⟩
    · simp only [popStep, Mgr.popHead]
      omega
    · simp only [popStep, entry_popHead]
      congr 1
      simp only [Mgr.popHead]
      omega
  · intro job hjob
    cases hjob
    rw [hhead]
    exact ⟨h.sound 0 pos, h.ok 0 hhashed⟩
  · intro job ok hmem
    rcases List.mem_append.mp hmem with hmem | hmem
    · exact h.popped job ok hmem
    · simp only [popStep, List.mem_singleton, Event.popped.injEq] at hmem
      obtain ⟨rfl, rfl⟩ := hmem
      rw [hhead]
      exact h.ok 0 hhashed
  · have henq : enqueuedJobs (popStep m next).2 = [] := rfl
    rw [enqueuedJobs_append, henq, List.append_nil]
    exact h.enqueued
  · intro _
    exact h.started pos
  · intro hflushing
    have hpc : m.pc.flushing := by
      rw [from_]
      cases next with
      | drain flushing =>
        cases flushing with
        | true => trivial
        | false => cases hflushing
      | enqueue idx plen => cases hflushing
    have heq := h.settled hpc
    simp only [popStep, Mgr.popHead, heq]
  · exact flushed_without h.flushed (by simp [popStep])

theorem pushJob_old {s : Mgr} (room : s.hashQCount < hashQueueMax) (idx plen : Nat) {k : Nat}
    (hk : k < s.hashQCount) : (s.pushJob idx plen).hashQ (s.entry k) = s.hashQ (s.entry k) :=
  Function.update_of_ne (entry_ne s (by omega) room (by omega)) _ _

theorem pushJob_new (s : Mgr) (idx plen : Nat) :
    (s.pushJob idx plen).hashQ (s.entry s.hashQCount) =
      ⟨idx, (s.slots idx).buf, plen, false, false⟩ :=
  Function.update_self _ _ _

theorem pushJob_entry (s : Mgr) (idx plen k : Nat) : (s.pushJob idx plen).entry k = s.entry k := rfl

theorem pushJob_ringJobs {s : Mgr} (room : s.hashQCount < hashQueueMax) (idx plen : Nat) :
    (s.pushJob idx plen).ringJobs =
      s.ringJobs ++ [⟨idx, (s.slots idx).buf, plen, s.bytes (s.slots idx).buf plen⟩] := by
  have hcount : (s.pushJob idx plen).hashQCount = s.hashQCount + 1 := rfl
  have hbytes : ∀ b n, (s.pushJob idx plen).bytes b n = s.bytes b n := fun _ _ => rfl
  simp only [Mgr.ringJobs, hcount, List.range_succ, List.map_append, List.map_singleton,
    pushJob_entry]
  congr 1
  · apply List.map_congr_left
    intro k hk
    simp only [jobOf, pushJob_old room idx plen (List.mem_range.mp hk), hbytes]
  · simp only [jobOf, pushJob_new, hbytes]

/-- A job enters the ring behind all others. -/
theorem RingInv.push (h : RingInv c m log) (buffers : BuffersOwned c m) {idx plen : Nat}
    (entering : m.pc.entering = some (idx, plen)) (room : m.mgr.hashQCount < hashQueueMax) :
    RingInv c (pushStep m idx plen).1 (log ++ (pushStep m idx plen).2) := by
  obtain ⟨⟨hidx, _, hbuf, _⟩, hplen, hstarted⟩ := buffers.entering idx plen entering
  have hle := h.hashed_le
  have hcount : (m.mgr.pushJob idx plen).hashQCount = m.mgr.hashQCount + 1 := rfl
  have hhashed : (m.mgr.pushJob idx plen).hashQHashed = m.mgr.hashQHashed := rfl
  have hbytes : ∀ b n, (m.mgr.pushJob idx plen).bytes b n = m.mgr.bytes b n := fun _ _ => rfl
  have henq : enqueuedJobs (pushStep m idx plen).2 =
      [⟨idx, (m.mgr.slots idx).buf, plen, m.mgr.bytes (m.mgr.slots idx).buf plen⟩] := rfl
  have hhash : hashedJobs (pushStep m idx plen).2 = [] := rfl
  have hpop : poppedJobs (pushStep m idx plen).2 = [] := rfl
  constructor
  · simp only [pushStep, hcount, hhashed]
    omega
  · intro k hk
    simp only [pushStep, hcount, hhashed, pushJob_entry] at hk ⊢
    by_cases hlast : k = m.mgr.hashQCount
    · subst hlast
      rw [pushJob_new]
      simp only [Bool.false_eq_true, false_iff]
      omega
    · rw [pushJob_old room idx plen (by omega)]
      exact h.done_iff k (by omega)
  · rw [enqueuedJobs_append, poppedJobs_append, henq, hpop, List.append_nil, h.contents]
    simp only [pushStep, pushJob_ringJobs room, List.append_assoc]
  · have hlen : (poppedJobs log).length + m.mgr.hashQHashed ≤ (enqueuedJobs log).length := by
      rw [h.contents, List.length_append, ringJobs_length]
      omega
    rw [hashedJobs_append, enqueuedJobs_append, poppedJobs_append, hhash, hpop, List.append_nil,
      List.append_nil, h.hashed, List.take_append_of_le_length
      (by simpa [pushStep, hhashed] using hlen)]
    simp only [pushStep, hhashed]
  · intro k hk
    simp only [pushStep, hhashed, pushJob_entry, hbytes] at hk ⊢
    rw [pushJob_old room idx plen (by omega)]
    exact h.ok k hk
  · intro k hk
    simp only [pushStep, hcount, pushJob_entry] at hk ⊢
    by_cases hlast : k = m.mgr.hashQCount
    · subst hlast
      rw [pushJob_new]
      exact ⟨hidx, hplen⟩
    · rw [pushJob_old room idx plen (by omega)]
      exact h.sound k (by omega)
  · refine h.worker.kept rfl ?_
    rintro entry idx' buf plen' ⟨hlt, rfl, hrest⟩
    refine ⟨⟨?_, rfl, ?_⟩, rfl⟩
    · simp only [pushStep, hcount, hhashed]
      omega
    · simp only [pushStep]
      rw [pushJob_old room idx plen hlt]
      exact hrest
  · intro job hjob
    cases hjob
  · intro job ok hmem
    rcases List.mem_append.mp hmem with hmem | hmem
    · exact h.popped job ok hmem
    · simp [pushStep] at hmem
  · intro job hmem
    rw [enqueuedJobs_append, henq] at hmem
    rcases List.mem_append.mp hmem with hmem | hmem
    · exact h.enqueued job hmem
    · rw [List.mem_singleton.mp hmem]
      exact ⟨hidx, hplen, bytes_length m.mgr hbuf plen⟩
  · intro _
    exact hstarted
  · intro hflushing
    cases hflushing
  · exact flushed_without h.flushed (by simp [pushStep])

/-- The worker moves without touching the ring. -/
theorem RingInv.working (h : RingInv c m log) {w : Worker}
    (sound : WorkerSound c { m with worker := w }) : RingInv c { m with worker := w } log :=
  ⟨h.hashed_le, h.done_iff, h.contents, h.hashed, h.ok, h.sound, sound, h.held, h.popped,
    h.enqueued, h.started, h.settled, h.flushed⟩

theorem publish_other {s : Mgr} (count : s.hashQCount ≤ hashQueueMax) {j k : Nat} (ok : Bool)
    (hj : j < s.hashQCount) (hk : k < s.hashQCount) (hne : k ≠ j) :
    (s.publish (s.entry j) ok).hashQ (s.entry k) = s.hashQ (s.entry k) :=
  Function.update_of_ne (entry_ne s (by omega) (by omega) hne) _ _

theorem publish_self (s : Mgr) (entry : Nat) (ok : Bool) :
    (s.publish entry ok).hashQ entry = { s.hashQ entry with ok := ok, done := true } :=
  Function.update_self _ _ _

theorem publish_entry (s : Mgr) (entry : Nat) (ok : Bool) (k : Nat) :
    (s.publish entry ok).entry k = s.entry k := rfl

theorem publish_ringJobs {s : Mgr} (count : s.hashQCount ≤ hashQueueMax) {j : Nat} (ok : Bool)
    (hj : j < s.hashQCount) : (s.publish (s.entry j) ok).ringJobs = s.ringJobs := by
  have hcount : (s.publish (s.entry j) ok).hashQCount = s.hashQCount := rfl
  simp only [Mgr.ringJobs, hcount, publish_entry]
  apply List.map_congr_left
  intro k hk
  by_cases hlast : k = j
  · subst hlast
    rw [publish_self]
    rfl
  · rw [publish_other count ok hj (List.mem_range.mp hk) hlast]
    rfl

/-- The worker writes its result to the entry it took the job from. -/
theorem RingInv.publish (h : RingInv c m log) (buffers : BuffersOwned c m) {entry idx plen : Nat}
    {buf : Option Nat} {ok : Bool} (worker : m.worker = .publish entry idx buf plen ok) :
    RingInv c ⟨m.mgr.publish entry ok, m.pc, .idle⟩
      (log ++ [.hashed ⟨idx, buf, plen, m.mgr.bytes buf plen⟩]) := by
  have hwork := h.worker
  simp only [WorkerSound, worker] at hwork
  obtain ⟨⟨hlt, rfl, hidx, hbuf, hplen⟩, hok⟩ := hwork
  have hmax := buffers.count
  have hcount : (m.mgr.publish (m.mgr.entry m.mgr.hashQHashed) ok).hashQCount = m.mgr.hashQCount :=
    rfl
  have hhashed : (m.mgr.publish (m.mgr.entry m.mgr.hashQHashed) ok).hashQHashed =
      m.mgr.hashQHashed + 1 := rfl
  have hbytes : ∀ b n, (m.mgr.publish (m.mgr.entry m.mgr.hashQHashed) ok).bytes b n =
      m.mgr.bytes b n := fun _ _ => rfl
  constructor
  · exact hlt
  · intro k hk
    simp only [hcount, hhashed, publish_entry] at hk ⊢
    by_cases hlast : k = m.mgr.hashQHashed
    · subst hlast
      rw [publish_self]
      simp
    · rw [publish_other hmax ok hlt hk hlast, h.done_iff k hk]
      omega
  · rw [enqueuedJobs_append, poppedJobs_append]
    simp only [publish_ringJobs hmax ok hlt]
    simpa [enqueuedJobs, poppedJobs] using h.contents
  · have hpos : (poppedJobs log).length + m.mgr.hashQHashed < (enqueuedJobs log).length := by
      rw [h.contents, List.length_append, ringJobs_length]
      omega
    have hnext : (enqueuedJobs log)[(poppedJobs log).length + m.mgr.hashQHashed]? =
        some ⟨idx, buf, plen, m.mgr.bytes buf plen⟩ := by
      rw [h.contents, List.getElem?_append_right (by omega), Nat.add_sub_cancel_left, Mgr.ringJobs,
        List.getElem?_map, List.getElem?_range hlt]
      simp only [Option.map_some, jobOf, hidx, hbuf, hplen]
    have hquiet : enqueuedJobs [Event.hashed ⟨idx, buf, plen, m.mgr.bytes buf plen⟩] = [] ∧
        poppedJobs [Event.hashed ⟨idx, buf, plen, m.mgr.bytes buf plen⟩] = [] := ⟨rfl, rfl⟩
    rw [hashedJobs_append, enqueuedJobs_append, poppedJobs_append, hquiet.1, hquiet.2,
      List.append_nil, List.append_nil, h.hashed]
    simp only [hhashed]
    rw [← Nat.add_assoc, List.take_add_one, hnext]
    rfl
  · intro k hk
    simp only [hhashed, publish_entry, hbytes] at hk ⊢
    by_cases hlast : k = m.mgr.hashQHashed
    · subst hlast
      rw [publish_self]
      simp only [hidx, hbuf, hplen]
      exact hok
    · rw [publish_other hmax ok hlt (by omega) hlast]
      exact h.ok k (by omega)
  · intro k hk
    simp only [hcount, publish_entry] at hk ⊢
    by_cases hlast : k = m.mgr.hashQHashed
    · subst hlast
      rw [publish_self]
      exact h.sound _ hlt
    · rw [publish_other hmax ok hlt hk hlast]
      exact h.sound k hk
  · trivial
  · exact h.held
  · intro job ok' hmem
    rcases List.mem_append.mp hmem with hmem | hmem
    · exact h.popped job ok' hmem
    · simp at hmem
  · rw [enqueuedJobs_append]
    simpa [enqueuedJobs] using h.enqueued
  · exact h.started
  · intro hflushing
    have := h.settled hflushing
    omega
  · exact flushed_without h.flushed (by simp)

end Steps

/-- The events of a call before its first wait: at most its return, or the return of a
flush without a worker. -/
theorem start_events (c : Config) (s : Mgr) (env : Env) (call : Call) :
    ¬ (start c s env call).2.1.flushing ∧
      (Quiet (start c s env call).2.2 ∨
        ((start c s env call).2.2 = [.flushed] ∧ s.hashStarted = false)) := by
  have one : ∀ value, Quiet [.returned value] := by
    intro value e he
    exact Or.inr ⟨value, List.mem_singleton.mp he⟩
  have none : Quiet [] := by
    intro e he
    cases he
  cases call with
  | gotBlock idx offset data =>
    simp only [start]
    split
    · exact ⟨id, Or.inl (one _)⟩
    · exact ⟨id, Or.inl none⟩
  | drainHashResults =>
    simp only [start]
    split
    · exact ⟨id, Or.inl none⟩
    · exact ⟨id, Or.inl (one _)⟩
  | hashFlush =>
    simp only [start]
    split
    · exact ⟨id, Or.inl none⟩
    · next hstarted => exact ⟨id, Or.inr ⟨rfl, by simpa using hstarted⟩⟩
  | _ => exact ⟨id, Or.inl (one _)⟩

theorem RingInv.settle {c : Config} {m : Machine} {log : List Event} (h : RingInv c m log)
    (empty : m.mgr.hashQCount = 0) : poppedJobs log = enqueuedJobs log := by
  have hring : m.mgr.ringJobs = [] := by simp [Mgr.ringJobs, empty]
  rw [h.contents, hring, List.append_nil]

theorem singleton_flushed {log : List Event} (heq : poppedJobs log = enqueuedJobs log) :
    ∀ before after, [Event.flushed] = before ++ .flushed :: after →
      before = [] ∧ poppedJobs log = enqueuedJobs log := by
  intro before after h
  cases before with
  | nil => exact ⟨rfl, heq⟩
  | cons e rest => simp at h

theorem RingInv.call {c : Config} {m : Machine} {log : List Event} (h : RingInv c m log)
    (buffers : BuffersOwned c m) (call : Call) (env : Env) (hpc : m.pc = .idle) :
    RingInv c ⟨(start c m.mgr env call).1, (start c m.mgr env call).2.1, m.worker⟩
      (log ++ (start c m.mgr env call).2.2) := by
  obtain ⟨hedits, _⟩ := start_edits c m.mgr env call
  obtain ⟨hflushing, hevents⟩ := start_events c m.mgr env call
  have howned : Owned m.mgr none := by
    have := buffers.owned
    rwa [hpc] at this
  refine h.outside hedits.ring (fun k hk n => bytes_edits howned hedits hk n) rfl hedits.started
    ?_ (fun hp => absurd hp hflushing) ?_ ?_ ?_
  · intro job hjob
    rw [(start_pc c m.mgr env call).1] at hjob
    cases hjob
  · rcases hevents with hquiet | ⟨hflush, _⟩
    · exact hquiet.jobs
    · rw [hflush]
      exact ⟨rfl, rfl, rfl⟩
  · intro job ok hmem
    rcases hevents with hquiet | ⟨hflush, _⟩
    · rcases hquiet _ hmem with ⟨idx, status, he⟩ | ⟨value, he⟩
      · cases he
      · cases he
    · rw [hflush] at hmem
      simp at hmem
  · intro before after heq
    rcases hevents with hquiet | ⟨hflush, hstarted⟩
    · exact absurd heq (hquiet.not_flushed before after)
    · have hempty : m.mgr.hashQCount = 0 := by
        by_contra hne
        have := h.started (by omega)
        rw [hstarted] at this
        cases this
      rw [hflush] at heq
      exact singleton_flushed (h.settle hempty) before after heq

theorem RingInv.drained {c : Config} {m : Machine} {log : List Event} (h : RingInv c m log)
    (buffers : BuffersOwned c m) {flushing : Bool} (hpc : m.pc = .drain flushing)
    (hempty : m.mgr.hashQCount = 0 ∨ m.mgr.headJob.done = false) :
    RingInv c { m with pc := .idle } (log ++ [if flushing then .flushed else .returned 0]) := by
  refine h.outside rfl (fun _ _ _ => rfl) rfl id ?_ ?_ ?_ ?_ ?_
  · intro job hjob
    cases hjob
  · intro hp
    cases hp
  · cases flushing with
    | true => exact ⟨rfl, rfl, rfl⟩
    | false => exact ⟨rfl, rfl, rfl⟩
  · intro job ok hmem
    cases flushing with
    | true => simp at hmem
    | false => simp at hmem
  · intro before after heq
    cases flushing with
    | false =>
      have hmem : Event.flushed ∈ [Event.returned 0] := by
        simp only [Bool.false_eq_true, if_false] at heq
        rw [heq]
        simp
      simp at hmem
    | true =>
      have hsettled := h.settled (by rw [hpc]; trivial)
      have hzero : m.mgr.hashQCount = 0 := by
        rcases hempty with hzero | hdone
        · exact hzero
        · by_contra hne
          have hhead := (h.done_iff 0 (by omega)).mpr (by omega)
          rw [entry_zero buffers.head] at hhead
          rw [Mgr.headJob, hhead] at hdone
          cases hdone
      simp only [if_true] at heq
      exact singleton_flushed (h.settle hzero) before after heq

theorem RingInv.apply {c : Config} {m : Machine} {log : List Event} (h : RingInv c m log)
    (io : Storage.Faults) {job : HashJob} {next : Resume} (hpc : m.pc = .apply job next) :
    RingInv c ⟨(hashApply c io m.mgr job).1, next.pc, m.worker⟩
      (log ++ (hashApply c io m.mgr job).2.toList.map (fun p => .report p.1 p.2)) := by
  have happlied := hashApply_applied c io m.mgr job
  obtain ⟨hring, hheap, hstarted⟩ := happlied.ring
  have hquiet : Quiet ((hashApply c io m.mgr job).2.toList.map
      (fun p => Event.report p.1 p.2)) := by
    intro e he
    obtain ⟨p, _, rfl⟩ := List.mem_map.mp he
    exact Or.inl ⟨p.1, p.2, rfl⟩
  refine h.outside hring ?_ rfl ?_ ?_ ?_ hquiet.jobs ?_ ?_
  · intro k _ n
    simp only [Mgr.bytes, hheap]
  · intro hs
    rw [hstarted]
    exact hs
  · intro job' hjob
    cases next with
    | drain flushing => cases hjob
    | enqueue idx plen => cases hjob
  · intro hflushing
    apply h.settled
    rw [hpc]
    cases next with
    | drain flushing =>
      cases flushing with
      | true => trivial
      | false => cases hflushing
    | enqueue idx plen => cases hflushing
  · intro job' ok hmem
    rcases hquiet _ hmem with ⟨idx, status, he⟩ | ⟨value, he⟩
    · cases he
    · cases he
  · intro before after heq
    exact absurd heq (hquiet.not_flushed before after)

theorem RingInv.transition {c : Config} {m m' : Machine} {act : Act} {log events : List Event}
    (h : RingInv c m log) (buffers : BuffersOwned c m) (t : Transition c m act m' events) :
    RingInv c m' (log ++ events) := by
  cases t with
  | call call env hpc => exact h.call buffers call env hpc
  | drained flushing hpc hempty => exact h.drained buffers hpc hempty
  | pop next hpc hpos hdone => exact h.pop buffers hpc hpos hdone
  | awaited hpc hall =>
    refine h.outside rfl (fun _ _ _ => rfl) rfl id ?_ ?_ ⟨rfl, rfl, rfl⟩ ?_ ?_
    · intro job hjob
      cases hjob
    · intro _
      exact Nat.le_antisymm h.hashed_le hall
    · intro job ok hmem
      cases hmem
    · intro before after heq
      simp at heq
  | push idx plen hpc =>
    obtain ⟨_, hentering, hroom, _⟩ := buffers.pushing hpc
    exact h.push buffers hentering hroom
  | apply io job next hpc => exact h.apply io hpc
  | take _ hmore =>
    rw [List.append_nil]
    have hlt := Nat.lt_of_le_of_ne h.hashed_le hmore
    exact h.working ⟨hlt, rfl, rfl, rfl, rfl⟩
  | hash entry idx buf plen hw =>
    rw [List.append_nil]
    have hwork := h.worker
    simp only [WorkerSound, hw] at hwork
    exact h.working ⟨hwork, rfl⟩
  | publish entry idx buf plen ok hw => exact h.publish buffers hw

theorem ringInv_initial (c : Config) (hashOk : Bool) (heap : Nat → Nat → UInt8)
    (store : Storage.Store) : RingInv c (initial c hashOk heap store) [] := by
  constructor
  · exact Nat.le_refl 0
  · intro k hk
    cases hk
  · rfl
  · rfl
  · intro k hk
    cases hk
  · intro k hk
    cases hk
  · trivial
  · intro job hjob
    cases hjob
  · intro job ok hmem
    cases hmem
  · intro job hmem
    cases hmem
  · intro hpos
    cases hpos
  · intro hflushing
    cases hflushing
  · intro before after h
    simp at h

/-- The two invariants together, in every state of every run. -/
theorem run_ringInv {c : Config} {hashOk : Bool} {heap : Nat → Nat → UInt8} {store : Storage.Store}
    {acts : List Act} {m : Machine} {log : List Event}
    (h : run c (initial c hashOk heap store) acts = some (m, log)) :
    BuffersOwned c m ∧ RingInv c m log := by
  refine run_induction (fun m log => BuffersOwned c m ∧ RingInv c m log) (fun _ => True) ?_ []
    h (fun _ _ => trivial)
    ⟨buffersOwned_initial c hashOk heap store, ringInv_initial c hashOk heap store⟩
  rintro m log act m' events ⟨hbuffers, hring⟩ _ hstep
  have ht := step_transition hstep
  exact ⟨hbuffers.transition ht, hring.transition hbuffers ht⟩

/-- What the two threads rely on. `log` is everything that has happened so far. -/
structure RingSafe (c : Config) (m : Machine) (log : List Event) : Prop where
  counters : m.mgr.hashQHashed ≤ m.mgr.hashQCount ∧ m.mgr.hashQCount ≤ hashQueueMax
  done_iff : ∀ k, k < m.mgr.hashQCount →
    ((m.mgr.hashQ (m.mgr.entry k)).done = true ↔ k < m.mgr.hashQHashed)
  lengths : ∀ job ∈ enqueuedJobs log, job.idx < c.mi.numPieces ∧ job.bytes.length = job.plen
  popped : poppedJobs log <+: hashedJobs log
  hashed : hashedJobs log <+: enqueuedJobs log
  flushed : ∀ before after, log = before ++ .flushed :: after →
    poppedJobs before = enqueuedJobs before
  ok : ∀ job ok, Event.popped job ok ∈ log →
    (ok = true ↔ c.sha1 job.bytes = expectedHash c.mi job.idx)
  applied : ∀ job next, m.pc = .apply job next →
    (job.ok = true ↔ c.sha1 (m.mgr.bytes job.buf job.plen) = expectedHash c.mi job.idx)
  result : ∀ entry idx buf plen ok, m.worker = .publish entry idx buf plen ok →
    (∃ k, k < m.mgr.hashQCount ∧ entry = m.mgr.entry k) ∧
    (m.mgr.hashQ entry).done = false ∧
    (enqueuedJobs log)[(hashedJobs log).length]? = some (jobOf m.mgr (m.mgr.hashQ entry)) ∧
    jobOf m.mgr (m.mgr.hashQ entry) = ⟨idx, buf, plen, m.mgr.bytes buf plen⟩

theorem hashMatches_iff {c : Config} {idx : Nat} {bytes : List UInt8} :
    hashMatches c idx bytes = true ↔ c.sha1 bytes = expectedHash c.mi idx := by
  simp [hashMatches]

/-- Every interleaving of the two threads keeps the ring safe. -/
theorem run_ringSafe {c : Config} {hashOk : Bool} {heap : Nat → Nat → UInt8} {store : Storage.Store}
    {acts : List Act} {m : Machine} {log : List Event}
    (h : run c (initial c hashOk heap store) acts = some (m, log)) : RingSafe c m log := by
  obtain ⟨hbuffers, hring⟩ := run_ringInv h
  have hlen : (poppedJobs log).length + m.mgr.hashQHashed ≤ (enqueuedJobs log).length := by
    have := hring.hashed_le
    rw [hring.contents, List.length_append, ringJobs_length]
    omega
  constructor
  · exact ⟨hring.hashed_le, hbuffers.count⟩
  · exact hring.done_iff
  · intro job hmem
    obtain ⟨hidx, _, hbytes⟩ := hring.enqueued job hmem
    exact ⟨hidx, hbytes⟩
  · -- the popped jobs are the part of the finished jobs that is no longer in the ring
    have hpopped : poppedJobs log = (enqueuedJobs log).take (poppedJobs log).length := by
      rw [hring.contents, List.take_left]
    rw [hring.hashed, hpopped, List.length_take]
    apply List.take_prefix_take_left
    omega
  · rw [hring.hashed]
    exact List.take_prefix _ _
  · exact hring.flushed
  · intro job ok hmem
    rw [hring.popped job ok hmem, hashMatches_iff]
  · intro job next hpc
    obtain ⟨_, hok⟩ := hring.held job (by rw [hpc]; rfl)
    rw [hok, hashMatches_iff]
  · intro entry idx buf plen ok hw
    have hwork := hring.worker
    simp only [WorkerSound, hw] at hwork
    obtain ⟨⟨hlt, rfl, hidx, hbuf, hplen⟩, _⟩ := hwork
    refine ⟨⟨m.mgr.hashQHashed, hlt, rfl⟩, ?_, ?_, ?_⟩
    · have hnot := (hring.done_iff _ hlt).not.mpr (Nat.lt_irrefl _)
      simpa using hnot
    · rw [hring.hashed, List.length_take, Nat.min_eq_left hlen, hring.contents,
        List.getElem?_append_right (by omega), Nat.add_sub_cancel_left, Mgr.ringJobs,
        List.getElem?_map, List.getElem?_range hlt]
      rfl
    · simp only [jobOf, hidx, hbuf, hplen]

/-! A run through all of it: three pieces of one zero byte each, the last with a hash that
does not fit, so that the ring fills up and the torrent thread has to wait for its head. -/

/-- The SHA-1 of one zero byte. -/
def zeroDigest : List UInt8 :=
  [91, 169, 60, 157, 176, 207, 249, 63, 82, 181, 33, 215, 66, 14, 67, 246, 237, 162, 120, 79]

def threePieces : TorrentFile.Metainfo :=
  { TorrentFile.Metainfo.zero with
    name := [97], pieceLength := 1, numPieces := 3, totalLength := 3, numFiles := 1
    pieceHashes := .live (zeroDigest ++ zeroDigest ++ List.replicate 20 0)
    files := .live [⟨[97], 3, 0⟩] }

def threeConfig : Config := ⟨threePieces, fun _ => zeroDigest, false, []⟩

def threeStore : Storage.Store := ⟨[⟨0, 3, .disk, false, 0, some []⟩], [], none⟩

/-- The system answers every request. -/
def willing : Env := ⟨true, true, fun _ => ⟨true, 2 ^ 28, true⟩⟩

def receive (idx : Nat) : Act := .call (.gotBlock idx 0 (some [0])) willing

def fullRing : List Act :=
  [receive 0, .lock, receive 1, .lock, receive 2, .worker, .worker, .worker, .lock,
    .apply willing.io, .lock, .call .hashFlush willing, .worker, .worker, .worker, .worker,
    .worker, .worker, .lock, .lock, .apply willing.io, .lock, .apply willing.io, .lock]

theorem run_ringSafe_full : ∃ m log,
    run threeConfig (initial threeConfig true (fun _ _ => 7) threeStore) fullRing = some (m, log) ∧
      (poppedJobs log).length = 3 ∧ RingSafe threeConfig m log := by
  have hrun : (run threeConfig (initial threeConfig true (fun _ _ => 7) threeStore) fullRing).map
      (fun r => (poppedJobs r.2).length) = some 3 := by decide +kernel
  obtain ⟨⟨m, log⟩, hsome, hlen⟩ := Option.map_eq_some_iff.mp hrun
  exact ⟨m, log, hsome, hlen, run_ringSafe hsome⟩

end PieceManager
