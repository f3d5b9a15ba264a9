import Pipensx.PieceManager

/-!
# The two threads of the piece manager

The torrent thread calls the functions of `core/piece.c` one after the other; the hash
worker runs beside it. A section between `pthread_mutex_lock` and the next unlock is one
step, and so is a stretch of code between two such sections. A thread that waits on a
condition variable has no step until its condition holds.

`step` is a function: an action says which thread moves and what the system answers. The
events of a step are what the ring does to jobs, the calls of `hash_result_cb` and the
returns of calls; they are recorded beside the state and never read by it.
-/

namespace PieceManager

/-- The calls the torrent thread makes. -/
inductive Call where
  | markPending (idx : Nat)
  | gotBlock (idx offset : Nat) (data : Option (List UInt8))
  | drainHashResults
  | hashFlush
  | verifyPiece (idx : Nat)
  | checkExisting (idx : Nat)
  | presetHave (bf : Option (Nat → UInt8)) (bfLen : Nat)
  | markBlockRequested (idx block : Nat)
  | clearBlockRequested (idx block : Nat)
  | setStrictPolicy (lookahead : Nat) (fillPendingFirst : Bool)

/-- Where `hash_apply` returns to: the loop of `piece_mgr_drain_hash_results`, called by
itself or by `piece_mgr_hash_flush`, or `hash_enqueue` with the piece it was called for. -/
inductive Resume where
  | drain (flushing : Bool)
  | enqueue (idx plen : Nat)
  deriving DecidableEq

/-- What the torrent thread does next: nothing; the locked part of the drain loop; the
wait of the flush; the first locked part of `hash_enqueue`; `hash_apply` of a job it has
taken off the ring; or the second locked part of `hash_enqueue`. -/
inductive Pc where
  | idle
  | drain (flushing : Bool)
  | flush
  | enqueue (idx plen : Nat)
  | apply (job : HashJob) (next : Resume)
  | put (idx plen : Nat)
  deriving DecidableEq

/-- The job the torrent thread holds between the ring and `hash_apply`. -/
def Pc.flight : Pc → Option HashJob
  | .apply job _ => some job
  | _ => none

/-- The piece the torrent thread is about to put into the ring, and its length. -/
def Pc.entering : Pc → Option (Nat × Nat)
  | .enqueue idx plen => some (idx, plen)
  | .put idx plen => some (idx, plen)
  | .apply _ (.enqueue idx plen) => some (idx, plen)
  | _ => none

/-- `hash_enqueue` is past its wait, and has made room in the ring. -/
def Pc.tookHead : Pc → Prop
  | .put _ _ => True
  | .apply _ (.enqueue _ _) => True
  | _ => False

/-- What the worker does next: take a job; hash the buffer it has read from the job;
write the result to the ring entry it has a pointer to. -/
inductive Worker where
  | idle
  | hash (entry idx : Nat) (buf : Option Nat) (plen : Nat)
  | publish (entry idx : Nat) (buf : Option Nat) (plen : Nat) (ok : Bool)
  deriving DecidableEq

/-- A job as it is known outside the ring: its piece, its buffer and the bytes in it. -/
structure Job where
  idx : Nat
  buf : Option Nat
  plen : Nat
  bytes : List UInt8
  deriving DecidableEq

inductive Event where
  | enqueued (job : Job)
  | hashed (job : Job)
  | popped (job : Job) (ok : Bool)
  | report (idx : Nat) (status : Int)
  | flushed
  | returned (value : Int)

structure Machine where
  mgr : Mgr
  pc : Pc
  worker : Worker

inductive Act where
  | call (call : Call) (env : Env)
  | lock
  | apply (io : Storage.Faults)
  | worker

def jobOf (s : Mgr) (job : HashJob) : Job :=
  ⟨job.idx, job.buf, job.plen, s.bytes job.buf job.plen⟩

/-- The entry `k` places after the head. -/
def Mgr.entry (s : Mgr) (k : Nat) : Nat := (s.hashQHead + k) % hashQueueMax

/-- The job at the head. -/
def Mgr.headJob (s : Mgr) : HashJob := s.hashQ s.hashQHead

/-- Take the head off the ring. -/
def Mgr.popHead (s : Mgr) : Mgr :=
  { s with
    hashQHead := (s.hashQHead + 1) % hashQueueMax
    hashQCount := s.hashQCount - 1
    hashQHashed := s.hashQHashed - 1 }

/-- The end of `hash_enqueue`: the buffer of the slot goes into the ring. -/
def Mgr.pushJob (s : Mgr) (idx plen : Nat) : Mgr :=
  let job := ⟨idx, (s.slots idx).buf, plen, false, false⟩
  let s1 := { s with
    hashQ := Function.update s.hashQ (s.entry s.hashQCount) job
    hashQCount := s.hashQCount + 1 }
  s1.setSlot idx (fun sl => { sl with buf := none, state := .hashing })

/-- The second locked section of the worker. -/
def Mgr.publish (s : Mgr) (entry : Nat) (ok : Bool) : Mgr :=
  { s with
    hashQ := Function.update s.hashQ entry { s.hashQ entry with ok := ok, done := true }
    hashQHashed := s.hashQHashed + 1 }

/-- A call up to its return or its first wait. -/
def start (c : Config) (s : Mgr) (env : Env) : Call → Mgr × Pc × List Event
  | .markPending idx => (markPending c env.alloc s idx, .idle, [.returned 0])
  | .gotBlock idx offset data =>
    match gotBlock c env s idx offset data with
    | (s', some r) => (s', .idle, [.returned r])
    | (s', none) => (s', .enqueue idx (plenOf c idx), [])
  | .drainHashResults =>
    if s.hashStarted then (s, .drain false, []) else (s, .idle, [.returned 0])
  | .hashFlush => if s.hashStarted then (s, .flush, []) else (s, .idle, [.flushed])
  | .verifyPiece idx =>
    let r := verifyPiece c env.alloc s idx
    (r.1, .idle, [.returned r.2])
  | .checkExisting idx =>
    let r := checkExisting c env.alloc s idx
    (r.1, .idle, [.returned r.2])
  | .presetHave bf bfLen => (presetHave c s bf bfLen, .idle, [.returned 0])
  | .markBlockRequested idx block => (markBlockRequested c s idx block, .idle, [.returned 0])
  | .clearBlockRequested idx block => (clearBlockRequested c s idx block, .idle, [.returned 0])
  | .setStrictPolicy lookahead fillPendingFirst =>
    (setStrictPolicy s lookahead fillPendingFirst, .idle, [.returned 0])

/-! What the calls that may wait do to the pieces before they do. -/

theorem start_gotBlock (c : Config) (s : Mgr) (env : Env) (idx offset : Nat)
    (data : Option (List UInt8)) :
    (start c s env (.gotBlock idx offset data)).1 = (gotBlock c env s idx offset data).1 := by
  simp only [start]
  split
  · next heq => rw [heq]
  · next heq => rw [heq]

theorem start_drainHashResults (c : Config) (s : Mgr) (env : Env) :
    (start c s env .drainHashResults).1 = s := by
  simp only [start]
  split
  · rfl
  · rfl

theorem start_hashFlush (c : Config) (s : Mgr) (env : Env) : (start c s env .hashFlush).1 = s := by
  simp only [start]
  split
  · rfl
  · rfl

/-- A call waits for the ring, if at all, with nothing taken off it yet. -/
theorem start_pc (c : Config) (s : Mgr) (env : Env) (call : Call) :
    (start c s env call).2.1.flight = none ∧ ¬ (start c s env call).2.1.tookHead := by
  cases call with
  | gotBlock idx offset data =>
    simp only [start]
    split
    · exact ⟨rfl, id⟩
    · exact ⟨rfl, id⟩
  | drainHashResults =>
    simp only [start]
    split
    · exact ⟨rfl, id⟩
    · exact ⟨rfl, id⟩
  | hashFlush =>
    simp only [start]
    split
    · exact ⟨rfl, id⟩
    · exact ⟨rfl, id⟩
  | _ => exact ⟨rfl, id⟩

/-- The torrent thread takes the head job and goes on to apply it. -/
def popStep (m : Machine) (next : Resume) : Machine × List Event :=
  (⟨m.mgr.popHead, .apply m.mgr.headJob next, m.worker⟩,
    [.popped (jobOf m.mgr m.mgr.headJob) m.mgr.headJob.ok])

/-- The torrent thread puts the piece into the ring and returns 1 from got_block. -/
def pushStep (m : Machine) (idx plen : Nat) : Machine × List Event :=
  (⟨m.mgr.pushJob idx plen, .idle, m.worker⟩,
    [.enqueued ⟨idx, (m.mgr.slots idx).buf, plen, m.mgr.bytes (m.mgr.slots idx).buf plen⟩,
      .returned 1])

/-- The next locked section of the torrent thread. -/
def lockStep (m : Machine) : Option (Machine × List Event) :=
  match m.pc with
  | .drain flushing =>
    if m.mgr.hashQCount = 0 ∨ m.mgr.headJob.done = false then
      some ({ m with pc := .idle }, [if flushing then .flushed else .returned 0])
    else some (popStep m (.drain flushing))
  | .flush =>
    if m.mgr.hashQHashed < m.mgr.hashQCount then none
    else some ({ m with pc := .drain true }, [])
  | .enqueue idx plen =>
    if m.mgr.hashQCount = hashQueueMax then
      if m.mgr.headJob.done = false then none else some (popStep m (.enqueue idx plen))
    else some (pushStep m idx plen)
  | .put idx plen => some (pushStep m idx plen)
  | _ => none

def Resume.pc : Resume → Pc
  | .drain flushing => .drain flushing
  | .enqueue idx plen => .put idx plen

def workerStep (c : Config) (m : Machine) : Option (Machine × List Event) :=
  match m.worker with
  | .idle =>
    if m.mgr.hashStarted = false ∨ m.mgr.hashQHashed = m.mgr.hashQCount then none
    else
      let entry := m.mgr.entry m.mgr.hashQHashed
      let job := m.mgr.hashQ entry
      some ({ m with worker := .hash entry job.idx job.buf job.plen }, [])
  | .hash entry idx buf plen =>
    let ok := hashMatches c idx (m.mgr.bytes buf plen)
    some ({ m with worker := .publish entry idx buf plen ok }, [])
  | .publish entry idx buf plen ok =>
    some (⟨m.mgr.publish entry ok, m.pc, .idle⟩, [.hashed ⟨idx, buf, plen, m.mgr.bytes buf plen⟩])

def step (c : Config) (m : Machine) : Act → Option (Machine × List Event)
  | .call call env =>
    match m.pc with
    | .idle =>
      let r := start c m.mgr env call
      some (⟨r.1, r.2.1, m.worker⟩, r.2.2)
    | _ => none
  | .lock => lockStep m
  | .apply io =>
    match m.pc with
    | .apply job next =>
      let r := hashApply c io m.mgr job
      some (⟨r.1, next.pc, m.worker⟩, r.2.toList.map (fun p => .report p.1 p.2))
    | _ => none
  | .worker => workerStep c m

/-- Where the torrent thread was when it took a job off the ring. -/
def Resume.before : Resume → Pc
  | .drain flushing => .drain flushing
  | .enqueue idx plen => .enqueue idx plen

/-- Everything a step can do, with what the code has checked before it. -/
inductive Transition (c : Config) (m : Machine) : Act → Machine → List Event → Prop where
  | call (call : Call) (env : Env) : m.pc = .idle →
      Transition c m (.call call env)
        ⟨(start c m.mgr env call).1, (start c m.mgr env call).2.1, m.worker⟩
        (start c m.mgr env call).2.2
  | drained (flushing : Bool) : m.pc = .drain flushing →
      m.mgr.hashQCount = 0 ∨ m.mgr.headJob.done = false →
      Transition c m .lock { m with pc := .idle } [if flushing then .flushed else .returned 0]
  | pop (next : Resume) : m.pc = next.before → 0 < m.mgr.hashQCount → m.mgr.headJob.done = true →
      Transition c m .lock (popStep m next).1 (popStep m next).2
  | awaited : m.pc = .flush → m.mgr.hashQCount ≤ m.mgr.hashQHashed →
      Transition c m .lock { m with pc := .drain true } []
  | push (idx plen : Nat) :
      (m.pc = .enqueue idx plen ∧ m.mgr.hashQCount ≠ hashQueueMax) ∨ m.pc = .put idx plen →
      Transition c m .lock (pushStep m idx plen).1 (pushStep m idx plen).2
  | apply (io : Storage.Faults) (job : HashJob) (next : Resume) : m.pc = .apply job next →
      Transition c m (.apply io) ⟨(hashApply c io m.mgr job).1, next.pc, m.worker⟩
        ((hashApply c io m.mgr job).2.toList.map (fun p => .report p.1 p.2))
  | take : m.worker = .idle → m.mgr.hashQHashed ≠ m.mgr.hashQCount →
      Transition c m .worker
        { m with worker := .hash (m.mgr.entry m.mgr.hashQHashed)
                  (m.mgr.hashQ (m.mgr.entry m.mgr.hashQHashed)).idx
                  (m.mgr.hashQ (m.mgr.entry m.mgr.hashQHashed)).buf
                  (m.mgr.hashQ (m.mgr.entry m.mgr.hashQHashed)).plen } []
  | hash (entry idx : Nat) (buf : Option Nat) (plen : Nat) : m.worker = .hash entry idx buf plen →
      Transition c m .worker
        { m with worker := .publish entry idx buf plen
                  (hashMatches c idx (m.mgr.bytes buf plen)) } []
  | publish (entry idx : Nat) (buf : Option Nat) (plen : Nat) (ok : Bool) :
      m.worker = .publish entry idx buf plen ok →
      Transition c m .worker ⟨m.mgr.publish entry ok, m.pc, .idle⟩
        [.hashed ⟨idx, buf, plen, m.mgr.bytes buf plen⟩]

theorem lockStep_transition {c : Config} {m m' : Machine} {events : List Event}
    (h : lockStep m = some (m', events)) : Transition c m .lock m' events := by
  simp only [lockStep] at h
  split at h
  · next flushing hpc =>
    split at h
    · next hdone =>
      cases h
      exact .drained flushing hpc hdone
    · next hmore =>
      cases h
      refine .pop (.drain flushing) hpc ?_ ?_
      · by_contra hzero
        exact hmore (Or.inl (by omega))
      · simpa using fun hfalse => hmore (Or.inr hfalse)
  · next hpc =>
    split at h
    · cases h
    · cases h
      exact .awaited hpc (by omega)
  · next idx plen hpc =>
    split at h
    · next hfull =>
      split at h
      · cases h
      · next hdone =>
        cases h
        refine .pop (.enqueue idx plen) hpc ?_ (by simpa using hdone)
        rw [hfull]
        decide
    · next hroom =>
      cases h
      exact .push idx plen (Or.inl ⟨hpc, hroom⟩)
  · next idx plen hpc =>
    cases h
    exact .push idx plen (Or.inr hpc)
  · cases h

theorem step_transition {c : Config} {m m' : Machine} {act : Act} {events : List Event}
    (h : step c m act = some (m', events)) : Transition c m act m' events := by
  cases act with
  | call call env =>
    simp only [step] at h
    split at h
    · next hpc =>
      cases h
      exact .call call env hpc
    · cases h
  | lock => exact lockStep_transition h
  | apply io =>
    simp only [step] at h
    split at h
    · next job next hpc =>
      cases h
      exact .apply io job next hpc
    · cases h
  | worker =>
    simp only [step, workerStep] at h
    split at h
    · next hw =>
      split at h
      · cases h
      · next hmore =>
        cases h
        exact .take hw (fun heq => hmore (Or.inr heq))
    · next entry idx buf plen hw =>
      cases h
      exact .hash entry idx buf plen hw
    · next entry idx buf plen ok hw =>
      cases h
      exact .publish entry idx buf plen ok hw

/-- The actions of a run, one after the other, with the events of all of them. -/
def run (c : Config) : Machine → List Act → Option (Machine × List Event)
  | m, [] => some (m, [])
  | m, act :: rest =>
    match step c m act with
    | none => none
    | some (m', events) =>
      match run c m' rest with
      | none => none
      | some (m'', later) => some (m'', events ++ later)

def initial (c : Config) (hashOk : Bool) (heap : Nat → Nat → UInt8) (store : Storage.Store) :
    Machine :=
  ⟨create c hashOk heap store, .idle, .idle⟩

theorem run_cons {c : Config} {m m' : Machine} {act : Act} {rest : List Act} {events : List Event}
    (h : run c m (act :: rest) = some (m', events)) :
    ∃ m1 first later, step c m act = some (m1, first) ∧ run c m1 rest = some (m', later) ∧
      events = first ++ later := by
  simp only [run] at h
  split at h
  · cases h
  · next m1 first hstep =>
    split at h
    · cases h
    · next m2 later hrest =>
      cases h
      exact ⟨m1, first, later, hstep, hrest, rfl⟩

/-- A step preserves `P` of the state and all events so far, so every run does. -/
theorem run_induction {c : Config} (P : Machine → List Event → Prop) (ok : Act → Prop)
    (preserved : ∀ m log act m' events, P m log → ok act → step c m act = some (m', events) →
      P m' (log ++ events))
    {m m' : Machine} {acts : List Act} {events : List Event} (log : List Event)
    (h : run c m acts = some (m', events)) (allowed : ∀ act ∈ acts, ok act) (init : P m log) :
    P m' (log ++ events) := by
  induction acts generalizing m events log with
  | nil =>
    simp only [run, Option.some.injEq, Prod.mk.injEq] at h
    obtain ⟨rfl, rfl⟩ := h
    simpa using init
  | cons act rest ih =>
    obtain ⟨m1, first, later, hstep, hrest, rfl⟩ := run_cons h
    have hone := preserved m log act m1 first init (allowed act (by simp)) hstep
    have hall := ih _ hrest (fun a ha => allowed a (by simp [ha])) hone
    rwa [List.append_assoc] at hall

end PieceManager
