import Pipensx.PieceEdits

/-!
# Who owns a piece buffer

Every buffer the manager refers to has one owner: a slot, the pool, an entry of the ring,
or the job the torrent thread has taken off the ring and not yet applied. That is what
keeps a block from being copied into a buffer the worker is reading.
-/

namespace PieceManager

open Storage

inductive Owner where
  | slot (idx : Nat)
  | pool
  | ring (entry : Nat)
  | flight
  deriving DecidableEq

/-- Where the manager refers to a buffer; `flight` is the job between the ring and
`hash_apply`. -/
inductive Refers (s : Mgr) (flight : Option HashJob) : Owner → Nat → Prop where
  | slot {i b : Nat} : (s.slots i).buf = some b → Refers s flight (.slot i) b
  | pool {b : Nat} : b ∈ s.bufPool → Refers s flight .pool b
  | ring {k b : Nat} : k < s.hashQCount → (s.hashQ (s.entry k)).buf = some b →
      Refers s flight (.ring (s.entry k)) b
  | flight {job : HashJob} {b : Nat} : flight = some job → job.buf = some b →
      Refers s flight .flight b

structure Owned (s : Mgr) (flight : Option HashJob) : Prop where
  unique : ∀ o o' b, Refers s flight o b → Refers s flight o' b → o = o'
  bound : ∀ o b, Refers s flight o b → b < s.nextBuf
  nodup : s.bufPool.Nodup
  ringBuf : ∀ k, k < s.hashQCount → (s.hashQ (s.entry k)).buf ≠ none
  flightBuf : ∀ job, flight = some job → job.buf ≠ none
  detached : ∀ i, (s.slots i).state = .hashing → (s.slots i).buf = none

/-- The counters of the ring are in range, every buffer has one owner, and the slot about
to give up its buffer has one. -/
structure BuffersOwned (c : Config) (m : Machine) : Prop where
  head : m.mgr.hashQHead < hashQueueMax
  count : m.mgr.hashQCount ≤ hashQueueMax
  owned : Owned m.mgr m.pc.flight
  entering : ∀ idx plen, m.pc.entering = some (idx, plen) →
    Entering c m.mgr idx ∧ plen = plenOf c idx ∧ m.mgr.hashStarted = true
  room : m.pc.tookHead → m.mgr.hashQCount < hashQueueMax

section Moves

variable {s s' : Mgr} {flight flight' : Option HashJob}

/-- Only the slots, the pool and the ring count. -/
theorem Owned.congr (h : Owned s flight)
    (bufs : ∀ i, (s'.slots i).buf = (s.slots i).buf)
    (states : ∀ i, (s'.slots i).state = .hashing → (s.slots i).state = .hashing)
    (pool : s'.pool = s.pool) (ring : s'.ring = s.ring) : Owned s' flight := by
  simp only [Mgr.pool, Mgr.ring, Prod.mk.injEq] at pool ring
  obtain ⟨hnext, hpool⟩ := pool
  obtain ⟨hq, hhead, hcount, _⟩ := ring
  have hentry : ∀ k, s'.entry k = s.entry k := by
    intro k
    simp only [Mgr.entry, hhead]
  have back : ∀ o b, Refers s' flight o b → Refers s flight o b := by
    intro o b href
    cases href with
    | slot hb => exact .slot (by rw [← bufs]; exact hb)
    | pool hb => exact .pool (by rw [← hpool]; exact hb)
    | ring hk hb =>
      rw [hentry, hq] at hb
      rw [hentry]
      exact .ring (by rw [← hcount]; exact hk) hb
    | flight hjob hb => exact .flight hjob hb
  constructor
  · intro o o' b href href'
    exact h.unique o o' b (back o b href) (back o' b href')
  · intro o b href
    rw [hnext]
    exact h.bound o b (back o b href)
  · rw [hpool]
    exact h.nodup
  · intro k hk
    rw [hcount] at hk
    rw [hentry, hq]
    exact h.ringBuf k hk
  · exact h.flightBuf
  · intro i hi
    rw [bufs i]
    exact h.detached i (states i hi)

/-- A change of one slot that keeps its buffer and does not start hashing. -/
theorem Owned.update (h : Owned s flight) {idx : Nat} {sl : Slot}
    (slots : s'.slots = Function.update s.slots idx sl) (buf : sl.buf = (s.slots idx).buf)
    (state : sl.state = .hashing → (s.slots idx).state = .hashing)
    (pool : s'.pool = s.pool) (ring : s'.ring = s.ring) : Owned s' flight := by
  apply h.congr _ _ pool ring
  · intro i
    rw [slots]
    by_cases hi : i = idx
    · subst hi
      simpa using buf
    · simp [hi]
  · intro i
    rw [slots]
    by_cases hi : i = idx
    · subst hi
      simpa using state
    · simp [hi]

theorem Owned.resetPiece (h : Owned s flight) (c : Config) (idx : Nat) :
    Owned (resetPiece c s idx) flight := by
  have u := Untouched.resetPiece c s idx
  apply h.update (resetPiece_slots c s idx) rfl _ u.pool u.ring
  intro hstate
  cases hstate

theorem Owned.markPieceDone (h : Owned s flight) (c : Config) (idx plen : Nat) :
    Owned (markPieceDone c s idx plen) flight := by
  apply h.update (markPieceDone_slots c s idx plen) rfl _ rfl rfl
  intro hstate
  cases hstate

theorem Owned.markDoneUnhashed (h : Owned s flight) (c : Config) (idx : Nat) (readable : Bool) :
    Owned (markDoneUnhashed c s idx readable) flight := by
  apply h.update (markDoneUnhashed_slots c s idx readable) rfl _ rfl rfl
  intro hstate
  cases hstate

theorem Owned.setSlot (h : Owned s flight) (idx : Nat) {f : Slot → Slot}
    (buf : (f (s.slots idx)).buf = (s.slots idx).buf)
    (state : (f (s.slots idx)).state = .hashing → (s.slots idx).state = .hashing) :
    Owned (s.setSlot idx f) flight :=
  h.update rfl buf state rfl rfl

theorem Owned.setCount (h : Owned s flight) (c : Config) (idx block : Nat) (f : Nat → Nat) :
    Owned (setCount c s idx block f) flight := by
  obtain ⟨counts, hcounts⟩ := setCount_eq c s idx block f
  rw [hcounts]
  exact h.setSlot idx rfl (fun hstate => hstate)

/-- A buffer changes hands: in the new state `b` belongs to `dest` alone, and every other
reference was there before. -/
theorem Owned.move (h : Owned s flight) (b : Nat) (dest : Owner)
    (refs : ∀ o b', Refers s' flight' o b' → (b' = b ∧ o = dest) ∨ (b' ≠ b ∧ Refers s flight o b'))
    (alive : b < s'.nextBuf) (next : s.nextBuf ≤ s'.nextBuf) (nodup : s'.bufPool.Nodup)
    (ringBuf : ∀ k, k < s'.hashQCount → (s'.hashQ (s'.entry k)).buf ≠ none)
    (flightBuf : ∀ job, flight' = some job → job.buf ≠ none)
    (detached : ∀ i, (s'.slots i).state = .hashing → (s'.slots i).buf = none) :
    Owned s' flight' := by
  refine ⟨?_, ?_, nodup, ringBuf, flightBuf, detached⟩
  · intro o o' b' href href'
    rcases refs o b' href with ⟨rfl, rfl⟩ | ⟨hne, hold⟩
    · rcases refs o' b' href' with ⟨_, rfl⟩ | ⟨hne', _⟩
      · rfl
      · exact absurd rfl hne'
    · rcases refs o' b' href' with ⟨rfl, _⟩ | ⟨_, hold'⟩
      · exact absurd rfl hne
      · exact h.unique o o' b' hold hold'
  · intro o b' href
    rcases refs o b' href with ⟨rfl, _⟩ | ⟨_, hold⟩
    · exact alive
    · exact Nat.lt_of_lt_of_le (h.bound o b' hold) next

/-- Two references to different places are to different buffers. -/
theorem Owned.ne (h : Owned s flight) {o o' : Owner} {b b' : Nat} (href : Refers s flight o b)
    (href' : Refers s flight o' b') (hne : o ≠ o') : b' ≠ b := by
  rintro rfl
  exact hne (h.unique o o' b' href href')

/-- A reference into a ring that did not change. -/
theorem refers_ring_of_same {e b : Nat} (ring : s'.ring = s.ring)
    (href : Refers s' flight' (.ring e) b) : Refers s flight (.ring e) b := by
  simp only [Mgr.ring, Prod.mk.injEq] at ring
  obtain ⟨hq, hhead, hcount, _⟩ := ring
  have hentry : ∀ k, s'.entry k = s.entry k := by
    intro k
    simp only [Mgr.entry, hhead]
  cases href with
  | ring hk hb =>
    rw [hentry, hq] at hb
    rw [hentry]
    exact .ring (by rw [← hcount]; exact hk) hb

theorem ringBuf_of_same (h : Owned s flight) (ring : s'.ring = s.ring) :
    ∀ k, k < s'.hashQCount → (s'.hashQ (s'.entry k)).buf ≠ none := by
  simp only [Mgr.ring, Prod.mk.injEq] at ring
  obtain ⟨hq, hhead, hcount, _⟩ := ring
  intro k hk
  rw [hcount] at hk
  simp only [Mgr.entry, hq, hhead]
  exact h.ringBuf k hk

/-- A buffer that was in the pool, in flight or nowhere goes into a slot. -/
theorem Owned.toSlot (h : Owned s flight) {b idx : Nat} {sl : Slot}
    (slots : s'.slots = Function.update s.slots idx sl) (buf : sl.buf = some b)
    (state : sl.state ≠ .hashing) (ring : s'.ring = s.ring)
    (pool : ∀ b' ∈ s'.bufPool, b' ∈ s.bufPool ∧ b' ≠ b) (nodup : s'.bufPool.Nodup)
    (alive : b < s'.nextBuf) (next : s.nextBuf ≤ s'.nextBuf)
    (free : ∀ o, Refers s flight o b → o = .pool ∨ o = .flight) : Owned s' none := by
  have ne : ∀ o b', Refers s flight o b' → o ≠ .pool → o ≠ .flight → b' ≠ b := by
    rintro o b' href hp hf rfl
    rcases free o href with rfl | rfl
    · exact hp rfl
    · exact hf rfl
  refine h.move b (.slot idx) ?_ alive next nodup (ringBuf_of_same h ring) ?_ ?_
  · intro o b' href
    cases href with
    | @slot i _ hi =>
      rw [slots] at hi
      by_cases hii : i = idx
      · subst hii
        rw [Function.update_self, buf] at hi
        exact Or.inl ⟨(Option.some.inj hi).symm, rfl⟩
      · rw [Function.update_of_ne hii] at hi
        exact Or.inr ⟨ne _ _ (.slot hi) (by simp) (by simp), .slot hi⟩
    | pool hmem => exact Or.inr ⟨(pool b' hmem).2, .pool (pool b' hmem).1⟩
    | ring hk hi =>
      have hold : Refers s flight _ b' :=
        refers_ring_of_same ring (.ring hk hi : Refers s' none _ b')
      exact Or.inr ⟨ne _ _ hold (by simp) (by simp), hold⟩
    | flight hjob hi => cases hjob
  · intro job hjob
    cases hjob
  · intro i hi
    rw [slots] at hi ⊢
    by_cases hii : i = idx
    · subst hii
      rw [Function.update_self] at hi
      exact absurd hi state
    · rw [Function.update_of_ne hii] at hi ⊢
      exact h.detached i hi

/-- A buffer that was in a slot or in flight goes back to the pool, or is freed. -/
theorem Owned.toPool (h : Owned s flight) {b : Nat} {o : Owner} (was : Refers s flight o b)
    (notPool : o ≠ .pool)
    (slots : ∀ i b', (s'.slots i).buf = some b' → (s.slots i).buf = some b' ∧ b' ≠ b)
    (detached : ∀ i, (s'.slots i).state = .hashing → (s'.slots i).buf = none)
    (notRing : ∀ e, o ≠ .ring e) (ring : s'.ring = s.ring) (next : s'.nextBuf = s.nextBuf)
    (pool : s'.bufPool = b :: s.bufPool ∨ s'.bufPool = s.bufPool) : Owned s' none := by
  have fresh : b ∉ s.bufPool := by
    intro hmem
    exact notPool (h.unique o .pool b was (.pool hmem))
  refine h.move b .pool ?_ (by rw [next]; exact h.bound o b was) (by rw [next]) ?_
    (ringBuf_of_same h ring) ?_ detached
  · intro o' b' href
    cases href with
    | @slot i _ hi => exact Or.inr ⟨(slots i b' hi).2, .slot (slots i b' hi).1⟩
    | pool hmem =>
      by_cases hb : b' = b
      · exact Or.inl ⟨hb, rfl⟩
      · refine Or.inr ⟨hb, .pool ?_⟩
        rcases pool with hpool | hpool
        · rw [hpool] at hmem
          rcases List.mem_cons.mp hmem with heq | hmem
          · exact absurd heq hb
          · exact hmem
        · rw [← hpool]
          exact hmem
    | ring hk hi =>
      have hold : Refers s flight _ b' :=
        refers_ring_of_same ring (.ring hk hi : Refers s' none _ b')
      exact Or.inr ⟨h.ne was hold (notRing _), hold⟩
    | flight hjob hi => cases hjob
  · rcases pool with hpool | hpool
    · rw [hpool, List.nodup_cons]
      exact ⟨fresh, h.nodup⟩
    · rw [hpool]
      exact h.nodup
  · intro job hjob
    cases hjob

end Moves

section Code

variable {s : Mgr}

theorem Owned.slotBuf (h : Owned s none) (alloc : Bool) (idx : Nat)
    (idle : (s.slots idx).state ≠ .hashing) : Owned (slotBuf alloc s idx).2 none := by
  simp only [PieceManager.slotBuf]
  split
  · exact h
  · next hnone =>
    simp only [pieceBufGet]
    split
    · next b rest hpool =>
      have hmem : b ∈ s.bufPool := by simp [hpool]
      have hnodup := h.nodup
      rw [hpool, List.nodup_cons] at hnodup
      refine h.toSlot rfl rfl idle rfl ?_ hnodup.2 (h.bound _ _ (.pool hmem)) (Nat.le_refl _) ?_
      · intro b' hb'
        have hrest : b' ∈ rest := hb'
        refine ⟨by simp [hpool, hrest], ?_⟩
        rintro rfl
        exact hnodup.1 hrest
      · intro o href
        exact Or.inl (h.unique o .pool b href (.pool hmem))
    · split
      · refine h.toSlot rfl rfl idle rfl ?_ h.nodup (Nat.lt_succ_self _) (Nat.le_succ _) ?_
        · intro b' hb'
          exact ⟨hb', Nat.ne_of_lt (h.bound _ _ (.pool hb'))⟩
        · intro o href
          exact absurd (h.bound o _ href) (Nat.lt_irrefl _)
      · exact h.setSlot idx hnone.symm (fun hstate => hstate)

/-- The job in flight gives its buffer to the pool. -/
theorem Owned.pieceBufPut {job : HashJob} (h : Owned s (some job)) :
    Owned (pieceBufPut s job.buf) none := by
  cases hbuf : job.buf with
  | none => exact absurd hbuf (h.flightBuf job rfl)
  | some b =>
    have was : Refers s (some job) .flight b := .flight rfl hbuf
    have slots : ∀ i b', (s.slots i).buf = some b' → (s.slots i).buf = some b' ∧ b' ≠ b := by
      intro i b' hi
      exact ⟨hi, h.ne was (.slot hi) (by simp)⟩
    simp only [PieceManager.pieceBufPut]
    split
    · exact h.toPool was (by simp) slots h.detached (by simp) rfl rfl (Or.inl rfl)
    · exact h.toPool was (by simp) slots h.detached (by simp) rfl rfl (Or.inr rfl)

/-- The slot of a done piece gives its buffer to the pool. -/
theorem Owned.releaseSlot (h : Owned s none) (idx : Nat) :
    Owned ((PieceManager.pieceBufPut s (s.slots idx).buf).setSlot idx
      (fun sl => { sl with buf := none })) none := by
  cases hbuf : (s.slots idx).buf with
  | none => exact h.setSlot idx hbuf.symm (fun hstate => hstate)
  | some b =>
    have was : Refers s none (.slot idx) b := .slot hbuf
    have hslots : ∀ t : Mgr, t.slots = s.slots →
        (∀ i b', ((t.setSlot idx (fun sl => { sl with buf := none })).slots i).buf = some b' →
          (s.slots i).buf = some b' ∧ b' ≠ b) ∧
        (∀ i, ((t.setSlot idx (fun sl => { sl with buf := none })).slots i).state = .hashing →
          ((t.setSlot idx (fun sl => { sl with buf := none })).slots i).buf = none) := by
      intro t ht
      constructor
      · intro i b' hi
        by_cases hii : i = idx
        · subst hii
          simp [Mgr.setSlot] at hi
        · simp only [Mgr.setSlot, Function.update_of_ne hii, ht] at hi
          exact ⟨hi, h.ne was (.slot hi) (by simp [Ne.symm hii])⟩
      · intro i hi
        by_cases hii : i = idx
        · subst hii
          simp [Mgr.setSlot]
        · simp only [Mgr.setSlot, Function.update_of_ne hii, ht] at hi ⊢
          exact h.detached i hi
    simp only [PieceManager.pieceBufPut]
    split
    · exact h.toPool was (by simp) (hslots _ rfl).1 (hslots _ rfl).2 (by simp) rfl rfl (Or.inl rfl)
    · exact h.toPool was (by simp) (hslots _ rfl).1 (hslots _ rfl).2 (by simp) rfl rfl (Or.inr rfl)

theorem entry_zero (head : s.hashQHead < hashQueueMax) : s.entry 0 = s.hashQHead := by
  simp only [Mgr.entry, Nat.add_zero]
  exact Nat.mod_eq_of_lt head

theorem entry_ne (s : Mgr) {j k : Nat} (hj : j < hashQueueMax) (hk : k < hashQueueMax)
    (hne : j ≠ k) : s.entry j ≠ s.entry k := by
  simp only [Mgr.entry, hashQueueMax] at hj hk ⊢
  omega

theorem entry_popHead (s : Mgr) (k : Nat) : s.popHead.entry k = s.entry (k + 1) := by
  simp only [Mgr.entry, Mgr.popHead, hashQueueMax]
  omega

/-- The head of the ring is taken by the torrent thread. -/
theorem Owned.popHead (h : Owned s none) (head : s.hashQHead < hashQueueMax)
    (count : s.hashQCount ≤ hashQueueMax) (nonempty : 0 < s.hashQCount) :
    Owned s.popHead (some s.headJob) := by
  have hjob : s.headJob = s.hashQ (s.entry 0) := by rw [Mgr.headJob, entry_zero head]
  cases hbuf : s.headJob.buf with
  | none =>
    rw [hjob] at hbuf
    exact absurd hbuf (h.ringBuf 0 nonempty)
  | some b =>
    have was : Refers s none (.ring (s.entry 0)) b := .ring nonempty (by rw [← hjob]; exact hbuf)
    refine h.move b .flight ?_ (h.bound _ b was) (Nat.le_refl _) h.nodup ?_ ?_ h.detached
    · intro o b' href
      cases href with
      | slot hi => exact Or.inr ⟨h.ne was (.slot hi) (by simp), .slot hi⟩
      | pool hmem => exact Or.inr ⟨h.ne was (.pool hmem) (by simp), .pool hmem⟩
      | @ring k _ hk hi =>
        rw [entry_popHead] at hi ⊢
        have hk' : k + 1 < s.hashQCount := by
          simp only [Mgr.popHead] at hk
          omega
        have hold : Refers s none (.ring (s.entry (k + 1))) b' := .ring hk' hi
        refine Or.inr ⟨h.ne was hold ?_, hold⟩
        simp only [ne_eq, Owner.ring.injEq]
        exact entry_ne s (by omega) (by omega) (by omega)
      | flight hflight hi =>
        cases hflight
        rw [hbuf] at hi
        exact Or.inl ⟨(Option.some.inj hi).symm, rfl⟩
    · intro k hk
      rw [entry_popHead]
      apply h.ringBuf
      simp only [Mgr.popHead] at hk
      omega
    · intro job hflight
      cases hflight
      rw [hbuf]
      simp

/-- The slot of a complete piece gives its buffer to the ring. -/
theorem Owned.pushJob (h : Owned s none) {idx plen : Nat} (room : s.hashQCount < hashQueueMax)
    (buf : (s.slots idx).buf ≠ none) : Owned (s.pushJob idx plen) none := by
  obtain ⟨b, hbuf⟩ := Option.ne_none_iff_exists'.mp buf
  have was : Refers s none (.slot idx) b := .slot hbuf
  have hentry : ∀ k, (s.pushJob idx plen).entry k = s.entry k := fun _ => rfl
  have hq : (s.pushJob idx plen).hashQ =
      Function.update s.hashQ (s.entry s.hashQCount) ⟨idx, (s.slots idx).buf, plen, false, false⟩ :=
        rfl
  have hold : ∀ k, k < s.hashQCount → (s.pushJob idx plen).hashQ (s.entry k) =
    s.hashQ (s.entry k) := by
    intro k hk
    rw [hq, Function.update_of_ne (entry_ne s (by omega) room (by omega))]
  have hnew : ((s.pushJob idx plen).hashQ (s.entry s.hashQCount)).buf = some b := by
    rw [hq, Function.update_self, hbuf]
  have hslots : (s.pushJob idx plen).slots =
      Function.update s.slots idx { s.slots idx with buf := none, state := .hashing } := rfl
  refine h.move b (.ring (s.entry s.hashQCount)) ?_ (h.bound _ b was) (Nat.le_refl _)
    h.nodup ?_ ?_ ?_
  · intro o b' href
    cases href with
    | @slot i _ hi =>
      rw [hslots] at hi
      by_cases hii : i = idx
      · subst hii
        rw [Function.update_self] at hi
        cases hi
      · rw [Function.update_of_ne hii] at hi
        exact Or.inr ⟨h.ne was (.slot hi) (by simp [Ne.symm hii]), .slot hi⟩
    | pool hmem => exact Or.inr ⟨h.ne was (.pool hmem) (by simp), .pool hmem⟩
    | @ring k _ hk hi =>
      rw [hentry] at hi ⊢
      have hk' : k < s.hashQCount + 1 := hk
      by_cases hlast : k = s.hashQCount
      · subst hlast
        rw [hnew] at hi
        exact Or.inl ⟨(Option.some.inj hi).symm, rfl⟩
      · rw [hold k (by omega)] at hi
        exact Or.inr ⟨h.ne was (.ring (by omega) hi) (by simp), .ring (by omega) hi⟩
    | flight hflight hi => cases hflight
  · intro k hk
    have hk' : k < s.hashQCount + 1 := hk
    rw [hentry]
    by_cases hlast : k = s.hashQCount
    · subst hlast
      rw [hnew]
      simp
    · rw [hold k (by omega)]
      exact h.ringBuf k (by omega)
  · intro job hflight
    cases hflight
  · intro i hi
    rw [hslots] at hi ⊢
    by_cases hii : i = idx
    · subst hii
      rw [Function.update_self]
    · rw [Function.update_of_ne hii] at hi ⊢
      exact h.detached i hi

end Code

theorem Owned.edit {c : Config} {l : Licence} {s s' : Mgr} (h : Owned s none)
    (edit : Edit c l s s') : Owned s' none := by
  cases edit with
  | flags v ok started => exact h.congr (fun _ => rfl) (fun _ hi => hi) rfl rfl
  | count idx block f => exact h.setCount c idx block f
  | pending idx _ hempty =>
    apply h.setSlot idx rfl
    intro hstate
    cases hstate
  | buffer idx alloc _ hopen => exact h.slotBuf alloc idx hopen.2
  | block idx offset data b hidx hopen hbuf _ _ hblk _ =>
    obtain ⟨hring, hpool, _⟩ := storeBlock_frame c s idx offset data b
    apply h.update (storeBlock_slots c s data b hidx hblk) _ _ hpool hring
    · exact stored_buf _ _
    · intro hstate
      rw [stored_state] at hstate
      cases hstate
  | reset idx _ => exact h.resetPiece c idx
  | skipped idx _ _ _ => exact h.markDoneUnhashed c idx false
  | readable idx _ _ _ => exact h.markDoneUnhashed c idx true
  | written idx io st _ _ _ _ =>
    have hdone : Owned (PieceManager.markPieceDone c { s with store := st } idx (plenOf c idx))
      none :=
      (h.congr (fun _ => rfl) (fun _ hi => hi) rfl rfl : Owned { s with store := st }
        none).markPieceDone c idx _
    have hbuf : ((PieceManager.markPieceDone c { s with store := st } idx (plenOf c idx)).slots
        idx).buf = (s.slots idx).buf := by simp
    rw [← hbuf]
    exact hdone.releaseSlot idx
  | refused idx io st _ _ _ =>
    exact (h.congr (fun _ => rfl) (fun _ hi => hi) rfl rfl : Owned { s with store := st }
      none).resetPiece c idx

theorem Owned.edits {c : Config} {l : Licence} {s s' : Mgr} (h : Owned s none)
    (edits : Edits c l s s') : Owned s' none :=
  edits.induction (P := fun s => Owned s none) (fun _ _ hold hedit => hold.edit hedit) h

/-- The job in flight gives its buffer back to its slot. -/
theorem Owned.attach {s : Mgr} {job : HashJob} (h : Owned s (some job)) :
    Owned ((s.attach job).setSlot job.idx Slot.cleared) none := by
  obtain ⟨b, hb⟩ := Option.ne_none_iff_exists'.mp (h.flightBuf job rfl)
  have was : Refers s (some job) .flight b := .flight rfl hb
  have hslots : ((s.attach job).setSlot job.idx Slot.cleared).slots =
      Function.update s.slots job.idx { (s.slots job.idx).cleared with buf := job.buf } := by
    simp [Mgr.attach, Mgr.setSlot, Slot.cleared]
  refine h.toSlot hslots hb (by simp [Slot.cleared]) rfl ?_ h.nodup (h.bound _ _ was)
    (Nat.le_refl _) ?_
  · intro b' hb'
    exact ⟨hb', h.ne was (.pool hb') (by simp)⟩
  · intro o href
    exact Or.inr (h.unique o .flight b href was)

/-- `reset_piece` of the slot that got its buffer back. -/
theorem Owned.reattach {s : Mgr} {job : HashJob} (h : Owned s (some job)) (c : Config) :
    Owned (PieceManager.resetPiece c (s.attach job) job.idx) none := by
  have u := Untouched.resetPiece c (s.attach job) job.idx
  apply h.attach.congr _ _ u.pool u.ring
  · intro i
    rw [resetPiece_slots]
    rfl
  · intro i hi
    rw [resetPiece_slots] at hi
    exact hi

theorem Owned.applied {c : Config} {s s' : Mgr} {job : HashJob} {report : Option (Nat × Int)}
    (h : Owned s (some job)) (applied : Applied c s job s' report) : Owned s' none := by
  have hstore : ∀ st, Owned { s with store := st } (some job) := by
    intro st
    exact h.congr (fun _ => rfl) (fun _ hi => hi) rfl rfl
  cases applied with
  | stale _ => exact h.pieceBufPut
  | mismatch _ _ => exact h.reattach c
  | refused io st _ _ _ => exact (hstore st).reattach c
  | written io st _ _ _ => exact ((hstore st).markPieceDone c job.idx job.plen).pieceBufPut

theorem Owned.publish {s : Mgr} {flight : Option HashJob} (h : Owned s flight) (entry : Nat)
    (ok : Bool) : Owned (s.publish entry ok) flight := by
  have hbuf : ∀ e, ((s.publish entry ok).hashQ e).buf = (s.hashQ e).buf := by
    intro e
    by_cases he : e = entry
    · subst he
      simp [Mgr.publish]
    · simp [Mgr.publish, he]
  have back : ∀ o b, Refers (s.publish entry ok) flight o b → Refers s flight o b := by
    intro o b href
    cases href with
    | slot hb => exact .slot hb
    | pool hb => exact .pool hb
    | ring hk hb =>
      rw [hbuf] at hb
      exact .ring hk hb
    | flight hjob hb => exact .flight hjob hb
  refine ⟨?_, ?_, h.nodup, ?_, h.flightBuf, h.detached⟩
  · intro o o' b href href'
    exact h.unique o o' b (back o b href) (back o' b href')
  · intro o b href
    exact h.bound o b (back o b href)
  · intro k hk
    rw [hbuf]
    exact h.ringBuf k hk

theorem buffersOwned_initial (c : Config) (hashOk : Bool) (heap : Nat → Nat → UInt8)
    (store : Store) : BuffersOwned c (initial c hashOk heap store) := by
  refine ⟨Nat.zero_lt_two, Nat.zero_le 2, ⟨?_, ?_, List.nodup_nil, ?_, ?_, ?_⟩, ?_, ?_⟩
  · intro o o' b href
    cases href with
    | slot hb => cases hb
    | pool hb => cases hb
    | ring hk hb => cases hk
    | flight hjob hb => cases hjob
  · intro o b href
    cases href with
    | slot hb => cases hb
    | pool hb => cases hb
    | ring hk hb => cases hk
    | flight hjob hb => cases hjob
  · intro k hk
    cases hk
  · intro job hjob
    cases hjob
  · intro i hi
    rfl
  · intro idx plen h
    cases h
  · intro h
    cases h

theorem before_facts (next : Resume) : next.before.flight = none ∧
    ∀ idx plen, next = .enqueue idx plen → next.before.entering = some (idx, plen) := by
  cases next with
  | drain flushing => exact ⟨rfl, by intro _ _ h; cases h⟩
  | enqueue idx plen => exact ⟨rfl, by intro _ _ h; cases h; rfl⟩

/-- What is known where a job is put into the ring: the torrent thread is entering its
piece, which is complete, and the ring has room. -/
structure Pushing (c : Config) (m : Machine) (idx plen : Nat) : Prop where
  flight : m.pc.flight = none
  entering : m.pc.entering = some (idx, plen)
  room : m.mgr.hashQCount < hashQueueMax
  ready : Entering c m.mgr idx

theorem BuffersOwned.pushing {c : Config} {m : Machine} (h : BuffersOwned c m) {idx plen : Nat}
    (hpc : (m.pc = .enqueue idx plen ∧ m.mgr.hashQCount ≠ hashQueueMax) ∨ m.pc = .put idx plen) :
    Pushing c m idx plen := by
  rcases hpc with ⟨hpc, hroom⟩ | hpc
  · have hcount := h.count
    have hentering : m.pc.entering = some (idx, plen) := by rw [hpc]; rfl
    exact ⟨by rw [hpc]; rfl, hentering, by omega, (h.entering idx plen hentering).1⟩
  · have hentering : m.pc.entering = some (idx, plen) := by rw [hpc]; rfl
    exact ⟨by rw [hpc]; rfl, hentering, h.room (by rw [hpc]; trivial),
      (h.entering idx plen hentering).1⟩

theorem BuffersOwned.call {c : Config} {m : Machine} (h : BuffersOwned c m) (hpc : m.pc = .idle)
    (call : Call) (env : Env) :
    BuffersOwned c ⟨(start c m.mgr env call).1, (start c m.mgr env call).2.1, m.worker⟩ := by
  obtain ⟨hedits, hentering⟩ := start_edits c m.mgr env call
  obtain ⟨hflight, htook⟩ := start_pc c m.mgr env call
  have hring := hedits.ring
  simp only [Mgr.ring, Prod.mk.injEq] at hring
  have howned : Owned m.mgr none := by
    have := h.owned
    rwa [hpc] at this
  refine ⟨?_, ?_, ?_, hentering, ?_⟩
  · rw [hring.2.1]
    exact h.head
  · rw [hring.2.2.1]
    exact h.count
  · rw [hflight]
    exact howned.edits hedits
  · intro hp
    exact absurd hp htook

theorem BuffersOwned.popHead {c : Config} {m : Machine} (h : BuffersOwned c m) {next : Resume}
    (hpc : m.pc = next.before) (hpos : 0 < m.mgr.hashQCount) :
    BuffersOwned c (popStep m next).1 := by
  obtain ⟨hflight, hbefore⟩ := before_facts next
  have howned := h.owned
  rw [hpc, hflight] at howned
  refine ⟨Nat.mod_lt _ (by decide), ?_, howned.popHead h.head h.count hpos, ?_, ?_⟩
  · exact Nat.le_trans (Nat.sub_le _ _) h.count
  · intro idx plen hp
    cases next with
    | drain flushing => cases hp
    | enqueue idx' plen' =>
      obtain ⟨hent, hplen⟩ := h.entering idx' plen' (by rw [hpc]; rfl)
      cases hp
      exact ⟨hent, hplen⟩
  · intro _
    have hcount := h.count
    simp only [popStep, Mgr.popHead]
    omega

/-- The result of a hash job is applied, and the slot that waits for a place keeps its buffer. -/
theorem BuffersOwned.hashApply {c : Config} {m : Machine} (h : BuffersOwned c m) {job : HashJob}
    {next : Resume} (hpc : m.pc = .apply job next) (io : Faults) :
    BuffersOwned c { m with mgr := (hashApply c io m.mgr job).1, pc := next.pc } := by
  have happlied := hashApply_applied c io m.mgr job
  have hring := happlied.ring.1
  simp only [Mgr.ring, Prod.mk.injEq] at hring
  have howned := h.owned
  rw [hpc] at howned
  have hafter : next.pc.flight = none := by
    cases next with
    | drain flushing => rfl
    | enqueue idx plen => rfl
  refine ⟨?_, ?_, ?_, ?_, ?_⟩
  · rw [hring.2.1]
    exact h.head
  · rw [hring.2.2.1]
    exact h.count
  · rw [hafter]
    exact howned.applied happlied
  · intro idx plen hp
    cases next with
    | drain flushing => cases hp
    | enqueue idx' plen' =>
      cases hp
      obtain ⟨⟨hidx, hstate, hbuf, hcomplete⟩, hplen, hstarted⟩ :=
        h.entering idx plen (by rw [hpc]; rfl)
      have hslot := happlied.slots (i := idx) (by rw [hstate]; decide)
      refine ⟨⟨hidx, ?_, ?_⟩, hplen, by rw [happlied.ring.2.2]; exact hstarted⟩
      · rw [hslot]
        exact hstate
      · rw [hslot]
        exact ⟨hbuf, hcomplete⟩
  · intro hp
    rw [hring.2.2.1]
    cases next with
    | drain flushing => cases hp
    | enqueue idx plen => exact h.room (by rw [hpc]; trivial)

theorem BuffersOwned.transition {c : Config} {m m' : Machine} {act : Act} {events : List Event}
    (h : BuffersOwned c m) (t : Transition c m act m' events) : BuffersOwned c m' := by
  cases t with
  | call call env hpc => exact h.call hpc call env
  | drained flushing hpc _ =>
    have howned := h.owned
    rw [hpc] at howned
    refine ⟨h.head, h.count, howned, ?_, ?_⟩
    · intro idx plen hp
      cases hp
    · intro hp
      cases hp
  | pop next hpc hpos hdone => exact h.popHead hpc hpos
  | awaited hpc _ =>
    have howned := h.owned
    rw [hpc] at howned
    refine ⟨h.head, h.count, howned, ?_, ?_⟩
    · intro idx plen hp
      cases hp
    · intro hp
      cases hp
  | push idx plen hpc =>
    obtain ⟨hflight, _, hroom, ⟨_, _, hbuf, _⟩⟩ := h.pushing hpc
    have howned := h.owned
    rw [hflight] at howned
    refine ⟨h.head, hroom, howned.pushJob hroom hbuf, ?_, ?_⟩
    · intro idx' plen' hp
      cases hp
    · intro hp
      cases hp
  | apply io job next hpc => exact h.hashApply hpc io
  | take _ _ => exact ⟨h.head, h.count, h.owned, h.entering, h.room⟩
  | hash entry idx buf plen _ => exact ⟨h.head, h.count, h.owned, h.entering, h.room⟩
  | publish entry idx buf plen ok _ =>
    exact ⟨h.head, h.count, h.owned.publish entry ok, h.entering, h.room⟩

end PieceManager
