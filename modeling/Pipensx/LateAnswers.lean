import Pipensx.PeerRequests
import Pipensx.RingQueue

/-!
# Answers to requests that were given up

A request that expires or is cancelled leaves the pipeline, but its answer may be on the way.
`recent_dropped` remembers the last sixteen of them, so that the answer is not taken for
an unsolicited piece. Up to `MAX_PIPELINE` requests can be given up at once. The ring is
written at an index that only grows, in an `int`.
-/

namespace LateAnswers

open PeerSend PeerRequests

abbrev Triple := Int × Int × Int

def triple (r : BlockReq) : Triple := (r.index, r.offset, r.length)

/-- The block that a `MSG_PIECE` answers for. -/
def frameTriple (payload : List UInt8) : Triple :=
  (toInt (be32 payload), toInt (be32 (payload.drop 4)), toInt (payload.drop 8).length)

/-- One connection, with what `remember_dropped` was told, newest first, and the requests
that were given up and have not been answered since. -/
structure Ledger where
  peer : Peer
  noted : List Triple
  owed : List Triple

/-- A connection that is new. -/
def Ledger.opened (utp : Bool) (bfBytes now dlRateBps : Nat) : Ledger :=
  ⟨peerAlloc utp bfBytes now dlRateBps, [], []⟩

/-- What can happen to the requests of a connection. -/
inductive Op where
  | request (net : Transport) (now piece offset len : Nat)
  | cancel (net : Transport) (piece offset len : Nat)
  | expire (now timeoutMs : Nat)
  | piece (now : Nat) (payload : List UInt8)

/-- The block is one that is asked for. -/
def Asked (p : Peer) (payload : List UInt8) : Prop :=
  p.pipeline.any (fun r => r.isExactly (be32 payload) (be32 (payload.drop 4))
    (payload.drop 8).length) = true

instance (p : Peer) (payload : List UInt8) : Decidable (Asked p payload) :=
  inferInstanceAs (Decidable (_ = true))

def step (l : Ledger) : Op → Ledger
  | .request net now piece offset len =>
    { l with peer := (peerRequestBlock net now l.peer piece offset len).1 }
  | .cancel net piece offset len =>
    let r := peerCancelBlock net l.peer piece offset len
    if r.2 then
      ⟨r.1, (toInt piece, toInt offset, toInt len) :: l.noted,
        (l.peer.pipeline.find? (fun r => r.isFor piece offset)).toList.map triple ++ l.owed⟩
    else { l with peer := r.1 }
  | .expire now timeoutMs =>
    let r := peerExpireRequests l.peer now timeoutMs
    ⟨r.1, (r.2.map triple).reverse ++ l.noted, r.2.map triple ++ l.owed⟩
  | .piece now payload =>
    { l with
      peer := (processPiece now l.peer payload).1
      owed := if payload.length < 8 ∨ Asked l.peer payload then l.owed else l.owed.erase
        (frameTriple payload) }

def run (l : Ledger) (ops : List Op) : Ledger := ops.foldl step l

theorem run_append (l : Ledger) (ops more : List Op) : run l (ops ++ more) = run (run l ops) more :=
  List.foldl_append

/-- The answer to a request that was given up and was not answered since. -/
def Late (l : Ledger) (payload : List UInt8) : Prop :=
  8 ≤ payload.length ∧ frameTriple payload ∈ l.owed

/-- Every piece of the run, with the connection at that time. -/
def EveryPiece (l : Ledger) (ops : List Op) (P : Ledger → Nat → List UInt8 → Prop) : Prop :=
  ∀ before now payload after, ops = before ++ .piece now payload :: after →
    P (run l before) now payload

/-- The piece is not held against the peer. -/
def Unpunished (l : Ledger) (now : Nat) (payload : List UInt8) : Prop :=
  (processPiece now l.peer payload).1.unsolicitedPieceStrikes = l.peer.unsolicitedPieceStrikes

/-- The block is asked for again, or is among the last sixteen that were given up. -/
def Recent (l : Ledger) (payload : List UInt8) : Prop :=
  Asked l.peer payload ∨ frameTriple payload ∈ l.noted.take recentDroppedRequests

/-- The piece answers a request that has not been answered before. -/
def Answers (l : Ledger) (payload : List UInt8) : Prop :=
  payload.length < 8 ∨ Asked l.peer payload ∨ frameTriple payload ∈ l.owed

/-- No late answer is held against the peer, and one that only ever answers, each request
once, is never dropped for its pieces; and what is known of the peer is not overwritten. -/
structure Tolerant (l : Ledger) (ops : List Op) : Prop where
  inside : (run l ops).peer.overrun = false
  unpunished : EveryPiece l ops (fun l now payload => Late l payload → Unpunished l now payload)
  kept : EveryPiece l ops (fun l _ payload => Answers l payload) →
    EveryPiece l ops (fun l now payload => (processPiece now l.peer payload).2 ≠ .fail)

/-- What can be noted until the index is negative and no multiple of sixteen. -/
def ringLimit : Nat := 2 ^ 31 + 1

/-- Every late answer comes in time, and the index of the ring stays inside. -/
structure InTime (l : Ledger) (ops : List Op) : Prop where
  few : (run l ops).noted.length ≤ ringLimit
  recent : EveryPiece l ops (fun l _ payload => Late l payload → Recent l payload)

/-- The index after `n` calls, and whether one of them was outside. -/
structure Indexed (p : Peer) (n : Nat) : Prop where
  next : p.recentDroppedNext = wrapInt n
  overrun : p.overrun = decide (ringLimit < n)

/-- The ring holds the last of what was noted. -/
structure Remembers (p : Peer) (noted : List Triple) : Prop extends Indexed p noted.length where
  count : p.recentDroppedCount = min recentDroppedRequests noted.length
  cells : noted.length ≤ ringLimit →
    RingQueue.Recent recentDroppedRequests (fun i => triple (p.recentDropped i)) noted

section Ring

variable {p p' : Peer} {noted : List Triple}

theorem slot_inside {n : Nat} (h : n < ringLimit) :
    (wrapInt n).tmod recentDroppedRequests = (n % recentDroppedRequests : Nat) := by
  simp only [ringLimit] at h
  obtain hlt | rfl : n < 2 ^ 31 ∨ n = 2 ^ 31 := by omega
  · have hwrap : wrapInt n = n := toInt_eq hlt
    rw [hwrap]
    rfl
  · decide

theorem Indexed.remember {n : Nat} (h : Indexed p n) (index offset length : Int) :
    Indexed (rememberDropped p index offset length) (n + 1) := by
  refine ⟨?_, ?_⟩
  · simp only [rememberDropped, h.next, wrapInt, Int.bmod_add_bmod, Int.natCast_succ]
  · simp only [rememberDropped, h.next, h.overrun]
    rcases Nat.lt_trichotomy n ringLimit with hlt | rfl | hgt
    · have hslot : ¬ (wrapInt n).tmod recentDroppedRequests < 0 := by
        rw [slot_inside hlt]
        omega
      simp [hslot, Nat.not_lt.mpr (Nat.le_of_lt hlt), Nat.not_lt.mpr (Nat.succ_le_of_lt hlt)]
    · decide
    · simp [hgt, Nat.lt_succ_of_lt hgt]

theorem Indexed.expire {n : Nat} (h : Indexed p n) (gone : List BlockReq) :
    Indexed (gone.foldl (fun p r => rememberDropped p r.index r.offset r.length) p)
    (n + gone.length) := by
  induction gone generalizing p n with
  | nil => exact h
  | cons r rest ih =>
    rw [List.length_cons, Nat.add_comm rest.length, ← Nat.add_assoc]
    exact ih (h.remember r.index r.offset r.length)

theorem Indexed.same {n : Nat} (h : Indexed p n) (next : p'.recentDroppedNext = p.recentDroppedNext)
    (overrun : p'.overrun = p.overrun) : Indexed p' n :=
  ⟨next.trans h.next, overrun.trans h.overrun⟩

theorem alloc_indexed (utp : Bool) (bfBytes now dlRateBps : Nat) :
    Indexed (peerAlloc utp bfBytes now dlRateBps) 0 :=
  ⟨rfl, (decide_eq_false (Nat.not_lt_zero _)).symm⟩

theorem Remembers.same (h : Remembers p noted) (next : p'.recentDroppedNext = p.recentDroppedNext)
    (overrun : p'.overrun = p.overrun) (count : p'.recentDroppedCount = p.recentDroppedCount)
    (cells : p'.recentDropped = p.recentDropped) : Remembers p' noted := by
  refine ⟨h.toIndexed.same next overrun, count.trans h.count, ?_⟩
  rw [cells]
  exact h.cells

theorem Remembers.remember (h : Remembers p noted) (index offset length : Int) :
    Remembers (rememberDropped p index offset length) ((index, offset, length) :: noted) := by
  refine ⟨h.toIndexed.remember index offset length, ?_, ?_⟩
  · simp only [rememberDropped, h.count, List.length_cons]
    split <;> omega
  · intro hfew
    have hinside : noted.length < ringLimit := hfew
    have hslot := slot_inside hinside
    have hcells : (fun i => triple ((rememberDropped p index offset length).recentDropped i)) =
        Function.update (fun i => triple (p.recentDropped i)) (noted.length % recentDroppedRequests)
          (index, offset, length) := by
      funext i
      simp only [rememberDropped, h.next, hslot, Int.toNat_natCast,
        if_neg (Int.not_lt.mpr (Int.natCast_nonneg _)),
        Function.update_apply]
      split
      · rfl
      · rfl
    rw [hcells]
    exact (h.cells (Nat.le_of_lt hinside)).push (index, offset, length)

theorem Remembers.expire (h : Remembers p noted) (gone : List BlockReq) :
    Remembers (gone.foldl (fun p r => rememberDropped p r.index r.offset r.length) p)
      ((gone.map triple).reverse ++ noted) := by
  induction gone generalizing p noted with
  | nil => exact h
  | cons r rest ih =>
    have hnoted : Remembers (rememberDropped p r.index r.offset r.length) (triple r :: noted) :=
      h.remember r.index r.offset r.length
    have hrest := ih hnoted
    simpa only [List.foldl_cons, List.map_cons, List.reverse_cons, List.append_assoc,
      List.singleton_append] using hrest

/-- The scan of the ring finds what was noted lately. -/
theorem Remembers.recently (h : Remembers p noted) (few : noted.length ≤ ringLimit)
    (index offset length : Int) : wasRecentlyDropped p index offset length = true ↔
      (index, offset, length) ∈ noted.take recentDroppedRequests := by
  rw [(h.cells few).mem_iff, ← h.count]
  simp only [wasRecentlyDropped, List.any_eq_true, List.mem_range, Bool.and_eq_true,
    decide_eq_true_eq, triple, Prod.mk.injEq, and_assoc]

end Ring

section Steps

variable {l : Ledger} {p : Peer}

/-- What a piece leaves alone, and when it is a strike. -/
theorem processPiece_strikes (now : Nat) (p : Peer) (payload : List UInt8) :
    (processPiece now p payload).1.recentDroppedNext = p.recentDroppedNext ∧
      (processPiece now p payload).1.overrun = p.overrun ∧
      (processPiece now p payload).1.recentDroppedCount = p.recentDroppedCount ∧
      (processPiece now p payload).1.recentDropped = p.recentDropped ∧
      (processPiece now p payload).1.unsolicitedPieceStrikes = p.unsolicitedPieceStrikes +
        (if payload.length < 8 ∨ Asked p payload ∨ wasRecentlyDropped p (frameTriple payload).1
          (frameTriple payload).2.1 (frameTriple payload).2.2 = true then 0 else 1) ∧
      ((processPiece now p payload).2 = .fail →
        maxUnsolicitedPieces ≤ (processPiece now p payload).1.unsolicitedPieceStrikes) := by
  rcases processPiece_cases now p payload with ⟨hshort, heq⟩ | ⟨hlong, hnone, hrecent, heq⟩ |
    ⟨hlong, hnone, hforgotten, heq⟩ | ⟨hlong, r, hfound, heq⟩
  · simp [heq, hshort]
  · simp only [heq, frameTriple, hrecent, or_true, if_true, Nat.add_zero, true_and]
    exact fun hno => Outcome.noConfusion hno
  · have hunasked : ¬ Asked p payload := by
      intro hasked
      obtain ⟨r, hmem, hexact⟩ := List.any_eq_true.mp hasked
      exact List.find?_eq_none.mp hnone r hmem hexact
    have hnot : ¬ payload.length < 8 := Nat.not_lt.mpr hlong
    simp only [heq, frameTriple, hforgotten, hunasked, hnot, false_or, Bool.false_eq_true,
      if_false, true_and]
    intro hfail
    split at hfail
    · assumption
    · cases hfail
  · have hexact := (List.find?_eq_some_iff_append.mp hfound).1
    have hasked : Asked p payload :=
      List.any_eq_true.mpr ⟨r, List.mem_of_find?_eq_some hfound, hexact⟩
    simp only [heq, hasked, true_or, or_true, if_true, Nat.add_zero, true_and]
    exact fun hno => Outcome.noConfusion hno

theorem foldl_rememberDropped_strikes (gone : List BlockReq) (p : Peer) :
    (gone.foldl (fun p r => rememberDropped p r.index r.offset r.length)
      p).unsolicitedPieceStrikes = p.unsolicitedPieceStrikes := by
  induction gone generalizing p with
  | nil => rfl
  | cons r rest ih => exact ih _

theorem Remembers.step (h : Remembers l.peer l.noted) (op : Op) :
    Remembers (step l op).peer (step l op).noted := by
  cases op with
  | request net now piece offset len =>
    obtain ⟨out, heq | ⟨_, heq⟩⟩ := peerRequestBlock_cases net now l.peer piece offset len
    · simp only [LateAnswers.step, heq]
      exact h.same rfl rfl rfl rfl
    · simp only [LateAnswers.step, heq]
      exact h.same rfl rfl rfl rfl
  | cancel net piece offset len =>
    obtain ⟨out, heq | ⟨_, heq⟩⟩ := peerCancelBlock_cases net l.peer piece offset len
    · simp only [LateAnswers.step, heq, Bool.false_eq_true, if_false]
      exact h.same rfl rfl rfl rfl
    · simp only [LateAnswers.step, heq, if_true]
      have hout : Remembers { l.peer with out := out } l.noted := h.same rfl rfl rfl rfl
      exact (hout.remember (toInt piece) (toInt offset) (toInt len)).same rfl rfl rfl rfl
  | expire now timeoutMs =>
    exact (h.expire (l.peer.pipeline.filter (fun r => r.expired now timeoutMs))).same
      rfl rfl rfl rfl
  | piece now payload =>
    obtain ⟨hnext, hoverrun, hcount, hcells, _⟩ := processPiece_strikes now l.peer payload
    exact h.same hnext hoverrun hcount hcells

theorem Remembers.run (h : Remembers l.peer l.noted) (ops : List Op) :
    Remembers (run l ops).peer (run l ops).noted := by
  induction ops generalizing l with
  | nil => exact h
  | cons op rest ih => exact ih (h.step op)

/-- When a late answer is held against the peer. -/
theorem unpunished_iff (h : Remembers l.peer l.noted) (few : l.noted.length ≤ ringLimit) (now : Nat)
    {payload : List UInt8} (late : Late l payload) :
    Unpunished l now payload ↔ Recent l payload := by
  obtain ⟨_, _, _, _, hstrikes, _⟩ := processPiece_strikes now l.peer payload
  have hlong : ¬ payload.length < 8 := Nat.not_lt.mpr late.1
  rw [Unpunished, hstrikes, Recent, ← h.recently few]
  simp only [hlong, false_or]
  split
  · next hrecent => simpa using hrecent
  · next hforgotten => simpa using hforgotten

theorem step_strikes (l : Ledger) (op : Op)
    (unpunished : ∀ now payload, op = .piece now payload → Unpunished l now payload) :
    (step l op).peer.unsolicitedPieceStrikes = l.peer.unsolicitedPieceStrikes := by
  cases op with
  | request net now piece offset len =>
    obtain ⟨out, heq | ⟨_, heq⟩⟩ := peerRequestBlock_cases net now l.peer piece offset len <;>
      simp only [LateAnswers.step, heq]
  | cancel net piece offset len =>
    obtain ⟨out, heq | ⟨_, heq⟩⟩ := peerCancelBlock_cases net l.peer piece offset len
    · simp only [LateAnswers.step, heq, Bool.false_eq_true, if_false]
    · simp only [LateAnswers.step, heq, if_true]
      rfl
  | expire now timeoutMs => exact foldl_rememberDropped_strikes _ _
  | piece now payload => exact unpunished now payload rfl

theorem EveryPiece.before {ops more : List Op} {P : Ledger → Nat → List UInt8 → Prop}
    (h : EveryPiece l (ops ++ more) P) : EveryPiece l ops P := by
  intro before now payload after heq
  refine h before now payload (after ++ more) ?_
  rw [heq, List.append_assoc, List.cons_append]

/-- A run whose pieces are all let pass leaves the strikes as they are. -/
theorem run_strikes {ops : List Op} (unpunished : EveryPiece l ops Unpunished) :
    (run l ops).peer.unsolicitedPieceStrikes = l.peer.unsolicitedPieceStrikes := by
  induction ops using List.reverseRecOn with
  | nil => rfl
  | append_singleton ops op ih =>
    rw [run_append, ← ih unpunished.before]
    refine step_strikes (run l ops) op ?_
    rintro now payload rfl
    exact unpunished ops now payload [] rfl

/-- A piece that is not late is let pass if it is asked for, or too short to be one. -/
theorem unpunished_of_answers (now : Nat) {payload : List UInt8} (answers : Answers l payload)
    (late : Late l payload → Unpunished l now payload) : Unpunished l now payload := by
  obtain ⟨_, _, _, _, hstrikes, _⟩ := processPiece_strikes now l.peer payload
  by_cases hshort : payload.length < 8
  · rw [Unpunished, hstrikes, if_pos (Or.inl hshort), Nat.add_zero]
  · rcases answers with hno | hasked | howed
    · exact absurd hno hshort
    · rw [Unpunished, hstrikes, if_pos (Or.inr (Or.inl hasked)), Nat.add_zero]
    · exact late ⟨Nat.le_of_not_lt hshort, howed⟩

end Steps

/-- What was noted is noted for good. -/
theorem noted_le (l : Ledger) (ops : List Op) : l.noted.length ≤ (run l ops).noted.length := by
  induction ops generalizing l with
  | nil => exact Nat.le_refl _
  | cons op rest ih =>
    have hstep : l.noted.length ≤ (step l op).noted.length := by
      cases op with
      | request net now piece offset len => exact Nat.le_refl _
      | cancel net piece offset len =>
        simp only [step]
        split
        · exact Nat.le_succ _
        · exact Nat.le_refl _
      | expire now timeoutMs => simp [step]
      | piece now payload => exact Nat.le_refl _
    exact hstep.trans (ih (step l op))

/-- Late answers are let pass in a run exactly if each of them is asked for again or is among
the last sixteen blocks that were given up. -/
theorem tolerant_iff (utp : Bool) (bfBytes now dlRateBps : Nat) (ops : List Op) :
    Tolerant (.opened utp bfBytes now dlRateBps) ops ↔
      InTime (.opened utp bfBytes now dlRateBps) ops := by
  have hstart : Remembers (Ledger.opened utp bfBytes now dlRateBps).peer
      (Ledger.opened utp bfBytes now dlRateBps).noted :=
    ⟨alloc_indexed utp bfBytes now dlRateBps, rfl, fun _ => RingQueue.recent_nil _ _⟩
  have hinside := (hstart.run ops).overrun
  have hbefore : (run (.opened utp bfBytes now dlRateBps) ops).noted.length ≤ ringLimit →
      ∀ before more, ops = before ++ more →
        (run (.opened utp bfBytes now dlRateBps) before).noted.length ≤ ringLimit := by
    rintro hfew before more rfl
    rw [run_append] at hfew
    exact (noted_le _ more).trans hfew
  constructor
  · intro htolerant
    have hfew : (run (.opened utp bfBytes now dlRateBps) ops).noted.length ≤ ringLimit := by
      rw [htolerant.inside] at hinside
      exact Nat.le_of_not_lt (of_decide_eq_false hinside.symm)
    refine ⟨hfew, ?_⟩
    intro before at_ payload after heq hlate
    exact (unpunished_iff (hstart.run before) (hbefore hfew before _ heq) at_ hlate).mp
      (htolerant.unpunished before at_ payload after heq hlate)
  · intro hinTime
    have hlate : EveryPiece (.opened utp bfBytes now dlRateBps) ops
        (fun l now payload => Late l payload → Unpunished l now payload) := by
      intro before at_ payload after heq hlate
      exact (unpunished_iff (hstart.run before) (hbefore hinTime.few before _ heq) at_ hlate).mpr
        (hinTime.recent before at_ payload after heq hlate)
    refine ⟨hinside.trans (decide_eq_false (Nat.not_lt.mpr hinTime.few)), hlate, ?_⟩
    intro hanswers before at_ payload after heq
    have hall : EveryPiece (.opened utp bfBytes now dlRateBps) ops Unpunished :=
      fun before at_ payload after heq =>
      unpunished_of_answers at_ (hanswers before at_ payload after heq)
        (hlate before at_ payload after heq)
    have hthis := hall before at_ payload after heq
    subst heq
    have hbefore := run_strikes hall.before
    have hzero : (Ledger.opened utp bfBytes now dlRateBps).peer.unsolicitedPieceStrikes = 0 := rfl
    obtain ⟨_, _, _, _, _, hfail⟩ :=
      processPiece_strikes at_ (run (.opened utp bfBytes now dlRateBps) before).peer payload
    intro hfailed
    have hmany := hfail hfailed
    rw [hthis, hbefore, hzero] at hmany
    exact absurd hmany (by decide)

/-! Seventeen requests expire together, and the first of them is answered then. -/

def ask (piece : Nat) : Op := .request (fun _ len => len) 0 piece 0 1

/-- The block of one byte that `ask` asks for. -/
def block (piece : Nat) : List UInt8 := word piece ++ word 0 ++ [7]

def givenUp (n : Nat) : List Op := (List.range n).map ask ++ [.expire 20000 15000]

theorem givenUp_late : Late (run (.opened false 1 0 0) (givenUp 17)) (block 0) :=
  ⟨by decide, by decide +kernel⟩

theorem givenUp_strike :
    (run (.opened false 1 0 0) (givenUp 17)).peer.unsolicitedPieceStrikes = 0 ∧
      (processPiece 20000 (run (.opened false 1 0 0) (givenUp 17)).peer
        (block 0)).1.unsolicitedPieceStrikes = 1 := by
  decide +kernel

/-- The answer to the oldest is a strike, and eight such answers are the end of the
connection. -/
theorem forgotten_answers :
    (¬ Tolerant (.opened false 1 0 0) (givenUp 17 ++ [.piece 20000 (block 0)])) ∧
      (run (.opened false 1 0 0) (givenUp 24 ++ (List.range 8).map (fun piece =>
        .piece 20000 (block piece)))).peer.unsolicitedPieceStrikes = maxUnsolicitedPieces := by
  refine ⟨?_, by decide +kernel⟩
  intro htolerant
  have hsame := htolerant.unpunished (givenUp 17) 20000 (block 0) [] rfl givenUp_late
  obtain ⟨hbefore, hafter⟩ := givenUp_strike
  rw [Unpunished, hbefore, hafter] at hsame
  cases hsame

end LateAnswers
