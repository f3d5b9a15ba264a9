import Mathlib.Data.List.Basic

/-!
# Readers of a stream that arrives in chunks

A reader looks at the bytes it has and waits for more, stops for good, or uses some of
them and goes on. If a decision once made is not changed by further bytes, then it makes
no difference how the stream is cut into chunks.
-/

namespace StreamReader

universe u v w

/-- One round of a reader: the new state, what it gives out, and how much it has used. -/
inductive Step (σ : Type u) (ε : Type w) where
  | wait
  | stop (state : σ) (out : List ε) (used : Nat)
  | next (state : σ) (out : List ε) (used : Nat)

/-- A reader after some rounds, with what it has not used of its input. -/
structure Result (σ : Type u) (α : Type v) (ε : Type w) where
  state : σ
  out : List ε
  rest : List α
  stopped : Bool

variable {σ : Type u} {α : Type v} {ε : Type w}

namespace Result

/-- A result with what was given out before it. -/
def after (r : Result σ α ε) (out : List ε) : Result σ α ε := { r with out := out ++ r.out }

/-- A result with input that it does not look at. -/
def followed (r : Result σ α ε) (more : List α) : Result σ α ε := { r with rest := r.rest ++ more }

@[simp] theorem after_state (r : Result σ α ε) (out : List ε) : (r.after out).state = r.state := rfl

@[simp] theorem after_out (r : Result σ α ε) (out : List ε) :
    (r.after out).out = out ++ r.out := rfl

@[simp] theorem after_rest (r : Result σ α ε) (out : List ε) : (r.after out).rest = r.rest := rfl

@[simp] theorem after_stopped (r : Result σ α ε) (out : List ε) :
    (r.after out).stopped = r.stopped := rfl

@[simp] theorem followed_stopped (r : Result σ α ε) (more : List α) :
    (r.followed more).stopped = r.stopped := rfl

theorem after_nil (r : Result σ α ε) : r.after [] = r := rfl

theorem after_after (r : Result σ α ε) (a b : List ε) : (r.after b).after a = r.after (a ++ b) := by
  simp [after]

theorem after_followed (r : Result σ α ε) (out : List ε) (more : List α) :
    (r.after out).followed more = (r.followed more).after out := rfl

end Result

variable (read : σ → List α → Step σ ε)

/-- A round that is not the last uses some of the input, and what is decided does not depend
on what comes after. -/
structure Incremental : Prop where
  progress : ∀ {s s' buf out used}, read s buf = .next s' out used → 0 < used ∧ used ≤ buf.length
  last : ∀ {s s' buf out used}, read s buf = .stop s' out used → used ≤ buf.length
  stable : ∀ {s buf}, read s buf ≠ .wait → ∀ more, read s (buf ++ more) = read s buf

/-- Rounds until the reader waits or stops. -/
def drainFrom : Nat → σ → List α → Result σ α ε
  | 0, s, buf => ⟨s, [], buf, false⟩
  | fuel + 1, s, buf =>
    match read s buf with
    | .wait => ⟨s, [], buf, false⟩
    | .stop s' out used => ⟨s', out, buf.drop used, true⟩
    | .next s' out used => (drainFrom fuel s' (buf.drop used)).after out

/-- A round uses at least one byte, so this is enough of them. -/
def drain (s : σ) (buf : List α) : Result σ α ε := drainFrom read (buf.length + 1) s buf

/-- More input for a reader. -/
def feed (r : Result σ α ε) (chunk : List α) : Result σ α ε :=
  if r.stopped then r.followed chunk else (drain read r.state (r.rest ++ chunk)).after r.out

variable {read}

section Rounds

variable {s s' : σ} {buf : List α} {out : List ε} {used : Nat}

theorem drain_wait (h : read s buf = .wait) : drain read s buf = ⟨s, [], buf, false⟩ := by
  simp [drain, drainFrom, h]

theorem drain_stop (h : read s buf = .stop s' out used) :
    drain read s buf = ⟨s', out, buf.drop used, true⟩ := by
  simp [drain, drainFrom, h]

theorem drainFrom_enough (inc : Incremental read) {fuel fuel' : Nat} (enough : buf.length < fuel)
    (enough' : buf.length < fuel') : drainFrom read fuel s buf = drainFrom read fuel' s buf := by
  induction fuel generalizing fuel' s buf with
  | zero => omega
  | succ fuel ih =>
    cases fuel' with
    | zero => omega
    | succ fuel' =>
      cases hread : read s buf with
      | wait => simp [drainFrom, hread]
      | stop s' out used => simp [drainFrom, hread]
      | next s' out used =>
        obtain ⟨hpos, hle⟩ := inc.progress hread
        have hshort : (buf.drop used).length < buf.length := by
          rw [List.length_drop]
          omega
        have hrest : drainFrom read fuel s' (buf.drop used) =
          drainFrom read fuel' s' (buf.drop used) :=
          ih (by omega) (by omega)
        simp only [drainFrom, hread, hrest]

theorem drain_next (inc : Incremental read) (h : read s buf = .next s' out used) :
    drain read s buf = (drain read s' (buf.drop used)).after out := by
  obtain ⟨hpos, hle⟩ := inc.progress h
  have hrest : drainFrom read buf.length s' (buf.drop used) = drain read s' (buf.drop used) := by
    refine drainFrom_enough inc ?_ (Nat.lt_succ_self _)
    rw [List.length_drop]
    omega
  simp only [drain, drainFrom, h]
  rw [hrest]
  rfl

end Rounds

section Chunks

variable {s : σ} {buf : List α}

/-- Draining follows the rounds of the reader. -/
theorem drain_induction (inc : Incremental read) {P : σ → List α → Prop}
    (wait : ∀ s buf, read s buf = .wait → P s buf)
    (stop : ∀ s buf s' out used, read s buf = .stop s' out used → P s buf)
    (next : ∀ s buf s' out used, read s buf = .next s' out used → P s' (buf.drop used) → P s buf)
    (s : σ) (buf : List α) : P s buf := by
  induction hlength : buf.length using Nat.strongRecOn generalizing s buf with
  | _ n ih =>
    cases hread : read s buf with
    | wait => exact wait s buf hread
    | stop s' out used => exact stop s buf s' out used hread
    | next s' out used =>
      obtain ⟨hpos, hle⟩ := inc.progress hread
      refine next s buf s' out used hread (ih (buf.drop used).length ?_ s' _ rfl)
      rw [List.length_drop]
      omega

/-- A reader that has not stopped waits. -/
theorem drain_waits (inc : Incremental read) (s : σ) (buf : List α)
    (h : (drain read s buf).stopped = false) :
    read (drain read s buf).state (drain read s buf).rest = .wait := by
  induction s, buf using drain_induction inc with
  | wait s buf hread =>
    rw [drain_wait hread]
    exact hread
  | stop s buf s' out used hread =>
    rw [drain_stop hread] at h
    cases h
  | next s buf s' out used hread ih =>
    rw [drain_next inc hread] at h ⊢
    exact ih h

/-- What is left is an end of the input. -/
theorem drain_rest (inc : Incremental read) (s : σ) (buf : List α) :
    (drain read s buf).rest <:+ buf := by
  induction s, buf using drain_induction inc with
  | wait s buf hread => exact ⟨[], by rw [drain_wait hread, List.nil_append]⟩
  | stop s buf s' out used hread =>
    rw [drain_stop hread]
    exact List.drop_suffix used buf
  | next s buf s' out used hread ih =>
    rw [drain_next inc hread]
    exact ih.trans (List.drop_suffix used buf)

theorem feed_after (r : Result σ α ε) (out : List ε) (chunk : List α) :
    feed read (r.after out) chunk = (feed read r chunk).after out := by
  simp only [feed, Result.after_stopped, Result.after_state, Result.after_rest, Result.after_out]
  by_cases hstopped : r.stopped = true
  · simp only [hstopped, if_true]
    exact Result.after_followed r out chunk
  · simp only [hstopped]
    exact (Result.after_after _ _ _).symm

/-- Draining in two goes. -/
theorem drain_append (inc : Incremental read) (s : σ) (buf more : List α) :
    drain read s (buf ++ more) = feed read (drain read s buf) more := by
  induction s, buf using drain_induction inc with
  | wait s buf hread => simp [drain_wait hread, feed, Result.after_nil]
  | stop s buf s' out used hread =>
    have hagain := inc.stable (by rw [hread]; simp) more
    rw [drain_stop hread, drain_stop (hagain.trans hread), List.drop_append_of_le_length
      (inc.last hread)]
    rfl
  | next s buf s' out used hread ih =>
    obtain ⟨_, hle⟩ := inc.progress hread
    have hagain := inc.stable (by rw [hread]; simp) more
    rw [drain_next inc hread, drain_next inc (hagain.trans hread),
      List.drop_append_of_le_length hle, ih, feed_after]

end Chunks

end StreamReader
