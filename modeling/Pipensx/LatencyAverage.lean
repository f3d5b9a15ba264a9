import Mathlib.Data.List.Induction
import Pipensx.PeerRequests

/-!
# The average of the block latencies

`process_message` moves `block_lat_ema_ms` by three tenths of the way to the latency of the answer,
in `int32_t`. The average stays between its old value and the sample where the difference times
three is an `int32_t`, and where the casts to `int32_t` keep the two in order.
-/

namespace LatencyAverage

open PeerSend PeerRequests

/-- The latency that a PIECE message is a sample of, if it answers a request. -/
def latencySample (p : Peer) (now : Nat) (payload : List UInt8) : Option Nat :=
  if payload.length < 8 then none
  else
    match takePipelineRequest p (be32 payload) (be32 (payload.drop 4)) (payload.drop 8).length with
    | none => none
    | some (_, requestedMs) =>
      if requestedMs ≠ 0 ∧ requestedMs ≤
        now then some (max 1 ((now - requestedMs) % 2 ^ 32)) else none

/-- The average after a sample. -/
def averaged (ema sample : Nat) : Nat :=
  if ema ≠ 0 then ((toInt ema + (wrapInt (wrapInt (toInt sample - toInt ema) * 3)).tdiv 10) % 2 ^
    32).toNat
  else sample

/-- The difference times three is in the range of an `int32_t`, and both latencies are on the same
side of the sign bit; or the difference is too small to count. -/
def Moderate (ema sample : Nat) : Prop :=
  (toInt sample - toInt ema).natAbs ≤ 715827882 ∧
    ((sample < 2 ^ 31 ↔ ema < 2 ^ 31) ∨ (toInt sample - toInt ema).natAbs ≤ 3)

instance (ema sample : Nat) : Decidable (Moderate ema sample) := inferInstanceAs (Decidable (_ ∧ _))

/-- A PIECE message that is processed at a clock reading, or anything else that happens to the peer
and leaves the average as it is. -/
inductive Event where
  | piece (now : Nat) (payload : List UInt8)
  | other (change : Peer → Peer) (keeps : ∀ p, (change p).blockLatEmaMs = p.blockLatEmaMs)

def Event.apply (p : Peer) : Event → Peer
  | .piece now payload => (processPiece now p payload).1
  | .other change _ => change p

def runEvents (p : Peer) (events : List Event) : Peer := events.foldl Event.apply p

/-- A sample leaves the average between the old value and the sample, and without a sample it stays.
-/
def Within (p : Peer) : Event → Prop
  | .piece now payload =>
    match latencySample p now payload with
    | none => ((processPiece now p payload).1).blockLatEmaMs = p.blockLatEmaMs
    | some sample => min p.blockLatEmaMs sample ≤ ((processPiece now p payload).1).blockLatEmaMs ∧
        ((processPiece now p payload).1).blockLatEmaMs ≤ max p.blockLatEmaMs sample
  | .other _ _ => True

/-- Once there is an average it is not zero again, and every update is between the old value and the
sample. -/
structure StaysWithin (p : Peer) (events : List Event) : Prop where
  nonzero : ∀ before after, before <+: after → after <+: events →
    (runEvents p before).blockLatEmaMs ≠ 0 → (runEvents p after).blockLatEmaMs ≠ 0
  within : ∀ before e, before ++ [e] <+: events → Within (runEvents p before) e

/-- The sample of an event, where there is an average already, is not too far from it. -/
def Gentle (p : Peer) : Event → Prop
  | .piece now payload => p.blockLatEmaMs ≠ 0 →
      ∀ sample, latencySample p now payload = some sample → Moderate p.blockLatEmaMs sample
  | .other _ _ => True

def EveryGentle : Peer → List Event → Prop
  | _, [] => True
  | p, e :: rest => Gentle p e ∧ EveryGentle (e.apply p) rest

theorem wrapInt_eq {v : Int} (h : v.natAbs < 2 ^ 31) : wrapInt v = v := by
  rw [wrapInt]
  exact Int.bmod_eq_of_le_mul_two (by omega) (by omega)

theorem toInt_high {n : Nat} (h : 2 ^ 31 ≤ n) (hn : n < 2 ^ 32) : toInt n = (n : Int) - 2 ^ 32 := by
  have hmod := toInt_emod hn
  have hlow : -(2 ^ 31) ≤ toInt n := Int.le_bmod (by decide)
  have hhigh : toInt n < 2 ^ 31 := Int.bmod_lt (by decide)
  omega

/-- Three tenths of a difference, cut off towards zero, do not go past it, and reach it only at
zero. -/
theorem tenths_toward (d : Int) :
    (0 ≤ d → 0 ≤ (d * 3).tdiv 10 ∧ (d * 3).tdiv 10 ≤ d) ∧
      (d ≤ 0 → d ≤ (d * 3).tdiv 10 ∧ (d * 3).tdiv 10 ≤ 0) ∧
      ((d * 3).tdiv 10 = 0 ↔ d.natAbs ≤ 3) ∧ ((d * 3).tdiv 10 = d → d = 0) := by
  have hup : ∀ e : Int, 0 ≤ e → (e * 3).tdiv 10 = e * 3 / 10 :=
    fun e he => Int.tdiv_eq_ediv_of_nonneg (by omega)
  have hdown : d ≤ 0 → (d * 3).tdiv 10 = -(-d * 3 / 10) := by
    intro hd
    rw [← hup (-d) (by omega), Int.neg_mul, Int.neg_tdiv, Int.neg_neg]
  rcases Int.le_total 0 d with hd | hd
  · rw [hup d hd]
    omega
  · rw [hdown hd]
    omega

/-- Where nothing leaves the range, the sign bits decide. -/
theorem averaged_between_iff {ema sample : Nat} (hema : ema < 2 ^ 32) (hsample : sample < 2 ^ 32)
    (hpos : ema ≠ 0) (hnear : (toInt sample - toInt ema).natAbs ≤ 715827882) :
    (min ema sample ≤ averaged ema sample ∧ averaged ema sample ≤ max ema sample) ↔
      (sample < 2 ^ 31 ↔ ema < 2 ^ 31) ∨ (toInt sample - toInt ema).natAbs ≤ 3 := by
  have hexact : wrapInt (wrapInt (toInt sample - toInt ema) * 3) =
    (toInt sample - toInt ema) * 3 := by
    rw [wrapInt_eq (v := toInt sample - toInt ema) (by omega), wrapInt_eq (by omega)]
  have hvalue : ∀ n : Nat, n < 2 ^ 32 →
    toInt n = if n < 2 ^ 31 then (n : Int) else (n : Int) - 2 ^ 32 := by
    intro n hn
    split
    · next hlow => exact toInt_eq hlow
    · next hhigh => exact toInt_high (Nat.le_of_not_lt hhigh) hn
  obtain ⟨hup, hdown, hfew, hall⟩ := tenths_toward (toInt sample - toInt ema)
  have hs := hvalue sample hsample
  have he := hvalue ema hema
  rw [averaged, if_pos hpos, hexact]
  -- the casts stay closed: the kernel is not to compare them by unfolding
  generalize toInt sample = s at *
  generalize toInt ema = e at *
  by_cases hlow : ema < 2 ^ 31
  · rw [if_pos hlow] at he
    by_cases hslow : sample < 2 ^ 31
    · rw [if_pos hslow] at hs
      omega
    · rw [if_neg hslow] at hs
      omega
  · rw [if_neg hlow] at he
    by_cases hslow : sample < 2 ^ 31
    · rw [if_pos hslow] at hs
      omega
    · rw [if_neg hslow] at hs
      omega

theorem averaged_between {ema sample : Nat} (hema : ema < 2 ^ 32) (hsample : sample < 2 ^ 32)
    (hpos : ema ≠ 0) (h : Moderate ema sample) : min ema sample ≤ averaged ema sample ∧
    averaged ema sample ≤ max ema sample :=
  (averaged_between_iff hema hsample hpos h.1).mpr h.2

section Events

variable {p : Peer}

theorem latencySample_range {now sample : Nat} {payload : List UInt8}
    (h : latencySample p now payload = some sample) :
    0 < sample ∧ sample < 2 ^ 32 := by
  rw [latencySample] at h
  split at h
  · cases h
  · split at h
    · cases h
    · split at h
      · cases h
        omega
      · cases h

theorem piece_average (now : Nat) (p : Peer) (payload : List UInt8) :
    (processPiece now p payload).1.blockLatEmaMs =
      match latencySample p now payload with
      | none => p.blockLatEmaMs
      | some sample => averaged p.blockLatEmaMs sample := by
  by_cases hshort : payload.length < 8
  · simp only [processPiece, latencySample, hshort, if_true]
  cases htake : takePipelineRequest p (be32 payload) (be32 (payload.drop 4))
    (payload.drop 8).length with
  | none =>
    simp only [processPiece, latencySample, hshort, if_false, htake]
    split <;> rfl
  | some taken =>
    obtain ⟨p', requestedMs⟩ := taken
    have hsame : p'.blockLatEmaMs = p.blockLatEmaMs := by
      obtain ⟨r, -, hr⟩ := Option.map_eq_some_iff.mp htake
      cases hr
      rfl
    simp only [processPiece, latencySample, hshort, if_false, htake, latencyEma, hsame]
    have hclamp : (if (now - requestedMs) % 2 ^ 32 = 0 then 1 else (now - requestedMs) % 2 ^ 32) =
        max 1 ((now - requestedMs) % 2 ^ 32) := by
      split <;> omega
    rw [hclamp]
    by_cases hclock : requestedMs ≠ 0 ∧ requestedMs ≤ now
    · rw [if_pos hclock, if_pos hclock]
      rfl
    · rw [if_neg hclock, if_neg hclock]

theorem averaged_lt {ema sample : Nat} (hsample : sample < 2 ^ 32) :
    averaged ema sample < 2 ^ 32 := by
  rw [averaged]
  split
  · omega
  · exact hsample

theorem piece_range {now : Nat} {payload : List UInt8} (h : p.blockLatEmaMs < 2 ^ 32) :
    (processPiece now p payload).1.blockLatEmaMs < 2 ^ 32 := by
  rw [piece_average]
  split
  · exact h
  · next hsample => exact averaged_lt (latencySample_range hsample).2

/-- One event, from an average or from none. -/
theorem Gentle.within {e : Event} (gentle : Gentle p e) (range : p.blockLatEmaMs < 2 ^ 32) :
    Within p e := by
  cases e with
  | other change keeps => trivial
  | piece now payload =>
    have haverage := piece_average now p payload
    rw [Within]
    cases hsample : latencySample p now payload with
    | none =>
      rw [hsample] at haverage
      exact haverage
    | some sample =>
      rw [hsample] at haverage
      simp only at haverage ⊢
      obtain ⟨hpos, hlt⟩ := latencySample_range hsample
      rw [haverage]
      by_cases hzero : p.blockLatEmaMs = 0
      · rw [averaged, if_neg (not_not_intro hzero)]
        omega
      · exact averaged_between range hlt hzero (gentle hzero sample hsample)

theorem Within.nonzero {e : Event} (h : Within p e) (hp : p.blockLatEmaMs ≠ 0) :
    (e.apply p).blockLatEmaMs ≠ 0 := by
  cases e with
  | other change keeps =>
    rw [Event.apply, keeps]
    exact hp
  | piece now payload =>
    rw [Within] at h
    rw [Event.apply]
    cases hsample : latencySample p now payload with
    | none =>
      rw [hsample] at h
      rw [h]
      exact hp
    | some sample =>
      rw [hsample] at h
      have hpos := (latencySample_range hsample).1
      simp only at h
      omega

theorem apply_range {e : Event} (h : p.blockLatEmaMs < 2 ^ 32) :
    (e.apply p).blockLatEmaMs < 2 ^ 32 := by
  cases e with
  | piece now payload => exact piece_range h
  | other change keeps =>
    rw [Event.apply, keeps]
    exact h

end Events

theorem EveryGentle.within {p : Peer} {events : List Event} (gentle : EveryGentle p events)
    (range : p.blockLatEmaMs < 2 ^ 32) {before : List Event} {e : Event}
    (reached : before ++ [e] <+: events) : Within (runEvents p before) e := by
  induction before generalizing p events with
  | nil =>
    obtain ⟨rest, rfl⟩ := reached
    exact gentle.1.within range
  | cons e' before ih =>
    obtain ⟨rest, rfl⟩ := reached
    exact ih gentle.2 (apply_range range) (List.prefix_append _ rest)

theorem runEvents_append (p : Peer) (events more : List Event) :
    runEvents p (events ++ more) = runEvents (runEvents p events) more :=
  List.foldl_append

/-- As long as no sample is too far from the average, the average of a new peer is not zero again
after its first sample, and every update is between the old value and the sample. -/
theorem run_staysWithin {p : Peer} (fresh : p.blockLatEmaMs = 0) {events : List Event}
    (gentle : EveryGentle p events) : StaysWithin p events := by
  have range : p.blockLatEmaMs < 2 ^ 32 := by omega
  refine ⟨fun before after hbefore hafter hpos => ?_, fun before e reached =>
    gentle.within range reached⟩
  obtain ⟨more, rfl⟩ := hbefore
  induction more using List.reverseRecOn with
  | nil => rwa [List.append_nil]
  | append_singleton more e ih =>
    rw [← List.append_assoc] at hafter ⊢
    have hkept := ih ((List.prefix_append _ [e]).trans hafter)
    rw [runEvents_append]
    exact (gentle.within range hafter).nonzero hkept

theorem peerRequestBlock_average (net : Transport) (now : Nat) (p : Peer) (piece offset len : Nat) :
    (peerRequestBlock net now p piece offset len).1.blockLatEmaMs = p.blockLatEmaMs := by
  unfold peerRequestBlock
  split
  · rfl
  · dsimp only
    split <;> rfl

/-- The first byte of the torrent is asked for at a clock reading. -/
def askedAt (now : Nat) : Event :=
  .other (fun p => (peerRequestBlock (fun _ len => len) now p 0 0 1).1) fun p =>
    peerRequestBlock_average _ now p 0 0 1

def firstByte : List UInt8 := [0, 0, 0, 0, 0, 0, 0, 0, 7]

theorem run_staysWithin_twice :
    StaysWithin (peerAlloc false 1 0 0)
        [askedAt 1, .piece 101 firstByte, askedAt 200, .piece 250 firstByte] ∧
      (runEvents (peerAlloc false 1 0 0)
        [askedAt 1, .piece 101 firstByte, askedAt 200, .piece 250 firstByte]).blockLatEmaMs =
          85 := by
  refine ⟨run_staysWithin rfl ⟨trivial, fun h => absurd rfl h, trivial, fun _ sample h =>
    ?_, trivial⟩, by decide +kernel⟩
  have hfifty : sample = 50 := by
    have heval : latencySample
      (runEvents (peerAlloc false 1 0 0) [askedAt 1, .piece 101 firstByte, askedAt 200]) 250
        firstByte = some 50 := by decide +kernel
    exact Option.some.inj (h.symm.trans heval)
  rw [hfifty]
  decide +kernel

/-- An answer after sixteen days: three times the difference is -1000 as an `int32_t`, and a hundred
milliseconds less a hundred are none. -/
theorem suspended_average_zero :
    ¬ StaysWithin (peerAlloc false 1 0 0)
      [askedAt 1, .piece 101 firstByte, askedAt 1, .piece 1431655533 firstByte] := by
  intro h
  have hbefore :
      (runEvents (peerAlloc false 1 0 0) [askedAt 1, .piece 101 firstByte]).blockLatEmaMs = 100 := by
    decide +kernel
  have hafter :
      (runEvents (peerAlloc false 1 0 0)
        [askedAt 1, .piece 101 firstByte, askedAt 1, .piece 1431655533 firstByte]).blockLatEmaMs =
          0 := by
    decide +kernel
  refine h.nonzero [askedAt 1, .piece 101 firstByte] _
    (List.prefix_append _ [askedAt 1, .piece 1431655533 firstByte])
    (List.prefix_refl _) ?_ hafter
  rw [hbefore]
  decide

end LatencyAverage
