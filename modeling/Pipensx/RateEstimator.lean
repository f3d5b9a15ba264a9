import Pipensx.EngineMoves

/-!
# The estimate of a peer's download rate

Once a second `torrent_tick` moves `dl_rate_bps` three tenths of the way to the measured rate, and
a peer that keeps its window full gets half as much again. The window is sized from the same rate,
so that the growth ends where the window is as large as the torrent allows. All of it is in
`uint64_t`, and the growth ends there only if the size of the window is right.
-/

namespace RateEstimator

open PeerRequests TorrentEngine PieceGeometry

/-- A peer in its slot, with what `torrent_tick` keeps for all of them, and the largest sample that
was measured so far. -/
structure Estimate where
  peer : Peer
  rateFreeze : Bool
  speedTimeMs : UInt64
  largest : Nat

/-- What is no block and no sample leaves the bytes and the rate as they are, and the pipeline in
its array. -/
structure Keeps (p p' : Peer) : Prop where
  rate : p'.dlRateBps = p.dlRateBps
  sampled : p'.rateLastDownloaded = p.rateLastDownloaded
  downloaded : p'.downloaded = p.downloaded
  lastPiece : p'.lastPieceMs = p.lastPieceMs
  pipeline : p.pipeline.length ≤ maxPipeline → p'.pipeline.length ≤ maxPipeline

/-- A PIECE message at a clock reading that is not zero, a tick, the application's freeze, or
anything else that happens to the peer. -/
inductive Event where
  | piece (now : Nat) (payload : List UInt8) (clock : now ≠ 0)
  | tick (now : UInt64)
  | freeze (on : Bool)
  | other (change : Peer → Peer) (keeps : ∀ p, Keeps p (change p))

/-- A tick samples once a second. A clock that goes back by a millisecond makes it divide by zero.
-/
def step (u : Setup) (s : Estimate) : Event → Option Estimate
  | .piece now payload _ => some { s with peer := (processPiece now s.peer payload).1 }
  | .tick now =>
    let elapsedMs := (now - s.speedTimeMs).toNat
    if elapsedMs < 1000 then some s
    else if elapsedMs + 1 = 2 ^ 64 then none
    else
      some { s with
        peer := samplePeerRate u s.rateFreeze elapsedMs now.toNat s.peer
        speedTimeMs := now
        largest := if s.rateFreeze then s.largest else max s.largest (rateSample elapsedMs s.peer) }
  | .freeze on => some { s with rateFreeze := on }
  | .other change _ => some { s with peer := change s.peer }

def run (u : Setup) : Estimate → List Event → Option Estimate
  | s, [] => some s
  | s, e :: rest => (step u s e).bind fun s' => run u s' rest

/-- A peer as `try_connect` puts it into its slot. -/
def connected (utp : Bool) (bfBytes now : Nat) (rateFreeze : Bool) (speedTimeMs : UInt64) :
    Estimate :=
  ⟨peerAlloc utp bfBytes now pipelineBootstrapBps, rateFreeze, speedTimeMs, 0⟩

/-- The rate at which the window reaches `request_pipeline_limit` blocks. -/
def fullWindowBps (u : Setup) : Nat := u.requestPipelineLimit * blockSize / 2

def peak (u : Setup) (largest : Nat) : Nat :=
  max pipelineBootstrapBps (max largest (fullWindowBps u * 3 / 2))

/-- The products of `sample_peer_rates` and of what it calls are those of the numbers. -/
structure ProductsFit (u : Setup) (elapsedMs : Nat) (p : Peer) : Prop where
  bytes : (p.downloaded - p.rateLastDownloaded) * 1000 < 2 ^ 64
  above : (rateSample elapsedMs p - p.dlRateBps) * 3 < 2 ^ 64
  below : (p.dlRateBps - rateSample elapsedMs p) * 3 < 2 ^ 64
  window : p.dlRateBps * pipelineTargetMs < 2 ^ 64
  grown : p.dlRateBps * 3 < 2 ^ 64
  queued : p.pipeline.length * 4 < 2 ^ 32
  limit : peerPipelineLimit u p * 3 < 2 ^ 32

/-- The rate is bounded as long as no sample makes the product of the window wrap, which takes more
than 2^52 bytes; until then no product wraps. A frozen rate stays. -/
structure Restrained (u : Setup) (s : Estimate) : Prop where
  bounded : s.largest * pipelineTargetMs < 2 ^ 64 → s.peer.dlRateBps ≤ peak u s.largest
  fits : s.peer.downloaded < 2 ^ 52 → s.peer.dlRateBps ≤ peak u s.largest ∧
    ∀ elapsedMs, 1000 ≤ elapsedMs → elapsedMs + 1 < 2 ^ 64 → ProductsFit u elapsedMs s.peer
  frozen : s.rateFreeze = true → ∀ e s', step u s e = some s' → s'.peer.dlRateBps = s.peer.dlRateBps

/-- What the bytes, the clock of the last block and the largest sample have to do with each other.
-/
structure Measured (u : Setup) (s : Estimate) : Prop where
  sampled : s.peer.rateLastDownloaded ≤ s.peer.downloaded
  delivered : 0 < s.peer.downloaded → s.peer.lastPieceMs ≠ 0
  largest : s.peer.downloaded < 2 ^ 52 → s.largest < 2 ^ 52
  pipeline : s.peer.pipeline.length ≤ maxPipeline
  rate : s.largest * pipelineTargetMs < 2 ^ 64 → s.peer.dlRateBps ≤ peak u s.largest

/-- The average moves towards the sample and not past it. -/
theorem emaUpdate_le {previous sample : Nat} (h : sample * 3 < 2 ^ 64) :
    emaUpdate previous sample ≤ max previous sample := by
  rw [emaUpdate]
  split
  · have hproduct : (sample - previous) * 3 % 2 ^ 64 = (sample - previous) * 3 :=
      Nat.mod_eq_of_lt (by omega)
    rw [hproduct]
    exact (Nat.mod_le _ _).trans (by omega)
  · exact (Nat.sub_le _ _).trans (le_max_left _ _)

/-- A full second is measured, and less than the bytes per second come out. -/
theorem rateSample_lt {elapsedMs n : Nat} {p : Peer} (second : 1000 ≤ elapsedMs)
    (bytes : p.downloaded < 2 ^ n)
    (fits : elapsedMs + 1 < 2 ^ 64) : rateSample elapsedMs p < 2 ^ n := by
  have hpos : 0 < 2 ^ n := Nat.two_pow_pos n
  have hdivisor : (elapsedMs + 1) % 2 ^ 64 = elapsedMs + 1 := Nat.mod_eq_of_lt fits
  have hproduct : (p.downloaded - p.rateLastDownloaded) * 1000 % 2 ^ 64 ≤
    (p.downloaded - p.rateLastDownloaded) * 1000 :=
    Nat.mod_le _ _
  rw [rateSample, hdivisor]
  refine Nat.div_lt_of_lt_mul ?_
  calc (p.downloaded - p.rateLastDownloaded) * 1000 % 2 ^ 64
      ≤ (p.downloaded - p.rateLastDownloaded) * 1000 := hproduct
    _ < 2 ^ n * 1000 := by omega
    _ ≤ (elapsedMs + 1) * 2 ^ n := by
      rw [Nat.mul_comm]
      exact Nat.mul_le_mul_right _ (by omega)

theorem rateSample_pos {elapsedMs : Nat} {p : Peer} (h : 0 < rateSample elapsedMs p) :
    0 < p.downloaded := by
  by_contra hnone
  have hzero : p.downloaded = 0 := Nat.le_zero.mp (Nat.le_of_not_lt hnone)
  rw [rateSample, hzero, Nat.zero_sub, Nat.zero_mul, Nat.zero_mod, Nat.zero_div] at h
  exact absurd h (Nat.lt_irrefl 0)

/-- A window below the limit of the torrent is that of a rate below the full window's, where the
product of its size does not wrap. -/
theorem rate_of_window {u : Setup} {p : Peer} (delivered : p.lastPieceMs ≠ 0)
    (unpunished : p.timeoutStrikes = 0) (fits : p.dlRateBps * pipelineTargetMs < 2 ^ 64)
    (below : peerPipelineLimit u p < u.requestPipelineLimit) :
    p.dlRateBps < fullWindowBps u := by
  have hproduct : p.dlRateBps * pipelineTargetMs % 2 ^ 64 = p.dlRateBps * 2000 :=
    Nat.mod_eq_of_lt fits
  rw [peerPipelineLimit, if_neg delivered, unpunished, hproduct] at below
  simp only [Nat.zero_min, Nat.pow_zero, Nat.div_one, max_lt_iff, min_lt_iff, lt_self_iff_false,
    or_false] at below
  have hwindow : p.dlRateBps * 2000 / 1000 / blockSize < u.requestPipelineLimit := below.2
  rw [fullWindowBps]
  simp only [blockSize] at hwindow ⊢
  omega

section Steps

variable {u : Setup} {s s' : Estimate} {e : Event} {elapsedMs now : Nat} {p : Peer}

/-- A sample leaves the rate between the old one and the sample, or makes it half as much again in
a window that is not full sized. -/
theorem samplePeerRate_le (delivered : 0 < p.downloaded → p.lastPieceMs ≠ 0)
    (rate : p.dlRateBps * pipelineTargetMs < 2 ^ 64)
    (sample : rateSample elapsedMs p * pipelineTargetMs < 2 ^ 64) :
    (samplePeerRate u false elapsedMs now p).dlRateBps ≤
      max p.dlRateBps (max (rateSample elapsedMs p) (fullWindowBps u * 3 / 2)) := by
  simp only [pipelineTargetMs] at rate sample
  have hnext : emaUpdate p.dlRateBps (rateSample elapsedMs p) ≤
    max p.dlRateBps (rateSample elapsedMs p) :=
    emaUpdate_le (by omega)
  simp only [samplePeerRate, Bool.false_eq_true, if_false]
  split
  · next hbinding =>
    obtain ⟨hsome, hunpunished, hbelow, -⟩ := hbinding
    have hwindow : p.dlRateBps < fullWindowBps u :=
      rate_of_window (delivered (rateSample_pos hsome)) hunpunished rate hbelow
    have hgrown : p.dlRateBps * 3 % 2 ^ 64 = p.dlRateBps * 3 := Nat.mod_eq_of_lt (by omega)
    rw [hgrown]
    omega
  · omega

theorem peak_mono {largest largest' : Nat} (h : largest ≤ largest') :
    peak u largest ≤ peak u largest' :=
  max_le_max_left _ (max_le_max_right _ h)

/-- The bootstrap rate and the growth are far below what makes the product of the window wrap. -/
theorem peak_fits {largest : Nat} (h : largest * pipelineTargetMs < 2 ^ 64) :
    peak u largest * pipelineTargetMs < 2 ^ 64 := by
  have hlimit : u.requestPipelineLimit ≤ 256 := max_le (by decide) (min_le_left _ _)
  have hwindow : fullWindowBps u * 3 / 2 ≤ 3145728 := by
    simp only [fullWindowBps, blockSize]
    generalize u.requestPipelineLimit = limit at hlimit
    omega
  have hpeak : peak u largest ≤ max largest 3145728 :=
    max_le (le_max_of_le_right (by decide)) (max_le_max_left _ hwindow)
  refine (Nat.mul_le_mul_right _ hpeak).trans_lt ?_
  rcases Nat.le_total largest 3145728 with hle | hle
  · rw [max_eq_right hle]
    decide
  · rw [max_eq_left hle]
    exact h

theorem Measured.piece (h : Measured u s) {payload : List UInt8} (clock : now ≠ 0) :
    Measured u { s with peer := (processPiece now s.peer payload).1 } := by
  obtain ⟨hsampled, hdelivered, hlargest, hpipeline, hrate⟩ := h
  rcases processPiece_cases now s.peer payload with ⟨-, heq⟩ | ⟨-, -, -, heq⟩ | ⟨-, -, -,
    heq⟩ | ⟨-, r, -, heq⟩
  · rw [heq]
    exact ⟨hsampled, hdelivered, hlargest, hpipeline, hrate⟩
  · rw [heq]
    exact ⟨hsampled, hdelivered, hlargest, hpipeline, hrate⟩
  · rw [heq]
    exact ⟨hsampled, hdelivered, hlargest, hpipeline, hrate⟩
  · rw [heq]
    refine ⟨Nat.le_add_right_of_le hsampled, fun _ => clock, fun hfew => ?_, ?_, hrate⟩
    · exact hlargest ((Nat.le_add_right _ _).trans_lt hfew)
    · exact List.eraseP_sublist.length_le.trans hpipeline

theorem Measured.sample (h : Measured u s) (second : 1000 ≤ elapsedMs)
    (fits : elapsedMs + 1 < 2 ^ 64) (speedTimeMs : UInt64) :
    Measured u { s with
      peer := samplePeerRate u s.rateFreeze elapsedMs now s.peer
      speedTimeMs := speedTimeMs
      largest := if s.rateFreeze then s.largest else max s.largest
        (rateSample elapsedMs s.peer) } := by
  obtain ⟨hsampled, hdelivered, hlargest, hpipeline, hrate⟩ := h
  cases hfrozen : s.rateFreeze with
  | true => exact ⟨Nat.le_refl _, hdelivered, hlargest, hpipeline, hrate⟩
  | false =>
    refine ⟨Nat.le_refl _, hdelivered, fun hfew => ?_, hpipeline, fun hfits => ?_⟩
    · exact max_lt (hlargest hfew) (rateSample_lt second hfew fits)
    · simp only [Bool.false_eq_true, if_false] at hfits ⊢
      have hbefore : s.largest * pipelineTargetMs < 2 ^ 64 :=
        (Nat.mul_le_mul_right _ (le_max_left _ _)).trans_lt hfits
      have hnow : rateSample elapsedMs s.peer * pipelineTargetMs < 2 ^ 64 :=
        (Nat.mul_le_mul_right _ (le_max_right _ _)).trans_lt hfits
      have hold : s.peer.dlRateBps ≤ peak u s.largest := hrate hbefore
      have hrates : s.peer.dlRateBps * pipelineTargetMs < 2 ^ 64 :=
        (Nat.mul_le_mul_right _ hold).trans_lt (peak_fits hbefore)
      refine (samplePeerRate_le hdelivered hrates hnow).trans (max_le ?_ (max_le ?_ ?_))
      · exact hold.trans (peak_mono (le_max_left _ _))
      · exact (le_max_right _ _).trans ((le_max_left _ _).trans (le_max_right _ _))
      · exact (le_max_right _ _).trans (le_max_right _ _)

theorem Measured.step (h : Measured u s) (hstep : step u s e = some s') : Measured u s' := by
  cases e with
  | piece now payload clock =>
    cases hstep
    exact h.piece clock
  | tick now =>
    simp only [RateEstimator.step] at hstep
    split at hstep
    · cases hstep
      exact h
    · next hsecond =>
      split at hstep
      · cases hstep
      · next hfits =>
        cases hstep
        have hlt := (now - s.speedTimeMs).toNat_lt
        exact h.sample (Nat.le_of_not_lt hsecond) (by omega) now
  | freeze on =>
    cases hstep
    exact ⟨h.sampled, h.delivered, h.largest, h.pipeline, h.rate⟩
  | other change keeps =>
    cases hstep
    obtain ⟨hrate, hsampled, hdownloaded, hlastPiece, hpipeline⟩ := keeps s.peer
    refine ⟨?_, ?_, ?_, hpipeline h.pipeline, ?_⟩
    · simp only [hsampled, hdownloaded]
      exact h.sampled
    · simp only [hdownloaded, hlastPiece]
      exact h.delivered
    · simp only [hdownloaded]
      exact h.largest
    · simp only [hrate]
      exact h.rate

theorem processPiece_rate (now : Nat) (p : Peer) (payload : List UInt8) :
    (processPiece now p payload).1.dlRateBps = p.dlRateBps := by
  rcases processPiece_cases now p payload with ⟨-, heq⟩ | ⟨-, -, -, heq⟩ | ⟨-, -, -, heq⟩ | ⟨-, r,
    -, heq⟩ <;> rw [heq]

theorem step_frozen (frozen : s.rateFreeze = true) (hstep : step u s e = some s') :
    s'.peer.dlRateBps = s.peer.dlRateBps := by
  cases e with
  | piece now payload clock =>
    cases hstep
    exact processPiece_rate now s.peer payload
  | tick now =>
    simp only [step, frozen] at hstep
    split at hstep
    · cases hstep
      rfl
    · split at hstep
      · cases hstep
      · cases hstep
        rfl
  | freeze on =>
    cases hstep
    rfl
  | other change keeps =>
    cases hstep
    exact (keeps s.peer).rate

theorem Measured.productsFit (h : Measured u s) (few : s.peer.downloaded < 2 ^ 52)
    (second : 1000 ≤ elapsedMs)
    (fits : elapsedMs + 1 < 2 ^ 64) : ProductsFit u elapsedMs s.peer := by
  have hlargest := h.largest few
  have hwindow : s.largest * pipelineTargetMs < 2 ^ 64 := by
    simp only [pipelineTargetMs]
    omega
  have hrate := (Nat.mul_le_mul_right pipelineTargetMs (h.rate hwindow)).trans_lt
    (peak_fits hwindow)
  have hsample : rateSample elapsedMs s.peer < 2 ^ 52 := rateSample_lt second few fits
  have hpipeline := h.pipeline
  have hlimit : peerPipelineLimit u s.peer ≤ max bootstrapPipeline maxPipeline :=
    (peerPipelineLimit_le u s.peer).trans (max_le_max_left _ (max_le (by decide) (min_le_left _ _)))
  simp only [bootstrapPipeline, maxPipeline] at hlimit hpipeline
  refine ⟨by omega, by omega, ?_, hrate, ?_, by omega, by omega⟩
  · simp only [pipelineTargetMs] at hrate
    omega
  · simp only [pipelineTargetMs] at hrate
    omega

theorem Measured.restrained (h : Measured u s) : Restrained u s := by
  refine ⟨h.rate, fun hfew =>
    ⟨h.rate ?_, fun elapsedMs second fits => h.productsFit hfew second fits⟩, ?_⟩
  · have hlargest := h.largest hfew
    simp only [pipelineTargetMs]
    omega
  · exact fun hfrozen e s' hstep => step_frozen hfrozen hstep

end Steps

theorem measured_connected (u : Setup) (utp : Bool) (bfBytes now : Nat) (rateFreeze : Bool)
    (speedTimeMs : UInt64) : Measured u (connected utp bfBytes now rateFreeze speedTimeMs) :=
  ⟨Nat.le_refl 0, fun hnone => absurd hnone (Nat.lt_irrefl 0), fun _ => Nat.two_pow_pos 52,
    Nat.zero_le _,
    fun _ => le_max_left _ _⟩

theorem Measured.run {u : Setup} {s s' : Estimate} {events : List Event} (h : Measured u s)
    (hrun : run u s events = some s') : Measured u s' := by
  induction events generalizing s with
  | nil =>
    cases hrun
    exact h
  | cons e rest ih =>
    obtain ⟨s₁, hstep, hrest⟩ := Option.bind_eq_some_iff.mp hrun
    exact ih (h.step hstep) hrest

/-- In every state of every run the rate is restrained. -/
theorem run_restrained {u : Setup} {utp : Bool} {bfBytes now : Nat} {rateFreeze : Bool}
    {speedTimeMs : UInt64} {events : List Event} {s : Estimate}
    (hrun : run u (connected utp bfBytes now rateFreeze speedTimeMs) events = some s) :
    Restrained u s :=
  ((measured_connected u utp bfBytes now rateFreeze speedTimeMs).run hrun).restrained

/-! A peer that sends whole blocks, in a torrent with the default limit. -/

def plainSetup : Setup := ⟨⟨TorrentFile.Metainfo.zero, fun _ => [], false, []⟩, 0, 0⟩

def wholeBlock : BlockReq := ⟨0, 0, blockSize, 0⟩

/-- This many requests for the same block are in the pipeline. -/
def asked (count : Nat) (fits : count ≤ maxPipeline) : Event :=
  .other (fun p => { p with pipeline := List.replicate count wholeBlock }) fun _ =>
    ⟨rfl, rfl, rfl, rfl, fun _ => (List.length_replicate).trans_le fits⟩

def sentBlock : List UInt8 := List.replicate (8 + blockSize) 0

/-- A request and the block. -/
def exchange : List Event := [asked 1 (by decide), .piece 1 sentBlock (by decide)]

/-- A peer between two exchanges, with its numbers. -/
def fed (downloaded rate sampled : Nat) (speedTimeMs : UInt64) (largest : Nat) : Estimate :=
  ⟨{ peerAlloc false 1 0 rate with downloaded := downloaded, rateLastDownloaded := sampled,
                                   lastPieceMs := 1 }, false, speedTimeMs, largest⟩

/-- So many blocks come before the next tick. -/
def lull (blocks : Nat) (now : UInt64) : List Event :=
  (List.replicate blocks exchange).flatten ++ [.tick now]

section Fed

variable {u : Setup} {downloaded rate sampled largest : Nat} {speedTimeMs now : UInt64}

theorem run_append (s : Estimate) (events more : List Event) :
    run u s (events ++ more) = (run u s events).bind fun s' => run u s' more := by
  induction events generalizing s with
  | nil => rfl
  | cons e rest ih =>
    simp only [List.cons_append, run, Option.bind_assoc]
    congr 1
    funext s'
    exact ih s'

theorem sentBlock_answer (p : Peer) (hasked : p.pipeline = [wholeBlock])
    (unpunished : p.timeoutStrikes = 0) : (processPiece 1 p sentBlock).1 =
      { p with pipeline := [], downloaded := p.downloaded + blockSize, lastPieceMs := 1 } := by
  have hlength : sentBlock.length = 8 + blockSize := List.length_replicate
  have hdata : (sentBlock.drop 8).length = blockSize := by
    rw [List.length_drop, hlength, Nat.add_sub_cancel_left]
  have hexact : wholeBlock.isExactly (be32 sentBlock) (be32 (sentBlock.drop 4))
    blockSize = true := by decide +kernel
  have htake : takePipelineRequest p (be32 sentBlock) (be32 (sentBlock.drop 4)) blockSize =
      some ({ p with pipeline := [] }, 0) := by
    simp only [takePipelineRequest, hasked, List.find?_cons, hexact, List.eraseP_cons, cond_true,
      Option.map_some]
    rfl
  have hlong : ¬ sentBlock.length < 8 := by omega
  simp only [processPiece, if_neg hlong, hdata, htake]
  rw [unpunished]
  rfl

theorem run_exchange (s : Estimate) (unpunished : s.peer.timeoutStrikes = 0) :
    run u s exchange =
      some { s with
        peer := { s.peer with pipeline := [], downloaded := s.peer.downloaded + blockSize,
                              lastPieceMs := 1 } } := by
  have hanswer := sentBlock_answer { s.peer with pipeline := List.replicate 1 wholeBlock }
    rfl unpunished
  simp only [exchange, asked, run, step, Option.bind_some, hanswer]

theorem run_exchanges (blocks : Nat) :
    run u (fed downloaded rate sampled speedTimeMs largest)
      (List.replicate blocks exchange).flatten =
      some (fed (downloaded + blocks * blockSize) rate sampled speedTimeMs largest) := by
  induction blocks generalizing downloaded with
  | zero =>
    rw [Nat.zero_mul]
    rfl
  | succ blocks ih =>
    have hone : run u (fed downloaded rate sampled speedTimeMs largest) exchange =
        some (fed (downloaded + blockSize) rate sampled speedTimeMs largest) := run_exchange _ rfl
    rw [List.replicate_succ, List.flatten_cons, run_append, hone, Option.bind_some, ih,
      Nat.succ_mul, Nat.add_assoc, Nat.add_comm blockSize]

/-- A window that is empty does not grow. -/
theorem samplePeerRate_idle {elapsedMs now : Nat} {p : Peer} (idle : p.pipeline = []) :
    samplePeerRate u false elapsedMs now p =
      { p with dlRateBps := emaUpdate p.dlRateBps (rateSample elapsedMs p),
               rateLastDownloaded := p.downloaded } := by
  have hlow : minRequestPipeline ≤ peerPipelineLimit u p := by
    rw [peerPipelineLimit]
    split
    · decide
    · exact le_max_left _ _
  have hlimit : peerPipelineLimit u p ≤ 256 :=
    (peerPipelineLimit_le u p).trans (max_le (by decide) (max_le (by decide) (min_le_left _ _)))
  simp only [minRequestPipeline] at hlow
  have hempty : ¬ p.pipeline.length * 4 % 2 ^ 32 ≥ peerPipelineLimit u p * 3 % 2 ^ 32 := by
    rw [idle, List.length_nil]
    omega
  simp only [samplePeerRate, hempty, Bool.false_eq_true, if_false, false_and, and_false]

theorem run_lull (blocks sample : Nat) {downloaded' rate' : Nat}
    (second : (now - speedTimeMs).toNat = 1000)
    (hdownloaded : downloaded + blocks * blockSize = downloaded')
    (hsample : (downloaded' - sampled) * 1000 % 2 ^ 64 / 1001 = sample)
    (hrate : emaUpdate rate sample = rate') :
    run u (fed downloaded rate sampled speedTimeMs largest) (lull blocks now) =
      some (fed downloaded' rate' downloaded' now (max largest sample)) := by
  have htick : step u (fed downloaded' rate sampled speedTimeMs largest) (.tick now) =
      some (fed downloaded' rate' downloaded' now (max largest sample)) := by
    have hsampled : rateSample 1000 (fed downloaded' rate sampled speedTimeMs largest).peer =
      sample := hsample
    have helapsed : (now - (fed downloaded' rate sampled speedTimeMs largest).speedTimeMs).toNat =
      1000 := second
    rw [← hrate, ← hsampled]
    simp only [step, helapsed]
    rw [if_neg (by decide), if_neg (by decide)]
    exact congrArg (fun p => some (Estimate.mk p false now _)) (samplePeerRate_idle rfl)
  rw [lull, run_append, run_exchanges, Option.bind_some, hdownloaded, run, htick]
  rfl

end Fed

/-- A hundred blocks and one more have come before the first sample. -/
theorem run_restrained_once :
    Restrained plainSetup (fed 1654784 1229942 1654784 1000 1653130) := by
  have hfirst : run plainSetup (connected false 1 0 false 0) exchange =
    some (fed 16384 1048576 0 0 0) := run_exchange _ rfl
  have hsampled : run plainSetup (fed 16384 1048576 0 0 0) (lull 100 1000) =
      some (fed 1654784 1229942 1654784 1000 1653130) :=
    run_lull 100 1653130 (by decide) (by decide +kernel) (by decide +kernel) (by decide +kernel)
  refine @run_restrained plainSetup false 1 0 false 0 (exchange ++ lull 100 1000) _ ?_
  rw [run_append, hfirst, Option.bind_some, hsampled]

/-- After fifty petabytes the product of the window wraps. The window seems small, is full, and the
rate gets half as much again, which is more than any sample. -/
theorem rate_runs_away : ∃ events s, run plainSetup (connected false 1 0 false 0) events = some s ∧
    ¬ s.peer.dlRateBps ≤ peak plainSetup s.largest := by
  have hfirst : run plainSetup (connected false 1 0 false 0) exchange =
    some (fed 16384 1048576 0 0 0) := run_exchange _ rfl
  have h1 : run plainSetup (fed 16384 1048576 0 0 0) (lull 800000000000 1000) =
      some (fed 13107200000016384 3928231768970681 13107200000016384 1000 13094105894122261) :=
    run_lull 800000000000 13094105894122261 (by decide) (by decide +kernel) (by decide +kernel)
      (by decide +kernel)
  have h2 : run plainSetup (fed 13107200000016384 3928231768970681 13107200000016384 1000
      13094105894122261) (lull 800000000000 2000) =
      some (fed 26214400000016384 6677994006511244 26214400000016384 2000 13094105894122261) :=
    run_lull 800000000000 13094105894105894 (by decide) (by decide +kernel) (by decide +kernel)
      (by decide +kernel)
  have h3 : run plainSetup (fed 26214400000016384 6677994006511244 26214400000016384 2000
      13094105894122261) (lull 800000000000 3000) =
      some (fed 39321600000016384 8602827572789639 39321600000016384 3000 13094105894122261) :=
    run_lull 800000000000 13094105894105894 (by decide) (by decide +kernel) (by decide +kernel)
      (by decide +kernel)
  have h4 : run plainSetup (fed 39321600000016384 8602827572789639 39321600000016384 3000
      13094105894122261) (lull 651976344531 4000) =
      some (fed 50003580428812288 9223372036855615 50003580428812288 4000 13094105894122261) :=
    run_lull 651976344531 10671309119676227 (by decide) (by decide +kernel) (by decide +kernel)
      (by decide +kernel)
  have h5 : run plainSetup (fed 50003580428812288 9223372036855615 50003580428812288 4000
      13094105894122261) exchange =
      some (fed 50003580428828672 9223372036855615 50003580428812288 4000 13094105894122261) :=
    run_exchange _ rfl
  have hlast : (run plainSetup (fed 50003580428828672 9223372036855615 50003580428812288 4000
      13094105894122261)
      [asked 6 (by decide), .tick 5000]).map (fun s => (s.peer.dlRateBps, s.largest)) =
      some (13835058055283422, 13094105894122261) := by decide +kernel
  obtain ⟨s, h6, hs⟩ := Option.map_eq_some_iff.mp hlast
  refine ⟨exchange ++ (lull 800000000000 1000 ++
    (lull 800000000000 2000 ++ (lull 800000000000 3000 ++
    (lull 651976344531 4000 ++ (exchange ++ [asked 6 (by decide), .tick 5000]))))), s, ?_, ?_⟩
  · rw [run_append, hfirst, Option.bind_some, run_append, h1, Option.bind_some, run_append, h2,
      Option.bind_some,
      run_append, h3, Option.bind_some, run_append, h4, Option.bind_some, run_append, h5,
        Option.bind_some, h6]
  · obtain ⟨hrate, hlargest⟩ := Prod.mk.inj hs
    rw [hrate, hlargest]
    decide

end RateEstimator
