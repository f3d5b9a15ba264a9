import Pipensx.MseSegmentation

/-!
# The limit on skipped bytes

`mse_client_feed` gives up a scan that has skipped more than `MSE_MAX_PAD + MSE_DH_LEN`
bytes, but it looks at the limit only where a call ends without the VC. A VC that comes
later is taken if the bytes before it arrive with it, and refused if they arrive first.
-/

namespace Mse

open PeerSend StreamReader

/-- More bytes of `crypto_select` and `len(padD)`. -/
def Client.selectBytes (c : Client) (bytes : List UInt8) : Client :=
  { c with
    recvRc4 := (rc4Crypt c.recvRc4 bytes).2
    selectBuf := c.selectBuf ++ (rc4Crypt c.recvRc4 bytes).1 }

section Select

variable {c : Client} {input : List UInt8}

theorem selectBytes_cons (c : Client) (b : UInt8) (bytes : List UInt8) :
    (c.selectByte b).selectBytes bytes = c.selectBytes (b :: bytes) := by
  simp [Client.selectBytes, Client.selectByte, rc4Crypt, Keystream.crypt]

theorem selectLoop_eq (input : List UInt8) (h : c.selectBuf.length ≤ 6) :
    selectLoop c input = (c.selectBytes (input.take (6 - c.selectBuf.length)),
      min (6 - c.selectBuf.length) input.length) := by
  induction input generalizing c with
  | nil => simp [selectLoop, Client.selectBytes, rc4Crypt, Keystream.crypt]
  | cons b rest ih =>
    by_cases hmore : c.selectBuf.length < 6
    · obtain ⟨n, hn⟩ : ∃ n, 6 - c.selectBuf.length = n + 1 := ⟨5 - c.selectBuf.length, by omega⟩
      have hlength := selectByte_length c b
      have hrest := ih (c := c.selectByte b) (by omega)
      have hleft : 6 - (c.selectByte b).selectBuf.length = n := by omega
      rw [hleft] at hrest
      simp only [selectLoop, hmore, if_true, hrest, hn, List.take_succ_cons, selectBytes_cons,
        List.length_cons, Prod.mk.injEq, true_and]
      omega
    · have hfull : 6 - c.selectBuf.length = 0 := by omega
      simp only [selectLoop, hmore, if_false, hfull, List.take_zero, Nat.zero_min,
        Prod.mk.injEq, and_true]
      simp [Client.selectBytes, rc4Crypt, Keystream.crypt]

theorem feedPadd_status (c : Client) (input : List UInt8) : (feedPadd c input).status ≠ .fail := by
  simp only [feedPadd]
  split <;> simp

/-- The six bytes, decrypted. -/
def selectPlain (rc4 : Rc4) (input : List UInt8) : List UInt8 := (rc4Crypt rc4 (input.take 6)).1

/-- After the VC a client fails iff the six bytes are there and are refused. -/
theorem feedSelect_fail (h : c.selectBuf = []) :
    (feedSelect c input).status = .fail ↔
      6 ≤ input.length ∧ selectRefused (selectPlain c.recvRc4 input) = true := by
  have hloop := selectLoop_eq (c := c) input (by simp [h])
  have hbuf : (c.selectBytes (input.take (6 - c.selectBuf.length))).selectBuf =
    selectPlain c.recvRc4 input := by
    simp [Client.selectBytes, h, selectPlain]
  have hlength : (selectPlain c.recvRc4 input).length = min 6 input.length := by
    simp [selectPlain, rc4Crypt]
  simp only [feedSelect, hloop, hbuf, hlength]
  by_cases hshort : min 6 input.length < 6
  · rw [if_pos hshort]
    simp only [reduceCtorEq, false_iff, not_and]
    omega
  · have hsix : 6 ≤ input.length := by omega
    rw [if_neg hshort]
    by_cases hrefused : selectRefused (selectPlain c.recvRc4 input) = true
    · simp [hrefused, hsix]
    · simp only [hrefused, Feed.after]
      simpa using feedPadd_status _ _

end Select

/-- The client when its request is out and the scan begins. -/
def Client.emitted (c : Client) : Client :=
  { c with sendRc4 := (rc4Crypt c.sendRc4 (requestPlain c.ia)).2, state := .syncVc, skipped := 0 }

/-- The request of a client that has its keys. -/
def Client.request (k : Crypto) (c : Client) (secret : List UInt8) : List UInt8 :=
  reqHash k (reqTag 1) secret ++
    List.zipWith (· ^^^ ·) (reqHash k (reqTag 2) c.infoHash) (reqHash k (reqTag 3) secret) ++
    (rc4Crypt c.sendRc4 (requestPlain c.ia)).1

/-- The client at the beginning of the scan, when the key of the peer is in front of the
stream. -/
def Client.scanning (k : Crypto) (c : Client) (stream : List UInt8) : Client :=
  (c.keyed k (mseDhSecret k c.priv (stream.take mseDhLen))).emitted

/-- What is sent then. -/
def Client.firstRequest (k : Crypto) (c : Client) (stream : List UInt8) : List UInt8 :=
  let secret := mseDhSecret k c.priv (stream.take mseDhLen)
  (c.keyed k secret).request k secret

/-- The bytes are enough for the scan to begin, and the request fits its buffer. -/
def Scans (outCap : Nat) (c : Client) (stream : List UInt8) : Prop :=
  mseDhLen ≤ stream.length ∧ 40 + (requestPlain c.ia).length ≤ outCap

section Scan

variable {k : Crypto} {outCap : Nat} {c : Client} {stream p : List UInt8}

theorem emitted_sound (c : Client) : Sound c.emitted :=
  ⟨by simp [Client.emitted], by simp [Client.emitted]⟩

theorem emitRequest_eq (k : Crypto) (c : Client) (secret : List UInt8) (outCap : Nat) :
    (emitRequest k c secret outCap).map (fun r => (r.1.requested, r.2)) =
      if outCap < 40 + (requestPlain c.ia).length then none else some
        (c.emitted, c.request k secret) := by
  simp only [emitRequest]
  split
  · simp only [Option.map_none]
  · simp only [Option.map_some, Client.requested, Client.emitted, Client.request]

theorem drain_scans (started : c.state = .readPub) (scans : Scans outCap c stream) :
    drain (read k outCap) c stream =
      (drain (read k outCap) (c.scanning k stream) (stream.drop mseDhLen)).after
      (c.firstRequest k stream) := by
  have hlong : ¬ stream.length < mseDhLen := Nat.not_lt.mpr scans.1
  have hcap : ¬ outCap < 40 + (requestPlain c.ia).length := Nat.not_lt.mpr scans.2
  have hread : read k outCap c stream = .next (c.scanning k stream) (c.firstRequest k stream)
    mseDhLen := by
    simp only [read, started, hlong, if_false, Client.scanning, Client.firstRequest]
    generalize mseDhSecret k c.priv (stream.take mseDhLen) = secret
    have hemit := emitRequest_eq k (c.keyed k secret) secret outCap
    rw [keyed_ia, if_neg hcap] at hemit
    obtain ⟨⟨c2, request⟩, hsome, heq⟩ := Option.map_eq_some_iff.mp hemit
    rw [hsome]
    obtain ⟨hclient, hrequest⟩ := Prod.mk.inj heq
    rw [← hclient, ← hrequest]
  exact drain_next (read_incremental k outCap) hread

/-- Without a scan there is no overrun. -/
theorem drain_scanless (started : c.state = .readPub) (scanless : ¬ Scans outCap c stream) :
    ¬ Overrun (drain (read k outCap) c stream).state := by
  by_cases hshort : stream.length < mseDhLen
  · have hread : read k outCap c stream = .wait := by
      simp only [read, started, hshort, if_true]
    rw [drain_wait hread]
    simp [Overrun, started]
  · have hcap : outCap < 40 + (requestPlain c.ia).length := by
      by_contra hroom
      exact scanless ⟨Nat.le_of_not_lt hshort, Nat.le_of_not_lt hroom⟩
    have hread : read k outCap c stream =
        .stop (c.keyed k (mseDhSecret k c.priv (stream.take mseDhLen))).failed [] mseDhLen := by
      simp only [read, started, hshort, if_false]
      generalize mseDhSecret k c.priv (stream.take mseDhLen) = secret
      have hemit := emitRequest_eq k (c.keyed k secret) secret outCap
      rw [keyed_ia, if_pos hcap, Option.map_eq_none_iff] at hemit
      rw [hemit]
    rw [drain_stop hread]
    simp [Overrun, Client.failed]

/-- The encrypted VC the client scans for. -/
def Client.encryptedVc (k : Crypto) (c : Client) (stream : List UInt8) : List UInt8 :=
  (c.keyed k (mseDhSecret k c.priv (stream.take mseDhLen))).vcExpect

theorem scanning_vc (k : Crypto) (c : Client) (stream : List UInt8) :
    (c.scanning k stream).vcExpect = c.encryptedVc k stream := by
  simp only [Client.scanning, Client.encryptedVc]
  generalize c.keyed k (mseDhSecret k c.priv (stream.take mseDhLen)) = c1
  rfl

/-- A prefix of the stream is overrun iff it has no VC and is long enough, counted in 32
bits. -/
theorem overrun_iff (started : c.state = .readPub) (scans : Scans outCap c stream) :
    Overrun (drain (read k outCap) c stream).state ↔
      findVc (c.encryptedVc k stream) (stream.drop mseDhLen) = none ∧
        ((stream.drop mseDhLen).length - (mseVcLen - 1)) % 2 ^ 32 > mseMaxPad + mseDhLen := by
  rw [drain_scans started scans, Result.after_state, ← scanning_vc]
  have hsound : Sound (c.scanning k stream) := emitted_sound _
  have hstate : (c.scanning k stream).state = .syncVc := rfl
  have hzero : (c.scanning k stream).skipped = 0 := rfl
  generalize c.scanning k stream = scan at hsound hstate hzero
  generalize stream.drop mseDhLen = input
  cases hfind : findVc scan.vcExpect input with
  | none =>
    rw [drain_missed k outCap hstate hsound.skipped hfind]
    simp [Overrun, Client.skip, hstate, hzero]
  | some n =>
    rw [drain_found k outCap hstate hsound.skipped hfind]
    have hpast := (drain_past k outCap _ (input.drop (n + mseVcLen)) (synced_past (scan.skip n))).1
    constructor
    · intro hover
      exact absurd hover.1 hpast.2
    · rintro ⟨hnone, _⟩
      cases hnone

end Scan

section Find

variable {vc q s : List UInt8} {n : Nat}

theorem findVc_append (h : findVc vc q = some n) (more : List UInt8) :
    findVc vc (q ++ more) = some n := by
  induction q generalizing n with
  | nil => cases h
  | cons b rest ih =>
    simp only [findVc] at h
    split at h
    · cases h
    · next hlong =>
      have hlong' : ¬ (b :: (rest ++ more)).length < mseVcLen := by
        simp only [List.length_cons, List.length_append] at hlong ⊢
        omega
      have htake : (b :: (rest ++ more)).take mseVcLen = (b :: rest).take mseVcLen := by
        rw [← List.cons_append]
        exact List.take_append_of_le_length (by omega)
      simp only [List.cons_append, findVc, hlong', htake, if_false]
      split at h
      · next hfound =>
        rw [if_pos hfound]
        exact h
      · next hmissed =>
        obtain ⟨m, hm, rfl⟩ := Option.map_eq_some_iff.mp h
        rw [if_neg hmissed, ih hm]
        rfl

/-- The scan of a prefix: the VC is in it or not, and it is not found elsewhere. -/
theorem findVc_prefix (vc : List UInt8) (hp : q <+: s) :
    findVc vc q = none ∨ findVc vc q = findVc vc s := by
  obtain ⟨more, rfl⟩ := hp
  cases hq : findVc vc q with
  | none => exact Or.inl rfl
  | some n => exact Or.inr (findVc_append hq more).symm

/-- A prefix that reaches beyond the VC has it. -/
theorem findVc_take (h : findVc vc s = some n) (hp : q <+: s) (long : n + mseVcLen ≤ q.length) :
    findVc vc q = some n := by
  obtain ⟨more, rfl⟩ := hp
  induction q generalizing n with
  | nil =>
    simp only [List.length_nil, mseVcLen] at long
    omega
  | cons b rest ih =>
    have hlong : ¬ (b :: rest).length < mseVcLen := by omega
    have hlong' : ¬ (b :: (rest ++ more)).length < mseVcLen := by
      simp only [List.length_cons, List.length_append] at hlong ⊢
      omega
    have htake : (b :: (rest ++ more)).take mseVcLen = (b :: rest).take mseVcLen := by
      rw [← List.cons_append]
      exact List.take_append_of_le_length (by omega)
    simp only [List.cons_append, findVc, hlong', htake, if_false] at h
    simp only [findVc, hlong, if_false]
    split at h
    · next hfound =>
      rw [if_pos hfound]
      exact h
    · next hmissed =>
      obtain ⟨m, hm, rfl⟩ := Option.map_eq_some_iff.mp h
      have hrest : m + mseVcLen ≤ rest.length := by
        rw [List.length_cons] at long
        omega
      rw [if_neg hmissed, ih hrest hm]
      rfl

end Find

/-- What is compared: the status and the bytes produced, and for a client that is done the
number of bytes consumed and the two streams. -/
def Fed.outcome (f : Fed) : Status × List UInt8 × Option (Nat × Rc4 × Rc4) :=
  (f.status, f.produced, if f.status = .done then some (f.consumed, f.client.sendRc4,
    f.client.recvRc4) else none)

/-- However the stream is cut, the outcome is that of one call. -/
def Uniform (k : Crypto) (outCap : Nat) (c : Client) (stream : List UInt8) : Prop :=
  ∀ chunks : List (List UInt8), chunks.flatten = stream →
    (feedChunks k outCap c chunks).outcome = (feedChunks k outCap c [stream]).outcome

/-- The stream the peer encrypts with, after the VC. -/
def Client.selectRc4 (k : Crypto) (c : Client) (stream : List UInt8) : Rc4 :=
  rc4Discard (c.keyed k (mseDhSecret k c.priv (stream.take mseDhLen))).recvRc4 mseVcLen

/-- Six bytes follow the VC at `n` and are refused. -/
def RefusedAfter (k : Crypto) (c : Client) (stream : List UInt8) (n : Nat) : Prop :=
  6 ≤ ((stream.drop mseDhLen).drop (n + mseVcLen)).length ∧
    selectRefused (selectPlain (c.selectRc4 k stream)
      ((stream.drop mseDhLen).drop (n + mseVcLen))) = true

/-- The scan, if it begins, stays within the limit, or it fails in one call as well: the VC
is followed by six bytes that are refused, or there is none and the number of bytes
skipped is above the limit in 32 bits too. -/
def WithinLimit (k : Crypto) (outCap : Nat) (c : Client) (stream : List UInt8) : Prop :=
  Scans outCap c stream →
    match findVc (c.encryptedVc k stream) (stream.drop mseDhLen) with
    | some n => n ≤ mseMaxPad + mseDhLen ∨ RefusedAfter k c stream n
    | none => (stream.drop mseDhLen).length - (mseVcLen - 1) ≤ mseMaxPad + mseDhLen ∨
        ((stream.drop mseDhLen).length - (mseVcLen - 1)) % 2 ^ 32 > mseMaxPad + mseDhLen

section Limits

variable {k : Crypto} {outCap : Nat} {c : Client} {stream p : List UInt8}

theorem synced_rc4 (k : Crypto) (c : Client) (stream : List UInt8) (n : Nat) :
    ((c.scanning k stream).skip n).synced.recvRc4 = c.selectRc4 k stream := by
  simp only [Client.scanning, Client.selectRc4, Client.synced, Client.skip, Client.emitted]

theorem feedChunks_whole (sound : Sound c) (started : c.state = .readPub) :
    feedChunks k outCap c [stream] =
      if Overrun (drain (read k outCap) c stream).state then
        { tracked k outCap c stream with
          client := (drain (read k outCap) c stream).state.failed, status := .fail }
      else tracked k outCap c stream := by
  have hread : read k outCap c [] = .wait := by
    simp only [read, started]
    exact if_pos (by decide)
  have hnothing : tracked k outCap c [] = ⟨c, .more, [], 0, []⟩ := by
    simp [tracked, drain_wait hread, statusOf, started]
  have hchunk := feedChunk_tracked k outCap [] stream sound
  rw [hnothing, List.nil_append] at hchunk
  exact hchunk

/-- When one call with the whole stream fails. -/
theorem whole_fail (sound : Sound c) (started : c.state = .readPub)
    (scans : Scans outCap c stream) : (feedChunks k outCap c [stream]).status = .fail ↔
      match findVc (c.encryptedVc k stream) (stream.drop mseDhLen) with
      | some n => RefusedAfter k c stream n
      | none =>
        ((stream.drop mseDhLen).length - (mseVcLen - 1)) % 2 ^ 32 > mseMaxPad + mseDhLen := by
  have hover := overrun_iff (k := k) started scans
  have hsound' : Sound (c.scanning k stream) := emitted_sound _
  have hstate : (c.scanning k stream).state = .syncVc := rfl
  have hdrain := drain_scans (k := k) started scans
  rw [feedChunks_whole sound started]
  cases hfind : findVc (c.encryptedVc k stream) (stream.drop mseDhLen) with
  | none =>
    rw [hfind] at hover
    simp only [true_and] at hover
    rw [← scanning_vc] at hfind
    by_cases hlimit : Overrun (drain (read k outCap) c stream).state
    · simp only [hlimit, if_true, true_iff]
      exact hover.mp hlimit
    · have hmore : (tracked k outCap c stream).status = .more := by
        simp only [tracked, hdrain, Result.after_state, drain_missed k outCap hstate
          hsound'.skipped hfind]
        rfl
      simp only [hlimit, if_false, hmore, reduceCtorEq, false_iff]
      exact fun hyes => hlimit (hover.mpr hyes)
  | some n =>
    have hlimit : ¬ Overrun (drain (read k outCap) c stream).state := by
      rw [hover, hfind]
      rintro ⟨hnone, _⟩
      cases hnone
    rw [← scanning_vc] at hfind
    have hselect := feedSelect_eq (c := ((c.scanning k stream).skip n).synced) k outCap
      ((stream.drop mseDhLen).drop (n + mseVcLen)) rfl (Nat.zero_lt_succ 5)
    have hstatus : (tracked k outCap c stream).status =
        (feedSelect ((c.scanning k stream).skip n).synced
          ((stream.drop mseDhLen).drop (n + mseVcLen))).status := by
      rw [hselect]
      simp only [tracked, hdrain, Result.after_state, drain_found k outCap hstate hsound'.skipped
        hfind, ofResult]
    rw [if_neg hlimit, hstatus, feedSelect_fail rfl, synced_rc4]
    exact Iff.rfl

/-- A prefix that begins the scan begins the same scan. -/
theorem encryptedVc_prefix (k : Crypto) (c : Client) (hp : p <+: stream)
    (long : mseDhLen ≤ p.length) :
    c.encryptedVc k p = c.encryptedVc k stream ∧ p.drop mseDhLen <+: stream.drop mseDhLen := by
  obtain ⟨more, rfl⟩ := hp
  have htake : (p ++ more).take mseDhLen = p.take mseDhLen := List.take_append_of_le_length long
  constructor
  · simp only [Client.encryptedVc, htake]
  · rw [List.drop_append_of_le_length long]
    exact List.prefix_append _ _

theorem Scans.mono (hp : p <+: stream) (scans : Scans outCap c p) : Scans outCap c stream :=
  ⟨Nat.le_trans scans.1 hp.length_le, scans.2⟩

theorem overrun_scans (started : c.state = .readPub)
    (overrun : Overrun (drain (read k outCap) c p).state) :
    Scans outCap c p := by
  by_contra hscanless
  exact drain_scanless started hscanless overrun

/-- A prefix that is overrun has skipped at most the bytes before the VC. -/
theorem overrun_before {n : Nat} (started : c.state = .readPub) (hp : p <+: stream)
    (overrun : Overrun (drain (read k outCap) c p).state)
    (found : findVc (c.encryptedVc k stream) (stream.drop mseDhLen) = some n) :
    mseMaxPad + mseDhLen < n := by
  have hscans := overrun_scans started overrun
  obtain ⟨hvc, hscan⟩ := encryptedVc_prefix k c hp hscans.1
  obtain ⟨hnone, hmany⟩ := (overrun_iff started hscans).mp overrun
  rw [hvc] at hnone
  have hbefore : (p.drop mseDhLen).length < n + mseVcLen := by
    by_contra hlong
    rw [findVc_take found hscan (Nat.le_of_not_lt hlong)] at hnone
    cases hnone
  simp only [mseVcLen] at hbefore hmany
  omega

/-- Where some prefix is overrun and the limit is kept to all the same, one call fails. -/
theorem whole_fail_of_overrun (sound : Sound c) (started : c.state = .readPub)
    (within : WithinLimit k outCap c stream) (hp : p <+: stream)
    (overrun : Overrun (drain (read k outCap) c p).state) :
    (feedChunks k outCap c [stream]).status = .fail := by
  have hscans := overrun_scans started overrun
  have hscans' := hscans.mono hp
  obtain ⟨_, hscan⟩ := encryptedVc_prefix k c hp hscans.1
  obtain ⟨_, hmany⟩ := (overrun_iff started hscans).mp overrun
  have hlength := hscan.length_le
  rw [whole_fail sound started hscans']
  have hlimit := within hscans'
  generalize hfound : findVc (c.encryptedVc k stream) (stream.drop mseDhLen) = found at hlimit ⊢
  cases found with
  | none =>
    rcases hlimit with hfew | hmany'
    · omega
    · exact hmany'
  | some n =>
    rcases hlimit with hfew | hrefused
    · have hlate := overrun_before started hp overrun hfound
      omega
    · exact hrefused

/-- The bytes after which a scan without a VC is given up. -/
def limitLen : Nat := mseDhLen + (mseMaxPad + mseDhLen + 1) + (mseVcLen - 1)

/-- A scan that has gone beyond the limit is overrun when the stream is cut there. -/
theorem overrun_limit (started : c.state = .readPub) (scans : Scans outCap c stream)
    (long : limitLen ≤ stream.length)
    (late : ∀ n, findVc (c.encryptedVc k stream) (stream.drop mseDhLen) = some n →
    mseMaxPad + mseDhLen < n) : Overrun (drain (read k outCap) c (stream.take limitLen)).state := by
  have hlength : (stream.take limitLen).length = limitLen := by
    rw [List.length_take]
    omega
  have hdh : mseDhLen ≤ (stream.take limitLen).length := by
    rw [hlength]
    decide
  obtain ⟨hvc, hscan⟩ := encryptedVc_prefix k c (List.take_prefix limitLen stream) hdh
  rw [overrun_iff started ⟨hdh, scans.2⟩, hvc, List.length_drop, hlength]
  refine ⟨?_, by decide⟩
  rcases findVc_prefix (c.encryptedVc k stream) hscan with hnone | hsame
  · exact hnone
  · rw [hsame]
    cases hfind : findVc (c.encryptedVc k stream) (stream.drop mseDhLen) with
    | none => rfl
    | some n =>
      have hlate := late n hfind
      rw [hfind] at hsame
      have hle := findVc_le hsame
      rw [List.length_drop, hlength] at hle
      simp only [limitLen, mseVcLen, mseMaxPad, mseDhLen] at hle hlate
      omega

theorem feedChunks_overrun (sound : Sound c) (started : c.state = .readPub) (rest : List UInt8)
    (overrun : Overrun (drain (read k outCap) c p).state) :
    (feedChunks k outCap c [p, rest]).status = .fail := by
  have hfirst : (feedChunks k outCap c [p]).client.state = .fail := by
    rw [feedChunks_whole sound started, if_pos overrun]
    rfl
  have hboth : feedChunks k outCap c [p, rest] =
    feedChunk k outCap (feedChunks k outCap c [p]) rest := rfl
  rw [hboth, feedChunk_failed hfirst]

end Limits

/-- The outcome of the handshake is that of one call, however the bytes are cut, exactly if
the scan stays within the limit or fails in one call as well. -/
theorem uniform_iff (k : Crypto) (outCap : Nat) {c0 c : Client}
    {infoHash priv pad ia out : List UInt8}
    {startCap : Nat} (start : mseClientStart k c0 infoHash priv pad ia startCap = (c, .more, out))
    (stream : List UInt8) : Uniform k outCap c stream ↔ WithinLimit k outCap c stream := by
  have hfresh : c = .fresh infoHash priv ia := by
    simp only [mseClientStart] at start
    split at start
    · cases start
    · split at start
      · cases start
      · cases start
        rfl
  have hstarted : c.state = .readPub := by rw [hfresh]; rfl
  have hsound : Sound c := by
    rw [hfresh]
    exact ⟨by simp [Client.fresh], by simp [Client.fresh]⟩
  constructor
  · intro huniform hscans
    -- cut where the limit is, if the stream goes that far
    have hcut : limitLen ≤ stream.length →
        (∀ n, findVc (c.encryptedVc k stream) (stream.drop mseDhLen) = some n →
        mseMaxPad + mseDhLen < n) → (feedChunks k outCap c [stream]).status = .fail := by
      intro hlong hlate
      have hover := overrun_limit hstarted hscans hlong hlate
      have hfail := feedChunks_overrun hsound hstarted (stream.drop limitLen) hover
      have hsame := congrArg Prod.fst
        (huniform [stream.take limitLen, stream.drop limitLen] (by simp))
      exact hsame.symm.trans hfail
    rw [whole_fail hsound hstarted hscans] at hcut
    generalize hfind : findVc (c.encryptedVc k stream) (stream.drop mseDhLen) = found at hcut ⊢
    cases found with
    | none =>
      by_cases hfew : (stream.drop mseDhLen).length - (mseVcLen - 1) ≤ mseMaxPad + mseDhLen
      · exact Or.inl hfew
      · right
        refine hcut ?_ (by simp)
        simp only [List.length_drop, limitLen, mseVcLen, mseMaxPad, mseDhLen] at hfew ⊢
        omega
    | some n =>
      by_cases hfew : n ≤ mseMaxPad + mseDhLen
      · exact Or.inl hfew
      · right
        have hle := findVc_le hfind
        refine hcut ?_ ?_
        · simp only [List.length_drop, limitLen, mseVcLen, mseMaxPad, mseDhLen] at hfew hle ⊢
          omega
        · rintro m ⟨⟩
          omega
  · rintro hwithin chunks rfl
    rcases feedChunks_cases (k := k) hsound hstarted chunks with ⟨htracked, hover⟩ | ⟨_, hfail,
      hproduced, _, p, hp, hover⟩
    · rw [htracked, feedChunks_whole hsound hstarted, if_neg hover]
    · have hwhole := whole_fail_of_overrun hsound hstarted hwithin hp hover
      have hsent : (feedChunks k outCap c [chunks.flatten]).produced =
          (drain (read k outCap) c chunks.flatten).out := by
        rw [feedChunks_whole hsound hstarted]
        split <;> rfl
      simp [Fed.outcome, hfail, hwhole, hproduced, hsent]

/-! A VC after one skipped byte too many. -/

def constantCrypto : Crypto := ⟨fun _ _ => List.replicate 96 1, fun _ => List.replicate 20 0⟩

def sampleClient : Client := .fresh (List.replicate 20 3) (List.replicate 96 5) [9]

theorem byte_succ_ne (v : UInt8) : v + 1 ≠ v := by
  intro heq
  have hnat := congrArg UInt8.toNat heq
  rw [UInt8.toNat_add] at hnat
  have hlt := v.toNat_lt
  simp at hnat
  omega

theorem findVc_after {v x : UInt8} {rest : List UInt8} (length : (v :: rest).length = mseVcLen)
    (other : x ≠ v) (n : Nat) : findVc (v :: rest) (List.replicate n x ++ v :: rest) = some n := by
  induction n with
  | zero =>
    have hlong : ¬ (v :: rest).length < mseVcLen := by omega
    have htake : (v :: rest).take mseVcLen = v :: rest := List.take_of_length_le (by omega)
    simp only [List.replicate_zero, List.nil_append, findVc, hlong, htake, if_true, if_false]
  | succ n ih =>
    have hlong : ¬ (x :: (List.replicate n x ++ v :: rest)).length < mseVcLen := by
      simp only [List.length_cons, List.length_append, List.length_replicate] at length ⊢
      omega
    have htake : (x :: (List.replicate n x ++ v :: rest)).take mseVcLen ≠ v :: rest := by
      intro heq
      exact other (List.cons.inj heq).1
    simp only [List.replicate_succ, List.cons_append, findVc, hlong, htake, if_false, ih,
      Option.map_some]

/-- A key, `n` bytes that cannot begin the VC, and the VC. -/
def paddedStream (n : Nat) : List UInt8 :=
  let key := List.replicate 96 1
  let vc := sampleClient.encryptedVc constantCrypto key
  key ++ List.replicate n (vc.headD 0 + 1) ++ vc

/-- The VC is found behind the bytes that cannot begin it. -/
theorem paddedStream_found (n : Nat) : ((paddedStream n).drop mseDhLen).length = n + mseVcLen ∧
    findVc (sampleClient.encryptedVc constantCrypto (paddedStream n))
    ((paddedStream n).drop mseDhLen) = some n := by
  generalize hvc : sampleClient.encryptedVc constantCrypto (List.replicate 96 1) = vc
  have hlength : vc.length = mseVcLen := by
    rw [← hvc]
    simp [Client.encryptedVc, Client.keyed, Client.withKeys, rc4Crypt]
  obtain ⟨v, rest, rfl⟩ : ∃ v rest, vc = v :: rest := by
    cases vc with
    | nil => cases hlength
    | cons v rest => exact ⟨v, rest, rfl⟩
  have hstream : paddedStream n = List.replicate 96 1 ++
    (List.replicate n (v + 1) ++ v :: rest) := by
    simp only [paddedStream, hvc, List.headD_cons, List.append_assoc]
  have hkey : (paddedStream n).take mseDhLen = List.replicate 96 1 := by
    rw [hstream]
    exact List.take_left' rfl
  have hscan : (paddedStream n).drop mseDhLen = List.replicate n (v + 1) ++ v :: rest := by
    rw [hstream]
    exact List.drop_left' rfl
  have hsame : sampleClient.encryptedVc constantCrypto (paddedStream n) = v :: rest := by
    rw [← hvc]
    simp only [Client.encryptedVc, hkey]
    rfl
  constructor
  · rw [hscan, List.length_append, List.length_replicate, hlength]
  · rw [hsame, hscan]
    exact findVc_after hlength (byte_succ_ne v) n

theorem paddedStream_scans (n : Nat) : Scans 256 sampleClient (paddedStream n) := by
  have hlong := (paddedStream_found n).1
  rw [List.length_drop] at hlong
  constructor
  · simp only [mseVcLen, mseDhLen] at hlong ⊢
    omega
  · decide

/-- The key comes with the first skipped byte, and the VC with the rest. -/
theorem uniform_iff_padded : findVc (sampleClient.encryptedVc constantCrypto (paddedStream 3))
      ((paddedStream 3).drop mseDhLen) = some 3 ∧
    (feedChunks constantCrypto 256 sampleClient
      [(paddedStream 3).take 97, (paddedStream 3).drop 97]).outcome =
      (feedChunks constantCrypto 256 sampleClient [paddedStream 3]).outcome := by
  have hstart : mseClientStart constantCrypto sampleClient (List.replicate 20 3)
      (List.replicate 96 5) [] [9] 96 = (sampleClient, .more, List.replicate 96 1) := by
    simp only [mseClientStart, mseDhPublic, constantCrypto, List.append_nil]
    rfl
  have hfind := (paddedStream_found 3).2
  generalize paddedStream 3 = stream at hfind ⊢
  have hwithin : WithinLimit constantCrypto 256 sampleClient stream := by
    intro _
    rw [hfind]
    exact Or.inl (by decide)
  have huniform := (uniform_iff constantCrypto 256 hstart stream).mpr hwithin
  exact ⟨hfind, huniform [stream.take 97, stream.drop 97] (by simp)⟩

/-- A key, 609 bytes that cannot begin the VC, and the VC. -/
def lateStream : List UInt8 := paddedStream 609

/-- One call accepts the VC, two calls do not. -/
theorem late_vc_split : (feedChunks constantCrypto 256 sampleClient [lateStream]).status ≠ .fail ∧
    (feedChunks constantCrypto 256 sampleClient
      [lateStream.take limitLen, lateStream.drop limitLen]).status = .fail := by
  have hstarted : sampleClient.state = .readPub := rfl
  have hsound : Sound sampleClient :=
    ⟨by simp [sampleClient, Client.fresh], by simp [sampleClient, Client.fresh]⟩
  obtain ⟨hlength, hfind⟩ := paddedStream_found 609
  have hscans := paddedStream_scans 609
  rw [lateStream]
  generalize paddedStream 609 = stream at hlength hfind hscans ⊢
  constructor
  · intro hfail
    rw [whole_fail hsound hstarted hscans, hfind] at hfail
    have hsix := hfail.1
    rw [List.length_drop, hlength] at hsix
    omega
  · refine feedChunks_overrun hsound hstarted _ (overrun_limit hstarted hscans ?_ ?_)
    · rw [List.length_drop] at hlength
      simp only [limitLen, mseVcLen, mseMaxPad, mseDhLen] at hlength ⊢
      omega
    · intro n hn
      rw [hfind] at hn
      cases hn
      decide

end Mse
