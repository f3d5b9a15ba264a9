import Mathlib.Data.List.Induction
import Pipensx.Mse
import Pipensx.StreamReader

/-!
# The handshake and the chunks it arrives in

Without the limit on skipped bytes `mse_client_feed` is a reader of a stream: it does not
matter how the bytes are cut. The limit is looked at when a call ends without the VC, so
it depends on where the calls end.
-/

namespace Mse

open PeerSend StreamReader

/-- One round of the handshake without the limit. -/
def read (k : Crypto) (outCap : Nat) (c : Client) (buf : List UInt8) : Step Client UInt8 :=
  match c.state with
  | .readPub =>
    if buf.length < mseDhLen then .wait
    else
      let secret := mseDhSecret k c.priv (buf.take mseDhLen)
      let c1 := c.keyed k secret
      match emitRequest k c1 secret outCap with
      | none => .stop c1.failed [] mseDhLen
      | some (c2, request) => .next c2.requested request mseDhLen
  | .syncVc =>
    if buf.length < mseVcLen then .wait
    else if buf.take mseVcLen = c.vcExpect then .next c.synced [] mseVcLen
    else .next (c.skip 1) [] 1
  | .readSelect =>
    match buf with
    | [] => .wait
    | b :: _ =>
      let c1 := c.selectByte b
      if c1.selectBuf.length < 6 then .next c1 [] 1
      else if selectRefused c1.selectBuf then .stop c1.failed [] 1
      else .next c1.selected [] 1
  | .readPadd =>
    if c.paddRemaining > 0 then
      match buf with
      | [] => .wait
      | _ :: _ => .next c.paddByte [] 1
    else .stop { c with state := .done } [] 0
  | .done => .stop c [] 0
  | .fail => .stop c [] 0

/-- The status that goes with a state. -/
def statusOf (c : Client) : Status :=
  match c.state with
  | .done => .done
  | .fail => .fail
  | _ => .more

/-- What holds of a client between two calls. -/
structure Sound (c : Client) : Prop where
  skipped : c.skipped < 2 ^ 32
  select : c.state = .readSelect → c.selectBuf.length < 6

section Reading

variable {k : Crypto} {outCap : Nat}

/-- No round uses more bytes than there are, and only a last one may use none. -/
theorem read_used (k : Crypto) (outCap : Nat) (c : Client) (buf : List UInt8) :
    match read k outCap c buf with
    | .wait => True
    | .stop _ _ used => used ≤ buf.length
    | .next _ _ used => 0 < used ∧ used ≤ buf.length := by
  cases hstate : c.state with
  | readPub =>
    by_cases hshort : buf.length < mseDhLen
    · simp only [read, hstate, hshort, if_true]
    · have hused : 0 < mseDhLen ∧ mseDhLen ≤ buf.length := ⟨by decide, by omega⟩
      simp only [read, hstate, hshort, if_false]
      cases emitRequest k (c.keyed k (mseDhSecret k c.priv (buf.take mseDhLen)))
        (mseDhSecret k c.priv (buf.take mseDhLen)) outCap with
      | none => exact hused.2
      | some r => exact hused
  | syncVc =>
    by_cases hshort : buf.length < mseVcLen
    · simp only [read, hstate, hshort, if_true]
    · have hused : 0 < mseVcLen ∧ mseVcLen ≤ buf.length := ⟨by decide, by omega⟩
      simp only [read, hstate, hshort, if_false]
      by_cases hmatch : buf.take mseVcLen = c.vcExpect
      · simpa only [hmatch, if_true] using hused
      · simp only [hmatch, if_false]
        omega
  | readSelect =>
    cases buf with
    | nil => simp only [read, hstate]
    | cons b rest =>
      simp only [read, hstate]
      by_cases hmore : (c.selectByte b).selectBuf.length < 6
      · simp [hmore]
      · by_cases hrefused : selectRefused (c.selectByte b).selectBuf = true
        · simp [hmore, hrefused]
        · simp [hmore, hrefused]
  | readPadd =>
    by_cases hmore : c.paddRemaining > 0
    · cases buf with
      | nil => simp only [read, hstate, hmore, if_true]
      | cons b rest => simp [read, hstate, hmore]
    · simp [read, hstate, hmore]
  | done => simp [read, hstate]
  | fail => simp [read, hstate]

/-- A round that does not wait looks at nothing but the bytes it had. -/
theorem read_stable {c : Client} {buf : List UInt8} (h : read k outCap c buf ≠ .wait)
    (more : List UInt8) : read k outCap c (buf ++ more) = read k outCap c buf := by
  cases hstate : c.state with
  | readPub =>
    by_cases hshort : buf.length < mseDhLen
    · simp [read, hstate, hshort] at h
    · have hlong : ¬ (buf ++ more).length < mseDhLen := by
        rw [List.length_append]
        omega
      have htake : (buf ++ more).take mseDhLen = buf.take mseDhLen :=
        List.take_append_of_le_length (by omega)
      simp only [read, hstate, hshort, hlong, htake]
  | syncVc =>
    by_cases hshort : buf.length < mseVcLen
    · simp [read, hstate, hshort] at h
    · have hlong : ¬ (buf ++ more).length < mseVcLen := by
        rw [List.length_append]
        omega
      have htake : (buf ++ more).take mseVcLen = buf.take mseVcLen :=
        List.take_append_of_le_length (by omega)
      simp only [read, hstate, hshort, hlong, htake]
  | readSelect =>
    cases buf with
    | nil => simp [read, hstate] at h
    | cons b rest => simp only [read, hstate, List.cons_append]
  | readPadd =>
    by_cases hmore : c.paddRemaining > 0
    · cases buf with
      | nil => simp [read, hstate, hmore] at h
      | cons b rest => simp only [read, hstate, List.cons_append]
    · simp only [read, hstate, hmore, if_false]
  | done => simp only [read, hstate]
  | fail => simp only [read, hstate]

theorem read_incremental (k : Crypto) (outCap : Nat) : Incremental (read k outCap) where
  progress := by
    intro c c' buf out used h
    have hused := read_used k outCap c buf
    rwa [h] at hused
  last := by
    intro c c' buf out used h
    have hused := read_used k outCap c buf
    rwa [h] at hused
  stable := fun h more => read_stable h more

end Reading

/-- The result of a call that reads `input` as the reader does. -/
def ofResult (input : List UInt8) (r : Result Client UInt8 UInt8) : Feed :=
  ⟨r.state, statusOf r.state, input.length - r.rest.length, r.out⟩

section Calls

variable {k : Crypto} {outCap : Nat} {c c' : Client} {input : List UInt8}

theorem drain_short (k : Crypto) (outCap : Nat) (c : Client) (input : List UInt8) :
    (drain (read k outCap) c input).rest.length ≤ input.length :=
  (drain_rest (read_incremental k outCap) c input).length_le

/-- The rounds after the first are those of the rest of the call. -/
theorem ofResult_next {out : List UInt8} {used : Nat}
    (h : read k outCap c input = .next c' out used) :
    ofResult input (drain (read k outCap) c input) =
      (ofResult (input.drop used) (drain (read k outCap) c' (input.drop used))).after used out := by
  have hused := (read_incremental k outCap).progress h
  have hshort := drain_short k outCap c' (input.drop used)
  rw [List.length_drop] at hshort
  rw [drain_next (read_incremental k outCap) h]
  simp only [ofResult, Feed.after, Result.after_state, Result.after_rest, Result.after_out,
    List.length_drop, Feed.mk.injEq, true_and, and_true]
  omega

theorem ofResult_wait (h : read k outCap c input = .wait) :
    ofResult input (drain (read k outCap) c input) = ⟨c, statusOf c, 0, []⟩ := by
  simp [drain_wait h, ofResult]

theorem ofResult_stop {out : List UInt8} {used : Nat}
    (h : read k outCap c input = .stop c' out used) :
    ofResult input (drain (read k outCap) c input) = ⟨c', statusOf c', used, out⟩ := by
  have hused := (read_incremental k outCap).last h
  simp only [drain_stop h, ofResult, List.length_drop, Feed.mk.injEq, true_and, and_true]
  omega

theorem feedPadd_cons (b : UInt8) (rest : List UInt8) (h : c.paddRemaining > 0) :
    feedPadd c (b :: rest) = (feedPadd c.paddByte rest).after 1 [] := by
  simp only [feedPadd, paddLoop, h, if_true]
  split
  · simp [Feed.after, Nat.add_comm]
  · simp [Feed.after, Nat.add_comm]

theorem feedPadd_eq (k : Crypto) (outCap : Nat) (input : List UInt8)
    (hstate : c.state = .readPadd) :
    feedPadd c input = ofResult input (drain (read k outCap) c input) := by
  induction input generalizing c with
  | nil =>
    by_cases hmore : c.paddRemaining > 0
    · rw [ofResult_wait (by simp [read, hstate, hmore])]
      simp [feedPadd, paddLoop, hmore, statusOf, hstate]
    · rw [ofResult_stop (by simp only [read, hstate, hmore, if_false]; rfl)]
      simp [feedPadd, paddLoop, hmore, statusOf]
  | cons b rest ih =>
    by_cases hmore : c.paddRemaining > 0
    · have hread : read k outCap c (b :: rest) = .next c.paddByte [] 1 := by
        simp only [read, hstate, hmore, if_true]
      have hnext : c.paddByte.state = .readPadd := hstate
      rw [feedPadd_cons b rest hmore, ih hnext, ofResult_next hread]
      rfl
    · rw [ofResult_stop (by simp only [read, hstate, hmore, if_false]; rfl)]
      simp [feedPadd, paddLoop, hmore, statusOf]

theorem selectByte_length (c : Client) (b : UInt8) :
    (c.selectByte b).selectBuf.length = c.selectBuf.length + 1 := by
  simp [Client.selectByte, rc4Crypt]

theorem feedSelect_cons (b : UInt8) (rest : List UInt8) (h : c.selectBuf.length < 6) :
    feedSelect c (b :: rest) = (feedSelect (c.selectByte b) rest).after 1 [] := by
  simp only [feedSelect, selectLoop, h, if_true]
  split
  · simp [Feed.after, Nat.add_comm]
  · split
    · simp [Feed.after, Nat.add_comm]
    · simp only [Feed.after, List.drop_succ_cons, List.nil_append, Feed.mk.injEq,
        true_and, and_true]
      omega

/-- With six bytes read the loop does nothing more. -/
theorem feedSelect_full (h : ¬ c.selectBuf.length < 6) :
    feedSelect c input =
      if selectRefused c.selectBuf then ⟨c.failed, .fail, 0, []⟩ else feedPadd
        c.selected input := by
  have hloop : selectLoop c input = (c, 0) := by
    cases input with
    | nil => rfl
    | cons b rest => simp only [selectLoop, h, if_false]
  simp only [feedSelect, hloop, h, if_false, List.drop_zero]
  split
  · rfl
  · simp [Feed.after]

theorem feedSelect_eq (k : Crypto) (outCap : Nat) (input : List UInt8)
    (hstate : c.state = .readSelect) (h : c.selectBuf.length < 6) :
    feedSelect c input = ofResult input (drain (read k outCap) c input) := by
  induction input generalizing c with
  | nil =>
    rw [ofResult_wait (by simp only [read, hstate])]
    simp [feedSelect, selectLoop, h, statusOf, hstate]
  | cons b rest ih =>
    rw [feedSelect_cons b rest h]
    by_cases hmore : (c.selectByte b).selectBuf.length < 6
    · have hread : read k outCap c (b :: rest) = .next (c.selectByte b) [] 1 := by
        simp only [read, hstate, hmore, if_true]
      have hnext : (c.selectByte b).state = .readSelect := hstate
      rw [ih hnext hmore, ofResult_next hread]
      rfl
    · rw [feedSelect_full hmore]
      by_cases hrefused : selectRefused (c.selectByte b).selectBuf = true
      · have hread : read k outCap c (b :: rest) = .stop (c.selectByte b).failed [] 1 := by
          simp only [read, hstate, hmore, hrefused, if_true, if_false]
        rw [ofResult_stop hread, if_pos hrefused]
        rfl
      · have hread : read k outCap c (b :: rest) = .next (c.selectByte b).selected [] 1 := by
          simp only [read, hstate, hmore, if_false]
          exact if_neg hrefused
        rw [ofResult_next hread, if_neg hrefused, feedPadd_eq k outCap _ rfl]
        rfl

end Calls

/-- The scan has gone on for more bytes than the limit allows. -/
def Overrun (c : Client) : Prop := c.state = .syncVc ∧ c.skipped > mseMaxPad + mseDhLen

instance decidableOverrun (c : Client) : Decidable (Overrun c) :=
  inferInstanceAs (Decidable (_ ∧ _))

/-- The result of a call: what the reader gives, unless it ends in an overrun. -/
def limited (input : List UInt8) (r : Result Client UInt8 UInt8) : Feed :=
  if Overrun r.state then ⟨r.state.failed, .fail, input.length - r.rest.length, r.out⟩ else
    ofResult input r

/-- The VC is found, or the handshake is over. -/
def Past (c : Client) : Prop := c.state ≠ .readPub ∧ c.state ≠ .syncVc

section Limit

variable {k : Crypto} {outCap : Nat} {c c' : Client} {input : List UInt8}

theorem read_past (k : Crypto) (outCap : Nat) (input : List UInt8) (past : Past c) :
    match read k outCap c input with
    | .wait => True
    | .stop c' out _ => Past c' ∧ out = []
    | .next c' out _ => Past c' ∧ out = [] := by
  cases hstate : c.state with
  | readPub => exact absurd hstate past.1
  | syncVc => exact absurd hstate past.2
  | readSelect =>
    cases input with
    | nil => simp only [read, hstate]
    | cons b rest =>
      have hbyte : Past (c.selectByte b) := past
      simp only [read, hstate]
      by_cases hmore : (c.selectByte b).selectBuf.length < 6
      · simpa [hmore] using hbyte
      · by_cases hrefused : selectRefused (c.selectByte b).selectBuf = true
        · simp [hmore, hrefused, Past, Client.failed]
        · simp [hmore, hrefused, Past, Client.selected]
  | readPadd =>
    by_cases hmore : c.paddRemaining > 0
    · have hbyte : Past c.paddByte := past
      cases input with
      | nil => simp only [read, hstate, hmore, if_true]
      | cons b rest => simpa [read, hstate, hmore] using hbyte
    · simp [read, hstate, hmore, Past]
  | done => simpa [read, hstate] using past
  | fail => simpa [read, hstate] using past

/-- Past the scan nothing is sent, and the scan is not resumed. -/
theorem drain_past (k : Crypto) (outCap : Nat) (c : Client) (input : List UInt8) (past : Past c) :
    Past (drain (read k outCap) c input).state ∧ (drain (read k outCap) c input).out = [] := by
  induction c, input using drain_induction (read_incremental k outCap) with
  | wait c input hread =>
    rw [drain_wait hread]
    exact ⟨past, rfl⟩
  | stop c input c' out used hread =>
    have hpast := read_past k outCap input past
    rw [hread] at hpast
    rw [drain_stop hread]
    exact hpast
  | next c input c' out used hread ih =>
    have hpast := read_past k outCap input past
    rw [hread] at hpast
    rw [drain_next (read_incremental k outCap) hread]
    obtain ⟨hstate, hout⟩ := ih hpast.1
    refine ⟨hstate, ?_⟩
    rw [Result.after_out, hout, hpast.2]
    rfl

theorem limited_past (past : Past c) :
    limited input (drain (read k outCap) c input) =
      ofResult input (drain (read k outCap) c input) := by
  have hstate := (drain_past k outCap c input past).1
  exact if_neg (fun hover => hstate.2 hover.1)

theorem limited_next {out : List UInt8} {used : Nat}
    (h : read k outCap c input = .next c' out used) :
    limited input (drain (read k outCap) c input) =
      (limited (input.drop used) (drain (read k outCap) c' (input.drop used))).after used out := by
  have hresult := ofResult_next h
  have hstate : (drain (read k outCap) c input).state =
    (drain (read k outCap) c' (input.drop used)).state := by
    rw [drain_next (read_incremental k outCap) h]
    rfl
  simp only [limited, hstate]
  by_cases hover : Overrun (drain (read k outCap) c' (input.drop used)).state
  · simp only [hover, if_true]
    have hconsumed := congrArg Feed.consumed hresult
    have hproduced := congrArg Feed.produced hresult
    simp only [ofResult, Feed.after] at hconsumed hproduced
    simp only [Feed.after, hconsumed, hproduced]
  · simpa only [hover, if_false] using hresult

theorem skip_zero (h : c.skipped < 2 ^ 32) : c.skip 0 = c := by
  have hsame : (c.skipped + 0 % 2 ^ 32) % 2 ^ 32 = c.skipped := by omega
  simp only [Client.skip, hsame]

theorem skip_skip (c : Client) (n : Nat) : (c.skip 1).skip n = c.skip (n + 1) := by
  have hsame : ((c.skipped + 1 % 2 ^ 32) % 2 ^ 32 + n % 2 ^ 32) % 2 ^ 32 =
      (c.skipped + (n + 1) % 2 ^ 32) % 2 ^ 32 := by omega
  simp only [Client.skip, hsame]

theorem skip_lt (c : Client) (n : Nat) : (c.skip n).skipped < 2 ^ 32 :=
  Nat.mod_lt _ (by decide)

/-- A scan without a match leaves the last 7 bytes. -/
theorem drain_missed (k : Crypto) (outCap : Nat) (hstate : c.state = .syncVc)
    (h : c.skipped < 2 ^ 32) (missed : findVc c.vcExpect input = none) :
    drain (read k outCap) c input =
      ⟨c.skip (input.length - (mseVcLen - 1)), [],
        input.drop (input.length - (mseVcLen - 1)), false⟩ := by
  induction input generalizing c with
  | nil =>
    have hread : read k outCap c [] = .wait := by
      simp only [read, hstate]
      exact if_pos (by decide)
    rw [drain_wait hread]
    simp [skip_zero h]
  | cons b rest ih =>
    by_cases hshort : (b :: rest).length < mseVcLen
    · have hread : read k outCap c (b :: rest) = .wait := by
        simp only [read, hstate, hshort, if_true]
      have hzero : (b :: rest).length - (mseVcLen - 1) = 0 := by
        simp only [mseVcLen] at hshort ⊢
        omega
      rw [drain_wait hread, hzero, skip_zero h, List.drop_zero]
    · have hlength : (b :: rest).length - (mseVcLen - 1) = rest.length - (mseVcLen - 1) + 1 := by
        simp only [mseVcLen, List.length_cons] at hshort ⊢
        omega
      by_cases hfound : (b :: rest).take mseVcLen = c.vcExpect
      · simp only [findVc, hshort, hfound, if_true, if_false] at missed
        cases missed
      · have hread : read k outCap c (b :: rest) = .next (c.skip 1) [] 1 := by
          simp only [read, hstate, hshort, hfound, if_false]
        have hrest : findVc c.vcExpect rest = none := by
          simpa only [findVc, hshort, hfound, if_false, Option.map_eq_none_iff] using missed
        have hnext : (c.skip 1).state = .syncVc := hstate
        rw [drain_next (read_incremental k outCap) hread, List.drop_one, List.tail_cons,
          ih hnext (skip_lt c 1) hrest, hlength, skip_skip, List.drop_succ_cons, Result.after_nil]

/-- A scan with a match goes on after the VC. -/
theorem drain_found (k : Crypto) (outCap : Nat) {n : Nat} (hstate : c.state = .syncVc)
    (h : c.skipped < 2 ^ 32) (found : findVc c.vcExpect input = some n) :
    drain (read k outCap) c input =
      drain (read k outCap) (c.skip n).synced (input.drop (n + mseVcLen)) := by
  induction input generalizing c n with
  | nil => cases found
  | cons b rest ih =>
    by_cases hshort : (b :: rest).length < mseVcLen
    · simp only [findVc, hshort, if_true] at found
      cases found
    · by_cases hfound : (b :: rest).take mseVcLen = c.vcExpect
      · have hread : read k outCap c (b :: rest) = .next c.synced [] mseVcLen := by
          simp only [read, hstate, hshort, hfound, if_true, if_false]
        simp only [findVc, hshort, hfound, if_true, if_false] at found
        cases found
        rw [drain_next (read_incremental k outCap) hread, skip_zero h, Nat.zero_add,
          Result.after_nil]
      · have hread : read k outCap c (b :: rest) = .next (c.skip 1) [] 1 := by
          simp only [read, hstate, hshort, hfound, if_false]
        simp only [findVc, hshort, hfound, if_false, Option.map_eq_some_iff] at found
        obtain ⟨m, hm, rfl⟩ := found
        have hrest : findVc (c.skip 1).vcExpect rest = some m := hm
        have hnext : (c.skip 1).state = .syncVc := hstate
        have hdrop : (b :: rest).drop (m + 1 + mseVcLen) = rest.drop (m + mseVcLen) := by
          rw [show m + 1 + mseVcLen = m + mseVcLen + 1 by omega, List.drop_succ_cons]
        rw [drain_next (read_incremental k outCap) hread, List.drop_one, List.tail_cons,
          ih hnext (skip_lt c 1) hrest, skip_skip, hdrop, Result.after_nil]

theorem findVc_le {vc : List UInt8} {n : Nat} (h : findVc vc input = some n) :
    n + mseVcLen ≤ input.length := by
  induction input generalizing n with
  | nil => cases h
  | cons b rest ih =>
    simp only [findVc] at h
    split at h
    · cases h
    · split at h
      · cases h
        omega
      · obtain ⟨m, hm, rfl⟩ := Option.map_eq_some_iff.mp h
        have hle := ih hm
        rw [List.length_cons]
        omega

theorem synced_past (c : Client) : Past c.synced :=
  ⟨by simp [Client.synced], by simp [Client.synced]⟩

theorem feedSync_eq (k : Crypto) (outCap : Nat) (input : List UInt8) (hstate : c.state = .syncVc)
    (h : c.skipped < 2 ^ 32) :
    feedSync c input = limited input (drain (read k outCap) c input) := by
  cases hfind : findVc c.vcExpect input with
  | none =>
    have hskip : (c.skip (input.length - (mseVcLen - 1))).state = .syncVc := hstate
    have hused : input.length - (input.length - (input.length - (mseVcLen - 1))) =
        input.length - (mseVcLen - 1) := by omega
    simp only [feedSync, hfind, drain_missed k outCap hstate h hfind, limited, Overrun,
      ofResult, statusOf, hskip, true_and, List.length_drop, hused]
  | some n =>
    have hle := findVc_le hfind
    have hshort := drain_short k outCap (c.skip n).synced (input.drop (n + mseVcLen))
    rw [List.length_drop] at hshort
    have hnone : (c.skip n).synced.selectBuf.length < 6 := Nat.zero_lt_succ 5
    have hpast := (drain_past k outCap _ (input.drop (n + mseVcLen)) (synced_past (c.skip n))).1
    simp only [feedSync, hfind, drain_found k outCap hstate h hfind]
    rw [limited, if_neg (fun hover => hpast.2 hover.1), feedSelect_eq k outCap _ rfl hnone]
    simp only [ofResult, Feed.after, List.length_drop, List.nil_append, Feed.mk.injEq,
      true_and, and_true]
    omega

/-- A call reads as the reader does, up to the limit. -/
theorem mseClientFeed_eq (k : Crypto) (outCap : Nat) (input : List UInt8) (sound : Sound c) :
    mseClientFeed k outCap c input = limited input (drain (read k outCap) c input) := by
  cases hstate : c.state with
  | readPub =>
    by_cases hshort : input.length < mseDhLen
    · have hread : read k outCap c input = .wait := by
        simp only [read, hstate, hshort, if_true]
      simp [mseClientFeed, hstate, hshort, drain_wait hread, limited, Overrun, ofResult, statusOf]
    · simp only [mseClientFeed, hstate, hshort, if_false]
      cases hemit : emitRequest k (c.keyed k (mseDhSecret k c.priv (input.take mseDhLen)))
          (mseDhSecret k c.priv (input.take mseDhLen)) outCap with
      | none =>
        have hread : read k outCap c input =
            .stop (c.keyed k (mseDhSecret k c.priv (input.take mseDhLen))).failed [] mseDhLen := by
          simp only [read, hstate, hshort, if_false, hemit]
        rw [limited, if_neg (by rw [drain_stop hread]; simp [Overrun, Client.failed]),
          ofResult_stop hread]
        rfl
      | some r =>
        have hread : read k outCap c input = .next r.1.requested r.2 mseDhLen := by
          simp only [read, hstate, hshort, if_false, hemit]
        have hscan := feedSync_eq (c := r.1.requested) k outCap (input.drop mseDhLen) rfl
          (Nat.two_pow_pos 32)
        rw [limited_next hread, ← hscan]
  | syncVc =>
    simp only [mseClientFeed, hstate]
    exact feedSync_eq k outCap input hstate sound.skipped
  | readSelect =>
    have hpast : Past c := by simp [Past, hstate]
    simp only [mseClientFeed, hstate]
    rw [limited_past hpast]
    exact feedSelect_eq k outCap input hstate (sound.select hstate)
  | readPadd =>
    have hpast : Past c := by simp [Past, hstate]
    simp only [mseClientFeed, hstate]
    rw [limited_past hpast]
    exact feedPadd_eq k outCap input hstate
  | done =>
    have hpast : Past c := by simp [Past, hstate]
    have hread : read k outCap c input = .stop c [] 0 := by simp only [read, hstate]
    rw [limited_past hpast, ofResult_stop hread]
    simp [mseClientFeed, hstate, statusOf]
  | fail =>
    have hpast : Past c := by simp [Past, hstate]
    have hread : read k outCap c input = .stop c [] 0 := by simp only [read, hstate]
    rw [limited_past hpast, ofResult_stop hread]
    simp [mseClientFeed, hstate, statusOf]

theorem read_sound (k : Crypto) (outCap : Nat) (input : List UInt8) (sound : Sound c) :
    match read k outCap c input with
    | .wait => True
    | .stop c' _ _ => Sound c'
    | .next c' _ _ => Sound c' := by
  have hskipped := sound.skipped
  cases hstate : c.state with
  | readPub =>
    by_cases hshort : input.length < mseDhLen
    · simp only [read, hstate, hshort, if_true]
    · simp only [read, hstate, hshort, if_false]
      cases hemit : emitRequest k (c.keyed k (mseDhSecret k c.priv (input.take mseDhLen)))
          (mseDhSecret k c.priv (input.take mseDhLen)) outCap with
      | none => exact ⟨by simpa [Client.failed] using hskipped, by simp [Client.failed]⟩
      | some r => exact ⟨by simp [Client.requested], by simp [Client.requested]⟩
  | syncVc =>
    by_cases hshort : input.length < mseVcLen
    · simp only [read, hstate, hshort, if_true]
    · by_cases hfound : input.take mseVcLen = c.vcExpect
      · simp only [read, hstate, hshort, hfound, if_true, if_false]
        exact ⟨hskipped, fun _ => Nat.zero_lt_succ 5⟩
      · simp only [read, hstate, hshort, hfound, if_false]
        exact ⟨skip_lt c 1, by simp [Client.skip, hstate]⟩
  | readSelect =>
    cases input with
    | nil => simp only [read, hstate]
    | cons b rest =>
      simp only [read, hstate]
      by_cases hmore : (c.selectByte b).selectBuf.length < 6
      · simp only [hmore, if_true]
        exact ⟨hskipped, fun _ => hmore⟩
      · by_cases hrefused : selectRefused (c.selectByte b).selectBuf = true
        · simp only [hmore, hrefused, if_true, if_false]
          exact ⟨hskipped, by simp [Client.failed]⟩
        · simp only [hmore, hrefused, if_false]
          exact ⟨hskipped, by simp [Client.selected]⟩
  | readPadd =>
    by_cases hmore : c.paddRemaining > 0
    · cases input with
      | nil => simp only [read, hstate, hmore, if_true]
      | cons b rest =>
        simp only [read, hstate, hmore, if_true]
        exact ⟨hskipped, by simp [Client.paddByte, hstate]⟩
    · simp only [read, hstate, hmore, if_false]
      exact ⟨hskipped, by simp⟩
  | done => simpa only [read, hstate] using sound
  | fail => simpa only [read, hstate] using sound

theorem Sound.drain (sound : Sound c) (k : Crypto) (outCap : Nat) (input : List UInt8) :
    Sound (drain (read k outCap) c input).state := by
  induction c, input using drain_induction (read_incremental k outCap) with
  | wait c input hread =>
    rw [drain_wait hread]
    exact sound
  | stop c input c' out used hread =>
    have hnext := read_sound k outCap input sound
    rw [hread] at hnext
    rw [drain_stop hread]
    exact hnext
  | next c input c' out used hread ih =>
    have hnext := read_sound k outCap input sound
    rw [hread] at hnext
    rw [drain_next (read_incremental k outCap) hread]
    exact ih hnext

end Limit

/-- A client that was fed `stream` without an overrun. -/
def tracked (k : Crypto) (outCap : Nat) (c : Client) (stream : List UInt8) : Fed :=
  let r := drain (read k outCap) c stream
  ⟨r.state, statusOf r.state, r.rest, stream.length - r.rest.length, r.out⟩

section Chunks

variable {k : Crypto} {outCap : Nat} {c : Client} {stream chunk : List UInt8}

theorem read_stop {c' : Client} {out : List UInt8} {used : Nat} {input : List UInt8}
    (h : read k outCap c input = .stop c' out used) : c'.state = .done ∨ c'.state = .fail := by
  unfold read at h
  split at h
  · split at h
    · cases h
    · dsimp only at h
      split at h
      · cases h
        exact Or.inr rfl
      · cases h
  · split at h
    · cases h
    · split at h <;> cases h
  · split at h
    · cases h
    · dsimp only at h
      split at h
      · cases h
      · split at h
        · cases h
          exact Or.inr rfl
        · cases h
  · split at h
    · split at h <;> cases h
    · cases h
      exact Or.inl rfl
  · next hstate =>
    cases h
    exact Or.inl hstate
  · next hstate =>
    cases h
    exact Or.inr hstate

theorem drain_over (h : c.state = .done ∨ c.state = .fail) (input : List UInt8) :
    drain (read k outCap) c input = ⟨c, [], input, true⟩ := by
  have hread : read k outCap c input = .stop c [] 0 := by
    rcases h with hstate | hstate <;> simp only [read, hstate]
  rw [drain_stop hread, List.drop_zero]

/-- A client that is done or has failed stays so, and the next call goes on where the last
one has ended. -/
theorem drain_again (k : Crypto) (outCap : Nat) (c : Client) (stream chunk : List UInt8) :
    drain (read k outCap) c (stream ++ chunk) =
      (drain (read k outCap) (drain (read k outCap) c stream).state
        ((drain (read k outCap) c stream).rest ++ chunk)).after
        (drain (read k outCap) c stream).out := by
  rw [drain_append (read_incremental k outCap), feed]
  split
  · next hstopped =>
    have hover : (drain (read k outCap) c stream).state.state = .done ∨
        (drain (read k outCap) c stream).state.state = .fail := by
      induction c, stream using drain_induction (read_incremental k outCap) with
      | wait c input hread =>
        rw [drain_wait hread] at hstopped
        cases hstopped
      | stop c input c' out used hread =>
        rw [drain_stop hread]
        exact read_stop hread
      | next c input c' out used hread ih =>
        rw [drain_next (read_incremental k outCap) hread] at hstopped ⊢
        exact ih hstopped
    rw [drain_over hover]
    simp [Result.followed, Result.after, hstopped]
  · rfl

theorem feedChunk_tracked (k : Crypto) (outCap : Nat) (stream chunk : List UInt8)
    (sound : Sound c) : feedChunk k outCap (tracked k outCap c stream) chunk =
      if Overrun (drain (read k outCap) c (stream ++ chunk)).state then
        { tracked k outCap c (stream ++ chunk) with
          client := (drain (read k outCap) c (stream ++ chunk)).state.failed, status := .fail }
      else tracked k outCap c (stream ++ chunk) := by
  have hshort := drain_short k outCap c stream
  have hrest := drain_rest (read_incremental k outCap) (drain (read k outCap) c stream).state
    ((drain (read k outCap) c stream).rest ++ chunk)
  have hlength := hrest.length_le
  have hdrop := List.suffix_iff_eq_drop.mp hrest
  rw [List.length_append] at hlength
  simp only [feedChunk, tracked, mseClientFeed_eq k outCap _ (sound.drain k outCap stream),
    drain_again k outCap c stream chunk, Result.after_state, Result.after_rest,
      Result.after_out, limited]
  have hconsumed : stream.length - (drain (read k outCap) c stream).rest.length +
      ((drain (read k outCap) c stream).rest.length + chunk.length -
        (drain (read k outCap) (drain (read k outCap) c stream).state
          ((drain (read k outCap) c stream).rest ++ chunk)).rest.length) =
      stream.length + chunk.length - (drain (read k outCap) (drain (read k outCap) c stream).state
        ((drain (read k outCap) c stream).rest ++ chunk)).rest.length := by
    omega
  split
  · simp only [List.length_append, hconsumed]
    rw [List.length_append] at hdrop
    rw [← hdrop]
  · simp only [ofResult, List.length_append, hconsumed]
    rw [List.length_append] at hdrop
    rw [← hdrop]

theorem feedChunk_failed {f : Fed} (h : f.client.state = .fail) :
    feedChunk k outCap f chunk =
      { f with status := .fail, pending := f.pending ++ chunk } := by
  simp [feedChunk, mseClientFeed, h]

/-- The request is all that is ever sent. -/
theorem drain_sent (k : Crypto) (outCap : Nat) (input : List UInt8) (sound : Sound c)
    (sent : c.state ≠ .readPub) :
    (drain (read k outCap) c input).state.state ≠ .readPub ∧
    (drain (read k outCap) c input).out = [] := by
  by_cases hstate : c.state = .syncVc
  · cases hfind : findVc c.vcExpect input with
    | none =>
      rw [drain_missed k outCap hstate sound.skipped hfind]
      exact ⟨sent, rfl⟩
    | some n =>
      rw [drain_found k outCap hstate sound.skipped hfind]
      obtain ⟨hpast, hout⟩ := drain_past k outCap _ (input.drop (n + mseVcLen))
        (synced_past (c.skip n))
      exact ⟨hpast.1, hout⟩
  · obtain ⟨hpast, hout⟩ := drain_past k outCap c input ⟨sent, hstate⟩
    exact ⟨hpast.1, hout⟩

/-- In any chunks, a client is where the reader is, or it has failed after its request. -/
theorem feedChunks_cases (sound : Sound c) (started : c.state = .readPub)
    (chunks : List (List UInt8)) :
    (feedChunks k outCap c chunks = tracked k outCap c chunks.flatten ∧
        ¬ Overrun (drain (read k outCap) c chunks.flatten).state) ∨
      ((feedChunks k outCap c chunks).client.state = .fail ∧
        (feedChunks k outCap c chunks).status = .fail ∧
        (feedChunks k outCap c chunks).produced = (drain (read k outCap) c chunks.flatten).out ∧
        (drain (read k outCap) c chunks.flatten).state.state ≠ .readPub ∧
        ∃ p, p <+: chunks.flatten ∧ Overrun (drain (read k outCap) c p).state) := by
  induction chunks using List.reverseRecOn with
  | nil =>
    have hread : read k outCap c [] = .wait := by
      simp only [read, started]
      exact if_pos (by decide)
    left
    simp [feedChunks, tracked, drain_wait hread, statusOf, started, Overrun]
  | append_singleton chunks chunk ih =>
    have hflat : (chunks ++ [chunk]).flatten = chunks.flatten ++ chunk := by simp
    have hstep : feedChunks k outCap c (chunks ++ [chunk]) =
        feedChunk k outCap (feedChunks k outCap c chunks) chunk := by
      simp [feedChunks]
    rw [hstep, hflat]
    rcases ih with ⟨htracked, _⟩ | ⟨hstate, _, hproduced, hsent, p, hp, hover⟩
    · rw [htracked, feedChunk_tracked k outCap _ _ sound]
      by_cases hover : Overrun (drain (read k outCap) c (chunks.flatten ++ chunk)).state
      · right
        rw [if_pos hover]
        refine ⟨rfl, rfl, rfl, ?_, _, List.prefix_refl _, hover⟩
        rw [hover.1]
        decide
      · left
        rw [if_neg hover]
        exact ⟨rfl, hover⟩
    · right
      obtain ⟨hsent', hout⟩ := drain_sent k outCap
        ((drain (read k outCap) c chunks.flatten).rest ++ chunk)
        (sound.drain k outCap chunks.flatten) hsent
      rw [feedChunk_failed hstate, drain_again k outCap c chunks.flatten chunk]
      refine ⟨hstate, rfl, ?_, hsent', p, hp.trans (List.prefix_append _ _), hover⟩
      rw [Result.after_out, hout, List.append_nil]
      exact hproduced

/-- Without an overrun the chunks make no difference. -/
theorem feedChunks_tracked (sound : Sound c) (started : c.state = .readPub)
    {chunks : List (List UInt8)}
    (within : ∀ p, p <+: chunks.flatten → ¬ Overrun (drain (read k outCap) c p).state) :
    feedChunks k outCap c chunks = tracked k outCap c chunks.flatten := by
  rcases feedChunks_cases sound started chunks with ⟨htracked, _⟩ | ⟨_, _, _, _, p, hp, hover⟩
  · exact htracked
  · exact absurd hover (within p hp)

end Chunks

end Mse
