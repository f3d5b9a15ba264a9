import Mathlib.Algebra.Group.Nat.Defs
import Mathlib.Data.List.Basic
import Pipensx.Keystream

/-!
# The outgoing byte stream of one peer

`peer_send_plain`, `peer_send_raw`, `peer_flush` and `send_msg` of `core/peer.c`, over
the RC4 of `core/mse.c`. The transport is nonblocking: one call of `transport_write`
takes any number of the offered bytes. What it has taken so far is kept in `wire`, so
that `wire ++ sbuf` is everything the peer has ever been given to send.
-/

namespace PeerSend

/-- `PEER_BUF_SIZE`. -/
def peerBufSize : Nat := 4 + 1 + 2 ^ 14 + 9

/-- The size of the `enc` buffer on the stack of `peer_send_raw`. -/
def encSize : Nat := 4096

/-- `rc4_t`; the index type of the permutation is `uint8_t`. -/
structure Rc4 where
  s : UInt8 → UInt8
  i : UInt8
  j : UInt8

/-- One round of the loop of `rc4_crypt`: the swap, then the keystream byte. -/
def rc4Step (rc4 : Rc4) : Rc4 × UInt8 :=
  let i := rc4.i + 1
  let j := rc4.j + rc4.s i
  let s : UInt8 → UInt8 := fun n =>
    if n = j then rc4.s i else if n = i then rc4.s j else rc4.s n
  (⟨s, i, j⟩, s (s i + s j))

def rc4Crypt (rc4 : Rc4) (data : List UInt8) : List UInt8 × Rc4 :=
  Keystream.crypt rc4Step rc4 data

/-- The sending half of `peer_t`: the queued bytes, the encryption, and what the
transport has taken together with how often it was called. -/
structure Sender where
  sbuf : List UInt8
  mseActive : Bool
  sendRc4 : Rc4
  wire : List UInt8
  calls : Nat

/-- The return value of each call of `transport_write`, by its number and the number
of bytes offered; negative is a hard error. -/
abbrev Transport := Nat → Nat → Int

/-- No hard error, and never more bytes taken than offered. -/
def Transport.Accepting (env : Transport) : Prop := ∀ k len, 0 ≤ env k len ∧ env k len ≤ len

def transportWrite (env : Transport) (p : Sender) (data : List UInt8) : Int × Sender :=
  let n := env p.calls data.length
  (n, { p with wire := p.wire ++ data.take n.toNat, calls := p.calls + 1 })

/-- The second half of `peer_send_plain`: queue what is left. -/
def queueTail (p : Sender) (data : List UInt8) : Bool × Sender :=
  if data.length = 0 then (true, p)
  else if p.sbuf.length + data.length > peerBufSize then (false, p)
  else (true, { p with sbuf := p.sbuf ++ data })

def peerSendPlain (env : Transport) (p : Sender) (data : List UInt8) : Bool × Sender :=
  if p.sbuf.length = 0 ∧ data.length > 0 then
    let w := transportWrite env p data
    if w.1 < 0 then (false, w.2) else queueTail w.2 (data.drop w.1.toNat)
  else queueTail p data

/-- The chunk loop of `peer_send_raw`. -/
def sendChunks (env : Transport) : Nat → Sender → List UInt8 → Bool × Sender
  | 0, p, _ => (true, p)
  | fuel + 1, p, data =>
    if data.length > 0 then
      let chunk := data.take encSize
      let enc := rc4Crypt p.sendRc4 chunk
      let sent := peerSendPlain env { p with sendRc4 := enc.2 } enc.1
      if sent.1 then sendChunks env fuel sent.2 (data.drop encSize) else (false, sent.2)
    else (true, p)

def peerSendRaw (env : Transport) (p : Sender) (data : List UInt8) : Bool × Sender :=
  if p.mseActive = false ∨ data.length = 0 then peerSendPlain env p data
  else sendChunks env data.length p data

def peerFlush (env : Transport) (p : Sender) : Bool × Sender :=
  if p.sbuf.length = 0 then (true, p)
  else
    let w := transportWrite env p p.sbuf
    if w.1 < 0 then (false, w.2)
    else (true, { w.2 with sbuf := p.sbuf.drop w.1.toNat })

/-- The four header bytes. -/
def lengthPrefix (plen : Nat) : List UInt8 :=
  [UInt8.ofNat (plen / 2 ^ 24), UInt8.ofNat (plen / 2 ^ 16), UInt8.ofNat (plen / 2 ^ 8),
    UInt8.ofNat plen]

/-- The reservation at the head of `send_msg`: a full queue is flushed once. -/
def reserve (env : Transport) (p : Sender) (need : Nat) : Bool × Sender :=
  if p.sbuf.length + need > peerBufSize then
    let f := peerFlush env p
    (f.1 && decide (f.2.sbuf.length + need ≤ peerBufSize), f.2)
  else (true, p)

def sendMsg (env : Transport) (p : Sender) (payload : List UInt8) : Bool × Sender :=
  let r := reserve env p (4 + payload.length)
  if r.1 = false then (false, r.2)
  else
    let h := peerSendRaw env r.2 (lengthPrefix payload.length)
    if h.1 = false then (false, h.2)
    else if payload.length > 0 then peerSendRaw env h.2 payload else (true, h.2)

theorem queueTail_mode (p : Sender) (data : List UInt8) :
    (queueTail p data).2.mseActive = p.mseActive := by
  unfold queueTail
  split
  · rfl
  · split <;> rfl

theorem peerSendPlain_mode (env : Transport) (p : Sender) (data : List UInt8) :
    (peerSendPlain env p data).2.mseActive = p.mseActive := by
  unfold peerSendPlain
  split
  · dsimp only
    split
    · rfl
    · rw [queueTail_mode]
      rfl
  · exact queueTail_mode p data

theorem sendChunks_mode (env : Transport) (fuel : Nat) (p : Sender) (data : List UInt8) :
    (sendChunks env fuel p data).2.mseActive = p.mseActive := by
  induction fuel generalizing p data with
  | zero => rfl
  | succ fuel ih =>
    unfold sendChunks
    split
    · dsimp only
      split
      · rw [ih, peerSendPlain_mode]
      · rw [peerSendPlain_mode]
    · rfl

theorem peerSendRaw_mode (env : Transport) (p : Sender) (data : List UInt8) :
    (peerSendRaw env p data).2.mseActive = p.mseActive := by
  unfold peerSendRaw
  split
  · exact peerSendPlain_mode env p data
  · exact sendChunks_mode env _ p data

theorem reserve_mode (env : Transport) (p : Sender) (need : Nat) :
    (reserve env p need).2.mseActive = p.mseActive := by
  unfold reserve
  split
  · unfold peerFlush
    split
    · rfl
    · dsimp only
      split <;> rfl
  · rfl

/-- Sent or not, a message does not switch the encryption on or off. -/
theorem sendMsg_mode (env : Transport) (p : Sender) (payload : List UInt8) :
    (sendMsg env p payload).2.mseActive = p.mseActive := by
  unfold sendMsg
  dsimp only
  split
  · exact reserve_mode env p _
  · split
    · rw [peerSendRaw_mode, reserve_mode]
    · split
      · rw [peerSendRaw_mode, peerSendRaw_mode, reserve_mode]
      · rw [peerSendRaw_mode, reserve_mode]

/-- Everything ever handed to the peer for sending, in order. -/
def Sender.stream (p : Sender) : List UInt8 := p.wire ++ p.sbuf

/-- The bytes `data` becomes on the wire, and the keystream state after it. -/
def encode (p : Sender) (data : List UInt8) : List UInt8 × Rc4 :=
  if p.mseActive then rc4Crypt p.sendRc4 data else (data, p.sendRc4)

/-- Sending `data` appended its encoding to the stream and used room of its length. -/
structure Sent (p p' : Sender) (data : List UInt8) : Prop where
  stream : p'.stream = p.stream ++ (encode p data).1
  state : p'.sendRc4 = (encode p data).2
  mode : p'.mseActive = p.mseActive
  room : p'.sbuf.length ≤ p.sbuf.length + data.length

theorem encode_nil (p : Sender) : encode p [] = ([], p.sendRc4) := by
  simp [encode, rc4Crypt, Keystream.crypt]

/-- One contiguous keystream: two sends in a row are one send. -/
theorem Sent.append {p p' p'' : Sender} {a b : List UInt8} (first : Sent p p' a)
    (second : Sent p' p'' b) : Sent p p'' (a ++ b) := by
  have henc : encode p (a ++ b) = ((encode p a).1 ++ (encode p' b).1, (encode p' b).2) := by
    simp only [encode, first.mode]
    split
    · next hm =>
      have hs : p'.sendRc4 = (rc4Crypt p.sendRc4 a).2 := by
        rw [first.state]
        simp [encode, hm]
      rw [hs]
      exact Keystream.crypt_append rc4Step p.sendRc4 a b
    · next hm =>
      have hs : p'.sendRc4 = p.sendRc4 := by
        rw [first.state]
        simp [encode, hm]
      rw [hs]
  have hroom := first.room
  have hroom' := second.room
  refine ⟨?_, ?_, second.mode.trans first.mode, ?_⟩
  · rw [second.stream, first.stream, henc, List.append_assoc]
  · rw [second.state, henc]
  · simp only [List.length_append]
    omega

theorem Sent.refl (p : Sender) : Sent p p [] :=
  ⟨by simp [encode_nil], by simp [encode_nil], rfl, by simp⟩

theorem transportWrite_nonneg {env : Transport} (accepts : env.Accepting) (p : Sender)
    (data : List UInt8) : ¬ (transportWrite env p data).1 < 0 := by
  have := (accepts p.calls data.length).1
  simp only [transportWrite]
  omega

theorem queueTail_spec (p : Sender) (data : List UInt8)
    (room : p.sbuf.length + data.length ≤ peerBufSize) :
    queueTail p data = (true, { p with sbuf := p.sbuf ++ data }) := by
  rw [queueTail]
  split
  · next h =>
    have hnil : data = [] := List.length_eq_zero_iff.mp h
    simp [hnil]
  · rw [if_neg (by omega)]

/-- With room for all of it, `data` reaches the stream whole, in order and unchanged. -/
theorem peerSendPlain_spec {env : Transport} (accepts : env.Accepting) (p : Sender)
    (data : List UInt8) (room : p.sbuf.length + data.length ≤ peerBufSize) :
    ∃ p', peerSendPlain env p data = (true, p') ∧ p'.stream = p.stream ++ data ∧
      p'.sendRc4 = p.sendRc4 ∧ p'.mseActive = p.mseActive ∧
      p'.sbuf.length ≤ p.sbuf.length + data.length := by
  rw [peerSendPlain]
  split
  · next h =>
    have hempty : p.sbuf = [] := List.length_eq_zero_iff.mp h.1
    have hn := transportWrite_nonneg accepts p data
    dsimp only
    rw [if_neg hn, queueTail_spec]
    · refine ⟨_, rfl, ?_, rfl, rfl, ?_⟩
      · simp [Sender.stream, transportWrite, hempty]
      · simp [transportWrite, hempty]
    · simp only [transportWrite, List.length_drop]
      omega
  · rw [queueTail_spec p data room]
    exact ⟨_, rfl, by simp [Sender.stream], rfl, rfl, by simp⟩

theorem sendChunks_spec {env : Transport} (accepts : env.Accepting) (fuel : Nat) (p : Sender)
    (data : List UInt8) (active : p.mseActive = true) (enough : data.length ≤ fuel)
    (room : p.sbuf.length + data.length ≤ peerBufSize) :
    ∃ p', sendChunks env fuel p data = (true, p') ∧ Sent p p' data := by
  induction fuel generalizing p data with
  | zero =>
    have hnil : data = [] := List.length_eq_zero_iff.mp (by omega)
    subst hnil
    exact ⟨p, rfl, Sent.refl p⟩
  | succ fuel ih =>
    rw [sendChunks]
    by_cases hpos : data.length > 0
    · rw [if_pos hpos]
      have hsplit : (data.take encSize).length + (data.drop encSize).length = data.length := by
        rw [← List.length_append, List.take_append_drop]
      have hchunk : 0 < (data.take encSize).length := by
        rw [List.length_take]
        exact Nat.lt_min.mpr ⟨by decide, hpos⟩
      have hlen : (rc4Crypt p.sendRc4 (data.take encSize)).1.length =
          (data.take encSize).length := Keystream.crypt_length _ _ _
      obtain ⟨p1, hsend, hstream, hrc4, hmode, hroom⟩ := peerSendPlain_spec accepts
        { p with sendRc4 := (rc4Crypt p.sendRc4 (data.take encSize)).2 }
        (rc4Crypt p.sendRc4 (data.take encSize)).1 (by rw [hlen]; dsimp only; omega)
      have first : Sent p p1 (data.take encSize) := by
        refine ⟨?_, ?_, hmode, by rw [hlen] at hroom; exact hroom⟩
        · rw [hstream]
          simp [Sender.stream, encode, active]
        · rw [hrc4]
          simp [encode, active]
      simp only [hsend]
      have hroom1 := first.room
      obtain ⟨p2, hrest, second⟩ := ih p1 (data.drop encSize) (hmode.trans active)
        (by omega) (by omega)
      refine ⟨p2, hrest, ?_⟩
      have := first.append second
      rwa [List.take_append_drop] at this
    · rw [if_neg hpos]
      have hnil : data = [] := List.length_eq_zero_iff.mp (by omega)
      subst hnil
      exact ⟨p, rfl, Sent.refl p⟩

theorem peerSendRaw_spec {env : Transport} (accepts : env.Accepting) (p : Sender)
    (data : List UInt8) (room : p.sbuf.length + data.length ≤ peerBufSize) :
    ∃ p', peerSendRaw env p data = (true, p') ∧ Sent p p' data := by
  rw [peerSendRaw]
  split
  · next h =>
    obtain ⟨p', hsend, hstream, hrc4, hmode, hroom⟩ := peerSendPlain_spec accepts p data room
    refine ⟨p', hsend, ?_⟩
    rcases h with hplain | hnil
    · exact ⟨by simp [encode, hplain, hstream], by simp [encode, hplain, hrc4], hmode, hroom⟩
    · have hnil : data = [] := List.length_eq_zero_iff.mp hnil
      subst hnil
      exact ⟨by simp [encode_nil, hstream], by simp [encode_nil, hrc4], hmode, hroom⟩
  · next h =>
    push Not at h
    exact sendChunks_spec accepts data.length p data (by simpa using h.1) (Nat.le_refl _) room

theorem peerFlush_spec {env : Transport} (accepts : env.Accepting) (p : Sender) :
    ∃ p', peerFlush env p = (true, p') ∧ Sent p p' [] := by
  rw [peerFlush]
  split
  · exact ⟨p, rfl, Sent.refl p⟩
  · have hn := transportWrite_nonneg accepts p p.sbuf
    dsimp only
    rw [if_neg hn]
    refine ⟨_, rfl, ?_, ?_, rfl, ?_⟩
    · simp [Sender.stream, transportWrite, encode_nil]
    · simp [transportWrite, encode_nil]
    · simp

/-- The frame of one message. -/
def frame (payload : List UInt8) : List UInt8 := lengthPrefix payload.length ++ payload

/-- A message is sent whole or not at all. -/
theorem sendMsg_spec {env : Transport} (accepts : env.Accepting) (p : Sender)
    (fits : p.sbuf.length ≤ peerBufSize) (payload : List UInt8) :
    ∃ ok p', sendMsg env p payload = (ok, p') ∧
      Sent p p' (if ok then frame payload else []) ∧ p'.sbuf.length ≤ peerBufSize := by
  -- after a successful reservation the whole frame fits
  obtain ⟨ok, p1, hres, hsent, hfit, hroom⟩ : ∃ ok p1, reserve env p (4 + payload.length) =
      (ok, p1) ∧ Sent p p1 [] ∧ p1.sbuf.length ≤ peerBufSize ∧
      (ok = true → p1.sbuf.length + (4 + payload.length) ≤ peerBufSize) := by
    rw [reserve]
    split
    · obtain ⟨p1, hflush, hsent⟩ := peerFlush_spec accepts p
      have hlen := hsent.room
      simp only [hflush, Bool.true_and]
      refine ⟨_, p1, rfl, hsent, ?_, by simp⟩
      simp only [List.length_nil] at hlen
      omega
    · exact ⟨true, p, rfl, Sent.refl p, fits, fun _ => by omega⟩
  rw [sendMsg]
  simp only [hres]
  cases ok with
  | false => exact ⟨false, p1, rfl, by simpa using hsent, hfit⟩
  | true =>
    have hroom := hroom rfl
    have hhdr : (lengthPrefix payload.length).length = 4 := rfl
    obtain ⟨p2, hh, hsent2⟩ :=
      peerSendRaw_spec accepts p1 (lengthPrefix payload.length) (by omega)
    have hroom2 := hsent2.room
    simp only [hh, Bool.true_eq_false, if_false]
    by_cases hpos : payload.length > 0
    · rw [if_pos hpos]
      obtain ⟨p3, hp, hsent3⟩ := peerSendRaw_spec accepts p2 payload (by omega)
      have hroom3 := hsent3.room
      refine ⟨true, p3, hp, ?_, by omega⟩
      have := (hsent.append hsent2).append hsent3
      simpa [frame] using this
    · rw [if_neg hpos]
      have hnil : payload = [] := List.length_eq_zero_iff.mp (by omega)
      refine ⟨true, p2, rfl, ?_, by omega⟩
      have := hsent.append hsent2
      simpa [frame, hnil] using this

inductive Op where
  | sendMsg (payload : List UInt8)
  | flush

/-- Run the calls in order, collecting the frames of those `send_msg` calls that
returned 1. -/
def run (env : Transport) : List Op → Sender → Sender × List UInt8
  | [], p => (p, [])
  | .sendMsg payload :: rest, p =>
    let r := sendMsg env p payload
    let tail := run env rest r.2
    (tail.1, (if r.1 then frame payload else []) ++ tail.2)
  | .flush :: rest, p => run env rest (peerFlush env p).2

/-- Sending one more op keeps the account: `data` is what went out before it. -/
theorem run_step {env : Transport} (accepts : env.Accepting) (op : Op) (p : Sender)
    (fits : p.sbuf.length ≤ peerBufSize) :
    Sent p (run env [op] p).1 (run env [op] p).2 ∧
      (run env [op] p).1.sbuf.length ≤ peerBufSize := by
  cases op with
  | sendMsg payload =>
    obtain ⟨ok, p', hsend, hsent, hfit⟩ := sendMsg_spec accepts p fits payload
    simp only [run, hsend, List.append_nil]
    exact ⟨hsent, hfit⟩
  | flush =>
    obtain ⟨p', hflush, hsent⟩ := peerFlush_spec accepts p
    have hroom := hsent.room
    simp only [run, hflush]
    simp only [List.length_nil] at hroom
    exact ⟨hsent, by omega⟩

theorem run_cons (env : Transport) (op : Op) (rest : List Op) (p : Sender) :
    run env (op :: rest) p =
      ((run env rest (run env [op] p).1).1,
        (run env [op] p).2 ++ (run env rest (run env [op] p).1).2) := by
  cases op with
  | sendMsg payload => simp [run]
  | flush => simp [run]

theorem run_sent {env : Transport} (accepts : env.Accepting) (ops : List Op) (p : Sender)
    (fits : p.sbuf.length ≤ peerBufSize) :
    Sent p (run env ops p).1 (run env ops p).2 ∧
      (run env ops p).1.sbuf.length ≤ peerBufSize := by
  induction ops generalizing p with
  | nil => exact ⟨Sent.refl p, fits⟩
  | cons op rest ih =>
    obtain ⟨first, hfit⟩ := run_step accepts op p fits
    obtain ⟨second, hfit'⟩ := ih (run env [op] p).1 hfit
    rw [run_cons]
    exact ⟨first.append second, hfit'⟩

/-- The bytes the transport has taken followed by the queued ones are the complete
frames of the accepted messages in call order, under one contiguous keystream. -/
theorem run_framing (env : Transport) (accepts : env.Accepting) (p : Sender)
    (fits : p.sbuf.length ≤ peerBufSize) (ops : List Op) :
    (run env ops p).1.wire ++ (run env ops p).1.sbuf =
        p.wire ++ p.sbuf ++ (if p.mseActive then (rc4Crypt p.sendRc4 (run env ops p).2).1
          else (run env ops p).2) ∧
      (run env ops p).1.sendRc4 = (if p.mseActive then
          Keystream.advance rc4Step p.sendRc4 (run env ops p).2.length else p.sendRc4) ∧
      (run env ops p).1.sbuf.length ≤ peerBufSize := by
  obtain ⟨sent, hfit⟩ := run_sent accepts ops p fits
  refine ⟨?_, ?_, hfit⟩
  · have := sent.stream
    simp only [encode, Sender.stream] at this
    rw [this]
    split
    · rfl
    · rfl
  · rw [sent.state]
    simp only [encode]
    split
    · exact Keystream.crypt_state _ _ _
    · rfl

/-- A keep-alive and a choke over a transport that takes three bytes at a time. -/
theorem run_framing_short :
    (run (fun _ len => min 3 len) [.sendMsg [], .sendMsg [0], .flush]
      ⟨[], false, ⟨id, 0, 0⟩, [], 0⟩).1.wire ++
    (run (fun _ len => min 3 len) [.sendMsg [], .sendMsg [0], .flush]
      ⟨[], false, ⟨id, 0, 0⟩, [], 0⟩).1.sbuf = [0, 0, 0, 0, 0, 0, 0, 1, 0] :=
  (run_framing (fun _ len => min 3 len) (by intro k len; dsimp only; omega)
    ⟨[], false, ⟨id, 0, 0⟩, [], 0⟩ (by decide) [.sendMsg [], .sendMsg [0], .flush]).1.trans
    (by decide)

end PeerSend
