import Pipensx.PeerSend

/-!
# The encryption handshake

The initiator of `core/mse.c`: key derivation, `mse_client_start` and `mse_client_feed`. The
modular exponentiation of the bignum library and SHA-1 are parameters. A buffer with its
fill is the list of the bytes in it.
-/

namespace Mse

open PeerSend

/-- `MSE_DH_LEN`. -/
def mseDhLen : Nat := 96

/-- `MSE_VC_LEN`. -/
def mseVcLen : Nat := 8

/-- `MSE_MAX_PAD`. -/
def mseMaxPad : Nat := 512

/-- `MSE_MAX_IA`. -/
def mseMaxIa : Nat := 68

/-- `dh_modexp`, by base and exponent, and SHA-1. -/
structure Crypto where
  dhModexp : List UInt8 → List UInt8 → List UInt8
  sha1 : List UInt8 → List UInt8

/-- The swap of two entries of the permutation. -/
def swap (s : UInt8 → UInt8) (i j : UInt8) : UInt8 → UInt8 := fun n =>
  if n = j then s i else if n = i then s j else s n

/-- One round of the loop of `rc4_init`. -/
def rc4InitRound (key : List UInt8) (r : (UInt8 → UInt8) × UInt8) (n : Nat) :
    (UInt8 → UInt8) × UInt8 :=
  let j := r.2 + r.1 (UInt8.ofNat n) + key.getD (n % key.length) 0
  (swap r.1 (UInt8.ofNat n) j, j)

def rc4Init (key : List UInt8) : Rc4 :=
  if key.length = 0 then ⟨id, 0, 0⟩
  else ⟨((List.range 256).foldl (rc4InitRound key) (id, 0)).1, 0, 0⟩

def rc4Discard (rc4 : Rc4) (n : Nat) : Rc4 := Keystream.advance rc4Step rc4 n

/-- `"keyA"`. -/
def keyA : List UInt8 := [107, 101, 121, 65]

/-- `"keyB"`. -/
def keyB : List UInt8 := [107, 101, 121, 66]

/-- `"req1"`, `"req2"` and `"req3"`. -/
def reqTag (n : UInt8) : List UInt8 := [114, 101, 113, 48 + n]

def mseDhPublic (k : Crypto) (priv : List UInt8) : List UInt8 := k.dhModexp [2] priv

def mseDhSecret (k : Crypto) (priv peerPub : List UInt8) : List UInt8 := k.dhModexp peerPub priv

def mseStreamKey (k : Crypto) (label secret infoHash : List UInt8) : Rc4 :=
  rc4Discard (rc4Init (k.sha1 (label ++ secret ++ infoHash))) 1024

def reqHash (k : Crypto) (tag data : List UInt8) : List UInt8 := k.sha1 (tag ++ data)

inductive State where
  | readPub
  | syncVc
  | readSelect
  | readPadd
  | done
  | fail
  deriving DecidableEq, Repr

/-- `mse_status_t`. -/
inductive Status where
  | more
  | done
  | fail
  deriving DecidableEq, Repr

/-- `mse_client_t`; `selectBuf` holds the `select_have` bytes that were read. -/
structure Client where
  state : State
  priv : List UInt8
  infoHash : List UInt8
  ia : List UInt8
  sendRc4 : Rc4
  recvRc4 : Rc4
  vcExpect : List UInt8
  skipped : Nat
  selectBuf : List UInt8
  paddRemaining : Nat

/-- What `mse_client_start` leaves after its `memset` and its copies. -/
def Client.fresh (infoHash priv ia : List UInt8) : Client where
  state := .readPub
  priv := priv
  infoHash := infoHash
  ia := ia
  sendRc4 := ⟨fun _ => 0, 0, 0⟩
  recvRc4 := ⟨fun _ => 0, 0, 0⟩
  vcExpect := List.replicate mseVcLen 0
  skipped := 0
  selectBuf := []
  paddRemaining := 0

/-- `mse_client_start`, with the bytes to send. -/
def mseClientStart (k : Crypto) (c : Client) (infoHash priv pad ia : List UInt8) (outCap : Nat) :
    Client × Status × List UInt8 :=
  if ia.length > mseMaxIa ∨ pad.length > mseMaxPad then (c, .fail, [])
  else if outCap < mseDhLen + pad.length then (.fresh infoHash priv ia, .fail, [])
  else (.fresh infoHash priv ia, .more, mseDhPublic k priv ++ pad)

/-- `VC | crypto_provide | len(padC) | len(IA) | IA`. -/
def requestPlain (ia : List UInt8) : List UInt8 :=
  List.replicate mseVcLen 0 ++ [0, 0, 0, 2] ++ [0, 0] ++
    [UInt8.ofNat (ia.length / 2 ^ 8), UInt8.ofNat ia.length] ++ ia

/-- `emit_request`; `none` is `MSE_FAIL`, which leaves the client alone. -/
def emitRequest (k : Crypto) (c : Client) (secret : List UInt8) (outCap : Nat) :
    Option (Client × List UInt8) :=
  let plain := requestPlain c.ia
  if outCap < 40 + plain.length then none
  else
    let enc := rc4Crypt c.sendRc4 plain
    some ({ c with sendRc4 := enc.2 },
      reqHash k (reqTag 1) secret ++
        List.zipWith (· ^^^ ·) (reqHash k (reqTag 2) c.infoHash)
          (reqHash k (reqTag 3) secret) ++ enc.1)

/-- The client with its two streams, and the encrypted VC to scan for. -/
def Client.withKeys (c : Client) (send recv : Rc4) : Client :=
  { c with
    sendRc4 := send
    recvRc4 := recv
    vcExpect := (rc4Crypt recv (List.replicate mseVcLen 0)).1 }

def Client.keyed (k : Crypto) (c : Client) (secret : List UInt8) : Client :=
  c.withKeys (mseStreamKey k keyA secret c.infoHash) (mseStreamKey k keyB secret c.infoHash)

/-- What `mse_client_feed` returns: the client, the status, `*consumed` and the bytes of
`out`. -/
structure Feed where
  client : Client
  status : Status
  consumed : Nat
  produced : List UInt8

/-- A later part of the same call, after `used` bytes and with `out` in the buffer. -/
def Feed.after (f : Feed) (used : Nat) (out : List UInt8) : Feed :=
  { f with consumed := used + f.consumed, produced := out ++ f.produced }

def Client.failed (c : Client) : Client := { c with state := .fail }

/-- One byte of `padD` is decrypted and dropped. -/
def Client.paddByte (c : Client) : Client :=
  { c with recvRc4 := rc4Discard c.recvRc4 1, paddRemaining := c.paddRemaining - 1 }

/-- The loop of `ST_READ_PADD`, with the number of bytes it uses. -/
def paddLoop : Client → List UInt8 → Client × Nat
  | c, [] => (c, 0)
  | c, _ :: rest =>
    if c.paddRemaining > 0 then
      let r := paddLoop c.paddByte rest
      (r.1, r.2 + 1)
    else (c, 0)

def feedPadd (c : Client) (input : List UInt8) : Feed :=
  let r := paddLoop c input
  if r.1.paddRemaining > 0 then ⟨r.1, .more, r.2, []⟩
  else ⟨{ r.1 with state := .done }, .done, r.2, []⟩

/-- One byte of `crypto_select` and `len(padD)`. -/
def Client.selectByte (c : Client) (b : UInt8) : Client :=
  let r := rc4Crypt c.recvRc4 [b]
  { c with recvRc4 := r.2, selectBuf := c.selectBuf ++ r.1 }

/-- The loop of `ST_READ_SELECT`, with the number of bytes it uses. -/
def selectLoop : Client → List UInt8 → Client × Nat
  | c, [] => (c, 0)
  | c, b :: rest =>
    if c.selectBuf.length < 6 then
      let r := selectLoop (c.selectByte b) rest
      (r.1, r.2 + 1)
    else (c, 0)

/-- `crypto_select`. -/
def cryptoSelect (selectBuf : List UInt8) : Nat :=
  (selectBuf.getD 0 0).toNat * 2 ^ 24 + (selectBuf.getD 1 0).toNat * 2 ^ 16 +
    (selectBuf.getD 2 0).toNat * 2 ^ 8 + (selectBuf.getD 3 0).toNat

/-- `select & MSE_CRYPTO_RC4`. -/
def selectedRc4 (selectBuf : List UInt8) : Bool := cryptoSelect selectBuf &&& 2 != 0

def selectedPadd (selectBuf : List UInt8) : Nat :=
  (selectBuf.getD 4 0).toNat * 2 ^ 8 + (selectBuf.getD 5 0).toNat

/-- The six bytes are refused: no RC4, or too much padding. -/
def selectRefused (selectBuf : List UInt8) : Bool :=
  !selectedRc4 selectBuf || decide (selectedPadd selectBuf > mseMaxPad)

/-- The six bytes are accepted. -/
def Client.selected (c : Client) : Client :=
  { c with paddRemaining := selectedPadd c.selectBuf, state := .readPadd }

def feedSelect (c : Client) (input : List UInt8) : Feed :=
  let r := selectLoop c input
  if r.1.selectBuf.length < 6 then ⟨r.1, .more, r.2, []⟩
  else if selectRefused r.1.selectBuf then ⟨r.1.failed, .fail, r.2, []⟩
  else (feedPadd r.1.selected (input.drop r.2)).after r.2 []

/-- The scan: the first place where the encrypted VC is. -/
def findVc (vc : List UInt8) : List UInt8 → Option Nat
  | [] => none
  | b :: rest =>
    if (b :: rest).length < mseVcLen then none
    else if (b :: rest).take mseVcLen = vc then some 0
    else (findVc vc rest).map (· + 1)

/-- `c->skipped += (uint32_t)n`. -/
def Client.skip (c : Client) (n : Nat) : Client :=
  { c with skipped := (c.skipped + n % 2 ^ 32) % 2 ^ 32 }

/-- The VC is read: its keystream is used up. -/
def Client.synced (c : Client) : Client :=
  { c with recvRc4 := rc4Discard c.recvRc4 mseVcLen, state := .readSelect, selectBuf := [] }

def feedSync (c : Client) (input : List UInt8) : Feed :=
  match findVc c.vcExpect input with
  | some n => (feedSelect (c.skip n).synced (input.drop (n + mseVcLen))).after (n + mseVcLen) []
  | none =>
    -- everything but the last 7 bytes cannot start the VC
    let n := input.length - (mseVcLen - 1)
    let c1 := c.skip n
    if c1.skipped > mseMaxPad + mseDhLen then ⟨c1.failed, .fail, n, []⟩
    else ⟨c1, .more, n, []⟩

/-- The request is out, and the scan begins. -/
def Client.requested (c : Client) : Client := { c with state := .syncVc, skipped := 0 }

def mseClientFeed (k : Crypto) (outCap : Nat) (c : Client) (input : List UInt8) : Feed :=
  match c.state with
  | .readPub =>
    if input.length < mseDhLen then ⟨c, .more, 0, []⟩
    else
      let secret := mseDhSecret k c.priv (input.take mseDhLen)
      let c1 := c.keyed k secret
      match emitRequest k c1 secret outCap with
      | none => ⟨c1.failed, .fail, mseDhLen, []⟩
      | some (c2, request) => (feedSync c2.requested (input.drop mseDhLen)).after mseDhLen request
  | .syncVc => feedSync c input
  | .readSelect => feedSelect c input
  | .readPadd => feedPadd c input
  | .done => ⟨c, .done, 0, []⟩
  | .fail => ⟨c, .fail, 0, []⟩

theorem withKeys_frame (c : Client) (send recv : Rc4) :
    (c.withKeys send recv).ia = c.ia ∧ (c.withKeys send recv).infoHash = c.infoHash ∧
      (c.withKeys send recv).skipped = c.skipped := ⟨rfl, rfl, rfl⟩

@[simp] theorem keyed_ia (k : Crypto) (c : Client) (secret : List UInt8) :
    (c.keyed k secret).ia = c.ia :=
  (withKeys_frame c _ _).1

@[simp] theorem keyed_infoHash (k : Crypto) (c : Client) (secret : List UInt8) :
    (c.keyed k secret).infoHash = c.infoHash :=
  (withKeys_frame c _ _).2.1

@[simp] theorem keyed_skipped (k : Crypto) (c : Client) (secret : List UInt8) :
    (c.keyed k secret).skipped = c.skipped :=
  (withKeys_frame c _ _).2.2

/-- A client that has been fed for a while: its last status, the bytes it has not consumed,
how many it has, and all it has produced. -/
structure Fed where
  client : Client
  status : Status
  pending : List UInt8
  consumed : Nat
  produced : List UInt8

/-- One more call; unconsumed bytes are presented again in front of the new ones. -/
def feedChunk (k : Crypto) (outCap : Nat) (f : Fed) (chunk : List UInt8) : Fed :=
  let r := mseClientFeed k outCap f.client (f.pending ++ chunk)
  ⟨r.client, r.status, (f.pending ++ chunk).drop r.consumed, f.consumed + r.consumed,
    f.produced ++ r.produced⟩

def feedChunks (k : Crypto) (outCap : Nat) (c : Client) (chunks : List (List UInt8)) : Fed :=
  chunks.foldl (feedChunk k outCap) ⟨c, .more, [], 0, []⟩

end Mse
