import Pipensx.KeyAgreement
import Pipensx.MseLimit

/-!
# Agreement with the responder

A responder as the protocol specifies it, and the client of `core/mse.c`: whatever the
paddings and however the bytes of the responder are cut, both end up with the same two
streams at the same places.
-/

namespace Mse

open PeerSend StreamReader KeyAgreement

/-- `MSE_PRIME`. -/
def msePrime : List UInt8 := [
  0xFF, 0xFF, 0xFF, 0xFF, 0xFF, 0xFF, 0xFF, 0xFF, 0xC9, 0x0F, 0xDA, 0xA2,
  0x21, 0x68, 0xC2, 0x34, 0xC4, 0xC6, 0x62, 0x8B, 0x80, 0xDC, 0x1C, 0xD1,
  0x29, 0x02, 0x4E, 0x08, 0x8A, 0x67, 0xCC, 0x74, 0x02, 0x0B, 0xBE, 0xA6,
  0x3B, 0x13, 0x9B, 0x22, 0x51, 0x4A, 0x08, 0x79, 0x8E, 0x34, 0x04, 0xDD,
  0xEF, 0x95, 0x19, 0xB3, 0xCD, 0x3A, 0x43, 0x1B, 0x30, 0x2B, 0x0A, 0x6D,
  0xF2, 0x5F, 0x14, 0x37, 0x4F, 0xE1, 0x35, 0x6D, 0x6D, 0x51, 0xC2, 0x45,
  0xE4, 0x85, 0xB5, 0x76, 0x62, 0x5E, 0x7E, 0xC6, 0xF4, 0x4C, 0x42, 0xE9,
  0xA6, 0x3A, 0x36, 0x21, 0x00, 0x00, 0x00, 0x00, 0x00, 0x09, 0x05, 0x63]

/-- What `dh_modexp` asks of the bignum library: the power modulo the prime, padded to the
length of the prime. -/
def Crypto.Modexp (k : Crypto) : Prop :=
  ∀ base exp, k.dhModexp base exp = toBytes mseDhLen (ofBytes base ^ ofBytes exp % ofBytes msePrime)

def word16 (n : Nat) : List UInt8 := [UInt8.ofNat (n / 2 ^ 8), UInt8.ofNat n]

/-- What a responder chooses: its exponent, the torrent, the paddings and a `crypto_select`
with RC4 in it. -/
structure Responder where
  priv : List UInt8
  skey : List UInt8
  padB : List UInt8
  cryptoSelect : List UInt8
  padD : List UInt8
  padB_le : padB.length ≤ 512
  padD_le : padD.length ≤ 512
  select_length : cryptoSelect.length = 4
  select_rc4 : ofBytes cryptoSelect &&& 2 ≠ 0

namespace Responder

variable (k : Crypto) (r : Responder) (pubA : List UInt8)

/-- `Yb`. -/
def pub : List UInt8 := k.dhModexp [2] r.priv

/-- `S`, from the key of the initiator. -/
def secret : List UInt8 := k.dhModexp pubA r.priv

/-- RC4 with the key `HASH(label, S, SKEY)`, its first 1024 bytes discarded. -/
def stream (label : List UInt8) : Rc4 :=
  rc4Discard (rc4Init (k.sha1 (label ++ r.secret k pubA ++ r.skey))) 1024

/-- `VC | crypto_select | len(padD) | padD`. -/
def reply : List UInt8 := List.replicate 8 0 ++ r.cryptoSelect ++ word16 r.padD.length ++ r.padD

/-- All the responder sends before its payload. -/
def handshake : List UInt8 := r.pub k ++ r.padB ++ (rc4Crypt (r.stream k pubA keyB) r.reply).1

/-- Its sending stream after that. -/
def sendRc4 : Rc4 := (rc4Crypt (r.stream k pubA keyB) r.reply).2

def encryptedVc : List UInt8 := (rc4Crypt (r.stream k pubA keyB) (List.replicate 8 0)).1

/-- The encrypted VC does not occur before its place. -/
def Unambiguous : Prop :=
  ∀ n, n < r.padB.length → ((r.padB ++ r.encryptedVc k pubA).drop n).take 8 ≠ r.encryptedVc k pubA

end Responder

theorem secret_agrees {k : Crypto} (modexp : k.Modexp) (priv : List UInt8) (r : Responder) :
    mseDhSecret k priv (r.pub k) = r.secret k (mseDhPublic k priv) := by
  have hpositive : 0 < ofBytes msePrime := by decide +kernel
  have hlength : mseDhLen = msePrime.length := rfl
  simp only [mseDhSecret, mseDhPublic, Responder.pub, Responder.secret, modexp _ _, hlength,
    ofBytes_mod msePrime hpositive, pow_agree]

section Reading

variable {c : Client} {input : List UInt8}

theorem paddLoop_eq (c : Client) (input : List UInt8) :
    paddLoop c input = ({ c with
        recvRc4 := rc4Discard c.recvRc4 (min c.paddRemaining input.length)
        paddRemaining := c.paddRemaining - min c.paddRemaining input.length },
      min c.paddRemaining input.length) := by
  induction input generalizing c with
  | nil => simp [paddLoop, rc4Discard, Keystream.advance]
  | cons b rest ih =>
    by_cases hmore : c.paddRemaining > 0
    · obtain ⟨n, hn⟩ : ∃ n, c.paddRemaining = n + 1 := ⟨c.paddRemaining - 1, by omega⟩
      have hmin : min (n + 1) (rest.length + 1) = min n rest.length + 1 := by omega
      simp only [paddLoop, ih, Client.paddByte, hn, List.length_cons, hmin, Nat.add_sub_cancel]
      have hsub : n + 1 - (min n rest.length + 1) = n - min n rest.length := by omega
      rw [hsub]
      rfl
    · have hzero : c.paddRemaining = 0 := by omega
      simp [paddLoop, hzero, rc4Discard, Keystream.advance]
      rw [← hzero]

/-- Six accepted bytes and the padding they announce end the handshake. -/
theorem feedSelect_done (h : c.selectBuf = []) {six pad : List UInt8} (data : List UInt8)
    (length : six.length = 6) (accepted : selectRefused (rc4Crypt c.recvRc4 six).1 = false)
    (padding : selectedPadd (rc4Crypt c.recvRc4 six).1 = pad.length) :
    (feedSelect c (six ++ (pad ++ data))).status = .done ∧
      (feedSelect c (six ++ (pad ++ data))).consumed = 6 + pad.length ∧
      (feedSelect c (six ++ (pad ++ data))).client.sendRc4 = c.sendRc4 ∧
      (feedSelect c (six ++ (pad ++ data))).client.recvRc4 =
        rc4Discard c.recvRc4 (6 + pad.length) := by
  have htake : (six ++ (pad ++ data)).take 6 = six := List.take_left' length
  have hdrop : (six ++ (pad ++ data)).drop 6 = pad ++ data := List.drop_left' length
  have hmin : min 6 (six ++ (pad ++ data)).length = 6 := by
    rw [List.length_append]
    omega
  have hloop := selectLoop_eq (c := c) (six ++ (pad ++ data)) (by simp [h])
  rw [h, List.length_nil, Nat.sub_zero, htake, hmin] at hloop
  have hbuf : (c.selectBytes six).selectBuf = (rc4Crypt c.recvRc4 six).1 := by
    simp [Client.selectBytes, h]
  have hfull : ¬ (rc4Crypt c.recvRc4 six).1.length < 6 := by
    simp [rc4Crypt, length]
  have hpad : (c.selectBytes six).selected.paddRemaining = pad.length := by
    simp [Client.selected, hbuf, padding]
  have hfit : min pad.length (pad ++ data).length = pad.length := by
    rw [List.length_append]
    omega
  have hstate : (rc4Crypt c.recvRc4 six).2 = rc4Discard c.recvRc4 6 := by
    have hcrypt := Keystream.crypt_state rc4Step c.recvRc4 six
    rwa [length] at hcrypt
  simp only [feedSelect, hloop, hbuf, hfull, if_false, accepted, hdrop, Bool.false_eq_true]
  simp only [feedPadd, paddLoop_eq, hpad, hfit, Nat.sub_self, Feed.after]
  refine ⟨rfl, rfl, rfl, ?_⟩
  rw [if_neg (by omega)]
  simp only [Client.selected, Client.selectBytes, hstate]
  exact Keystream.advance_add rc4Step c.recvRc4 6 pad.length

theorem findVc_first {vc s : List UInt8} {n : Nat} (fits : n + mseVcLen ≤ s.length)
    (found : (s.drop n).take mseVcLen = vc) (first : ∀ m, m < n → (s.drop m).take mseVcLen ≠ vc) :
    findVc vc s = some n := by
  induction n generalizing s with
  | zero =>
    cases s with
    | nil =>
      simp only [List.length_nil, mseVcLen] at fits
      omega
    | cons b rest =>
      have hlong : ¬ (b :: rest).length < mseVcLen := by omega
      rw [List.drop_zero] at found
      simp only [findVc, hlong, found, if_true, if_false]
  | succ n ih =>
    cases s with
    | nil =>
      simp only [List.length_nil] at fits
      omega
    | cons b rest =>
      have hlong : ¬ (b :: rest).length < mseVcLen := by omega
      have hmissed := first 0 (Nat.zero_lt_succ n)
      rw [List.drop_zero] at hmissed
      have hrest : findVc vc rest = some n := by
        refine ih ?_ ?_ ?_
        · rw [List.length_cons] at fits
          omega
        · rwa [List.drop_succ_cons] at found
        · intro m hm
          have hlater := first (m + 1) (by omega)
          rwa [List.drop_succ_cons] at hlater
      simp only [findVc, hlong, hmissed, if_false, hrest, Option.map_some]

end Reading

section Reply

theorem select_accepted (r : Responder) :
    selectRefused (r.cryptoSelect ++ word16 r.padD.length) = false ∧
      selectedPadd (r.cryptoSelect ++ word16 r.padD.length) = r.padD.length := by
  have hlength := r.select_length
  have hrc4 := r.select_rc4
  have hpad := r.padD_le
  generalize r.cryptoSelect = select at hlength hrc4
  generalize r.padD.length = n at hpad
  obtain ⟨a, b, c, d, rfl⟩ : ∃ a b c d, select = [a, b, c, d] := by
    match select, hlength with
    | [a, b, c, d], _ => exact ⟨a, b, c, d, rfl⟩
  have hpadd : selectedPadd ([a, b, c, d] ++ word16 n) = n := by
    have hhigh : (UInt8.ofNat (n / 2 ^ 8)).toNat = n / 2 ^ 8 % 2 ^ 8 := UInt8.toNat_ofNat'
    have hlow : (UInt8.ofNat n).toNat = n % 2 ^ 8 := UInt8.toNat_ofNat'
    simp only [selectedPadd, word16, List.cons_append, List.nil_append, List.getD_cons_succ,
      List.getD_cons_zero, hhigh, hlow]
    omega
  have hselect : Mse.cryptoSelect ([a, b, c, d] ++ word16 n) = ofBytes [a, b, c, d] := by
    simp only [cryptoSelect, ofBytes, List.cons_append, List.nil_append, List.getD_cons_succ,
      List.getD_cons_zero, List.foldl_cons, List.foldl_nil]
    omega
  refine ⟨?_, hpadd⟩
  simp only [selectRefused, selectedRc4, hselect, hpadd, Bool.or_eq_false_iff, Bool.not_eq_false',
    bne_iff_ne, decide_eq_false_iff_not]
  exact ⟨hrc4, by simpa [mseMaxPad] using hpad⟩

theorem synced_frame (c : Client) (n : Nat) :
    (c.skip n).synced.selectBuf = [] ∧ (c.skip n).synced.recvRc4 = rc4Discard c.recvRc4 8 ∧
      (c.skip n).synced.sendRc4 = c.sendRc4 := by
  simp only [Client.synced, Client.skip, mseVcLen, and_self]

/-- The reply in its three parts: the VC, the six bytes, and the padding. -/
theorem reply_parts (rc4 : Rc4) (r : Responder) : ∃ six pad,
    (rc4Crypt rc4 r.reply).1 = (rc4Crypt rc4 (List.replicate 8 0)).1 ++ (six ++ pad) ∧
      six.length = 6 ∧ pad.length = r.padD.length ∧
      (rc4Crypt (rc4Discard rc4 8) six).1 = r.cryptoSelect ++ word16 r.padD.length ∧
      (rc4Crypt rc4 r.reply).2 = rc4Discard (rc4Discard rc4 8) (6 + r.padD.length) := by
  have hreply : r.reply = List.replicate 8 0 ++
    ((r.cryptoSelect ++ word16 r.padD.length) ++ r.padD) := by
    simp [Responder.reply, List.append_assoc]
  have hsix : (r.cryptoSelect ++ word16 r.padD.length).length = 6 := by
    simp [r.select_length, word16]
  have hvc : (rc4Crypt rc4 (List.replicate 8 0)).2 = rc4Discard rc4 8 := by
    have hcrypt := Keystream.crypt_state rc4Step rc4 (List.replicate 8 0)
    rwa [List.length_replicate] at hcrypt
  have hlength : r.reply.length = 8 + (6 + r.padD.length) := by
    rw [hreply, List.length_append, List.length_append, hsix, List.length_replicate]
  have hfirst := Keystream.crypt_append rc4Step rc4 (List.replicate 8 0)
    ((r.cryptoSelect ++ word16 r.padD.length) ++ r.padD)
  have hsecond := Keystream.crypt_append rc4Step (rc4Discard rc4 8)
    (r.cryptoSelect ++ word16 r.padD.length) r.padD
  have htwice := Keystream.crypt_crypt rc4Step (rc4Discard rc4 8)
    (r.cryptoSelect ++ word16 r.padD.length)
  refine ⟨(rc4Crypt (rc4Discard rc4 8) (r.cryptoSelect ++ word16 r.padD.length)).1,
    (rc4Crypt (rc4Crypt (rc4Discard rc4 8) (r.cryptoSelect ++ word16 r.padD.length)).2 r.padD).1,
      ?_, ?_, ?_, ?_, ?_⟩
  · rw [hreply]
    simp only [rc4Crypt] at hvc ⊢
    rw [hfirst, hvc, hsecond]
  · simp [rc4Crypt, hsix]
  · simp [rc4Crypt]
  · exact congrArg Prod.fst htwice
  · have hstate := Keystream.crypt_state rc4Step rc4 r.reply
    rw [hlength, ← Keystream.advance_add] at hstate
    exact hstate

/-- The scan for a VC that does not occur before its place, and what follows it. -/
theorem drain_reply (k : Crypto) (outCap : Nat) {c : Client} (r : Responder)
    (hstate : c.state = .syncVc) (sound : Sound c)
    (vc : c.vcExpect = (rc4Crypt c.recvRc4 (List.replicate 8 0)).1)
    (unambiguous : ∀ n, n < r.padB.length → ((r.padB ++ c.vcExpect).drop n).take 8 ≠ c.vcExpect)
    (data : List UInt8) :
    let input := r.padB ++ ((rc4Crypt c.recvRc4 r.reply).1 ++ data)
    let s := drain (read k outCap) c input
    findVc c.vcExpect input = some r.padB.length ∧
      s.state.state = .done ∧ s.rest = data ∧ s.out = [] ∧ s.state.sendRc4 = c.sendRc4 ∧
      s.state.recvRc4 = (rc4Crypt c.recvRc4 r.reply).2 := by
  obtain ⟨six, pad, hparts, hsix, hpad, hplain, hend⟩ := reply_parts c.recvRc4 r
  obtain ⟨haccepted, hpadd⟩ := select_accepted r
  have hvcLength : c.vcExpect.length = 8 := by
    rw [vc]
    simp [rc4Crypt]
  have hinput : r.padB ++ ((rc4Crypt c.recvRc4 r.reply).1 ++ data) =
      r.padB ++ (c.vcExpect ++ (six ++ (pad ++ data))) := by
    rw [hparts, ← vc]
    simp only [List.append_assoc]
  have hfind : findVc c.vcExpect (r.padB ++ (c.vcExpect ++ (six ++ (pad ++ data)))) =
    some r.padB.length := by
    refine findVc_first ?_ ?_ ?_
    · simp only [List.length_append, hvcLength, mseVcLen]
      omega
    · rw [List.drop_left' rfl]
      exact List.take_left' hvcLength
    · intro n hn
      have hwindow : ((r.padB ++ (c.vcExpect ++ (six ++ (pad ++ data)))).drop n).take mseVcLen =
          ((r.padB ++ c.vcExpect).drop n).take 8 := by
        rw [← List.append_assoc, List.drop_append_of_le_length, List.take_append_of_le_length]
        · rfl
        · simp only [List.length_drop, List.length_append, hvcLength, mseVcLen]
          omega
        · simp only [List.length_append]
          omega
      rw [hwindow]
      exact unambiguous n hn
  have hrest : (r.padB ++ (c.vcExpect ++ (six ++ (pad ++ data)))).drop (r.padB.length + mseVcLen) =
      six ++ (pad ++ data) := by
    rw [← List.append_assoc]
    refine List.drop_left' ?_
    simp [hvcLength, mseVcLen]
  obtain ⟨hnone, hrecv, hsend⟩ := synced_frame c r.padB.length
  have hpadding : selectedPadd (rc4Crypt (c.skip r.padB.length).synced.recvRc4 six).1 =
    pad.length := by
    rw [hrecv, hplain, hpadd, hpad]
  have hdone := feedSelect_done hnone data hsix (by rw [hrecv, hplain]; exact haccepted) hpadding
  have hselect := feedSelect_eq k outCap (six ++ (pad ++ data))
    (c := (c.skip r.padB.length).synced) rfl (by rw [hnone]; decide)
  have hpast := drain_past k outCap _ (six ++ (pad ++ data)) (synced_past (c.skip r.padB.length))
  have hsuffix := drain_rest (read_incremental k outCap) (c.skip r.padB.length).synced
    (six ++ (pad ++ data))
  rw [hselect, hsend, hrecv] at hdone
  obtain ⟨hstatus, hconsumed, hsame, hstream⟩ := hdone
  dsimp only
  rw [hinput, drain_found k outCap hstate sound.skipped hfind, hrest]
  refine ⟨hfind, ?_, ?_, hpast.2, hsame, ?_⟩
  · simp only [ofResult, statusOf] at hstatus
    split at hstatus
    · assumption
    · cases hstatus
    · cases hstatus
  · have hdrop := List.suffix_iff_eq_drop.mp hsuffix
    simp only [ofResult] at hconsumed
    rw [hconsumed] at hdrop
    rw [hdrop, ← List.append_assoc]
    exact List.drop_left' (by rw [List.length_append, hsix])
  · rw [hend]
    simpa only [ofResult, hpad] using hstream

end Reply

/-- The client and the responder have the same streams at the same places: the client has
consumed the handshake and nothing else, it reads what the responder sends from there on,
and the responder reads the request and all the client sends after it. -/
structure Agreement (k : Crypto) (r : Responder) (pubA ia data : List UInt8) (f : Fed) : Prop where
  done : f.status = .done
  consumed : f.consumed = (r.handshake k pubA).length
  pending : f.pending = (rc4Crypt (r.sendRc4 k pubA) data).1
  received : ∀ sent, (rc4Crypt f.client.recvRc4 (rc4Crypt (r.sendRc4 k pubA) sent).1).1 = sent
  request : ∃ enc, f.produced = k.sha1 (reqTag 1 ++ r.secret k pubA) ++
      List.zipWith (· ^^^ ·) (k.sha1 (reqTag 2 ++ r.skey))
      (k.sha1 (reqTag 3 ++ r.secret k pubA)) ++ enc ∧
    ∀ sent, (rc4Crypt (r.stream k pubA keyA) (enc ++ (rc4Crypt f.client.sendRc4 sent).1)).1 =
      List.replicate 8 0 ++ [0, 0, 0, 2] ++ word16 0 ++ word16 ia.length ++ ia ++ sent

section Handshake

variable {k : Crypto} {outCap : Nat} {c : Client} {r : Responder} {data : List UInt8}

theorem emitted_send (c : Client) :
    c.emitted.sendRc4 = (rc4Crypt c.sendRc4 (requestPlain c.ia)).2 := by
  simp only [Client.emitted]

theorem withKeys_send (c : Client) (send recv : Rc4) : (c.withKeys send recv).sendRc4 = send := rfl

theorem withKeys_emitted (c : Client) (send recv : Rc4) :
    (c.withKeys send recv).emitted.recvRc4 = recv ∧
      (c.withKeys send recv).emitted.sendRc4 = (rc4Crypt send (requestPlain c.ia)).2 ∧
      (c.withKeys send recv).emitted.vcExpect = (rc4Crypt recv (List.replicate mseVcLen 0)).1 := by
  refine ⟨rfl, ?_, rfl⟩
  rw [emitted_send, withKeys_send, (withKeys_frame c send recv).1]

theorem scanning_frame {secret stream : List UInt8}
    (h : mseDhSecret k c.priv (stream.take mseDhLen) = secret) :
    (c.scanning k stream).recvRc4 = mseStreamKey k keyB secret c.infoHash ∧
      (c.scanning k stream).sendRc4 =
      (rc4Crypt (mseStreamKey k keyA secret c.infoHash) (requestPlain c.ia)).2 ∧
      (c.scanning k stream).vcExpect =
        (rc4Crypt (mseStreamKey k keyB secret c.infoHash) (List.replicate mseVcLen 0)).1 := by
  rw [Client.scanning, h, Client.keyed]
  exact withKeys_emitted c _ _

theorem withKeys_request (c : Client) (send recv : Rc4) (secret : List UInt8) :
    (c.withKeys send recv).request k secret = k.sha1 (reqTag 1 ++ secret) ++
      List.zipWith (· ^^^ ·) (k.sha1 (reqTag 2 ++ c.infoHash)) (k.sha1 (reqTag 3 ++ secret)) ++
      (rc4Crypt send (requestPlain c.ia)).1 := by
  obtain ⟨hia, hhash, _⟩ := withKeys_frame c send recv
  rw [Client.request, withKeys_send, hia, hhash, reqHash, reqHash, reqHash]

theorem firstRequest_eq {secret stream : List UInt8}
    (h : mseDhSecret k c.priv (stream.take mseDhLen) = secret) :
    c.firstRequest k stream = k.sha1 (reqTag 1 ++ secret) ++
      List.zipWith (· ^^^ ·) (k.sha1 (reqTag 2 ++ c.infoHash)) (k.sha1 (reqTag 3 ++ secret)) ++
      (rc4Crypt (mseStreamKey k keyA secret c.infoHash) (requestPlain c.ia)).1 := by
  simp only [Client.firstRequest, h, Client.keyed]
  exact withKeys_request c _ _ secret

/-- What the client is left with after the handshake of the responder and some data. -/
theorem drain_handshake (modexp : k.Modexp) (started : c.state = .readPub)
    (skey : r.skey = c.infoHash) (unambiguous : r.Unambiguous k (mseDhPublic k c.priv))
    (room : 40 + (requestPlain c.ia).length ≤ outCap)
    {stream : List UInt8}
    (sent : stream = r.handshake k (mseDhPublic k c.priv) ++ data) :
    let pubA := mseDhPublic k c.priv
    let s := drain (read k outCap) c stream
    Scans outCap c stream ∧
      findVc (c.encryptedVc k stream) (stream.drop mseDhLen) = some r.padB.length ∧
      s.state.state = .done ∧ s.rest = data ∧
      s.out = k.sha1 (reqTag 1 ++ r.secret k pubA) ++
        List.zipWith (· ^^^ ·) (k.sha1 (reqTag 2 ++ r.skey))
        (k.sha1 (reqTag 3 ++ r.secret k pubA)) ++
        (rc4Crypt (r.stream k pubA keyA) (requestPlain c.ia)).1 ∧
      s.state.sendRc4 = (rc4Crypt (r.stream k pubA keyA) (requestPlain c.ia)).2 ∧
      s.state.recvRc4 = r.sendRc4 k pubA := by
  have hpub : (r.pub k).length = mseDhLen := by
    simp [Responder.pub, modexp _ _]
  have hstream : stream = r.pub k ++
      (r.padB ++ ((rc4Crypt (r.stream k (mseDhPublic k c.priv) keyB) r.reply).1 ++ data)) := by
    rw [sent, Responder.handshake]
    simp only [List.append_assoc]
  have htake : stream.take mseDhLen = r.pub k := by
    rw [hstream]
    exact List.take_left' hpub
  have hdrop : stream.drop mseDhLen =
      r.padB ++ ((rc4Crypt (r.stream k (mseDhPublic k c.priv) keyB) r.reply).1 ++ data) := by
    rw [hstream]
    exact List.drop_left' hpub
  have hscans : Scans outCap c stream := by
    refine ⟨?_, room⟩
    rw [hstream, List.length_append, hpub]
    omega
  have hsecret : mseDhSecret k c.priv (stream.take mseDhLen) =
    r.secret k (mseDhPublic k c.priv) := by
    rw [htake]
    exact secret_agrees modexp c.priv r
  have hkey : ∀ label, mseStreamKey k label (r.secret k (mseDhPublic k c.priv)) c.infoHash =
      r.stream k (mseDhPublic k c.priv) label := by
    intro label
    rw [mseStreamKey, Responder.stream, skey]
  obtain ⟨hrecv, hsend, hvc⟩ := scanning_frame hsecret
  have hrequest := firstRequest_eq hsecret
  rw [hkey] at hrecv hsend hvc hrequest
  rw [show mseVcLen = 8 from rfl] at hvc
  have hstate : (c.scanning k stream).state = .syncVc := by
    simp only [Client.scanning, Client.emitted]
  have hsound : Sound (c.scanning k stream) := emitted_sound _
  have hdrain := drain_scans (k := k) started hscans
  rw [hdrop] at hdrain ⊢
  rw [← scanning_vc]
  dsimp only
  rw [hdrain, hrequest, Responder.sendRc4, skey, ← hsend]
  generalize c.scanning k stream = scan at hrecv hsend hvc hstate hsound
  rw [← hrecv] at hvc ⊢
  have hfirst : ∀ n, n < r.padB.length →
    ((r.padB ++ scan.vcExpect).drop n).take 8 ≠ scan.vcExpect := by
    rw [hvc, hrecv]
    exact unambiguous
  obtain ⟨hfind, hdone, hrest, hout, hsame, hlast⟩ :=
    drain_reply k outCap r hstate hsound hvc hfirst data
  refine ⟨hscans, hfind, hdone, hrest, ?_, hsame, hlast⟩
  rw [Result.after_out, hout, List.append_nil]

/-- A client that has failed has failed for good. -/
theorem drain_failed (p more : List UInt8) (h : (drain (read k outCap) c p).state.state = .fail) :
    (drain (read k outCap) c (p ++ more)).state.state = .fail := by
  rw [drain_again, Result.after_state, drain_over (Or.inr h)]
  exact h

theorem requestPlain_eq (ia : List UInt8) :
    requestPlain ia = List.replicate 8 0 ++ [0, 0, 0, 2] ++ word16 0 ++ word16 ia.length ++ ia :=
  rfl

/-- From the reading of the whole stream to the chunks it came in. -/
theorem feedChunks_handshake (modexp : k.Modexp) (started : c.state = .readPub) (sound : Sound c)
    (skey : r.skey = c.infoHash) (unambiguous : r.Unambiguous k (mseDhPublic k c.priv))
    (room : 40 + (requestPlain c.ia).length ≤ outCap) {chunks : List (List UInt8)}
    (sent : chunks.flatten =
      r.handshake k (mseDhPublic k c.priv) ++
        (rc4Crypt (r.sendRc4 k (mseDhPublic k c.priv)) data).1) :
    Agreement k r (mseDhPublic k c.priv) c.ia data (feedChunks k outCap c chunks) ∧
      ∀ before, before <+: chunks → (feedChunks k outCap c before).status ≠ .fail := by
  obtain ⟨hscans, hfind, hdone, hrest, hout, hsend, hrecv⟩ :=
    drain_handshake modexp started skey unambiguous room sent
  have hpad := r.padB_le
  have hwithin : ∀ p, p <+: chunks.flatten → ¬ Overrun (drain (read k outCap) c p).state := by
    intro p hp hover
    have hlate := overrun_before started hp hover hfind
    simp only [mseMaxPad, mseDhLen] at hlate
    omega
  have htracked := feedChunks_tracked sound started hwithin
  refine ⟨⟨?_, ?_, ?_, ?_, ?_⟩, ?_⟩
  · rw [htracked]
    simp only [tracked, statusOf, hdone]
  · rw [htracked]
    simp only [tracked, hrest]
    rw [sent, List.length_append]
    omega
  · rw [htracked]
    exact hrest
  · intro more
    rw [htracked]
    simp only [tracked, hrecv]
    exact congrArg Prod.fst (Keystream.crypt_crypt rc4Step _ more)
  · refine ⟨(rc4Crypt (r.stream k (mseDhPublic k c.priv) keyA) (requestPlain c.ia)).1, ?_, ?_⟩
    · rw [htracked]
      exact hout
    · intro more
      rw [htracked]
      simp only [tracked, hsend, ← requestPlain_eq]
      generalize r.stream k (mseDhPublic k c.priv) keyA = rc4
      have hboth := Keystream.crypt_append rc4Step rc4 (requestPlain c.ia) more
      have htwice := Keystream.crypt_crypt rc4Step rc4 (requestPlain c.ia ++ more)
      rw [hboth] at htwice
      exact congrArg Prod.fst htwice
  · rintro before ⟨after, rfl⟩ hfail
    rw [List.flatten_append] at hwithin hdone
    have hbefore : feedChunks k outCap c before = tracked k outCap c before.flatten :=
      feedChunks_tracked sound started (fun p hp => hwithin p (hp.trans (List.prefix_append _ _)))
    rw [hbefore] at hfail
    have hfailed : (drain (read k outCap) c before.flatten).state.state = .fail := by
      simp only [tracked, statusOf] at hfail
      split at hfail
      · cases hfail
      · assumption
      · cases hfail
    rw [drain_failed _ _ hfailed] at hdone
    cases hdone

end Handshake

/-- A client that starts with a payload of at most `MSE_MAX_IA` bytes agrees with every
responder for the same torrent, in whatever chunks its bytes arrive, and never fails on the
way. -/
theorem handshake_agrees {k : Crypto} (modexp : k.Modexp) (c0 : Client)
    (infoHash priv padA ia : List UInt8)
    (startCap outCap : Nat) (payload : ia.length ≤ mseMaxIa) (padding : padA.length ≤ mseMaxPad)
    (fits : mseDhLen + padA.length ≤ startCap) (room : 40 + (requestPlain ia).length ≤ outCap)
    (r : Responder) (skey : r.skey = infoHash) :
    ∃ c hello, mseClientStart k c0 infoHash priv padA ia startCap = (c, .more, hello) ∧
      (r.Unambiguous k (hello.take mseDhLen) → ∀ data chunks,
        chunks.flatten = r.handshake k (hello.take mseDhLen) ++
          (rc4Crypt (r.sendRc4 k (hello.take mseDhLen)) data).1 →
        Agreement k r (hello.take mseDhLen) ia data (feedChunks k outCap c chunks) ∧
          ∀ before, before <+: chunks → (feedChunks k outCap c before).status ≠ .fail) := by
  refine ⟨.fresh infoHash priv ia, mseDhPublic k priv ++ padA, ?_, ?_⟩
  · rw [mseClientStart, if_neg (by omega), if_neg (by omega)]
  · have hpub : (mseDhPublic k priv ++ padA).take mseDhLen = mseDhPublic k priv := by
      refine List.take_left' ?_
      simp [mseDhPublic, modexp _ _]
    have hsound : Sound (.fresh infoHash priv ia) :=
      ⟨by simp [Client.fresh], by simp [Client.fresh]⟩
    rw [hpub]
    intro hunambiguous data chunks hsent
    exact feedChunks_handshake (c := .fresh infoHash priv ia) modexp rfl hsound skey
      hunambiguous room hsent

/-- Exponentiation as the library does it, and some function for SHA-1. -/
def modexpCrypto : Crypto where
  dhModexp base exp := toBytes mseDhLen (ofBytes base ^ ofBytes exp % ofBytes msePrime)
  sha1 data := toBytes 20 (ofBytes data)

def sampleResponder : Responder where
  priv := [5]
  skey := List.replicate 20 3
  padB := []
  cryptoSelect := [0, 0, 0, 2]
  padD := [1, 2, 3]
  padB_le := by decide
  padD_le := by decide
  select_length := rfl
  select_rc4 := by decide

/-- The same with one byte before the VC that cannot begin it. -/
def paddedResponder (pubA : List UInt8) : Responder where
  priv := sampleResponder.priv
  skey := sampleResponder.skey
  padB := [(sampleResponder.encryptedVc modexpCrypto pubA).headD 0 + 1]
  cryptoSelect := sampleResponder.cryptoSelect
  padD := sampleResponder.padD
  padB_le := (by decide : 1 ≤ 512)
  padD_le := sampleResponder.padD_le
  select_length := sampleResponder.select_length
  select_rc4 := sampleResponder.select_rc4

theorem paddedResponder_unambiguous (pubA : List UInt8) :
    (paddedResponder pubA).Unambiguous modexpCrypto pubA := by
  intro n hn
  have hzero : n = 0 := Nat.lt_one_iff.mp hn
  have hvc : (paddedResponder pubA).encryptedVc modexpCrypto pubA =
    sampleResponder.encryptedVc modexpCrypto pubA := rfl
  have hpad : (paddedResponder pubA).padB =
    [(sampleResponder.encryptedVc modexpCrypto pubA).headD 0 + 1] := rfl
  have hlength : (sampleResponder.encryptedVc modexpCrypto pubA).length = 8 := by
    simp [Responder.encryptedVc, rc4Crypt]
  rw [hzero, hvc, hpad]
  generalize sampleResponder.encryptedVc modexpCrypto pubA = vc at hlength
  cases vc with
  | nil => cases hlength
  | cons v rest => exact fun heq => byte_succ_ne v (List.cons.inj heq).1

/-- What it sends with one byte of data behind the reply. -/
def sentBytes (pubA : List UInt8) : List UInt8 :=
  (paddedResponder pubA).handshake modexpCrypto pubA ++
    (rc4Crypt ((paddedResponder pubA).sendRc4 modexpCrypto pubA) [42]).1

/-- The padding comes with the key, the rest in a second piece. -/
theorem handshake_agrees_padded : ∃ c hello,
    mseClientStart modexpCrypto sampleClient (List.replicate 20 3) [7] [] [9] 96 =
      (c, .more, hello) ∧
      Agreement modexpCrypto (paddedResponder (hello.take mseDhLen)) (hello.take mseDhLen) [9] [42]
        (feedChunks modexpCrypto 256 c
          [(sentBytes (hello.take mseDhLen)).take 97,
            (sentBytes (hello.take mseDhLen)).drop 97]) := by
  have hpublic : (mseDhPublic modexpCrypto [7]).take mseDhLen = mseDhPublic modexpCrypto [7] :=
    List.take_of_length_le (by simp [mseDhPublic, modexpCrypto])
  obtain ⟨c, hello, hstart, hagrees⟩ := @handshake_agrees modexpCrypto (fun _ _ => rfl) sampleClient
    (List.replicate 20 3) [7] [] [9] 96 256 (by decide) (by decide) (by decide) (by decide)
    (paddedResponder (mseDhPublic modexpCrypto [7])) rfl
  have hhello : hello.take mseDhLen = mseDhPublic modexpCrypto [7] := by
    rw [mseClientStart, if_neg (by decide), if_neg (by decide), List.append_nil] at hstart
    cases hstart
    exact hpublic
  refine ⟨c, hello, hstart, ?_⟩
  rw [hhello] at hagrees ⊢
  generalize mseDhPublic modexpCrypto [7] = pubA at hagrees ⊢
  refine (hagrees (paddedResponder_unambiguous pubA) [42] _ ?_).1
  rw [List.flatten_cons, List.flatten_singleton, List.take_append_drop]
  rfl

end Mse
