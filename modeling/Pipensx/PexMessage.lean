import Pipensx.PeerSegmentation
import Pipensx.StringDict

/-!
# The ut_pex message

`peer_send_pex` builds its message in an array of 512 bytes on the stack. Before it copies
the endpoints it keeps 64 bytes for what comes after them, whatever their number; the flags
that follow take one byte for each endpoint.
-/

namespace PeerIngest

open Bencode

/-- An array with the cursor `off`; `reach` is where the furthest write ended. -/
structure Scratch where
  mem : Memory
  off : Nat
  reach : Nat

/-- The bytes are stored from the cursor on, and the cursor stays. -/
def Scratch.store (b : Scratch) (data : List UInt8) : Scratch where
  mem := fun i => if b.off ≤ i ∧ i < b.off + data.length then data.getD (i - b.off) 0 else b.mem i
  off := b.off
  reach := if data.length = 0 then b.reach else max b.reach (b.off + data.length)

def Scratch.write (b : Scratch) (data : List UInt8) : Scratch :=
  { b.store data with off := b.off + data.length }

/-- `off += snprintf(buf+off, sizeof(buf)-off, ...)`: the text is cut to the room there is,
with a NUL after it, and the cursor moves by the whole length. -/
def Scratch.snprintf (size : Nat) (b : Scratch) (text : List UInt8) : Scratch :=
  let room := (size + 2 ^ 64 - b.off % 2 ^ 64) % 2 ^ 64
  { b.store (if room = 0 then [] else text.take (room - 1) ++ [0]) with off := b.off + text.length }

/-- The size of `buf` in `peer_send_pex`. -/
def pexBufSize : Nat := 512

/-- The text before the endpoints. -/
def addedText (bytes : Nat) : List UInt8 :=
  TorrentFile.ascii "d5:added".toList ++ decimalText bytes ++ [colon]

/-- The text before the flags. -/
def flagsText (cnt : Nat) : List UInt8 :=
  TorrentFile.ascii "7:added.f".toList ++ decimalText cnt ++ [colon]

/-- `buf` up to the check; `stack` is what it holds to begin with. -/
def pexHead (stack : Memory) (peerExtPex : UInt8) (bytes : Nat) : Scratch :=
  (((⟨stack, 0, 0⟩ : Scratch).write [20]).write [peerExtPex]).snprintf pexBufSize (addedText bytes)

/-- `buf` from the check on. -/
def pexTail (b : Scratch) (compact6 : List UInt8) (bytes cnt : Nat) : Scratch :=
  (((b.write (compact6.take bytes)).snprintf pexBufSize (flagsText cnt)).write
    (List.replicate cnt 0)).write [letterE]

/-- What is in `buf` when `send_msg` is called, or the return value when it is not. -/
def pexMessage (stack : Memory) (peerExtPex : UInt8) (compact6 : List UInt8) (cnt : Nat) :
    Except Bool Scratch :=
  if peerExtPex = 0 ∨ cnt = 0 then .error true
  else
    let bytes := cnt * 6 % 2 ^ 32
    let b := pexHead stack peerExtPex bytes
    if b.off + bytes + 64 > pexBufSize then .error false
    else .ok (pexTail b compact6 bytes cnt)

/-- `send_msg` on the session. -/
def Session.sendMsg (net : PeerSend.Transport) (s : Session) (msg : List UInt8) : Bool × Session :=
  let r := PeerSend.sendMsg net s.peer.out msg
  (r.1, { s with peer := { s.peer with out := r.2 } })

def peerSendPex (net : PeerSend.Transport) (stack : Memory) (s : Session) (compact6 : List UInt8)
    (cnt : Nat) : Bool × Session :=
  match pexMessage stack s.peerExtPex compact6 cnt with
  | .error ret => (ret, s)
  | .ok b => s.sendMsg net (slice b.mem 0 (b.off % 2 ^ 32))

/-- Everything up to the cursor is `l`, and nothing was written outside the array. -/
structure Scratch.Filled (size : Nat) (b : Scratch) (l : List UInt8) : Prop where
  off : b.off = l.length
  held : Holds b.mem 0 l
  reach : b.reach ≤ size

section Filled

variable {size : Nat} {b : Scratch} {l : List UInt8}

theorem holds_iff (mem : Memory) (p : Nat) (l : List UInt8) :
    Holds mem p l ↔ ∀ i < l.length, mem (p + i) = l.getD i 0 := by
  induction l generalizing p with
  | nil => simp
  | cons c rest ih =>
    rw [holds_cons, ih]
    constructor
    · rintro ⟨hfirst, hrest⟩ i hi
      cases i with
      | zero => exact hfirst
      | succ i =>
        have hnext := hrest i (by simpa using hi)
        rwa [Nat.add_right_comm] at hnext
    · intro h
      refine ⟨h 0 (by simp), fun i hi => ?_⟩
      have hnext := h (i + 1) (by simpa using hi)
      rwa [Nat.add_right_comm]

/-- What is stored stands after what was there. -/
theorem Scratch.Filled.store (h : b.Filled size l) (data : List UInt8) :
    Holds (b.store data).mem 0 (l ++ data) := by
  have hheld := (holds_iff _ _ _).mp h.held
  rw [holds_iff]
  intro i hi
  rw [List.length_append] at hi
  simp only [Scratch.store, h.off, Nat.zero_add]
  by_cases hold : i < l.length
  · rw [if_neg (by omega), List.getD_append _ _ _ _ hold]
    simpa using hheld i hold
  · rw [if_pos ⟨by omega, by omega⟩, List.getD_append_right _ _ _ _ (by omega)]

theorem Scratch.Filled.write (h : b.Filled size l) (data : List UInt8)
    (hroom : l.length + data.length ≤ size) : (b.write data).Filled size (l ++ data) := by
  refine ⟨?_, h.store data, ?_⟩
  · simp [Scratch.write, h.off]
  · have hreach := h.reach
    simp only [Scratch.write, Scratch.store, h.off]
    split <;> omega

theorem Scratch.Filled.snprintf (h : b.Filled size l) (hsize : size < 2 ^ 64) (text : List UInt8)
    (hroom : l.length + text.length < size) : (b.snprintf size text).Filled size (l ++ text) := by
  have hfree : (size + 2 ^ 64 - l.length % 2 ^ 64) % 2 ^ 64 = size - l.length := by omega
  have hstored : b.snprintf size text =
    { b.store (text ++ [0]) with off := b.off + text.length } := by
    simp only [Scratch.snprintf, h.off, hfree]
    rw [if_neg (by omega), List.take_of_length_le (by omega)]
  rw [hstored]
  refine ⟨?_, ?_, ?_⟩
  · simp [h.off]
  · have hall := h.store (text ++ [0])
    rw [← List.append_assoc] at hall
    exact ((holds_append _ _ _ _).mp hall).1
  · have hreach := h.reach
    simp only [Scratch.store, h.off, List.length_append, List.length_singleton]
    split <;> omega

end Filled

def addedKey : List UInt8 := TorrentFile.ascii "added".toList

def addedFlagsKey : List UInt8 := TorrentFile.ascii "added.f".toList

/-- The dictionary for the endpoints, with flags that are all zero. -/
def pexPairs (compact6 : List UInt8) (cnt : Nat) : List (List UInt8 × List UInt8) :=
  [(addedKey, compact6), (addedFlagsKey, List.replicate cnt 0)]

theorem addedText_length (bytes : Nat) :
    (addedText bytes).length = 9 + (decimalText bytes).length := by
  simp only [addedText, TorrentFile.ascii, List.length_append, List.length_map,
    List.length_singleton]
  have htext : "d5:added".toList.length = 8 := rfl
  omega

theorem flagsText_length (cnt : Nat) : (flagsText cnt).length = 10 + (decimalText cnt).length := by
  simp only [flagsText, TorrentFile.ascii, List.length_append, List.length_map,
    List.length_singleton]
  have htext : "7:added.f".toList.length = 9 := rfl
  omega

/-- The check before the copy lets through up to 434 bytes, as a 32-bit number. -/
theorem size_check_iff (bytes : Nat) :
    2 + (addedText bytes).length + bytes + 64 > pexBufSize ↔ 434 < bytes := by
  have hthree := decimalText_length_le_iff (n := bytes) (k := 3) (by decide)
  have htwo := decimalText_length_le_iff (n := bytes) (k := 2) (by decide)
  simp only [pexBufSize, addedText_length]
  omega

/-- If the check lets it through, the whole message fits up to 69 endpoints. -/
theorem message_size_iff {cnt : Nat} (hcnt : 0 < cnt) (hpassed : cnt * 6 % 2 ^ 32 ≤ 434) :
    2 + (addedText (cnt * 6 % 2 ^ 32)).length + cnt * 6 % 2 ^
      32 + (flagsText cnt).length + cnt + 1 ≤ pexBufSize ↔ cnt ≤ 69 := by
  have hthree := decimalText_length_le_iff (n := cnt * 6 % 2 ^ 32) (k := 3) (by decide)
  have htwo := decimalText_length_le_iff (n := cnt * 6 % 2 ^ 32) (k := 2) (by decide)
  have hflags := decimalText_length_le_iff (n := cnt) (k := 2) (by decide)
  have hone := decimalText_length_le_iff (n := cnt) (k := 1) (by decide)
  simp only [pexBufSize, addedText_length, flagsText_length]
  by_cases hwrap : cnt * 6 < 2 ^ 32
  · rw [Nat.mod_eq_of_lt hwrap] at *
    omega
  · omega

/-- The payload of the extended message in the array, after the two ids. -/
def Scratch.payload (b : Scratch) : List UInt8 := slice b.mem 2 (b.off - 2)

/-- The array holds one extended message, and whoever receives it gets the endpoints. -/
structure RoundTrips (b : Scratch) (id : UInt8) (compact6 : List UInt8) (cnt : Nat) : Prop where
  inside : b.reach ≤ pexBufSize
  message : slice b.mem 0 (b.off % 2 ^ 32) = 20 :: id :: b.payload
  dictionary : Value 1 b.payload ∧ b.payload.head? = some letterD
  added : parsePex b.payload = [.onPeers compact6 cnt]
  flags : ∃ node, beDictGet (memory b.payload) 0 b.payload.length addedFlagsKey = some node ∧
    node.type = .str ∧ slice (memory b.payload) node.sval node.slen = List.replicate cnt 0

/-- Nothing is sent, or what is sent makes the round trip. -/
def PexSound (net : PeerSend.Transport) (stack : Memory) (s : Session)
    (compact6 : List UInt8) (cnt : Nat) : Prop :=
  (∃ ret, pexMessage stack s.peerExtPex compact6 cnt = .error ret ∧
    peerSendPex net stack s compact6 cnt = (ret, s)) ∨
  ∃ b, pexMessage stack s.peerExtPex compact6 cnt = .ok b ∧
    peerSendPex net stack s compact6 cnt = s.sendMsg net (20 :: s.peerExtPex :: b.payload) ∧
    RoundTrips b s.peerExtPex compact6 cnt

theorem holds_memory (data : List UInt8) : Holds (memory data) 0 data := by
  rw [holds_iff]
  intro i _
  rw [Nat.zero_add]
  rfl

section Sound

variable {stack : Memory} {id : UInt8} {compact6 : List UInt8} {cnt : Nat}

theorem pexPairs_fit (hlen : compact6.length = cnt * 6) (hsmall : cnt < 2 ^ 32) :
    ∀ q ∈ pexPairs compact6 cnt, q.1.length ≤ sizeMax ∧ q.2.length ≤ sizeMax := by
  intro q hq
  have hsize : sizeMax = 2 ^ 64 - 1 := rfl
  have hkey : addedKey.length ≤ sizeMax := by decide
  have hkey' : addedFlagsKey.length ≤ sizeMax := by decide
  simp only [pexPairs, List.mem_cons, List.not_mem_nil, or_false] at hq
  rcases hq with rfl | rfl
  · exact ⟨hkey, by dsimp only; omega⟩
  · refine ⟨hkey', ?_⟩
    simp only [List.length_replicate]
    omega

/-- What the receiver makes of the dictionary. -/
theorem parsePex_dictText (hlen : compact6.length = cnt * 6) (hcnt : 0 < cnt)
    (hsmall : cnt < 2 ^ 32) :
    parsePex (dictText (pexPairs compact6 cnt)) = [.onPeers compact6 cnt] ∧
    ∃ node, beDictGet (memory (dictText (pexPairs compact6 cnt))) 0
      (dictText (pexPairs compact6 cnt)).length addedFlagsKey = some node ∧ node.type = .str ∧
      slice (memory (dictText (pexPairs compact6 cnt))) node.sval node.slen =
        List.replicate cnt 0 := by
  have hfit := pexPairs_fit hlen hsmall
  have hheld := holds_memory (dictText (pexPairs compact6 cnt))
  obtain ⟨node, hget, htype, hslen, hbody⟩ :=
    beDictGet_dictText (dictText (pexPairs compact6 cnt)).length
    addedKey compact6 [] [(addedFlagsKey, List.replicate cnt 0)] (by simp) hfit hheld
    (by simp [pexPairs])
  obtain ⟨flags, hflags, hftype, _, hfbody⟩ :=
    beDictGet_dictText (dictText (pexPairs compact6 cnt)).length
    addedFlagsKey (List.replicate cnt 0) [(addedKey, compact6)] [] (by simp; decide) hfit hheld
    (by simp [pexPairs])
  refine ⟨?_, flags, hflags, hftype, hfbody⟩
  have hkey : TorrentFile.ascii ['a', 'd', 'd', 'e', 'd'] = addedKey := by decide
  have hdiv : node.slen / 6 % 2 ^ 32 = cnt := by
    rw [hslen, hlen]
    omega
  have hall : 6 * cnt = node.slen := by omega
  simp only [parsePex, hkey, hget, hdiv, htype, true_and, if_pos hcnt, hall, hbody]

theorem pexHead_off (bytes : Nat) :
    (pexHead stack id bytes).off = 2 + (addedText bytes).length := by
  change 0 + [(20 : UInt8)].length + [id].length + (addedText bytes).length = _
  simp

theorem pexTail_off (b : Scratch) (bytes : Nat) : (pexTail b compact6 bytes cnt).off =
    b.off + (compact6.take bytes).length + (flagsText cnt).length + cnt + 1 := by
  simp only [pexTail, Scratch.snprintf, Scratch.write, List.length_replicate, List.length_singleton]

/-- The last write ends where the message ends. -/
theorem pexTail_reach (b : Scratch) (bytes : Nat) :
    (pexTail b compact6 bytes cnt).off ≤ (pexTail b compact6 bytes cnt).reach :=
  le_max_right _ _

theorem few_of_inside (hlen : compact6.length = cnt * 6) (hcnt : 0 < cnt)
    (hpassed : cnt * 6 % 2 ^ 32 ≤ 434)
    (h : (pexTail (pexHead stack id (cnt * 6 % 2 ^ 32)) compact6 (cnt * 6 % 2 ^ 32) cnt).reach ≤
    pexBufSize) : cnt ≤ 69 := by
  have hlast := (pexTail_reach _ _).trans h
  rw [pexTail_off, pexHead_off, List.length_take, hlen] at hlast
  exact (message_size_iff hcnt hpassed).mp (by omega)

/-- Up to 69 endpoints the array holds the message. -/
theorem pexTail_filled (stack : Memory) (id : UInt8) (hlen : compact6.length = cnt * 6)
    (hcnt : 0 < cnt) (hfew : cnt ≤ 69) :
    (pexTail (pexHead stack id (cnt * 6 % 2 ^ 32)) compact6 (cnt * 6 % 2 ^ 32) cnt).Filled
      pexBufSize (20 :: id :: dictText (pexPairs compact6 cnt)) := by
  have hbytes : cnt * 6 % 2 ^ 32 = cnt * 6 := by omega
  have hsize := (message_size_iff hcnt (by omega)).mpr hfew
  rw [hbytes] at hsize ⊢
  have hempty : (⟨stack, 0, 0⟩ : Scratch).Filled pexBufSize [] := ⟨rfl, rfl, Nat.zero_le _⟩
  have hids := (hempty.write [20] (by decide)).write [id] (by simp [pexBufSize])
  have hadded := hids.snprintf (by decide) (addedText (cnt * 6)) (by simp; omega)
  have hendpoints := hadded.write (compact6.take (cnt * 6)) (by simp; omega)
  have hflags := hendpoints.snprintf (by decide) (flagsText cnt) (by simp; omega)
  have hzeros := hflags.write (List.replicate cnt 0) (by simp; omega)
  have hall := hzeros.write [letterE] (by simp; omega)
  have htext : [] ++ [20] ++ [id] ++ addedText (cnt * 6) ++ compact6.take (cnt * 6) ++
      flagsText cnt ++
      List.replicate cnt 0 ++ [letterE] = 20 :: id :: dictText (pexPairs compact6 cnt) := by
    have hadded : addedText (cnt * 6) =
      letterD :: (strText addedKey ++ decimalText (cnt * 6) ++ [colon]) := by
      rfl
    have hflags : flagsText cnt = strText addedFlagsKey ++ decimalText cnt ++ [colon] := rfl
    rw [List.take_of_length_le (by omega), hadded, hflags]
    simp [dictText, pairsText, pexPairs, strText, hlen]
  rw [htext] at hall
  exact hall

/-- The payload of what fills the array. -/
theorem payload_filled {size : Nat} {b : Scratch} {dict : List UInt8}
    (h : b.Filled size (20 :: id :: dict)) :
    b.payload = dict ∧ slice b.mem 0 b.off = 20 :: id :: dict := by
  have hoff := h.off
  have hheld := h.held
  simp only [List.length_cons] at hoff
  constructor
  · simp only [holds_cons] at hheld
    rw [Scratch.payload, hoff, show dict.length + 1 + 1 - 2 = dict.length by omega]
    exact hheld.2.2
  · rw [hoff]
    exact hheld

theorem roundTrips_few (stack : Memory) (id : UInt8) (hlen : compact6.length = cnt * 6)
    (hcnt : 0 < cnt) (hfew : cnt ≤ 69) :
    RoundTrips (pexTail (pexHead stack id (cnt * 6 % 2 ^ 32)) compact6 (cnt * 6 % 2 ^ 32) cnt) id
    compact6
      cnt := by
  have hfilled := pexTail_filled stack id hlen hcnt hfew
  have hoff : (pexTail (pexHead stack id (cnt * 6 % 2 ^ 32)) compact6 (cnt * 6 % 2 ^ 32) cnt).off <
    2 ^ 32 :=
    (pexTail_reach _ _).trans_lt (hfilled.reach.trans_lt (by decide))
  generalize pexTail (pexHead stack id (cnt * 6 % 2 ^ 32)) compact6 (cnt * 6 % 2 ^ 32) cnt =
    b at hfilled hoff
  obtain ⟨hpayload, hslice⟩ := payload_filled hfilled
  obtain ⟨hadded, hflags⟩ := parsePex_dictText hlen hcnt (by omega)
  constructor
  · exact hfilled.reach
  · rw [Nat.mod_eq_of_lt hoff, hpayload]
    exact hslice
  · rw [hpayload]
    exact ⟨dictText_value (pexPairs_fit hlen (by omega)), rfl⟩
  · rw [hpayload]
    exact hadded
  · rw [hpayload]
    exact hflags

/-- The three ways through `peer_send_pex`. -/
theorem pexMessage_eq (stack : Memory) (id : UInt8) (compact6 : List UInt8) (cnt : Nat) :
    pexMessage stack id compact6 cnt =
      if id = 0 ∨ cnt = 0 then .error true
      else if 434 < cnt * 6 % 2 ^ 32 then .error false
      else .ok (pexTail (pexHead stack id (cnt * 6 % 2 ^ 32)) compact6 (cnt * 6 % 2 ^ 32) cnt) := by
  simp only [pexMessage, pexHead_off, size_check_iff]

/-- A message that is sent makes the round trip exactly when it has at most 69 endpoints. -/
theorem pexSound_ok_iff (net : PeerSend.Transport) (stack : Memory) (s : Session)
    (hlen : compact6.length = cnt * 6) (hactive : ¬ (s.peerExtPex = 0 ∨ cnt = 0))
    (hpassed : cnt * 6 % 2 ^ 32 ≤ 434) : PexSound net stack s compact6 cnt ↔ cnt ≤ 69 := by
  have hsome : 0 < cnt := Nat.pos_of_ne_zero (fun hzero => hactive (Or.inr hzero))
  have hmessage := pexMessage_eq stack s.peerExtPex compact6 cnt
  rw [if_neg hactive, if_neg (by omega)] at hmessage
  constructor
  · rintro (⟨ret, hret, _⟩ | ⟨b, hb, _, hround⟩)
    · rw [hmessage] at hret
      cases hret
    · rw [hmessage] at hb
      cases hb
      exact few_of_inside hlen hsome hpassed hround.inside
  · intro hfew
    have hround := roundTrips_few stack s.peerExtPex hlen hsome hfew
    refine Or.inr ⟨_, hmessage, ?_, hround⟩
    simp only [peerSendPex, hmessage, hround.message]

end Sound

/-- `peer_send_pex` does what it should exactly when it does not send, because the peer has
no id for it or because the 32-bit number of bytes is above 434, or when there are at most
69 endpoints. -/
theorem pexSound_iff (net : PeerSend.Transport) (stack : Memory) (s : Session)
    {compact6 : List UInt8} {cnt : Nat} (hlen : compact6.length = cnt * 6) :
    PexSound net stack s compact6 cnt ↔
      s.peerExtPex = 0 ∨ cnt ≤ 69 ∨ 434 < cnt * 6 % 2 ^ 32 := by
  have hmessage := pexMessage_eq stack s.peerExtPex compact6 cnt
  by_cases hquiet : s.peerExtPex = 0 ∨ cnt = 0
  · rw [if_pos hquiet] at hmessage
    constructor
    · intro _
      rcases hquiet with hid | hnone
      · exact Or.inl hid
      · exact Or.inr (Or.inl (by omega))
    · intro _
      exact Or.inl ⟨true, hmessage, by simp only [peerSendPex, hmessage]⟩
  · rw [if_neg hquiet] at hmessage
    by_cases hrefused : 434 < cnt * 6 % 2 ^ 32
    · rw [if_pos hrefused] at hmessage
      constructor
      · intro _
        exact Or.inr (Or.inr hrefused)
      · intro _
        exact Or.inl ⟨false, hmessage, by simp only [peerSendPex, hmessage]⟩
    · rw [pexSound_ok_iff net stack s hlen hquiet (by omega)]
      simp only [not_or] at hquiet
      simp only [hquiet.1, hrefused, false_or, or_false]

/-- A peer that takes ut_pex messages under the id 3. -/
def pexSession : Session := { sampleConn.session with peerExtPex := 3 }

/-- The flags of 70 endpoints end four bytes after the array, and the letter after them. -/
theorem seventy_endpoints :
    ¬ PexSound sampleSystem.net (fun _ => 0) pexSession (List.replicate 420 7) 70 := by
  intro hsound
  have hactive : ¬ (pexSession.peerExtPex = 0 ∨ 70 = 0) := by decide
  have hfew := (pexSound_ok_iff _ _ _ (by rw [List.length_replicate]) hactive (by decide)).mp hsound
  omega

/-- 69 endpoints make the round trip, and 73 are refused. -/
theorem pexSound_iff_few :
    PexSound sampleSystem.net (fun _ => 0) pexSession (List.replicate 414 7) 69 ∧
      PexSound sampleSystem.net (fun _ => 0) pexSession (List.replicate 438 7) 73 := by
  constructor
  · exact (pexSound_iff _ _ _ (by rw [List.length_replicate])).mpr (Or.inr (Or.inl (by decide)))
  · exact (pexSound_iff _ _ _ (by rw [List.length_replicate])).mpr (Or.inr (Or.inr (by decide)))

end PeerIngest
