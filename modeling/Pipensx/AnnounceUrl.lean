import Pipensx.CString
import Pipensx.StringDict
import Pipensx.UrlText

/-!
# The URL of an announce

`http_build_announce_url` of `core/tracker.c`. The info hash and the peer id are encoded into
arrays of 64 bytes, by a loop that stops when four bytes and the terminator might not fit; the
whole is printed into an array of the caller.
-/

namespace AnnounceUrl

open CText UrlText

/-- `snprintf` into an array of `size` bytes: the string it leaves, and what it returns. A length
that is no `int` is an error. -/
def snprintf (size : Nat) (text : List UInt8) : List UInt8 × Int :=
  (text.take (size - 1), if text.length < 2 ^ 31 then text.length else -1)

/-- The bytes that `url_encode_hash` copies. -/
def copied (b : UInt8) : Bool :=
  (48 ≤ b && b ≤ 57) || (65 ≤ b && b ≤ 90) || (97 ≤ b && b ≤ 122) || b == 45 || b == 95 || b ==
    46 || b == 126

/-- `%%%02X`. -/
def percent02X (b : UInt8) : List UInt8 :=
  let digit (n : Nat) : UInt8 := if n < 10 then UInt8.ofNat (48 + n) else UInt8.ofNat (55 + n)
  [37, digit (b.toNat / 16), digit (b.toNat % 16)]

/-- The loop of `url_encode_hash`, with what is in `out` so far. The text of a byte fits whenever it
is printed, so that `off` is the length of `out`. -/
def urlEncodeLoop (outsz : Nat) (out : List UInt8) : List UInt8 → List UInt8
  | [] => out
  | b :: rest =>
    if out.length + 4 < outsz then
      if copied b then urlEncodeLoop outsz (out ++ [b]) rest
      else urlEncodeLoop outsz (out ++ (snprintf (outsz - out.length) (percent02X b)).1) rest
    else out

def urlEncodeHash (outsz : Nat) (hash : List UInt8) : List UInt8 := urlEncodeLoop outsz [] hash

/-- What `%lld` prints. -/
def signedText (v : Int64) : List UInt8 :=
  if v.toInt < 0 then 45 :: Bencode.decimalText v.toInt.natAbs else Bencode.decimalText
    v.toInt.natAbs

/-- The text of an announce, with the encoded hashes. -/
def announceText (url : CString) (ihEnc pidEnc : List UInt8) (listenPort : UInt16)
    (downloaded left : Int64) (startedEvent : Bool) : List UInt8 :=
  url.bytes ++ [if 63 ∈ url.bytes then 38 else 63] ++ ascii "info_hash=".toList ++ ihEnc ++
    ascii "&peer_id=".toList ++
    pidEnc ++ ascii "&port=".toList ++ Bencode.decimalText listenPort.toNat ++
    ascii "&uploaded=0&downloaded=".toList ++
    signedText downloaded ++ ascii "&left=".toList ++ signedText left ++
    ascii "&compact=1".toList ++
    (if startedEvent then ascii "&event=started".toList else []) ++ ascii "&numwant=200".toList

/-- Whether it succeeds, and the string in `out`. -/
def httpBuildAnnounceUrl (outsz : Nat) (url : CString) (infoHash peerId : Vector UInt8 20)
    (listenPort : UInt16) (downloaded left : Int64) (startedEvent : Bool) : Bool × List UInt8 :=
  let ihEnc := urlEncodeHash 64 infoHash.toList
  let pidEnc := urlEncodeHash 64 peerId.toList
  let r := snprintf outsz (announceText url ihEnc pidEnc listenPort downloaded left startedEvent)
  (decide (r.2 ≥ 0) && decide (r.2 < outsz), r.1)

/-- The parameters of an announce. -/
def announceFields (ih pid : List UInt8) (listenPort : UInt16) (downloaded left : Int64)
    (startedEvent : Bool) : List (List UInt8 × List UInt8) :=
  [(ascii "info_hash".toList, ih), (ascii "peer_id".toList, pid),
    (ascii "port".toList, Bencode.decimalText listenPort.toNat), (ascii "uploaded".toList, [48]),
    (ascii "downloaded".toList, signedText downloaded), (ascii "left".toList, signedText left),
    (ascii "compact".toList, [49])] ++
  (if startedEvent then [(ascii "event".toList, ascii "started".toList)] else []) ++
  [(ascii "numwant".toList, ascii "200".toList)]

/-- A value that stands for the bytes, and is written with unreserved characters and groups. -/
def StandsFor (value : List UInt8) (bytes : Vector UInt8 20) : Prop :=
  decode value = some bytes.toList ∧ Encoded value

/-- The announce is the URL of the tracker with more parameters, and two of them are the hashes. -/
def Carries (url : CString) (infoHash peerId : Vector UInt8 20) (listenPort : UInt16)
    (downloaded left : Int64) (startedEvent : Bool) (result : List UInt8) : Prop :=
  ∃ ih pid, StandsFor ih infoHash ∧ StandsFor pid peerId ∧
    result = withQuery url.bytes (announceFields ih pid listenPort downloaded left startedEvent) ∧
    parameters result = parameters url.bytes ++ announceFields ih pid listenPort downloaded
    left startedEvent

theorem copied_eq (b : UInt8) : copied b = unreserved b := rfl

theorem percent02X_eq (b : UInt8) : percent02X b = group b := rfl

/-- Nothing is left out where three bytes for each of the hash fit, and one for the loop's check. -/
theorem urlEncodeLoop_eq {outsz : Nat} {out hash : List UInt8}
    (room : out.length + 3 * hash.length + 1 < outsz) :
    urlEncodeLoop outsz out hash = out ++ encode hash := by
  induction hash generalizing out with
  | nil => exact (List.append_nil out).symm
  | cons b rest ih =>
    rw [List.length_cons] at room
    have hroom : out.length + 4 < outsz := by omega
    rw [urlEncodeLoop, if_pos hroom, encode_cons, copied_eq, percent02X_eq]
    by_cases hplain : unreserved b = true
    · rw [if_pos hplain, if_pos hplain,
        ih (by rw [List.length_append, List.length_singleton]; omega), List.append_assoc]
    · have hprinted : (snprintf (outsz - out.length) (group b)).1 = group b := by
        refine List.take_of_length_le ?_
        show 3 ≤ outsz - out.length - 1
        omega
      have hthree : (group b).length = 3 := rfl
      rw [if_neg hplain, if_neg hplain, hprinted, ih (by rw [List.length_append, hthree]; omega),
        List.append_assoc]

/-- Sixty bytes at most, in an array of 64. -/
theorem urlEncodeHash_eq (hash : Vector UInt8 20) :
    urlEncodeHash 64 hash.toList = encode hash.toList := by
  have hlength : hash.toList.length = 20 := Vector.length_toList
  rw [urlEncodeHash, urlEncodeLoop_eq (by rw [hlength]; decide), List.nil_append]

theorem decimalText_clean (n : Nat) : ampersand ∉ Bencode.decimalText n := fun hmem =>
  absurd (Bencode.decimalText_isDigit n _ hmem) (by decide)

theorem signedText_clean (v : Int64) : ampersand ∉ signedText v := by
  rw [signedText]
  split
  · exact List.not_mem_cons_of_ne_of_not_mem (by decide) (decimalText_clean _)
  · exact decimalText_clean _

theorem announceFields_clean {ih pid : List UInt8} (hih : Encoded ih) (hpid : Encoded pid)
    (listenPort : UInt16) (downloaded left : Int64) (startedEvent : Bool) :
    ∀ f ∈ announceFields ih pid listenPort downloaded left startedEvent, Clean f := by
  have hevent : ∀ f ∈ (if startedEvent then [(ascii "event".toList, ascii "started".toList)] else
    []), Clean f := by
    intro f hf
    split at hf
    · rw [List.mem_singleton.mp hf]
      exact clean_pair (by decide) (by decide)
    · cases hf
  intro f hf
  simp only [announceFields, List.mem_append, List.mem_cons, List.not_mem_nil, or_false] at hf
  rcases hf with ((rfl | rfl | rfl | rfl | rfl | rfl | rfl) | hf) | rfl
  · exact clean_pair (by decide) hih.not_ampersand
  · exact clean_pair (by decide) hpid.not_ampersand
  · exact clean_pair (by decide) (decimalText_clean _)
  · exact clean_pair (by decide) (by decide)
  · exact clean_pair (by decide) (signedText_clean downloaded)
  · exact clean_pair (by decide) (signedText_clean left)
  · exact clean_pair (by decide) (by decide)
  · exact hevent f hf
  · exact clean_pair (by decide) (by decide)

/-- The format string writes the parameters one after the other. -/
theorem announceText_eq (url : CString) (ih pid : List UInt8) (listenPort : UInt16)
    (downloaded left : Int64) (startedEvent : Bool) :
    announceText url ih pid listenPort downloaded left startedEvent =
      withQuery url.bytes (announceFields ih pid listenPort downloaded left startedEvent) := by
  cases startedEvent with
  | false =>
    simp only [announceText, announceFields, withQuery, Bool.false_eq_true, if_false,
      List.append_assoc, List.cons_append, List.nil_append, queryText_cons, queryText_single]
    rfl
  | true =>
    simp only [announceText, announceFields, withQuery, if_true, List.append_assoc,
      List.cons_append, List.nil_append, queryText_cons, queryText_single]
    rfl

/-- A URL that is built carries the hashes, byte for byte. -/
theorem announce_carries {outsz : Nat} {url : CString} {infoHash peerId : Vector UInt8 20}
    {listenPort : UInt16} {downloaded left : Int64} {startedEvent : Bool}
    (succeeds : (httpBuildAnnounceUrl outsz url infoHash peerId listenPort downloaded left
    startedEvent).1 = true) : Carries url infoHash peerId listenPort downloaded left startedEvent
      (httpBuildAnnounceUrl outsz url infoHash peerId listenPort downloaded left
        startedEvent).2 := by
  have hih := encoded_encode infoHash.toList
  have hpid := encoded_encode peerId.toList
  have hclean := announceFields_clean hih hpid listenPort downloaded left startedEvent
  simp only [httpBuildAnnounceUrl, snprintf, urlEncodeHash_eq, announceText_eq] at succeeds ⊢
  have hwhole : (withQuery url.bytes (announceFields (encode infoHash.toList) (encode peerId.toList)
    listenPort downloaded
      left startedEvent)).length ≤ outsz - 1 := by
    rw [Bool.and_eq_true, decide_eq_true_iff, decide_eq_true_iff] at succeeds
    split at succeeds
    · omega
    · omega
  rw [List.take_of_length_le hwhole]
  refine ⟨encode infoHash.toList, encode peerId.toList, ⟨decode_encode _, hih⟩,
    ⟨decode_encode _, hpid⟩, rfl, ?_⟩
  exact parameters_withQuery url.bytes hclean
    (List.append_ne_nil_of_right_ne_nil _ (List.cons_ne_nil _ _))

/-- A tracker with a query of its own, and hashes of which every byte takes three. -/
theorem announce_carries_zeros :
    Carries ⟨ascii "http://t/announce?k=1".toList, by decide⟩ (Vector.replicate 20 0)
      (Vector.replicate 20 255) 6881 0 1000
      true (httpBuildAnnounceUrl 1024 ⟨ascii "http://t/announce?k=1".toList, by decide⟩
        (Vector.replicate 20 0) (Vector.replicate 20 255) 6881 0 1000 true).2 :=
  announce_carries (by decide +kernel)

end AnnounceUrl
