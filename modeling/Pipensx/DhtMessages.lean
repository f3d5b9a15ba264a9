import Pipensx.CString
import Pipensx.DhtTable
import Pipensx.NearestFirst
import Pipensx.Occurrence

/-!
# The messages of the DHT

How `core/dht_vendor/dht.c` prints and parses its messages. A draft is what is in the array of a
`send_*` function so far; `none` is `goto fail`. The parser looks for keys anywhere in a datagram.
-/

namespace Dht

open CText

/-- `snprintf(buf + i, size - i, ...); INC(i, rc, size);`. A text that ends with the array loses its
last character to the terminator. -/
def put (size : Nat) (text buf : List UInt8) : Option (List UInt8) :=
  if buf.length + text.length > size then none
  else if buf.length + text.length = size ∧ text ≠ [] then some (buf ++ text.dropLast ++ [0])
  else some (buf ++ text)

/-- `COPY(buf, i, data, len, size);`. -/
def copy (size : Nat) (data buf : List UInt8) : Option (List UInt8) :=
  if buf.length + data.length > size then none else some (buf ++ data)

/-- `%d` of a number that is not negative. -/
def decimal (n : Nat) : List UInt8 := ascii (Nat.toDigits 10 n)

def text (s : String) : List UInt8 := ascii s.toList

/-- `myid`, and `my_v` if there is one. -/
structure Self where
  myid : Id
  myV : Option (Vector UInt8 9)
  deriving DecidableEq

def addV (size : Nat) (s : Self) (buf : List UInt8) : Option (List UInt8) :=
  match s.myV with
  | none => some buf
  | some v => copy size v.toList buf

def want4 : Nat := 1
def want6 : Nat := 2

def wantText (want : Nat) : List UInt8 :=
  text "4:wantl" ++ (if want &&& want4 ≠ 0 then text "2:n4" else []) ++
    (if want &&& want6 ≠ 0 then text "2:n6" else []) ++ text "e"

def pingMessage (s : Self) (tid : List UInt8) : Option (List UInt8) := do
  let buf ← put 512 (text "d1:ad2:id20:") []
  let buf ← copy 512 s.myid.toList buf
  let buf ← put 512 (text "e1:q4:ping1:t" ++ decimal tid.length ++ text ":") buf
  let buf ← copy 512 tid buf
  let buf ← addV 512 s buf
  put 512 (text "1:y1:qe") buf

/-- `send_pong` and `send_peer_announced` print the same. -/
def pongMessage (s : Self) (tid : List UInt8) : Option (List UInt8) := do
  let buf ← put 512 (text "d1:rd2:id20:") []
  let buf ← copy 512 s.myid.toList buf
  let buf ← put 512 (text "e1:t" ++ decimal tid.length ++ text ":") buf
  let buf ← copy 512 tid buf
  let buf ← addV 512 s buf
  put 512 (text "1:y1:re") buf

/-- `send_find_node` and `send_get_peers`, with the key of the id they ask for and the end of the
query. `want` is not above 0 for -1. -/
def queryMessage (key query : String) (s : Self) (tid : List UInt8) (target : Id) (want : Nat) :
    Option (List UInt8) := do
  let buf ← put 512 (text "d1:ad2:id20:") []
  let buf ← copy 512 s.myid.toList buf
  let buf ← put 512 (text key) buf
  let buf ← copy 512 target.toList buf
  let buf ← if want > 0 then put 512 (wantText want) buf else some buf
  let buf ← put 512 (text query ++ decimal tid.length ++ text ":") buf
  let buf ← copy 512 tid buf
  let buf ← addV 512 s buf
  put 512 (text "1:y1:qe") buf

def findNodeMessage : Self → List UInt8 → Id → Nat → Option (List UInt8) :=
  queryMessage "6:target20:" "e1:q9:find_node1:t"

def getPeersMessage : Self → List UInt8 → Id → Nat → Option (List UInt8) :=
  queryMessage "9:info_hash20:" "e1:q9:get_peers1:t"

def announcePeerMessage (s : Self) (tid : List UInt8) (infohash : Id) (port : UInt16)
    (token : List UInt8) : Option (List UInt8) := do
  let buf ← put 512 (text "d1:ad2:id20:") []
  let buf ← copy 512 s.myid.toList buf
  let buf ← put 512 (text "9:info_hash20:") buf
  let buf ← copy 512 infohash.toList buf
  let buf ← put 512 (text "4:porti" ++ decimal port.toNat ++ text "e5:token" ++
    decimal token.length ++ text ":") buf
  let buf ← copy 512 token buf
  let buf ← put 512 (text "e1:q13:announce_peer1:t" ++ decimal tid.length ++ text ":") buf
  let buf ← copy 512 tid buf
  let buf ← addV 512 s buf
  put 512 (text "1:y1:qe") buf

def errorMessage (s : Self) (tid : List UInt8) (code : Nat) (message : String) :
    Option (List UInt8) := do
  let buf ← put 512 (text "d1:eli" ++ decimal code ++ text "e" ++ decimal (text message).length ++
    text ":") []
  let buf ← copy 512 (text message) buf
  let buf ← put 512 (text "e1:t" ++ decimal tid.length ++ text ":") buf
  let buf ← copy 512 tid buf
  let buf ← addV 512 s buf
  put 512 (text "1:y1:ee") buf

/-- A stored peer: the address and the port, in host order. -/
structure Peer where
  time : Int
  ip : Vector UInt8 4
  port : UInt16
  deriving DecidableEq

def Peer.compact (p : Peer) : List UInt8 :=
  p.ip.toList ++ [UInt8.ofNat (p.port.toNat / 256), UInt8.ofNat p.port.toNat]

/-- The slice of at most 50 peers from the index `j0` on, the storage taken as a circle. -/
def peerSlice (peers : List Peer) (j0 : Nat) : List Peer := (peers.drop j0 ++ peers.take j0).take 50

/-- A node in the compact form: the id, the address and the port. -/
structure Contact where
  id : Id
  ss : Endpoint
  deriving DecidableEq

def Contact.bytes (c : Contact) : List UInt8 := c.id.toList ++ c.ss.toList

/-- `peers` has the slice to serve, if any is stored. -/
def nodesPeersMessage (s : Self) (tid : List UInt8) (nodes : List Contact)
    (peers : Option (List Peer)) (token : List UInt8) : Option (List UInt8) := do
  let compact := nodes.flatMap Contact.bytes
  let buf ← put 2048 (text "d1:rd2:id20:") []
  let buf ← copy 2048 s.myid.toList buf
  let buf ← if compact.length > 0 then
      (put 2048 (text "5:nodes" ++ decimal compact.length ++ text ":") buf).bind (copy 2048 compact)
    else some buf
  let buf ← if token.length > 0 then
      (put 2048 (text "5:token" ++ decimal token.length ++ text ":") buf).bind (copy 2048 token)
    else some buf
  let buf ← match peers with
    | none => some buf
    | some slice => do
      let buf ← put 2048 (text "6:valuesl") buf
      let buf ← slice.foldlM (fun buf p => (put 2048 (text "6:") buf).bind (copy 2048 p.compact))
        buf
      put 2048 (text "e") buf
  let buf ← put 2048 (text "e1:t" ++ decimal tid.length ++ text ":") buf
  let buf ← copy 2048 tid buf
  let buf ← addV 2048 s buf
  put 2048 (text "1:y1:re") buf

/-- The two letters and the number in the order of the machine, the lower byte first. -/
def makeTid (letters : String) (seqno : UInt16) : List UInt8 :=
  text letters ++ [UInt8.ofNat seqno.toNat, UInt8.ofNat (seqno.toNat / 256)]

def tidMatch (tid : List UInt8) (letters : String) : Option UInt16 :=
  if tid.take 2 = text letters then
    some (UInt16.ofNat ((tid.getD 2 0).toNat + 256 * (tid.getD 3 0).toNat))
  else none

inductive Kind where
  | error
  | reply
  | ping
  | findNode
  | getPeers
  | announcePeer
  deriving DecidableEq

/-- `struct parsed_message`, each array up to its length. -/
structure Message where
  tid : List UInt8
  id : Id
  infoHash : Id
  target : Id
  port : UInt16
  impliedPort : UInt16
  token : List UInt8
  nodes : List UInt8
  nodes6 : List UInt8
  values : List UInt8
  values6 : List UInt8
  want : Nat
  deriving DecidableEq

def Message.empty : Message := ⟨[], zeroes, zeroes, zeroes, 0, 0, [], [], [], [], [], 0⟩

/-- One step of the parser: an access outside of the datagram with its terminator or of an array,
`goto overflow`, or the message so far. -/
inductive Step (α : Type) where
  | outside
  | overflow
  | next (a : α)
  deriving DecidableEq

def Step.bind {α β : Type} (s : Step α) (f : α → Step β) : Step β :=
  match s with
  | .outside => .outside
  | .overflow => .overflow
  | .next a => f a

/-- `*(buf + pos)`; the datagram has a terminator. -/
def byteAt (buf : List UInt8) (pos : Nat) : Step UInt8 :=
  match (buf ++ [0])[pos]? with
  | none => .outside
  | some b => .next b

/-- `CHECK(buf + pos, len)`, then `memcpy` to the offset `off` of an array of `size` bytes. -/
def take (buf : List UInt8) (pos len off size : Nat) : Step (List UInt8) :=
  if pos + len > buf.length then .overflow
  else if off + len > size ∨ pos + len > (buf ++ [0]).length then .outside
  else .next ((buf.drop pos).take len)

/-- `dht_memmem`: the index of the first occurrence. -/
def memmem (buf needle : List UInt8) : Option Nat := Occurrence.find needle buf

/-- `l = strtol(buf + pos, &q, 10)`: the number, and the index of `q`. -/
def strtolAt (buf : List UInt8) (pos : Nat) : Int × Nat :=
  match strtol ((buf ++ [0]).drop pos) with
  | none => (0, pos)
  | some l =>
    let rest := (skipSign (((buf ++ [0]).drop pos).dropWhile isSpace)).dropWhile isDigit
    (l, buf.length + 1 - rest.length)

/-- An id behind a key. -/
def idField (buf : List UInt8) (key : String) (set : Id → Message → Message) (m : Message) :
    Step Message :=
  match memmem buf (text key) with
  | none => .next m
  | some p => (take buf (p + (text key).length) 20 0 20).bind fun bytes =>
    if h : bytes.length = 20 then .next (set ⟨bytes.toArray, by simpa using h⟩ m) else .outside

/-- A port behind a key. -/
def portField (buf : List UInt8) (key : String) (set : UInt16 → Message → Message) (m : Message) :
    Step Message :=
  match memmem buf (text key) with
  | none => .next m
  | some p =>
    let (l, q) := strtolAt buf (p + (text key).length)
    (byteAt buf q).bind fun c =>
      if c = 101 ∧ 0 < l ∧ l < 0x10000 then .next (set (UInt16.ofNat l.toNat) m) else .next m

/-- A string of at most `most` bytes behind a key, for an array of `size`. -/
def bytesField (buf : List UInt8) (key : String) (most size : Nat)
    (set : List UInt8 → Message → Message) (m : Message) : Step Message :=
  match memmem buf (text key) with
  | none => .next m
  | some p =>
    let (l, q) := strtolAt buf (p + (text key).length)
    (byteAt buf q).bind fun c =>
      if c = 58 ∧ 0 < l ∧ l ≤ most then
        (take buf (q + 1) l.toNat 0 size).bind fun bytes => .next (set bytes m)
      else .next m

/-- The loop over the strings of `values`, with what is in the two arrays. -/
def valuesLoop (buf : List UInt8) : Nat → Nat → List UInt8 → List UInt8 →
    Step (List UInt8 × List UInt8)
  | 0, _, values, values6 => .next (values, values6)
  | fuel + 1, i, values, values6 =>
    let (l, q) := strtolAt buf i
    (byteAt buf q).bind fun c =>
      if c = 58 ∧ 0 < l then
        let next := q + 1 + l.toNat
        if next > buf.length then .overflow
        else if l = 6 then
          if values.length + 6 > 2048 then valuesLoop buf fuel next values values6
          else (take buf (q + 1) 6 values.length 2048).bind fun bytes =>
            valuesLoop buf fuel next (values ++ bytes) values6
        else if l = 18 then
          if values6.length + 18 > 2048 then valuesLoop buf fuel next values values6
          else (take buf (q + 1) 18 values6.length 2048).bind fun bytes =>
            valuesLoop buf fuel next values (values6 ++ bytes)
        else valuesLoop buf fuel next values values6
      else .next (values, values6)

/-- The loop over the flags of `want`. -/
def wantLoop (buf : List UInt8) : Nat → Nat → Nat → Step Nat
  | 0, _, want => .next want
  | fuel + 1, i, want =>
    (byteAt buf i).bind fun c =>
      if 48 < c ∧ c ≤ 57 then
        (byteAt buf (i + 1)).bind fun colon =>
          let len := c.toNat - 48
          if colon = 58 ∧ i + 2 + len < buf.length then
            if i + 2 + len > buf.length then .overflow
            else
              let flag := (buf.drop (i + 2)).take 2
              let want := if c = 50 ∧ flag = text "n4" then want ||| want4
                else if c = 50 ∧ flag = text "n6" then want ||| want6 else want
              wantLoop buf fuel (i + 2 + len) want
          else .next want
      else .next want

def valuesField (buf : List UInt8) (m : Message) : Step Message :=
  match memmem buf (text "6:valuesl") with
  | none => .next m
  | some p => (valuesLoop buf (buf.length + 1) (p + 9) [] []).bind fun (values, values6) =>
    .next { m with values := values, values6 := values6 }

def wantField (buf : List UInt8) (m : Message) : Step Message :=
  match memmem buf (text "4:wantl") with
  | none => .next m
  | some p =>
    (wantLoop buf (buf.length + 1) (p + 7) 0).bind fun want => .next { m with want := want }

def fields (buf : List UInt8) : Step Message :=
  (bytesField buf "1:t" 15 16 (fun b m => { m with tid := b }) .empty).bind fun m =>
  (idField buf "2:id20:" (fun b m => { m with id := b }) m).bind fun m =>
  (idField buf "9:info_hash20:" (fun b m => { m with infoHash := b }) m).bind fun m =>
  (portField buf "4:porti" (fun b m => { m with port := b }) m).bind fun m =>
  (portField buf "12:implied_porti" (fun b m => { m with impliedPort := b }) m).bind fun m =>
  (idField buf "6:target20:" (fun b m => { m with target := b }) m).bind fun m =>
  (bytesField buf "5:token" 127 128 (fun b m => { m with token := b }) m).bind fun m =>
  (bytesField buf "5:nodes" 416 416 (fun b m => { m with nodes := b }) m).bind fun m =>
  (bytesField buf "6:nodes6" 608 608 (fun b m => { m with nodes6 := b }) m).bind fun m =>
  (valuesField buf m).bind (wantField buf)

def kindOf (buf : List UInt8) : Option Kind :=
  let has (s : String) : Bool := (memmem buf (text s)).isSome
  if has "1:y1:r" then some .reply
  else if has "1:y1:e" then some .error
  else if !has "1:y1:q" then none
  else if has "1:q4:ping" then some .ping
  else if has "1:q9:find_node" then some .findNode
  else if has "1:q9:get_peers" then some .getPeers
  else if has "1:q13:announce_peer" then some .announcePeer
  else none

/-- `none` is the result -1. -/
def parseMessage (buf : List UInt8) : Step (Option Kind × Message) :=
  match fields buf with
  | .outside => .outside
  | .overflow => .next (none, .empty)
  | .next m => .next (kindOf buf, m)

end Dht
