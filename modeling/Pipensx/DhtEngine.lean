import Pipensx.DhtMessages
import Pipensx.Sha1

/-!
# The engine of the DHT

The state of `core/dht_vendor/dht.c` and its functions, with the callbacks of `core/dht.c`. A search
is its index in the list, a node its index in a bucket or in a search. `numsearches` and
`numstorage` are the lengths of the lists. What the engine sends and reports is recorded, the
latest first.
-/

namespace Dht

open NearestFirst (Spot spot putAt)

def searchNodes : Nat := 14
def maxPeers : Nat := 2048
def maxHashes : Nat := 16384
def maxSearches : Nat := 1024
def searchExpireTime : Int := 62 * 60
def inflightQueries : Nat := 4
def searchRetransmit : Int := 10
def maxBlacklisted : Nat := 10
def maxTokenBucketTokens : Int := 400
def tokenSize : Nat := 8

structure SearchNode where
  id : Id
  ss : Endpoint
  requestTime : Int
  replyTime : Int
  pinged : Nat
  token : List UInt8
  replied : Bool
  acked : Bool
  deriving DecidableEq

structure Search where
  tid : UInt16
  stepTime : Int
  id : Id
  port : UInt16
  done : Bool
  nodes : List SearchNode
  deriving DecidableEq

structure Storage where
  id : Id
  maxpeers : Nat
  peers : List Peer
  deriving DecidableEq

structure Packet where
  dest : Endpoint
  bytes : List UInt8
  -- `MSG_CONFIRM`
  confirm : Bool
  deriving DecidableEq

inductive Event where
  | values (hash : Id) (data : List UInt8)
  | values6 (hash : Id) (data : List UInt8)
  | searchDone (hash : Id)
  deriving DecidableEq

/-- What is outside: the answers of `random`, of `calloc` and `realloc`, and of `dht_random_bytes`,
call by call, and what a fresh context of SHA-1 on the stack holds. -/
structure World where
  random : Nat → Nat
  granted : Nat → Bool
  randomBytes : Nat → Vector UInt8 8
  stack : Sha1.Sha1Ctx

structure State where
  self : Self
  -- `dht_socket >= 0`
  opened : Bool
  now : Int
  buckets : List Bucket
  searches : List Search
  storage : List Storage
  searchId : UInt16
  searchTime : Int
  confirmNodesTime : Int
  rotateSecretsTime : Int
  mybucketGrowTime : Int
  expireStuffTime : Int
  secret : Vector UInt8 8
  oldsecret : Vector UInt8 8
  blacklist : Vector (Option Endpoint) 10
  nextBlacklisted : Nat
  tokenBucketTime : Int
  tokenBucketTokens : Int
  draws : Nat
  allocs : Nat
  keys : Nat
  sent : List Packet
  events : List Event

/-- The statics before the first `dht_init`. -/
def State.boot : State where
  self := ⟨zeroes, none⟩
  opened := false
  now := 0
  buckets := []
  searches := []
  storage := []
  searchId := 0
  searchTime := 0
  confirmNodesTime := 0
  rotateSecretsTime := 0
  mybucketGrowTime := 0
  expireStuffTime := 0
  secret := Vector.replicate 8 0
  oldsecret := Vector.replicate 8 0
  blacklist := Vector.replicate 10 none
  nextBlacklisted := 0
  tokenBucketTime := 0
  tokenBucketTokens := 0
  draws := 0
  allocs := 0
  keys := 0
  sent := []
  events := []

section Functions

variable (w : World)

/-- `random()`, as an argument of what comes after it. -/
def State.draw (s : State) : Nat × State := (w.random s.draws, { s with draws := s.draws + 1 })

def nodeBlacklisted (s : State) (sa : Endpoint) : Bool := s.blacklist.contains (some sa)

/-- `dht_send`, for a message that was printed. -/
def State.send (s : State) (sa : Endpoint) (message : Option (List UInt8)) (confirm : Bool) :
    State :=
  match message with
  | none => s
  | some bytes =>
    if nodeBlacklisted s sa || !s.opened then s else
      { s with sent := ⟨sa, bytes, confirm⟩ :: s.sent }

def State.report (s : State) (e : Event) : State := { s with events := e :: s.events }

def State.sendPing (s : State) (sa : Endpoint) : State :=
  s.send sa (pingMessage s.self (makeTid "pn" 0)) false

def State.modifyBucket (s : State) (i : Nat) (f : Bucket → Bucket) : State :=
  { s with buckets := s.buckets.modify i f }

def State.modifyNode (s : State) (i j : Nat) (f : Node → Node) : State :=
  s.modifyBucket i fun b => { b with nodes := b.nodes.modify j f }

def State.node? (s : State) (i j : Nat) : Option Node := s.buckets[i]?.bind fun b => b.nodes[j]?

def sendCachedPing (s : State) (i : Nat) : State :=
  match s.buckets[i]?.bind Bucket.cached with
  | none => s
  | some sa => (s.sendPing sa).modifyBucket i fun b => { b with cached := none }

/-- `b` is `none` for `NULL`. -/
def pinged (s : State) (i j : Nat) (b : Option Nat) : State :=
  match s.node? i j with
  | none => s
  | some n =>
    let s := s.modifyNode i j fun n => { n with pinged := n.pinged + 1, pingedTime := s.now }
    if n.pinged + 1 ≥ 3 then
      match b.or (findBucket n.id s.buckets) with
      | none => s
      | some i => sendCachedPing s i
    else s

/-- `n = find_node(id, ...); if(n) pinged(n, NULL);`. -/
def pingedId (s : State) (id : Id) : State :=
  match findNode id s.buckets with
  | none => s
  | some (i, j) => pinged s i j none

/-- The loop of `blacklist_node` over the nodes of a search: what moves into the place of a node
that is discarded is not looked at. -/
def flushNodes (id : Id) : List SearchNode → List SearchNode
  | [] => []
  | n :: rest =>
    if idCmp n.id id == 0 then
      match rest with
      | [] => []
      | next :: rest => next :: flushNodes id rest
    else n :: flushNodes id rest

def blacklistNode (s : State) (id : Id) (sa : Endpoint) : State :=
  let s := match findNode id s.buckets with
    | none => s
    | some (i, j) => pinged (s.modifyNode i j fun n => { n with pinged := 3 }) i j none
  { s with
    searches := s.searches.map fun sr => { sr with nodes := flushNodes id sr.nodes }
    blacklist := s.blacklist.set! s.nextBlacklisted (some sa)
    nextBlacklisted := (s.nextBlacklisted + 1) % maxBlacklisted }

/-- `split_bucket_helper`: the nodes to insert again, or -1. -/
def splitBucketHelper (s : State) (i : Nat) : Option (List Node) × State :=
  match s.buckets[i]? with
  | none => (none, s)
  | some b =>
    if !inBucket s.self.myid s.buckets i then (none, s)
    else match bucketMiddle s.buckets i b with
      | none => (none, s)
      | some newId =>
        let granted := w.granted s.allocs
        let s := { s with allocs := s.allocs + 1 }
        if !granted then (none, s)
        else
          let s := sendCachedPing s i
          (some b.nodes, { s with buckets := splitAt s.self.myid s.buckets i b newId })

/-- The loop of `split_bucket`: the nodes that wait, the current one first. What is left of them
when the fuel is used up is the second result. -/
def splitLoop : Nat → State → List Node → State × List Node
  | _, s, [] => (s, [])
  | 0, s, waiting => (s, waiting)
  | fuel + 1, s, n :: nodes =>
    match insertNode n s.buckets with
    | .noTable => splitLoop fuel s nodes
    | .done bs => splitLoop fuel { s with buckets := bs } nodes
    | .full i =>
      if !inBucket s.self.myid s.buckets i then splitLoop fuel s nodes
      else match splitBucketHelper w s i with
        | (none, s) => splitLoop fuel s nodes
        | (some insert, s) => splitLoop fuel s (n :: (nodes ++ insert))

/-- `split_bucket`; the result is false for -1. -/
def splitBucket (s : State) (i : Nat) : Bool × State :=
  match splitBucketHelper w s i with
  | (none, s) => (false, s)
  | (some nodes, s) => (true, (splitLoop w (160 * (nodes.length + 1)) s nodes).1)

def State.modifySearch (s : State) (k : Nat) (f : Search → Search) : State :=
  { s with searches := s.searches.modify k f }

def State.searchNode? (s : State) (k i : Nat) : Option SearchNode :=
  s.searches[k]?.bind fun sr => sr.nodes[i]?

def State.modifySearchNode (s : State) (k i : Nat) (f : SearchNode → SearchNode) : State :=
  s.modifySearch k fun sr => { sr with nodes := sr.nodes.modify i f }

def findSearch (s : State) (tid : UInt16) : Option Nat :=
  s.searches.findIdx? (fun sr => sr.tid == tid)

/-- What `insert_search_node` writes into the node it has found or made. -/
def learned (now : Int) (sa : Endpoint) (replied : Bool) (token : Option (List UInt8))
    (n : SearchNode) : SearchNode :=
  let n := { n with ss := sa }
  let n := if replied then { n with replied := true, replyTime := now, requestTime := 0,
                                    pinged := 0 } else n
  match token with
  | none => n
  | some token => if token.length ≥ 40 then n else { n with token := token }

def SearchNode.blank (id : Id) (sa : Endpoint) : SearchNode := ⟨id, sa, 0, 0, 0, [], false, false⟩

/-- `insert_search_node`: the place of the node in the search, or `NULL`. -/
def insertSearchNode (s : State) (id : Id) (sa : Endpoint) (k : Nat) (replied : Bool)
    (token : Option (List UInt8)) : Option Nat × State :=
  match s.searches[k]? with
  | none => (none, s)
  | some sr =>
    match spot (fun n => idCmp id n.id == 0) (fun n => xorcmp id n.id sr.id < 0) sr.nodes with
    | .found i => (some i, s.modifySearchNode k i (learned s.now sa replied token))
    | .free i =>
      if i = searchNodes then (none, s)
      else
        let s := s.modifySearch k fun sr =>
          { sr with nodes := putAt searchNodes i (SearchNode.blank id sa) sr.nodes }
        (some i, s.modifySearchNode k i (learned s.now sa replied token))

/-- `expire_searches` -/
def expireSearches (s : State) : State :=
  let expired (sr : Search) : Bool := sr.stepTime < s.now - searchExpireTime
  let events := (s.searches.filter fun sr => expired sr && !sr.done).map fun sr =>
    Event.searchDone sr.id
  { s with
    searches := s.searches.filter fun sr => !expired sr
    events := events.reverse ++ s.events }

def awaits (now : Int) (n : SearchNode) : Bool :=
  n.pinged < 3 && !n.replied && n.requestTime < now - searchRetransmit

/-- `search_send_get_peers`. Without a node it takes the last one that may be asked. -/
def searchSendGetPeers (s : State) (k : Nat) (given : Option Nat) : Nat × State :=
  match s.searches[k]? with
  | none => (0, s)
  | some sr =>
    let chosen := match given with
      | some i => some i
      | none => downFrom (fun i => (sr.nodes[i]?.map (awaits s.now)).getD false) sr.nodes.length
    match chosen.bind fun i => sr.nodes[i]?.map fun n => (i, n) with
    | none => (0, s)
    | some (i, n) =>
      if !awaits s.now n then (0, s)
      else
        let s := s.send n.ss (getPeersMessage s.self (makeTid "gp" sr.tid) sr.id 0)
          (n.replyTime ≥ s.now - searchRetransmit)
        let s := s.modifySearchNode k i fun n =>
          { n with pinged := n.pinged + 1, requestTime := s.now }
        (1, pingedId s n.id)

/-- `add_search_node` -/
def addSearchNode (s : State) (id : Id) (sa : Endpoint) : State :=
  (List.range s.searches.length).foldl (fun s k =>
    if (s.searches[k]?.map fun sr => sr.nodes.length).getD searchNodes < searchNodes then
      match insertSearchNode s id sa k false none with
      | (none, s) => s
      | (some i, s) => (searchSendGetPeers s k (some i)).2
    else s) s

/-- Have the first `left` live nodes replied? -/
def allReplied : Nat → List SearchNode → Bool
  | 0, _ => true
  | _, [] => true
  | left + 1, n :: rest =>
    if n.pinged ≥ 3 then allReplied (left + 1) rest else n.replied && allReplied left rest

/-- The loop that announces, from the node `i` on, with `left` live nodes to go. The flag says
whether all have acknowledged. -/
def announceLoop (k : Nat) : Nat → Nat → Nat → State → Bool → Bool × State
  | 0, _, _, s, acked => (acked, s)
  | _, _, 0, s, acked => (acked, s)
  | rest + 1, i, left + 1, s, acked =>
    match s.searches[k]?, s.searchNode? k i with
    | some sr, some n =>
      if n.pinged ≥ 3 then announceLoop k rest (i + 1) (left + 1) s acked
      else if n.token = [] then
        announceLoop k rest (i + 1) left (s.modifySearchNode k i fun n =>
          { n with acked := true }) acked
      else if n.acked then announceLoop k rest (i + 1) left s acked
      else
        let s := s.send n.ss (announcePeerMessage s.self (makeTid "ap" sr.tid) sr.id
          sr.port n.token) (!(n.replyTime ≥ s.now - 15))
        let s := s.modifySearchNode k i fun n =>
          { n with pinged := n.pinged + 1, requestTime := s.now }
        announceLoop k rest (i + 1) left (pingedId s n.id) false
    | _, _ => (acked, s)

/-- The loop that asks, with `left` nodes to go and at most 4 queries. -/
def queryLoop (k : Nat) : Nat → Nat → Nat → State → State
  | 0, _, _, s => s
  | left + 1, i, j, s =>
    let (asked, s) := searchSendGetPeers s k (some i)
    if j + asked ≥ inflightQueries then s else queryLoop k left (i + 1) (j + asked) s

def searchDone (s : State) (k : Nat) (hash : Id) : State :=
  ((s.modifySearch k fun sr => { sr with done := true }).report (.searchDone hash)).modifySearch k
    fun sr => { sr with stepTime := s.now }

/-- `search_step` -/
def searchStep (s : State) (k : Nat) : State :=
  match s.searches[k]? with
  | none => s
  | some sr =>
    if allReplied 8 sr.nodes then
      if sr.port = 0 then searchDone s k sr.id
      else
        let (acked, s) := announceLoop k sr.nodes.length 0 8 s true
        if acked then searchDone s k sr.id else s.modifySearch k fun sr =>
          { sr with stepTime := s.now }
    else if sr.stepTime + searchRetransmit ≥ s.now then s
    else (queryLoop k sr.nodes.length 0 0 s).modifySearch k fun sr => { sr with stepTime := s.now }

/-- The first done search with the least `step_time`. -/
def oldestDone (searches : List Search) : Option Nat :=
  (List.range searches.length).foldl (fun oldest k =>
    match searches[k]? with
    | none => oldest
    | some sr =>
      if !sr.done then oldest
      else match oldest.bind fun o => searches[o]? with
        | none => some k
        | some best => if best.stepTime > sr.stepTime then some k else oldest) none

/-- `new_search`: the slot, an old one or a fresh one at the head. -/
def newSearch (s : State) : Option Nat × State :=
  let oldest := oldestDone s.searches
  let stepTime := (oldest.bind fun o => s.searches[o]?).map Search.stepTime
  if (stepTime.map fun t => decide (t < s.now - searchExpireTime)).getD false then (oldest, s)
  else
    let (granted, s) :=
      if s.searches.length < maxSearches then
        (w.granted s.allocs, { s with allocs := s.allocs + 1 })
      else (false, s)
    if granted then (some 0, { s with searches := ⟨0, 0, zeroes, 0, false, []⟩ :: s.searches })
    else (oldest, s)

/-- `insert_search_bucket` -/
def insertSearchBucket (s : State) (i : Nat) (k : Nat) : State :=
  ((s.buckets[i]?.map Bucket.nodes).getD []).foldl
    (fun s n => (insertSearchNode s n.id n.ss k false none).2) s

def findStorage (id : Id) (storage : List Storage) : Option Nat :=
  storage.findIdx? (fun st => idCmp id st.id == 0)

/-- The address, and the port in host order. -/
def ipOf (sa : Endpoint) : Vector UInt8 4 := #v[sa.get 0, sa.get 1, sa.get 2, sa.get 3]
def portOf (sa : Endpoint) : UInt16 := UInt16.ofNat ((sa.get 4).toNat * 256 + (sa.get 5).toNat)

/-- The peer in a storage, refreshed or added. `granted n` is what the allocation number `n` gets;
the last result is the number of the next one. -/
def storePeer (now : Int) (granted : Nat → Bool) (allocs : Nat) (st : Storage) (ip : Vector UInt8 4)
    (port : UInt16) : Int × Storage × Nat :=
  match st.peers.findIdx? (fun p => p.port == port && p.ip == ip) with
  | some i => (0, { st with peers := st.peers.modify i fun p => { p with time := now } }, allocs)
  | none =>
    if st.peers.length ≥ st.maxpeers then
      if st.maxpeers ≥ maxPeers then (0, st, allocs)
      else if !granted allocs then (-1, st, allocs + 1)
      else
        let n := min (if st.maxpeers = 0 then 2 else 2 * st.maxpeers) maxPeers
        (1, ⟨st.id, n, st.peers ++ [⟨now, ip, port⟩]⟩, allocs + 1)
    else (1, { st with peers := st.peers ++ [⟨now, ip, port⟩] }, allocs)

/-- `storage_store` -/
def storageStore (s : State) (id : Id) (sa : Endpoint) (port : UInt16) : Int × State :=
  let found : Option Nat × State := match findStorage id s.storage with
    | some k => (some k, s)
    | none =>
      if s.storage.length ≥ maxHashes then (none, s)
      else
        let granted := w.granted s.allocs
        let s := { s with allocs := s.allocs + 1 }
        if granted then (some 0, { s with storage := ⟨id, 0, []⟩ :: s.storage }) else (none, s)
  match found with
  | (none, s) => (-1, s)
  | (some k, s) =>
    match s.storage[k]? with
    | none => (-1, s)
    | some st =>
      let (result, stored, allocs) := storePeer s.now w.granted s.allocs st (ipOf sa) port
      (result, { s with storage := s.storage.set k stored, allocs := allocs })

/-- The loop over the peers of one storage, from the index `i` on: the last one takes the place of
one that has expired. -/
def expirePeers (now : Int) : Nat → Nat → List Peer → List Peer
  | 0, _, peers => peers
  | fuel + 1, i, peers =>
    match peers[i]?, peers.getLast? with
    | some p, some last =>
      if p.time < now - 32 * 60 then expirePeers now fuel i ((peers.set i last).dropLast)
      else expirePeers now fuel (i + 1) peers
    | _, _ => peers

/-- `expire_storage` -/
def expireStorage (s : State) : State :=
  { s with
    storage := (s.storage.map fun st =>
      { st with peers := expirePeers s.now st.peers.length 0 st.peers }).filter
      fun st => st.peers.length ≠ 0 }

/-- `dht_hash` -/
def dhtHash (size : Nat) (v1 v2 v3 : List UInt8) : List UInt8 :=
  let update (ctx : Sha1.Sha1Ctx) (v : List UInt8) := if v = [] then ctx else Sha1.sha1Update ctx v
  (Sha1.sha1Final (update (update (update (Sha1.sha1Init w.stack) v1) v2) v3)).take (min size 20)

/-- `make_token` with the secret. The port is in host order, its lower byte first in memory. -/
def makeToken (secret : Vector UInt8 8) (sa : Endpoint) : List UInt8 :=
  dhtHash w tokenSize secret.toList (ipOf sa).toList [sa.get 5, sa.get 4]

def tokenMatch (s : State) (token : List UInt8) (sa : Endpoint) : Bool :=
  if token.length ≠ tokenSize then false
  else makeToken w s.secret sa == token || makeToken w s.oldsecret sa == token

/-- `rotate_secrets` -/
def rotateSecrets (s : State) : State :=
  let (r, s) := s.draw w
  { s with
    rotateSecretsTime := s.now + 900 + r % 1800
    oldsecret := s.secret
    secret := w.randomBytes s.keys
    keys := s.keys + 1 }

/-- `token_bucket` -/
def tokenBucket (s : State) : Bool × State :=
  let s := if s.tokenBucketTokens = 0 then
      { s with
        tokenBucketTokens := min maxTokenBucketTokens (100 * (s.now - s.tokenBucketTime))
        tokenBucketTime := s.now }
    else s
  if s.tokenBucketTokens = 0 then (false, s)
  else (true, { s with tokenBucketTokens := s.tokenBucketTokens - 1 })

inductive Round where
  | again
  | returned (known : Bool)
  deriving DecidableEq

/-- The ping of a dubious node in a full bucket: whether there is one, and the first that was not
pinged in the last 15 seconds. -/
def pingDubious (s : State) (i : Nat) (b : Bucket) : Bool × State :=
  let dubious := b.nodes.any fun n => !nodeGood s.now n
  match b.nodes.findIdx? (fun n => !nodeGood s.now n && n.pingedTime < s.now - 15) with
  | none => (dubious, s)
  | some j =>
    match b.nodes[j]? with
    | none => (dubious, s)
    | some n => (dubious, (s.sendPing n.ss).modifyNode i j fun n =>
        { n with pinged := n.pinged + 1, pingedTime := s.now })

/-- The fields of a node we have just learnt about. -/
def freshNode (now : Int) (id : Id) (sa : Endpoint) (confirm : Nat) : Node :=
  ⟨id, sa, if confirm ≠ 0 then now else 0, if confirm ≥ 2 then now else 0, 0, 0⟩

/-- The fields of a known node after a message. `sslen` is the same for all. -/
def heardFrom (now : Int) (sa : Endpoint) (confirm : Nat) (n : Node) : Node :=
  if confirm ≠ 0 ∨ n.time < now - 15 * 60 then
    let n := { n with ss := sa }
    let n := if confirm ≠ 0 then { n with time := now } else n
    if confirm ≥ 2 then { n with replyTime := now, pinged := 0, pingedTime := 0 } else n
  else n

/-- What `new_node` does behind its label, up to `goto again`. -/
def newNodeRound (s : State) (id : Id) (sa : Endpoint) (confirm : Nat) : Round × State :=
  match findBucket id s.buckets with
  | none => (.returned false, s)
  | some i =>
    if idCmp id s.self.myid == 0 then (.returned false, s)
    else if isMartian sa || nodeBlacklisted s sa then (.returned false, s)
    else
      let mybucket := inBucket s.self.myid s.buckets i
      let s := if confirm = 2 then s.modifyBucket i fun b => { b with time := s.now } else s
      let tell (s : State) : State := if confirm = 2 then addSearchNode s id sa else s
      match s.buckets[i]? with
      | none => (.returned false, s)
      | some b =>
        match b.nodes.findIdx? (fun n => idCmp n.id id == 0) with
        | some j => (.returned true, tell (s.modifyNode i j (heardFrom s.now sa confirm)))
        | none =>
          let s := if mybucket then { s with mybucketGrowTime := s.now } else s
          match b.nodes.findIdx? (fun n => n.pinged ≥ 3 && n.pingedTime < s.now - 15) with
          | some j =>
            (.returned true, tell (s.modifyNode i j fun _ => freshNode s.now id sa confirm))
          | none =>
            if b.count ≥ b.maxCount then
              let (dubious, s) := pingDubious s i b
              if mybucket && !dubious then
                match splitBucket w s i with
                | (true, s) => (.again, s)
                | (false, s) => (.returned false, s)
              else
                let s := s.modifyBucket i fun b =>
                  if confirm ≠ 0 || b.cached == none then { b with cached := some sa } else b
                (.returned false, tell s)
            else
              let granted := w.granted s.allocs
              let s := { s with allocs := s.allocs + 1 }
              if !granted then (.returned false, s)
              else
                let s := s.modifyBucket i fun b =>
                  { b with nodes := freshNode s.now id sa confirm :: b.nodes, count := b.count + 1 }
                (.returned true, tell s)

/-- `goto again`: `none` when the fuel is used up. -/
def newNodeLoop (id : Id) (sa : Endpoint) (confirm : Nat) : Nat → State → Option Bool × State
  | 0, s => (none, s)
  | fuel + 1, s =>
    match newNodeRound w s id sa confirm with
    | (.again, s) => newNodeLoop id sa confirm fuel s
    | (.returned known, s) => (some known, s)

/-- `new_node`; a bucket is split at most 160 times. -/
def newNode (s : State) (id : Id) (sa : Endpoint) (confirm : Nat) : State :=
  (newNodeLoop w id sa confirm 161 s).2

/-- `expire_buckets`; the loop of one bucket drops every node pinged four times. -/
def expireBuckets (s : State) : State :=
  let s := (List.range s.buckets.length).foldl (fun s i =>
    match s.buckets[i]? with
    | none => s
    | some b =>
      let dropped := (b.nodes.filter fun n => n.pinged ≥ 4).length
      let s := s.modifyBucket i fun b =>
        { b with nodes := b.nodes.filter fun n => !(n.pinged ≥ 4), count := b.count - dropped }
      if dropped ≠ 0 then sendCachedPing s i else s) s
  let (r, s) := s.draw w
  { s with expireStuffTime := s.now + 120 + r % 240 }

def insertClosestNode (target : Id) (nodes : List Contact) (n : Node) : List Contact :=
  match spot (fun c => idCmp n.id c.id == 0) (fun c => xorcmp n.id c.id target < 0) nodes with
  | .found _ => nodes
  | .free i => if i = 8 then nodes else putAt 8 i ⟨n.id, n.ss⟩ nodes

def bufferClosestNodes (now : Int) (target : Id) (nodes : List Contact) (b : Option Bucket) :
    List Contact :=
  ((b.map Bucket.nodes).getD []).foldl
    (fun nodes n => if nodeGood now n then insertClosestNode target nodes n else nodes) nodes

/-- What `send_closest_nodes` finds in the table. -/
def closestNodes (now : Int) (bs : List Bucket) (target : Id) : List Contact :=
  match findBucket target bs with
  | none => []
  | some i =>
    let nodes := bufferClosestNodes now target [] bs[i]?
    let nodes := bufferClosestNodes now target nodes bs[i + 1]?
    bufferClosestNodes now target nodes ((previousBucket i).bind fun p => bs[p]?)

/-- `send_closest_nodes`; `st` has the peers to serve, if any. -/
def sendClosestNodes (s : State) (sa : Endpoint) (tid : List UInt8) (id : Id) (want : Nat)
    (st : Option (List Peer)) (token : List UInt8) : State :=
  let want := if want = 0 then want4 else want
  let nodes := if want &&& want4 ≠ 0 then closestNodes s.now s.buckets id else []
  match st with
  | none => s.send sa (nodesPeersMessage s.self tid nodes none token) false
  | some peers =>
    let (r, s) := s.draw w
    s.send sa
      (nodesPeersMessage s.self tid nodes (some (peerSlice peers (r % peers.length))) token) false

/-- The nodes of an old search that is used again. -/
def refreshed (now : Int) (nodes : List SearchNode) : List SearchNode :=
  -- `goto again` after each node it discards: what was reset before stays as it is
  (nodes.filter fun n => !(n.pinged ≥ 3 || n.replyTime < now - 7200)).map fun n =>
    { n with pinged := 0, token := [], replied := false, acked := false }

/-- The peers that are stored here for `id`. -/
def reportStored (s : State) (id : Id) : State :=
  match (findStorage id s.storage).bind fun k => s.storage[k]? with
  | none => s
  | some st => st.peers.foldl (fun s p => s.report (.values id p.compact)) s

/-- The search for `id`: the old one, or a new one. -/
def searchFor (s : State) (id : Id) : Option Nat × State :=
  match s.searches.findIdx? (fun sr : Search => idCmp sr.id id == 0) with
  | some k =>
    (some k, s.modifySearch k fun sr =>
      { sr with done := false, nodes := refreshed s.now sr.nodes })
  | none =>
    match newSearch w s with
    | (none, s) => (none, s)
    | (some k, s) =>
      let s := s.modifySearch k fun sr => ⟨s.searchId, 0, id, sr.port, false, []⟩
      (some k, { s with searchId := s.searchId + 1 })

def searchRoom (s : State) (k : Nat) : Bool :=
  (s.searches[k]?.map fun sr => decide (sr.nodes.length < searchNodes)).getD false

/-- The first nodes of a search: those of the bucket `b`, and if there is room those around it and
those of our own bucket. -/
def fillSearch (s : State) (b k : Nat) : State :=
  let s := insertSearchBucket s b k
  let s := if searchRoom s k then
      let s := if b + 1 < s.buckets.length then insertSearchBucket s (b + 1) k else s
      match previousBucket b with
      | none => s
      | some p => insertSearchBucket s p k
    else s
  if searchRoom s k then
    match findBucket s.self.myid s.buckets with
    | none => s
    | some own => insertSearchBucket s own k
  else s

/-- `dht_search`, with a callback. -/
def dhtSearch (s : State) (id : Id) (port : UInt16) : Int × State :=
  match findBucket id s.buckets with
  | none => (-1, s)
  | some b =>
    let s := reportStored s id
    let old := s.searches.find? fun sr => idCmp sr.id id == 0
    let duplicate := (old.map fun sr => !sr.done).getD false
    match searchFor w s id with
    | (none, s) => (-1, s)
    | (some k, s) =>
      let s := s.modifySearch k fun sr => { sr with port := port }
      let s := searchStep (fillSearch s b k) k
      (if duplicate then 0 else 1, { s with searchTime := s.now })

/-- `dht_ping_node` -/
def dhtPingNode (s : State) (sa : Endpoint) : State := s.sendPing sa

/-- `dht_insert_node` -/
def dhtInsertNode (s : State) (id : Id) (sa : Endpoint) : State := newNode w s id sa 0

/-- What `dht_get_nodes` puts into an array of `num` addresses: first our own bucket. -/
def dhtGetNodes (s : State) (num : Nat) : List Endpoint :=
  let good (b : Bucket) : List Endpoint := (b.nodes.filter (nodeGood s.now)).map Node.ss
  match findBucket s.self.myid s.buckets with
  | none => []
  | some own =>
    let mine := ((s.buckets[own]?).map good).getD []
    let others := (List.range s.buckets.length).flatMap fun i =>
      if inBucket s.self.myid s.buckets i then [] else ((s.buckets[i]?).map good).getD []
    (mine ++ others).take num

/-- The counts of `dht_nodes` that the glue asks for: good and dubious nodes. -/
def dhtNodes (s : State) : Nat × Nat :=
  let nodes := s.buckets.flatMap Bucket.nodes
  ((nodes.filter (nodeGood s.now)).length, (nodes.filter fun n => !nodeGood s.now n).length)

/-- What `dht_init` sets up once it has its bucket. `v` is the text of the version. -/
def started (s : State) (now : Int) (id : Id) (v : Vector UInt8 4) : State :=
  let (r1, s) := { s with
      buckets := [⟨zeroes, 0, 128, 0, [], none⟩]
      self := ⟨id, some ((#v[49, 58, 118, 52, 58] : Vector UInt8 5) ++ v)⟩
      now := now
      mybucketGrowTime := now }.draw w
  let (r2, s) := { s with confirmNodesTime := now + r1 % 3 }.draw w
  let s := { s with
    searchId := UInt16.ofNat (r2 &&& 0xFFFF)
    searchTime := 0
    nextBlacklisted := 0
    tokenBucketTime := now
    tokenBucketTokens := maxTokenBucketTokens
    secret := Vector.replicate 8 0 }
  { rotateSecrets w s with opened := true }

/-- `dht_init` for a socket of IPv4 alone. -/
def dhtInit (s : State) (now : Int) (id : Id) (v : Vector UInt8 4) : Bool × State :=
  if s.opened || s.buckets ≠ [] then (false, s)
  else
    let granted := w.granted s.allocs
    let s := { s with searches := [], storage := [], allocs := s.allocs + 1 }
    if !granted then (false, s)
    else
      -- `expire_buckets(buckets6)` draws once more
      let s := expireBuckets w (started w s now id v)
      let (r, s) := s.draw w
      (true, { s with expireStuffTime := s.now + 120 + r % 240 })

/-- `dht_uninit` -/
def dhtUninit (s : State) : State :=
  if !s.opened then s else { s with opened := false, buckets := [], storage := [], searches := [] }

/-- `always || (random() & 7) == 0`. -/
def sometimes (s : State) (always : Bool) : Bool × State :=
  if always then (true, s)
  else
    let (r, s) := s.draw w
    (decide (r &&& 7 = 0), s)

/-- The bucket to ask for nodes of the bucket `i`: it, or at times a neighbour. -/
def pickBucket (s : State) (i : Nat) : Nat × State :=
  let count (i : Nat) : Nat := (s.buckets[i]?.map Bucket.count).getD 0
  let (next, s) := if i + 1 < s.buckets.length then sometimes w s (count i = 0) else (false, s)
  let q := if next then i + 1 else i
  let (back, s) := sometimes w s (count q = 0)
  match previousBucket i with
  | some p => if back && count p > 0 then (p, s) else (q, s)
  | none => (q, s)

/-- `n = random_node(q); if(n) ...`: a query to a random node of a bucket, if it has one. -/
def askRandomNode (s : State) (q : Nat) (id : Id) : Bool × State :=
  match s.buckets[q]? with
  | none => (false, s)
  | some b =>
    if b.count = 0 then (false, s)
    else
      let (r, s) := s.draw w
      match (randomNode r b).bind fun j => b.nodes[j]?.map fun n => (j, n) with
      | none => (false, s)
      | some (j, n) =>
        let s := s.send n.ss (findNodeMessage s.self (makeTid "fn" 0) id 0)
          (n.replyTime ≥ s.now - 15)
        (true, pinged s q j (some q))

/-- `neighbourhood_maintenance` -/
def neighbourhoodMaintenance (s : State) : Bool × State :=
  match findBucket s.self.myid s.buckets with
  | none => (false, s)
  | some b =>
    let (r, s) := s.draw w
    let id := s.self.myid.set! 19 (UInt8.ofNat (r &&& 0xFF))
    let (q, s) := pickBucket w s b
    (true, (askRandomNode w s q id).2)

/-- The loop of `bucket_maintenance`, from the bucket `i` on. -/
def bucketMaintenanceLoop : Nat → Nat → State → Bool × State
  | 0, _, s => (false, s)
  | left + 1, i, s =>
    match s.buckets[i]? with
    | none => (false, s)
    | some b =>
      let timeout : Int := max (600 / ((b.maxCount / 8 : Nat) : Int)) 30
      if b.time < s.now - timeout then
        let (id, draws) := bucketRandom w.random s.draws s.buckets i b
        let (q, s) := pickBucket w { s with draws := draws } i
        match askRandomNode w s q id with
        | (true, s) => (true, s)
        | (false, s) => bucketMaintenanceLoop left (i + 1) s
      else bucketMaintenanceLoop left (i + 1) s

/-- `bucket_maintenance` -/
def bucketMaintenance (s : State) : Bool × State := bucketMaintenanceLoop w s.buckets.length 0 s

/-- The nodes of a reply. Those of IPv6 find no table. -/
def contacts (nodes : List UInt8) : List Contact :=
  (List.range (nodes.length / 26)).map fun i =>
    let ni := (nodes.drop (26 * i)).take 26
    ⟨Vector.ofFn fun k : Fin 20 => ni.getD k 0, Vector.ofFn fun k : Fin 6 => ni.getD (20 + k) 0⟩

/-- One node of a reply. -/
def heardOf (sr : Option Nat) (s : State) (c : Contact) : State :=
  if idCmp c.id s.self.myid == 0 then s
  else
    let s := newNode w s c.id c.ss 0
    match sr with
    | none => s
    | some k => (insertSearchNode s c.id c.ss k false none).2

/-- A reply to `find_node` (`gp` is `none`) or to `get_peers`, with the number of its search. -/
def handleNodes (s : State) (sa : Endpoint) (m : Message) (gp : Option UInt16) : State :=
  let sr := gp.bind (findSearch s)
  let s :=
    if m.nodes.length % 26 ≠ 0 ∨ m.nodes6.length % 38 ≠ 0 then blacklistNode s m.id sa
    else if gp.isSome ∧ sr = none then newNode w s m.id sa 1
    else
      let s := newNode w s m.id sa 2
      let s := (contacts m.nodes).foldl (heardOf w sr) s
      match sr with
      | none => s
      | some k => (searchSendGetPeers s k none).2
  match sr with
  | none => s
  | some k =>
    let s := (insertSearchNode s m.id sa k true (some m.token)).2
    match s.searches[k]? with
    | none => s
    | some sr =>
      let s := if m.values.length > 0 then s.report (.values sr.id m.values) else s
      if m.values6.length > 0 then s.report (.values6 sr.id m.values6) else s

/-- A reply to `announce_peer`. -/
def handleAnnounced (s : State) (sa : Endpoint) (m : Message) (tid : UInt16) : State :=
  match findSearch s tid with
  | none => newNode w s m.id sa 1
  | some k =>
    let s := newNode w s m.id sa 2
    let s := match (s.searches[k]?).bind fun sr =>
      sr.nodes.findIdx? (fun n => idCmp n.id m.id == 0) with
      | none => s
      | some i => s.modifySearchNode k i fun n =>
          { n with requestTime := 0, replyTime := s.now, acked := true, pinged := 0 }
    (searchSendGetPeers s k none).2

def handleReply (s : State) (sa : Endpoint) (m : Message) : State :=
  if m.tid.length ≠ 4 then blacklistNode s m.id sa
  else if (tidMatch m.tid "pn").isSome then newNode w s m.id sa 2
  else if (tidMatch m.tid "fn").isSome || (tidMatch m.tid "gp").isSome then
    handleNodes w s sa m (tidMatch m.tid "gp")
  else match tidMatch m.tid "ap" with
    | some tid => handleAnnounced w s sa m tid
    | none => s

def handleGetPeers (s : State) (sa : Endpoint) (m : Message) : State :=
  let s := newNode w s m.id sa 1
  if idCmp m.infoHash zeroes == 0 then
    s.send sa (errorMessage s.self m.tid 203 "Get_peers with no info_hash") false
  else
    let token := makeToken w s.secret sa
    match ((findStorage m.infoHash s.storage).bind fun k => s.storage[k]?).map Storage.peers with
    | some (p :: peers) => sendClosestNodes w s sa m.tid m.infoHash m.want (some (p :: peers)) token
    | _ => sendClosestNodes w s sa m.tid m.infoHash m.want none token

/-- The port of an announcement. -/
def announcedPort (sa : Endpoint) (m : Message) : UInt16 :=
  if m.impliedPort ≠ 0 then portOf sa else m.port

def handleAnnouncePeer (s : State) (sa : Endpoint) (m : Message) : State :=
  let s := newNode w s m.id sa 1
  if idCmp m.infoHash zeroes == 0 then
    s.send sa (errorMessage s.self m.tid 203 "Announce_peer with no info_hash") false
  else if !tokenMatch w s m.token sa then
    s.send sa (errorMessage s.self m.tid 203 "Announce_peer with wrong token") false
  else if announcedPort sa m = 0 then
    s.send sa (errorMessage s.self m.tid 203 "Announce_peer with forbidden port number") false
  else
    let s := (storageStore w s m.infoHash sa (announcedPort sa m)).2
    s.send sa (pongMessage s.self m.tid) false

def handle (s : State) (sa : Endpoint) (m : Message) : Kind → State
  | .error => s
  | .reply => handleReply w s sa m
  | .ping =>
    let s := newNode w s m.id sa 1
    s.send sa (pongMessage s.self m.tid) false
  | .findNode =>
    let s := newNode w s m.id sa 1
    sendClosestNodes w s sa m.tid m.target m.want none []
  | .getPeers => handleGetPeers w s sa m
  | .announcePeer => handleAnnouncePeer w s sa m

/-- What `dht_periodic` lets through: a message of somebody else, and if it is a request, one within
the rate. -/
def letIn (s : State) (sa : Endpoint) (buf : List UInt8) : Option (Kind × Message) × State :=
  if isMartian sa || nodeBlacklisted s sa then (none, s)
  else match parseMessage buf with
    | .next (some kind, m) =>
      if kind = .error ∨ idCmp m.id zeroes = 0 ∨ idCmp m.id s.self.myid = 0 then (none, s)
      else if kind = .reply then (some (kind, m), s)
      else match tokenBucket s with
        | (false, s) => (none, s)
        | (true, s) => (some (kind, m), s)
    | _ => (none, s)

/-- What `dht_periodic` does with a datagram. -/
def receive (s : State) (sa : Endpoint) (buf : List UInt8) : State :=
  match letIn s sa buf with
  | (none, s) => s
  | (some (kind, m), s) => handle w s sa m kind

def rotateIfDue (s : State) : State := if s.now ≥ s.rotateSecretsTime then rotateSecrets w s else s

def expireIfDue (s : State) : State :=
  if s.now ≥ s.expireStuffTime then
    -- `expire_buckets(buckets6)` draws once more
    let s := expireBuckets w s
    let (r, s) := s.draw w
    expireSearches (expireStorage { s with expireStuffTime := s.now + 120 + r % 240 })
  else s

def searchIfDue (s : State) : State :=
  if s.searchTime > 0 ∧ s.now ≥ s.searchTime then
    let s := (List.range s.searches.length).foldl (fun s k =>
      match s.searches[k]? with
      | none => s
      | some sr =>
        if !sr.done && sr.stepTime + searchRetransmit / 2 + 1 ≤ s.now then searchStep s k else s) s
    s.searches.foldl (fun s sr =>
      if sr.done then s
      else
        let (r, s) := s.draw w
        let tm := sr.stepTime + searchRetransmit + r % 10
        if s.searchTime = 0 ∨ s.searchTime > tm then { s with searchTime := tm } else s)
      { s with searchTime := 0 }
  else s

def confirmIfDue (s : State) : State :=
  if s.now ≥ s.confirmNodesTime then
    let (soon, s) := bucketMaintenance w s
    let (soon, s) :=
      if !soon && s.mybucketGrowTime ≥ s.now - 150 then neighbourhoodMaintenance w s else (soon, s)
    let (r, s) := s.draw w
    { s with confirmNodesTime := if soon then s.now + 5 + r % 10 else s.now + 60 + r % 120 }
  else s

def tosleep (s : State) : Int :=
  let t := if s.confirmNodesTime > s.now then s.confirmNodesTime - s.now else 0
  if s.searchTime > 0 then
    if s.searchTime ≤ s.now then 0 else min t (s.searchTime - s.now)
  else t

/-- `if(buflen > 0) ...` -/
def hear (s : State) : Option (Endpoint × List UInt8) → State
  | none => s
  | some (sa, buf) => receive w s sa buf

/-- `dht_periodic`; the datagram has a terminator behind it. -/
def dhtPeriodic (s : State) (now : Int) (datagram : Option (Endpoint × List UInt8)) : State :=
  let s := hear w { s with now := now } datagram
  confirmIfDue w (searchIfDue w (expireIfDue w (rotateIfDue w s)))

end Functions

end Dht
