import Pipensx.PeerRequests

/-!
# An announce to a UDP tracker

`udp_announce` of `core/tracker.c`. The socket holds the datagrams that have arrived and are
not read yet, whoever sent them. What arrives, and when, is part of the environment: each
attempt polls in slices of 100 ms, and each slice has the datagrams that have arrived since
the one before. The first datagram ends the wait, and one attempt reads one datagram.
-/

namespace UdpTracker

/-- `sockaddr_in`. -/
@[ext] structure Addr where
  ip : UInt32
  port : UInt16
  deriving DecidableEq, Repr

/-- What `recvfrom` finds: a datagram, or an error of the socket. -/
inductive Incoming where
  | datagram (source : Addr) (bytes : List UInt8)
  | error
  deriving DecidableEq, Repr

/-- One turn of `udp_poll_read`: the tracker is cancelled, `poll` fails, or it goes on with
what has arrived. -/
structure Slice where
  cancelled : Bool
  failed : Bool
  arrivals : List Incoming

/-- One attempt of a phase, with the check before it. -/
structure Attempt where
  cancelled : Bool
  slices : Nat → Slice

/-- What is outside `udp_announce`: the cancellation, `net_resolve`, the socket, `rand_bytes`
and the network. -/
structure Env where
  cancelled : Bool
  resolved : Option Addr
  socket : Bool
  txid : UInt32
  connect : Nat → Attempt
  announce : Nat → Attempt

def udpMagic : Nat := 0x41727101980
def udpConnect : Nat := 0
def udpAnnounceAction : Nat := 1
def udpRetries : Nat := 3
def udpRetryTimeoutMs : Nat := 2500

def wr32be (v : Nat) : List UInt8 :=
  [UInt8.ofNat (v / 2 ^ 24), UInt8.ofNat (v / 2 ^ 16), UInt8.ofNat (v / 2 ^ 8), UInt8.ofNat v]

def wr64be (v : Nat) : List UInt8 := wr32be (v / 2 ^ 32) ++ wr32be v

open PeerRequests (be32)

/-- What the caller of `tracker_announce` is and wants. -/
structure Query where
  infoHash : List UInt8
  peerId : List UInt8
  listenPort : Nat
  downloaded : Int
  left : Int
  startedEvent : Bool
  maxPeers : Nat

def connectRequest (txid : Nat) : List UInt8 := wr64be udpMagic ++ [0, 0, 0, 0] ++ wr32be txid

/-- `udp_build_announce_packet`. -/
def udpBuildAnnouncePacket (connId txid : Nat) (q : Query) : List UInt8 :=
  wr64be connId ++ wr32be udpAnnounceAction ++ wr32be txid ++ q.infoHash ++ q.peerId ++
    wr64be q.downloaded.toNat ++ wr64be q.left.toNat ++ List.replicate 8 0 ++
    wr32be (if q.startedEvent then 2 else 0) ++ List.replicate 8 0 ++ [255, 255, 255, 255] ++
    [UInt8.ofNat (q.listenPort / 2 ^ 8), UInt8.ofNat q.listenPort]

/-- The return value of `udp_poll_read`: -1, 0 or 1. -/
inductive Polled where
  | aborted
  | timeout
  | ready
  deriving DecidableEq, Repr

/-- `udp_poll_read`, with what is in the socket afterwards. -/
def udpPollRead (slices : Nat → Slice) (timeoutMs : Nat) :
    Nat → Nat → List Incoming → Polled × List Incoming
  | 0, _, queue => (.timeout, queue)
  | fuel + 1, waited, queue =>
    if waited < timeoutMs then
      let s := slices (waited / 100)
      if s.cancelled then (.aborted, queue)
      else if s.failed then (.aborted, queue ++ s.arrivals)
      else if queue ++ s.arrivals ≠ [] then (.ready, queue ++ s.arrivals)
      else udpPollRead slices timeoutMs fuel (waited + min 100 (timeoutMs - waited)) []
    else (.timeout, queue)

/-- `recvfrom` into a buffer: what does not fit is cut off. -/
def recvfrom (size : Nat) : Incoming → Option (Addr × List UInt8)
  | .datagram source bytes => some (source, bytes.take size)
  | .error => none

def udpReplyMatches (resp : List UInt8) (action txid : Nat) (expect source : Addr) : Bool :=
  if source.ip ≠ expect.ip ∨ source.port ≠ expect.port then false
  else decide (be32 resp = action ∧ be32 (resp.drop 4) = txid)

/-- How a phase ends. -/
inductive Outcome where
  | reply (resp : List UInt8)
  | closed
  | exhausted
  deriving DecidableEq, Repr

/-- The values in which the two phases differ. -/
structure Phase where
  request : List UInt8
  size : Nat
  minLen : Nat
  action : Nat
  txid : Nat

/-- The loop of a phase: how it ends, what is left in the socket, and how often the request
was sent. The first argument is the number of attempts that are left. -/
def exchange (addr : Addr) (ph : Phase) (attempts : Nat → Attempt) :
    Nat → Nat → List Incoming → Outcome × List Incoming × Nat
  | 0, _, queue => (.exhausted, queue, 0)
  | remaining + 1, k, queue =>
    if (attempts k).cancelled then (.closed, queue, 0)
    else
      match udpPollRead (attempts k).slices udpRetryTimeoutMs udpRetryTimeoutMs 0 queue with
      | (.aborted, queue) => (.closed, queue, 1)
      | (.timeout, queue) =>
        let r := exchange addr ph attempts remaining (k + 1) queue
        (r.1, r.2.1, r.2.2 + 1)
      -- poll does not report an empty socket
      | (.ready, []) => (.closed, [], 1)
      | (.ready, item :: queue) =>
        match recvfrom ph.size item with
        | none =>
          let r := exchange addr ph attempts remaining (k + 1) queue
          (r.1, r.2.1, r.2.2 + 1)
        | some (source, resp) =>
          if resp.length < ph.minLen then
            let r := exchange addr ph attempts remaining (k + 1) queue
            (r.1, r.2.1, r.2.2 + 1)
          else if udpReplyMatches resp ph.action ph.txid addr source then (.reply resp, queue, 1)
          else (.closed, queue, 1)

def connectPhase (txid : Nat) : Phase := ⟨connectRequest txid, 16, 16, udpConnect, txid⟩

/-- `conn_id`. -/
def connectionId (resp : List UInt8) : Nat := be32 (resp.drop 8) * 2 ^ 32 + be32 (resp.drop 12)

def announcePhase (connId txid : Nat) (q : Query) : Phase :=
  ⟨udpBuildAnnouncePacket connId txid q, 1500, 20, udpAnnounceAction, txid⟩

/-- The compact peers in a reply to the announce. -/
def compactPeers (resp : List UInt8) (maxPeers : Nat) : List UInt8 :=
  (resp.drop 20).take (min ((resp.length - 20) / 6) maxPeers * 6)

/-- What is written to `compact_out`, and the datagrams sent. -/
structure Announced where
  peers : List UInt8
  sent : List (Addr × List UInt8)

def udpAnnounce (env : Env) (q : Query) : Announced :=
  if env.cancelled then ⟨[], []⟩
  else
    match env.resolved with
    | none => ⟨[], []⟩
    | some addr =>
      if env.socket = false then ⟨[], []⟩
      else
        let txid := env.txid.toNat
        let ph := connectPhase txid
        let r := exchange addr ph env.connect udpRetries 0 []
        let sent := List.replicate r.2.2 (addr, ph.request)
        match r.1 with
        | .reply resp =>
          let ph' := announcePhase (connectionId resp) ((txid + 1) % 2 ^ 32) q
          let r' := exchange addr ph' env.announce udpRetries 0 r.2.1
          let sent := sent ++ List.replicate r'.2.2 (addr, ph'.request)
          match r'.1 with
          | .reply resp' => ⟨compactPeers resp' q.maxPeers, sent⟩
          | _ => ⟨[], sent⟩
        | _ => ⟨[], sent⟩

/-- The datagram is too short to be a reply, or is no datagram at all. -/
def Short (ph : Phase) (item : Incoming) : Prop :=
  ∀ source resp, recvfrom ph.size item = some (source, resp) → resp.length < ph.minLen

/-- From attempt `k` on, with `remaining` attempts left, the phase waits until it reads a
datagram that is long enough. An attempt before that has timed out, or has read a datagram
that is too short. -/
inductive Reads (ph : Phase) (attempts : Nat → Attempt) :
    Nat → Nat → List Incoming → Addr → List UInt8 → List Incoming → Prop where
  | here {remaining k : Nat} {queue rest : List Incoming} {source : Addr} {resp : List UInt8}
      (item : Incoming) : (attempts k).cancelled = false →
      udpPollRead (attempts k).slices udpRetryTimeoutMs udpRetryTimeoutMs 0 queue =
      (.ready, item :: rest) →
      recvfrom ph.size item = some (source, resp) → ph.minLen ≤ resp.length →
      Reads ph attempts (remaining + 1) k queue source resp rest
  | timeout {remaining k : Nat} {queue queue' rest : List Incoming} {source : Addr}
      {resp : List UInt8} : (attempts k).cancelled = false →
      udpPollRead (attempts k).slices udpRetryTimeoutMs udpRetryTimeoutMs 0 queue =
      (.timeout, queue') → Reads ph attempts remaining (k + 1) queue' source resp rest →
      Reads ph attempts (remaining + 1) k queue source resp rest
  | short {remaining k : Nat} {queue queue' rest : List Incoming} {source : Addr}
      {resp : List UInt8} (item : Incoming) : (attempts k).cancelled = false →
      udpPollRead (attempts k).slices udpRetryTimeoutMs udpRetryTimeoutMs 0 queue =
      (.ready, item :: queue') →
      Short ph item → Reads ph attempts remaining (k + 1) queue' source resp rest →
      Reads ph attempts (remaining + 1) k queue source resp rest

/-- The datagram comes from the tracker and answers the request of the phase. -/
structure Genuine (addr : Addr) (ph : Phase) (source : Addr) (resp : List UInt8) : Prop where
  source : source = addr
  action : be32 resp = ph.action
  txid : be32 (resp.drop 4) = ph.txid
  long : ph.minLen ≤ resp.length

section Phase

variable {addr : Addr} {ph : Phase} {attempts : Nat → Attempt}

theorem udpReplyMatches_iff {resp : List UInt8} {action txid : Nat} {expect source : Addr} :
    udpReplyMatches resp action txid expect source = true ↔
      source = expect ∧ be32 resp = action ∧ be32 (resp.drop 4) = txid := by
  unfold udpReplyMatches
  by_cases hsource : source = expect
  · subst hsource
    simp
  · have hdiffers : source.ip ≠ expect.ip ∨ source.port ≠ expect.port := by
      by_contra hsame
      simp only [not_or, not_not] at hsame
      exact hsource (Addr.ext hsame.1 hsame.2)
    simp [if_pos hdiffers, hsource]

/-- A phase that ends with a reply has read it first, and it is genuine. -/
theorem reads_of_reply {remaining k : Nat} {queue : List Incoming} {resp : List UInt8}
    (h : (exchange addr ph attempts remaining k queue).1 = .reply resp) :
    ∃ source, Reads ph attempts remaining k queue source resp
      (exchange addr ph attempts remaining k queue).2.1 ∧ Genuine addr ph source resp := by
  induction remaining generalizing k queue with
  | zero => cases h
  | succ remaining ih =>
    simp only [exchange] at h ⊢
    split at h
    · cases h
    · next hcancelled =>
      rw [Bool.not_eq_true] at hcancelled
      rw [if_neg (by simp [hcancelled])]
      cases hpoll : udpPollRead (attempts k).slices udpRetryTimeoutMs udpRetryTimeoutMs 0 queue with
      | mk polled queue' =>
        simp only [hpoll] at h ⊢
        cases polled with
        | aborted => cases h
        | timeout =>
          obtain ⟨source, hreads, hgenuine⟩ := ih h
          exact ⟨source, .timeout hcancelled hpoll hreads, hgenuine⟩
        | ready =>
          cases queue' with
          | nil => cases h
          | cons item rest =>
            simp only at h ⊢
            cases hrecv : recvfrom ph.size item with
            | none =>
              simp only [hrecv] at h ⊢
              obtain ⟨source, hreads, hgenuine⟩ := ih h
              refine ⟨source, .short item hcancelled hpoll ?_ hreads, hgenuine⟩
              intro source resp hsome
              rw [hrecv] at hsome
              cases hsome
            | some received =>
              obtain ⟨source, bytes⟩ := received
              simp only [hrecv] at h ⊢
              by_cases hlong : bytes.length < ph.minLen
              · rw [if_pos hlong] at h ⊢
                obtain ⟨source', hreads, hgenuine⟩ := ih h
                refine ⟨source', .short item hcancelled hpoll ?_ hreads, hgenuine⟩
                intro source' resp' hsome
                rw [hrecv] at hsome
                cases hsome
                exact hlong
              · rw [if_neg hlong] at h ⊢
                split at h
                · next hmatches =>
                  cases h
                  obtain ⟨hsource, haction, htxid⟩ := udpReplyMatches_iff.mp hmatches
                  rw [if_pos hmatches]
                  exact ⟨source, .here item hcancelled hpoll hrecv (Nat.le_of_not_lt hlong),
                    hsource, haction, htxid, Nat.le_of_not_lt hlong⟩
                · cases h

/-- A genuine reply that is read first ends the phase. -/
theorem exchange_reads {remaining k : Nat} {queue rest : List Incoming} {source : Addr}
    {resp : List UInt8} (reads : Reads ph attempts remaining k queue source resp rest)
    (genuine : Genuine addr ph source resp) :
    (exchange addr ph attempts remaining k queue).1 = .reply resp ∧
      (exchange addr ph attempts remaining k queue).2.1 = rest := by
  induction reads with
  | here item hcancelled hpoll hrecv hlong =>
    have hmatches := udpReplyMatches_iff.mpr ⟨genuine.source, genuine.action, genuine.txid⟩
    simp [exchange, hcancelled, hpoll, hrecv, Nat.not_lt.mpr hlong, hmatches]
  | timeout hcancelled hpoll _ ih =>
    simpa [exchange, hcancelled, hpoll] using ih genuine
  | short item hcancelled hpoll hshort _ ih =>
    cases hrecv : recvfrom ph.size item with
    | none => simpa [exchange, hcancelled, hpoll, hrecv] using ih genuine
    | some received =>
      have hlen := hshort received.1 received.2 hrecv
      simpa [exchange, hcancelled, hpoll, hrecv, hlen] using ih genuine

/-- Another datagram that is long enough and is read first ends the phase without a reply. -/
theorem exchange_refused {remaining k : Nat} {queue rest : List Incoming} {source : Addr}
    {resp : List UInt8} (reads : Reads ph attempts remaining k queue source resp rest)
    (other : ¬ Genuine addr ph source resp) :
    (exchange addr ph attempts remaining k queue).1 = .closed := by
  induction reads with
  | @here remaining k queue rest source resp item hcancelled hpoll hrecv hlong =>
    have hmatches : udpReplyMatches resp ph.action ph.txid addr source = false := by
      rw [← Bool.not_eq_true, udpReplyMatches_iff]
      exact fun ⟨hsource, haction, htxid⟩ => other ⟨hsource, haction, htxid, hlong⟩
    simp [exchange, hcancelled, hpoll, hrecv, Nat.not_lt.mpr hlong, hmatches]
  | timeout hcancelled hpoll _ ih =>
    simpa [exchange, hcancelled, hpoll] using ih other
  | short item hcancelled hpoll hshort _ ih =>
    cases hrecv : recvfrom ph.size item with
    | none => simpa [exchange, hcancelled, hpoll, hrecv] using ih other
    | some received =>
      have hlen := hshort received.1 received.2 hrecv
      simpa [exchange, hcancelled, hpoll, hrecv, hlen] using ih other

/-- Before a reply the request has been sent. -/
theorem sent_of_reply {remaining k : Nat} {queue : List Incoming} {resp : List UInt8}
    (h : (exchange addr ph attempts remaining k queue).1 = .reply resp) :
    0 < (exchange addr ph attempts remaining k queue).2.2 := by
  cases remaining with
  | zero => cases h
  | succ remaining =>
    simp only [exchange] at h ⊢
    split at h
    · cases h
    · next hcancelled =>
      rw [if_neg hcancelled]
      split at h
      · cases h
      · exact Nat.succ_pos _
      · cases h
      · split
        · exact Nat.succ_pos _
        · split
          · exact Nat.succ_pos _
          · split <;> exact Nat.one_pos

/-- The datagram arrives during one of the attempts. -/
def Arrives (attempts : Nat → Attempt) (item : Incoming) : Prop :=
  ∃ k i, item ∈ ((attempts k).slices i).arrivals

theorem udpPollRead_arrives {slices : Nat → Slice} {P : Incoming → Prop}
    (arrivals : ∀ i, ∀ item ∈ (slices i).arrivals, P item) (timeoutMs fuel waited : Nat)
    {queue : List Incoming} (known : ∀ item ∈ queue, P item) :
    ∀ item ∈ (udpPollRead slices timeoutMs fuel waited queue).2, P item := by
  induction fuel generalizing waited queue with
  | zero => exact known
  | succ fuel ih =>
    have hboth : ∀ item ∈ queue ++ (slices (waited / 100)).arrivals, P item := by
      intro item hitem
      rcases List.mem_append.mp hitem with hold | hnew
      · exact known item hold
      · exact arrivals _ item hnew
    simp only [udpPollRead]
    split
    · split
      · exact known
      · split
        · exact hboth
        · split
          · exact hboth
          · exact ih _ (fun item hitem => by cases hitem)
    · exact known

/-- What a phase reads has been in the socket before or has arrived in one of its attempts,
and so has what it leaves there. -/
theorem reads_arrives {P : Incoming → Prop} (arrivals : ∀ item, Arrives attempts item → P item)
    {remaining k : Nat} {queue rest : List Incoming} {source : Addr} {resp : List UInt8}
    (reads : Reads ph attempts remaining k queue source resp rest)
    (known : ∀ item ∈ queue, P item) :
    (∃ item, P item ∧ recvfrom ph.size item = some (source, resp)) ∧ ∀ item ∈ rest, P item := by
  have hpolled : ∀ (k : Nat) (queue : List Incoming), (∀ item ∈ queue, P item) →
      ∀ item ∈ (udpPollRead (attempts k).slices udpRetryTimeoutMs udpRetryTimeoutMs 0 queue).2,
      P item :=
    fun k queue => udpPollRead_arrives (fun i item hitem => arrivals item ⟨k, i, hitem⟩) _ _ _
  induction reads with
  | @here remaining k queue rest source resp item _ hpoll hrecv _ =>
    have hall := hpolled k queue known
    rw [hpoll] at hall
    exact ⟨⟨item, hall item (by simp), hrecv⟩, fun other hother => hall other (by simp [hother])⟩
  | @timeout remaining k queue queue' rest source resp _ hpoll _ ih =>
    have hall := hpolled k queue known
    rw [hpoll] at hall
    exact ih hall
  | @short remaining k queue queue' rest source resp item _ hpoll _ _ ih =>
    have hall := hpolled k queue known
    rw [hpoll] at hall
    exact ih fun other hother => hall other (by simp [hother])

end Phase

/-- Both phases read a genuine reply first: `c` to the connect request and `a` to the
announce, which has the connection id of `c`. -/
def Served (env : Env) (q : Query) (addr : Addr) (c a : List UInt8) : Prop :=
  (env.cancelled = false ∧ env.resolved = some addr ∧ env.socket = true) ∧
  ∃ source rest source' rest',
    Reads (connectPhase env.txid.toNat) env.connect udpRetries 0 [] source c rest ∧
    Genuine addr (connectPhase env.txid.toNat) source c ∧
    Reads (announcePhase (connectionId c) ((env.txid.toNat + 1) % 2 ^ 32) q) env.announce
      udpRetries 0 rest source' a rest' ∧
    Genuine addr (announcePhase (connectionId c) ((env.txid.toNat + 1) % 2 ^ 32) q) source' a

/-- One of the phases reads another datagram first that is long enough. -/
def Misled (env : Env) (q : Query) (addr : Addr) : Prop :=
  ∃ source c rest, Reads (connectPhase env.txid.toNat) env.connect udpRetries 0 [] source c rest ∧
    (¬ Genuine addr (connectPhase env.txid.toNat) source c ∨
      Genuine addr (connectPhase env.txid.toNat) source c ∧ ∃ source' a rest',
        Reads (announcePhase (connectionId c) ((env.txid.toNat + 1) % 2 ^ 32) q) env.announce
          udpRetries 0 rest source' a rest' ∧
        ¬ Genuine addr (announcePhase (connectionId c) ((env.txid.toNat + 1) % 2 ^ 32) q) source' a)

/-- The bytes have come in a datagram from the address, on the socket of the announce. -/
def Came (env : Env) (addr : Addr) (size : Nat) (resp : List UInt8) : Prop :=
  ∃ bytes, (Arrives env.connect (.datagram addr bytes) ∨
    Arrives env.announce (.datagram addr bytes)) ∧
    resp = bytes.take size

section Announce

variable {env : Env} {q : Query} {addr : Addr} {c a : List UInt8}

theorem udpAnnounce_served (served : Served env q addr c a) :
    (udpAnnounce env q).peers = compactPeers a q.maxPeers := by
  obtain ⟨⟨hcancelled, hresolved, hsocket⟩, source, rest, source', rest', hconnect,
    hgenuine, hannounce, hgenuine'⟩ := served
  obtain ⟨hreply, hrest⟩ := exchange_reads hconnect hgenuine
  obtain ⟨hreply', _⟩ := exchange_reads hannounce hgenuine'
  simp only [udpAnnounce, hcancelled, Bool.false_eq_true, if_false, hresolved, hsocket,
    Bool.true_eq_false, hreply, hrest, hreply']

/-- A datagram that does not match and is read first costs the peers. -/
theorem udpAnnounce_misled (resolved : env.resolved = some addr) (misled : Misled env q addr) :
    (udpAnnounce env q).peers = [] := by
  obtain ⟨source, c, rest, hconnect, hcase⟩ := misled
  unfold udpAnnounce
  split
  · rfl
  · simp only [resolved]
    split
    · rfl
    · rcases hcase with hother | ⟨hgenuine, source', a, rest', hannounce, hother⟩
      · simp only [exchange_refused hconnect hother]
      · obtain ⟨hreply, hrest⟩ := exchange_reads hconnect hgenuine
        simp only [hreply, hrest, exchange_refused hannounce hother]

/-- Peers are only returned by an announce that was served; the requests went to the address
that was resolved. -/
theorem served_of_peers (h : (udpAnnounce env q).peers ≠ []) :
    ∃ addr c a i j, Served env q addr c a ∧ (udpAnnounce env q).sent =
      List.replicate (i + 1) (addr, connectRequest env.txid.toNat) ++
        List.replicate (j + 1) (addr,
          udpBuildAnnouncePacket (connectionId c) ((env.txid.toNat + 1) % 2 ^ 32) q) := by
  unfold udpAnnounce at h ⊢
  split at h
  · exact absurd rfl h
  · next hcancelled =>
    rw [if_neg hcancelled]
    rw [Bool.not_eq_true] at hcancelled
    cases hresolved : env.resolved with
    | none =>
      simp only [hresolved] at h
      exact absurd rfl h
    | some addr =>
      simp only [hresolved] at h ⊢
      split at h
      · exact absurd rfl h
      · next hsocket =>
        rw [if_neg hsocket]
        rw [Bool.not_eq_false] at hsocket
        cases hconnect : (exchange addr (connectPhase env.txid.toNat) env.connect
          udpRetries 0 []).1 with
        | closed =>
          simp only [hconnect] at h
          exact absurd rfl h
        | exhausted =>
          simp only [hconnect] at h
          exact absurd rfl h
        | reply c =>
          simp only [hconnect] at h ⊢
          obtain ⟨source, hreads, hgenuine⟩ := reads_of_reply hconnect
          have hsent := sent_of_reply hconnect
          generalize exchange addr (connectPhase env.txid.toNat) env.connect udpRetries 0 [] = r
            at h hreads hsent ⊢
          cases hannounce : (exchange addr
              (announcePhase (connectionId c) ((env.txid.toNat + 1) % 2 ^ 32) q)
              env.announce udpRetries 0 r.2.1).1 with
          | closed =>
            simp only [hannounce] at h
            exact absurd rfl h
          | exhausted =>
            simp only [hannounce] at h
            exact absurd rfl h
          | reply a =>
            simp only [hannounce] at h ⊢
            obtain ⟨source', hreads', hgenuine'⟩ := reads_of_reply hannounce
            obtain ⟨i, hi⟩ := Nat.exists_eq_succ_of_ne_zero hsent.ne'
            obtain ⟨j, hj⟩ := Nat.exists_eq_succ_of_ne_zero (sent_of_reply hannounce).ne'
            refine ⟨addr, c, a, i, j,
              ⟨⟨hcancelled, hresolved, hsocket⟩, source, _, source', _, hreads,
              hgenuine, hreads', hgenuine'⟩, ?_⟩
            rw [hi, hj]
            rfl

theorem came_of_read {addr source : Addr} {size : Nat} {resp : List UInt8} {item : Incoming}
    (arrived : Arrives env.connect item ∨ Arrives env.announce item)
    (read : recvfrom size item = some (source, resp)) (same : source = addr) :
    Came env addr size resp := by
  subst same
  cases item with
  | error => cases read
  | datagram sender bytes =>
    cases read
    exact ⟨bytes, arrived, rfl⟩

theorem Served.came (served : Served env q addr c a) :
    Came env addr 16 c ∧ Came env addr 1500 a := by
  obtain ⟨_, source, rest, source', rest', hconnect, hgenuine, hannounce, hgenuine'⟩ := served
  obtain ⟨⟨item, harrived, hread⟩, hrest⟩ := reads_arrives
    (P := fun item => Arrives env.connect item ∨ Arrives env.announce item)
    (fun item => Or.inl) hconnect (fun item hitem => by cases hitem)
  obtain ⟨⟨item', harrived', hread'⟩, _⟩ := reads_arrives
    (P := fun item => Arrives env.connect item ∨ Arrives env.announce item) (fun item => Or.inr)
    hannounce hrest
  exact ⟨came_of_read harrived hread hgenuine.source, came_of_read harrived' hread'
    hgenuine'.source⟩

theorem Served.connect_length (served : Served env q addr c a) : c.length = 16 := by
  obtain ⟨bytes, _, hbytes⟩ := served.came.1
  obtain ⟨_, _, _, _, _, _, hgenuine, _⟩ := served
  have hlong : 16 ≤ c.length := hgenuine.long
  have hcut : c.length ≤ 16 := by
    rw [hbytes, List.length_take]
    exact min_le_left _ _
  omega

theorem wr32be_be32 (x y z w : UInt8) (rest : List UInt8) (k : Nat) :
    wr32be (k * 2 ^ 32 + be32 (x :: y :: z :: w :: rest)) = [x, y, z, w] := by
  have hx := x.toNat_lt
  have hy := y.toNat_lt
  have hz := z.toNat_lt
  have hw := w.toNat_lt
  simp only [wr32be, be32, List.cons.injEq, and_true, ← UInt8.toNat_inj, UInt8.toNat_ofNat']
  omega

theorem wr64be_connectionId (hlen : c.length = 16) : wr64be (connectionId c) = c.drop 8 := by
  match c, hlen with
  | [b0, b1, b2, b3, b4, b5, b6, b7, x, y, z, w, x', y', z', w'], _ =>
    have hsmall := PeerRequests.be32_lt [x', y', z', w']
    have hid : connectionId [b0, b1, b2, b3, b4, b5, b6, b7, x, y, z, w, x', y', z', w'] =
        be32 [x, y, z, w, x', y', z', w'] * 2 ^ 32 + be32 [x', y', z', w'] := rfl
    have hhigh := wr32be_be32 x y z w [x', y', z', w'] 0
    rw [Nat.zero_mul, Nat.zero_add] at hhigh
    rw [wr64be, hid, wr32be_be32 x' y' z' w' [], Nat.mul_comm, Nat.mul_add_div (by decide),
      Nat.div_eq_of_lt hsmall, Nat.add_zero, hhigh]
    rfl

/-- The announce begins with the connection id of the connect reply, byte for byte. -/
theorem announce_connectionId (hlen : c.length = 16) (txid : Nat) (q : Query) :
    (udpBuildAnnouncePacket (connectionId c) txid q).take 8 = c.drop 8 := by
  have hid := wr64be_connectionId hlen
  have height : (wr64be (connectionId c)).length = 8 := rfl
  simp only [udpBuildAnnouncePacket, List.append_assoc]
  rw [List.take_append_of_le_length (by omega), List.take_of_length_le (by omega), hid]

end Announce

/-- If both phases read a genuine reply before any other datagram that is long enough, the
peers of the announce reply are returned, and if one of them reads another one first, none are.
Whatever is returned comes from such an announce: both replies came from the address that was
resolved, and so did the announce go there, with the connection id of the connect reply. -/
theorem udpAnnounce_unsteered (env : Env) (q : Query) :
    (∀ addr c a, Served env q addr c a → (udpAnnounce env q).peers = compactPeers a q.maxPeers) ∧
    (∀ addr, env.resolved = some addr → Misled env q addr → (udpAnnounce env q).peers = []) ∧
    ((udpAnnounce env q).peers ≠ [] → ∃ addr c a i j packet, Served env q addr c a ∧
      (udpAnnounce env q).peers = compactPeers a q.maxPeers ∧ Came env addr 16 c ∧
      Came env addr 1500 a ∧
      (udpAnnounce env q).sent = List.replicate (i + 1) (addr, connectRequest env.txid.toNat) ++
        List.replicate (j + 1) (addr, packet) ∧ packet.take 8 = c.drop 8) := by
  refine ⟨fun addr c a => udpAnnounce_served, fun addr => udpAnnounce_misled, fun hpeers => ?_⟩
  obtain ⟨addr, c, a, i, j, hserved, hsent⟩ := served_of_peers hpeers
  obtain ⟨hconnect, hannounce⟩ := hserved.came
  exact ⟨addr, c, a, i, j, _, hserved, udpAnnounce_served hserved, hconnect, hannounce, hsent,
    announce_connectionId hserved.connect_length _ q⟩

def trackerAddr : Addr := ⟨1, 6969⟩
def strangerAddr : Addr := ⟨2, 4000⟩

def sampleQuery : Query := ⟨List.replicate 20 1, List.replicate 20 2, 6881, 0, 100, true, 50⟩

/-- Action 0, transaction 7 and a connection id. -/
def connectReply : List UInt8 := [0, 0, 0, 0, 0, 0, 0, 7, 1, 2, 3, 4, 5, 6, 7, 8]

/-- Action 1, transaction 8, twelve bytes that are not looked at, and one peer. -/
def announceReply : List UInt8 :=
  [0, 0, 0, 1, 0, 0, 0, 8] ++ List.replicate 12 0 ++ [10, 0, 0, 1, 26, 225]

/-- Everything arrives in the first slice of an attempt. -/
def arriving (items : List Incoming) : Attempt :=
  ⟨false, fun i => ⟨false, false, if i = 0 then items else []⟩⟩

/-- The tracker answers both requests at once, after some datagrams have arrived. -/
def answered (before : List Incoming) : Env where
  cancelled := false
  resolved := some trackerAddr
  socket := true
  txid := 7
  connect k := arriving (if k = 0 then before ++ [.datagram trackerAddr connectReply] else [])
  announce k := arriving (if k = 0 then [.datagram trackerAddr announceReply] else [])

/-- Sixteen bytes from a stranger, just before the reply of the tracker, end the announce. -/
theorem stranger_first :
    Arrives (answered [.datagram strangerAddr (List.replicate 16 0)]).connect
    (.datagram trackerAddr connectReply) ∧
    Genuine trackerAddr (connectPhase 7) trackerAddr connectReply ∧
    Arrives (answered [.datagram strangerAddr (List.replicate 16 0)]).announce
      (.datagram trackerAddr announceReply) ∧
    Genuine trackerAddr (announcePhase (connectionId connectReply) 8 sampleQuery) trackerAddr
    announceReply ∧ compactPeers announceReply 50 = [10, 0, 0, 1, 26, 225] ∧
    (udpAnnounce (answered [.datagram strangerAddr (List.replicate 16 0)])
      sampleQuery).peers = [] := by
  refine ⟨⟨0, 0, by decide⟩, ⟨rfl, by decide, by decide, by decide⟩, ⟨0, 0, by decide⟩,
    ⟨rfl, by decide, by decide, by decide⟩, by decide, by decide +kernel⟩

/-- A shorter datagram costs an attempt only. -/
theorem udpAnnounce_unsteered_short :
    (udpAnnounce (answered [.datagram strangerAddr [0]]) sampleQuery).peers =
    [10, 0, 0, 1, 26, 225] ∧
    ∃ addr c a, Served (answered [.datagram strangerAddr [0]]) sampleQuery addr c a ∧
      Came (answered [.datagram strangerAddr [0]]) addr 16 c := by
  have hpeers : (udpAnnounce (answered [.datagram strangerAddr [0]]) sampleQuery).peers =
      [10, 0, 0, 1, 26, 225] := by decide +kernel
  have hsome : (udpAnnounce (answered [.datagram strangerAddr [0]]) sampleQuery).peers ≠ [] := by
    rw [hpeers]
    exact List.cons_ne_nil _ _
  obtain ⟨_, _, hreturned⟩ :=
    udpAnnounce_unsteered (answered [.datagram strangerAddr [0]]) sampleQuery
  obtain ⟨addr, c, a, _, _, _, served, hequal, hcame, _⟩ := hreturned hsome
  exact ⟨hpeers, addr, c, a, served, hcame⟩

end UdpTracker
