import Pipensx.PeerReader

/-!
# Segmentation of the bytes a peer receives

Both ways in give the same plaintext bytes to the same reader. Where the bytes are cut, when
the buffer is compacted and which of the two loops asks for them makes no difference to the
calls that are made.
-/

namespace PeerIngest

open PeerSend PeerRequests StreamReader

/-- The traffic is encrypted. -/
def Conn.encrypted (c : Conn) : Bool := c.session.peer.out.mseActive

/-- The plaintext of bytes that arrive now. -/
def Conn.plain (c : Conn) (data : List UInt8) : List UInt8 :=
  if c.encrypted then (rc4Crypt c.mse.recvRc4 data).1 else data

/-- The cipher after bytes have arrived. -/
def Conn.cipherAfter (c : Conn) (data : List UInt8) : Mse.Client :=
  if c.encrypted then { c.mse with recvRc4 := (rc4Crypt c.mse.recvRc4 data).2 } else c.mse

section Arrival

variable {sys : System} {ctx : Ctx} {c c0 : Conn} {data p : List UInt8}

theorem receive_frame (c : Conn) (data : List UInt8) :
    (c.receive data).session = c.session ∧ (c.receive data).allocated = c.allocated ∧
      (c.receive data).rbuf = c.rbuf ++ c.plain data ∧ (c.receive data).rbufHead = c.rbufHead ∧
      (c.receive data).mse = c.cipherAfter data ∧ (c.receive data).consumed = c.consumed := by
  unfold Conn.receive Conn.plain Conn.cipherAfter Conn.encrypted
  split <;> exact ⟨rfl, rfl, rfl, rfl, rfl, rfl⟩

theorem plain_length (c : Conn) (data : List UInt8) : (c.plain data).length = data.length := by
  unfold Conn.plain
  split
  · exact Keystream.crypt_length rc4Step c.mse.recvRc4 data
  · rfl

theorem receive_unread (valid : c.Valid) (data : List UInt8) :
    (c.receive data).unread = c.unread ++ c.plain data := by
  obtain ⟨_, _, hrbuf, hhead, _⟩ := receive_frame c data
  rw [Conn.unread, hrbuf, hhead, List.drop_append_of_le_length valid.head]
  rfl

theorem receive_valid (valid : c.Valid) (allocated : c.allocated = true)
    (fits : data.length ≤ c.tail) : (c.receive data).Valid := by
  obtain ⟨_, hallocated, hrbuf, hhead, _⟩ := receive_frame c data
  have hbound := valid.head
  have hsize := valid.fits
  simp only [Conn.tail] at fits
  refine ⟨?_, ?_, ?_⟩
  · rw [hrbuf, hhead, List.length_append]
    omega
  · rw [hrbuf, List.length_append, plain_length]
    omega
  · rw [hallocated, allocated]
    exact fun hno => Bool.noConfusion hno

/-- The same keystream for later bytes. -/
theorem plain_append (mode : c.encrypted = c0.encrypted) (cipher : c.mse = c0.cipherAfter p)
    (more : List UInt8) :
    c0.plain (p ++ more) = c0.plain p ++ c.plain more ∧ c.cipherAfter more =
      c0.cipherAfter (p ++ more) := by
  cases henc : c0.encrypted with
  | false => simp [Conn.plain, Conn.cipherAfter, mode, henc, cipher]
  | true =>
    have hboth := Keystream.crypt_append rc4Step c0.mse.recvRc4 p more
    simp only [Conn.plain, Conn.cipherAfter, mode, henc, cipher, if_true, rc4Crypt, hboth, and_self]

theorem plain_split (c0 : Conn) (p more : List UInt8) :
    ∃ rest, c0.plain (p ++ more) = c0.plain p ++ rest := by
  have hsame : ({ c0 with mse := c0.cipherAfter p } : Conn).encrypted = c0.encrypted := rfl
  exact ⟨_, (plain_append hsame rfl more).1⟩

/-- The plaintext that some chunks bring, behind what was unread. -/
def Conn.taken (c : Conn) (chunks : List (List UInt8)) : List UInt8 :=
  c.unread ++ c.plain chunks.flatten

/-- Of these bytes the cursor has passed the first, and the others are unread. -/
def Through (c0 : Conn) (bytes : List UInt8) (c : Conn) : Prop :=
  ∃ used, bytes = used ++ c.unread ∧ c.consumed = c0.consumed + used.length

theorem Through.moved {bytes : List UInt8} {c' : Conn} (h : Through c0 bytes c)
    (unread : c'.unread = c.unread)
    (consumed : c'.consumed = c.consumed) : Through c0 bytes c' := by
  obtain ⟨used, hbytes, hcount⟩ := h
  exact ⟨used, by rw [unread]; exact hbytes, consumed.trans hcount⟩

theorem Through.receive {bytes : List UInt8} (h : Through c0 bytes c) (valid : c.Valid)
    (data : List UInt8) : Through c0 (bytes ++ c.plain data) (c.receive data) := by
  obtain ⟨used, hbytes, hcount⟩ := h
  refine ⟨used, ?_, ((receive_frame c data).2.2.2.2.2).trans hcount⟩
  rw [hbytes, receive_unread valid, List.append_assoc]

end Arrival

/-- What the reader makes of the chunks. -/
def outcome (sys : System) (ctx : Ctx) (c0 : Conn) (chunks : List (List UInt8)) :
    Result Session UInt8 Event :=
  drain (read sys ctx) c0.session (c0.taken chunks)

/-- After the chunks `p` a connection has made the calls `events` and will go on as the
reader. -/
structure Ahead (sys : System) (ctx : Ctx) (c0 : Conn) (p : List (List UInt8)) (c : Conn)
    (events : List Event) : Prop where
  valid : c.Valid
  live : Live c.session
  mode : c.encrypted = c0.encrypted
  cipher : c.mse = c0.cipherAfter p.flatten
  reads : (drain (read sys ctx) c.session c.unread).after events = outcome sys ctx c0 p
  through : Through c0 (c0.taken p) c

/-- What was consumed and what is left are the bytes of the chunks that came; there are
chunks that did not only if the peer was refused. -/
def Arrived (c0 : Conn) (chunks : List (List UInt8)) (o : Received) : Prop :=
  ∃ seen, seen <+: chunks ∧ Through c0 (c0.taken seen) o.conn ∧ (o.ok = true → seen = chunks)

/-- The calls are those of the reader, and the connection is where the reader is; if it was
refused, some of the bytes after the refused message may be missing. -/
structure Delivered (sys : System) (ctx : Ctx) (c0 : Conn) (p : List (List UInt8)) (o : Received) :
    Prop where
  valid : o.conn.Valid
  session : o.conn.session = (outcome sys ctx c0 p).state
  events : o.events = (outcome sys ctx c0 p).out
  ok : o.ok = !(outcome sys ctx c0 p).stopped
  consumed : o.conn.consumed + (outcome sys ctx c0 p).rest.length =
    c0.consumed + (c0.taken p).length
  arrived : Arrived c0 p o
  unread : o.ok = true → o.conn.unread = (outcome sys ctx c0 p).rest
  cipher : o.ok = true → o.conn.mse = c0.cipherAfter p.flatten

section Deliveries

variable {sys : System} {ctx : Ctx} {c0 c c' : Conn} {p : List (List UInt8)} {data : List UInt8}
  {events : List Event} {o : Received}

theorem taken_append (c : Conn) (p more : List (List UInt8)) :
    ∃ rest, c.taken (p ++ more) = c.taken p ++ rest := by
  obtain ⟨rest, hplain⟩ := plain_split c p.flatten more.flatten
  exact ⟨rest, by rw [Conn.taken, List.flatten_append, hplain, ← List.append_assoc, Conn.taken]⟩

theorem Ahead.start (sys : System) (ctx : Ctx) (valid : c0.Valid) (live : Live c0.session) :
    Ahead sys ctx c0 [] c0 [] := by
  have hplain : c0.plain [] = [] := List.length_eq_zero_iff.mp (plain_length c0 [])
  have htaken : c0.taken [] = c0.unread := by
    rw [Conn.taken, List.flatten_nil, hplain, List.append_nil]
  refine ⟨valid, live, rfl, ?_, ?_, [], htaken, rfl⟩
  · unfold Conn.cipherAfter
    split <;> rfl
  · rw [outcome, htaken, Result.after_nil]

/-- Moving the bytes within the buffer makes no difference. -/
theorem Ahead.moved (ahead : Ahead sys ctx c0 p c events) (valid : c'.Valid)
    (session : c'.session = c.session)
    (mse : c'.mse = c.mse) (unread : c'.unread = c.unread) (consumed : c'.consumed = c.consumed) :
    Ahead sys ctx c0 p c' events := by
  refine ⟨valid, ?_, ?_, ?_, ?_, ahead.through.moved unread consumed⟩
  · rw [session]
    exact ahead.live
  · rw [← ahead.mode, Conn.encrypted, Conn.encrypted, session]
  · rw [mse]
    exact ahead.cipher
  · rw [session, unread]
    exact ahead.reads

theorem Ahead.receive (ahead : Ahead sys ctx c0 p c events) (allocated : c.allocated = true)
    (fits : data.length ≤ c.tail) : Ahead sys ctx c0 (p ++ [data]) (c.receive data) events := by
  obtain ⟨hsession, _, _, _, hmse, _⟩ := receive_frame c data
  obtain ⟨hplain, hcipher⟩ := plain_append ahead.mode ahead.cipher data
  have hflat : (p ++ [data]).flatten = p.flatten ++ data := by simp
  have htaken : c0.taken (p ++ [data]) = c0.taken p ++ c.plain data := by
    rw [Conn.taken, hflat, hplain, ← List.append_assoc, Conn.taken]
  refine ⟨receive_valid ahead.valid allocated fits, ?_, ?_, ?_, ?_, ?_⟩
  · rw [hsession]
    exact ahead.live
  · rw [← ahead.mode, Conn.encrypted, Conn.encrypted, hsession]
  · rw [hmse, hcipher, hflat]
  · have hwhole : outcome sys ctx c0 (p ++ [data]) = feed (read sys ctx) (outcome sys ctx c0 p)
      (c.plain data) := by
      rw [outcome, htaken, drain_append (read_incremental sys ctx), outcome]
    rw [hsession, receive_unread ahead.valid, drain_append (read_incremental sys ctx),
      ← feed_after, ahead.reads, hwhole]
  · rw [htaken]
    exact ahead.through.receive ahead.valid data

/-- `peer_process` brings a connection to where the reader is. -/
theorem Ahead.process (ahead : Ahead sys ctx c0 p c events) :
    Delivered sys ctx c0 p ((peerProcess sys ctx c).after events) ∧
      (peerProcess sys ctx c).conn.allocated = c.allocated ∧
      ((peerProcess sys ctx c).ok = true →
        Ahead sys ctx c0 p (peerProcess sys ctx c).conn (events ++ (peerProcess sys ctx c).events) ∧
          (peerProcess sys ctx c).conn.unread.length < peerRecvBufferSize) := by
  have hprocess := peerProcess_eq sys ctx ahead.live
  have hkept := drain_kept sys ctx c.unread ahead.live
  have hrest := drain_rest (read_incremental sys ctx) c.session c.unread
  have hwaits := drain_waits (read_incremental sys ctx) c.session c.unread
  have hreads := ahead.reads
  generalize drain (read sys ctx) c.session c.unread = r at hprocess hkept hrest hwaits hreads
  obtain ⟨hsession, hmse, hallocated, hunread⟩ := processed_frame hrest
  have hthrough : Through c0 (c0.taken p) (c.processed r).conn := by
    obtain ⟨used, hbytes, hcount⟩ := ahead.through
    obtain ⟨passed, hpassed⟩ := hrest
    refine ⟨used ++ passed, by rw [hunread, List.append_assoc, hpassed]; exact hbytes, ?_⟩
    rw [processed_consumed, ← hpassed, hcount, List.length_append, List.length_append]
    omega
  rw [hprocess]
  refine ⟨?_, hallocated, ?_⟩
  · constructor
    · exact processed_valid ahead.valid
    · rw [← hreads]
      exact hsession
    · rw [← hreads]
      rfl
    · rw [← hreads]
      rfl
    · obtain ⟨used, hbytes, hcount⟩ := hthrough
      rw [← hreads, Result.after_rest, hbytes, List.length_append, hunread]
      simp only [Received.after, hcount]
      omega
    · exact ⟨p, List.prefix_refl p, hthrough, fun _ => rfl⟩
    · intro _
      rw [← hreads, Result.after_rest]
      exact hunread
    · intro _
      rw [← ahead.cipher]
      exact hmse
  · intro hok
    have hgoes : r.stopped = false := by simpa [Conn.processed] using hok
    have hwait := hwaits hgoes
    refine ⟨⟨processed_valid ahead.valid, ?_, ?_, ?_, ?_, hthrough⟩, ?_⟩
    · rw [hsession]
      exact hkept.live
    · rw [← ahead.mode, Conn.encrypted, Conn.encrypted, hsession, hkept.mode]
    · rw [hmse]
      exact ahead.cipher
    · rw [hsession, hunread, drain_wait hwait, ← hreads]
      simp [Result.after, Conn.processed, hgoes]
    · rw [hunread]
      exact read_wait hkept.live hwait

/-- Once refused, the bytes that follow are not looked at. -/
theorem Delivered.more (delivered : Delivered sys ctx c0 p o) (refused : o.ok = false)
    (more : List (List UInt8)) : Delivered sys ctx c0 (p ++ more) o := by
  obtain ⟨rest, htaken⟩ := taken_append c0 p more
  have hstopped : (outcome sys ctx c0 p).stopped = true := by
    have hok := delivered.ok
    rw [refused] at hok
    simpa using hok.symm
  have hwhole : outcome sys ctx c0 (p ++ more) = (outcome sys ctx c0 p).followed rest := by
    rw [outcome] at hstopped
    rw [outcome, htaken, drain_append (read_incremental sys ctx), feed, if_pos hstopped, outcome]
  constructor
  · exact delivered.valid
  · rw [hwhole]
    exact delivered.session
  · rw [hwhole]
    exact delivered.events
  · rw [hwhole]
    exact delivered.ok
  · have hcount := delivered.consumed
    rw [hwhole, htaken]
    simp only [Result.followed, List.length_append]
    omega
  · obtain ⟨seen, hseen, hthrough, _⟩ := delivered.arrived
    refine ⟨seen, hseen.trans (List.prefix_append p more), hthrough, ?_⟩
    rw [refused]
    exact fun hno => Bool.noConfusion hno
  · rw [refused]
    exact fun hno => Bool.noConfusion hno
  · rw [refused]
    exact fun hno => Bool.noConfusion hno

/-- What a call does that brings the chunks `bytes a`. -/
def Brings (sys : System) (ctx : Ctx) (c0 : Conn) {α : Type} (bytes : α → List (List UInt8))
    (call : α → Conn → Option Received) (a : α) : Prop :=
  ∀ p c events o, Ahead sys ctx c0 p c events → (peerRbufEnsure sys c).1 = true →
    call a c = some o → Delivered sys ctx c0 (p ++ bytes a) (o.after events) ∧
      (o.ok = true → Ahead sys ctx c0 (p ++ bytes a) o.conn (events ++ o.events) ∧
        o.conn.allocated = true)

theorem ensure_allocated (sys : System) (h : c.allocated = true) :
    peerRbufEnsure sys c = (true, c) := by
  simp [peerRbufEnsure, h]

/-- Some calls, one after the other. -/
theorem inTurn_delivered {α : Type} {bytes : α → List (List UInt8)}
    {call : α → Conn → Option Received} {calls : List α}
    (some_call : calls ≠ []) (brings : ∀ a ∈ calls, Brings sys ctx c0 bytes call a)
    (ahead : Ahead sys ctx c0 p c events) (ready : (peerRbufEnsure sys c).1 = true)
    (h : inTurn call calls c = some o) :
    Delivered sys ctx c0 (p ++ (calls.map bytes).flatten) (o.after events) := by
  induction calls generalizing p c events o with
  | nil => exact absurd rfl some_call
  | cons a rest ih =>
    simp only [inTurn] at h
    cases hcall : call a c with
    | none =>
      rw [hcall] at h
      cases h
    | some r =>
      rw [hcall] at h
      obtain ⟨hdelivered, hahead⟩ := brings a List.mem_cons_self p c events r ahead ready hcall
      rw [List.map_cons, List.flatten_cons, ← List.append_assoc]
      cases hok : r.ok with
      | false =>
        simp only [hok, Bool.false_eq_true, if_false, Option.some.injEq] at h
        subst h
        exact hdelivered.more hok _
      | true =>
        simp only [hok, if_true, Option.map_eq_some_iff] at h
        obtain ⟨t, ht, rfl⟩ := h
        obtain ⟨hnext, hallocated⟩ := hahead hok
        by_cases hlast : rest = []
        · subst hlast
          simp only [inTurn, Option.some.injEq] at ht
          subst ht
          simp only [List.map_nil, List.flatten_nil, List.append_nil, Received.after]
          rw [← hok]
          exact hdelivered
        · have hready : (peerRbufEnsure sys r.conn).1 = true := by
            rw [ensure_allocated sys hallocated]
          have htail := ih hlast (fun b hb => brings b (List.mem_cons_of_mem a hb)) hnext hready ht
          simpa only [Received.after, List.append_assoc] using htail

theorem Ahead.rewound (ahead : Ahead sys ctx c0 p c events) :
    Ahead sys ctx c0 p c.rewind events := by
  obtain ⟨hsession, hmse, _, hconsumed⟩ := rewind_frame c
  exact ahead.moved (rewind_valid ahead.valid) hsession hmse (rewind_unread c) hconsumed

theorem Ahead.compacted (ahead : Ahead sys ctx c0 p c events) :
    Ahead sys ctx c0 p c.compact events :=
  ahead.moved (compact_valid ahead.valid) rfl rfl (compact_unread c) rfl

theorem Ahead.ensured (ahead : Ahead sys ctx c0 p c events)
    (ready : (peerRbufEnsure sys c).1 = true) :
    Ahead sys ctx c0 p (peerRbufEnsure sys c).2 events ∧ (peerRbufEnsure sys c).2.allocated = true ∧
      (peerRbufEnsure sys c).2.unread = c.unread := by
  unfold peerRbufEnsure at ready ⊢
  split
  · next hallocated => exact ⟨ahead, hallocated, rfl⟩
  · split
    · have hvalid := ahead.valid
      exact ⟨ahead.moved ⟨hvalid.head, hvalid.fits, fun hno => Bool.noConfusion hno⟩ rfl rfl rfl
        rfl, rfl, rfl⟩
    · next hallocated hmalloc => simp [hallocated, hmalloc] at ready

/-- A chunk that fits the space is appended. -/
theorem Ahead.appended (ahead : Ahead sys ctx c0 p c events)
    (ready : (peerRbufEnsure sys c).1 = true)
    (nonempty : data ≠ []) (fits : data.length ≤ peerRbufSpace c) :
    ∃ c', peerRbufAppend sys c data = (c', true) ∧ Ahead sys ctx c0 (p ++ [data]) c' events ∧
      c'.allocated = true := by
  obtain ⟨hensured, hallocated, hunread⟩ := ahead.ensured ready
  rw [peerRbufSpace_eq, ← hunread] at fits
  have hsome : data.length ≠ 0 := by simpa using nonempty
  have hrewound := hensured.rewound
  obtain ⟨_, _, hkept, _⟩ := rewind_frame (peerRbufEnsure sys c).2
  have hlength := unread_length (peerRbufEnsure sys c).2.rewind
  rw [rewind_unread] at hlength
  rw [hallocated] at hkept
  simp only [peerRbufAppend, hsome, if_false, ready, Bool.true_eq_false]
  generalize (peerRbufEnsure sys c).2.rewind = c1 at hrewound hkept hlength ⊢
  generalize (peerRbufEnsure sys c).2.unread = unread at fits hlength
  by_cases hfull : c1.tail < data.length ∧ c1.rbufHead > 0
  · have htail : data.length ≤ c1.compact.tail := by
      simp only [Conn.tail, Conn.compact, unread_length]
      omega
    rw [if_pos hfull, if_neg (by omega)]
    exact ⟨_, rfl, hrewound.compacted.receive hkept htail, ((receive_frame _ _).2.1).trans hkept⟩
  · have htail : data.length ≤ c1.tail := by
      simp only [Conn.tail] at hfull ⊢
      omega
    rw [if_neg hfull, if_neg (by omega)]
    exact ⟨_, rfl, hrewound.receive hkept htail, ((receive_frame _ _).2.1).trans hkept⟩

theorem utpRead_brings {chunk : List UInt8} (nonempty : chunk ≠ []) :
    Brings sys ctx c0 (fun chunk => [chunk]) (utpRead sys ctx) chunk := by
  intro p c events o ahead ready hcall
  simp only [utpRead] at hcall
  split at hcall
  · cases hcall
  · next hfits =>
    obtain ⟨c', happend, hahead, hallocated⟩ :=
      ahead.appended ready nonempty (Nat.le_of_not_lt hfits)
    rw [happend] at hcall
    simp only [if_true, Option.some.injEq] at hcall
    subst hcall
    obtain ⟨hdelivered, hkept, hnext⟩ := hahead.process
    refine ⟨hdelivered, ?_⟩
    intro hok
    exact ⟨(hnext hok).1, hkept.trans hallocated⟩

/-- After processing there is room at the end of the buffer, or it is made. -/
theorem makeRoom_tail (short : c.unread.length < peerRecvBufferSize) : c.makeRoom.tail ≠ 0 := by
  have hlength := unread_length c
  unfold Conn.makeRoom
  split
  · simp only [Conn.tail, Conn.compact]
    omega
  · next hroom =>
    intro hfull
    have hhead : c.rbufHead = 0 := by
      by_contra hno
      exact hroom ⟨hfull, Nat.pos_of_ne_zero hno⟩
    simp only [Conn.tail] at hfull
    omega

theorem Ahead.roomy (ahead : Ahead sys ctx c0 p c events)
    (short : c.unread.length < peerRecvBufferSize) :
    Ahead sys ctx c0 p c.makeRoom events ∧ c.makeRoom.allocated = c.allocated ∧
      c.makeRoom.tail ≠ 0 ∧
      c.makeRoom.unread = c.unread ∧ c.makeRoom.session = c.session ∧ c.makeRoom.mse = c.mse ∧
      c.makeRoom.consumed = c.consumed := by
  have htail := makeRoom_tail short
  unfold Conn.makeRoom at htail ⊢
  split
  · next hfull =>
    rw [if_pos hfull] at htail
    exact ⟨ahead.compacted, rfl, htail, compact_unread c, rfl, rfl, rfl⟩
  · next hroom =>
    rw [if_neg hroom] at htail
    exact ⟨ahead, rfl, htail, rfl, rfl, rfl, rfl⟩

theorem Delivered.moved {evs : List Event} {ok : Bool}
    (delivered : Delivered sys ctx c0 p ⟨c, evs, ok⟩) (valid : c'.Valid)
    (session : c'.session = c.session) (mse : c'.mse = c.mse) (unread : c'.unread = c.unread)
    (consumed : c'.consumed = c.consumed) : Delivered sys ctx c0 p ⟨c', evs, ok⟩ := by
  obtain ⟨_, hsession, hevents, hok, hconsumed, ⟨seen, hseen, hthrough, hall⟩, hunread, hcipher⟩ :=
    delivered
  refine ⟨valid, session.trans hsession, hevents, hok, ?_,
    ⟨seen, hseen, hthrough.moved unread consumed, hall⟩, ?_, ?_⟩
  · dsimp only
    rw [consumed]
    exact hconsumed
  · rw [unread]
    exact hunread
  · rw [mse]
    exact hcipher

theorem recvLoop_delivered {chunks : List (List UInt8)} (nonempty : [] ∉ chunks)
    (ahead : Ahead sys ctx c0 p c events) (allocated : c.allocated = true)
    (h : recvLoop sys ctx (chunks.map .data) c = some o) :
    Delivered sys ctx c0 (p ++ chunks) (o.after events) ∧
      (o.ok = true → Ahead sys ctx c0 (p ++ chunks) o.conn (events ++ o.events) ∧
        o.conn.allocated = true) := by
  induction chunks generalizing p c events o with
  | nil =>
    obtain ⟨hdelivered, hkept, hnext⟩ := ahead.process
    unfold recvLoop at h
    rw [List.append_nil]
    cases hok : (peerProcess sys ctx c).ok with
    | false =>
      simp only [hok, if_true, Option.some.injEq] at h
      subst h
      exact ⟨hdelivered, fun hno => by rw [hok] at hno; cases hno⟩
    | true =>
      obtain ⟨hahead, hshort⟩ := hnext hok
      obtain ⟨hroomy, hsame, htail, hunread, hsession, hmse, hconsumed⟩ := hahead.roomy hshort
      simp only [hok, Bool.true_eq_false, if_false, htail, List.map_nil, Option.some.injEq] at h
      subst h
      refine ⟨?_, fun _ => ⟨hroomy, (hsame.trans hkept).trans allocated⟩⟩
      simp only [Received.after, hok] at hdelivered ⊢
      exact hdelivered.moved hroomy.valid hsession hmse hunread hconsumed
  | cons chunk rest ih =>
    obtain ⟨hdelivered, hkept, hnext⟩ := ahead.process
    unfold recvLoop at h
    cases hok : (peerProcess sys ctx c).ok with
    | false =>
      simp only [hok, if_true, Option.some.injEq] at h
      subst h
      exact ⟨hdelivered.more hok _, fun hno => by rw [hok] at hno; cases hno⟩
    | true =>
      obtain ⟨hahead, hshort⟩ := hnext hok
      obtain ⟨hroomy, hsame, htail, _, _, _, _⟩ := hahead.roomy hshort
      have hallocated := (hsame.trans hkept).trans allocated
      have hsome : chunk.length ≠ 0 := by
        intro hzero
        rw [List.length_eq_zero_iff] at hzero
        subst hzero
        exact nonempty List.mem_cons_self
      simp only [hok, Bool.true_eq_false, if_false, htail, List.map_cons, hsome] at h
      split at h
      · cases h
      · next hfits =>
        obtain ⟨t, ht, rfl⟩ := Option.map_eq_some_iff.mp h
        obtain ⟨hrest, hlast⟩ := ih (fun hmem => nonempty (List.mem_cons_of_mem chunk hmem))
          (hroomy.receive hallocated (Nat.le_of_not_lt hfits))
          (((receive_frame _ _).2.1).trans hallocated) ht
        simp only [Received.after, List.append_assoc, List.singleton_append] at hrest hlast ⊢
        exact ⟨hrest, hlast⟩

theorem peerRecv_brings {chunks : List (List UInt8)} (nonempty : [] ∉ chunks) :
    Brings sys ctx c0 id (fun call => peerRecv sys ctx (call.map .data)) chunks := by
  intro p c events o ahead ready hcall
  have hstate : c.session.peer.state ≠ .connecting := by
    intro hno
    rcases ahead.live with hstate | hstate
    · rw [hno] at hstate
      cases hstate
    · rw [hno] at hstate
      cases hstate
  obtain ⟨hensured, hallocated, _⟩ := ahead.ensured ready
  simp only [peerRecv, hstate, if_false, ready, if_true] at hcall
  exact recvLoop_delivered nonempty hensured hallocated hcall

/-- Both deliveries are the reader's. -/
theorem deliver_delivered {d : Delivery} {stream : List UInt8} (valid : c.Valid)
    (live : Live c.session)
    (cuts : d.Cuts stream) (nonempty : stream ≠ []) (ready : (peerRbufEnsure sys c).1 = true)
    (h : deliver sys ctx c d = some o) : Delivered sys ctx c d.chunks o := by
  have hstart := Ahead.start sys ctx valid live
  obtain ⟨rfl, hchunks, _⟩ := cuts
  cases d with
  | utp chunks =>
    have hsome : chunks ≠ [] := by
      rintro rfl
      exact nonempty rfl
    have hbrings : ∀ chunk ∈ chunks, Brings sys ctx c (fun chunk => [chunk])
      (utpRead sys ctx) chunk := by
      intro chunk hmem
      refine utpRead_brings ?_
      rintro rfl
      exact hchunks hmem
    have hdelivered := inTurn_delivered hsome hbrings hstart ready h
    rwa [List.nil_append, ← List.flatMap_def, List.flatMap_singleton'] at hdelivered
  | tcp calls =>
    have hsome : calls ≠ [] := by
      rintro rfl
      exact nonempty rfl
    have hbrings : ∀ call ∈ calls,
        Brings sys ctx c id (fun call => peerRecv sys ctx (call.map .data)) call := by
      intro call hmem
      refine peerRecv_brings ?_
      intro hempty
      exact hchunks (List.mem_flatten.mpr ⟨call, hmem, hempty⟩)
    have hdelivered := inTurn_delivered hsome hbrings hstart ready h
    rwa [List.nil_append, List.map_id] at hdelivered

/-- Without a buffer the peer is given up at the first call. -/
theorem deliver_unready {d : Delivery} {stream : List UInt8} (live : Live c.session)
    (cuts : d.Cuts stream) (nonempty : stream ≠ []) (unready : (peerRbufEnsure sys c).1 = false)
    (h : deliver sys ctx c d = some o) : o = ⟨c, [], false⟩ := by
  obtain ⟨rfl, hchunks, _⟩ := cuts
  have hsame : peerRbufEnsure sys c = (false, c) := by
    unfold peerRbufEnsure at unready ⊢
    split at unready
    · cases unready
    · split at unready
      · cases unready
      · next hallocated hmalloc => simp [hallocated, hmalloc]
  cases d with
  | utp chunks =>
    cases chunks with
    | nil => exact absurd rfl nonempty
    | cons chunk rest =>
      have hsome : chunk.length ≠ 0 := by
        intro hzero
        rw [List.length_eq_zero_iff] at hzero
        subst hzero
        exact hchunks List.mem_cons_self
      simp only [deliver, inTurn, utpRead, peerRbufAppend, hsome, if_false, hsame, if_true] at h
      split at h
      · cases h
      · next hcall =>
        split at hcall
        · cases hcall
        · cases hcall
          cases h
          rfl
  | tcp calls =>
    cases calls with
    | nil => exact absurd rfl nonempty
    | cons call rest =>
      have hstate : c.session.peer.state ≠ .connecting := by
        rcases live with hstate | hstate <;> simp [hstate]
      simp only [deliver, inTurn, peerRecv, hstate, if_false, hsame, Bool.false_eq_true,
        Option.some.injEq] at h
      exact h.symm

/-- An empty stream is delivered by doing nothing. -/
theorem deliver_nothing {d : Delivery} (cuts : d.Cuts []) (h : deliver sys ctx c d = some o) :
    o = ⟨c, [], true⟩ := by
  obtain ⟨hflat, hchunks, hcalls⟩ := cuts
  have hnone : d.chunks = [] := by
    cases hcase : d.chunks with
    | nil => rfl
    | cons chunk rest =>
      rw [hcase] at hflat hchunks
      have hempty : chunk = [] := by
        rw [List.flatten_cons, List.append_eq_nil_iff] at hflat
        exact hflat.1
      subst hempty
      exact absurd List.mem_cons_self hchunks
  cases d with
  | utp chunks =>
    have hchunks : chunks = [] := hnone
    subst hchunks
    simp only [deliver, inTurn, Option.some.injEq] at h
    exact h.symm
  | tcp calls =>
    have hnil : calls = [] := by
      cases calls with
      | nil => rfl
      | cons call rest =>
        have hcall : call = [] := by
          simp only [Delivery.chunks, List.flatten_cons, List.append_eq_nil_iff] at hnone
          exact hnone.1
        subst hcall
        exact absurd List.mem_cons_self hcalls
    subst hnil
    simp only [deliver, inTurn, Option.some.injEq] at h
    exact h.symm

end Deliveries

/-- Two deliveries of one stream to the same connection: the same calls, the same return
value and the same state of the peer, with as many bytes consumed; what is unread is what
comes next of the chunks that had arrived, which are all of them unless -1 was returned. -/
structure Agree (c : Conn) (d d' : Delivery) (o o' : Received) : Prop where
  events : o.events = o'.events
  ok : o.ok = o'.ok
  session : o.conn.session = o'.conn.session
  consumed : o.conn.consumed = o'.conn.consumed
  arrived : Arrived c d.chunks o
  arrived' : Arrived c d'.chunks o'
  unread : o.ok = true → o.conn.unread = o'.conn.unread
  cipher : o.ok = true → o.conn.mse = o'.conn.mse

theorem arrived_nothing (c : Conn) (chunks : List (List UInt8)) (events : List Event) :
    Arrived c chunks ⟨c, events, false⟩ := by
  have hplain : c.plain [] = [] := List.length_eq_zero_iff.mp (plain_length c [])
  refine ⟨[], List.nil_prefix, ⟨[], ?_, rfl⟩, fun hno => Bool.noConfusion hno⟩
  rw [Conn.taken, List.flatten_nil, hplain, List.append_nil, List.nil_append]

theorem Delivered.agree {sys : System} {ctx : Ctx} {c : Conn} {d d' : Delivery} {o o' : Received}
    (same : d.chunks.flatten = d'.chunks.flatten) (first : Delivered sys ctx c d.chunks o)
    (second : Delivered sys ctx c d'.chunks o') : Agree c d d' o o' := by
  have htaken : c.taken d.chunks = c.taken d'.chunks := by rw [Conn.taken, same, Conn.taken]
  have houtcome : outcome sys ctx c d.chunks = outcome sys ctx c d'.chunks := by
    rw [outcome, htaken, outcome]
  have hok : o.ok = o'.ok := by rw [first.ok, second.ok, houtcome]
  refine ⟨?_, hok, ?_, ?_, first.arrived, second.arrived, ?_, ?_⟩
  · rw [first.events, second.events, houtcome]
  · rw [first.session, second.session, houtcome]
  · have hfirst := first.consumed
    rw [houtcome, htaken, ← second.consumed] at hfirst
    exact Nat.add_right_cancel hfirst
  · intro hgoes
    rw [first.unread hgoes, second.unread (hok ▸ hgoes), houtcome]
  · intro hgoes
    rw [first.cipher hgoes, second.cipher (hok ▸ hgoes), same]

/-- However a stream is cut, and whichever way it comes in, a live peer makes the same calls
of it. -/
theorem deliver_agree (sys : System) (ctx : Ctx) {c : Conn} (valid : c.Valid)
    (live : Live c.session) {stream : List UInt8} {d d' : Delivery} (cuts : d.Cuts stream)
    (cuts' : d'.Cuts stream) {o o' : Received} (h : deliver sys ctx c d = some o)
    (h' : deliver sys ctx c d' = some o') : Agree c d d' o o' := by
  by_cases hempty : stream = []
  · subst hempty
    have hnothing := deliver_nothing cuts h
    have hnothing' := deliver_nothing cuts' h'
    have harrived : ∀ {d : Delivery}, d.Cuts [] → Arrived c d.chunks ⟨c, [], true⟩ := by
      rintro d ⟨hflat, _, _⟩
      refine ⟨d.chunks, List.prefix_refl _, ⟨[], ?_, rfl⟩, fun _ => rfl⟩
      have hplain : c.plain [] = [] := List.length_eq_zero_iff.mp (plain_length c [])
      rw [Conn.taken, hflat, hplain, List.append_nil, List.nil_append]
    subst hnothing hnothing'
    exact ⟨rfl, rfl, rfl, rfl, harrived cuts, harrived cuts', fun _ => rfl, fun _ => rfl⟩
  · cases hready : (peerRbufEnsure sys c).1 with
    | false =>
      have hgone := deliver_unready live cuts hempty hready h
      have hgone' := deliver_unready live cuts' hempty hready h'
      subst hgone hgone'
      exact ⟨rfl, rfl, rfl, rfl, arrived_nothing c _ _, arrived_nothing c _ _, fun _ =>
        rfl, fun _ => rfl⟩
    | true =>
      exact (deliver_delivered valid live cuts hempty hready h).agree (cuts.1.trans cuts'.1.symm)
        (deliver_delivered valid live cuts' hempty hready h')

/-- The buffer stays valid, so that the next delivery can begin where this one ends. -/
theorem deliver_valid (sys : System) (ctx : Ctx) {c : Conn} (valid : c.Valid)
    (live : Live c.session)
    {stream : List UInt8} {d : Delivery} (cuts : d.Cuts stream) {o : Received}
    (h : deliver sys ctx c d = some o) : o.conn.Valid := by
  by_cases hempty : stream = []
  · subst hempty
    rw [deliver_nothing cuts h]
    exact valid
  · cases hready : (peerRbufEnsure sys c).1 with
    | false =>
      rw [deliver_unready live cuts hempty hready h]
      exact valid
    | true => exact (deliver_delivered valid live cuts hempty hready h).valid

/-! A peer that announces a piece, and one that is refused. -/

def sampleSystem : System where
  net _ len := len
  clock n := n
  malloc _ := true
  crypto := ⟨fun _ _ => [], fun _ => []⟩
  priv := []
  connectError := false

def sampleCtx : Ctx where
  infoHash := List.replicate 20 1
  peerId := List.replicate 20 2
  numPieces := 8
  ourBf := [0]
  listenPort := 6881

/-- A peer after its handshake, with an empty buffer. -/
def sampleConn : Conn where
  session := {
    peer := { peerAlloc false 1 0 0 with state := .active }
    amInterested := true
    peerInterested := false
    supportsExt := false
    peerExtPex := 0
    extHandshakeSent := false
    telemetryPieceBytes := 0
    readings := 0 }
  mseEnabled := false
  mse := .fresh [] [] []
  allocated := true
  rbuf := []
  rbufHead := 0
  consumed := 0

theorem sampleConn_valid : sampleConn.Valid := ⟨Nat.le_refl 0, Nat.zero_le _, fun _ => rfl⟩

/-- A message that comes in by TCP in three reads, or by uTP in one piece. -/
theorem deliver_agree_have : ∃ o o',
    deliver sampleSystem sampleCtx sampleConn (.tcp [[[0, 0], [0]], [[5, 4, 0, 0, 0, 3]]]) =
      some o ∧
      deliver sampleSystem sampleCtx sampleConn (.utp [[0, 0, 0, 5, 4, 0, 0, 0, 3]]) = some o' ∧
      o'.events = [.onHave 3] ∧ Agree sampleConn (.tcp [[[0, 0], [0]], [[5, 4, 0, 0, 0, 3]]])
        (.utp [[0, 0, 0, 5, 4, 0, 0, 0, 3]]) o o' := by
  obtain ⟨o, ho⟩ := Option.isSome_iff_exists.mp (show
    (deliver sampleSystem sampleCtx sampleConn
      (.tcp [[[0, 0], [0]], [[5, 4, 0, 0, 0, 3]]])).isSome = true by decide)
  have hevents : (deliver sampleSystem sampleCtx sampleConn
      (.utp [[0, 0, 0, 5, 4, 0, 0, 0, 3]])).map (fun o => o.events) = some [.onHave 3] := by decide
  obtain ⟨o', ho', heq⟩ := Option.map_eq_some_iff.mp hevents
  have hreads : (Delivery.tcp [[[0, 0], [0]], [[5, 4, 0, 0, 0, 3]]]).Cuts
    [0, 0, 0, 5, 4, 0, 0, 0, 3] :=
    ⟨rfl, by decide, by decide⟩
  have hwhole : (Delivery.utp [[0, 0, 0, 5, 4, 0, 0, 0, 3]]).Cuts [0, 0, 0, 5, 4, 0, 0, 0, 3] :=
    ⟨rfl, by decide, trivial⟩
  exact ⟨o, o', ho, ho', heq,
    deliver_agree sampleSystem sampleCtx sampleConn_valid (Or.inr rfl) hreads hwhole ho ho'⟩

/-- A message that is too long is refused as soon as its length is there, and whatever has
not arrived by then is not read any more. -/
theorem refused_unread :
    (Delivery.utp [[255, 255, 255, 255], [0]]).Cuts [255, 255, 255, 255, 0] ∧
      (Delivery.utp [[255, 255, 255, 255, 0]]).Cuts [255, 255, 255, 255, 0] ∧
      (deliver sampleSystem sampleCtx sampleConn (.utp [[255, 255, 255, 255], [0]])).map
        (fun o => (o.ok, o.conn.unread)) = some (false, [255, 255, 255, 255]) ∧
      (deliver sampleSystem sampleCtx sampleConn (.utp [[255, 255, 255, 255, 0]])).map
        (fun o => (o.ok, o.conn.unread)) = some (false, [255, 255, 255, 255, 0]) := by
  refine ⟨⟨rfl, by decide, trivial⟩, ⟨rfl, by decide, trivial⟩, ?_, ?_⟩
  · decide
  · decide

end PeerIngest
