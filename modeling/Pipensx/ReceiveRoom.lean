import Pipensx.MseSegmentation
import Pipensx.PeerSegmentation

/-!
# The receive buffer has room

The buffer is as large as the largest frame. Whatever a peer sends, `peer_process` leaves
less than that unread: less than a public key while the encryption handshake goes on, less
than a handshake, or a frame that is not complete. The rest of the buffer can be had by moving
the unread bytes to the front, which the two ways bytes come in do at different times.
-/

namespace Mse

/-- A call uses no more than it was given, and if it asks for more it has left less than a
public key. -/
def Feed.Bounded (f : Feed) (input : List UInt8) : Prop :=
  f.consumed ≤ input.length ∧ (f.status = .more → input.length < f.consumed + mseDhLen)

section Residue

variable {c : Client} {input : List UInt8}

theorem Feed.Bounded.after {f : Feed} {n : Nat} (h : f.Bounded (input.drop n))
    (used : n ≤ input.length) (out : List UInt8) : (f.after n out).Bounded input := by
  obtain ⟨hconsumed, hmore⟩ := h
  rw [List.length_drop] at hconsumed hmore
  refine ⟨?_, fun hstatus => ?_⟩
  · simp only [Feed.after]
    omega
  · have hless := hmore hstatus
    simp only [Feed.after]
    omega

theorem paddLoop_used (c : Client) (input : List UInt8) : (paddLoop c input).2 ≤ input.length ∧
    ((paddLoop c input).1.paddRemaining > 0 → (paddLoop c input).2 = input.length) := by
  induction input generalizing c with
  | nil => simp [paddLoop]
  | cons b rest ih =>
    obtain ⟨hused, hall⟩ := ih c.paddByte
    simp only [paddLoop]
    split
    · simp only [List.length_cons]
      exact ⟨by omega, fun hpadd => by rw [hall hpadd]⟩
    · next hdone => exact ⟨Nat.zero_le _, fun hpadd => absurd hpadd hdone⟩

theorem selectLoop_used (c : Client) (input : List UInt8) : (selectLoop c input).2 ≤ input.length ∧
    ((selectLoop c input).1.selectBuf.length < 6 → (selectLoop c input).2 = input.length) := by
  induction input generalizing c with
  | nil => simp [selectLoop]
  | cons b rest ih =>
    obtain ⟨hused, hall⟩ := ih (c.selectByte b)
    simp only [selectLoop]
    split
    · simp only [List.length_cons]
      exact ⟨by omega, fun hshort => by rw [hall hshort]⟩
    · next hdone => exact ⟨Nat.zero_le _, fun hshort => absurd hshort hdone⟩

theorem feedPadd_bounded (c : Client) (input : List UInt8) : (feedPadd c input).Bounded input := by
  obtain ⟨hused, hall⟩ := paddLoop_used c input
  have hpos : 0 < mseDhLen := by decide
  simp only [feedPadd]
  split
  · next hpadd =>
    refine ⟨hused, fun _ => ?_⟩
    have hsame := hall hpadd
    simp only
    omega
  · exact ⟨hused, fun hmore => by cases hmore⟩

theorem feedSelect_bounded (c : Client) (input : List UInt8) :
    (feedSelect c input).Bounded input := by
  obtain ⟨hused, hall⟩ := selectLoop_used c input
  have hpos : 0 < mseDhLen := by decide
  simp only [feedSelect]
  split
  · next hshort =>
    refine ⟨hused, fun _ => ?_⟩
    have hsame := hall hshort
    simp only
    omega
  · split
    · exact ⟨hused, fun hmore => by cases hmore⟩
    · exact (feedPadd_bounded _ _).after hused []

theorem feedSync_bounded (c : Client) (input : List UInt8) : (feedSync c input).Bounded input := by
  simp only [feedSync]
  split
  · next n hfound => exact (feedSelect_bounded _ _).after (findVc_le hfound) []
  · split
    · exact ⟨Nat.sub_le _ _, fun hmore => by cases hmore⟩
    · refine ⟨Nat.sub_le _ _, fun _ => ?_⟩
      simp only [mseVcLen, mseDhLen]
      omega

/-- Less than a public key is left when more is needed. -/
theorem mseClientFeed_bounded (k : Crypto) (outCap : Nat) (c : Client) (input : List UInt8) :
    (mseClientFeed k outCap c input).Bounded input := by
  simp only [mseClientFeed]
  split
  · split
    · next hshort => exact ⟨Nat.zero_le _, fun _ => by simp only; omega⟩
    · next hlong =>
      split
      · exact ⟨by simp only; omega, fun hmore => by cases hmore⟩
      · exact (feedSync_bounded _ _).after (by omega) _
  · exact feedSync_bounded c input
  · exact feedSelect_bounded c input
  · exact feedPadd_bounded c input
  · exact ⟨Nat.zero_le _, fun hmore => by cases hmore⟩
  · exact ⟨Nat.zero_le _, fun hmore => by cases hmore⟩

end Residue

end Mse

namespace PeerIngest

open PeerSend PeerRequests StreamReader

/-- One of the three states in which a peer reads. -/
def Conn.Reading (c : Conn) : Prop := c.session.peer.state = .mse ∨ Live c.session

/-- What `peer_process` leaves when it returns 0. -/
structure Conn.Roomy (c : Conn) : Prop where
  valid : c.Valid
  reading : c.Reading
  short : c.unread.length < peerRecvBufferSize

section Processing

variable {sys : System} {ctx : Ctx} {c : Conn}

theorem peerProcess_live (valid : c.Valid) (live : Live c.session)
    (ok : (peerProcess sys ctx c).ok = true) :
    (peerProcess sys ctx c).conn.Roomy ∧ (peerProcess sys ctx c).conn.allocated = c.allocated := by
  have hrest := drain_rest (read_incremental sys ctx) c.session c.unread
  have hkept := drain_kept sys ctx c.unread live
  rw [peerProcess_eq sys ctx live] at ok ⊢
  obtain ⟨hsession, _, hallocated, hunread⟩ := processed_frame hrest
  have hrunning : (drain (read sys ctx) c.session c.unread).stopped = false := by
    simpa [Conn.processed] using ok
  have hwait := drain_waits (read_incremental sys ctx) c.session c.unread hrunning
  refine ⟨⟨processed_valid valid, Or.inr ?_, ?_⟩, hallocated⟩
  · rw [hsession]
    exact hkept.live
  · rw [hunread]
    exact read_wait hkept.live hwait

/-- Bytes are consumed that are there. -/
theorem consume_valid (valid : c.Valid) {n : Nat} (used : n ≤ c.unread.length) :
    (c.consume n).Valid := by
  have hhead := valid.head
  rw [unread_length] at used
  refine ⟨?_, valid.fits, valid.none⟩
  simp only [Conn.consume]
  omega

theorem activate_valid (valid : c.Valid) : c.activate.Valid := by
  have hhead := valid.head
  have hfits := valid.fits
  have hlength : c.activate.rbuf.length = c.rbuf.length := by
    have hcrypt : (rc4Crypt c.mse.recvRc4 c.unread).1.length = c.unread.length := by
      simp [rc4Crypt]
    simp only [Conn.activate, List.length_append, List.length_take, hcrypt, unread_length]
    omega
  refine ⟨?_, ?_, ?_⟩
  · rw [hlength]
    exact hhead
  · rw [hlength]
    exact hfits
  · intro hfree
    have hempty := valid.none hfree
    rw [hempty] at hlength
    exact List.length_eq_zero_iff.mp hlength

theorem Conn.Valid.same {c' : Conn} (valid : c.Valid) (rbuf : c'.rbuf = c.rbuf)
    (head : c'.rbufHead = c.rbufHead) (allocated : c'.allocated = c.allocated) : c'.Valid := by
  refine ⟨?_, ?_, ?_⟩
  · rw [head, rbuf]
    exact valid.head
  · rw [rbuf]
    exact valid.fits
  · rw [rbuf, allocated]
    exact valid.none

/-- The encryption handshake needs more, or the plain one begins. -/
theorem processMse_roomy (valid : c.Valid) (state : c.session.peer.state = .mse)
    (ok : (processMse sys c).2 = true) :
    (processMse sys c).1.Valid ∧ (processMse sys c).1.allocated = c.allocated ∧
      (((processMse sys c).1.session.peer.state = .mse ∧ (processMse sys c).1.unread.length <
        Mse.mseDhLen) ∨ (processMse sys c).1.session.peer.state = .handshake) := by
  obtain ⟨hused, hmore⟩ := Mse.mseClientFeed_bounded sys.crypto 256 c.mse c.unread
  simp only [processMse] at ok ⊢
  generalize Mse.mseClientFeed sys.crypto 256 c.mse c.unread = r at hused hmore ok ⊢
  have hconsumed : ({ c with mse := r.client }.consume r.consumed).Valid :=
    (consume_valid valid hused).same rfl rfl rfl
  have hsent : ∀ sent : Bool × Conn,
      sent = (if r.produced.length > 0 then ({ c with mse := r.client }.consume r.consumed).sendRaw
        sys.net r.produced
        else (true, { c with mse := r.client }.consume r.consumed)) →
      sent.2.Valid ∧ sent.2.allocated = c.allocated ∧ sent.2.session.peer.state = .mse ∧
        sent.2.unread = c.unread.drop r.consumed := by
    rintro sent rfl
    have hunread : ({ c with mse := r.client }.consume r.consumed).unread =
      c.unread.drop r.consumed :=
      consume_unread _ r.consumed
    split
    · exact ⟨hconsumed.same rfl rfl rfl, rfl, state, hunread⟩
    · exact ⟨hconsumed, rfl, state, hunread⟩
  generalize (if r.produced.length > 0 then ({ c with mse := r.client }.consume r.consumed).sendRaw
    sys.net r.produced
        else (true, { c with mse := r.client }.consume r.consumed)) = sent at hsent ok ⊢
  obtain ⟨hvalid, hallocated, hstate, hunread⟩ := hsent sent rfl
  split
  · next hrefused =>
    rw [if_pos hrefused] at ok
    cases ok
  · next hsome =>
    rw [if_neg hsome] at ok
    split
    · next hfail =>
      rw [hfail] at ok
      cases ok
    · exact ⟨activate_valid hvalid, hallocated, Or.inr rfl⟩
    · next hstatus =>
      refine ⟨hvalid, hallocated, Or.inl ⟨hstate, ?_⟩⟩
      have hless := hmore hstatus
      rw [hunread, List.length_drop]
      omega

/-- Nothing is read in the other states. -/
theorem processOpen_idle (open_ : c.session.peer.state ≠ .handshake)
    (active : c.session.peer.state ≠ .active) : processOpen sys ctx c = ⟨c.rewind, [], true⟩ := by
  simp [processOpen, open_, processActive, processMessages, active]

theorem processOpen_live (live : Live c.session) :
    processOpen sys ctx c = peerProcess sys ctx c := by
  rw [peerProcess, if_neg]
  intro hmse
  rcases live with hstate | hstate
  · rw [hmse] at hstate
    cases hstate
  · rw [hmse] at hstate
    cases hstate

theorem peerProcess_roomy (valid : c.Valid) (reading : c.Reading)
    (ok : (peerProcess sys ctx c).ok = true) :
    (peerProcess sys ctx c).conn.Roomy ∧ (peerProcess sys ctx c).conn.allocated = c.allocated := by
  rcases reading with hstate | hlive
  · simp only [peerProcess, hstate, if_true] at ok ⊢
    cases hmse : (processMse sys c).2 with
    | false =>
      rw [hmse] at ok
      cases ok
    | true =>
      obtain ⟨hvalid, hallocated, hnext⟩ := processMse_roomy valid hstate hmse
      rw [hmse] at ok
      simp only [if_true] at ok ⊢
      rcases hnext with ⟨hmore, hshort⟩ | hhandshake
      · rw [processOpen_idle (by simp [hmore]) (by simp [hmore])]
        refine ⟨⟨rewind_valid hvalid, Or.inl ?_, ?_⟩, (rewind_frame _).2.2.1.trans hallocated⟩
        · rw [(rewind_frame _).1]
          exact hmore
        · rw [rewind_unread]
          have hsize : Mse.mseDhLen < peerRecvBufferSize := by decide
          omega
      · rw [processOpen_live (Or.inl hhandshake)] at ok ⊢
        obtain ⟨hroomy, hkept⟩ := peerProcess_live hvalid (Or.inl hhandshake) ok
        exact ⟨hroomy, hkept.trans hallocated⟩
  · exact peerProcess_live valid hlive ok

end Processing

/-- The buffer when `peer_rbuf_append` has made what room it can. -/
def Conn.readied (c : Conn) (len : Nat) : Conn :=
  if c.rewind.tail < len ∧ c.rewind.rbufHead > 0 then c.rewind.compact else c.rewind

/-- `peer_rbuf_append` finds the buffer full. -/
def AppendFull (sys : System) (c : Conn) (data : List UInt8) : Prop :=
  data.length ≠ 0 ∧ (peerRbufEnsure sys c).1 = true ∧
    data.length > ((peerRbufEnsure sys c).2.readied data.length).tail

section Appending

variable {sys : System} {c : Conn} {data : List UInt8}

theorem peerRbufEnsure_frame (sys : System) (c : Conn) :
    (peerRbufEnsure sys c).2.rbuf = c.rbuf ∧ (peerRbufEnsure sys c).2.rbufHead = c.rbufHead ∧
      (peerRbufEnsure sys c).2.session = c.session ∧
      ((peerRbufEnsure sys c).1 = true → (peerRbufEnsure sys c).2.allocated = true) ∧
      ((peerRbufEnsure sys c).1 = true ↔ c.allocated = true ∨
        sys.malloc peerRecvBufferSize = true) := by
  simp only [peerRbufEnsure]
  split
  · next hyes => exact ⟨rfl, rfl, rfl, fun _ => hyes, by simp [hyes]⟩
  · next hno =>
    split
    · next hmalloc => exact ⟨rfl, rfl, rfl, fun _ => rfl, by simp [hmalloc]⟩
    · next hmalloc => exact ⟨rfl, rfl, rfl, (fun hready => by cases hready), by simp [hno, hmalloc]⟩

theorem ensure_valid (valid : c.Valid) : (peerRbufEnsure sys c).2.Valid := by
  have hfits := valid.fits
  obtain ⟨hrbuf, hhead, _⟩ := peerRbufEnsure_frame sys c
  refine ⟨?_, ?_, ?_⟩
  · rw [hhead, hrbuf]
    exact valid.head
  · rw [hrbuf]
    exact hfits
  · intro hfree
    refine hrbuf.trans (valid.none ?_)
    simp only [peerRbufEnsure] at hfree
    split at hfree
    · exact hfree
    · next hno => simpa using hno

theorem readied_valid (valid : c.Valid) (len : Nat) : (c.readied len).Valid := by
  simp only [Conn.readied]
  split
  · exact compact_valid (rewind_valid valid)
  · exact rewind_valid valid

theorem readied_frame (c : Conn) (len : Nat) :
    (c.readied len).session = c.session ∧ (c.readied len).allocated = c.allocated := by
  obtain ⟨hsession, _, hallocated, _⟩ := rewind_frame c
  simp only [Conn.readied]
  split
  · exact ⟨hsession, hallocated⟩
  · exact ⟨hsession, hallocated⟩

/-- All of the free capacity can be had at the end. -/
theorem readied_tail (c : Conn) {len : Nat} (fits : len ≤ peerRbufSpace c) :
    len ≤ (c.readied len).tail := by
  have hlength := unread_length c.rewind
  rw [peerRbufSpace_eq, ← rewind_unread] at fits
  simp only [Conn.readied]
  split
  · simp only [Conn.tail, Conn.compact]
    exact fits
  · next hroom =>
    simp only [Conn.tail] at hroom ⊢
    omega

theorem append_eq (sys : System) (c : Conn) (data : List UInt8) : peerRbufAppend sys c data =
    if data.length = 0 then (c, true)
    else if (peerRbufEnsure sys c).1 = false then ((peerRbufEnsure sys c).2, false)
    else if data.length > ((peerRbufEnsure sys c).2.readied data.length).tail then
      ((peerRbufEnsure sys c).2.readied data.length, false)
    else (((peerRbufEnsure sys c).2.readied data.length).receive data, true) := rfl

theorem append_not_full (fits : data.length ≤ peerRbufSpace c) : ¬ AppendFull sys c data := by
  rintro ⟨_, _, hfull⟩
  obtain ⟨hrbuf, hhead, _⟩ := peerRbufEnsure_frame sys c
  have hspace : peerRbufSpace (peerRbufEnsure sys c).2 = peerRbufSpace c := by
    rw [peerRbufSpace, peerRbufSpace, hrbuf, hhead]
  have htail := readied_tail (peerRbufEnsure sys c).2 (hspace ▸ fits)
  omega

theorem append_iff (sys : System) (c : Conn) (data : List UInt8) :
    (peerRbufAppend sys c data).2 = true ↔
    data.length = 0 ∨ ((c.allocated = true ∨ sys.malloc peerRecvBufferSize = true) ∧
      ¬ AppendFull sys c data) := by
  obtain ⟨_, _, _, _, hready⟩ := peerRbufEnsure_frame sys c
  rw [← hready, append_eq]
  split
  · next hempty => simp [hempty]
  · next hsome =>
    split
    · next hfail => simp [hsome, hfail]
    · next hok =>
      have hok' : (peerRbufEnsure sys c).1 = true := by simpa using hok
      split
      · next hfull => simp [AppendFull, hsome, hok', hfull]
      · next hroom => simp [AppendFull, hsome, hok', hroom]

theorem append_valid (valid : c.Valid) (ok : (peerRbufAppend sys c data).2 = true) :
    (peerRbufAppend sys c data).1.Valid ∧ (peerRbufAppend sys c data).1.session = c.session := by
  obtain ⟨_, _, hsession, hallocated, _⟩ := peerRbufEnsure_frame sys c
  rw [append_eq] at ok ⊢
  split
  · exact ⟨valid, rfl⟩
  · next hsome =>
    rw [if_neg hsome] at ok
    split
    · next hfail =>
      rw [if_pos hfail] at ok
      cases ok
    · next hready =>
      rw [if_neg hready] at ok
      split
      · next hfull =>
        rw [if_pos hfull] at ok
        cases ok
      · next hroom =>
        have hready' : (peerRbufEnsure sys c).1 = true := by simpa using hready
        obtain ⟨hsame, hkept⟩ := readied_frame (peerRbufEnsure sys c).2 data.length
        obtain ⟨hreceived, _⟩ := receive_frame ((peerRbufEnsure sys c).2.readied data.length) data
        refine ⟨receive_valid (readied_valid (ensure_valid valid) _)
          (hkept.trans (hallocated hready')) (by omega), ?_⟩
        exact hreceived.trans (hsame.trans hsession)

end Appending

/-- The loop of `peer_recv` comes to the branch for a full buffer. -/
def RecvFull (sys : System) (ctx : Ctx) : List NetRead → Conn → Prop
  | reads, c =>
    (peerProcess sys ctx c).ok = true ∧
      ((peerProcess sys ctx c).conn.makeRoom.tail = 0 ∨
        match reads with
        | .data bytes :: rest =>
          bytes.length ≤ (peerProcess sys ctx c).conn.makeRoom.tail ∧ bytes.length ≠ 0 ∧
            RecvFull sys ctx rest ((peerProcess sys ctx c).conn.makeRoom.receive bytes)
        | _ => False)

/-- `peer_recv` finds the buffer full. -/
def PeerRecvFull (sys : System) (ctx : Ctx) (reads : List NetRead) (c : Conn) : Prop :=
  c.session.peer.state ≠ .connecting ∧ (peerRbufEnsure sys c).1 = true ∧
    RecvFull sys ctx reads (peerRbufEnsure sys c).2

section Reading

variable {sys : System} {ctx : Ctx} {c : Conn} {reads : List NetRead}

theorem makeRoom_frame (c : Conn) :
    c.makeRoom.session = c.session ∧ c.makeRoom.allocated = c.allocated ∧
    (c.Valid → c.makeRoom.Valid) := by
  unfold Conn.makeRoom
  split
  · exact ⟨rfl, rfl, compact_valid⟩
  · exact ⟨rfl, rfl, id⟩

/-- The state after one round of the loop. -/
theorem round_roomy (valid : c.Valid) (reading : c.Reading) (allocated : c.allocated = true)
    (ok : (peerProcess sys ctx c).ok = true) :
    (peerProcess sys ctx c).conn.makeRoom.tail ≠ 0 ∧ (peerProcess sys ctx c).conn.makeRoom.Valid ∧
      (peerProcess sys ctx c).conn.makeRoom.Reading ∧
      (peerProcess sys ctx c).conn.makeRoom.allocated = true := by
  obtain ⟨hroomy, hkept⟩ := peerProcess_roomy valid reading ok
  obtain ⟨hsession, hallocated, hvalid⟩ := makeRoom_frame (peerProcess sys ctx c).conn
  refine ⟨makeRoom_tail hroomy.short, hvalid hroomy.valid, ?_,
    hallocated.trans (hkept.trans allocated)⟩
  rw [Conn.Reading, hsession]
  exact hroomy.reading

theorem receive_reading {bytes : List UInt8} (reading : c.Reading) : (c.receive bytes).Reading := by
  rw [Conn.Reading, (receive_frame c bytes).1]
  exact reading

theorem recv_not_full (valid : c.Valid) (reading : c.Reading) (allocated : c.allocated = true) :
    ¬ RecvFull sys ctx reads c := by
  induction reads generalizing c with
  | nil =>
    intro hreached
    unfold RecvFull at hreached
    obtain ⟨hok, hfull | hnone⟩ := hreached
    · exact (round_roomy valid reading allocated hok).1 hfull
    · exact hnone
  | cons next rest ih =>
    intro hreached
    unfold RecvFull at hreached
    obtain ⟨hok, hfull | hmore⟩ := hreached
    · exact (round_roomy valid reading allocated hok).1 hfull
    · obtain ⟨_, hvalid, hreading, hkept⟩ := round_roomy valid reading allocated hok
      cases next with
      | data bytes =>
        obtain ⟨hfits, _, hrest⟩ := hmore
        exact ih (receive_valid hvalid hkept hfits) (receive_reading hreading)
          ((receive_frame _ _).2.1.trans hkept) hrest
      | again => exact hmore
      | error => exact hmore

/-- The loop leaves a buffer that is in order. -/
theorem recvLoop_valid (valid : c.Valid) (reading : c.Reading) (allocated : c.allocated = true)
    {o : Received}
    (h : recvLoop sys ctx reads c = some o) (ok : o.ok = true) : o.conn.Valid ∧ o.conn.Reading := by
  refine recvLoop_induction (motive := fun c o => c.Valid → c.Reading →
    c.allocated = true → o.ok = true →
    o.conn.Valid ∧ o.conn.Reading) ?_ ?_ ?_ h valid reading allocated ok
  · intro c hfail _ _ _ hok
    rw [hfail] at hok
    cases hok
  · intro c _ hok valid reading allocated _
    obtain ⟨_, hvalid, hreading, _⟩ := round_roomy valid reading allocated hok
    exact ⟨hvalid, hreading⟩
  · intro c bytes t hok hfits ih valid reading allocated hlast
    obtain ⟨_, hvalid, hreading, hkept⟩ := round_roomy valid reading allocated hok
    exact ih (receive_valid hvalid hkept hfits) (receive_reading hreading)
      ((receive_frame _ _).2.1.trans hkept) hlast

end Reading

/-- What is done with a peer, each time with the system as it is then. Between the calls of
the receiving side the torrent works with the peer, which leaves its state and its buffer. -/
inductive ConnCall where
  | connected (sys : System)
  | append (sys : System) (data : List UInt8)
  | process (sys : System)
  | recv (sys : System) (reads : List NetRead)
  | work (session : Session)

/-- One call; `none` if it returns -1, for then the peer is destroyed. -/
def connStep (ctx : Ctx) (c : Conn) : ConnCall → Option Conn
  | .connected sys =>
    if c.session.peer.state = .connecting then
      let r := peerConnected sys ctx c
      if r.1 then some r.2 else none
    else none
  | .append sys data =>
    let r := peerRbufAppend sys c data
    if r.2 then some r.1 else none
  | .process sys =>
    let r := peerProcess sys ctx c
    if r.ok then some r.conn else none
  | .recv sys reads =>
    match peerRecv sys ctx reads c with
    | none => none
    | some r => if r.ok then some r.conn else none
  | .work session =>
    if session.peer.state = c.session.peer.state then some { c with session := session } else none

def connRun (ctx : Ctx) : Conn → List ConnCall → Option Conn
  | c, [] => some c
  | c, call :: rest => (connStep ctx c call).bind (fun c' => connRun ctx c' rest)

/-- A peer that is not dead, with its buffer in order. -/
structure Conn.Sound (c : Conn) : Prop where
  valid : c.Valid
  alive : c.session.peer.state = .connecting ∨ c.Reading

section Runs

variable {sys : System} {ctx : Ctx} {c c' : Conn}

theorem peerConnected_sound (sound : c.Sound) (ok : (peerConnected sys ctx c).1 = true) :
    (peerConnected sys ctx c).2.Sound := by
  simp only [peerConnected] at ok ⊢
  split
  · next henabled =>
    rw [if_pos henabled] at ok
    split
    · next hfail =>
      rw [if_pos hfail] at ok
      cases ok
    · exact ⟨sound.valid.same rfl rfl rfl, Or.inr (Or.inl rfl)⟩
  · exact ⟨sound.valid.same rfl rfl rfl, Or.inr (Or.inr (Or.inl rfl))⟩

theorem peerProcess_sound (sound : c.Sound) (ok : (peerProcess sys ctx c).ok = true) :
    (peerProcess sys ctx c).conn.Sound := by
  rcases sound.alive with hconnecting | hreading
  · have hidle : peerProcess sys ctx c = ⟨c.rewind, [], true⟩ := by
      rw [peerProcess, if_neg (by simp [hconnecting]), processOpen_idle (by simp [hconnecting])
        (by simp [hconnecting])]
    rw [hidle]
    refine ⟨rewind_valid sound.valid, Or.inl ?_⟩
    rw [(rewind_frame c).1]
    exact hconnecting
  · obtain ⟨hroomy, _⟩ := peerProcess_roomy sound.valid hreading ok
    exact ⟨hroomy.valid, Or.inr hroomy.reading⟩

theorem ensure_reading (reading : c.Reading) : (peerRbufEnsure sys c).2.Reading := by
  rw [Conn.Reading, (peerRbufEnsure_frame sys c).2.2.1]
  exact reading

theorem peerRecv_sound {reads : List NetRead} {o : Received} (sound : c.Sound)
    (h : peerRecv sys ctx reads c = some o) (ok : o.ok = true) : o.conn.Sound := by
  simp only [peerRecv] at h
  split at h
  · split at h
    · cases h
      cases ok
    · cases h
      exact peerConnected_sound sound ok
  · next hconnected =>
    have hreading := sound.alive.resolve_left hconnected
    split at h
    · next hready =>
      obtain ⟨hvalid, hreading'⟩ :=
        recvLoop_valid (ensure_valid sound.valid) (ensure_reading hreading)
        ((peerRbufEnsure_frame sys c).2.2.2.1 hready) h ok
      exact ⟨hvalid, Or.inr hreading'⟩
    · cases h
      cases ok

theorem Conn.Sound.step (sound : c.Sound) {call : ConnCall} (h : connStep ctx c call = some c') :
    c'.Sound := by
  cases call with
  | connected sys =>
    simp only [connStep] at h
    split at h
    · split at h
      · next hok =>
        cases h
        exact peerConnected_sound sound hok
      · cases h
    · cases h
  | append sys data =>
    simp only [connStep] at h
    split at h
    · next hok =>
      cases h
      obtain ⟨hvalid, hsession⟩ := append_valid sound.valid hok
      refine ⟨hvalid, ?_⟩
      rw [Conn.Reading, hsession]
      exact sound.alive
    · cases h
  | process sys =>
    simp only [connStep] at h
    split at h
    · next hok =>
      cases h
      exact peerProcess_sound sound hok
    · cases h
  | recv sys reads =>
    simp only [connStep] at h
    split at h
    · cases h
    · next o hrecv =>
      split at h
      · next hok =>
        cases h
        exact peerRecv_sound sound hrecv hok
      · cases h
  | work session =>
    simp only [connStep] at h
    split at h
    · next hstate =>
      cases h
      refine ⟨sound.valid.same rfl rfl rfl, ?_⟩
      simp only [Conn.Reading, Live, hstate]
      exact sound.alive
    · cases h

theorem Conn.Sound.run (sound : c.Sound) {calls : List ConnCall}
    (h : connRun ctx c calls = some c') : c'.Sound := by
  induction calls generalizing c with
  | nil =>
    cases h
    exact sound
  | cons call rest ih =>
    obtain ⟨c1, hstep, hrest⟩ := Option.bind_eq_some_iff.mp h
    exact ih (sound.step hstep) hrest

end Runs

/-- In every run: when `peer_process` returns 0 there is room for a byte at least; bytes that
fit the space are appended if there is a buffer or memory for one, and never find it full; and
`peer_recv` never finds it full. -/
theorem run_receive_room {ctx : Ctx} {c0 c : Conn} (sound : c0.Sound) {calls : List ConnCall}
    (h : connRun ctx c0 calls = some c) :
    (c.Reading → ∀ sys, (peerProcess sys ctx c).ok = true →
      (peerProcess sys ctx c).conn.unread.length < peerRecvBufferSize ∧
        1 ≤ peerRbufSpace (peerProcess sys ctx c).conn) ∧
    (∀ sys data, data.length ≤ peerRbufSpace c → ¬ AppendFull sys c data ∧
      ((peerRbufAppend sys c data).2 = true ↔
        data.length = 0 ∨ c.allocated = true ∨ sys.malloc peerRecvBufferSize = true)) ∧
    ∀ sys reads, ¬ PeerRecvFull sys ctx reads c := by
  have hsound := sound.run h
  refine ⟨fun hreading sys hok => ?_, fun sys data hfits => ?_, fun sys reads => ?_⟩
  · obtain ⟨hroomy, _⟩ := peerProcess_roomy hsound.valid hreading hok
    have hshort := hroomy.short
    refine ⟨hshort, ?_⟩
    rw [peerRbufSpace_eq]
    omega
  · have hroom : ¬ AppendFull sys c data := append_not_full hfits
    refine ⟨hroom, ?_⟩
    rw [append_iff]
    simp [hroom]
  · rintro ⟨hconnected, hready, hfull⟩
    have hreading := hsound.alive.resolve_left hconnected
    exact recv_not_full (ensure_valid hsound.valid) (ensure_reading hreading)
      ((peerRbufEnsure_frame sys c).2.2.2.1 hready) hfull

/-- The first bytes of a message have come in. -/
theorem run_receive_room_begun : ∃ c, connRun sampleCtx sampleConn
      [.append sampleSystem [0, 0, 0, 5, 4], .process sampleSystem] = some c ∧
      c.unread = [0, 0, 0, 5, 4] ∧
    ∀ sys reads, ¬ PeerRecvFull sys sampleCtx reads c := by
  have hrun : (connRun sampleCtx sampleConn [.append sampleSystem [0, 0, 0, 5, 4],
      .process sampleSystem]).map Conn.unread = some [0, 0, 0, 5, 4] := by decide
  obtain ⟨c, hc, hunread⟩ := Option.map_eq_some_iff.mp hrun
  exact ⟨c, hc, hunread, (run_receive_room ⟨sampleConn_valid, Or.inr (Or.inr (Or.inr rfl))⟩ hc).2.2⟩

/-- A peer that is being connected, before it has a buffer. -/
def freshConn : Conn :=
  { sampleConn with
    session := { sampleConn.session with peer := peerAlloc false 1 0 0, amInterested := false }
    allocated := false }

def noMemory : System := { sampleSystem with malloc := fun _ => false }

/-- Behind the connect a byte that would fit is refused when there is no memory for the buffer. -/
theorem append_without_memory : ∃ c, connRun sampleCtx freshConn [.connected noMemory] = some c ∧
    c.session.peer.state = .handshake ∧ (peerProcess noMemory sampleCtx c).ok = true ∧
    [(0 : UInt8)].length ≤ peerRbufSpace (peerProcess noMemory sampleCtx c).conn ∧
    (peerRbufAppend noMemory (peerProcess noMemory sampleCtx c).conn [0]).2 = false := by
  have hrun : (connRun sampleCtx freshConn [.connected noMemory]).map (fun c =>
      decide (c.session.peer.state = .handshake ∧ (peerProcess noMemory sampleCtx c).ok = true ∧
        [(0 : UInt8)].length ≤ peerRbufSpace (peerProcess noMemory sampleCtx c).conn ∧
        (peerRbufAppend noMemory (peerProcess noMemory sampleCtx c).conn [0]).2 = false)) =
          some true := by
    decide
  obtain ⟨c, hc, hfacts⟩ := Option.map_eq_some_iff.mp hrun
  exact ⟨c, hc, of_decide_eq_true hfacts⟩

end PeerIngest
