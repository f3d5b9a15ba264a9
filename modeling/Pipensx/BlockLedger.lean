import Pipensx.LateAnswers
import Pipensx.PeerMoves

/-!
# Every request is accounted for

A request leaves the pipeline when its block is handed to `on_block`, when it expires or
when it is cancelled, each time once. What the peer sends is arbitrary: bytes of any kind,
in any pieces, by TCP or μTP.
-/

namespace BlockLedger

open PeerSend PeerRequests PeerIngest LateAnswers

/-- The blocks handed to `on_block`. -/
def answered (events : List Event) : List Triple :=
  events.filterMap (fun
    | .onBlock idx off data => some (toInt idx, toInt off, toInt data.length)
    | _ => none)

/-- Their bytes. -/
def delivered (events : List Event) : Nat :=
  (events.map (fun | .onBlock _ _ data => data.length | _ => 0)).sum

/-- The numbers of a block are those of the wire. -/
def Wire : Event → Prop
  | .onBlock idx off data => idx < 2 ^ 32 ∧ off < 2 ^ 32 ∧ data.length < 2 ^ 32
  | _ => True

/-- What the peer has sent: requests were answered, and the others are there as before. -/
structure Conserves (p p' : Peer) (events : List Event) : Prop where
  perm : (p.pipeline.map triple).Perm (answered events ++ p'.pipeline.map triple)
  downloaded : p'.downloaded = p.downloaded + delivered events
  order : p'.pipeline.Sublist p.pipeline
  wire : ∀ e ∈ events, Wire e
  ring : ring p' = ring p

section Received

variable {p p' p'' : Peer} {events more : List Event}

theorem answered_append (events more : List Event) :
    answered (events ++ more) = answered events ++ answered more := List.filterMap_append

theorem delivered_append (events more : List Event) :
    delivered (events ++ more) = delivered events + delivered more := by
  simp [delivered]

/-- Nothing was answered. -/
theorem Conserves.same (pipeline : p'.pipeline = p.pipeline)
    (downloaded : p'.downloaded = p.downloaded)
    (ring : PeerIngest.ring p' = PeerIngest.ring p) : Conserves p p' [] := by
  refine ⟨?_, downloaded, ?_, ?_, ring⟩
  · simp [pipeline, answered]
  · simp [pipeline]
  · intro e hmem
    cases hmem

theorem Conserves.trans (first : Conserves p p' events) (second : Conserves p' p'' more) :
    Conserves p p'' (events ++ more) := by
  refine ⟨?_, ?_, second.order.trans first.order, ?_, second.ring.trans first.ring⟩
  · rw [answered_append, List.append_assoc]
    exact first.perm.trans (second.perm.append_left _)
  · rw [delivered_append, second.downloaded, first.downloaded, Nat.add_assoc]
  · intro e hmem
    rcases List.mem_append.mp hmem with h | h
    · exact first.wire e h
    · exact second.wire e h

/-- The calls that are not for blocks do not count. -/
theorem Conserves.others (pipeline : p'.pipeline = p.pipeline)
    (downloaded : p'.downloaded = p.downloaded) (ring : PeerIngest.ring p' = PeerIngest.ring p)
    (others : ∀ e ∈ events, ∀ idx off data, e ≠ .onBlock idx off data) : Conserves p p' events := by
  have hnone : answered events = [] := by
    refine List.filterMap_eq_nil_iff.mpr ?_
    intro e hmem
    have hother := others e hmem
    cases e with
    | onBlock idx off data => exact absurd rfl (hother idx off data)
    | onHave idx => rfl
    | onPeers compact cnt => rfl
  have hzero : delivered events = 0 := by
    refine List.sum_eq_zero_iff_forall_eq_nat.mpr ?_
    intro n hn
    obtain ⟨e, hmem, rfl⟩ := List.mem_map.mp hn
    have hother := others e hmem
    cases e with
    | onBlock idx off data => exact absurd rfl (hother idx off data)
    | onHave idx => rfl
    | onPeers compact cnt => rfl
  refine ⟨?_, ?_, ?_, ?_, ring⟩
  · simp [hnone, pipeline]
  · rw [hzero, downloaded, Nat.add_zero]
  · simp [pipeline]
  · intro e hmem
    have hother := others e hmem
    cases e with
    | onBlock idx off data => exact absurd rfl (hother idx off data)
    | onHave idx => trivial
    | onPeers compact cnt => trivial

/-- The first entry that passes the test, and the others. -/
theorem find_eraseP_perm {α : Type} {test : α → Bool} {l : List α} {a : α}
    (found : l.find? test = some a) : l.Perm (a :: l.eraseP test) := by
  induction l with
  | nil => cases found
  | cons b rest ih =>
    rw [List.find?_cons] at found
    cases hb : test b with
    | true =>
      rw [hb] at found
      cases found
      rw [List.eraseP_cons_of_pos hb]
    | false =>
      rw [hb] at found
      rw [List.eraseP_cons_of_neg (by rw [hb]; exact Bool.false_ne_true)]
      exact ((ih found).cons b).trans (List.Perm.swap a b _)

/-- The call an outcome leads to. -/
def outcomeEvents : Outcome → List Event
  | .block idx off data => [.onBlock idx off data]
  | _ => []

/-- An answer takes the first request for exactly this block. -/
theorem processPiece_conserves (now : Nat) (p : Peer) {payload : List UInt8}
    (size : payload.length < 2 ^ 32) :
    Conserves p (processPiece now p payload).1 (outcomeEvents (processPiece now p payload).2) := by
  rcases processPiece_cases now p payload with ⟨_, heq⟩ | ⟨_, _, _, heq⟩ | ⟨_, _, _, heq⟩ | ⟨_,
    r, hfound, heq⟩
  · rw [heq]
    exact Conserves.same rfl rfl rfl
  · rw [heq]
    exact Conserves.same rfl rfl rfl
  · rw [heq]
    have hsame : Conserves p { p with
      unsolicitedPieceStrikes := p.unsolicitedPieceStrikes + 1 } [] :=
      Conserves.same rfl rfl rfl
    dsimp only
    split
    · exact hsame
    · exact hsame
  · rw [heq]
    have hperm := (find_eraseP_perm hfound).map triple
    have hexact := (List.find?_eq_some_iff_append.mp hfound).1
    have htriple : triple r =
      (toInt (be32 payload), toInt (be32 (payload.drop 4)), toInt (payload.drop 8).length) := by
      simp only [BlockReq.isExactly, BlockReq.isFor, Bool.and_eq_true, decide_eq_true_eq] at hexact
      simp only [triple, hexact]
    dsimp only [outcomeEvents]
    refine ⟨?_, ?_, List.eraseP_sublist, ?_, rfl⟩
    · rw [List.map_cons, htriple] at hperm
      exact hperm
    · simp [delivered]
    · intro e hmem
      rw [List.mem_singleton] at hmem
      subst hmem
      refine ⟨be32_lt _, be32_lt _, ?_⟩
      rw [List.length_drop]
      omega

theorem peerDispatch_conserves (numPieces now : Nat) (p : Peer) (id : UInt8) {payload : List UInt8}
    (size : payload.length < 2 ^ 32) :
    Conserves p (PeerRequests.dispatch numPieces now p id payload).1
      (outcomeEvents (PeerRequests.dispatch numPieces now p id payload).2) := by
  unfold PeerRequests.dispatch
  split
  · exact Conserves.same rfl rfl rfl
  · exact Conserves.same rfl rfl rfl
  · dsimp only
    split <;> exact Conserves.same rfl rfl rfl
  · split <;> exact Conserves.same rfl rfl rfl
  · exact processPiece_conserves now p size
  · exact Conserves.same rfl rfl rfl

/-- The messages of the extension protocol are not blocks. -/
theorem processExtended_others (s : Session) (payload : List UInt8) :
    (processExtended s payload).1.peer = s.peer ∧
      ∀ e ∈ (processExtended s payload).2, ∀ idx off data, e ≠ .onBlock idx off data := by
  unfold processExtended
  split
  · simp
  · split
    · simp
    · split
      · refine ⟨rfl, ?_⟩
        intro e hmem idx off data heq
        subst heq
        unfold parsePex at hmem
        split at hmem
        · cases hmem
        · dsimp only at hmem
          split at hmem
          · simp at hmem
          · cases hmem
      · simp

theorem dispatch_conserves (numPieces now : Nat) (s : Session) (id : UInt8) {payload : List UInt8}
    (size : payload.length < 2 ^ 32) :
    Conserves s.peer (dispatch numPieces now s id payload).1.peer
    (dispatch numPieces now s id payload).2.1 := by
  have hpeer := peerDispatch_conserves numPieces now s.peer id size
  unfold PeerIngest.dispatch
  split
  · exact Conserves.same rfl rfl rfl
  · exact Conserves.same rfl rfl rfl
  · next hid =>
    have hsame : (PeerRequests.dispatch numPieces now s.peer id payload).1.pipeline =
        s.peer.pipeline ∧
        (PeerRequests.dispatch numPieces now s.peer id payload).1.downloaded = s.peer.downloaded ∧
        ring (PeerRequests.dispatch numPieces now s.peer id payload).1 = ring s.peer := by
      simp only [PeerRequests.dispatch, hid]
      split <;> exact ⟨rfl, rfl, rfl⟩
    refine Conserves.others hsame.1 hsame.2.1 hsame.2.2 ?_
    intro e hmem idx off data heq
    subst heq
    split at hmem
    · simp at hmem
    · cases hmem
  · obtain ⟨hsame, hothers⟩ := processExtended_others s payload
    exact Conserves.others (by rw [hsame]) (by rw [hsame]) (by rw [hsame]) hothers
  · dsimp only
    cases houtcome : (PeerRequests.dispatch numPieces now s.peer id payload).2 with
    | fail =>
      rw [houtcome] at hpeer
      exact hpeer
    | block idx off data =>
      rw [houtcome] at hpeer
      exact hpeer
    | wait =>
      rw [houtcome] at hpeer
      exact hpeer
    | next =>
      rw [houtcome] at hpeer
      exact hpeer

/-- Whatever bytes come in. -/
theorem conserves_of_moves {c c' : Conn} (h : Moves c c' events) :
    Conserves c.peer c'.peer events := by
  induction h with
  | quiet hquiet => exact Conserves.same hquiet.pipeline hquiet.downloaded hquiet.ring
  | enter c state _ => exact Conserves.same rfl rfl rfl
  | message numPieces now c id size => exact dispatch_conserves numPieces now c.session id size
  | trans _ _ first second => exact first.trans second

end Received

/-- What can happen to a connection. The loops of `peer_process` are there as a whole and
by single messages: `on_block` may cancel a request of the same peer before the next one. -/
inductive Op where
  | request (net : Transport) (now : Nat) (piece offset len : UInt32)
  | cancel (net : Transport) (piece offset len : UInt32)
  | expire (now timeoutMs : Nat)
  | connected (sys : System)
  | arrive (sys : System) (chunk : List UInt8)
  | message (sys : System)
  | utp (sys : System) (chunk : List UInt8)
  | tcp (sys : System) (reads : List NetRead)

/-- A call of `peer_request_block`. -/
structure Request where
  now : Nat
  piece : UInt32
  offset : UInt32
  len : UInt32

/-- Its entry in the pipeline. -/
def Request.entry (r : Request) : BlockReq :=
  ⟨toInt r.piece.toNat, toInt r.offset.toNat, toInt r.len.toNat, r.now⟩

/-- A connection with its history: the calls of `peer_request_block` that succeeded, the
entries that have expired or were cancelled, and the callbacks. -/
structure Account where
  conn : Conn
  requested : List Request
  retired : List BlockReq
  events : List Event

/-- The requests that wait for their answer. -/
def Account.pipeline (a : Account) : List BlockReq := a.conn.session.peer.pipeline

def Account.setPeer (a : Account) (p : Peer) : Account :=
  { a with conn := { a.conn with session := { a.conn.session with peer := p } } }

def Account.receive (a : Account) (r : Received) : Account :=
  { a with conn := r.conn, events := a.events ++ r.events }

def step (ctx : Ctx) (a : Account) : Op → Account
  | .request net now piece offset len =>
    let r := peerRequestBlock net now a.conn.session.peer piece.toNat offset.toNat len.toNat
    if r.2 then { a.setPeer r.1 with requested := a.requested ++ [⟨now, piece, offset, len⟩] }
    else a.setPeer r.1
  | .cancel net piece offset len =>
    let r := peerCancelBlock net a.conn.session.peer piece.toNat offset.toNat len.toNat
    if r.2 then
      { a.setPeer r.1 with
        retired := a.retired ++ (a.pipeline.find?
          (fun r => r.isFor piece.toNat offset.toNat)).toList }
    else a.setPeer r.1
  | .expire now timeoutMs =>
    let r := peerExpireRequests a.conn.session.peer now timeoutMs
    { a.setPeer r.1 with retired := a.retired ++ r.2 }
  | .connected sys => { a with conn := (peerConnected sys ctx a.conn).2 }
  | .arrive sys chunk => { a with conn := (peerRbufAppend sys a.conn chunk).1 }
  | .message sys =>
    let r := processMessage sys ctx a.conn
    { a with conn := r.1, events := a.events ++ r.2.1 }
  | .utp sys chunk => a.receive (utpReceive sys ctx chunk a.conn)
  | .tcp sys reads =>
    match peerRecv sys ctx reads a.conn with
    | none => a
    | some r => a.receive r

def run (ctx : Ctx) (a : Account) (ops : List Op) : Account := ops.foldl (step ctx) a

/-- A connection that is new. -/
def Account.opened (utp mseEnabled : Bool) (mse : Mse.Client) (bfBytes now dlRateBps : Nat) :
    Account where
  conn :=
    { session := ⟨peerAlloc utp bfBytes now dlRateBps, false, false, false, 0, false, 0, 0⟩
      mseEnabled := mseEnabled, mse := mse, allocated := false, rbuf := [], rbufHead := 0
      consumed := 0 }
  requested := []
  retired := []
  events := []

/-- The books balance. -/
structure Balanced (a : Account) : Prop where
  perm : (a.requested.map (fun r => triple r.entry)).Perm
    (answered a.events ++ (a.pipeline.map triple ++ a.retired.map triple))
  downloaded : a.conn.session.peer.downloaded = delivered a.events
  bound : a.pipeline.length ≤ maxPipeline
  wire : ∀ e ∈ a.events, Wire e
  indexed : Indexed a.conn.session.peer a.retired.length

/-- From one account to a later one: the requests that are still there are in their order,
and new ones come after them. -/
def Ordered (a b : Account) : Prop :=
  ∃ new, b.requested = a.requested ++ new ∧ b.pipeline.Sublist (a.pipeline ++ new.map Request.entry)

section Runs

variable {a b : Account} (ctx : Ctx)

theorem Ordered.refl (a : Account) : Ordered a a := ⟨[], by simp, by simp⟩

theorem Ordered.trans {c : Account} (first : Ordered a b) (second : Ordered b c) : Ordered a c := by
  obtain ⟨new, hrequested, horder⟩ := first
  obtain ⟨later, hrequested', horder'⟩ := second
  refine ⟨new ++ later, ?_, ?_⟩
  · rw [hrequested', hrequested, List.append_assoc]
  · rw [List.map_append, ← List.append_assoc]
    exact horder'.trans (horder.append_right _)

/-- Received bytes move requests from the pipeline to the answers. -/
theorem Balanced.receive (h : Balanced a) (conn : Conn) {events : List Event}
    (conserves : Conserves a.conn.peer conn.peer events) :
    Balanced { a with conn := conn, events := a.events ++ events } ∧
      Ordered a { a with conn := conn, events := a.events ++ events } := by
  obtain ⟨hnext, hoverrun⟩ := Prod.mk.inj conserves.ring
  refine ⟨⟨?_, ?_, ?_, ?_, h.indexed.same hnext hoverrun⟩, [], (List.append_nil _).symm, ?_⟩
  · rw [answered_append, List.append_assoc, ← List.append_assoc (answered events)]
    exact h.perm.trans ((conserves.perm.append_right _).append_left _)
  · rw [delivered_append, ← h.downloaded]
    exact conserves.downloaded
  · exact conserves.order.length_le.trans h.bound
  · intro e hmem
    rcases List.mem_append.mp hmem with hold | hnew
    · exact h.wire e hold
    · exact conserves.wire e hnew
  · rw [List.map_nil, List.append_nil]
    exact conserves.order

/-- The call made no callback and left the requests alone. -/
theorem Balanced.untouched (h : Balanced a) (conn : Conn)
    (untouched : Conserves a.conn.peer conn.peer []) :
    Balanced { a with conn := conn } ∧ Ordered a { a with conn := conn } := by
  have hreceive := h.receive conn untouched
  rw [List.append_nil] at hreceive
  exact hreceive

/-- Requests are given up: they go from the pipeline to the retired ones. -/
theorem Balanced.retire (h : Balanced a) (p : Peer) (gone : List BlockReq)
    (perm : a.pipeline.Perm (gone ++ p.pipeline)) (order : p.pipeline.Sublist a.pipeline)
    (downloaded : p.downloaded = a.conn.session.peer.downloaded)
    (indexed : Indexed p (a.retired.length + gone.length)) :
    Balanced { a.setPeer p with retired := a.retired ++ gone } ∧
      Ordered a { a.setPeer p with retired := a.retired ++ gone } := by
  refine ⟨⟨?_, downloaded.trans h.downloaded, order.length_le.trans h.bound, h.wire, ?_⟩, [],
    (List.append_nil _).symm, ?_⟩
  · have hmoved : (a.pipeline.map triple ++ a.retired.map triple).Perm
        (p.pipeline.map triple ++ (a.retired ++ gone).map triple) := by
      have hgone := (perm.map triple).append_right (a.retired.map triple)
      rw [List.map_append] at hgone
      rw [List.map_append]
      refine hgone.trans ?_
      rw [List.append_assoc]
      refine List.perm_append_comm.trans ?_
      rw [List.append_assoc]
    exact h.perm.trans (hmoved.append_left _)
  · rw [List.length_append]
    exact indexed
  · rw [List.map_nil, List.append_nil]
    exact order

theorem Balanced.request (h : Balanced a) (out : Sender) (r : Request)
    (room : a.pipeline.length < maxPipeline) :
    Balanced { a.setPeer { a.conn.session.peer with
      out := out, pipeline := a.pipeline ++ [r.entry] } with
      requested := a.requested ++ [r] } ∧
    Ordered a { a.setPeer { a.conn.session.peer with
      out := out, pipeline := a.pipeline ++ [r.entry] } with
      requested := a.requested ++ [r] } := by
  refine ⟨⟨?_, h.downloaded, ?_, h.wire, h.indexed.same rfl rfl⟩, [r], rfl, List.Sublist.refl _⟩
  · have hnew := h.perm.append_right [triple r.entry]
    simp only [Account.setPeer, Account.pipeline, List.map_append, List.map_cons, List.map_nil,
      List.append_assoc]
    refine hnew.trans ?_
    rw [List.append_assoc]
    refine List.Perm.append_left _ ?_
    rw [List.append_assoc]
    exact List.perm_append_comm.append_left _
  · simp only [Account.setPeer, Account.pipeline, List.length_append, List.length_singleton]
    exact room

theorem foldl_rememberDropped_downloaded (gone : List BlockReq) (p : Peer) :
    (gone.foldl (fun p r => rememberDropped p r.index r.offset r.length) p).downloaded =
      p.downloaded := by
  induction gone generalizing p with
  | nil => rfl
  | cons r rest ih => exact ih _

theorem Balanced.step (h : Balanced a) (op : Op) :
    Balanced (step ctx a op) ∧ Ordered a (step ctx a op) := by
  cases op with
  | request net now piece offset len =>
    obtain ⟨out, heq | ⟨hroom, heq⟩⟩ :=
      peerRequestBlock_cases net now a.conn.session.peer piece.toNat offset.toNat len.toNat
    · simp only [BlockLedger.step, heq, Bool.false_eq_true, if_false]
      exact h.untouched _ (Conserves.same rfl rfl rfl)
    · simp only [BlockLedger.step, heq, if_true]
      exact h.request out ⟨now, piece, offset, len⟩ hroom
  | cancel net piece offset len =>
    obtain ⟨out, heq | ⟨hasked, heq⟩⟩ :=
      peerCancelBlock_cases net a.conn.session.peer piece.toNat offset.toNat len.toNat
    · simp only [BlockLedger.step, heq, Bool.false_eq_true, if_false]
      exact h.untouched _ (Conserves.same rfl rfl rfl)
    · simp only [BlockLedger.step, heq, if_true]
      obtain ⟨r, hfound⟩ := Option.isSome_iff_exists.mp
        (List.find?_isSome.mpr (List.any_eq_true.mp hasked))
      rw [Account.pipeline, hfound]
      have hout : Indexed { a.conn.session.peer with out := out } a.retired.length :=
        h.indexed.same rfl rfl
      exact h.retire _ [r] (find_eraseP_perm hfound) List.eraseP_sublist rfl
        ((hout.remember (toInt piece.toNat) (toInt offset.toNat) (toInt len.toNat)).same rfl rfl)
  | expire now timeoutMs =>
    refine h.retire _ _ ?_ List.filter_sublist (foldl_rememberDropped_downloaded _ _) ?_
    · exact (List.filter_append_perm _ _).symm
    · exact (h.indexed.expire _).same rfl rfl
  | connected sys => exact h.untouched _ (conserves_of_moves (peerConnected_moves sys ctx a.conn))
  | arrive sys chunk =>
    have hquiet := peerRbufAppend_quiet sys a.conn chunk
    exact h.untouched _ (Conserves.same hquiet.pipeline hquiet.downloaded hquiet.ring)
  | message sys => exact h.receive _ (conserves_of_moves (processMessage_moves sys ctx a.conn))
  | utp sys chunk => exact h.receive _ (conserves_of_moves (utpReceive_moves sys ctx chunk a.conn))
  | tcp sys reads =>
    simp only [BlockLedger.step]
    cases hrecv : peerRecv sys ctx reads a.conn with
    | none => exact ⟨h, Ordered.refl a⟩
    | some r => exact h.receive _ (conserves_of_moves (peerRecv_moves sys ctx reads a.conn hrecv))

theorem Balanced.run (h : Balanced a) (ops : List Op) :
    Balanced (run ctx a ops) ∧ Ordered a (run ctx a ops) := by
  induction ops generalizing a with
  | nil => exact ⟨h, Ordered.refl a⟩
  | cons op rest ih =>
    obtain ⟨hstep, hordered⟩ := h.step ctx op
    obtain ⟨hrest, hlater⟩ := ih hstep
    exact ⟨hrest, hordered.trans hlater⟩

end Runs

/-- The calls of `on_block` for one block. -/
def callbacks (events : List Event) (piece offset len : UInt32) : Nat :=
  events.countP (fun
    | .onBlock idx off data => idx = piece.toNat ∧ off = offset.toNat ∧ data.length = len.toNat
    | _ => false)

/-- The entries for one block. -/
def entries (reqs : List BlockReq) (piece offset len : UInt32) : Nat :=
  reqs.countP (fun r => r.index = toInt piece.toNat ∧ r.offset = toInt offset.toNat ∧
    r.length = toInt len.toNat)

/-- The calls of `peer_request_block` for one block. -/
def requests (calls : List Request) (piece offset len : UInt32) : Nat :=
  calls.countP (fun r => r.piece = piece ∧ r.offset = offset ∧ r.len = len)

section Counts

variable (piece offset len : UInt32)

theorem toInt_uint32 (n m : UInt32) : toInt n.toNat = toInt m.toNat ↔ n = m := by
  constructor
  · intro h
    exact UInt32.toNat_inj.mp (toInt_injective n.toNat_lt m.toNat_lt h)
  · rintro rfl
    rfl

theorem toInt_wire {n : Nat} (h : n < 2 ^ 32) (m : UInt32) :
    toInt n = toInt m.toNat ↔ n = m.toNat := by
  constructor
  · exact toInt_injective h m.toNat_lt
  · rintro rfl
    rfl

theorem countP_map_eq {α β : Type} [DecidableEq β] (f : α → β) (l : List α) (t : β) :
    (l.map f).countP (· = t) = l.countP (fun a => f a = t) := List.countP_map

theorem triple_entry (r : Request) :
    triple r.entry = triple (Request.entry ⟨0, piece, offset, len⟩) ↔
      r.piece = piece ∧ r.offset = offset ∧ r.len = len := by
  simp only [triple, Request.entry, Prod.mk.injEq, toInt_uint32]

theorem count_entries (reqs : List BlockReq) :
    (reqs.map triple).countP (· = triple (Request.entry ⟨0, piece, offset, len⟩)) =
      entries reqs piece offset len := by
  rw [countP_map_eq, entries]
  refine List.countP_congr ?_
  intro r _
  simp only [triple, Request.entry, Prod.mk.injEq, decide_eq_true_eq]

-- the general `countP_map_eq` first: unfolding `toInt` in the test is more than the kernel can take
theorem count_requests (calls : List Request) :
    (calls.map (fun r => triple r.entry)).countP
      (· = triple (Request.entry ⟨0, piece, offset, len⟩)) =
      requests calls piece offset len := by
  rw [countP_map_eq, requests]
  refine List.countP_congr ?_
  intro r _
  simp only [decide_eq_true_eq]
  exact triple_entry piece offset len r

theorem count_answered {events : List Event} (wire : ∀ e ∈ events, Wire e) :
    (answered events).countP (· = triple (Request.entry ⟨0, piece, offset, len⟩)) =
      callbacks events piece offset len := by
  rw [answered, List.countP_filterMap, callbacks]
  refine List.countP_congr ?_
  intro e hmem
  have hwire := wire e hmem
  cases e with
  | onBlock idx off data =>
    obtain ⟨hidx, hoff, hdata⟩ := hwire
    simp [triple, Request.entry, toInt_wire hidx, toInt_wire hoff, toInt_wire hdata]
  | onHave idx => simp
  | onPeers compact cnt => simp

end Counts

theorem Balanced.once {a : Account} (h : Balanced a) (piece offset len : UInt32) :
    callbacks a.events piece offset len + entries a.pipeline piece offset len +
      entries a.retired piece offset len = requests a.requested piece offset len := by
  have hcount := h.perm.countP_eq (· = triple (Request.entry ⟨0, piece, offset, len⟩))
  rw [List.countP_append, List.countP_append, count_requests, count_answered _ _ _ h.wire,
    count_entries, count_entries] at hcount
  rw [hcount, Nat.add_assoc]

/-- A socket that takes whatever it is offered. -/
def willing : Transport := fun _ len => len

/-- Nothing is in the queue, and the bytes go out as they are. -/
def Clear (p : Sender) : Prop := p.sbuf = [] ∧ p.mseActive = false

theorem peerSendRaw_willing {p : Sender} (h : Clear p) (data : List UInt8)
    (hpos : 0 < data.length) :
    (peerSendRaw willing p data).1 = true ∧ Clear (peerSendRaw willing p data).2 := by
  obtain ⟨hbuf, hmode⟩ := h
  have hsize : ¬ (data.length : Int) < 0 := by omega
  simp [Clear, peerSendRaw, peerSendPlain, hbuf, hmode, hpos, transportWrite, willing,
    queueTail, hsize]

theorem sendMsg_willing {p : Sender} (h : Clear p) (payload : List UInt8)
    (hpos : 0 < payload.length) (hsize : payload.length ≤ 13) :
    (sendMsg willing p payload).1 = true ∧ Clear (sendMsg willing p payload).2 := by
  have hreserve : reserve willing p (4 + payload.length) = (true, p) := by
    rw [reserve, if_neg (by simp only [h.1, List.length_nil, peerBufSize]; omega)]
  obtain ⟨hhead, hclear⟩ := peerSendRaw_willing h (lengthPrefix payload.length) (Nat.zero_lt_succ _)
  simp only [sendMsg, hreserve, hhead, hpos, Bool.true_eq_false, if_false, if_true]
  exact peerSendRaw_willing hclear payload hpos

/-- A block is asked for and given up at once. -/
def round : List Op := [.request willing 0 0 0 1, .cancel willing 0 0 1]

/-- Nothing is asked for, and nothing waits to be sent. -/
def Idle (a : Account) : Prop := a.pipeline = [] ∧ Clear a.conn.session.peer.out

theorem Idle.round {a : Account} (h : Idle a) (ctx : Ctx) :
    Idle (run ctx a round) ∧ (run ctx a round).retired.length = a.retired.length + 1 := by
  obtain ⟨hpipeline, hclear⟩ := h
  obtain ⟨hsent, hclear1⟩ := sendMsg_willing hclear (blockMessage 6 0 0 1) (by decide) (by decide)
  generalize hasked : (sendMsg willing a.conn.session.peer.out (blockMessage 6 0 0 1)).2 =
    out at hclear1
  obtain ⟨hsent', hclear2⟩ := sendMsg_willing hclear1 (blockMessage 8 0 0 1) (by decide) (by decide)
  have hempty : a.conn.session.peer.pipeline = [] := hpipeline
  have hfor : BlockReq.isFor ⟨toInt 0, toInt 0, toInt 1, 0⟩ 0 0 = true := by decide
  have hstep : step ctx a (.request willing 0 0 0 1) =
      { a.setPeer { a.conn.session.peer with
        out := out, pipeline := [⟨toInt 0, toInt 0, toInt 1, 0⟩] } with
        requested := a.requested ++ [⟨0, 0, 0, 1⟩] } := by
    simp [BlockLedger.step, peerRequestBlock, hempty, maxPipeline, hsent, hasked]
  simp only [BlockLedger.round, run, List.foldl_cons, List.foldl_nil, hstep]
  simp [Idle, BlockLedger.step, peerCancelBlock, Account.setPeer, Account.pipeline,
    peerHasRequest, hfor, hsent', rememberDropped, hclear2]

/-- Round after round. -/
theorem Idle.rounds {a : Account} (h : Idle a) (ctx : Ctx) (n : Nat) :
    (run ctx a (List.replicate n BlockLedger.round).flatten).retired.length =
      a.retired.length + n := by
  induction n generalizing a with
  | zero => rfl
  | succ n ih =>
    obtain ⟨hidle, hcount⟩ := h.round ctx
    rw [List.replicate_succ, List.flatten_cons, run, List.foldl_append]
    have hrest := ih hidle
    rw [hcount] at hrest
    rw [Nat.add_comm n, ← Nat.add_assoc]
    exact hrest

end BlockLedger
