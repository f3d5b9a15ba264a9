import Pipensx.PeerDial

/-!
# How endpoints move

A step of the torrent moves endpoints from one place to another in a few ways. In between an
endpoint is in hand, with the flags it was last dialled with.
-/

namespace PeerDial

open PeerSend PeerRequests PeerIngest PeerQueue TorrentEngine

/-- The lexicographic order. -/
def Below (a b : Rung) : Prop := a.1 < b.1 ∨ (a.1 = b.1 ∧ a.2 < b.2)

instance (a b : Rung) : Decidable (Below a b) := inferInstanceAs (Decidable (_ ∨ _))

/-- An endpoint in hand. -/
structure Held where
  endpoint : Endpoint
  rung : Rung

/-- Transport and encryption are settled when the peer is created, and only a peer that
encrypts comes to the encryption handshake. -/
structure Steady (c c' : Conn) : Prop where
  mseEnabled : c'.mseEnabled = c.mseEnabled
  utp : c'.peer.utp = c.peer.utp
  mse : c'.peer.state = .mse → c.peer.state = .mse ∨ c.mseEnabled = true

/-- The flags a peer was dialled with, or higher ones that do not matter any more: without
the encryption handshake there is no fallback to plain text. -/
def Linked.rung (k : Linked) : Rung := (k.conn.peer.utp, decide (k.conn.peer.state ≠ .mse))

/-- The ways endpoints move. -/
inductive Shift : Torrent → Option Held → Torrent → Option Held → Prop where
  | wait {t t' : Torrent} {hand : Option Held} : t'.queue = t.queue → t'.peers = t.peers →
      t'.numPeers = t.numPeers → t'.blocklist = t.blocklist → t'.history = t.history →
      t.now ≤ t'.now → Shift t hand t' hand
  | push (t : Torrent) (e : Endpoint) (elapsed : Nat) : Shift t none (queuePush t e elapsed).1 none
  | take (t : Torrent) {q : Queue} {a : PeerAddr} : queuePop t.queue = (q, some a) →
      Shift t none ({ t with queue := q }.note (.attempt a.endpoint (rung a)))
      (some ⟨a.endpoint, rung a⟩)
  | place (t : Torrent) (u : Setup) (a : PeerAddr) (now : Nat) :
      Shift t (some ⟨a.endpoint, rung a⟩) (placePeer t (peerCreate u a now)) none
  | free {t : Torrent} {slot : Nat} {k : Linked} : slot < maxActivePeers → t.peers slot = some k →
      Shift t none (t.free slot) (some ⟨k.addr, k.rung⟩)
  | requeue (t : Torrent) (hand : Held) (a : PeerAddr) (front : Bool) (elapsed : Nat) :
      a.endpoint = hand.endpoint → Below hand.rung (rung a) →
      (queueInsert t a front elapsed).2 = true →
      Shift t (some hand) (queueInsert t a front elapsed).1 none
  | block (t : Torrent) (hand : Held) (now : Nat) : Shift t (some hand)
    (blocklistAdd t hand.endpoint now) none
  | work {t : Torrent} {slot : Nat} {k : Linked} {conn : Conn} : slot < maxActivePeers →
      t.peers slot = some k → Steady k.conn conn → Shift t none (setConn t slot k conn) none
  | edit {t : Torrent} {slot : Nat} {k : Linked} {conn : Conn} : slot < maxActivePeers →
      t.peers slot = some k →
      Steady k.conn conn → Shift t none (t.setPeer slot (some { k with conn := conn })) none
  | trans {t t' t'' : Torrent} {hand hand' hand'' : Option Held} :
      Shift t hand t' hand' → Shift t' hand' t'' hand'' → Shift t hand t'' hand''

section Shifts

variable {u : Setup} {t : Torrent} {slot : Nat} {k : Linked}

theorem Shift.refl (t : Torrent) (hand : Option Held) : Shift t hand t hand :=
  .wait rfl rfl rfl rfl rfl (Nat.le_refl _)

theorem Shift.read (t : Torrent) (hand : Option Held) (elapsed : Nat) :
    Shift t hand (t.read elapsed) hand :=
  .wait rfl rfl rfl rfl rfl (Nat.le_add_right _ _)

theorem Steady.refl (c : Conn) : Steady c c := ⟨rfl, rfl, Or.inl⟩

theorem Steady.trans {c c' c'' : Conn} (first : Steady c c') (second : Steady c' c'') :
    Steady c c'' := by
  refine ⟨second.mseEnabled.trans first.mseEnabled, second.utp.trans first.utp, ?_⟩
  intro hmse
  rcases second.mse hmse with hstate | henabled
  · exact first.mse hstate
  · rw [first.mseEnabled] at henabled
    exact Or.inr henabled

theorem peerDispatch_utp (numPieces now : Nat) (p : Peer) (id : UInt8) (payload : List UInt8) :
    (PeerRequests.dispatch numPieces now p id payload).1.utp = p.utp := by
  unfold PeerRequests.dispatch
  split
  · rfl
  · rfl
  · dsimp only
    split <;> rfl
  · split <;> rfl
  · rcases processPiece_cases now p payload with ⟨_, heq⟩ | ⟨_, _, _, heq⟩ | ⟨_, _, _, heq⟩ | ⟨_, _,
      _, heq⟩ <;> rw [heq]
  · rfl

theorem dispatch_steady (numPieces now : Nat) (c : Conn) (id : UInt8) {payload : List UInt8}
    (size : payload.length < 2 ^ 32) :
    Steady c { c with session := (PeerIngest.dispatch numPieces now c.session id payload).1 } := by
  have hutp := peerDispatch_utp numPieces now c.peer id payload
  have hstate := (dispatch_answered numPieces now c.peer id size).1
  have hpeer : ∀ s : Session, s.peer = (PeerRequests.dispatch numPieces now c.peer id payload).1 →
      Steady c { c with session := s } := by
    intro s hs
    refine ⟨rfl, by rw [Conn.peer, hs]; exact hutp, ?_⟩
    intro hmse
    rw [Conn.peer, hs, hstate] at hmse
    exact Or.inl hmse
  have hsame : ∀ s : Session, s.peer = c.peer → Steady c { c with session := s } := by
    intro s hs
    exact ⟨rfl, by rw [Conn.peer, hs], fun hmse => Or.inl (by rwa [Conn.peer, hs] at hmse)⟩
  unfold PeerIngest.dispatch
  split
  · exact hsame _ rfl
  · exact hsame _ rfl
  · exact hpeer _ rfl
  · refine hsame _ ?_
    unfold processExtended
    split
    · rfl
    · split
      · rfl
      · split <;> rfl
  · dsimp only
    split
    · exact hpeer _ rfl
    · exact hpeer _ rfl
    · exact hpeer _ rfl

theorem steady_of_moves {c c' : Conn} {events : List PeerIngest.Event} (h : Moves c c' events) :
    Steady c c' := by
  induction h with
  | quiet hquiet => exact ⟨hquiet.mseEnabled, hquiet.utp, fun h => Or.inl (hquiet.state ▸ h)⟩
  | enter c state hmse => exact ⟨rfl, rfl, fun h => Or.inr (hmse h)⟩
  | message numPieces now c id size => exact dispatch_steady numPieces now c id size
  | trans _ _ first second => exact first.trans second

theorem flush_steady (net : Transport) (c : Conn) : Steady c (Conn.flush net c).2 :=
  ⟨rfl, rfl, Or.inl⟩

theorem edit_steady (c : Conn) (p : Peer) : Steady c (Conn.edit c p) := ⟨rfl, rfl, Or.inl⟩

theorem dead_steady (c : Conn) : Steady c (c.enter .dead) :=
  ⟨rfl, rfl, fun h => PeerState.noConfusion h⟩

theorem queueInsert_refused {a : PeerAddr} {front : Bool} {elapsed : Nat}
    (refused : (queueInsert t a front elapsed).2 = false) : (queueInsert t a front elapsed).1 =
      t.read elapsed := by
  simp only [queueInsert, PeerQueue.queueInsert] at refused ⊢
  split at refused
  · next hno => simp only [hno, if_true]
  · cases refused

/-- A fallback is queued, or it is not and the endpoint is still in hand. -/
theorem shift_insert (t : Torrent) (hand : Held) (a : PeerAddr) (elapsed : Nat)
    (same : a.endpoint = hand.endpoint) (higher : Below hand.rung (rung a)) :
    Shift t (some hand) (queueInsert t a true elapsed).1
      (if (queueInsert t a true elapsed).2 then none else some hand) := by
  cases haccepted : (queueInsert t a true elapsed).2 with
  | true => exact .requeue t hand a true elapsed same higher haccepted
  | false =>
    rw [queueInsert_refused haccepted]
    exact .read t (some hand) elapsed

theorem shift_requeueUtp (u : Setup) (t : Torrent) (hand : Held) (elapsed : Nat)
    (tcp : hand.rung.1 = false) : Shift t (some hand) (requeueUtp u t hand.endpoint elapsed).1
      (if (requeueUtp u t hand.endpoint elapsed).2 then none else some hand) := by
  unfold requeueUtp
  split
  · refine shift_insert t hand _ elapsed rfl ?_
    left
    rw [tcp]
    exact (by decide : false < ((1 : UInt8) != 0))
  · exact .refl t (some hand)

theorem shift_handleDialFailure (u : Setup) (t : Torrent) (hand : Held) {mseHs canUtp : Bool}
    {useUtp : UInt8}
    (now elapsed elapsed' : Nat) (plain : mseHs = true → hand.rung = (useUtp != 0, false))
    (tcp : canUtp = true → hand.rung.1 = false) :
    Shift t (some hand) (handleDialFailure u t hand.endpoint mseHs canUtp useUtp now elapsed
      elapsed') none := by
  have hplain : Shift t (some hand)
      (if mseHs then queueInsert t ⟨hand.endpoint, 1, useUtp⟩ true elapsed else (t, false)).1
      (if (if mseHs then queueInsert t ⟨hand.endpoint, 1, useUtp⟩ true elapsed else
        (t, false)).2 then none
        else some hand) := by
    cases mseHs with
    | true =>
      refine shift_insert t hand _ elapsed rfl ?_
      rw [plain rfl]
      right
      exact ⟨rfl, (by decide : false < ((1 : UInt8) != 0))⟩
    | false => exact .refl t (some hand)
  unfold handleDialFailure
  dsimp only
  generalize (if mseHs then queueInsert t ⟨hand.endpoint, 1, useUtp⟩ true elapsed else (t, false)) =
    r at hplain ⊢
  split
  · next hqueued =>
    rw [if_pos hqueued] at hplain
    exact hplain
  · next hrefused =>
    rw [if_neg hrefused] at hplain
    have hretry : Shift r.1 (some hand) (if canUtp then requeueUtp u r.1 hand.endpoint elapsed' else
        (r.1, false)).1
        (if (if canUtp then requeueUtp u r.1 hand.endpoint elapsed' else (r.1, false)).2 then none
          else some hand) := by
      cases canUtp with
      | true => exact shift_requeueUtp u r.1 hand elapsed' (tcp rfl)
      | false => exact .refl r.1 (some hand)
    generalize (if canUtp then requeueUtp u r.1 hand.endpoint elapsed' else (r.1, false)) =
      r' at hretry ⊢
    split
    · next hqueued =>
      rw [if_pos hqueued] at hretry
      exact hplain.trans hretry
    · next hrefused' =>
      rw [if_neg hrefused'] at hretry
      exact (hplain.trans hretry).trans (.block r'.1 hand now)

theorem shift_closePeer (u : Setup) (t : Torrent) (hslot : slot < maxActivePeers)
    (now elapsed elapsed' : Nat) : Shift t none (closePeer u t slot now elapsed elapsed') none := by
  unfold closePeer
  split
  · exact .refl t none
  · next k hk =>
    refine (Shift.free hslot hk).trans (shift_handleDialFailure u _ ⟨k.addr, k.rung⟩ now elapsed
      elapsed' ?_ ?_)
    · intro hmse
      have hstate : k.conn.peer.state = .mse := of_decide_eq_true hmse
      cases hutp : k.conn.peer.utp <;> simp [Linked.rung, hstate, hutp]
    · intro hretry
      simp only [shouldRetryUtp, Bool.and_eq_true, Bool.not_eq_true'] at hretry
      exact hretry.1.2

theorem shift_evictPeer (t : Torrent) (hslot : slot < maxActivePeers) (now : Nat) :
    Shift t none (evictPeer t slot now) none := by
  unfold evictPeer
  split
  · exact .refl t none
  · next k hk => exact (Shift.free hslot hk).trans (.block _ ⟨k.addr, k.rung⟩ now)

theorem shift_dial (u : Setup) (t : Torrent) (a : PeerAddr) (socket alloc : Bool)
    (elapsed elapsed' : Nat) :
    Shift t (some ⟨a.endpoint, rung a⟩) (dial u t a socket alloc elapsed elapsed') none := by
  have hread := Shift.read t (some ⟨a.endpoint, rung a⟩) elapsed
  have hplace := hread.trans (.place (t.read elapsed) u a (t.now + elapsed))
  have hblock := hread.trans (.block (t.read elapsed) ⟨a.endpoint, rung a⟩ (t.now + elapsed))
  unfold dial
  split
  · split
    · exact hplace
    · exact hblock
  · next htcp =>
    split
    · have hretry := shift_requeueUtp u t ⟨a.endpoint, rung a⟩ elapsed (by simpa [rung] using htcp)
      dsimp only at hretry ⊢
      generalize requeueUtp u t a.endpoint elapsed = r at hretry ⊢
      split
      · next hqueued =>
        rw [if_pos hqueued] at hretry
        exact hretry
      · next hrefused =>
        rw [if_neg hrefused] at hretry
        refine (hretry.trans (.read r.1 _ elapsed')).trans ?_
        exact .block (r.1.read elapsed') ⟨a.endpoint, rung a⟩ (r.1.now + elapsed')
    · split
      · exact hplace
      · exact hblock

theorem shift_tryConnect (u : Setup) (t : Torrent) (socket alloc : Bool) (elapsed elapsed' : Nat) :
    Shift t none (tryConnect u t socket alloc elapsed elapsed') none := by
  unfold tryConnect
  split
  · exact .refl t none
  · split
    · exact .refl t none
    · next q a hpop =>
        exact (Shift.take t hpop).trans (shift_dial u _ a socket alloc elapsed elapsed')

theorem shift_pushAll (elapsed : Nat → Nat) (es : List Endpoint) (t : Torrent) :
    Shift t none (pushAll elapsed es t).1 none := by
  induction es generalizing t with
  | nil => exact .refl t none
  | cons e rest ih => exact (Shift.push t e _).trans (ih _)

theorem shift_utpMarkDead (t : Torrent) (hslot : slot < maxActivePeers) :
    Shift t none (utpMarkDead t slot) none := by
  unfold utpMarkDead
  split
  · exact .refl t none
  · next k hk => exact .edit hslot hk (dead_steady k.conn)

theorem shift_pollPeer (u : Setup) (t : Torrent) (hslot : slot < maxActivePeers) (pollout : Bool)
    (sys : System) (reads : List NetRead) (elapsed : Nat → Nat) (elapsed' elapsed'' : Nat) :
    Shift t none (pollPeer u t slot pollout sys reads elapsed elapsed' elapsed'') none := by
  unfold pollPeer
  split
  · exact .refl t none
  · next k hk =>
    split
    · exact .refl t none
    · have hflush : Steady k.conn (if k.conn.peer.state ≠ .connecting ∧
        pollout = true then Conn.flush sys.net k.conn
          else (true, k.conn)).2 := by
        split
        · exact flush_steady sys.net k.conn
        · exact Steady.refl k.conn
      dsimp only
      generalize (if k.conn.peer.state ≠ .connecting ∧ pollout = true then Conn.flush sys.net k.conn
        else (true, k.conn)) = flushed at hflush ⊢
      split
      · exact (Shift.work hslot hk hflush).trans
          (shift_closePeer u _ hslot t.tickMs elapsed' elapsed'')
      · cases hrecv : peerRecv sys u.ctx reads flushed.2 with
        | none => exact .refl t none
        | some r =>
          have hsteady := hflush.trans
            (steady_of_moves (peerRecv_moves sys u.ctx reads flushed.2 hrecv))
          have hworked := (Shift.work hslot hk hsteady).trans
            (shift_pushAll elapsed (found r.events) _)
          dsimp only
          split
          · exact hworked
          · exact hworked.trans (shift_closePeer u _ hslot t.tickMs elapsed' elapsed'')

theorem shift_utpCallback (u : Setup) (t : Torrent) (hslot : slot < maxActivePeers)
    (call : UtpCall) : Shift t none (utpCallback u t slot call) none := by
  unfold utpCallback
  split
  · exact .refl t none
  · next k hk =>
    split
    · exact .refl t none
    · cases call with
      | read sys chunk elapsed =>
        have hsteady := steady_of_moves (utpReceive_moves sys u.ctx chunk k.conn)
        have hworked := (Shift.work hslot hk hsteady).trans
          (shift_pushAll elapsed (found (utpReceive sys u.ctx chunk k.conn).events) _)
        dsimp only
        split
        · exact .refl t none
        · split
          · exact hworked
          · exact hworked.trans (shift_utpMarkDead _ hslot)
      | connected sys =>
        have hworked := Shift.work hslot hk (steady_of_moves (peerConnected_moves sys u.ctx k.conn))
        dsimp only
        split
        · exact hworked
        · exact hworked.trans (shift_utpMarkDead _ hslot)
      | writable net =>
        have hworked := Shift.work hslot hk (flush_steady net k.conn)
        dsimp only
        split
        · exact hworked
        · exact hworked.trans (shift_utpMarkDead _ hslot)
      | ended => exact shift_utpMarkDead t hslot

theorem shift_sweepPeer (u : Setup) (t : Torrent) (hslot : slot < maxActivePeers)
    (elapsed elapsed' : Nat) : Shift t none (sweepPeer u t slot elapsed elapsed') none := by
  unfold sweepPeer
  split
  · exact .refl t none
  · next k hk =>
    split
    · exact shift_evictPeer t hslot t.sweepMs
    · exact shift_closePeer u t hslot t.sweepMs elapsed elapsed'
    · next p _ => exact .edit hslot hk (edit_steady k.conn p)

/-- The application gives its peers before the first tick; everything else belongs to a
tick. -/
def Op.ticking : Op → Bool
  | .initialPeers .. => false
  | _ => true

theorem shift_inArray {t' : Torrent} (moved : slot < maxActivePeers → Shift t none t' none) :
    Shift t none (inArray slot t t') none := by
  unfold inArray
  split
  · next hslot => exact moved hslot
  · exact .refl t none

/-- What a step does to endpoints. -/
theorem shift_step (u : Setup) (t : Torrent) {op : Op} (ticking : op.ticking = true) :
    Shift t none (step u t op) none := by
  cases op with
  | initialPeers compact count pushing rotating => cases ticking
  | tick elapsed => exact .wait rfl rfl rfl rfl rfl (Nat.le_add_right _ _)
  | discover e elapsed => exact .push t e elapsed
  | connect socket alloc elapsed elapsed' =>
    exact shift_tryConnect u t socket alloc elapsed elapsed'
  | poll slot pollout sys reads elapsed elapsed' elapsed'' =>
    refine shift_inArray ?_
    intro hslot
    exact shift_pollPeer u t hslot pollout sys reads elapsed elapsed' elapsed''
  | utp slot call =>
    refine shift_inArray ?_
    intro hslot
    exact shift_utpCallback u t hslot call
  | edit slot p =>
    refine shift_inArray ?_
    intro hslot
    split
    · exact .refl t none
    · next k hk => exact .edit hslot hk (edit_steady k.conn p)
  | sweepBegins elapsed => exact .wait rfl rfl rfl rfl rfl (Nat.le_add_right _ _)
  | sweep slot elapsed elapsed' =>
    refine shift_inArray ?_
    intro hslot
    exact shift_sweepPeer u t hslot elapsed elapsed'

end Shifts

end PeerDial
