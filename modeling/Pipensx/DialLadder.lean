import Pipensx.DialPlaces

/-!
# The dial ladder

An endpoint that was found is dialled over TCP, encrypted and plain, then over μTP, encrypted
and plain, and then blocked: each dial is higher in this order than those before it, however
they fail. An endpoint that is not queued, connected or in hand has no dials behind it since
it was blocked last, so that finding it again starts from the bottom.
-/

namespace PeerDial

open PeerSend PeerRequests PeerIngest PeerQueue TorrentEngine

/-- The end of a ladder: the endpoint is blocked, or its peer has become active. -/
def closes (e : Endpoint) : Note → Bool
  | .blocklisted x => decide (x = e)
  | .active x => decide (x = e)
  | _ => false

/-- The dials of an endpoint. -/
def attempts (e : Endpoint) (notes : List Note) : List Rung :=
  notes.filterMap (fun | .attempt x r => if x = e then some r else none | _ => none)

/-- One more note for a ladder. -/
def climb (e : Endpoint) (rungs : List Rung) (n : Note) : List Rung :=
  if closes e n then [] else rungs ++ attempts e [n]

/-- The dials since the last end. -/
def ladder (e : Endpoint) (history : List Note) : List Rung := history.foldl (climb e) []

/-- Every ladder goes up, at any time. -/
def Climbs (history : List Note) : Prop := ∀ e pre, pre <+: history → (ladder e pre).Pairwise Below

section Record

variable {e : Endpoint} {history : List Note}

theorem ladder_note (e : Endpoint) (history : List Note) (n : Note) :
    ladder e (history ++ [n]) = climb e (ladder e history) n := by
  simp only [ladder, List.foldl_append, List.foldl_cons, List.foldl_nil]

@[simp] theorem ladder_discovered (e x : Endpoint) (history : List Note) :
    ladder e (history ++ [.discovered x]) = ladder e history := by
  simp [ladder_note, climb, closes, attempts]

@[simp] theorem ladder_blocklisted (e x : Endpoint) (history : List Note) :
    ladder e (history ++ [.blocklisted x]) = if x = e then [] else ladder e history := by
  simp [ladder_note, climb, closes, attempts]

@[simp] theorem ladder_active (e x : Endpoint) (history : List Note) :
    ladder e (history ++ [.active x]) = if x = e then [] else ladder e history := by
  simp [ladder_note, climb, closes, attempts]

@[simp] theorem ladder_attempt (e x : Endpoint) (r : Rung) (history : List Note) :
    ladder e (history ++ [.attempt x r]) = if x = e then ladder e history ++ [r] else ladder
    e history := by
  by_cases h : x = e
  · simp [ladder_note, climb, closes, attempts, h]
  · simp [ladder_note, climb, closes, attempts, h]

/-- A stretch without an end adds its dials to the ladder. -/
theorem ladder_open {notes : List Note} (still : ∀ n ∈ notes, closes e n = false) :
    ladder e (history ++ notes) = ladder e history ++ attempts e notes := by
  induction notes generalizing history with
  | nil => simp [attempts]
  | cons n rest ih =>
    have hfirst := still n List.mem_cons_self
    have hrest := @ih (history ++ [n]) (fun m hm => still m (List.mem_cons_of_mem _ hm))
    rw [show history ++ n :: rest = (history ++ [n]) ++ rest by simp, hrest, ladder_note,
      climb, hfirst]
    have hsplit : attempts e (n :: rest) = attempts e [n] ++ attempts e rest := by
      rw [attempts, attempts, attempts, ← List.filterMap_append]
      rfl
    rw [if_neg Bool.false_ne_true, List.append_assoc, hsplit]

theorem Climbs.note (h : Climbs history) (n : Note)
    (goes_up : ∀ e, (ladder e (history ++ [n])).Pairwise Below) : Climbs (history ++ [n]) := by
  intro e pre hpre
  rcases List.prefix_concat_iff.mp hpre with heq | hold
  · rw [heq]
    exact goes_up e
  · exact h e pre hold

theorem Climbs.whole (h : Climbs history) (e : Endpoint) : (ladder e history).Pairwise Below :=
  h e history (List.prefix_refl history)

end Record

/-- The place in the order. -/
def rank (r : Rung) : Nat := 2 * r.1.toNat + r.2.toNat

theorem below_iff (a b : Rung) : Below a b ↔ rank a < rank b := by
  revert a b
  decide

theorem rank_lt (r : Rung) : rank r < 4 := by
  revert r
  decide

/-- There are only four. -/
theorem rungs_length {rungs : List Rung} (h : rungs.Pairwise Below) : rungs.length ≤ 4 := by
  have hranks : (rungs.map rank).Nodup := by
    refine List.pairwise_map.mpr (h.imp ?_)
    intro a b hbelow
    exact Nat.ne_of_lt ((below_iff a b).mp hbelow)
  have hsub : rungs.map rank ⊆ List.range 4 := by
    intro n hn
    obtain ⟨r, _, rfl⟩ := List.mem_map.mp hn
    exact List.mem_range.mpr (rank_lt r)
  have hlength := (hranks.subperm hsub).length_le
  rw [List.length_map, List.length_range] at hlength
  exact hlength

/-- Not above. -/
def AtMost (a b : Rung) : Prop := a = b ∨ Below a b

theorem AtMost.below {a b c : Rung} (first : AtMost a b) (second : Below b c) : Below a c := by
  rcases first with rfl | hbelow
  · exact second
  · rw [below_iff] at hbelow second ⊢
    omega

/-- The flags that the peer was dialled with. -/
def Linked.dialled (k : Linked) : Rung := (k.conn.peer.utp, !k.conn.mseEnabled)

/-- Where an endpoint is, the dials behind it are below. -/
structure Climbing (t : Torrent) (hand : Option Held) : Prop where
  climbs : Climbs t.history
  queued : ∀ a ∈ t.queue.live, ∀ r ∈ ladder a.endpoint t.history, Below r (rung a)
  linked : ∀ slot k, slot < maxActivePeers → t.peers slot = some k →
    (k.conn.peer.state = .mse → k.conn.mseEnabled = true) ∧ ∀ r ∈ ladder k.addr t.history,
    AtMost r k.dialled
  held : ∀ h ∈ hand, ∀ r ∈ ladder h.endpoint t.history, AtMost r h.rung
  elsewhere : ∀ e, e ∉ t.queue.endpoints → e ∉ t.connected → (∀ h ∈ hand, h.endpoint ≠ e) →
    ladder e t.history = []

section Climb

variable {t t' : Torrent} {hand : Option Held} {a : PeerAddr} {slot : Nat} {k : Linked}

theorem Climbing.same (h : Climbing t hand) (queue : t'.queue = t.queue)
    (peers : t'.peers = t.peers) (history : t'.history = t.history) : Climbing t' hand := by
  have hconnected : t'.connected = t.connected := by simp only [connected_eq, peers]
  refine ⟨?_, ?_, ?_, ?_, ?_⟩
  · rw [history]
    exact h.climbs
  · rw [queue, history]
    exact h.queued
  · rw [peers, history]
    exact h.linked
  · rw [history]
    exact h.held
  · rw [queue, hconnected, history]
    exact h.elsewhere

/-- A note that only ends ladders. -/
theorem Climbing.cut (h : Climbing t hand) (n : Note)
    (shorter : ∀ e, ladder e (t.history ++ [n]) = [] ∨ ladder e (t.history ++ [n]) =
    ladder e t.history) : Climbing (t.note n) hand := by
  have hsub : ∀ e r, r ∈ ladder e (t.history ++ [n]) → r ∈ ladder e t.history := by
    intro e r hr
    rcases shorter e with hnil | hsame
    · rw [hnil] at hr
      cases hr
    · rwa [hsame] at hr
  refine ⟨h.climbs.note n ?_, ?_, ?_, ?_, ?_⟩
  · intro e
    rcases shorter e with hnil | hsame
    · rw [hnil]
      exact List.Pairwise.nil
    · rw [hsame]
      exact h.climbs.whole e
  · intro a ha r hr
    exact h.queued a ha r (hsub _ r hr)
  · intro slot k hslot hk
    obtain ⟨hmse, hbelow⟩ := h.linked slot k hslot hk
    exact ⟨hmse, fun r hr => hbelow r (hsub _ r hr)⟩
  · intro held hheld r hr
    exact h.held held hheld r (hsub _ r hr)
  · intro e hqueue hconnected hhand
    have hempty := h.elsewhere e hqueue hconnected hhand
    change ladder e (t.history ++ [n]) = []
    rcases shorter e with hnil | hsame
    · exact hnil
    · rw [hsame, hempty]

theorem mem_connected (hslot : slot < maxActivePeers) (at_slot : t.peers slot = some k) :
    k.addr ∈ t.connected := by
  rw [connected_eq]
  refine List.mem_filterMap.mpr ⟨slot, List.mem_range.mpr hslot, ?_⟩
  simp [addrs, at_slot]

/-- An entry is added to the queue; the dials behind it are below its flags. -/
theorem Climbing.insert (h : Climbing t hand) {front : Bool} {elapsed : Nat}
    (covered : Covered t.queue) (moved : ∀ h ∈ hand, h.endpoint = a.endpoint)
    (below : ∀ r ∈ ladder a.endpoint t.history, Below r (rung a))
    (accepted : (queueInsert t a front elapsed).2 = true) :
    Climbing (queueInsert t a front elapsed).1 none := by
  obtain ⟨_, hlive⟩ := Covered.insert (q := (t.read elapsed).queue) covered front
    (queueInsert_accepted accepted)
  have hperm := hlive.map PeerAddr.endpoint
  rw [List.map_cons] at hperm
  refine ⟨h.climbs, ?_, h.linked, ?_, ?_⟩
  · intro b hb
    rcases List.mem_cons.mp (hlive.mem_iff.mp hb) with heq | hold
    · rw [heq]
      exact below
    · exact h.queued b hold
  · rintro held ⟨⟩
  · intro e hqueue hconnected _
    have hnew : e ∉ a.endpoint :: t.queue.endpoints := fun hmem => hqueue (hperm.mem_iff.mpr hmem)
    rw [List.mem_cons, not_or] at hnew
    refine h.elsewhere e hnew.2 hconnected ?_
    intro held hheld heq
    exact hnew.1 (heq.symm.trans (moved held hheld))

theorem Climbing.read (h : Climbing t hand) (elapsed : Nat) : Climbing (t.read elapsed) hand :=
  h.same rfl rfl rfl

theorem Climbing.push (h : Climbing t none) (placed : Placed t none) (e : Endpoint)
    (elapsed : Nat) : Climbing (queuePush t e elapsed).1 none := by
  unfold queuePush
  dsimp only
  cases haccepted : (queueInsert t ⟨e, 0, 0⟩ false elapsed).2 with
  | true =>
    -- nothing is known of an endpoint that is in no place
    obtain ⟨hqueue, hslots, _⟩ := accepts_checks (queueInsert_accepted haccepted)
    have hempty : ladder e t.history = [] := by
      refine h.elsewhere e (placed.covered.absent hqueue) hslots ?_
      rintro held ⟨⟩
    have hinserted := h.insert placed.covered (by rintro held ⟨⟩)
      (by rw [hempty]; rintro r ⟨⟩) haccepted
    exact hinserted.cut (.discovered e) (fun x => Or.inr (by simp))
  | false =>
    simp only [Bool.false_eq_true, if_false]
    rw [queueInsert_refused haccepted]
    exact h.read elapsed

theorem Climbing.take (h : Climbing t none) (placed : Placed t none) {q : Queue}
    (popped : queuePop t.queue = (q, some a)) :
    Climbing ({ t with queue := q }.note (.attempt a.endpoint (rung a)))
    (some ⟨a.endpoint, rung a⟩) := by
  obtain ⟨_, hlive⟩ := placed.covered.pop popped
  have hends : t.queue.endpoints = a.endpoint :: q.endpoints := by
    rw [Queue.endpoints, hlive, List.map_cons, Queue.endpoints]
  have hall := (placed.pop popped).distinct
  rw [← List.append_assoc] at hall
  have hapart := (List.nodup_append.mp hall).2.2
  have hbelow := h.queued a (by rw [hlive]; exact List.mem_cons_self)
  have hother : ∀ e, e ≠ a.endpoint →
      ladder e (t.history ++ [.attempt a.endpoint (rung a)]) = ladder e t.history := by
    intro e hne
    rw [ladder_attempt, if_neg (Ne.symm hne)]
  have hthis : ladder a.endpoint (t.history ++ [.attempt a.endpoint (rung a)]) =
      ladder a.endpoint t.history ++ [rung a] := by
    rw [ladder_attempt, if_pos rfl]
  refine ⟨h.climbs.note _ ?_, ?_, ?_, ?_, ?_⟩
  · intro e
    by_cases heq : e = a.endpoint
    · subst heq
      rw [hthis, List.pairwise_append]
      refine ⟨h.climbs.whole _, List.pairwise_singleton _ _, ?_⟩
      intro r hr r' hr'
      rw [List.mem_singleton.mp hr']
      exact hbelow r hr
    · rw [hother e heq]
      exact h.climbs.whole e
  · intro b hb
    have hmem : b.endpoint ∈ q.endpoints ++ t.connected :=
      List.mem_append_left _ (List.mem_map_of_mem hb)
    have hne := hapart b.endpoint hmem a.endpoint (by simp)
    change ∀ r ∈ ladder b.endpoint (t.history ++ [.attempt a.endpoint (rung a)]), Below r (rung b)
    rw [hother b.endpoint hne]
    refine h.queued b ?_
    rw [hlive]
    exact List.mem_cons_of_mem _ hb
  · intro slot k hslot hk
    have hmem : k.addr ∈ q.endpoints ++ t.connected :=
      List.mem_append_right _ (mem_connected hslot hk)
    have hne := hapart k.addr hmem a.endpoint (by simp)
    change _ ∧ ∀ r ∈ ladder k.addr (t.history ++ [.attempt a.endpoint (rung a)]), AtMost r k.dialled
    rw [hother k.addr hne]
    exact h.linked slot k hslot hk
  · rintro held ⟨⟩
    change ∀ r ∈ ladder a.endpoint (t.history ++ [.attempt a.endpoint (rung a)]), AtMost r (rung a)
    rw [hthis]
    intro r hr
    rcases List.mem_append.mp hr with hold | hnew
    · exact Or.inr (hbelow r hold)
    · exact Or.inl (List.mem_singleton.mp hnew)
  · intro e hqueue hconnected hhand
    have hne : e ≠ a.endpoint := fun heq => hhand _ rfl heq.symm
    change ladder e (t.history ++ [.attempt a.endpoint (rung a)]) = []
    rw [hother e hne]
    refine h.elsewhere e ?_ hconnected (by rintro held ⟨⟩)
    rw [hends, List.mem_cons, not_or]
    exact ⟨hne, hqueue⟩

/-- The endpoint in hand is blocked, and its ladder ends. -/
theorem Climbing.block {held : Held} (h : Climbing t (some held)) (now : Nat) :
    Climbing (blocklistAdd t held.endpoint now) none := by
  have hcut := h.cut (.blocklisted held.endpoint) (fun e => by
    rw [ladder_blocklisted]
    split
    · exact Or.inl rfl
    · exact Or.inr rfl)
  refine ⟨hcut.climbs, hcut.queued, hcut.linked, by rintro held ⟨⟩, ?_⟩
  intro e hqueue hconnected _
  change ladder e (t.history ++ [.blocklisted held.endpoint]) = []
  rw [ladder_blocklisted]
  split
  · rfl
  · next hne =>
    refine h.elsewhere e hqueue hconnected ?_
    rintro held' ⟨⟩
    exact hne

/-- The endpoint in hand gets a slot, with the flags it was dialled with. -/
theorem Climbing.place {u : Setup} {now : Nat} (h : Climbing t (some ⟨a.endpoint, rung a⟩)) :
    Climbing (placePeer t (peerCreate u a now)) none := by
  unfold placePeer
  cases hfree : freeSlot t with
  | none => exact h.block t.now
  | some free =>
    have hempty : (t.peers free).isNone = true := (List.find?_eq_some_iff_append.mp hfree).1
    have hrange := List.mem_of_find?_eq_some hfree
    have hperm := setPeer_connected t (List.mem_range.mp hrange) (peerCreate u a now)
    rw [setPeer_empty (Option.isNone_iff_eq_none.mp hempty)] at hperm
    refine ⟨h.climbs, h.queued, ?_, by rintro held ⟨⟩, ?_⟩
    · intro slot k hslot hk
      simp only [Torrent.setPeer, Function.update_apply] at hk
      split at hk
      · cases hk
        refine ⟨fun hmse => PeerState.noConfusion hmse, ?_⟩
        have hflags : (peerCreate u a now).dialled = rung a := rfl
        rw [hflags]
        exact h.held _ rfl
      · exact h.linked slot k hslot hk
    · intro e hqueue hconnected _
      have hnew : e ∉ a.endpoint :: t.connected := fun hmem => hconnected (hperm.mem_iff.mpr hmem)
      rw [List.mem_cons, not_or] at hnew
      refine h.elsewhere e hqueue hnew.2 ?_
      rintro held ⟨⟩
      exact Ne.symm hnew.1

/-- A peer leaves its slot. Without the encryption handshake its second flag does not matter
any more. -/
theorem Climbing.free (h : Climbing t none) (hslot : slot < maxActivePeers)
    (at_slot : t.peers slot = some k) : Climbing (t.free slot) (some ⟨k.addr, k.rung⟩) := by
  obtain ⟨hmse, hbelow⟩ := h.linked slot k hslot at_slot
  have hperm := setPeer_connected t hslot k
  rw [setPeer_same at_slot rfl] at hperm
  have hrung : AtMost k.dialled k.rung := by
    by_cases hstate : k.conn.peer.state = .mse
    · left
      simp [Linked.dialled, Linked.rung, hstate, hmse hstate]
    · cases henabled : k.conn.mseEnabled with
      | false =>
        left
        simp [Linked.dialled, Linked.rung, hstate, henabled]
      | true =>
        right
        right
        simp [Linked.dialled, Linked.rung, hstate, henabled]
  refine ⟨h.climbs, h.queued, ?_, ?_, ?_⟩
  · intro other k' hother hk'
    simp only [Torrent.free, Torrent.setPeer, Function.update_apply] at hk'
    split at hk'
    · cases hk'
    · exact h.linked other k' hother hk'
  · rintro held ⟨⟩ r hr
    rcases hbelow r hr with heq | hlower
    · rw [heq]
      exact hrung
    · right
      rcases hrung with heq | hhigher
      · rw [← heq]
        exact hlower
      · exact AtMost.below (Or.inr hlower) hhigher
  · intro e hqueue hconnected hhand
    refine h.elsewhere e hqueue ?_ (by rintro held ⟨⟩)
    intro hmem
    rcases List.mem_cons.mp (hperm.mem_iff.mp hmem) with heq | hrest
    · exact hhand _ rfl heq.symm
    · exact hconnected hrest

/-- The connection of a peer goes on, with the transport and the encryption it has. -/
theorem Climbing.setPeer (h : Climbing t none) (hslot : slot < maxActivePeers)
    (at_slot : t.peers slot = some k) {conn : Conn} (steady : Steady k.conn conn) :
    Climbing (t.setPeer slot (some { k with conn := conn })) none := by
  have hsame : (t.setPeer slot (some { k with conn := conn })).connected = t.connected :=
    setPeer_same at_slot rfl
  refine ⟨h.climbs, h.queued, ?_, by rintro held ⟨⟩, ?_⟩
  · intro other k' hother hk'
    simp only [Torrent.setPeer, Function.update_apply] at hk'
    split at hk'
    · cases hk'
      obtain ⟨hmse, hbelow⟩ := h.linked slot k hslot at_slot
      refine ⟨?_, ?_⟩
      · intro hstate
        change conn.mseEnabled = true
        rw [steady.mseEnabled]
        rcases steady.mse hstate with hold | henabled
        · exact hmse hold
        · exact henabled
      · have hflags : Linked.dialled { k with conn := conn } = k.dialled := by
          simp only [Linked.dialled, steady.utp, steady.mseEnabled]
        rw [hflags]
        exact hbelow
    · exact h.linked other k' hother hk'
  · rw [hsame]
    exact h.elsewhere

theorem Climbing.shift {hand' : Option Held} (moves : Shift t hand t' hand')
    (placed : Placed t (hand.map Held.endpoint)) (h : Climbing t hand) : Climbing t' hand' := by
  induction moves with
  | wait queue peers _ _ history _ => exact h.same queue peers history
  | push t e elapsed => exact h.push placed e elapsed
  | take t popped => exact h.take placed popped
  | place t u a now => exact h.place
  | free hslot at_slot => exact h.free hslot at_slot
  | requeue t held a front elapsed same higher accepted =>
    refine h.insert placed.covered ?_ ?_ accepted
    · rintro held' ⟨⟩
      exact same.symm
    · rw [same]
      exact fun r hr => (h.held held rfl r hr).below higher
  | block t held now => exact h.block now
  | work hslot at_slot steady =>
    have hset := h.setPeer hslot at_slot steady
    unfold setConn
    dsimp only
    split
    · refine hset.cut _ ?_
      intro e
      rw [ladder_active]
      split
      · exact Or.inl rfl
      · exact Or.inr rfl
    · exact hset
  | edit hslot at_slot steady => exact h.setPeer hslot at_slot steady
  | trans first _ ih ih' => exact ih' (Placed.shift first placed) (ih placed h)

theorem Climbing.run (h : Climbing t none) (placed : Placed t none) (u : Setup) {ops : List Op}
    (ticking : ∀ op ∈ ops, op.ticking = true) : Climbing (run u t ops) none := by
  induction ops generalizing t with
  | nil => exact h
  | cons op rest ih =>
    have hstep := shift_step u t (ticking op List.mem_cons_self)
    exact ih (Climbing.shift hstep placed h) (placed.step u op)
      (fun o ho => ticking o (List.mem_cons_of_mem _ ho))

end Climb

/-- Endpoints were found, and nothing else has happened. -/
structure Idle (t : Torrent) : Prop where
  peers : ∀ slot, t.peers slot = none
  history : ∀ n ∈ t.history, ∃ e, n = .discovered e

section Start

variable {t : Torrent}

theorem ladder_discoveries (e : Endpoint) {history : List Note}
    (found : ∀ n ∈ history, ∃ x, n = .discovered x) :
    ladder e history = [] := by
  induction history using List.reverseRecOn with
  | nil => rfl
  | append_singleton rest n ih =>
    obtain ⟨x, rfl⟩ := found n (by simp)
    rw [ladder_discovered]
    exact ih (fun m hm => found m (List.mem_append_left _ hm))

theorem Idle.climbing (h : Idle t) : Climbing t none := by
  have hempty : ∀ e, ladder e t.history = [] := fun e => ladder_discoveries e h.history
  refine ⟨?_, ?_, ?_, by rintro held ⟨⟩, fun e _ _ _ => hempty e⟩
  · intro e pre hpre
    rw [ladder_discoveries e (fun n hn => h.history n (hpre.subset hn))]
    exact List.Pairwise.nil
  · intro a _
    rw [hempty]
    rintro r ⟨⟩
  · intro slot k _ hk
    rw [h.peers slot] at hk
    cases hk

theorem Idle.push (h : Idle t) (e : Endpoint) (elapsed : Nat) : Idle (queuePush t e elapsed).1 := by
  unfold queuePush
  dsimp only
  split
  · refine ⟨h.peers, ?_⟩
    intro n hn
    rcases List.mem_append.mp hn with hold | hnew
    · exact h.history n hold
    · exact ⟨e, List.mem_singleton.mp hnew⟩
  · exact ⟨h.peers, h.history⟩

theorem Idle.pushAll (h : Idle t) (elapsed : Nat → Nat) (es : List Endpoint) :
    Idle (pushAll elapsed es t).1 := by
  induction es generalizing t with
  | nil => exact h
  | cons e rest ih => exact ih (h.push e _)

theorem Idle.rotate (h : Idle t) (elapsed : Nat → Nat) (n : Nat) : Idle (rotate elapsed n t) := by
  induction n generalizing t with
  | zero => exact h
  | succ n ih =>
    unfold PeerDial.rotate
    split
    · exact h
    · next q a _ =>
      have hinserted : Idle (queueInsert { t with queue := q } a false (elapsed n)).1 :=
        ⟨h.peers, h.history⟩
      exact ih hinserted

theorem Idle.run (h : Idle t) (u : Setup) {calls : List Op}
    (before : ∀ op ∈ calls, op.ticking = false) :
    Idle (run u t calls) := by
  induction calls generalizing t with
  | nil => exact h
  | cons op rest ih =>
    refine ih ?_ (fun o ho => before o (List.mem_cons_of_mem _ ho))
    cases op with
    | initialPeers compact count pushing rotating =>
      have hpushed := h.pushAll pushing (initialEndpoints compact count)
      simp only [step, torrentAddInitialPeers]
      split
      · exact hpushed.rotate rotating t.queue.qsize
      · exact hpushed
    | _ => cases before _ List.mem_cons_self

end Start

/-- From the time an endpoint was found until it is blocked or its peer is active, it is
dialled at most four times, each time with higher flags. The application gives its peers
before the first tick. -/
theorem ladder_bounded (u : Setup) (now : Nat) (calls ops : List Op)
    (before : ∀ op ∈ calls, op.ticking = false)
    (ticking : ∀ op ∈ ops, op.ticking = true) (e : Endpoint) (earlier since later : List Note)
    (split : (run u (created now) (calls ++ ops)).history =
    earlier ++ .discovered e :: since ++ later) (still : ∀ n ∈ since, closes e n = false) :
    (attempts e since).Pairwise Below ∧ (attempts e since).length ≤ 4 := by
  have hidle : Idle (created now) := ⟨fun _ => rfl, by rintro n ⟨⟩⟩
  have hplaced := (created_placed now).run u calls
  have hclimbing := (hidle.run u before).climbing.run hplaced u ticking
  have hrun : run u (run u (created now) calls) ops = run u (created now) (calls ++ ops) :=
    List.foldl_append.symm
  rw [hrun] at hclimbing
  have hup := hclimbing.climbs e (earlier ++ .discovered e :: since) (by
    rw [split]
    exact List.prefix_append _ _)
  have hopen : ladder e (earlier ++ .discovered e :: since) =
      ladder e (earlier ++ [.discovered e]) ++ attempts e since := by
    rw [← ladder_open still, List.append_assoc]
    rfl
  rw [hopen] at hup
  have hsince := (List.pairwise_append.mp hup).2.1
  exact ⟨hsince, rungs_length hsince⟩

/-- A torrent with one endpoint that the application has given. It does not answer, neither
over TCP nor over μTP. -/
def oneSetup : Setup := ⟨true, ⟨[], [], 1, [], 0⟩⟩

def oneEndpoint : Endpoint := ⟨0x08080808, 0x5000⟩

def oneCall : List Op := [.initialPeers [8, 8, 8, 8, 0, 80] 1 (fun _ => 0) (fun _ => 0)]

def unanswered : List Op := [.tick 5, .connect true true 0 0, .sweepBegins 5000, .sweep 0 0 0]

theorem ladder_bounded_two :
    (attempts oneEndpoint [.attempt oneEndpoint (false, false),
      .attempt oneEndpoint (true, false)]).Pairwise Below ∧
      (attempts oneEndpoint [.attempt oneEndpoint (false, false),
        .attempt oneEndpoint (true, false)]).length ≤ 4 :=
  ladder_bounded oneSetup 0 oneCall (unanswered ++ unanswered) (by decide) (by decide)
    oneEndpoint [] [.attempt oneEndpoint (false, false), .attempt oneEndpoint (true, false)]
    [.blocklisted oneEndpoint] (by decide +kernel) (by decide)

end PeerDial
