import Pipensx.DialShifts

/-!
# An endpoint is in one place

No endpoint is queued and connected, or either twice, and none that is queued is blocked. The
hash table beside the ring may keep an endpoint after it was taken off, but it never misses
one that is there. While an endpoint is moved it is in no place at all: `hand` is the one
that is being moved.
-/

namespace PeerDial

open PeerSend PeerRequests PeerIngest PeerQueue TorrentEngine ProbeTable

/-- The ring is well formed, and the table holds every endpoint of the ring. -/
structure Covered (q : Queue) : Prop where
  head : q.qhead < maxPeerQueue
  size : q.qsize ≤ maxPeerQueue
  tail : q.qtail = (q.qhead + q.qsize) % maxPeerQueue
  sound : q.qhash.Sound queueHashCap queueHashIndex
  load : q.qhash.load queueHashCap ≤ q.qsize + 1
  covers : ∀ e, q.endpoints.count e ≤ q.indexed e

section Ring

variable {q q' : Queue} {a : PeerAddr}

theorem covered_zeroed : Covered zeroed := by
  have hzero := inStep_zeroed
  refine ⟨hzero.head, hzero.size, hzero.tail, hzero.sound, ?_, ?_⟩
  · rw [hzero.load]
    exact Nat.le_succ _
  · intro e
    rw [hzero.counts e]

theorem Covered.absent (h : Covered q) {e : Endpoint} (absent : queueHashContains q e = false) :
    e ∉ q.endpoints := by
  intro hmem
  have hcount := h.covers e
  have hpos := List.count_pos_iff.mpr hmem
  have hfound := (contains_iff_indexed h.sound e).mpr (by omega)
  rw [absent] at hfound
  cases hfound

theorem endpoints_length (q : Queue) : q.endpoints.length = q.qsize := by
  simp [Queue.endpoints, Queue.live]

/-- An entry that is accepted is in the ring, and everything in the ring is in the table. -/
theorem Covered.insert (h : Covered q) (front : Bool) {around : Surroundings}
    (accepted : accepts q a.endpoint around = true) :
    Covered (PeerQueue.queueInsert q a front around).1 ∧
      (PeerQueue.queueInsert q a front around).1.live.Perm (a :: q.live) := by
  obtain ⟨room, _⟩ := accepts_iff accepted
  obtain ⟨hhead, htail, hsize, hhash, hring⟩ := place_ring h.head h.tail room a front
  have hperm : (place q a front).endpoints.Perm (a.endpoint :: q.endpoints) :=
    hring.map PeerAddr.endpoint
  have hinsert : (PeerQueue.queueInsert q a front around).1 =
    queueHashAdd (place q a front) a.endpoint := by
    simp [PeerQueue.queueInsert, accepted]
  have hcap : queueHashCap = 2048 := rfl
  have hmax : maxPeerQueue = 1024 := rfl
  have hold := h.load
  rw [hinsert, queueHashAdd]
  split
  · -- the table is rebuilt from the ring, and the entry is added once more
    have hlength := endpoints_length (place q a front)
    obtain ⟨hsound, hload, hcount⟩ := addAll_spec (place q a front).endpoints
      (sound_zeroed queueHashCap queueHashIndex (⟨0, 0⟩ : Endpoint))
      (by rw [load_zeroed, hlength, hsize]; omega)
    rw [load_zeroed, hlength, hsize] at hload
    obtain ⟨hsound', hload', hcount'⟩ := hsound.add (by omega) a.endpoint
    rw [queueHashRebuild_eq]
    refine ⟨⟨hhead, ?_, htail, hsound', ?_, ?_⟩, hring⟩
    · simp only [queueHashAddRaw, hsize]
      omega
    · simp only [queueHashAddRaw, hsize]
      omega
    · intro e
      have hadded := hcount' e
      rw [hcount e, count_zeroed] at hadded
      change (place q a front).endpoints.count e ≤ Index.count queueHashCap _ e
      simp only [queueHashAddRaw]
      omega
  · obtain ⟨hsound, hload, hcount⟩ := h.sound.add (by omega) a.endpoint
    refine ⟨⟨hhead, ?_, htail, ?_, ?_, ?_⟩, hring⟩
    · simp only [queueHashAddRaw, hsize]
      omega
    · simp only [queueHashAddRaw, hhash]
      exact hsound
    · simp only [queueHashAddRaw, hhash, hsize]
      omega
    · intro e
      have hcovers := h.covers e
      have hadded := hcount e
      have hplaced := hperm.count_eq e
      rw [List.count_cons] at hplaced
      change (place q a front).endpoints.count e ≤ Index.count queueHashCap _ e
      simp only [Queue.indexed] at hcovers
      simp only [queueHashAddRaw, hhash, hplaced, hadded]
      by_cases heq : e = a.endpoint
      · simp only [heq, BEq.rfl, if_true] at hcovers ⊢
        omega
      · have hne : (a.endpoint == e) = false := by simpa using Ne.symm heq
        simp only [heq, hne, Bool.false_eq_true, if_false]
        omega

theorem Covered.pop (h : Covered q) (popped : queuePop q = (q', some a)) :
    Covered q' ∧ q.live = a :: q'.live := by
  obtain ⟨_, _, hlive, _⟩ := queuePop_some h.head popped
  have hcovers := h.covers
  simp only [queuePop_endpoints h.head popped, List.count_cons] at hcovers
  have hstored : 0 < q.indexed a.endpoint := by
    have hthis := hcovers a.endpoint
    simp only [BEq.rfl, if_true] at hthis
    omega
  obtain ⟨hhead, hcount, htail, hsound, hload, hindexed⟩ :=
    queuePop_leaves h.head h.tail h.sound hstored popped
  have hsize := h.size
  have hold := h.load
  refine ⟨⟨hhead, by omega, htail, hsound, by omega, fun e => ?_⟩, hlive⟩
  have hthis := hcovers e
  rw [hindexed]
  by_cases heq : e = a.endpoint
  · simp only [heq, BEq.rfl, if_true] at hthis ⊢
    omega
  · simp only [heq, if_false]
    omega

end Ring

section Slots

variable {t : Torrent} {slot : Nat}

/-- One of the slots of an array is filled. -/
theorem filterMap_update {α : Type} {n slot : Nat} (h : slot < n) (cells : Nat → Option α) (a : α) :
    ((List.range n).filterMap (Function.update cells slot (some a))).Perm
      (a :: (List.range n).filterMap (Function.update cells slot none)) := by
  induction n with
  | zero => omega
  | succ n ih =>
    rw [List.range_succ, List.filterMap_append, List.filterMap_append]
    by_cases hlast : slot = n
    · subst hlast
      have hbefore : ∀ cell : Option α, (List.range slot).filterMap
          (Function.update cells slot cell) = (List.range slot).filterMap cells := by
        intro cell
        refine List.filterMap_congr ?_
        intro i hi
        rw [Function.update_of_ne (Nat.ne_of_lt (List.mem_range.mp hi))]
      simp only [hbefore, List.filterMap_cons, Function.update_self, List.filterMap_nil,
        List.append_nil]
      exact List.perm_append_singleton _ _
    · have hrest := (ih (by omega)).append_right
        ([n].filterMap (Function.update cells slot (some a)))
      have hsame : [n].filterMap (Function.update cells slot (some a)) =
          [n].filterMap (Function.update cells slot none) := by
        have hne : n ≠ slot := Ne.symm hlast
        simp only [List.filterMap_cons, Function.update_of_ne hne, List.filterMap_nil]
      rw [hsame] at hrest ⊢
      exact hrest

/-- The endpoints by slot. -/
def addrs (peers : Nat → Option Linked) (slot : Nat) : Option Endpoint :=
  (peers slot).map Linked.addr

theorem addrs_update (peers : Nat → Option Linked) (slot : Nat) (k : Option Linked) :
    addrs (Function.update peers slot k) =
      Function.update (addrs peers) slot (k.map Linked.addr) := by
  funext i
  by_cases h : i = slot
  · simp [addrs, h]
  · simp [addrs, h]

theorem connected_eq (t : Torrent) :
    t.connected = (List.range maxActivePeers).filterMap (addrs t.peers) := rfl

theorem setPeer_connected (t : Torrent) (h : slot < maxActivePeers) (k : Linked) :
    (t.setPeer slot (some k)).connected.Perm (k.addr :: (t.setPeer slot none).connected) := by
  simp only [connected_eq, Torrent.setPeer, addrs_update]
  exact filterMap_update h _ _

/-- A peer with the same address. -/
theorem setPeer_same {k k' : Linked} (at_slot : t.peers slot = some k) (addr : k'.addr = k.addr) :
    (t.setPeer slot (some k')).connected = t.connected := by
  have hsame : Function.update (addrs t.peers) slot (some k'.addr) = addrs t.peers := by
    refine Function.update_eq_self_iff.mpr ?_
    simp [addrs, at_slot, addr]
  simp only [connected_eq, Torrent.setPeer, addrs_update, Option.map_some, hsame]

theorem setPeer_empty (empty : t.peers slot = none) :
    (t.setPeer slot none).connected = t.connected := by
  have hsame : Function.update t.peers slot none = t.peers :=
    Function.update_eq_self_iff.mpr empty.symm
  simp only [connected_eq, Torrent.setPeer, hsame]

end Slots

/-- Everything is in its place, but for the endpoint in hand. -/
structure Placed (t : Torrent) (hand : Option Endpoint) : Prop where
  covered : Covered t.queue
  distinct : (t.queue.endpoints ++ (t.connected ++ hand.toList)).Nodup
  counted : t.numPeers = t.connected.length
  unblocked : ∀ e ∈ t.queue.endpoints, ∀ i, i < peerBlocklistSize → (t.blocklist i).addr = e →
    (t.blocklist i).untilMs ≤ t.now

section Places

variable {t t' : Torrent} {hand : Option Endpoint} {a : PeerAddr} {slot : Nat}

theorem Placed.same (h : Placed t hand) (queue : t'.queue = t.queue)
    (connected : t'.connected = t.connected) (numPeers : t'.numPeers = t.numPeers)
    (blocklist : t'.blocklist = t.blocklist) (now : t.now ≤ t'.now) :
    Placed t' hand := by
  refine ⟨?_, ?_, ?_, ?_⟩
  · rw [queue]
    exact h.covered
  · rw [queue, connected]
    exact h.distinct
  · rw [numPeers, connected]
    exact h.counted
  · intro e hmem i hi haddr
    rw [queue] at hmem
    rw [blocklist] at haddr ⊢
    exact (h.unblocked e hmem i hi haddr).trans now

theorem Placed.read (h : Placed t hand) (elapsed : Nat) : Placed (t.read elapsed) hand :=
  h.same rfl rfl rfl rfl (Nat.le_add_right _ _)

theorem Placed.note (h : Placed t hand) (n : Note) : Placed (t.note n) hand :=
  h.same rfl rfl rfl rfl (Nat.le_refl _)

theorem Placed.setPeer (h : Placed t hand) {k k' : Linked} (at_slot : t.peers slot = some k)
    (addr : k'.addr = k.addr) : Placed (t.setPeer slot (some k')) hand :=
  h.same rfl (setPeer_same at_slot addr) rfl rfl (Nat.le_refl _)

theorem queueInsert_accepted {front : Bool} {elapsed : Nat}
    (accepted : (queueInsert t a front elapsed).2 = true) :
    accepts (t.read elapsed).queue a.endpoint (t.read elapsed).around = true := by
  simp only [queueInsert, PeerQueue.queueInsert] at accepted
  split at accepted
  · cases accepted
  · next hyes => simpa using hyes

/-- What `queue_insert` has checked. -/
theorem accepts_checks {q : Queue} {e : Endpoint} {around : Surroundings}
    (h : accepts q e around = true) :
    queueHashContains q e = false ∧ e ∉ around.peers ∧ blocklistBlocked around e = false := by
  simp only [accepts, Bool.and_eq_true, decide_eq_true_iff, Bool.not_eq_true'] at h
  refine ⟨h.1.1.2, ?_, h.2⟩
  intro hmem
  have hcontains := h.1.2
  rw [List.contains_iff_mem.mpr hmem] at hcontains
  cases hcontains

theorem blocked_of_entry {e : Endpoint} {i : Nat} (hi : i < peerBlocklistSize)
    (addr : (t.blocklist i).addr = e)
    (clear : blocklistBlocked t.around e = false) : (t.blocklist i).untilMs ≤ t.now := by
  simp only [blocklistBlocked, Torrent.around, List.any_map, List.any_eq_false, List.mem_range,
    Function.comp_apply, Bool.and_eq_true, decide_eq_true_eq, not_and] at clear
  simpa using clear i hi addr

/-- The endpoint that is accepted was in no place; it is the one in hand, if there is one. -/
theorem Placed.insert (h : Placed t hand) {front : Bool} {elapsed : Nat}
    (accepted : (queueInsert t a front elapsed).2 = true) :
    Placed (queueInsert t a front elapsed).1 none := by
  have hread := h.read elapsed
  have haccepts := queueInsert_accepted accepted
  obtain ⟨hqueue, hslots, hclear⟩ := accepts_checks haccepts
  obtain ⟨hcovered, hlive⟩ := hread.covered.insert front haccepts
  have hperm := hlive.map PeerAddr.endpoint
  rw [List.map_cons] at hperm
  refine ⟨hcovered, ?_, hread.counted, ?_⟩
  · have hnew : a.endpoint ∉ t.queue.endpoints ++ t.connected := by
      intro hmem
      rcases List.mem_append.mp hmem with hin | hin
      · exact h.covered.absent hqueue hin
      · exact hslots hin
    have hold : (t.queue.endpoints ++ t.connected).Nodup := by
      have hall := h.distinct
      rw [← List.append_assoc] at hall
      exact (List.nodup_append.mp hall).1
    rw [Option.toList_none, List.append_nil]
    exact (hperm.append_right t.connected).nodup_iff.mpr (List.nodup_cons.mpr ⟨hnew, hold⟩)
  · intro e hmem i hi haddr
    rcases List.mem_cons.mp (hperm.mem_iff.mp hmem) with heq | hin
    · rw [heq] at haddr
      exact blocked_of_entry hi haddr hclear
    · exact hread.unblocked e hin i hi haddr

/-- The endpoint in hand is blocked. -/
theorem Placed.block {e : Endpoint} (h : Placed t (some e)) (now : Nat) :
    Placed (blocklistAdd t e now) none := by
  have hall := h.distinct
  rw [← List.append_assoc] at hall
  obtain ⟨hold, _, hapart⟩ := List.nodup_append.mp hall
  refine ⟨h.covered, ?_, h.counted, ?_⟩
  · rw [Option.toList_none, List.append_nil]
    exact hold
  intro e' hmem i hi haddr
  simp only [blocklistAdd, Function.update_apply] at haddr ⊢
  split at haddr
  · -- the new entry is for the endpoint in hand, which is not queued
    have hne := hapart e' (List.mem_append_left _ hmem) e (by simp)
    exact absurd haddr.symm hne
  · next hother =>
    rw [if_neg hother]
    exact h.unblocked e' hmem i hi haddr

theorem Placed.pop (h : Placed t none) {q : Queue} (popped : queuePop t.queue = (q, some a)) :
    Placed { t with queue := q } (some a.endpoint) := by
  obtain ⟨hcovered, hlive⟩ := h.covered.pop popped
  have hends : t.queue.endpoints = a.endpoint :: q.endpoints := by
    rw [Queue.endpoints, hlive, List.map_cons, Queue.endpoints]
  have hall := h.distinct
  rw [hends, Option.toList_none, List.append_nil] at hall
  refine ⟨hcovered, ?_, h.counted, ?_⟩
  · have hperm : (q.endpoints ++ (t.connected ++ [a.endpoint])).Perm
      (a.endpoint :: (q.endpoints ++ t.connected)) := by
      rw [← List.append_assoc]
      exact List.perm_append_singleton _ _
    exact hperm.nodup_iff.mpr hall
  · intro e hmem i hi haddr
    refine h.unblocked e ?_ i hi haddr
    rw [hends]
    exact List.mem_cons_of_mem _ hmem

/-- The endpoint in hand gets a slot. -/
theorem Placed.place {k : Linked} (h : Placed t (some k.addr)) : Placed (placePeer t k) none := by
  unfold placePeer
  cases hfree : freeSlot t with
  | none => exact h.block t.now
  | some slot =>
    have hempty : (t.peers slot).isNone = true := (List.find?_eq_some_iff_append.mp hfree).1
    have hrange := List.mem_of_find?_eq_some hfree
    have hperm := setPeer_connected t (List.mem_range.mp hrange) k
    rw [setPeer_empty (Option.isNone_iff_eq_none.mp hempty)] at hperm
    refine ⟨h.covered, ?_, ?_, h.unblocked⟩
    · have hall := h.distinct
      rw [Option.toList_none, List.append_nil]
      refine ((hperm.trans (List.perm_append_singleton _ _).symm).append_left _).nodup_iff.mpr ?_
      exact hall
    · have hlength := hperm.length_eq
      rw [List.length_cons, ← h.counted] at hlength
      exact hlength.symm

/-- A peer leaves its slot, and its endpoint is in hand. -/
theorem Placed.free (h : Placed t none) {k : Linked} (hslot : slot < maxActivePeers)
    (at_slot : t.peers slot = some k) : Placed (t.free slot) (some k.addr) := by
  have hperm := setPeer_connected t hslot k
  rw [setPeer_same at_slot rfl] at hperm
  refine ⟨h.covered, ?_, ?_, h.unblocked⟩
  · have hall := h.distinct
    rw [Option.toList_none, List.append_nil] at hall
    refine ((hperm.trans (List.perm_append_singleton _ _).symm).append_left _).nodup_iff.mp ?_
    exact hall
  · have hlength := hperm.length_eq
    rw [List.length_cons, ← h.counted] at hlength
    change t.numPeers - 1 = (t.setPeer slot none).connected.length
    omega

theorem Placed.push (h : Placed t none) (e : Endpoint) (elapsed : Nat) :
    Placed (queuePush t e elapsed).1 none := by
  unfold queuePush
  dsimp only
  cases haccepted : (queueInsert t ⟨e, 0, 0⟩ false elapsed).2 with
  | true => exact (h.insert haccepted).note (.discovered e)
  | false =>
    simp only [Bool.false_eq_true, if_false]
    rw [queueInsert_refused haccepted]
    exact h.read elapsed

theorem Placed.pushAll (h : Placed t none) (elapsed : Nat → Nat) (es : List Endpoint) :
    Placed (pushAll elapsed es t).1 none := by
  induction es generalizing t with
  | nil => exact h
  | cons e rest ih => exact ih (h.push e _)

theorem Placed.reinsert (h : Placed t hand) (front : Bool) (elapsed : Nat) :
    Placed (queueInsert t a front elapsed).1
      (if (queueInsert t a front elapsed).2 then none else hand) := by
  cases haccepted : (queueInsert t a front elapsed).2 with
  | true => exact h.insert haccepted
  | false =>
    rw [queueInsert_refused haccepted]
    exact h.read elapsed

/-- An endpoint in hand may be let go. -/
theorem Placed.drop (h : Placed t hand) : Placed t none := by
  have hall := h.distinct
  rw [← List.append_assoc] at hall
  refine ⟨h.covered, ?_, h.counted, h.unblocked⟩
  rw [Option.toList_none, List.append_nil]
  exact (List.nodup_append.mp hall).1

theorem Placed.rotate (h : Placed t none) (elapsed : Nat → Nat) (n : Nat) :
    Placed (rotate elapsed n t) none := by
  induction n generalizing t with
  | zero => exact h
  | succ n ih =>
    unfold PeerDial.rotate
    split
    · exact h
    · next q a hpop => exact ih ((h.pop hpop).reinsert false (elapsed n)).drop

/-- The ways endpoints move keep everything in place. -/
theorem Placed.shift {t t' : Torrent} {hand hand' : Option Held} (moves : Shift t hand t' hand')
    (h : Placed t (hand.map Held.endpoint)) : Placed t' (hand'.map Held.endpoint) := by
  induction moves with
  | wait queue peers numPeers blocklist _ now =>
    exact h.same queue (by simp only [connected_eq, peers]) numPeers blocklist now
  | push t e elapsed => exact h.push e elapsed
  | take t popped => exact (h.pop popped).note _
  | place t u a now => exact Placed.place h
  | free hslot at_slot => exact h.free hslot at_slot
  | requeue t hand a front elapsed _ _ accepted => exact h.insert accepted
  | block t hand now => exact Placed.block h now
  | work hslot at_slot _ =>
    unfold setConn
    dsimp only
    split
    · refine Placed.note (h.setPeer at_slot ?_) _
      rfl
    · exact h.setPeer at_slot rfl
  | edit hslot at_slot _ => exact h.setPeer at_slot rfl
  | trans _ _ first second => exact second (first h)

theorem Placed.step (h : Placed t none) (u : Setup) (op : Op) : Placed (step u t op) none := by
  cases hticking : op.ticking with
  | true => exact Placed.shift (shift_step u t hticking) h
  | false =>
    cases op with
    | initialPeers compact count pushing rotating =>
      have hpushed := h.pushAll pushing (initialEndpoints compact count)
      simp only [PeerDial.step, torrentAddInitialPeers]
      split
      · exact hpushed.rotate rotating t.queue.qsize
      · exact hpushed
    | _ => cases hticking

theorem Placed.run (h : Placed t none) (u : Setup) (ops : List Op) : Placed (run u t ops) none := by
  induction ops generalizing t with
  | nil => exact h
  | cons op rest ih => exact ih (h.step u op)

theorem created_placed (now : Nat) : Placed (created now) none := by
  have hnone : (created now).connected = [] := by simp [Torrent.connected, created]
  refine ⟨covered_zeroed, ?_, ?_, ?_⟩
  · rw [hnone]
    exact List.nodup_nil
  · rw [hnone]
    rfl
  · intro e hmem
    cases hmem

end Places

/-- The number of slots with a peer. -/
def occupied (t : Torrent) : Nat :=
  (List.range maxActivePeers).countP (fun slot => (t.peers slot).isSome)

theorem connected_length (t : Torrent) : t.connected.length = occupied t := by
  rw [connected_eq, List.length_filterMap_eq_countP, occupied]
  refine List.countP_congr ?_
  intro slot _
  simp [addrs]

/-- In every run, an endpoint is in one place at most, none that is queued is blocked now or
later, and the numbers are right. -/
theorem one_place (u : Setup) (now : Nat) (ops : List Op) :
    ((run u (created now) ops).queue.endpoints ++ (run u (created now) ops).connected).Nodup ∧
    (∀ e ∈ (run u (created now) ops).queue.endpoints, ∀ later,
      (run u (created now) ops).now ≤ later →
      blocklistBlocked { (run u (created now) ops).around with now := later } e = false) ∧
    (run u (created now) ops).numPeers = occupied (run u (created now) ops) ∧
    (run u (created now) ops).queue.qtail =
      ((run u (created now) ops).queue.qhead + (run u (created now) ops).queue.qsize) %
      maxPeerQueue ∧
    (run u (created now) ops).queue.qsize ≤ maxPeerQueue := by
  have hplaced := (created_placed now).run u ops
  generalize run u (created now) ops = t at hplaced ⊢
  refine ⟨?_, ?_, ?_, hplaced.covered.tail, hplaced.covered.size⟩
  · have hall := hplaced.distinct
    rw [Option.toList_none, List.append_nil] at hall
    exact hall
  · intro e hmem later hlater
    simp only [blocklistBlocked, Torrent.around, List.any_map, List.any_eq_false, List.mem_range,
      Function.comp_apply, Bool.and_eq_true, decide_eq_true_eq, not_and]
    intro i hi haddr
    have hexpired := hplaced.unblocked e hmem i hi haddr
    simpa using hexpired.trans hlater
  · rw [← connected_length]
    exact hplaced.counted

end PeerDial
