import Pipensx.DialPlaces

/-!
# Initial peers go first

`torrent_add_initial_peers` appends the new endpoints and then moves every older entry to the
back, through the same `queue_insert` that may refuse one. None is refused: the entry was
just taken off the ring and out of the table, where it was once. A rebuild on the way leaves
a second trace of the entry it is done for, but that entry is not taken off again.

The offset of an endpoint in the list is computed with 32 bits.
-/

namespace PeerDial

open PeerSend PeerIngest PeerQueue TorrentEngine ProbeTable

/-- An endpoint a peer can have, that is not queued, not connected and not blocked. -/
def welcome (t : Torrent) (e : Endpoint) (now : Nat) : Bool :=
  !unusable e && !t.queue.endpoints.contains e && !t.connected.contains e &&
    !blocklistBlocked { t.around with now := now } e

/-- The occurrences that are welcome at the time they are looked at. -/
def eligible (t : Torrent) (elapsed : Nat → Nat) : Nat → List Endpoint → List Endpoint
  | _, [] => []
  | now, e :: rest =>
    if welcome t e (now + elapsed rest.length) then e :: eligible t elapsed
      (now + elapsed rest.length) rest
    else eligible t elapsed (now + elapsed rest.length) rest

/-- Of each its first occurrence, until the queue is full. -/
def newcomers (t : Torrent) (elapsed : Nat → Nat) (es : List Endpoint) : List Endpoint :=
  (eligible t elapsed t.now es).eraseDups.take (maxPeerQueue - t.queue.qsize)

def newEntry (e : Endpoint) : PeerAddr := ⟨e, 0, 0⟩

/-- The new endpoints are in front in the order of the list, everything else is behind them
as it was, and the number returned is that of the new ones. -/
structure InitialFirst (t : Torrent) (compact : List UInt8) (count : Nat)
    (pushing rotating : Nat → Nat) : Prop where
  ring : (torrentAddInitialPeers t compact count pushing rotating).1.queue.live =
    (newcomers t pushing (endpoints compact count)).map newEntry ++ t.queue.live
  returned : (torrentAddInitialPeers t compact count pushing rotating).2 =
    (newcomers t pushing (endpoints compact count)).length

/-- The table agrees with the ring, and no queued endpoint is connected or blocked. That a
queued endpoint is usable was checked when it was queued. -/
structure Ready (t : Torrent) : Prop where
  covered : Covered t.queue
  agrees : IndexAgrees t.queue
  usable : ∀ a ∈ t.queue.live, unusable a.endpoint = false
  unconnected : ∀ a ∈ t.queue.live, a.endpoint ∉ t.connected
  unblocked : ∀ a ∈ t.queue.live, blocklistBlocked t.around a.endpoint = false

/-- The table has no endpoint that is not in the ring, and those of `old` once. -/
structure Tidy (q : Queue) (old : List PeerAddr) : Prop where
  covered : Covered q
  distinct : q.endpoints.Nodup
  exact : ∀ e, 0 < q.indexed e → e ∈ q.endpoints
  single : ∀ a ∈ old, a ∈ q.live ∧ q.indexed a.endpoint = 1

section Ring

variable {q q' : Queue} {a : PeerAddr} {old : List PeerAddr} {around : Surroundings}

theorem mem_endpoints (h : a ∈ q.live) : a.endpoint ∈ q.endpoints := List.mem_map_of_mem h

theorem Tidy.contains_iff (h : Tidy q old) (e : Endpoint) :
    queueHashContains q e = true ↔ e ∈ q.endpoints := by
  rw [contains_iff_indexed h.covered.sound]
  refine ⟨h.exact e, fun hmem => ?_⟩
  have hcovers := h.covered.covers e
  have hpos := List.count_pos_iff.mpr hmem
  omega

theorem Tidy.accepts_iff_checks (h : Tidy q old) {e : Endpoint} :
    accepts q e around = true ↔ unusable e = false ∧ q.qsize < maxPeerQueue ∧ e ∉ q.endpoints ∧
      e ∉ around.peers ∧ blocklistBlocked around e = false := by
  have hcontains := h.contains_iff e
  simp only [accepts, Bool.and_eq_true, Bool.not_eq_true', decide_eq_true_iff,
    ← Bool.not_eq_true, hcontains, List.contains_iff_mem]
  tauto

/-- At the back of the ring, and once in the table for the entry and once for each that a
rebuild finds. -/
theorem insert_back (h : Covered q) (accepted : accepts q a.endpoint around = true) :
    (PeerQueue.queueInsert q a false around).1.live = q.live ++ [a] ∧
      ∀ e, (PeerQueue.queueInsert q a false around).1.indexed e =
        (if queueHashCap / 4 < q.qhash.tombstones then (q.endpoints ++ [a.endpoint]).count e else
          q.indexed e) +
          if e = a.endpoint then 1 else 0 := by
  obtain ⟨room, _⟩ := accepts_iff accepted
  have hlive : (place q a false).live = q.live ++ [a] := by
    rw [Queue.live, Queue.live, ← RingQueue.entries_pushBack room, ← h.tail]
    rfl
  have hends : (place q a false).endpoints = q.endpoints ++ [a.endpoint] := by
    rw [Queue.endpoints, hlive, List.map_append, List.map_singleton, Queue.endpoints]
  have hsize : (place q a false).qsize = q.qsize + 1 := rfl
  have hhash : (place q a false).qhash = q.qhash := rfl
  have hinsert : (PeerQueue.queueInsert q a false around).1 =
    queueHashAdd (place q a false) a.endpoint := by
    simp [PeerQueue.queueInsert, accepted]
  have hcap : queueHashCap = 2048 := rfl
  have hmax : maxPeerQueue = 1024 := rfl
  have hload := h.load
  rw [hinsert, queueHashAdd, hhash]
  split
  · have hlength := endpoints_length (place q a false)
    obtain ⟨hsound, hadded, hcount⟩ := addAll_spec (place q a false).endpoints
      (sound_zeroed queueHashCap queueHashIndex (⟨0, 0⟩ : Endpoint))
      (by rw [load_zeroed, hlength, hsize]; omega)
    rw [load_zeroed, hlength, hsize] at hadded
    obtain ⟨_, _, hagain⟩ := hsound.add (by omega) a.endpoint
    rw [queueHashRebuild_eq]
    refine ⟨hlive, fun e => ?_⟩
    have hboth := hagain e
    rw [hcount e, count_zeroed, Nat.zero_add, hends] at hboth
    simp only [Queue.indexed, queueHashAddRaw]
    rw [hends]
    exact hboth
  · obtain ⟨_, _, hcount⟩ := h.sound.add (by omega) a.endpoint
    exact ⟨hlive, fun e => hcount e⟩

theorem Tidy.insert (h : Tidy q old) (accepted : accepts q a.endpoint around = true) :
    (PeerQueue.queueInsert q a false around).1.live = q.live ++ [a] ∧
      Tidy (PeerQueue.queueInsert q a false around).1 old := by
  obtain ⟨hlive, hindexed⟩ := insert_back h.covered accepted
  have hnew : a.endpoint ∉ q.endpoints := h.covered.absent (accepts_iff accepted).2
  have hends : (PeerQueue.queueInsert q a false around).1.endpoints =
    q.endpoints ++ [a.endpoint] := by
    rw [Queue.endpoints, hlive, List.map_append, List.map_singleton, Queue.endpoints]
  have hdistinct : (q.endpoints ++ [a.endpoint]).Nodup := by
    rw [← List.concat_eq_append]
    exact (List.nodup_concat _ _).mpr ⟨hnew, h.distinct⟩
  refine ⟨hlive, (h.covered.insert false accepted).1, ?_, ?_, ?_⟩
  · rw [hends]
    exact hdistinct
  · intro e hpos
    rw [hindexed] at hpos
    rw [hends]
    by_cases heq : e = a.endpoint
    · simp [heq]
    · rw [if_neg heq, Nat.add_zero] at hpos
      split at hpos
      · exact List.count_pos_iff.mp hpos
      · exact List.mem_append_left _ (h.exact e hpos)
  · intro b hb
    obtain ⟨hmem, hone⟩ := h.single b hb
    have hne : b.endpoint ≠ a.endpoint := by
      intro heq
      exact hnew (heq ▸ mem_endpoints hmem)
    refine ⟨by rw [hlive]; exact List.mem_append_left _ hmem, ?_⟩
    rw [hindexed, if_neg hne, Nat.add_zero]
    split
    · exact List.count_eq_one_of_mem hdistinct (List.mem_append_left _ (mem_endpoints hmem))
    · exact hone

/-- The first entry leaves no trace. -/
theorem Tidy.pop {rest : List PeerAddr} (h : Tidy q (a :: old)) (first : q.live = a :: rest)
    (apart : a.endpoint ∉ old.map PeerAddr.endpoint) :
    ∃ q', queuePop q = (q', some a) ∧ q'.live = rest ∧ Tidy q' old ∧ a.endpoint ∉ q'.endpoints ∧
      q'.qsize + 1 = q.qsize := by
  cases hpopped : queuePop q with
  | mk q' popped =>
  cases popped with
  | none =>
    have hempty : q.live = [] := by
      unfold queuePop at hpopped
      split at hpopped
      · next hzero =>
        rw [Queue.live, hzero]
        rfl
      · cases hpopped
    rw [hempty] at first
    cases first
  | some b =>
    obtain ⟨_, _, hlive, _⟩ := queuePop_some h.covered.head hpopped
    obtain ⟨rfl, hq'⟩ := List.cons.inj (hlive.symm.trans first)
    have hends := queuePop_endpoints h.covered.head hpopped
    have hdistinct := h.distinct
    rw [hends, List.nodup_cons] at hdistinct
    obtain ⟨_, hone⟩ := h.single b List.mem_cons_self
    obtain ⟨_, hsize, _, _, _, hindexed⟩ :=
      queuePop_leaves h.covered.head h.covered.tail h.covered.sound
      (by omega) hpopped
    refine ⟨q', rfl, hq', ⟨(h.covered.pop hpopped).1, hdistinct.2, ?_, ?_⟩, hdistinct.1, by omega⟩
    · intro e hpos
      rw [hindexed] at hpos
      by_cases heq : e = b.endpoint
      · rw [if_pos heq, heq, hone] at hpos
        cases hpos
      · rw [if_neg heq, Nat.sub_zero] at hpos
        have hmem := h.exact e hpos
        rw [hends] at hmem
        exact (List.mem_cons.mp hmem).resolve_left heq
    · intro c hc
      obtain ⟨hmem, hsingle⟩ := h.single c (List.mem_cons_of_mem _ hc)
      have hne : c.endpoint ≠ b.endpoint := by
        intro heq
        exact apart (heq ▸ List.mem_map_of_mem hc)
      have hin : c ∈ q'.live := by
        rw [hlive] at hmem
        refine (List.mem_cons.mp hmem).resolve_left ?_
        rintro rfl
        exact hne rfl
      rw [hindexed, if_neg hne, Nat.sub_zero]
      exact ⟨hin, hsingle⟩

end Ring

section Torrents

variable {t : Torrent} {old rest front : List PeerAddr} {a : PeerAddr}

theorem blocked_later {around : Surroundings} {e : Endpoint}
    (clear : blocklistBlocked around e = false) {later : Nat}
    (after : around.now ≤ later) : blocklistBlocked { around with now := later } e = false := by
  simp only [blocklistBlocked, List.any_eq_false, Bool.and_eq_true, decide_eq_true_eq,
    not_and] at clear ⊢
  intro b hb haddr hlate
  exact clear b hb haddr (by omega)

/-- What `queue_insert` asks of an entry that is moved. -/
structure Movable (t : Torrent) (a : PeerAddr) : Prop where
  usable : unusable a.endpoint = false
  unconnected : a.endpoint ∉ t.connected
  unblocked : blocklistBlocked t.around a.endpoint = false

theorem Movable.accepts (h : Movable t a) {q : Queue} (tidy : Tidy q old)
    (room : q.qsize < maxPeerQueue) (absent : a.endpoint ∉ q.endpoints) (elapsed : Nat) :
    accepts q a.endpoint ({ t with queue := q }.read elapsed).around = true :=
  tidy.accepts_iff_checks.mpr
    ⟨h.usable, room, absent, h.unconnected, blocked_later h.unblocked (Nat.le_add_right _ _)⟩

theorem Movable.later (h : Movable t a) {t' : Torrent} (peers : t'.peers = t.peers)
    (blocklist : t'.blocklist = t.blocklist) (now : t.now ≤ t'.now) : Movable t' a := by
  have hconnected : t'.connected = t.connected := by simp only [Torrent.connected, peers]
  refine ⟨h.usable, by rw [hconnected]; exact h.unconnected, ?_⟩
  have haround : t'.around = { t.around with now := t'.now } := by
    simp only [Torrent.around, hconnected, blocklist]
  rw [haround]
  exact blocked_later h.unblocked now

theorem rotate_live (elapsed : Nat → Nat) (tidy : Tidy t.queue rest)
    (live : t.queue.live = rest ++ front) (movable : ∀ a ∈ rest, Movable t a) :
    (rotate elapsed rest.length t).queue.live = front ++ rest := by
  induction rest generalizing t front with
  | nil => simpa [rotate] using live
  | cons a rest ih =>
    have hends : t.queue.endpoints = a.endpoint :: (rest ++ front).map PeerAddr.endpoint := by
      rw [Queue.endpoints, live]
      rfl
    have hdistinct := tidy.distinct
    rw [hends, List.nodup_cons, List.map_append] at hdistinct
    have hapart : a.endpoint ∉ rest.map PeerAddr.endpoint :=
      fun hmem => hdistinct.1 (List.mem_append_left _ hmem)
    obtain ⟨q, hpop, hlive, htidy, habsent, hsize⟩ :=
      tidy.pop (by rw [live, List.cons_append]) hapart
    have hroom := tidy.covered.size
    have haccepts := (movable a List.mem_cons_self).accepts htidy (by omega) habsent
      (elapsed rest.length)
    obtain ⟨hback, htidy'⟩ := htidy.insert haccepts
    have hrest : (queueInsert { t with queue := q } a false (elapsed rest.length)).1.queue.live =
        rest ++ (front ++ [a]) := by
      rw [← List.append_assoc, ← hlive]
      exact hback
    have hmovable : ∀ b ∈ rest,
      Movable (queueInsert { t with queue := q } a false (elapsed rest.length)).1 b :=
      fun b hb => (movable b (List.mem_cons_of_mem _ hb)).later rfl rfl (Nat.le_add_right _ _)
    simp only [List.length_cons, rotate, hpop]
    rw [ih htidy' hrest hmovable, List.append_assoc, List.singleton_append]

/-- Endpoints were pushed: `taken` of them are at the back of the ring. -/
structure Grown (t0 t : Torrent) (taken : List Endpoint) : Prop where
  tidy : Tidy t.queue t0.queue.live
  live : t.queue.live = t0.queue.live ++ taken.map newEntry
  peers : t.peers = t0.peers
  blocklist : t.blocklist = t0.blocklist
  now : t0.now ≤ t.now

variable {t0 : Torrent} {taken : List Endpoint}

theorem Grown.size (h : Grown t0 t taken) : t.queue.qsize = t0.queue.qsize + taken.length := by
  have hlength := congrArg List.length h.live
  simpa [Queue.live] using hlength

theorem Grown.mem_iff (h : Grown t0 t taken) (e : Endpoint) :
    e ∈ t.queue.endpoints ↔ e ∈ t0.queue.endpoints ∨ e ∈ taken := by
  have hnames : (taken.map newEntry).map PeerAddr.endpoint = taken := by
    rw [List.map_map]
    exact List.map_id taken
  rw [Queue.endpoints, h.live, List.map_append, hnames, List.mem_append, Queue.endpoints]

/-- An endpoint is accepted if it is welcome, not taken already, and there is room. -/
theorem Grown.accepts_iff (h : Grown t0 t taken) (e : Endpoint) (elapsed : Nat) :
    accepts t.queue e (t.read elapsed).around = true ↔
      welcome t0 e (t.now + elapsed) = true ∧ e ∉ taken ∧ taken.length <
        maxPeerQueue - t0.queue.qsize := by
  have hsize := h.size
  have hconnected : t.connected = t0.connected := by simp only [Torrent.connected, h.peers]
  have haround : (t.read elapsed).around = { t0.around with now := t.now + elapsed } := by
    have hread : (t.read elapsed).connected = t0.connected := hconnected
    simp only [Torrent.around, hread]
    simp only [Torrent.read, h.blocklist]
  rw [h.tidy.accepts_iff_checks, haround, h.mem_iff, hsize]
  have hpeers : { t0.around with now := t.now + elapsed }.peers = t0.connected := rfl
  have hroom : t0.queue.qsize + taken.length < maxPeerQueue ↔
    taken.length < maxPeerQueue - t0.queue.qsize := by
    omega
  rw [hpeers, hroom]
  simp only [welcome, Bool.and_eq_true, Bool.not_eq_true', ← Bool.not_eq_true,
    List.contains_iff_mem]
  tauto

theorem Grown.push (h : Grown t0 t taken) (e : Endpoint) (elapsed : Nat) :
    (queuePush t e elapsed).1.now = t.now + elapsed ∧
      (accepts t.queue e (t.read elapsed).around = true →
        (queuePush t e elapsed).2 = true ∧ Grown t0 (queuePush t e elapsed).1 (taken ++ [e])) ∧
      (accepts t.queue e (t.read elapsed).around = false →
        (queuePush t e elapsed).2 = false ∧ Grown t0 (queuePush t e elapsed).1 taken) := by
  have hlater := h.now
  refine ⟨?_, fun haccepts => ?_, fun hrefused => ?_⟩
  · simp only [queuePush]
    split
    · rfl
    · rfl
  · obtain ⟨hlive, htidy⟩ := h.tidy.insert (a := newEntry e) haccepts
    have haccepted : (queueInsert t ⟨e, 0, 0⟩ false elapsed).2 = true := by
      simp only [queueInsert, PeerQueue.queueInsert]
      rw [if_neg (by rw [Bool.not_eq_false]; exact haccepts)]
    simp only [queuePush, haccepted, if_true]
    refine ⟨trivial, htidy, ?_, h.peers, h.blocklist, ?_⟩
    · rw [List.map_append, ← List.append_assoc, ← h.live]
      exact hlive
    · exact hlater.trans (Nat.le_add_right _ _)
  · have hinsert : (queueInsert t ⟨e, 0, 0⟩ false elapsed) = (t.read elapsed, false) := by
      simp only [queueInsert, PeerQueue.queueInsert]
      rw [if_pos (by exact hrefused)]
    simp only [queuePush, hinsert, Bool.false_eq_true, if_false]
    exact ⟨trivial, h.tidy, h.live, h.peers, h.blocklist, hlater.trans (Nat.le_add_right _ _)⟩

/-- What is pushed are the eligible endpoints that were not taken yet. -/
theorem Grown.pushAll (elapsed : Nat → Nat) (es : List Endpoint) (h : Grown t0 t taken) :
    ∃ more, more = (((eligible t0 elapsed t.now es).filter
        (fun e => decide (e ∉ taken))).eraseDups.take
        (maxPeerQueue - t0.queue.qsize - taken.length)) ∧
      Grown t0 (pushAll elapsed es t).1 (taken ++ more) ∧
      (pushAll elapsed es t).2 = more.length := by
  induction es generalizing t taken with
  | nil => exact ⟨[], by simp [eligible], by simpa [PeerDial.pushAll] using h, rfl⟩
  | cons e rest ih =>
    obtain ⟨hnow, hyes, hno⟩ := h.push e (elapsed rest.length)
    have haccepts := h.accepts_iff e (elapsed rest.length)
    simp only [PeerDial.pushAll, eligible]
    cases hverdict : accepts t.queue e (t.read (elapsed rest.length)).around with
    | true =>
      obtain ⟨hone, hgrown⟩ := hyes hverdict
      obtain ⟨hwelcome, hnew, hroom⟩ := haccepts.mp hverdict
      obtain ⟨more, hmore, hgrown', hcount⟩ := ih hgrown
      refine ⟨e :: more, ?_, ?_, ?_⟩
      · have hfilter : ∀ l : List Endpoint, (l.filter (fun x => decide (x ∉ taken))).filter
            (fun x => !x == e) = l.filter (fun x => decide (x ∉ taken ++ [e])) := by
          intro l
          rw [List.filter_filter]
          refine List.filter_congr fun x _ => ?_
          by_cases hx : x = e
          · simp [hx]
          · simp [hx]
        obtain ⟨n, hn⟩ : ∃ n, maxPeerQueue - t0.queue.qsize - taken.length = n + 1 :=
          ⟨maxPeerQueue - t0.queue.qsize - taken.length - 1, by omega⟩
        have hleft : maxPeerQueue - t0.queue.qsize - (taken ++ [e]).length = n := by
          rw [List.length_append, List.length_singleton]
          omega
        rw [hmore, hnow, hleft, if_pos hwelcome, List.filter_cons_of_pos (by simpa using hnew),
          List.eraseDups_cons, hfilter, hn, List.take_succ_cons]
      · rw [List.append_cons]
        exact hgrown'
      · rw [hcount, hone]
        rfl
    | false =>
      obtain ⟨hone, hgrown⟩ := hno hverdict
      obtain ⟨more, hmore, hgrown', hcount⟩ := ih hgrown
      refine ⟨more, ?_, hgrown', ?_⟩
      · rw [hmore, hnow]
        by_cases hwelcome : welcome t0 e (t.now + elapsed rest.length) = true
        · rw [if_pos hwelcome]
          by_cases htaken : e ∈ taken
          · rw [List.filter_cons_of_neg (by simpa using htaken)]
          · -- there is no room
            have hfull : maxPeerQueue - t0.queue.qsize - taken.length = 0 := by
              by_contra hroom
              have htrue := haccepts.mpr ⟨hwelcome, htaken, by omega⟩
              rw [hverdict] at htrue
              cases htrue
            rw [hfull, List.take_zero, List.take_zero]
        · rw [if_neg hwelcome]
      · rw [hcount, hone]
        rfl

theorem Ready.tidy (h : Ready t) : Tidy t.queue t.queue.live := by
  have hdistinct : t.queue.endpoints.Nodup := List.nodup_iff_count_le_one.mpr fun e =>
    (h.agrees e).2.1
  refine ⟨h.covered, hdistinct, fun e hpos => ?_, fun a ha => ⟨ha, ?_⟩⟩
  · rw [(h.agrees e).1] at hpos
    exact List.count_pos_iff.mp hpos
  · rw [(h.agrees a.endpoint).1]
    exact List.count_eq_one_of_mem hdistinct (mem_endpoints ha)

theorem Ready.grown (h : Ready t) : Grown t t [] :=
  ⟨h.tidy, by simp, rfl, rfl, Nat.le_refl _⟩

/-- The endpoints are read where they are. -/
theorem initialEndpoints_eq (compact : List UInt8) {count : Nat} (small : count ≤ 715827883) :
    initialEndpoints compact count = endpoints compact count := by
  refine List.map_congr_left fun i hi => ?_
  have hlt := List.mem_range.mp hi
  rw [Nat.mod_eq_of_lt (by omega)]
  simp only [compactEndpoint, List.getD_eq_getElem?_getD, List.getElem?_drop,
    Nat.mul_zero, Nat.zero_add, Nat.mul_comm i 6]

theorem Ready.initialFirst (h : Ready t) (compact : List UInt8) {count : Nat}
    (small : count ≤ 715827883)
    (pushing rotating : Nat → Nat) : InitialFirst t compact count pushing rotating := by
  obtain ⟨more, hmore, hgrown, hcount⟩ := h.grown.pushAll pushing (endpoints compact count)
  have hnew : more = newcomers t pushing (endpoints compact count) := by
    simpa [newcomers] using hmore
  rw [List.nil_append] at hgrown
  have hmovable : ∀ a ∈ t.queue.live, Movable (pushAll pushing (endpoints compact count) t).1 a :=
    fun a ha =>
    Movable.later ⟨h.usable a ha, h.unconnected a ha, h.unblocked a ha⟩ hgrown.peers
      hgrown.blocklist hgrown.now
  have hrotated := rotate_live rotating hgrown.tidy hgrown.live hmovable
  have hlength : t.queue.live.length = t.queue.qsize := by simp [Queue.live]
  rw [hlength] at hrotated
  constructor
  · simp only [torrentAddInitialPeers, initialEndpoints_eq compact small]
    rw [← hnew]
    split
    · exact hrotated
    · next hnone =>
      have hempty : more = [] := List.length_eq_zero_iff.mp (by omega)
      rw [hgrown.live, hempty]
      simp
  · simp only [torrentAddInitialPeers, initialEndpoints_eq compact small]
    rw [hcount, hnew]

end Torrents

section Runs

variable {t t' : Torrent}

def Usable (t : Torrent) : Prop := ∀ a ∈ t.queue.live, unusable a.endpoint = false

theorem Usable.insert (h : Usable t) (covered : Covered t.queue) (a : PeerAddr) (front : Bool)
    (elapsed : Nat) : Usable (queueInsert t a front elapsed).1 := by
  cases haccepted : (queueInsert t a front elapsed).2 with
  | true =>
    have haccepts := queueInsert_accepted haccepted
    obtain ⟨_, hperm⟩ := Covered.insert (q := (t.read elapsed).queue) covered front haccepts
    intro b hb
    rcases List.mem_cons.mp (hperm.mem_iff.mp hb) with rfl | hold
    · simp only [accepts, Bool.and_eq_true, Bool.not_eq_true'] at haccepts
      exact haccepts.1.1.1.1
    · exact h b hold
  | false =>
    rw [queueInsert_refused haccepted]
    exact h

theorem Usable.push (h : Usable t) (covered : Covered t.queue) (e : Endpoint) (elapsed : Nat) :
    Usable (queuePush t e elapsed).1 := by
  have hinserted := h.insert covered ⟨e, 0, 0⟩ false elapsed
  simp only [queuePush]
  split
  · exact hinserted
  · exact hinserted

theorem Usable.pop (h : Usable t) (covered : Covered t.queue) {q : Queue} {a : PeerAddr}
    (popped : queuePop t.queue = (q, some a)) : Usable { t with queue := q } := by
  intro b hb
  refine h b ?_
  rw [(covered.pop popped).2]
  exact List.mem_cons_of_mem _ hb

theorem Usable.shift {hand hand' : Option Held} (moves : Shift t hand t' hand') (h : Usable t)
    (placed : Placed t (hand.map Held.endpoint)) : Usable t' := by
  induction moves with
  | wait queue peers numPeers blocklist _ now =>
    intro a ha
    rw [queue] at ha
    exact h a ha
  | push t e elapsed => exact h.push placed.covered e elapsed
  | take t popped => exact h.pop placed.covered popped
  | place t u a now =>
    simp only [placePeer]
    split
    · exact h
    · exact h
  | free hslot at_slot => exact h
  | requeue t hand a front elapsed _ _ accepted => exact h.insert placed.covered a front elapsed
  | block t hand now => exact h
  | work hslot at_slot _ =>
    simp only [setConn]
    split
    · exact h
    · exact h
  | edit hslot at_slot _ => exact h
  | trans first _ ih ih' => exact ih' (ih h placed) (Placed.shift first placed)

theorem Usable.pushAll (h : Usable t) (placed : Placed t none) (elapsed : Nat → Nat)
    (es : List Endpoint) : Usable (pushAll elapsed es t).1 := by
  induction es generalizing t with
  | nil => exact h
  | cons e rest ih => exact ih (h.push placed.covered e _) (placed.push e _)

theorem Usable.rotate (h : Usable t) (placed : Placed t none) (elapsed : Nat → Nat) (n : Nat) :
    Usable (rotate elapsed n t) := by
  induction n generalizing t with
  | zero => exact h
  | succ n ih =>
    unfold PeerDial.rotate
    split
    · exact h
    · next q a hpop =>
      have hplaced := placed.pop hpop
      exact ih ((h.pop placed.covered hpop).insert hplaced.covered a false _)
        (hplaced.reinsert false _).drop

theorem Usable.step (h : Usable t) (placed : Placed t none) (u : Setup) (op : Op) :
    Usable (step u t op) := by
  cases hticking : op.ticking with
  | true => exact h.shift (shift_step u t hticking) placed
  | false =>
    cases op with
    | initialPeers compact count pushing rotating =>
      have hpushed := h.pushAll placed pushing (initialEndpoints compact count)
      simp only [PeerDial.step, torrentAddInitialPeers]
      split
      · exact hpushed.rotate (placed.pushAll pushing _) rotating t.queue.qsize
      · exact hpushed
    | _ => cases hticking

theorem Usable.run (h : Usable t) (placed : Placed t none) (u : Setup) (ops : List Op) :
    Usable (run u t ops) := by
  induction ops generalizing t with
  | nil => exact h
  | cons op rest ih => exact ih (h.step placed u op) (placed.step u op)

/-- Whenever the table agrees with the ring in a run, the torrent is ready. -/
theorem ready_of_run (u : Setup) (now : Nat) (ops : List Op)
    (agrees : IndexAgrees (run u (created now) ops).queue) :
    Ready (run u (created now) ops) := by
  have hplaced := (created_placed now).run u ops
  have husable : Usable (run u (created now) ops) :=
    Usable.run (fun a ha => by cases ha) (created_placed now) u ops
  have hdistinct := hplaced.distinct
  rw [Option.toList_none, List.append_nil] at hdistinct
  obtain ⟨_, _, hapart⟩ := List.nodup_append.mp hdistinct
  refine ⟨hplaced.covered, agrees, husable, fun a ha hmem => ?_, fun a ha => ?_⟩
  · exact hapart _ (mem_endpoints ha) _ hmem rfl
  · simp only [blocklistBlocked, Torrent.around, List.any_map, List.any_eq_false, List.mem_range,
      Function.comp_apply, Bool.and_eq_true, decide_eq_true_eq, not_and]
    intro i hi haddr
    simpa using hplaced.unblocked a.endpoint (mem_endpoints ha) i hi haddr

theorem created_ready (now : Nat) : Ready (created now) := by
  refine ⟨covered_zeroed, inStep_zeroed.agrees, ?_, ?_, ?_⟩
  · intro a ha
    cases ha
  · intro a ha
    cases ha
  · intro a ha
    cases ha

end Runs

section Far

variable {t : Torrent} {elapsed : Nat → Nat} {es : List Endpoint}

/-- Endpoints no peer can have are pushed in vain. -/
theorem pushAll_unusable (h : ∀ e ∈ es, unusable e = true) : (pushAll elapsed es t).2 = 0 := by
  induction es generalizing t with
  | nil => rfl
  | cons e rest ih =>
    have hrefused : (queuePush t e (elapsed rest.length)).2 = false := by
      have haccepts : accepts (t.read (elapsed rest.length)).queue e
        (t.read (elapsed rest.length)).around = false := by
        simp [accepts, h e List.mem_cons_self]
      simp only [queuePush, queueInsert, PeerQueue.queueInsert]
      rw [if_pos haccepts]
    simp only [pushAll, hrefused]
    exact ih fun x hx => h x (List.mem_cons_of_mem _ hx)

/-- An endpoint that is welcome at any time is eligible. -/
theorem mem_eligible {e : Endpoint} (h : ∀ now, welcome t e now = true)
    (hmem : e ∈ es) (now : Nat) : e ∈ eligible t elapsed now es := by
  induction es generalizing now with
  | nil => cases hmem
  | cons x rest ih =>
    simp only [eligible]
    rcases List.mem_cons.mp hmem with rfl | hrest
    · rw [if_pos (h _)]
      exact List.mem_cons_self
    · split
      · exact List.mem_cons_of_mem _ (ih hrest _)
      · exact ih hrest _

/-- `n` zeros, one endpoint, and zeros up to the length. -/
def farList (n length : Nat) : List UInt8 :=
  List.replicate n 0 ++ ([8, 8, 8, 8, 2, 0] ++ List.replicate (length - n - 6) 0)

theorem farList_length {n length : Nat} (h : n + 6 ≤ length) :
    (farList n length).length = length := by
  simp only [farList, List.length_append, List.length_replicate, List.length_cons, List.length_nil]
  omega

theorem farList_zero {n length i : Nat} (h : i < n) : (farList n length).getD i 0 = 0 := by
  rw [farList, List.getD_eq_getElem?_getD, List.getElem?_append_left
    (by rw [List.length_replicate]; exact h), List.getElem?_replicate, if_pos h, Option.getD_some]

theorem farList_endpoint (n length k : Nat) (hk : k < 6) :
    (farList n length).getD (n + k) 0 = [8, 8, 8, 8, 2, 0].getD k 0 := by
  rw [farList, List.getD_eq_getElem?_getD, List.getElem?_append_right
    (by rw [List.length_replicate]; omega),
    List.length_replicate, Nat.add_sub_cancel_left, List.getElem?_append_left hk,
      List.getD_eq_getElem?_getD]

theorem unusable_of_zero {e : Endpoint} (h : e.ip = 0) : unusable e = true := by
  simp [unusable, h]

/-- Wherever the list is read, the address is zero. -/
theorem farList_read (length i : Nat) :
    unusable (compactEndpoint ((farList 4294967298 length).drop (i * 6 % 2 ^ 32)) 0) = true := by
  have hzero : ∀ k < 4, ((farList 4294967298 length).drop (i * 6 % 2 ^ 32)).getD
    (6 * 0 + k) 0 = 0 := by
    intro k hk
    rw [List.getD_eq_getElem?_getD, List.getElem?_drop, ← List.getD_eq_getElem?_getD]
    exact farList_zero (by omega)
  have hip : (compactEndpoint ((farList 4294967298 length).drop (i * 6 % 2 ^ 32)) 0).ip = 0 := by
    simp only [compactEndpoint, hzero 0 (by decide), hzero 1 (by decide), hzero 2 (by decide),
      hzero 3 (by decide)]
    decide
  exact unusable_of_zero hip

theorem farList_lost {count : Nat} (large : 715827883 < count) :
    ¬ InitialFirst (created 0) (farList 4294967298 (6 * count)) count (fun _ => 0)
    (fun _ => 0) := by
  intro h
  have hnone : (torrentAddInitialPeers (created 0) (farList 4294967298 (6 * count))
      count (fun _ => 0) (fun _ => 0)).2 = 0 := by
    refine pushAll_unusable fun e he => ?_
    obtain ⟨i, _, rfl⟩ := List.mem_map.mp he
    exact farList_read _ i
  have hread : compactEndpoint (farList 4294967298 (6 * count)) 715827883 = ⟨0x08080808, 2⟩ := by
    have hbyte := farList_endpoint 4294967298 (6 * count)
    simp only [compactEndpoint, Nat.reduceMul, hbyte 1 (by decide), hbyte 2 (by decide),
      hbyte 3 (by decide), hbyte 4 (by decide), hbyte 5 (by decide), hbyte 0 (by decide)]
    decide
  have hmem : (⟨0x08080808, 2⟩ : Endpoint) ∈ endpoints (farList 4294967298 (6 * count)) count :=
    List.mem_map.mpr ⟨715827883, List.mem_range.mpr large, hread⟩
  have hwelcome : ∀ now, welcome (created 0) ⟨0x08080808, 2⟩ now = true := by
    intro now
    have husable : unusable ⟨0x08080808, 2⟩ = false := by decide
    have hqueue : (created 0).queue.endpoints = [] := rfl
    have hconnected : (created 0).connected = [] := by simp [Torrent.connected, created]
    have hblocked : blocklistBlocked { (created 0).around with now := now }
      ⟨0x08080808, 2⟩ = false := by
      simp [blocklistBlocked, Torrent.around, created]
    simp [welcome, husable, hqueue, hconnected, hblocked]
  have heligible : (⟨0x08080808, 2⟩ : Endpoint) ∈ (eligible (created 0) (fun _ => 0) (created 0).now
      (endpoints (farList 4294967298 (6 * count)) count)).eraseDups :=
    List.mem_eraseDups.mpr (mem_eligible hwelcome hmem _)
  have hreturned := h.returned
  have hpos := List.length_pos_of_mem heligible
  have hroom : maxPeerQueue - (created 0).queue.qsize = 1024 := rfl
  rw [hnone, newcomers, List.length_take, hroom] at hreturned
  omega

/-- The new endpoints come first and nothing is lost, for all lists with this many endpoints
and in all states, exactly if the last offset fits into 32 bits. -/
theorem initial_peers_first_iff (count : Nat) :
    (∀ t, Ready t → ∀ compact : List UInt8, compact.length = 6 * count →
      ∀ pushing rotating : Nat → Nat,
      InitialFirst t compact count pushing rotating) ↔ count ≤ 715827883 := by
  constructor
  · intro h
    by_contra hlarge
    refine farList_lost (by omega)
      (h _ (created_ready 0) _ (farList_length ?_) (fun _ => 0) (fun _ => 0))
    omega
  · intro small t ready compact _ pushing rotating
    exact ready.initialFirst compact small pushing rotating

/-- The one endpoint of a list of 715827884 that is not zeros is read from the wrong place. -/
theorem initial_peers_wrap : Ready (created 0) ∧
    (farList 4294967298 (6 * 715827884)).length = 6 * 715827884 ∧
    ¬ InitialFirst (created 0) (farList 4294967298 (6 * 715827884)) 715827884 (fun _ => 0)
    (fun _ => 0) :=
  ⟨created_ready 0, farList_length (by decide), farList_lost (by decide)⟩

end Far

end PeerDial
