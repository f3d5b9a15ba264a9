import Pipensx.DhtClock

/-!
# What others can make the engine do

A peer is stored only for an announcement with a token of its address, and an address that is
blacklisted gets no packet.
-/

namespace Dht

variable {w : World} {s s' : State}

/-- What is stored after any calls: one entry for each hash, one for each peer of it, and room for
all. -/
theorem run_storage (w : World) (calls : List Call) :
    (run w State.boot calls).storage.length ≤ maxHashes ∧
    ((run w State.boot calls).storage.map Storage.id).Nodup ∧
    ∀ st ∈ (run w State.boot calls).storage,
      (st.peers.map Peer.key).Nodup ∧ st.peers.length ≤ st.maxpeers ∧ st.maxpeers ≤ maxPeers := by
  have hsound := (sound_run w Sound.boot calls).storage
  refine ⟨hsound.room, hsound.distinct, fun st hst => ?_⟩
  have hok := hsound.peers st hst
  exact ⟨hok.distinct, hok.room, hok.bound⟩

/-- The peers that are stored for a hash. -/
def Stored (s : State) (hash : Id) (key : UInt16 × Vector UInt8 4) : Prop :=
  ∃ st ∈ s.storage, st.id = hash ∧ ∃ p ∈ st.peers, p.key = key

/-- Everything that is stored afterwards was stored before. -/
def Forgets (s s' : State) : Prop := ∀ hash key, Stored s' hash key → Stored s hash key

theorem forgets_of_storage (h : s'.storage = s.storage) : Forgets s s' := by
  intro hash key hst
  unfold Stored at hst ⊢
  rwa [h] at hst

theorem Forgets.trans {s1 s2 : State} (h : Forgets s s1) (h' : Forgets s1 s2) : Forgets s s2 :=
  fun hash key hst => h hash key (h' hash key hst)

theorem forgets_expireStorage : Forgets s (expireStorage s) := by
  rintro hash key ⟨st, hst, rfl, p, hp, rfl⟩
  obtain ⟨_, _, st', hst', hid, hperm⟩ := expireStorage_fresh s hst
  exact ⟨st', hst', hid, p, (List.mem_filter.mp (hperm.mem_iff.mp hp)).1, rfl⟩

theorem stored_storageStore {id hash : Id} {sa : Endpoint} {port : UInt16}
    {key : UInt16 × Vector UInt8 4} (h : Stored (storageStore w s id sa port).2 hash key) :
    Stored s hash key ∨ hash = id ∧ key = (port, ipOf sa) := by
  rcases storageStore_cases w s id sa port with hsame | ⟨storage, k, st, hstart, hst,
    hid, allocs, hset⟩
  · exact Or.inl (forgets_of_storage hsame hash key h)
  obtain ⟨st', hst', rfl, p, hp, rfl⟩ := h
  have hbefore : ∀ st ∈ storage, ∀ q ∈ st.peers, ∀ key, q.key = key → Stored s st.id key := by
    rcases hstart with rfl | ⟨_, _, rfl⟩
    · rintro st hst q hq _ rfl
      exact ⟨st, hst, rfl, q, hq, rfl⟩
    · rintro st hst q hq _ rfl
      rcases List.mem_cons.mp hst with rfl | hst
      · simp at hq
      · exact ⟨st, hst, rfl, q, hq, rfl⟩
  rw [hset] at hst'
  rcases List.mem_or_eq_of_mem_set hst' with hst' | rfl
  · exact Or.inl (hbefore st' hst' p hp _ rfl)
  · have hsame : (storePeer s.now w.granted allocs st (ipOf sa) port).2.1.id = st.id := by
      unfold storePeer
      split
      · rfl
      · split
        · split
          · rfl
          · split <;> rfl
        · rfl
    rw [hsame]
    rcases storePeer_mem hp with ⟨q, hq, hkey, _⟩ | rfl
    · exact Or.inl (hbefore st (List.mem_of_getElem? hst) q hq _ hkey)
    · exact Or.inr ⟨hid, rfl⟩

theorem Asks.forgets (h : Asks w s s') : Forgets s s' :=
  forgets_of_storage (congrArg Frame.storage h.frame)

theorem forgets_expireIfDue : Forgets s (expireIfDue w s) := by
  rcases expireIfDue_cases w s with ⟨_, heq⟩ | ⟨s1, t, _, h1, _, heq⟩ <;> rw [heq]
  · exact fun _ _ h => h
  · exact (forgets_of_storage h1.storage).trans
      (forgets_expireStorage (s := { s1 with expireStuffTime := t }))

/-- What `dht_periodic` does once the datagram is dealt with stores nothing. -/
theorem forgets_after_hear :
    Forgets s (confirmIfDue w (searchIfDue w (expireIfDue w (rotateIfDue w s)))) := by
  have hrotate : Forgets s (rotateIfDue w s) := by
    unfold rotateIfDue
    split <;> exact fun _ _ h => h
  have hlast := (moves_searchIfDue w (expireIfDue w (rotateIfDue w s))).trans
    (moves_confirmIfDue w _)
  exact hrotate.trans (forgets_expireIfDue.trans (forgets_of_storage hlast.storage))

theorem tokenMatch_secrets {s1 : State} (h1 : s1.secret = s.secret)
    (h2 : s1.oldsecret = s.oldsecret)
    (token : List UInt8) (sa : Endpoint) : tokenMatch w s1 token sa = tokenMatch w s token sa := by
  unfold tokenMatch
  rw [h1, h2]

theorem letIn_frame (sa : Endpoint) (buf : List UInt8) : ∃ time tokens, (letIn s sa buf).2 =
    { s with tokenBucketTime := time, tokenBucketTokens := tokens } := by
  rcases letIn_state s sa buf with h | h <;> rw [h]
  · exact ⟨_, _, rfl⟩
  · exact tokenBucket_frame s

/-- A peer that a call adds is the sender of an `announce_peer` with a token of its address; the
port is the one that it announces. -/
theorem run_stored (w : World) (calls : List Call) (c : Call) (hash : Id)
    (key : UInt16 × Vector UInt8 4) (hbefore : ¬ Stored (run w State.boot calls) hash key)
    (hafter : Stored (call w (run w State.boot calls) c) hash key) :
    ∃ now sa buf m, c = .periodic now (some (sa, buf)) ∧ parseMessage buf =
      .next (some .announcePeer, m) ∧
      nodeBlacklisted (run w State.boot calls) sa = false ∧ m.infoHash = hash ∧
      tokenMatch w (run w State.boot calls) m.token sa = true ∧
      announcedPort sa m ≠ 0 ∧ key = (announcedPort sa m, ipOf sa) := by
  have hsound := sound_run w Sound.boot calls
  generalize run w State.boot calls = s at hbefore hafter hsound
  have hno : ∀ s', Forgets s s' → ¬ Stored s' hash key := fun s' h hst => hbefore (h hash key hst)
  cases c with
  | init now id v =>
    rcases dhtInit_cases w s now id v with heq | ⟨_, _, heq | ⟨s1, draws, r, h1, heq⟩⟩ <;>
      rw [call, heq] at hafter
    · exact absurd hafter hbefore
    · obtain ⟨st, hst, _⟩ := hafter
      simp at hst
    · obtain ⟨st, hst, _⟩ := hafter
      have hnone : s1.storage = [] := h1.storage
      change st ∈ s1.storage at hst
      simp [hnone] at hst
  | uninit =>
    simp only [call, dhtUninit] at hafter
    split at hafter
    · exact absurd hafter hbefore
    · obtain ⟨st, hst, _⟩ := hafter
      simp at hst
  | search id port => exact absurd hafter (hno _ (asks_dhtSearch w s id port).forgets)
  | pingNode sa => exact absurd hafter (hno _ (Moves.asks (w := w) (moves_sendPing s sa)).forgets)
  | insertNode id sa =>
    exact absurd hafter (hno _
      (Moves.asks (w := w) (moves_newNode w s id sa 0 hsound.table)).forgets)
  | periodic now datagram =>
    have hheard : Stored (hear w { s with now := now } datagram) hash key :=
      forgets_after_hear hash key hafter
    cases datagram with
    | none => exact absurd hheard hbefore
    | some p =>
      obtain ⟨sa, buf⟩ := p
      obtain ⟨time, tokens, hlet⟩ := letIn_frame (s := { s with now := now }) sa buf
      rcases receive_cases w { s with now := now } sa buf hsound.table with
        heq | ⟨kind, m, hblack, hparse, hhear⟩
      · simp only [hear, heq, hlet] at hheard
        exact absurd hheard hbefore
      · simp only [hear] at hheard
        rw [hlet] at hhear
        cases hhear with
        | quiet _ h => exact absurd (forgets_of_storage h.storage hash key hheard) hbefore
        | flush s1 _ h h' =>
          have h1 := forgets_of_storage h'.storage hash key hheard
          exact absurd (forgets_of_storage h.storage hash key h1) hbefore
        | store s1 _ hkind h ha h' =>
          rcases stored_storageStore (forgets_of_storage h'.storage hash key hheard) with
            h1 | ⟨rfl, rfl⟩
          · exact absurd (forgets_of_storage h.storage hash key h1) hbefore
          · refine ⟨now, sa, buf, m, rfl, hkind ▸ hparse, hblack, rfl, ?_, ha.port, rfl⟩
            rw [← ha.token]
            exact (tokenMatch_secrets (congrArg Frame.secret h.frame)
              (congrArg Frame.oldsecret h.frame) _ _).symm

theorem run_stored_first : ∃ now sa buf m,
    Call.periodic 1700 (some firstAnnounce) = .periodic now (some (sa, buf)) ∧
      parseMessage buf = .next (some .announcePeer, m) ∧
      nodeBlacklisted (run World.calm State.boot firstCalls) sa = false ∧
      m.infoHash = Vector.replicate 20 9 ∧
      tokenMatch World.calm (run World.calm State.boot firstCalls) m.token sa = true ∧
      announcedPort sa m ≠ 0 ∧
      ((6881 : UInt16), (⟨#[10, 0, 0, 2], rfl⟩ : Vector UInt8 4)) = (announcedPort sa m, ipOf sa) :=
  run_stored World.calm firstCalls (.periodic 1700 (some firstAnnounce)) (Vector.replicate 20 9)
    (6881, ⟨#[10, 0, 0, 2], rfl⟩) (by unfold Stored; decide +kernel)
    (by unfold Stored; decide +kernel)

/-- Packets go to addresses that are not blacklisted, and the blacklist stays. -/
structure Sends (s s' : State) : Prop where
  blacklist : s'.blacklist = s.blacklist
  next : s'.nextBlacklisted = s.nextBlacklisted
  sent : ∃ new, s'.sent = new ++ s.sent ∧ ∀ p ∈ new, nodeBlacklisted s p.dest = false

theorem Sends.quiet (h1 : s'.blacklist = s.blacklist) (h2 : s'.nextBlacklisted = s.nextBlacklisted)
    (h3 : s'.sent = s.sent) : Sends s s' := ⟨h1, h2, [], h3, by simp⟩

theorem Sends.trans {s1 s2 : State} (h : Sends s s1) (h' : Sends s1 s2) : Sends s s2 := by
  obtain ⟨new, hnew, hall⟩ := h.sent
  obtain ⟨new', hnew', hall'⟩ := h'.sent
  refine ⟨h'.blacklist.trans h.blacklist, h'.next.trans h.next, new' ++ new, ?_, ?_⟩
  · rw [hnew', hnew, List.append_assoc]
  · intro p hp
    rcases List.mem_append.mp hp with hp | hp
    · have := hall' p hp
      rwa [nodeBlacklisted, h.blacklist] at this
    · exact hall p hp

theorem Moves.sends (h : Moves s s') : Sends s s' := by
  obtain ⟨new, hnew, hall⟩ := h.sent
  exact ⟨h.blacklist, congrArg Frame.nextBlacklisted h.frame, new, hnew, fun p hp => (hall p hp).1⟩

theorem Asks.sends (h : Asks w s s') : Sends s s' := by
  induction h with
  | refl => exact .quiet rfl rfl rfl
  | tail _ hask ih =>
    refine ih.trans ?_
    cases hask with
    | moves _ h => exact h.sends
    | slot s1 k id _ h =>
      obtain ⟨_, heq, _⟩ := newSearch_some h
      rw [heq]
      exact .quiet rfl rfl rfl
    | aim k port => exact .quiet rfl rfl rfl

theorem sends_after_hear :
    Sends s (confirmIfDue w (searchIfDue w (expireIfDue w (rotateIfDue w s)))) := by
  have hrotate : Sends s (rotateIfDue w s) := by
    unfold rotateIfDue
    split <;> exact .quiet rfl rfl rfl
  have hexpire : Sends (rotateIfDue w s) (expireIfDue w (rotateIfDue w s)) := by
    rcases expireIfDue_cases w (rotateIfDue w s) with ⟨_, heq⟩ | ⟨s1, t, _, h1, _, heq⟩ <;> rw [heq]
    · exact .quiet rfl rfl rfl
    · exact h1.sends.trans (.quiet rfl rfl rfl)
  have hlast := (moves_searchIfDue w (expireIfDue w (rotateIfDue w s))).trans
    (moves_confirmIfDue w _)
  exact hrotate.trans (hexpire.trans hlast.sends)

/-- What a call does to the blacklist and what it sends. -/
inductive Shuns (s : State) (c : Call) (s' : State) : Prop
  | quiet : Sends s s' → Shuns s c s'
  | reset : s'.blacklist = s.blacklist → s'.nextBlacklisted = 0 →
      (∃ new, s'.sent = new ++ s.sent ∧ ∀ p ∈ new, nodeBlacklisted s p.dest = false) → Shuns s c s'
  | flush (now : Int) (sa : Endpoint) (buf : List UInt8) (s1 : State) (id : Id) :
      c = .periodic now (some (sa, buf)) → nodeBlacklisted s sa = false → Sends s s1 →
      Sends (s1.flush id sa) s' → Shuns s c s'

theorem shuns_call (hs : Sound s) (c : Call) : Shuns s c (call w s c) := by
  cases c with
  | init now id v =>
    rcases dhtInit_cases w s now id v with heq | ⟨_, hempty, heq | ⟨s1, draws, r, h1, heq⟩⟩ <;>
      rw [call, heq]
    · exact .quiet (.quiet rfl rfl rfl)
    · exact .quiet (.quiet rfl rfl rfl)
    · obtain ⟨new, hnew, hall⟩ := h1.sent
      exact .reset h1.blacklist (congrArg Frame.nextBlacklisted h1.frame) ⟨new, hnew, fun p hp =>
        (hall p hp).1⟩
  | uninit =>
    simp only [call, dhtUninit]
    split <;> exact .quiet (.quiet rfl rfl rfl)
  | search id port => exact .quiet (asks_dhtSearch w s id port).sends
  | pingNode sa => exact .quiet (moves_sendPing s sa).sends
  | insertNode id sa => exact .quiet (moves_newNode w s id sa 0 hs.table).sends
  | periodic now datagram =>
    have hafter := sends_after_hear (w := w) (s := hear w { s with now := now } datagram)
    cases datagram with
    | none =>
      have htime : Sends s { s with now := now } := .quiet rfl rfl rfl
      exact .quiet (htime.trans hafter)
    | some p =>
      obtain ⟨sa, buf⟩ := p
      obtain ⟨time, tokens, hlet⟩ := letIn_frame (s := { s with now := now }) sa buf
      have hstart : Sends s (letIn { s with now := now } sa buf).2 := by
        rw [hlet]
        exact .quiet rfl rfl rfl
      rcases receive_cases w { s with now := now } sa buf hs.table with
        heq | ⟨kind, m, hblack, _, hhear⟩
      · refine .quiet (.trans ?_ hafter)
        rw [hear, heq]
        exact hstart
      · cases hhear with
        | quiet _ h => exact .quiet (hstart.trans (h.sends.trans hafter))
        | flush s1 _ h h' =>
          exact .flush now sa buf s1 m.id rfl hblack (hstart.trans h.sends) (h'.sends.trans hafter)
        | store s1 _ _ h ha h' =>
          refine .quiet (hstart.trans (h.sends.trans (.trans ?_ (h'.sends.trans hafter))))
          obtain ⟨_, heq⟩ := storageStore_frame (w := w) (s := s1) m.infoHash sa
            (announcedPort sa m)
          rw [heq]
          exact .quiet rfl rfl rfl

theorem nextBlacklisted_lt (w : World) (calls : List Call) :
    (run w State.boot calls).nextBlacklisted < maxBlacklisted := by
  have hcall : ∀ s c, Sound s → s.nextBlacklisted < maxBlacklisted →
      (call w s c).nextBlacklisted < maxBlacklisted := by
    intro s c hs h
    have hpos : 0 < maxBlacklisted := by decide
    cases shuns_call (w := w) hs c with
    | quiet hq => rw [hq.next]; exact h
    | reset _ hzero _ => rw [hzero]; exact hpos
    | flush now sa buf s1 id _ _ _ hafter =>
      rw [hafter.next]
      exact Nat.mod_lt _ hpos
  have hrun : ∀ (calls : List Call) s, Sound s → s.nextBlacklisted < maxBlacklisted →
      (run w s calls).nextBlacklisted < maxBlacklisted := by
    intro calls
    induction calls with
    | nil => exact fun s _ h => h
    | cons c calls ih => exact fun s hs h => ih _ (sound_call w hs c) (hcall s c hs h)
  exact hrun calls _ Sound.boot (by decide)

/-- An address that is blacklisted before and after a call gets nothing from it. A call blacklists
at most the sender of its datagram; that takes one of the ten places, in turn. -/
theorem run_blacklist (w : World) (calls : List Call) (c : Call) :
    (∃ new, (call w (run w State.boot calls) c).sent = new ++ (run w State.boot calls).sent ∧
      ∀ p ∈ new, nodeBlacklisted (run w State.boot calls) p.dest = true →
        nodeBlacklisted (call w (run w State.boot calls) c) p.dest = false) ∧
    ((call w (run w State.boot calls) c).blacklist = (run w State.boot calls).blacklist ∨
      ∃ now sa buf, c = .periodic now (some (sa, buf)) ∧
        nodeBlacklisted (run w State.boot calls) sa = false ∧
        nodeBlacklisted (call w (run w State.boot calls) c) sa = true ∧
        (call w (run w State.boot calls) c).blacklist = (run w State.boot calls).blacklist.set!
          (run w State.boot calls).nextBlacklisted (some sa) ∧
        (call w (run w State.boot calls) c).nextBlacklisted =
          ((run w State.boot calls).nextBlacklisted + 1) % maxBlacklisted) := by
  have hsound := sound_run w Sound.boot calls
  have hplace := nextBlacklisted_lt w calls
  generalize run w State.boot calls = s at hsound hplace
  have hshort : ∀ new : List Packet, (∀ p ∈ new, nodeBlacklisted s p.dest = false) → ∀ p ∈ new,
      nodeBlacklisted s p.dest = true → nodeBlacklisted (call w s c) p.dest = false := by
    intro new hall p hp hblack
    rw [hall p hp] at hblack
    simp at hblack
  cases shuns_call (w := w) hsound c with
  | quiet h =>
    obtain ⟨new, hnew, hall⟩ := h.sent
    exact ⟨⟨new, hnew, hshort new hall⟩, Or.inl h.blacklist⟩
  | reset hsame _ h =>
    obtain ⟨new, hnew, hall⟩ := h
    exact ⟨⟨new, hnew, hshort new hall⟩, Or.inl hsame⟩
  | flush now sa buf s1 id hcall hblack hbefore hafter =>
    obtain ⟨new, hnew, hall⟩ := hbefore.sent
    obtain ⟨new', hnew', hall'⟩ := hafter.sent
    have hring : (call w s c).blacklist = s.blacklist.set! s.nextBlacklisted (some sa) := by
      rw [hafter.blacklist, State.flush, hbefore.blacklist, hbefore.next]
    refine ⟨⟨new' ++ new, ?_, ?_⟩, Or.inr ⟨now, sa, buf, hcall, hblack, ?_, hring, ?_⟩⟩
    · rw [hnew', State.flush, hnew, List.append_assoc]
    · intro p hp hold
      rcases List.mem_append.mp hp with hp | hp
      · have := hall' p hp
        rwa [nodeBlacklisted, hafter.blacklist]
      · exact hshort new hall p hp hold
    · rw [nodeBlacklisted, hring]
      have hin : s.nextBlacklisted < 10 := hplace
      have hget : (s.blacklist.set! s.nextBlacklisted (some sa))[s.nextBlacklisted] = some sa := by
        simp [Vector.set!_eq_setIfInBounds]
      rw [Vector.contains_iff_mem]
      exact Vector.mem_of_getElem hget
    · rw [hafter.next, State.flush, hbefore.next]

end Dht
