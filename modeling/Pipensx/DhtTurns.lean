import Pipensx.DhtUpkeep

/-!
# The turns of a call

A call of the engine is a sequence of turns: moves in the sense of `Moves`, and the few changes of
the parts that those leave alone. What every turn keeps, every call keeps.
-/

namespace Dht

/-- What `blacklist_node` does behind the ping. -/
def State.flush (s : State) (id : Id) (sa : Endpoint) : State :=
  { s with
    searches := s.searches.map fun sr => { sr with nodes := flushNodes id sr.nodes }
    blacklist := s.blacklist.set! s.nextBlacklisted (some sa)
    nextBlacklisted := (s.nextBlacklisted + 1) % maxBlacklisted }

/-- An announcement that `storage_store` gets to see. -/
structure Announced (w : World) (s : State) (sa : Endpoint) (m : Message) : Prop where
  token : tokenMatch w s m.token sa = true
  hash : m.infoHash ≠ zeroes
  port : announcedPort sa m ≠ 0

/-- What happens around searches. -/
inductive Ask (w : World) (s : State) : State → Prop
  | moves (s' : State) : Moves s s' → Ask w s s'
  | slot (s' : State) (k : Nat) (id : Id) : (∀ sr ∈ s.searches, sr.id ≠ id) →
      newSearch w s = (some k, s') →
      Ask w s { s'.modifySearch k fun sr => ⟨s'.searchId, 0, id, sr.port, false, []⟩ with
        searchId := s'.searchId + 1 }
  | aim (k : Nat) (port : UInt16) : Ask w s (s.modifySearch k fun sr => { sr with port := port })

/-- One change of the state. -/
inductive Turn (w : World) (s : State) : State → Prop
  | ask (s' : State) : Ask w s s' → Turn w s s'
  | limit : Turn w s (tokenBucket s).2
  | flush (id : Id) (sa : Endpoint) : Turn w s (s.flush id sa)
  | store (sa : Endpoint) (m : Message) : Announced w s sa m →
      Turn w s (storageStore w s m.infoHash sa (announcedPort sa m)).2
  | rotate : s.rotateSecretsTime ≤ s.now → Turn w s (rotateSecrets w s)
  | expire (t : Int) : s.expireStuffTime ≤ s.now → t < s.now + 360 →
      Turn w s (expireSearches (expireStorage { s with expireStuffTime := t }))

abbrev Asks (w : World) : State → State → Prop := Relation.ReflTransGen (Ask w)

abbrev Turns (w : World) : State → State → Prop := Relation.ReflTransGen (Turn w)

theorem Moves.asks {w : World} {s s' : State} (h : Moves s s') : Asks w s s' :=
  .single (.moves s' h)

theorem Moves.turn {w : World} {s s' : State} (h : Moves s s') : Turn w s s' :=
  .ask s' (.moves s' h)

theorem Moves.turns {w : World} {s s' : State} (h : Moves s s') : Turns w s s' := .single h.turn

theorem Asks.turns {w : World} {s s' : State} (h : Asks w s s') : Turns w s s' :=
  Relation.ReflTransGen.mono (fun _ s' h => Turn.ask s' h) s s' h

theorem Turns.trans {w : World} {s s1 s2 : State} (h : Turns w s s1) (h' : Turns w s1 s2) :
    Turns w s s2 :=
  Relation.ReflTransGen.trans h h'

/-- What every turn keeps, a sequence of them keeps. -/
theorem Turns.keeps {w : World} {P : State → Prop} (turn : ∀ s s', P s → Turn w s s' → P s')
    {s s' : State} (h : Turns w s s') (hs : P s) : P s' := by
  induction h with
  | refl => exact hs
  | tail _ hturn ih => exact turn _ _ ih hturn

section Hearing

variable (w : World) (s : State)

theorem blacklistNode_flush (id : Id) (sa : Endpoint) :
    ∃ s1, Moves s s1 ∧ blacklistNode s id sa = s1.flush id sa := by
  unfold blacklistNode
  cases findNode id s.buckets with
  | none => exact ⟨s, Moves.refl s, rfl⟩
  | some p =>
    obtain ⟨i, j⟩ := p
    have hmark : Moves s (s.modifyNode i j fun n => { n with pinged := 3 }) :=
      moves_modifyNode s i j (fun _ => rfl)
    exact ⟨_, hmark.trans (moves_pinged _ i j none), rfl⟩

/-- How a message changes the state: by moves alone, or by moves around one blacklisting of its
sender, or around one peer stored for it. -/
inductive Hears (sa : Endpoint) (kind : Kind) (m : Message) (s : State) : State → Prop
  | quiet (s' : State) : Moves s s' → Hears sa kind m s s'
  | flush (s1 s' : State) : Moves s s1 → Moves (s1.flush m.id sa) s' → Hears sa kind m s s'
  | store (s1 s' : State) : kind = .announcePeer → Moves s s1 → Announced w s1 sa m →
      Moves (storageStore w s1 m.infoHash sa (announcedPort sa m)).2 s' → Hears sa kind m s s'

variable {w s} in
theorem Hears.then {sa : Endpoint} {kind : Kind} {m : Message} {s1 s2 : State}
    (h : Hears w sa kind m s s1) (h' : Moves s1 s2) : Hears w sa kind m s s2 := by
  cases h with
  | quiet _ h => exact .quiet _ (h.trans h')
  | flush s0 _ h h0 => exact .flush s0 _ h (h0.trans h')
  | store s0 _ hk h ha h0 => exact .store s0 _ hk h ha (h0.trans h')

theorem hears_handleNodes (sa : Endpoint) (m : Message) (gp : Option UInt16) (hgood : s.Good) :
    Hears w sa .reply m s (handleNodes w s sa m gp) := by
  unfold handleNodes
  extract_lets sr s1 s2 s3
  have hstart : Hears w sa .reply m s s3 := by
    unfold s3
    split
    · obtain ⟨s4, h4, heq⟩ := blacklistNode_flush s m.id sa
      rw [heq]
      exact .flush s4 _ h4 (Moves.refl _)
    split
    · exact .quiet _ (moves_newNode w s m.id sa 1 hgood)
    · have hnew : Moves s s1 := moves_newNode w s m.id sa 2 hgood
      have hheard : Moves s1 s2 := Moves.foldl_good (fun s c h => moves_heardOf w s sr c h)
        (contacts m.nodes) (hnew.good hgood)
      clear_value s2 sr
      cases sr with
      | none => exact .quiet _ (hnew.trans hheard)
      | some k => exact .quiet _ (hnew.trans (hheard.trans (moves_searchSendGetPeers s2 k none)))
  clear_value s3 sr
  cases sr with
  | none => exact hstart
  | some k =>
    -- what the search learns from the reply
    have hinsert := moves_insertSearchNode s3 m.id sa k true (some m.token)
    dsimp only
    generalize (insertSearchNode s3 m.id sa k true (some m.token)).2 = s4 at hinsert
    refine hstart.then (hinsert.trans ?_)
    split
    · exact Moves.refl s4
    · next sr _ =>
      have hvalues : Moves s4 (if m.values.length > 0 then s4.report
        (.values sr.id m.values) else s4) :=
        Moves.ite (moves_report s4 _) (Moves.refl s4)
      exact Moves.ite (hvalues.trans (moves_report _ _)) hvalues

theorem hears_handleReply (sa : Endpoint) (m : Message) (hgood : s.Good) :
    Hears w sa .reply m s (handleReply w s sa m) := by
  unfold handleReply
  split
  · obtain ⟨s1, h1, heq⟩ := blacklistNode_flush s m.id sa
    rw [heq]
    exact .flush s1 _ h1 (Moves.refl _)
  split
  · exact .quiet _ (moves_newNode w s m.id sa 2 hgood)
  split
  · exact hears_handleNodes w s sa m _ hgood
  split
  · exact .quiet _ (moves_handleAnnounced w s sa m _ hgood)
  · exact .quiet _ (Moves.refl s)

theorem moves_handleGetPeers (sa : Endpoint) (m : Message) (hgood : s.Good) :
    Moves s (handleGetPeers w s sa m) := by
  unfold handleGetPeers
  have hnew := moves_newNode w s m.id sa 1 hgood
  dsimp only
  split
  · exact hnew.trans (moves_send _ sa _ _)
  · split <;> exact hnew.trans (moves_sendClosestNodes w _ sa _ _ _ _ _)

theorem hears_handleAnnouncePeer (sa : Endpoint) (m : Message) (hgood : s.Good) :
    Hears w sa .announcePeer m s (handleAnnouncePeer w s sa m) := by
  unfold handleAnnouncePeer
  have hnew := moves_newNode w s m.id sa 1 hgood
  dsimp only
  split
  · exact .quiet _ (hnew.trans (moves_send _ sa _ _))
  next hhash =>
  split
  · exact .quiet _ (hnew.trans (moves_send _ sa _ _))
  next htoken =>
  split
  · exact .quiet _ (hnew.trans (moves_send _ sa _ _))
  next hport =>
  have hannounced : Announced w (newNode w s m.id sa 1) sa m := by
    refine ⟨by simpa using htoken, ?_, hport⟩
    intro heq
    rw [heq, (idCmp_eq_zero_iff _ _).mpr rfl] at hhash
    exact hhash rfl
  exact .store _ _ rfl hnew hannounced (moves_send _ sa _ _)

theorem hears_handle (sa : Endpoint) (m : Message) (kind : Kind) (hgood : s.Good) :
    Hears w sa kind m s (handle w s sa m kind) := by
  have hnew := moves_newNode w s m.id sa 1 hgood
  cases kind with
  | error => exact .quiet _ (Moves.refl s)
  | reply => exact hears_handleReply w s sa m hgood
  | ping => exact .quiet _ (hnew.trans (moves_send _ sa _ _))
  | findNode =>
    exact .quiet _ (hnew.trans (moves_sendClosestNodes w _ sa m.tid m.target m.want none []))
  | getPeers => exact .quiet _ (moves_handleGetPeers w s sa m hgood)
  | announcePeer => exact hears_handleAnnouncePeer w s sa m hgood

theorem letIn_state (sa : Endpoint) (buf : List UInt8) :
    (letIn s sa buf).2 = s ∨ (letIn s sa buf).2 = (tokenBucket s).2 := by
  unfold letIn
  split
  · exact Or.inl rfl
  split
  · split
    · exact Or.inl rfl
    split
    · exact Or.inl rfl
    · split
      · next h => exact Or.inr (by rw [h])
      · next h => exact Or.inr (by rw [h])
  · exact Or.inl rfl

theorem letIn_some {sa : Endpoint} {buf : List UInt8} (kind : Kind) (m : Message)
    (h : (letIn s sa buf).1 = some (kind, m)) :
    nodeBlacklisted s sa = false ∧ parseMessage buf = .next (some kind, m) := by
  unfold letIn at h
  split at h
  · simp at h
  next hfrom =>
  have hblack : nodeBlacklisted s sa = false := by
    simp only [Bool.or_eq_true, not_or, Bool.not_eq_true] at hfrom
    exact hfrom.2
  split at h
  · next kind' m' hparse =>
    have hsame : some (kind', m') = some (kind, m) := by
      split at h
      · simp at h
      split at h
      · exact h
      · split at h
        · simp at h
        · exact h
    obtain ⟨rfl, rfl⟩ := Prod.mk.inj (Option.some.inj hsame)
    exact ⟨hblack, hparse⟩
  · simp at h

theorem good_tokenBucket (hgood : s.Good) : (tokenBucket s).2.Good := by
  unfold tokenBucket
  dsimp only
  by_cases hzero : s.tokenBucketTokens = 0
  · rw [if_pos hzero]
    split <;> exact hgood
  · rw [if_neg hzero, if_neg hzero]
    exact hgood

/-- What is heard of a datagram: nothing but the rate limit, or that and the message. -/
theorem receive_cases (sa : Endpoint) (buf : List UInt8) (hgood : s.Good) :
    receive w s sa buf = (letIn s sa buf).2 ∨ ∃ kind m, nodeBlacklisted s sa = false ∧
      parseMessage buf = .next (some kind, m) ∧
      Hears w sa kind m (letIn s sa buf).2 (receive w s sa buf) := by
  have hgood' : (letIn s sa buf).2.Good := by
    rcases letIn_state s sa buf with h | h <;> rw [h]
    · exact hgood
    · exact good_tokenBucket s hgood
  unfold receive
  cases hlet : letIn s sa buf with
  | mk heard s' =>
    rw [hlet] at hgood'
    cases heard with
    | none => exact Or.inl rfl
    | some p =>
      obtain ⟨hblack, hparse⟩ := letIn_some s p.1 p.2 (by rw [hlet])
      exact Or.inr ⟨p.1, p.2, hblack, hparse, hears_handle w s' sa p.2 p.1 hgood'⟩

variable {w s} in
theorem Hears.turns {sa : Endpoint} {kind : Kind} {m : Message} {s' : State}
    (h : Hears w sa kind m s s') : Turns w s s' := by
  cases h with
  | quiet _ h => exact h.turns
  | flush s1 _ h h' => exact .head h.turn (.head (.flush m.id sa) h'.turns)
  | store s1 _ _ h ha h' => exact .head h.turn (.head (.store sa m ha) h'.turns)

theorem turns_receive (sa : Endpoint) (buf : List UInt8) (hgood : s.Good) :
    Turns w s (receive w s sa buf) := by
  have hlimit : Turns w s (letIn s sa buf).2 := by
    rcases letIn_state s sa buf with h | h
    · rw [h]
    · rw [h]
      exact .single .limit
  rcases receive_cases w s sa buf hgood with h | ⟨_, _, _, _, hheard⟩
  · rw [h]
    exact hlimit
  · exact hlimit.trans hheard.turns

end Hearing

section Calls

variable (w : World) (s : State)

/-- `if(now.tv_sec >= expire_stuff_time)`: nothing is due, or buckets, stored peers and searches
expire. -/
theorem expireIfDue_cases : (s.now < s.expireStuffTime ∧ expireIfDue w s = s) ∨
    ∃ s1 t, s.expireStuffTime ≤ s.now ∧ Moves s s1 ∧ t < s.now + 360 ∧
      expireIfDue w s = expireSearches (expireStorage { s1 with expireStuffTime := t }) := by
  unfold expireIfDue
  split
  · next hdue =>
    right
    obtain ⟨s1, h1, heq⟩ := moves_expireBuckets w s
    have hnow : s1.now = s.now := h1.now
    refine ⟨{ s1 with draws := s1.draws + 1 }, s1.now + 120 + (w.random s1.draws : Nat) % 240, hdue,
      h1.trans (Moves.aside rfl rfl rfl rfl), ?_, ?_⟩
    · rw [hnow]
      omega
    · rw [heq]
      rfl
  · next hnot => exact Or.inl ⟨by omega, rfl⟩

theorem turns_expireIfDue : Turns w s (expireIfDue w s) := by
  rcases expireIfDue_cases w s with ⟨_, h⟩ | ⟨s1, t, hdue, h1, ht, h⟩
  · rw [h]
  · rw [h]
    refine .head h1.turn (.single (.expire t ?_ ?_))
    · rw [h1.now, h1.expireStuffTime]
      exact hdue
    · rw [h1.now]
      exact ht

theorem moves_searchIfDue : Moves s (searchIfDue w s) := by
  unfold searchIfDue
  split
  · dsimp only
    have hreset : ∀ s : State, Moves s { s with searchTime := 0 } :=
      fun s => Moves.aside rfl rfl rfl rfl
    refine (Moves.trans ?_ (hreset _)).trans (Moves.foldl ?_ _ _)
    · apply Moves.foldl
      intro s k
      split
      · exact Moves.refl s
      · split
        · exact moves_searchStep s k
        · exact Moves.refl s
    · intro s sr
      split
      · exact Moves.refl s
      · exact Moves.ite (Moves.aside rfl rfl rfl rfl) (Moves.aside rfl rfl rfl rfl)
  · exact Moves.refl s

theorem moves_confirmIfDue : Moves s (confirmIfDue w s) := by
  unfold confirmIfDue
  split
  · have hask := moves_bucketMaintenance w s
    generalize bucketMaintenance w s = r at hask
    obtain ⟨soon, s1⟩ := r
    dsimp only at hask ⊢
    have hnear : Moves s1 (if (!soon && decide (s1.mybucketGrowTime ≥ s1.now - 150)) = true then
        neighbourhoodMaintenance w s1 else (soon, s1)).2 := by
      split
      · exact moves_neighbourhoodMaintenance w s1
      · exact Moves.refl s1
    exact hask.trans (hnear.trans (Moves.aside rfl rfl rfl rfl))
  · exact Moves.refl s

theorem turns_hear (datagram : Option (Endpoint × List UInt8)) (hgood : s.Good) :
    Turns w s (hear w s datagram) := by
  cases datagram with
  | none => exact .refl
  | some p => exact turns_receive w s p.1 p.2 hgood

theorem turns_rotateIfDue : Turns w s (rotateIfDue w s) := by
  unfold rotateIfDue
  split
  · next hdue => exact .single (.rotate hdue)
  · exact .refl

/-- A call of `dht_periodic`, once it has the time. -/
theorem turns_dhtPeriodic (now : Int) (datagram : Option (Endpoint × List UInt8)) (hgood : s.Good) :
    Turns w { s with now := now } (dhtPeriodic w s now datagram) := by
  unfold dhtPeriodic
  have hheard := turns_hear w { s with now := now } datagram hgood
  dsimp only
  generalize hear w { s with now := now } datagram = s1 at hheard
  refine hheard.trans ((turns_rotateIfDue w s1).trans ((turns_expireIfDue w _).trans ?_))
  exact ((moves_searchIfDue w _).trans (moves_confirmIfDue w _)).turns

theorem SearchOk.refreshed {sr : Search} (h : SearchOk sr) (now : Int) :
    SearchOk { sr with done := false, nodes := refreshed now sr.nodes } := by
  have hids : (Dht.refreshed now sr.nodes).map (fun n => distance n.id sr.id) =
      (sr.nodes.filter fun n => !(n.pinged ≥ 3 || n.replyTime < now - 7200)).map fun n =>
        distance n.id sr.id := by
    simp [Dht.refreshed, Function.comp_def]
  constructor
  · exact (sorted_of_map hids).mpr (h.sorted.sublist List.filter_sublist)
  · have hlength := congrArg List.length hids
    simp only [List.length_map] at hlength
    simp only [hlength]
    exact Nat.le_trans (List.length_filter_le _ _) h.room
  · intro n hn
    obtain ⟨m, _, rfl⟩ := List.mem_map.mp hn
    simp

theorem newSearch_none {s' : State} (h : newSearch w s = (none, s')) : Moves s s' := by
  unfold newSearch at h
  dsimp only at h
  split at h
  · obtain rfl : s = s' := by simpa using (Prod.mk.inj h).2
    exact Moves.refl s
  · split at h <;> split at h
    · simp at h
    · obtain rfl := (Prod.mk.inj h).2
      exact Moves.aside rfl rfl rfl rfl
    · simp at h
    · obtain rfl := (Prod.mk.inj h).2
      exact Moves.refl s

theorem moves_reportStored (id : Id) : Moves s (reportStored s id) := by
  unfold reportStored
  split
  · exact Moves.refl s
  · exact Moves.foldl (fun s p => moves_report s _) _ s

theorem moves_fillSearch (b k : Nat) : Moves s (fillSearch s b k) := by
  unfold fillSearch
  extract_lets s1 s2 s3
  have hnext : Moves s1 s2 := Moves.ite (moves_insertSearchBucket s1 (b + 1) k) (Moves.refl s1)
  have hnear : Moves s1 s3 := by
    refine Moves.ite ?_ (Moves.refl s1)
    split
    · exact hnext
    · exact hnext.trans (moves_insertSearchBucket s2 _ k)
  refine ((moves_insertSearchBucket s b k).trans hnear).trans (Moves.ite ?_ (Moves.refl s3))
  split
  · exact Moves.refl s3
  · exact moves_insertSearchBucket s3 _ k

theorem asks_searchFor (id : Id) : Asks w s (searchFor w s id).2 := by
  unfold searchFor
  cases hold : s.searches.findIdx? (fun sr : Search => idCmp sr.id id == 0) with
  | some k =>
    have hfresh : Moves s (s.modifySearch k fun sr =>
        { sr with done := false, nodes := refreshed s.now sr.nodes }) :=
      moves_modifySearch s k (fun _ => rfl) (fun _ _ h => h.refreshed s.now)
    exact hfresh.asks
  | none =>
    have hother : ∀ sr ∈ s.searches, sr.id ≠ id := by
      intro sr hsr heq
      have := List.findIdx?_eq_none_iff.mp hold sr hsr
      simp [heq, (idCmp_eq_zero_iff id id).mpr rfl] at this
    cases hslot : newSearch w s with
    | mk slot s1 =>
      cases slot with
      | none => exact (newSearch_none w s hslot).asks
      | some k => exact .single (.slot s1 k id hother hslot)

theorem asks_dhtSearch (id : Id) (port : UInt16) : Asks w s (dhtSearch w s id port).2 := by
  unfold dhtSearch
  cases findBucket id s.buckets with
  | none => exact .refl
  | some b =>
    dsimp only
    have hslot := (moves_reportStored s id).asks.trans (asks_searchFor w (reportStored s id) id)
    generalize searchFor w (reportStored s id) id = r at hslot
    obtain ⟨slot, s1⟩ := r
    cases slot with
    | none => exact hslot
    | some k =>
      have hfill := moves_fillSearch (s1.modifySearch k fun sr => { sr with port := port }) b k
      have htime : ∀ s : State, Moves s { s with searchTime := s.now } :=
        fun s => Moves.aside rfl rfl rfl rfl
      have hask := hfill.trans ((moves_searchStep _ k).trans (htime _))
      exact hslot.trans (.head (.aim k port) hask.asks)

end Calls

end Dht
