import Pipensx.DhtEngine
import Pipensx.DhtShape

/-!
# What the functions of the DHT engine can do

Most functions of the engine touch nodes, searches and what is sent, and nothing else. `Moves` says
so once: what stays, that the table and the searches stay sound, and that nothing goes to a
blacklisted address.
-/

namespace Dht

open NearestFirst (Sorted putAt)

structure SearchOk (sr : Search) : Prop where
  sorted : Sorted (fun n : SearchNode => distance n.id sr.id) sr.nodes
  room : sr.nodes.length ≤ searchNodes
  tokens : ∀ n ∈ sr.nodes, n.token.length < 40

def SearchesOk (searches : List Search) : Prop := ∀ sr ∈ searches, SearchOk sr

/-- What these functions leave alone. -/
structure Frame where
  self : Self
  opened : Bool
  now : Int
  storage : List Storage
  expireStuffTime : Int
  rotateSecretsTime : Int
  secret : Vector UInt8 8
  oldsecret : Vector UInt8 8
  blacklist : Vector (Option Endpoint) 10
  nextBlacklisted : Nat
  tokenBucketTime : Int
  tokenBucketTokens : Int
  keys : Nat
  -- the searches, without what they know
  targets : List (UInt16 × Id × UInt16)

def State.frame (s : State) : Frame where
  self := s.self
  opened := s.opened
  now := s.now
  storage := s.storage
  expireStuffTime := s.expireStuffTime
  rotateSecretsTime := s.rotateSecretsTime
  secret := s.secret
  oldsecret := s.oldsecret
  blacklist := s.blacklist
  nextBlacklisted := s.nextBlacklisted
  tokenBucketTime := s.tokenBucketTime
  tokenBucketTokens := s.tokenBucketTokens
  keys := s.keys
  targets := s.searches.map fun sr => (sr.tid, sr.id, sr.port)

structure Moves (s s' : State) : Prop where
  frame : s'.frame = s.frame
  table : TableOk s.self.myid s.buckets → TableOk s.self.myid s'.buckets
  searches : SearchesOk s.searches → SearchesOk s'.searches
  sent : ∃ new, s'.sent = new ++ s.sent ∧ ∀ p ∈ new, nodeBlacklisted s p.dest = false ∧
    s.opened = true

/-- The table of the engine is sound. -/
def State.Good (s : State) : Prop := TableOk s.self.myid s.buckets

namespace Moves

variable {s s' s'' : State}

theorem self (h : Moves s s') : s'.self = s.self := congrArg Frame.self h.frame
theorem opened (h : Moves s s') : s'.opened = s.opened := congrArg Frame.opened h.frame
theorem now (h : Moves s s') : s'.now = s.now := congrArg Frame.now h.frame
theorem storage (h : Moves s s') : s'.storage = s.storage := congrArg Frame.storage h.frame
theorem expireStuffTime (h : Moves s s') : s'.expireStuffTime = s.expireStuffTime :=
  congrArg Frame.expireStuffTime h.frame
theorem blacklist (h : Moves s s') : s'.blacklist = s.blacklist := congrArg Frame.blacklist h.frame

theorem refl (s : State) : Moves s s := ⟨rfl, fun h => h, fun h => h, [], rfl, by simp⟩

theorem trans (h : Moves s s') (h' : Moves s' s'') : Moves s s'' := by
  refine ⟨h'.frame.trans h.frame, ?_, fun hs => h'.searches (h.searches hs), ?_⟩
  · intro ht
    have := h'.table (by rw [h.self]; exact h.table ht)
    rwa [h.self] at this
  · obtain ⟨new, hnew, hall⟩ := h.sent
    obtain ⟨new', hnew', hall'⟩ := h'.sent
    refine ⟨new' ++ new, by rw [hnew', hnew, List.append_assoc], ?_⟩
    intro p hp
    rcases List.mem_append.mp hp with hp | hp
    · obtain ⟨hblack, hopen⟩ := hall' p hp
      rw [nodeBlacklisted, h.blacklist] at hblack
      exact ⟨hblack, h.opened ▸ hopen⟩
    · exact hall p hp

theorem good (h : Moves s s') (hgood : s.Good) : s'.Good := by
  rw [State.Good, h.self]
  exact h.table hgood

/-- A change of other parts of the state. -/
theorem aside (hframe : s'.frame = s.frame) (hbuckets : s'.buckets = s.buckets)
    (hsearches : s'.searches = s.searches) (hsent : s'.sent = s.sent) : Moves s s' :=
  ⟨hframe, fun h => hbuckets ▸ h, fun h => hsearches ▸ h, [], hsent, by simp⟩

theorem ite {c : Prop} [Decidable c] {a b : State} (ha : Moves s a) (hb : Moves s b) :
    Moves s (if c then a else b) := by
  split
  · exact ha
  · exact hb

/-- A sequence of moves over a list. -/
theorem foldl {α : Type} {f : State → α → State} (hf : ∀ s a, Moves s (f s a))
    (xs : List α) (s : State) : Moves s (xs.foldl f s) := by
  induction xs generalizing s with
  | nil => exact refl s
  | cons x xs ih => exact (hf s x).trans (ih (f s x))

theorem foldl_good {α : Type} {f : State → α → State}
    (hf : ∀ s a, s.Good → Moves s (f s a)) (xs : List α)
    {s : State} (h : s.Good) : Moves s (xs.foldl f s) := by
  induction xs generalizing s with
  | nil => exact refl s
  | cons x xs ih => exact (hf s x h).trans (ih ((hf s x h).good h))

end Moves

section Nodes

variable (w : World) (s : State)

theorem moves_draw : Moves s (s.draw w).2 := Moves.aside rfl rfl rfl rfl

theorem moves_send (sa : Endpoint) (message : Option (List UInt8)) (confirm : Bool) :
    Moves s (s.send sa message confirm) := by
  unfold State.send
  cases message with
  | none => exact Moves.refl s
  | some bytes =>
    dsimp only
    split
    · exact Moves.refl s
    · next hgo =>
      simp only [Bool.or_eq_true, Bool.not_eq_true', not_or, Bool.not_eq_true,
        Bool.not_eq_false] at hgo
      refine ⟨rfl, fun h => h, fun h => h, [⟨sa, bytes, confirm⟩], rfl, ?_⟩
      intro p hp
      obtain rfl := List.mem_singleton.mp hp
      exact hgo

theorem moves_sendPing (sa : Endpoint) : Moves s (s.sendPing sa) := moves_send s sa _ _

/-- Times, counts of pings and addresses of a bucket and its nodes. -/
theorem moves_touch (i : Nat) {f : Bucket → Bucket} (hfirst : ∀ b, (f b).first = b.first)
    (hcap : ∀ b, (f b).maxCount = b.maxCount) (hcount : ∀ b, (f b).count = b.count)
    (hids : ∀ b, (f b).nodes.map Node.id = b.nodes.map Node.id) : Moves s (s.modifyBucket i f) := by
  refine ⟨rfl, ?_, fun h => h, [], rfl, by simp⟩
  intro h
  exact h.modify hfirst hcap (fun b _ hok => hok.touch (hcap b) (hcount b) (hids b))

theorem moves_modifyNode (i j : Nat) {f : Node → Node} (hf : ∀ n, (f n).id = n.id) :
    Moves s (s.modifyNode i j f) :=
  moves_touch s i (fun _ => rfl) (fun _ => rfl) (fun _ => rfl)
    (fun b => map_modify_of_eq hf b.nodes j)

theorem moves_sendCachedPing (i : Nat) : Moves s (sendCachedPing s i) := by
  unfold sendCachedPing
  split
  · exact Moves.refl s
  · next sa _ =>
    exact (moves_sendPing s sa).trans
      (moves_touch _ i (fun _ => rfl) (fun _ => rfl) (fun _ => rfl) (fun _ => rfl))

theorem moves_pinged (i j : Nat) (b : Option Nat) : Moves s (pinged s i j b) := by
  unfold pinged
  cases hn : s.node? i j with
  | none => exact Moves.refl s
  | some n =>
    have hmark := moves_modifyNode s i j
      (f := fun n => { n with pinged := n.pinged + 1, pingedTime := s.now })
      (fun _ => rfl)
    dsimp only
    split
    · split
      · exact hmark
      · exact hmark.trans (moves_sendCachedPing _ _)
    · exact hmark

theorem moves_pingedId (id : Id) : Moves s (pingedId s id) := by
  unfold pingedId
  split
  · exact Moves.refl s
  · exact moves_pinged s _ _ _

end Nodes

section Searches

variable (s : State)

/-- A change of one search that keeps what it looks for, and keeps it sound. -/
theorem moves_modifySearch (k : Nat) {f : Search → Search}
    (htarget : ∀ sr, ((f sr).tid, (f sr).id, (f sr).port) = (sr.tid, sr.id, sr.port))
    (hok : ∀ sr, s.searches[k]? = some sr → SearchOk sr → SearchOk (f sr)) :
    Moves s (s.modifySearch k f) := by
  refine ⟨?_, fun h => h, ?_, [], rfl, by simp⟩
  · simp only [State.frame, State.modifySearch, Frame.mk.injEq, true_and]
    exact map_modify_of_eq htarget s.searches k
  · intro h sr hsr
    obtain ⟨m, hm⟩ := List.mem_iff_getElem?.mp hsr
    simp only [State.modifySearch, List.getElem?_modify] at hm
    cases hold : s.searches[m]? with
    | none => simp [hold] at hm
    | some sr' =>
      have hsr' := h sr' (List.mem_of_getElem? hold)
      by_cases hk : k = m
      · obtain rfl : f sr' = sr := by simpa [hold, hk] using hm
        exact hok sr' (hk ▸ hold) hsr'
      · obtain rfl : sr' = sr := by simpa [hold, hk] using hm
        exact hsr'

theorem mem_modify {α : Type} {xs : List α} {i : Nat} {f : α → α} {a : α} (h : a ∈ xs.modify i f) :
    a ∈ xs ∨ ∃ b ∈ xs, a = f b := by
  obtain ⟨m, hm⟩ := List.mem_iff_getElem?.mp h
  rw [List.getElem?_modify] at hm
  cases hold : xs[m]? with
  | none => simp [hold] at hm
  | some b =>
    have hb := List.mem_of_getElem? hold
    by_cases hi : i = m
    · exact Or.inr ⟨b, hb, by simpa [hold, hi] using hm.symm⟩
    · obtain rfl : b = a := by simpa [hold, hi] using hm
      exact Or.inl hb

theorem sorted_of_map {α : Type} {key : α → Nat} {xs ys : List α} (h : xs.map key = ys.map key) :
    Sorted key xs ↔ Sorted key ys := by
  rw [Sorted, Sorted, ← List.pairwise_map (f := key) (R := (· < ·)), h, List.pairwise_map]

theorem SearchOk.modifyNode {sr : Search} (h : SearchOk sr) (i : Nat) {f : SearchNode → SearchNode}
    (hid : ∀ n, (f n).id = n.id) (htoken : ∀ n, n.token.length < 40 → (f n).token.length < 40) :
    SearchOk { sr with nodes := sr.nodes.modify i f } := by
  refine ⟨?_, by simpa using h.room, ?_⟩
  · refine (sorted_of_map ?_).mpr h.sorted
    exact map_modify_of_eq (fun n => by simp only [hid]) sr.nodes i
  · intro n hn
    rcases mem_modify hn with hn | ⟨m, hm, rfl⟩
    · exact h.tokens n hn
    · exact htoken m (h.tokens m hm)

theorem moves_modifySearchNode (k i : Nat) {f : SearchNode → SearchNode}
    (hid : ∀ n, (f n).id = n.id) (htoken : ∀ n, n.token.length < 40 → (f n).token.length < 40) :
    Moves s (s.modifySearchNode k i f) :=
  moves_modifySearch s k (fun _ => rfl) (fun _ _ h => h.modifyNode i hid htoken)

theorem learned_id (now : Int) (sa : Endpoint) (replied : Bool) (token : Option (List UInt8))
    (n : SearchNode) : (learned now sa replied token n).id = n.id := by
  unfold learned
  cases token with
  | none => cases replied <;> rfl
  | some token =>
    dsimp only
    split <;> cases replied <;> rfl

theorem learned_token (now : Int) (sa : Endpoint) (replied : Bool) (token : Option (List UInt8))
    (n : SearchNode) (h : n.token.length < 40) :
    (learned now sa replied token n).token.length < 40 := by
  unfold learned
  cases token with
  | none => cases replied <;> exact h
  | some token =>
    dsimp only
    split
    · cases replied <;> exact h
    · next hshort => exact Nat.lt_of_not_le hshort

/-- How `insert_search_node` looks for a place, by distances. -/
theorem spot_eq (id target : Id) (nodes : List SearchNode) (a : SearchNode) (ha : a.id = id) :
    NearestFirst.spot (fun n => idCmp id n.id == 0) (fun n => xorcmp id n.id target < 0) nodes =
      NearestFirst.spot (fun n => distance n.id target == distance a.id target)
        (fun n => distance a.id target < distance n.id target) nodes := by
  subst ha
  congr 1
  · funext n
    rw [Bool.eq_iff_iff, beq_iff_eq, beq_iff_eq, idCmp_eq_zero_iff, distance_inj]
    exact eq_comm
  · funext n
    rw [decide_eq_decide, xorcmp_lt_iff]

theorem moves_insertSearchNode (id : Id) (sa : Endpoint) (k : Nat) (replied : Bool)
    (token : Option (List UInt8)) : Moves s (insertSearchNode s id sa k replied token).2 := by
  unfold insertSearchNode
  cases hk : s.searches[k]? with
  | none => exact Moves.refl s
  | some sr =>
    have hlearn : ∀ s : State, ∀ i,
      Moves s (s.modifySearchNode k i (learned s.now sa replied token)) :=
      fun s i => moves_modifySearchNode s k i (learned_id _ _ _ _) (learned_token _ _ _ _)
    dsimp only
    cases hspot : NearestFirst.spot (fun n => idCmp id n.id == 0)
        (fun n => decide (xorcmp id n.id sr.id < 0)) sr.nodes with
    | found i => exact hlearn s i
    | free i =>
      dsimp only
      split
      · exact Moves.refl s
      · have hput : Moves s (s.modifySearch k fun sr =>
            { sr with nodes := putAt searchNodes i (SearchNode.blank id sa) sr.nodes }) := ?_
        · exact hput.trans (hlearn _ i)
        refine moves_modifySearch s k (fun _ => rfl) ?_
        intro sr' hsr' h
        obtain rfl : sr = sr' := by simpa [hk] using hsr'
        rw [spot_eq id sr.id sr.nodes (SearchNode.blank id sa) rfl] at hspot
        obtain ⟨_, hfront, hback⟩ := NearestFirst.spot_free h.sorted hspot
        refine ⟨NearestFirst.sorted_putAt h.sorted hfront hback,
          NearestFirst.length_putAt_le _ _ _ _, ?_⟩
        intro n hn
        rcases NearestFirst.mem_putAt hn with rfl | hn
        · simp [SearchNode.blank]
        · exact h.tokens n hn

/-- A request to a node of a search. -/
theorem moves_request (k i : Nat) (sa : Endpoint) (message : Option (List UInt8))
    (confirm : Bool) (id : Id) :
    Moves s (pingedId ((s.send sa message confirm).modifySearchNode k i fun n =>
      { n with pinged := n.pinged + 1, requestTime := (s.send sa message confirm).now }) id) := by
  have hsend := moves_send s sa message confirm
  generalize s.send sa message confirm = s1 at hsend
  have hmark : Moves s1 (s1.modifySearchNode k i fun n =>
      { n with pinged := n.pinged + 1, requestTime := s1.now }) :=
    moves_modifySearchNode s1 k i (fun _ => rfl) (fun _ h => h)
  exact hsend.trans (hmark.trans (moves_pingedId _ id))

theorem moves_searchSendGetPeers (k : Nat) (given : Option Nat) :
    Moves s (searchSendGetPeers s k given).2 := by
  unfold searchSendGetPeers
  cases hk : s.searches[k]? with
  | none => exact Moves.refl s
  | some sr =>
    dsimp only
    split
    · exact Moves.refl s
    · next i n _ =>
      split
      · exact Moves.refl s
      · exact moves_request s k i _ _ _ _

theorem moves_addSearchNode (id : Id) (sa : Endpoint) : Moves s (addSearchNode s id sa) := by
  unfold addSearchNode
  apply Moves.foldl
  intro s k
  split
  · have hinsert := moves_insertSearchNode s id sa k false none
    split
    · next heq =>
      rw [heq] at hinsert
      exact hinsert
    · next heq =>
      rw [heq] at hinsert
      exact hinsert.trans (moves_searchSendGetPeers _ _ _)
  · exact Moves.refl s

theorem moves_insertSearchBucket (i k : Nat) : Moves s (insertSearchBucket s i k) := by
  unfold insertSearchBucket
  apply Moves.foldl
  intro s n
  exact moves_insertSearchNode s n.id n.ss k false none

theorem moves_report (e : Event) : Moves s (s.report e) := Moves.aside rfl rfl rfl rfl

theorem moves_queryLoop (k : Nat) (left i j : Nat) (s : State) :
    Moves s (queryLoop k left i j s) := by
  induction left generalizing i j s with
  | zero => exact Moves.refl s
  | succ left ih =>
    have hask := moves_searchSendGetPeers s k (some i)
    simp only [queryLoop]
    split
    · exact hask
    · exact hask.trans (ih _ _ _)

theorem moves_announceLoop (k : Nat) (rest i left : Nat) (s : State) (acked : Bool) :
    Moves s (announceLoop k rest i left s acked).2 := by
  induction rest generalizing i left s acked with
  | zero => exact Moves.refl s
  | succ rest ih =>
    cases left with
    | zero => exact Moves.refl s
    | succ left =>
      rw [announceLoop]
      split
      · next sr n _ _ =>
        split
        · exact ih _ _ _ _
        split
        · have hmark : Moves s (s.modifySearchNode k i fun n => { n with acked := true }) :=
            moves_modifySearchNode s k i (fun _ => rfl) (fun _ h => h)
          exact hmark.trans (ih _ _ _ _)
        split
        · exact ih _ _ _ _
        · exact (moves_request s k i _ _ _ _).trans (ih _ _ _ _)
      · exact Moves.refl s

theorem moves_searchFlags (k : Nat) {f : Search → Search}
    (hf : ∀ sr, (f sr).tid = sr.tid ∧ (f sr).id = sr.id ∧
    (f sr).port = sr.port ∧ (f sr).nodes = sr.nodes) : Moves s (s.modifySearch k f) := by
  refine moves_modifySearch s k (fun sr => ?_) (fun sr _ h => ?_)
  · obtain ⟨h1, h2, h3, _⟩ := hf sr
    rw [h1, h2, h3]
  · obtain ⟨_, h2, _, h4⟩ := hf sr
    exact ⟨by rw [h2, h4]; exact h.sorted, h4 ▸ h.room, h4 ▸ h.tokens⟩

theorem moves_stepTime (k : Nat) (t : Int) :
    Moves s (s.modifySearch k fun sr => { sr with stepTime := t }) :=
  moves_searchFlags s k (fun _ => ⟨rfl, rfl, rfl, rfl⟩)

theorem moves_searchDone (k : Nat) (hash : Id) : Moves s (searchDone s k hash) := by
  have hdone : Moves s (s.modifySearch k fun sr => { sr with done := true }) :=
    moves_searchFlags s k (fun _ => ⟨rfl, rfl, rfl, rfl⟩)
  exact hdone.trans ((moves_report _ _).trans (moves_stepTime _ k _))

theorem moves_searchStep (k : Nat) : Moves s (searchStep s k) := by
  unfold searchStep
  cases s.searches[k]? with
  | none => exact Moves.refl s
  | some sr =>
    dsimp only
    split
    · split
      · exact moves_searchDone s k _
      · have hloop := moves_announceLoop k sr.nodes.length 0 8 s true
        split
        · exact hloop.trans (moves_searchDone _ _ _)
        · exact hloop.trans (moves_stepTime _ _ _)
    · split
      · exact Moves.refl s
      · exact (moves_queryLoop k _ _ _ s).trans (moves_stepTime _ _ _)

end Searches

end Dht
