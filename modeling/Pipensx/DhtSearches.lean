import Pipensx.DhtRuns

/-!
# Searches over whole runs

The nodes of a search stay in the order of their distance, and a search is done only when enough of
the nearest nodes have replied.
-/

namespace Dht

/-- The searches after any run. -/
theorem run_searches (w : World) (calls : List Call) :
    (run w State.boot calls).searches.length ≤ maxSearches ∧
    ((run w State.boot calls).searches.map Search.id).Nodup ∧
    ∀ sr ∈ (run w State.boot calls).searches,
      sr.nodes.Pairwise (fun n1 n2 => distance n1.id sr.id < distance n2.id sr.id) ∧
      sr.nodes.length ≤ searchNodes ∧ ∀ n ∈ sr.nodes, n.token.length < 40 := by
  have hsound := sound_run w Sound.boot calls
  refine ⟨hsound.slots, hsound.targets, fun sr hsr => ?_⟩
  have hok := hsound.searches sr hsr
  exact ⟨hok.sorted, hok.room, hok.tokens⟩

def live (n : SearchNode) : Bool := n.pinged < 3

theorem allReplied_iff (left : Nat) (nodes : List SearchNode) :
    allReplied left nodes = true ↔ ∀ n ∈ (nodes.filter live).take left, n.replied = true := by
  fun_induction allReplied left nodes with
  | case1 nodes => simp
  | case2 left hpos => simp
  | case3 left n rest hdead ih =>
    rw [ih, List.filter_cons_of_neg (by simpa [live] using hdead)]
  | case4 left n rest hlive ih =>
    rw [List.filter_cons_of_pos (by simpa [live] using hlive), List.take_succ_cons,
      Bool.and_eq_true, ih]
    simp

section Announcing

variable (k : Nat)

theorem events_send (s : State) (sa : Endpoint) (message : Option (List UInt8)) (confirm : Bool) :
    (s.send sa message confirm).events = s.events := by
  unfold State.send
  split
  · rfl
  · split <;> rfl

theorem events_sendCachedPing (s : State) (i : Nat) : (sendCachedPing s i).events = s.events := by
  unfold sendCachedPing
  split
  · rfl
  · exact events_send s _ _ _

theorem events_pingedId (s : State) (id : Id) : (pingedId s id).events = s.events := by
  unfold pingedId
  split
  · rfl
  · unfold pinged
    split
    · rfl
    · dsimp only
      split
      · split
        · rfl
        · exact events_sendCachedPing _ _
      · rfl

theorem events_searchSendGetPeers (s : State) (given : Option Nat) :
    (searchSendGetPeers s k given).2.events = s.events := by
  unfold searchSendGetPeers
  split
  · rfl
  · dsimp only
    split
    · rfl
    · split
      · rfl
      · dsimp only
        rw [events_pingedId]
        exact events_send s _ _ _

theorem events_queryLoop (left i j : Nat) (s : State) :
    (queryLoop k left i j s).events = s.events := by
  induction left generalizing i j s with
  | zero => rfl
  | succ left ih =>
    rw [queryLoop]
    have hask := events_searchSendGetPeers k s (some i)
    generalize searchSendGetPeers s k (some i) = r at hask
    obtain ⟨asked, s1⟩ := r
    dsimp only at hask ⊢
    split
    · exact hask
    · rw [ih, hask]

theorem events_announceLoop (rest i left : Nat) (s : State) (acked : Bool) :
    (announceLoop k rest i left s acked).2.events = s.events := by
  induction rest generalizing i left s acked with
  | zero => rfl
  | succ rest ih =>
    cases left with
    | zero => rfl
    | succ left =>
      rw [announceLoop]
      split
      · split
        · exact ih _ _ _ _
        split
        · exact ih _ _ _ _
        split
        · exact ih _ _ _ _
        · dsimp only
          rw [ih, events_pingedId]
          exact events_send s _ _ _
      · rfl

theorem announceLoop_false (rest i left : Nat) (s : State) :
    (announceLoop k rest i left s false).1 = false := by
  induction rest generalizing i left s with
  | zero => rfl
  | succ rest ih =>
    cases left with
    | zero => rfl
    | succ left =>
      rw [announceLoop]
      split
      · split
        · exact ih _ _ _
        split
        · exact ih _ _ _
        split
        · exact ih _ _ _
        · exact ih _ _ _
      · rfl

/-- When the loop finds nothing to announce, every live node it has passed has no token or has
acknowledged. -/
theorem announceLoop_true (rest i left : Nat) (s : State) {sr : Search}
    (hsr : s.searches[k]? = some sr)
    (hrest : sr.nodes.length ≤ i + rest) (h : (announceLoop k rest i left s true).1 = true) :
    ∀ n ∈ ((sr.nodes.drop i).filter live).take left, n.token = [] ∨ n.acked = true := by
  induction rest generalizing i left s sr with
  | zero =>
    rw [List.drop_eq_nil_of_le (by omega)]
    simp
  | succ rest ih =>
    cases left with
    | zero => simp
    | succ left =>
      rw [announceLoop] at h
      by_cases hi : i < sr.nodes.length
      · have hnode : s.searchNode? k i = some sr.nodes[i] := by
          simp [State.searchNode?, hsr, List.getElem?_eq_getElem hi]
        simp only [hsr, hnode] at h
        rw [List.drop_eq_getElem_cons hi]
        split at h
        · next hdead =>
          rw [List.filter_cons_of_neg (by simpa [live] using hdead)]
          exact ih (i + 1) (left + 1) s hsr (by omega) h
        next hlive =>
        rw [List.filter_cons_of_pos (by simpa [live] using hlive), List.take_succ_cons]
        have hcons : ∀ ns : List SearchNode, (sr.nodes[i].token = [] ∨ sr.nodes[i].acked = true) →
            (∀ n ∈ ns, n.token = [] ∨ n.acked = true) →
            ∀ n ∈ sr.nodes[i] :: ns, n.token = [] ∨ n.acked = true := by
          intro ns hhead htail n hn
          rcases List.mem_cons.mp hn with rfl | hn
          · exact hhead
          · exact htail n hn
        split at h
        · next hnone =>
          -- the nodes behind are not touched
          have hsr' : (s.modifySearchNode k i fun n => { n with acked := true }).searches[k]? =
              some { sr with nodes := sr.nodes.modify i fun n => { n with acked := true } } := by
            simp [State.modifySearchNode, State.modifySearch, hsr]
          have hlater := ih (i + 1) left _ hsr'
            (by simpa using (by omega : sr.nodes.length ≤ i + 1 + rest)) h
          have hdrop : (sr.nodes.modify i fun n => { n with acked := true }).drop (i + 1) =
              sr.nodes.drop (i + 1) := by
            apply List.ext_getElem?
            intro m
            rw [List.getElem?_drop, List.getElem?_drop, List.getElem?_modify_ne _
              (l := sr.nodes) (by omega)]
          rw [hdrop] at hlater
          exact hcons _ (Or.inl hnone) hlater
        split at h
        · next hacked => exact hcons _ (Or.inr hacked) (ih (i + 1) left s hsr (by omega) h)
        · rw [announceLoop_false] at h
          simp at h
      · rw [List.drop_eq_nil_of_le (by omega)]
        simp

end Announcing

/-- A search is done when every live node that has not replied is behind eight live nodes that have;
and when it announces, the first eight live nodes that gave a token have acknowledged. -/
theorem run_searchStep (w : World) {s : State} (reached : Reached w s) (k : Nat) (sr : Search)
    (hsr : s.searches[k]? = some sr) :
    (searchStep s k).events = s.events ∨
    (searchStep s k).events = Event.searchDone sr.id :: s.events ∧
      (∀ n ∈ sr.nodes, live n = true → n.replied = false →
        8 ≤ (sr.nodes.filter fun near => live near && near.replied &&
          distance near.id sr.id < distance n.id sr.id).length) ∧
      (sr.port ≠ 0 → ∀ n ∈ (sr.nodes.filter live).take 8, n.token = [] ∨ n.acked = true) := by
  have hok := reached.sound.searches sr (List.mem_of_getElem? hsr)
  unfold searchStep
  simp only [hsr]
  split
  · next hreplied =>
    rw [allReplied_iff] at hreplied
    have hnear : ∀ n ∈ sr.nodes, live n = true → n.replied = false →
        8 ≤ (sr.nodes.filter fun near => live near && near.replied &&
          distance near.id sr.id < distance n.id sr.id).length := by
      intro n hn hlive hsilent
      have hmem : n ∈ sr.nodes.filter live := List.mem_filter.mpr ⟨hn, hlive⟩
      have hsorted := hok.sorted.sublist (List.filter_sublist (p := live))
      rw [← List.take_append_drop 8 (sr.nodes.filter live)] at hmem hsorted
      have hbehind : n ∈ (sr.nodes.filter live).drop 8 := by
        rcases List.mem_append.mp hmem with hfront | hbehind
        · rw [hreplied n hfront] at hsilent
          simp at hsilent
        · exact hbehind
      have hlength := List.length_pos_of_mem hbehind
      rw [List.length_drop] at hlength
      have hcross := (List.pairwise_append.mp hsorted).2.2
      -- the first eight live nodes are among those that are counted
      have hall : ((sr.nodes.filter live).take 8).filter (fun near => live near && near.replied &&
          distance near.id sr.id < distance n.id sr.id) = (sr.nodes.filter live).take 8 := by
        rw [List.filter_eq_self]
        intro near hfront
        have hlive' := (List.mem_filter.mp (List.mem_of_mem_take hfront)).2
        simp [hlive', hreplied near hfront, hcross near hfront n hbehind]
      have hsub := ((List.take_sublist 8 (sr.nodes.filter live)).trans List.filter_sublist).filter
        (fun near => live near && near.replied && distance near.id sr.id < distance n.id sr.id)
      rw [hall] at hsub
      have := hsub.length_le
      rw [List.length_take] at this
      omega
    split
    · next hport =>
      exact Or.inr ⟨rfl, hnear, fun hne => absurd hport hne⟩
    · next hport =>
      have hevents := events_announceLoop k sr.nodes.length 0 8 s true
      have hacked := announceLoop_true k sr.nodes.length 0 8 s hsr (by omega)
      generalize announceLoop k sr.nodes.length 0 8 s true = r at hevents hacked
      obtain ⟨acked, s1⟩ := r
      dsimp only at hevents hacked ⊢
      split
      · next hyes =>
        refine Or.inr ⟨?_, hnear, fun _ => hacked hyes⟩
        simp [searchDone, State.report, State.modifySearch, hevents]
      · exact Or.inl hevents
  · split
    · exact Or.inl rfl
    · exact Or.inl (events_queryLoop k _ _ _ s)

/-- The node of `firstCalls` answers with a token. -/
def firstReply : Endpoint × List UInt8 :=
  (firstNode,
    (nodesPeersMessage ⟨Vector.replicate 20 3, none⟩ (makeTid "gp" 0) [] none [1, 2]).getD [])

/-- It acknowledges the announcement. -/
def firstAck : Endpoint × List UInt8 :=
  (firstNode, (pongMessage ⟨Vector.replicate 20 3, none⟩ (makeTid "ap" 0)).getD [])

def acknowledged : List Call :=
  firstCalls ++ [.periodic 1001 (some firstReply), .periodic 1010 none,
    .periodic 1011 (some firstAck)]

/-- The one search then, with the one node there is. -/
def firstSearch : Search :=
  ⟨0, 1010, Vector.replicate 20 9, 6881, false,
    [⟨Vector.replicate 20 3, firstNode, 0, 1011, 0, [1, 2], true, true⟩]⟩

theorem run_searchStep_first :
    let s := run World.calm State.boot acknowledged
    (searchStep s 0).events = Event.searchDone firstSearch.id :: s.events ∧
      (∀ n ∈ firstSearch.nodes, live n = true → n.replied = false →
        8 ≤ (firstSearch.nodes.filter fun near => live near && near.replied &&
          decide (distance near.id firstSearch.id < distance n.id firstSearch.id)).length) ∧
      (firstSearch.port ≠ 0 → ∀ n ∈ (firstSearch.nodes.filter live).take 8, n.token = [] ∨
        n.acked = true) := by
  have hsearch : (run World.calm State.boot acknowledged).searches[0]? = some firstSearch := by
    decide +kernel
  have hreported : (searchStep (run World.calm State.boot acknowledged) 0).events ≠
      (run World.calm State.boot acknowledged).events := by decide +kernel
  exact (run_searchStep World.calm (reached_run World.calm acknowledged) 0 firstSearch
    hsearch).resolve_left hreported

end Dht
