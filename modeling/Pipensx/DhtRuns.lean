import Mathlib.Data.List.Nodup
import Pipensx.DhtStorage

/-!
# Runs of the DHT engine

Any sequence of calls, with any datagrams, any clock and any answers of the outside, keeps the
engine sound.
-/

namespace Dht

/-- A call of the engine. -/
inductive Call where
  | init (now : Int) (id : Id) (v : Vector UInt8 4)
  | uninit
  | periodic (now : Int) (datagram : Option (Endpoint × List UInt8))
  | search (id : Id) (port : UInt16)
  | pingNode (sa : Endpoint)
  | insertNode (id : Id) (sa : Endpoint)

def call (w : World) (s : State) : Call → State
  | .init now id v => (dhtInit w s now id v).2
  | .uninit => dhtUninit s
  | .periodic now datagram => dhtPeriodic w s now datagram
  | .search id port => (dhtSearch w s id port).2
  | .pingNode sa => dhtPingNode s sa
  | .insertNode id sa => dhtInsertNode w s id sa

def run (w : World) (s : State) (calls : List Call) : State := calls.foldl (call w) s

/-- A world that grants every allocation and draws nothing but zeros. -/
def World.calm : World :=
  ⟨fun _ => 0, fun _ => true, fun _ => Vector.replicate 8 0, ⟨⟨0, 0, 0, 0, 0⟩, 0, 0, []⟩⟩

def firstNode : Endpoint := ⟨#[10, 0, 0, 7, 26, 225], rfl⟩

/-- The start of a run, for checks. -/
def firstCalls : List Call :=
  [.init 1000 (Vector.replicate 20 1) (Vector.replicate 4 2),
    .insertNode (Vector.replicate 20 3) firstNode, .search (Vector.replicate 20 9) 6881]

/-- An announcement with the token of its sender. -/
def firstAnnounce : Endpoint × List UInt8 :=
  let sa : Endpoint := ⟨#[10, 0, 0, 2, 26, 225], rfl⟩
  let token := makeToken World.calm (run World.calm State.boot firstCalls).secret sa
  (sa, (announcePeerMessage ⟨Vector.replicate 20 3, none⟩ (text "ap34") (Vector.replicate 20 9) 6881
    token).getD [])

structure Sound (s : State) : Prop where
  table : s.Good
  searches : SearchesOk s.searches
  slots : s.searches.length ≤ maxSearches
  -- one search for each hash
  targets : (s.searches.map Search.id).Nodup
  storage : StorageOk s.storage

section Turns

variable {w : World} {s s' : State}

theorem Moves.targets (h : Moves s s') : s'.searches.map Search.id = s.searches.map Search.id := by
  have htargets := congrArg (List.map fun t : UInt16 × Id × UInt16 => t.2.1)
    (congrArg Frame.targets h.frame)
  simpa [State.frame, Function.comp_def] using htargets

theorem Moves.sound (h : Moves s s') (hs : Sound s) : Sound s' := by
  have htargets := h.targets
  have hlength := congrArg List.length htargets
  simp only [List.length_map] at hlength
  constructor
  · exact h.good hs.table
  · exact h.searches hs.searches
  · rw [hlength]
    exact hs.slots
  · rw [htargets]
    exact hs.targets
  · rw [h.storage]
    exact hs.storage

theorem flushNodes_sublist (id : Id) (nodes : List SearchNode) :
    (flushNodes id nodes).Sublist nodes := by
  fun_induction flushNodes id nodes with
  | case1 => exact List.Sublist.refl _
  | case2 n hsame => exact List.nil_sublist _
  | case3 n hsame next rest ih => exact (ih.cons_cons next).cons n
  | case4 n rest hother ih => exact ih.cons_cons n

theorem SearchOk.sublist {sr : Search} (h : SearchOk sr) {nodes : List SearchNode}
    (hsub : nodes.Sublist sr.nodes) : SearchOk { sr with nodes := nodes } :=
  ⟨h.sorted.sublist hsub, Nat.le_trans hsub.length_le h.room, fun n hn => h.tokens n (hsub.mem hn)⟩

theorem sound_flush (hs : Sound s) (id : Id) (sa : Endpoint) : Sound (s.flush id sa) := by
  refine ⟨hs.table, ?_, by simpa [State.flush] using hs.slots, ?_, hs.storage⟩
  · intro sr hsr
    obtain ⟨sr', hsr', rfl⟩ := List.mem_map.mp hsr
    exact (hs.searches sr' hsr').sublist (flushNodes_sublist id sr'.nodes)
  · simpa [State.flush, Function.comp_def] using hs.targets

theorem sound_tokenBucket (hs : Sound s) : Sound (tokenBucket s).2 := by
  unfold tokenBucket
  dsimp only
  by_cases hzero : s.tokenBucketTokens = 0
  · rw [if_pos hzero]
    split <;> exact ⟨hs.table, hs.searches, hs.slots, hs.targets, hs.storage⟩
  · rw [if_neg hzero, if_neg hzero]
    exact ⟨hs.table, hs.searches, hs.slots, hs.targets, hs.storage⟩

theorem storageStore_frame (id : Id) (sa : Endpoint) (port : UInt16) :
    ∃ allocs, (storageStore w s id sa port).2 =
      { s with storage := (storageStore w s id sa port).2.storage, allocs := allocs } := by
  unfold storageStore
  cases findStorage id s.storage with
  | some k =>
    dsimp only
    cases s.storage[k]? with
    | none => exact ⟨s.allocs, rfl⟩
    | some st => exact ⟨_, rfl⟩
  | none =>
    dsimp only
    by_cases hfull : s.storage.length ≥ maxHashes
    · rw [if_pos hfull]
      exact ⟨s.allocs, rfl⟩
    · rw [if_neg hfull]
      cases w.granted s.allocs with
      | false => exact ⟨s.allocs + 1, rfl⟩
      | true => exact ⟨_, rfl⟩

theorem sound_store (hs : Sound s) (id : Id) (sa : Endpoint) (port : UInt16) :
    Sound (storageStore w s id sa port).2 := by
  have hok := storageStore_ok w id sa port hs.storage
  obtain ⟨allocs, heq⟩ := storageStore_frame (w := w) (s := s) id sa port
  rw [heq]
  exact ⟨hs.table, hs.searches, hs.slots, hs.targets, hok⟩

theorem sound_expire (hs : Sound s) (t : Int) :
    Sound (expireSearches (expireStorage { s with expireStuffTime := t })) := by
  have hsub : (expireSearches (expireStorage { s with expireStuffTime := t })).searches.Sublist
    s.searches :=
    List.filter_sublist
  refine ⟨hs.table, fun sr hsr => hs.searches sr (hsub.mem hsr),
    Nat.le_trans hsub.length_le hs.slots, hs.targets.sublist (hsub.map _), ?_⟩
  exact expireStorage_ok (s := { s with expireStuffTime := t }) hs.storage

theorem newSearch_some {k : Nat} (h : newSearch w s = (some k, s')) :
    ∃ allocs, s' = { s with allocs := allocs, searches := s'.searches } ∧
      (s'.searches = s.searches ∨ k = 0 ∧ s.searches.length < maxSearches ∧
        s'.searches = ⟨0, 0, zeroes, 0, false, []⟩ :: s.searches) := by
  unfold newSearch at h
  dsimp only at h
  split at h
  · obtain ⟨_, rfl⟩ := Prod.mk.inj h
    exact ⟨s.allocs, rfl, Or.inl rfl⟩
  · by_cases hroom : s.searches.length < maxSearches
    · rw [if_pos hroom] at h
      dsimp only at h
      cases hgrant : w.granted s.allocs with
      | true =>
        rw [hgrant, if_pos rfl] at h
        obtain ⟨hk, rfl⟩ := Prod.mk.inj h
        exact ⟨s.allocs + 1, rfl, Or.inr ⟨by simpa using hk.symm, hroom, rfl⟩⟩
      | false =>
        rw [hgrant, if_neg (by simp)] at h
        obtain ⟨_, rfl⟩ := Prod.mk.inj h
        exact ⟨s.allocs + 1, rfl, Or.inl rfl⟩
    · rw [if_neg hroom] at h
      dsimp only at h
      rw [if_neg (by simp)] at h
      obtain ⟨_, rfl⟩ := Prod.mk.inj h
      exact ⟨s.allocs, rfl, Or.inl rfl⟩

theorem map_modify_set {α β : Type} {g : α → β} {f : α → α} {c : β}
    (hf : ∀ a, g (f a) = c) (xs : List α)
    (k : Nat) : (xs.modify k f).map g = (xs.map g).set k c := by
  apply List.ext_getElem?
  intro m
  rw [List.getElem?_map, List.getElem?_modify, List.getElem?_set, List.getElem?_map]
  by_cases hm : k = m
  · subst hm
    by_cases hlt : k < xs.length
    · simp [hlt, hf]
    · simp [hlt]
  · simp [hm]

/-- A search that starts takes a slot of its own. -/
theorem sound_slot (hs : Sound s) {k : Nat} {id : Id} (hnew : ∀ sr ∈ s.searches, sr.id ≠ id)
    (h : newSearch w s = (some k, s')) (tid : UInt16) :
    Sound { s'.modifySearch k fun sr => ⟨tid, 0, id, sr.port, false, []⟩ with searchId :=
      s'.searchId + 1 } := by
  obtain ⟨allocs, heq, hcase⟩ := newSearch_some h
  have hempty : ∀ port, SearchOk ⟨tid, 0, id, port, false, []⟩ :=
    fun port => ⟨List.Pairwise.nil, Nat.zero_le _, by simp⟩
  have hids : id ∉ s.searches.map Search.id := by
    intro hmem
    obtain ⟨sr, hsr, hid⟩ := List.mem_map.mp hmem
    exact hnew sr hsr hid
  rw [heq]
  simp only [State.modifySearch]
  refine ⟨hs.table, ?_, ?_, ?_, hs.storage⟩
  · intro sr hsr
    rcases hcase with hsame | ⟨rfl, _, hmore⟩
    · rw [hsame] at hsr
      rcases mem_modify hsr with hsr | ⟨sr', _, rfl⟩
      · exact hs.searches sr hsr
      · exact hempty sr'.port
    · rw [hmore, List.modify_zero_cons] at hsr
      rcases List.mem_cons.mp hsr with rfl | hsr
      · exact hempty 0
      · exact hs.searches sr hsr
  · simp only [List.length_modify]
    rcases hcase with hsame | ⟨rfl, hroom, hmore⟩
    · rw [hsame]
      exact hs.slots
    · rw [hmore]
      exact hroom
  · dsimp only
    rw [map_modify_set (c := id) (fun _ => rfl)]
    rcases hcase with hsame | ⟨rfl, _, hmore⟩
    · rw [hsame]
      exact hs.targets.set hids
    · rw [hmore, List.map_cons, List.set_cons_zero]
      exact List.nodup_cons.mpr ⟨hids, hs.targets⟩

theorem sound_aim (hs : Sound s) (k : Nat) (port : UInt16) :
    Sound (s.modifySearch k fun sr => { sr with port := port }) := by
  refine ⟨hs.table, ?_, by simpa [State.modifySearch] using hs.slots, ?_, hs.storage⟩
  · intro sr hsr
    rcases mem_modify hsr with hsr | ⟨sr', hsr', rfl⟩
    · exact hs.searches sr hsr
    · have hold := hs.searches sr' hsr'
      exact ⟨hold.sorted, hold.room, hold.tokens⟩
  · have hids : (s.searches.modify k fun sr => { sr with port := port }).map Search.id =
        s.searches.map Search.id := by
      apply map_modify_of_eq
      exact fun _ => rfl
    exact hids ▸ hs.targets

theorem Ask.sound (hs : Sound s) (h : Ask w s s') : Sound s' := by
  cases h with
  | moves _ h => exact h.sound hs
  | slot s1 k id hnew h => exact sound_slot hs hnew h _
  | aim k port => exact sound_aim hs k port

theorem Turn.sound (hs : Sound s) (h : Turn w s s') : Sound s' := by
  cases h with
  | ask _ h => exact h.sound hs
  | limit => exact sound_tokenBucket hs
  | flush id sa => exact sound_flush hs id sa
  | store sa m _ => exact sound_store hs _ sa _
  | rotate _ => exact ⟨hs.table, hs.searches, hs.slots, hs.targets, hs.storage⟩
  | expire t _ _ => exact sound_expire hs t

theorem Turns.sound (h : Turns w s s') (hs : Sound s) : Sound s' :=
  h.keeps (fun _ _ hs ht => ht.sound hs) hs

end Turns

section Calls

variable (w : World) {s : State}

theorem Sound.boot : Sound State.boot :=
  ⟨TableOk.nil _, fun _ hsr => absurd hsr List.not_mem_nil, Nat.zero_le _, List.nodup_nil,
    StorageOk.nil⟩

/-- `dht_init` refuses, or has no memory, or starts. -/
theorem dhtInit_cases (s : State) (now : Int) (id : Id) (v : Vector UInt8 4) :
    (dhtInit w s now id v).2 = s ∨
    s.opened = false ∧ s.buckets = [] ∧
      ((dhtInit w s now id v).2 = { s with searches := [], storage := [], allocs := s.allocs + 1 } ∨
        ∃ s1 draws r, Moves (started w { s with
          searches := [], storage := [], allocs := s.allocs + 1 } now id v) s1 ∧
          (dhtInit w s now id v).2 =
            { s1 with draws := draws, expireStuffTime := s1.now + 120 + r % 240 }) := by
  unfold dhtInit
  split
  · exact Or.inl rfl
  next hclosed =>
  have hboth : s.opened = false ∧ s.buckets = [] := by simpa using hclosed
  refine Or.inr ⟨hboth.1, hboth.2, ?_⟩
  dsimp only
  split
  · exact Or.inl rfl
  · obtain ⟨s1, h1, heq⟩ := moves_expireBuckets w
      (started w { s with searches := [], storage := [], allocs := s.allocs + 1 } now id v)
    refine Or.inr ⟨s1, s1.draws + 1, (w.random s1.draws : Nat), h1, ?_⟩
    rw [heq]
    rfl

theorem sound_dhtInit (hs : Sound s) (now : Int) (id : Id) (v : Vector UInt8 4) :
    Sound (dhtInit w s now id v).2 := by
  have hnone : SearchesOk [] := fun _ hsr => absurd hsr List.not_mem_nil
  rcases dhtInit_cases w s now id v with h | ⟨_, hempty, h | ⟨s1, draws, r, h1, h⟩⟩ <;> rw [h]
  · exact hs
  · refine ⟨?_, hnone, Nat.zero_le _, List.nodup_nil, StorageOk.nil⟩
    simp only [State.Good, hempty]
    exact TableOk.nil _
  · -- the table is the one bucket over all ids
    have hstart :
      Sound (started w { s with searches := [], storage := [], allocs := s.allocs + 1 } now id v) :=
      ⟨TableOk.single id 0, hnone, Nat.zero_le _, List.nodup_nil, StorageOk.nil⟩
    have h2 := h1.sound hstart
    exact ⟨h2.table, h2.searches, h2.slots, h2.targets, h2.storage⟩

theorem sound_dhtUninit (hs : Sound s) : Sound (dhtUninit s) := by
  unfold dhtUninit
  split
  · exact hs
  · exact ⟨TableOk.nil _, fun _ hsr => absurd hsr List.not_mem_nil, Nat.zero_le _, List.nodup_nil,
      StorageOk.nil⟩

theorem sound_call (hs : Sound s) (c : Call) : Sound (call w s c) := by
  cases c with
  | init now id v => exact sound_dhtInit w hs now id v
  | uninit => exact sound_dhtUninit hs
  | periodic now datagram =>
    refine (turns_dhtPeriodic w s now datagram hs.table).sound ?_
    exact ⟨hs.table, hs.searches, hs.slots, hs.targets, hs.storage⟩
  | search id port => exact (asks_dhtSearch w s id port).turns.sound hs
  | pingNode sa => exact (moves_sendPing s sa).sound hs
  | insertNode id sa => exact (moves_newNode w s id sa 0 hs.table).sound hs

theorem sound_run (hs : Sound s) (calls : List Call) : Sound (run w s calls) := by
  induction calls generalizing s with
  | nil => exact hs
  | cons c calls ih => exact ih (sound_call w hs c)

/-- A state between two calls, or inside a call that has the time and has taken some turns. -/
def Reached (s : State) : Prop := ∃ calls now, Turns w { run w State.boot calls with now := now } s

variable {w}

theorem Reached.sound (h : Reached w s) : Sound s := by
  obtain ⟨calls, now, hturns⟩ := h
  have hs := sound_run w Sound.boot calls
  exact hturns.sound ⟨hs.table, hs.searches, hs.slots, hs.targets, hs.storage⟩

theorem reached_run (w : World) (calls : List Call) : Reached w (run w State.boot calls) :=
  ⟨calls, (run w State.boot calls).now, .refl⟩

/-- From a state that is reached, a call of `new_node` reaches another one. -/
theorem Reached.newNode (h : Reached w s) (id : Id) (sa : Endpoint) (confirm : Nat) :
    Reached w (newNode w s id sa confirm) := by
  obtain ⟨calls, now, hturns⟩ := h
  exact ⟨calls, now, hturns.trans
    (moves_newNode w s id sa confirm (Reached.sound ⟨calls, now, hturns⟩).table).turns⟩

end Calls

end Dht
