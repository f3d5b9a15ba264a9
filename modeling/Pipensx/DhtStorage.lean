import Mathlib.Data.List.Perm.Basic
import Pipensx.DhtTurns

/-!
# Stored peers

What `storage_store` and `expire_storage` keep: one storage for each hash, each peer once, and the
bounds. Expiry keeps exactly the peers that are fresh.
-/

namespace Dht

/-- What tells one peer from another. -/
def Peer.key (p : Peer) : UInt16 × Vector UInt8 4 := (p.port, p.ip)

structure PeersOk (st : Storage) : Prop where
  room : st.peers.length ≤ st.maxpeers
  bound : st.maxpeers ≤ maxPeers
  distinct : (st.peers.map Peer.key).Nodup

structure StorageOk (storage : List Storage) : Prop where
  distinct : (storage.map Storage.id).Nodup
  room : storage.length ≤ maxHashes
  peers : ∀ st ∈ storage, PeersOk st

theorem StorageOk.nil : StorageOk [] := ⟨List.nodup_nil, Nat.zero_le _, by simp⟩

def fresh (now : Int) (p : Peer) : Bool := now - 32 * 60 ≤ p.time

variable {now : Int} {granted : Nat → Bool} {allocs : Nat} {st : Storage} {ip : Vector UInt8 4}
  {port : UInt16}

theorem findIdx_peer_none (h : st.peers.findIdx? (fun p => p.port == port && p.ip == ip) = none) :
    (port, ip) ∉ st.peers.map Peer.key := by
  intro hmem
  obtain ⟨p, hp, hkey⟩ := List.mem_map.mp hmem
  have := List.findIdx?_eq_none_iff.mp h p hp
  simp only [Peer.key, Prod.mk.injEq] at hkey
  simp [hkey.1, hkey.2] at this

theorem PeersOk.append (h : PeersOk st) (hnew : (port, ip) ∉ st.peers.map Peer.key) {m : Nat}
    (hroom : st.peers.length < m) (hbound : m ≤ maxPeers) :
    PeersOk ⟨st.id, m, st.peers ++ [⟨now, ip, port⟩]⟩ := by
  refine ⟨by simpa using hroom, hbound, ?_⟩
  simp only [List.map_append, List.map_cons, List.map_nil]
  exact List.nodup_append'.mpr ⟨h.distinct, List.nodup_singleton _, by simpa [Peer.key] using hnew⟩

variable (now granted allocs ip port) in
theorem storePeer_ok (h : PeersOk st) : PeersOk (storePeer now granted allocs st ip port).2.1 ∧
    (storePeer now granted allocs st ip port).2.1.id = st.id := by
  unfold storePeer
  cases hfind : st.peers.findIdx? (fun p => p.port == port && p.ip == ip) with
  | some i =>
    have hkeys : (st.peers.modify i fun p => { p with time := now }).map Peer.key =
      st.peers.map Peer.key := by
      apply map_modify_of_eq
      exact fun _ => rfl
    exact ⟨⟨by simpa using h.room, h.bound, hkeys ▸ h.distinct⟩, rfl⟩
  | none =>
    have hnew := findIdx_peer_none hfind
    dsimp only
    split
    · next hfull =>
      split
      · exact ⟨h, rfl⟩
      next hmore =>
      split
      · exact ⟨h, rfl⟩
      · have hroom := h.room
        refine ⟨h.append hnew ?_ (Nat.min_le_right _ _), rfl⟩
        refine Nat.lt_of_le_of_lt hroom (lt_min ?_ (by omega))
        split <;> omega
    · next hspare => exact ⟨h.append hnew (by omega) h.bound, rfl⟩

/-- A peer that is stored afterwards was there, or is the one that has announced itself. -/
theorem storePeer_mem {p : Peer} (hp : p ∈ (storePeer now granted allocs st ip port).2.1.peers) :
    (∃ q ∈ st.peers, q.key = p.key ∧ (p = q ∨ p = { q with time := now } ∧ p.key = (port, ip))) ∨
      p = ⟨now, ip, port⟩ := by
  have hadd : ∀ peers, p ∈ peers ++ [(⟨now, ip, port⟩ : Peer)] →
      p ∈ peers ∨ p = ⟨now, ip, port⟩ := by simp
  unfold storePeer at hp
  cases hfind : st.peers.findIdx? (fun p => p.port == port && p.ip == ip) with
  | some i =>
    simp only [hfind] at hp
    obtain ⟨k, hk⟩ := List.mem_iff_getElem?.mp hp
    rw [List.getElem?_modify] at hk
    left
    cases hold : st.peers[k]? with
    | none => simp [hold] at hk
    | some q =>
      have hq := List.mem_of_getElem? hold
      by_cases hik : i = k
      · obtain rfl : { q with time := now } = p := by simpa [hold, hik] using hk
        obtain ⟨hlt, hsame, _⟩ := List.findIdx?_eq_some_iff_getElem.mp hfind
        have hqi : st.peers[i] = q := by
          subst hik
          exact List.getElem_eq_iff hlt |>.mpr hold
        rw [hqi] at hsame
        simp only [Bool.and_eq_true, beq_iff_eq] at hsame
        exact ⟨q, hq, rfl, Or.inr ⟨rfl, by simp [Peer.key, hsame.1, hsame.2]⟩⟩
      · obtain rfl : q = p := by simpa [hold, hik] using hk
        exact ⟨q, hq, rfl, Or.inl rfl⟩
  | none =>
    simp only [hfind] at hp
    split at hp
    · split at hp
      · exact Or.inl ⟨p, hp, rfl, Or.inl rfl⟩
      split at hp
      · exact Or.inl ⟨p, hp, rfl, Or.inl rfl⟩
      · exact (hadd _ hp).imp (fun h => ⟨p, h, rfl, Or.inl rfl⟩) id
    · exact (hadd _ hp).imp (fun h => ⟨p, h, rfl, Or.inl rfl⟩) id

theorem findStorage_some {id : Id} {storage : List Storage} {k : Nat}
    (h : findStorage id storage = some k) : ∃ st, storage[k]? = some st ∧ st.id = id := by
  obtain ⟨hlt, hsame, _⟩ := List.findIdx?_eq_some_iff_getElem.mp h
  refine ⟨storage[k], List.getElem?_eq_getElem hlt, ?_⟩
  exact ((idCmp_eq_zero_iff _ _).mp (by simpa using hsame)).symm

theorem findStorage_none {id : Id} {storage : List Storage} (h : findStorage id storage = none) :
    id ∉ storage.map Storage.id := by
  intro hmem
  obtain ⟨st, hst, rfl⟩ := List.mem_map.mp hmem
  have := List.findIdx?_eq_none_iff.mp h st hst
  simp [(idCmp_eq_zero_iff st.id st.id).mpr rfl] at this

/-- What `storage_store` does: nothing, or a peer goes into the storage of the hash, an old one or a
new one. -/
theorem storageStore_cases (w : World) (s : State) (id : Id) (sa : Endpoint) (port : UInt16) :
    (storageStore w s id sa port).2.storage = s.storage ∨
      ∃ storage k st, (storage = s.storage ∨ id ∉ s.storage.map Storage.id ∧
          s.storage.length < maxHashes ∧ storage = ⟨id, 0, []⟩ :: s.storage) ∧
        storage[k]? = some st ∧ st.id = id ∧ ∃ allocs, (storageStore w s id sa port).2.storage =
          storage.set k (storePeer s.now w.granted allocs st (ipOf sa) port).2.1 := by
  unfold storageStore
  cases hfind : findStorage id s.storage with
  | some k =>
    obtain ⟨st, hst, hid⟩ := findStorage_some hfind
    right
    simp only [hst]
    exact ⟨s.storage, k, st, Or.inl rfl, hst, hid, s.allocs, rfl⟩
  | none =>
    have hnew := findStorage_none hfind
    dsimp only
    by_cases hfull : s.storage.length ≥ maxHashes
    · left
      simp [hfull]
    · rw [if_neg hfull]
      cases hgrant : w.granted s.allocs with
      | false =>
        left
        simp
      | true =>
        right
        refine ⟨⟨id, 0, []⟩ :: s.storage, 0, ⟨id, 0, []⟩,
          Or.inr ⟨hnew, by omega, rfl⟩, rfl, rfl, ?_⟩
        exact ⟨s.allocs + 1, by simp⟩

theorem StorageOk.set {storage : List Storage} {k : Nat} {st st' : Storage} (h : StorageOk storage)
    (hk : storage[k]? = some st) (hid : st'.id = st.id) (hok : PeersOk st') :
    StorageOk (storage.set k st') := by
  refine ⟨?_, by simpa using h.room, ?_⟩
  · have hsame : (storage.set k st').map Storage.id = storage.map Storage.id := by
      apply List.ext_getElem?
      intro m
      rw [List.getElem?_map, List.getElem?_map, List.getElem?_set]
      by_cases hm : k = m
      · subst hm
        have hlt := (List.getElem?_eq_some_iff.mp hk).1
        rw [if_pos rfl, if_pos hlt, hk]
        simp [hid]
      · simp [hm]
    rw [hsame]
    exact h.distinct
  · intro st'' hst
    rcases List.mem_or_eq_of_mem_set hst with hst | rfl
    · exact h.peers st'' hst
    · exact hok

theorem storageStore_ok (w : World) {s : State} (id : Id) (sa : Endpoint) (port : UInt16)
    (h : StorageOk s.storage) : StorageOk (storageStore w s id sa port).2.storage := by
  rcases storageStore_cases w s id sa port with hsame | ⟨storage, k, st, hstart, hst,
    hid, allocs, heq⟩
  · rw [hsame]
    exact h
  · have hok : StorageOk storage := by
      rcases hstart with rfl | ⟨hnew, hroom, rfl⟩
      · exact h
      · refine ⟨List.nodup_cons.mpr ⟨hnew, h.distinct⟩, hroom, ?_⟩
        intro st' hst'
        rcases List.mem_cons.mp hst' with rfl | hst'
        · exact ⟨Nat.le_refl _, Nat.zero_le _, List.nodup_nil⟩
        · exact h.peers st' hst'
    have hpeer := storePeer_ok s.now w.granted allocs (ipOf sa) port
      (hok.peers st (List.mem_of_getElem? hst))
    rw [heq]
    exact hok.set hst hpeer.2 hpeer.1

/-- The last element in the place of another one. -/
theorem swapRemove_perm {α : Type} {xs : List α} {i : Nat} {last : α} (hi : i < xs.length)
    (hlast : xs.getLast? = some last) : ((xs.set i last).dropLast).Perm (xs.eraseIdx i) := by
  have hne : xs ≠ [] := List.ne_nil_of_length_pos (by omega)
  obtain ⟨front, rfl⟩ : ∃ front, xs = front ++ [last] := by
    refine ⟨xs.dropLast, ?_⟩
    have := List.dropLast_append_getLast hne
    rw [List.getLast?_eq_some_getLast hne, Option.some.injEq] at hlast
    rw [← hlast]
    exact this.symm
  by_cases hend : i = front.length
  · subst hend
    simp [List.eraseIdx_append]
  · have hi' : i < front.length := by
      simp only [List.length_append, List.length_singleton] at hi
      omega
    rw [List.set_append_left _ _ hi', List.dropLast_concat, List.eraseIdx_append_of_lt_length hi']
    exact (List.set_perm_cons_eraseIdx hi' last).trans (List.perm_append_singleton _ _).symm

theorem filter_eraseIdx_of_neg {α : Type} {p : α → Bool} {xs : List α} {i : Nat} {a : α}
    (ha : xs[i]? = some a) (hp : p a = false) : (xs.eraseIdx i).filter p = xs.filter p := by
  obtain ⟨hi, rfl⟩ := List.getElem?_eq_some_iff.mp ha
  have hsplit : xs = xs.take i ++ xs[i] :: xs.drop (i + 1) := by
    rw [← List.drop_eq_getElem_cons hi, List.take_append_drop]
  calc (xs.eraseIdx i).filter p
      = (xs.take i ++ xs[i] :: xs.drop (i + 1)).filter p := by
        rw [List.eraseIdx_eq_take_drop_succ, List.filter_append, List.filter_append,
          List.filter_cons_of_neg (by simp [hp])]
    _ = xs.filter p := by rw [← hsplit]

/-- What is left is fresh, and nothing fresh goes. -/
theorem expirePeers_perm (now : Int) (fuel i : Nat) (peers : List Peer)
    (hfuel : peers.length ≤ i + fuel) (hfront : ∀ p ∈ peers.take i, fresh now p = true) :
    (expirePeers now fuel i peers).Perm (peers.filter (fresh now)) := by
  have hdone : ∀ peers : List Peer, (∀ p ∈ peers, fresh now p = true) →
    peers.Perm (peers.filter (fresh now)) := by
    intro peers h
    rw [List.filter_eq_self.mpr h]
  induction fuel generalizing i peers with
  | zero =>
    rw [List.take_of_length_le (by omega)] at hfront
    exact hdone peers hfront
  | succ fuel ih =>
    rw [expirePeers]
    cases hp : peers[i]? with
    | none =>
      rw [List.take_of_length_le (by simpa using hp)] at hfront
      exact hdone peers hfront
    | some p =>
      obtain ⟨hi, hget⟩ := List.getElem?_eq_some_iff.mp hp
      have hne : peers ≠ [] := List.ne_nil_of_length_pos (by omega)
      have hlast := List.getLast?_eq_some_getLast hne
      rw [hlast]
      dsimp only
      split
      · next hold =>
        have hperm := swapRemove_perm hi hlast
        have hlength := hperm.length_eq
        rw [List.length_eraseIdx_of_lt hi] at hlength
        have hstale : fresh now p = false := by
          rw [fresh, decide_eq_false_iff_not]
          omega
        rw [← filter_eraseIdx_of_neg hp hstale]
        refine (ih i _ (by omega) ?_).trans (hperm.filter _)
        -- the first peers stay where they are
        intro q hq
        apply hfront q
        obtain ⟨k, hk⟩ := List.mem_iff_getElem?.mp hq
        rw [List.getElem?_take] at hk
        split at hk
        · next hlt =>
          rw [List.getElem?_dropLast] at hk
          split at hk
          · rw [List.getElem?_set_ne (by omega)] at hk
            refine List.mem_of_getElem? (i := k) ?_
            rwa [List.getElem?_take_of_lt hlt]
          · simp at hk
        · simp at hk
      · next hyoung =>
        refine ih (i + 1) peers (by omega) ?_
        intro q hq
        rw [List.take_add_one, hp] at hq
        rcases List.mem_append.mp hq with hq | hq
        · exact hfront q hq
        · obtain rfl : q = p := by simpa using hq
          simpa [fresh] using hyoung

theorem expirePeers_ok (now : Int) (h : PeersOk st) :
    PeersOk { st with peers := expirePeers now st.peers.length 0 st.peers } := by
  have hperm := expirePeers_perm now st.peers.length 0 st.peers (by omega) (by simp)
  refine ⟨?_, h.bound, ?_⟩
  · exact Nat.le_trans (hperm.length_eq ▸ List.length_filter_le _ _) h.room
  · exact (hperm.map Peer.key).nodup_iff.mpr (h.distinct.sublist (List.filter_sublist.map _))

theorem expireStorage_ok {s : State} (h : StorageOk s.storage) :
    StorageOk (expireStorage s).storage := by
  have hids : (s.storage.map fun st =>
      { st with peers := expirePeers s.now st.peers.length 0 st.peers }).map Storage.id =
      s.storage.map Storage.id := by simp [Function.comp_def]
  refine ⟨?_, ?_, ?_⟩
  · exact (hids ▸ h.distinct).sublist (List.filter_sublist.map _)
  · have hlength := congrArg List.length hids
    simp only [List.length_map] at hlength
    exact Nat.le_trans (List.length_filter_le _ _) (by simpa using h.room)
  · intro st hst
    obtain ⟨st', hst', rfl⟩ := List.mem_map.mp (List.mem_filter.mp hst).1
    exact expirePeers_ok s.now (h.peers st' hst')

/-- After an expiry no peer is stale and no storage is empty. -/
theorem expireStorage_fresh (s : State) {st : Storage} (hst : st ∈ (expireStorage s).storage) :
    st.peers ≠ [] ∧ (∀ p ∈ st.peers, fresh s.now p = true) ∧
      ∃ st' ∈ s.storage, st'.id = st.id ∧ st.peers.Perm (st'.peers.filter (fresh s.now)) := by
  obtain ⟨hmem, hkept⟩ := List.mem_filter.mp hst
  obtain ⟨st', hst', rfl⟩ := List.mem_map.mp hmem
  have hperm := expirePeers_perm s.now st'.peers.length 0 st'.peers (by omega) (by simp)
  refine ⟨?_, ?_, st', hst', rfl, hperm⟩
  · simpa using hkept
  · intro p hp
    exact (List.mem_filter.mp (hperm.mem_iff.mp hp)).2

end Dht
