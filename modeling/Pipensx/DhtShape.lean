import Pipensx.DhtTable

/-!
# The shape of the routing table

The buckets are the cells of the id space halved towards our own id, and every node is in the bucket
of its id, once.
-/

namespace Dht

open SplitPath (Cell Path locate Holds)

/-- What the bucket that holds our id keeps of its capacity when it is split. -/
def half (maxCount : Nat) : Nat := max (maxCount / 2) 8

structure BucketOk (myid : Id) (cs : List Cell) (i : Nat) (b : Bucket) : Prop where
  count : b.count = b.nodes.length
  room : b.nodes.length ≤ b.maxCount
  distinct : (b.nodes.map Node.id).Nodup
  placed : ∀ n ∈ b.nodes, n.id ≠ myid ∧ locate (val n.id) cs = i

/-- The bucket with the index `i` holds our id; it is `[o, o + 2 ^ d)`. -/
def Own (myid : Id) (bs : List Bucket) (i o d : Nat) : Prop :=
  Path (val myid) half 0 160 128 (cells bs) i o d

structure TableOk (myid : Id) (bs : List Bucket) : Prop where
  shape : bs ≠ [] → ∃ i o d, Own myid bs i o d
  bucket : ∀ i b, bs[i]? = some b → BucketOk myid (cells bs) i b

variable {myid : Id} {bs : List Bucket} {i o d : Nat} {b : Bucket}

theorem TableOk.nil (myid : Id) : TableOk myid [] := ⟨fun h => absurd rfl h, by simp⟩

/-- The first bucket, over all ids. -/
theorem TableOk.single (myid : Id) (time : Int) :
    TableOk myid [⟨zeroes, 0, 128, time, [], none⟩] := by
  constructor
  · intro _
    refine ⟨0, 0, 160, ?_⟩
    have hzero : val zeroes = 0 := by decide
    simp only [Own, cells, List.map_cons, List.map_nil, hzero]
    exact Path.own (Nat.zero_le _) (by rw [Nat.zero_add]; exact val_lt myid)
  · intro i b hb
    cases i with
    | zero =>
      obtain rfl : _ = b := by simpa using hb
      exact ⟨rfl, Nat.zero_le _, List.nodup_nil, by simp⟩
    | succ i => simp at hb

section Finding

variable (h : TableOk myid bs)
include h

theorem TableOk.ordered : (cells bs).Pairwise (fun a b => a.first < b.first) := by
  by_cases hne : bs = []
  · subst hne
    exact List.Pairwise.nil
  · obtain ⟨i, o, d, hown⟩ := h.shape hne
    exact hown.ordered.2.2

theorem TableOk.holds (hne : bs ≠ []) (id : Id) :
    Holds (cells bs) (locate (val id) (cells bs)) (val id) := by
  obtain ⟨i, o, d, hown⟩ := h.shape hne
  obtain ⟨hhead, _, hpair⟩ := hown.ordered
  refine SplitPath.locate_holds hpair ?_
  cases hc : (cells bs).head? with
  | none => simp [hc] at hhead
  | some a =>
    have : a.first = 0 := by simpa [hc] using hhead
    exact ⟨a, rfl, by omega⟩

/-- The bucket that `find_bucket` finds is the one an id is in. -/
theorem TableOk.findBucket_iff {id : Id} {i : Nat} :
    findBucket id bs = some i ↔ inBucket id bs i = true := by
  by_cases hne : bs = []
  · subst hne
    simp [findBucket, inBucket]
  rw [findBucket_eq id hne, inBucket_iff]
  constructor
  · intro heq
    obtain rfl := Option.some.inj heq
    exact h.holds hne id
  · intro hholds
    rw [(h.holds hne id).unique h.ordered hholds]

theorem TableOk.find_lt {id : Id} {i : Nat} (hfind : findBucket id bs = some i) :
    ∃ b, bs[i]? = some b := by
  have hin := h.findBucket_iff.mp hfind
  cases hb : bs[i]? with
  | none => simp [inBucket, hb] at hin
  | some b => exact ⟨b, rfl⟩

theorem TableOk.find_node {n : Node} (hb : bs[i]? = some b) (hn : n ∈ b.nodes) :
    findBucket n.id bs = some i := by
  have hne : bs ≠ [] := by
    intro hnil
    simp [hnil] at hb
  rw [findBucket_eq n.id hne, ((h.bucket i b hb).placed n hn).2]

end Finding

theorem Own.holds (h : Own myid bs i o d) : Holds (cells bs) i (val myid) := by
  obtain ⟨hcell, hnext⟩ := h.own_cell
  obtain ⟨_, _, hlo, hhi, _⟩ := h.inside
  refine ⟨⟨_, hcell, hlo⟩, ?_⟩
  intro a ha
  rcases hnext with ⟨hnone, _⟩ | ⟨a', ha', hfirst⟩
  · simp [hnone] at ha
  · obtain rfl : a' = a := by simpa [ha] using ha'.symm
    omega

theorem Own.inBucket_iff (h : Own myid bs i o d) {k : Nat} : inBucket myid bs k = true ↔ k = i := by
  rw [Dht.inBucket_iff]
  constructor
  · intro hk
    exact hk.unique h.ordered.2.2 h.holds
  · rintro rfl
    exact h.holds

theorem cells_modify {f : Bucket → Bucket} (hfirst : ∀ b, (f b).first = b.first)
    (hcap : ∀ b, (f b).maxCount = b.maxCount) (bs : List Bucket) (i : Nat) :
    cells (bs.modify i f) = cells bs := by
  apply List.ext_getElem?
  intro k
  rw [cells_getElem?, cells_getElem?, List.getElem?_modify]
  cases bs[k]? with
  | none => rfl
  | some b => by_cases hk : i = k <;> simp [hk, hfirst, hcap]

/-- A change that leaves the outline of one bucket sound leaves the table sound. -/
theorem TableOk.modify (h : TableOk myid bs) {f : Bucket → Bucket}
    (hfirst : ∀ b, (f b).first = b.first) (hcap : ∀ b, (f b).maxCount = b.maxCount)
    (hok : ∀ b, bs[i]? = some b → BucketOk myid (cells bs) i b → BucketOk myid (cells bs) i (f b)) :
    TableOk myid (bs.modify i f) := by
  have hcells := cells_modify hfirst hcap bs i
  constructor
  · intro hne
    have hne' : bs ≠ [] := by
      rintro rfl
      simp at hne
    obtain ⟨k, o, d, hown⟩ := h.shape hne'
    exact ⟨k, o, d, by rw [Own, hcells]; exact hown⟩
  · intro k b hb
    rw [hcells]
    rw [List.getElem?_modify] at hb
    by_cases hk : i = k
    · subst hk
      cases hold : bs[i]? with
      | none => simp [hold] at hb
      | some b' =>
        obtain rfl : f b' = b := by simpa [hold] using hb
        exact hok b' hold (h.bucket i b' hold)
    · have hb' : bs[k]? = some b := by simpa [hk] using hb
      exact h.bucket k b hb'

/-- Times, counts of pings and addresses are not part of the shape. -/
theorem BucketOk.touch {cs : List Cell} {b' : Bucket} (h : BucketOk myid cs i b)
    (hcap : b'.maxCount = b.maxCount) (hcount : b'.count = b.count)
    (hids : b'.nodes.map Node.id = b.nodes.map Node.id) : BucketOk myid cs i b' := by
  have hlength : b'.nodes.length = b.nodes.length := by
    have := congrArg List.length hids
    simpa using this
  refine ⟨by rw [hcount, hlength, h.count], by rw [hlength, hcap]; exact h.room,
    hids ▸ h.distinct, ?_⟩
  intro n hn
  have hmem : n.id ∈ b.nodes.map Node.id := hids ▸ List.mem_map_of_mem hn
  obtain ⟨n', hn', hid⟩ := List.mem_map.mp hmem
  rw [← hid]
  exact h.placed n' hn'

theorem map_modify_of_eq {α β : Type} {g : α → β} {f : α → α}
    (hf : ∀ a, g (f a) = g a) (xs : List α) (j : Nat) : (xs.modify j f).map g = xs.map g := by
  apply List.ext_getElem?
  intro k
  rw [List.getElem?_map, List.getElem?_map, List.getElem?_modify]
  cases xs[k]? with
  | none => rfl
  | some a => by_cases hk : j = k <;> simp [hk, hf]

/-- A new node at the head of a bucket that is not full. -/
theorem BucketOk.cons {cs : List Cell} {n : Node} (h : BucketOk myid cs i b)
    (hroom : b.count < b.maxCount)
    (hnew : n.id ∉ b.nodes.map Node.id) (hself : n.id ≠ myid) (hplace : locate (val n.id) cs = i) :
    BucketOk myid cs i { b with nodes := n :: b.nodes, count := b.count + 1 } := by
  have hcount := h.count
  refine ⟨by simp [hcount], ?_, List.nodup_cons.mpr ⟨hnew, h.distinct⟩, ?_⟩
  · simp only [List.length_cons]
    omega
  · intro m hm
    rcases List.mem_cons.mp hm with rfl | hm
    · exact ⟨hself, hplace⟩
    · exact h.placed m hm

/-- A node that takes the place of another one. -/
theorem BucketOk.replace {cs : List Cell} {n : Node} (j : Nat) (h : BucketOk myid cs i b)
    (hnew : n.id ∉ b.nodes.map Node.id) (hself : n.id ≠ myid) (hplace : locate (val n.id) cs = i) :
    BucketOk myid cs i { b with nodes := b.nodes.modify j fun _ => n } := by
  refine ⟨by simp [h.count], by simpa using h.room, ?_, ?_⟩
  · by_cases hj : j < b.nodes.length
    · simp only
      rw [List.modify_eq_take_cons_drop hj]
      have hd := h.distinct
      rw [← List.take_append_drop j b.nodes, List.drop_eq_getElem_cons hj] at hd
      simp only [List.map_append, List.map_cons] at hd ⊢
      rw [List.nodup_middle] at hd ⊢
      refine List.nodup_cons.mpr ⟨?_, (List.nodup_cons.mp hd).2⟩
      rw [← List.map_append]
      intro hmem
      obtain ⟨m, hm, hid⟩ := List.mem_map.mp hmem
      apply hnew
      rw [← hid]
      apply List.mem_map_of_mem
      rcases List.mem_append.mp hm with hm | hm
      · exact List.mem_of_mem_take hm
      · exact List.mem_of_mem_drop hm
    · simp only
      rw [List.modify_eq_self (by omega)]
      exact h.distinct
  · intro m hm
    obtain ⟨k, hk⟩ := List.mem_iff_getElem?.mp hm
    simp only [List.getElem?_modify] at hk
    cases hold : b.nodes[k]? with
    | none => simp [hold] at hk
    | some m' =>
      by_cases hkj : j = k
      · obtain rfl : n = m := by simpa [hold, hkj] using hk
        exact ⟨hself, hplace⟩
      · obtain rfl : m' = m := by simpa [hold, hkj] using hk
        exact h.placed m' (List.mem_of_getElem? hold)

/-- Some nodes dropped. -/
theorem BucketOk.filter {cs : List Cell} (p : Node → Bool) (h : BucketOk myid cs i b) :
    BucketOk myid cs i
      { b with nodes := b.nodes.filter fun n => !p n,
               count := b.count - (b.nodes.filter p).length } := by
  have hsplit := List.length_eq_length_filter_add (l := b.nodes) p
  refine ⟨?_, Nat.le_trans (List.length_filter_le _ _) h.room, ?_, ?_⟩
  · have := h.count
    simp only
    omega
  · exact h.distinct.sublist (List.filter_sublist.map _)
  · intro n hn
    exact h.placed n (List.mem_filter.mp hn).1

/-- The middle of our bucket, and what is known of its interval. -/
theorem Own.middle (h : Own myid bs i o d) (hb : bs[i]? = some b) :
    val b.first = o ∧ b.maxCount = half^[160 - d] 128 ∧ d ≤ 160 ∧
      ((d = 0 ∧ bucketMiddle bs i b = none) ∨
        ∃ id, 0 < d ∧ bucketMiddle bs i b = some id ∧ val id = o + 2 ^ (d - 1)) := by
  obtain ⟨hcell, hnext⟩ := h.own_cell
  have halign := h.aligned (Nat.dvd_zero _)
  have hd := h.inside.2.2.2.2
  rw [cells_getElem?, hb] at hcell
  simp only [Option.map_some, Option.some.injEq, Cell.mk.injEq] at hcell
  obtain ⟨hfirst, hcap⟩ := hcell
  have hnext' : (bs[i + 1]? = none ∧ val b.first + 2 ^ d = 2 ^ 160) ∨
      ∃ next, bs[i + 1]? = some next ∧ val next.first = val b.first + 2 ^ d := by
    rw [cells_getElem?] at hnext
    rw [hfirst]
    rcases hnext with ⟨hnone, hend⟩ | ⟨c, hc, hstart⟩
    · exact Or.inl ⟨by simpa using hnone, by omega⟩
    · obtain ⟨next, hnext, rfl⟩ := Option.map_eq_some_iff.mp hc
      exact Or.inr ⟨next, hnext, hstart⟩
  have hbit := bucketBit_eq hd (hfirst ▸ halign) hnext'
  refine ⟨hfirst, hcap, hd, ?_⟩
  rw [← hfirst]
  exact bucketMiddle_spec hbit hd (hfirst ▸ halign)

theorem cells_take (bs : List Bucket) (i : Nat) : cells (bs.take i) = (cells bs).take i := by
  simp [cells, List.map_take]

theorem cells_drop (bs : List Bucket) (i : Nat) : cells (bs.drop i) = (cells bs).drop i := by
  simp [cells, List.map_drop]

theorem cells_append (as bs : List Bucket) : cells (as ++ bs) = cells as ++ cells bs := by
  simp [cells]

/-- Both halves of a bucket that is split are empty, and one of them holds our id. -/
theorem Own.splitAt (h : Own myid bs i o (d + 1)) (hb : bs[i]? = some b) {newId : Id}
    (hmid : bucketMiddle bs i b = some newId) :
    ∃ old new i' o', splitAt myid bs i b newId = bs.take i ++ [old, new] ++ bs.drop (i + 1) ∧
      old.first = b.first ∧ old.nodes = [] ∧ old.count = 0 ∧ new.nodes = [] ∧ new.count = 0 ∧
      (i' = i ∨ i' = i + 1) ∧ Own myid (splitAt myid bs i b newId) i' o' d := by
  obtain ⟨hfirst, hcap, hd, hcase⟩ := h.middle hb
  obtain ⟨hzero, _⟩ | ⟨id, _, hsome, hval⟩ := hcase
  · omega
  obtain rfl : id = newId := by simpa [hsome] using hmid
  rw [Nat.add_sub_cancel] at hval
  have hi : (bs.take i).length = i := by
    rw [List.length_take]
    have := (List.getElem?_eq_some_iff.mp hb).1
    omega
  obtain ⟨hbelow, habove⟩ := h.split
  rw [Nat.sub_add_eq] at hbelow habove
  -- our id is in the first half exactly when it is below the middle
  have hin : ∀ old new : Bucket, old.first = b.first → new.first = id →
      (inBucket myid (bs.take i ++ [old, new] ++ bs.drop (i + 1)) i = true ↔
        val myid < o + 2 ^ d) := by
    intro old new hold hnew
    rw [Dht.inBucket_iff]
    have h0 : (bs.take i ++ [old, new] ++ bs.drop (i + 1))[i]? = some old := by
      rw [List.append_assoc, List.getElem?_append_right (by omega), hi]
      simp
    have h1 : (bs.take i ++ [old, new] ++ bs.drop (i + 1))[i + 1]? = some new := by
      rw [List.append_assoc, List.getElem?_append_right (by omega), hi]
      simp
    simp only [Holds, cells_getElem?, h0, h1, Option.map_some, Option.some.injEq, exists_eq_left',
      forall_eq', hold, hnew, hfirst, hval]
    exact ⟨fun hboth => hboth.2, fun hlt => ⟨h.inside.2.2.1, hlt⟩⟩
  have hhalf : ∀ n, max (n / 2) 8 = half n := fun _ => rfl
  unfold Dht.splitAt
  dsimp only
  by_cases hme : val myid < o + 2 ^ d
  · rw [if_pos ((hin ⟨b.first, 0, b.maxCount, b.time, [], none⟩ ⟨id, 0, 0, b.time, [], none⟩ rfl
      rfl).mpr hme)]
    refine ⟨_, _, i, o, rfl, rfl, rfl, rfl, rfl, rfl, Or.inl rfl, ?_⟩
    rw [Own, cells_append, cells_append, cells_take, cells_drop]
    simpa [cells, hfirst, hval, hcap, hhalf, Nat.sub_add_eq] using hbelow hme
  · rw [if_neg (fun hyes => hme ((hin ⟨b.first, 0, b.maxCount, b.time, [], none⟩
      ⟨id, 0, 0, b.time, [], none⟩ rfl rfl).mp hyes))]
    refine ⟨_, _, i + 1, o + 2 ^ d, rfl, rfl, rfl, rfl, rfl, rfl, Or.inr rfl, ?_⟩
    rw [Own, cells_append, cells_append, cells_take, cells_drop]
    simpa [cells, hfirst, hval, hcap, hhalf, Nat.sub_add_eq] using habove (Nat.le_of_not_lt hme)

/-- Where an id is that was in another bucket than the one that is split. -/
theorem holds_split {old : Bucket} (new : Bucket) {k x : Nat} (hi : i < bs.length)
    (hb : bs[i]? = some b) (hold : old.first = b.first) (hne : k ≠ i) (hk : Holds (cells bs) k x) :
    Holds (cells (bs.take i ++ [old, new] ++ bs.drop (i + 1))) (if k < i then k else k + 1) x := by
  have hlen : (bs.take i).length = i := by
    rw [List.length_take]
    omega
  have hfront : ∀ m, m < i → (bs.take i ++ [old, new] ++ bs.drop (i + 1))[m]? = bs[m]? := by
    intro m hm
    rw [List.append_assoc, List.getElem?_append_left (by omega), List.getElem?_take_of_lt hm]
  have hat : (bs.take i ++ [old, new] ++ bs.drop (i + 1))[i]? = some old := by
    rw [List.append_assoc, List.getElem?_append_right (by omega), hlen]
    simp
  have hback : ∀ m, i < m → (bs.take i ++ [old, new] ++ bs.drop (i + 1))[m + 1]? = bs[m]? := by
    intro m hm
    have h2 : (bs.take i ++ [old, new]).length = i + 2 := by simp [hlen]
    rw [List.getElem?_append_right (by omega), h2, List.getElem?_drop]
    congr 1
    omega
  obtain ⟨⟨a, ha, hle⟩, hnext⟩ := hk
  rw [cells_getElem?] at ha
  simp only [cells_getElem?] at hnext
  by_cases hlt : k < i
  · rw [if_pos hlt]
    refine ⟨⟨a, by rw [cells_getElem?, hfront k hlt, ha], hle⟩, ?_⟩
    intro c hc
    rw [cells_getElem?] at hc
    by_cases hlast : k + 1 = i
    · rw [hlast, hat] at hc
      obtain rfl : _ = c := by simpa using hc
      have := hnext ⟨val b.first, b.maxCount⟩ (by rw [hlast, hb]; rfl)
      simpa [hold] using this
    · rw [hfront (k + 1) (by omega)] at hc
      exact hnext c hc
  · rw [if_neg hlt]
    refine ⟨⟨a, by rw [cells_getElem?, hback k (by omega), ha], hle⟩, ?_⟩
    intro c hc
    rw [cells_getElem?, hback (k + 1) (by omega)] at hc
    exact hnext c hc

theorem TableOk.split (h : TableOk myid bs) (hown : Own myid bs i o (d + 1)) (hb : bs[i]? = some b)
    {newId : Id} (hmid : bucketMiddle bs i b = some newId) :
    TableOk myid (splitAt myid bs i b newId) ∧
    ∃ i' o', Own myid (splitAt myid bs i b newId) i' o' d := by
  obtain ⟨old, new, i', o', heq, hold, hon, hoc, hnn, hnc, _, hown'⟩ := hown.splitAt hb hmid
  have hi := (List.getElem?_eq_some_iff.mp hb).1
  have hne : bs ≠ [] := List.ne_nil_of_length_pos (by omega)
  refine ⟨⟨fun _ => ⟨i', o', d, hown'⟩, ?_⟩, i', o', hown'⟩
  intro k c hc
  have hpair := hown'.ordered.2.2
  have hempty : ∀ e : Bucket, e.nodes = [] → e.count = 0 →
      BucketOk myid (cells (splitAt myid bs i b newId)) k e := by
    intro e hen hec
    refine ⟨by simp [hen, hec], by simp [hen], by simp [hen], by simp [hen]⟩
  have hlen : (bs.take i).length = i := by
    rw [List.length_take]
    omega
  -- a bucket that was there before has its nodes where they belong
  have hkept : ∀ m, m ≠ i → bs[m]? = some c → (k = if m < i then m else m + 1) →
      BucketOk myid (cells (splitAt myid bs i b newId)) k c := by
    intro m hm hcm hk
    have hok := h.bucket m c hcm
    refine ⟨hok.count, hok.room, hok.distinct, ?_⟩
    intro n hn
    obtain ⟨hself, hplace⟩ := hok.placed n hn
    refine ⟨hself, ?_⟩
    have hholds := h.holds hne n.id
    rw [hplace] at hholds
    have hnew := holds_split new hi hb hold hm hholds
    rw [← heq, ← hk] at hnew
    have hlocate : Holds (cells (splitAt myid bs i b newId))
        (locate (val n.id) (cells (splitAt myid bs i b newId))) (val n.id) := by
      refine SplitPath.locate_holds hpair ?_
      have hhead := hown'.ordered.1
      cases hc : (cells (splitAt myid bs i b newId)).head? with
      | none => simp [hc] at hhead
      | some a =>
        have : a.first = 0 := by simpa [hc] using hhead
        exact ⟨a, rfl, by omega⟩
    exact hlocate.unique hpair hnew
  rw [heq, List.append_assoc] at hc
  by_cases hfront : k < i
  · rw [List.getElem?_append_left (by omega), List.getElem?_take_of_lt hfront] at hc
    exact hkept k (by omega) hc (by rw [if_pos hfront])
  · rw [List.getElem?_append_right (by omega), hlen] at hc
    obtain hk | hk | hk : k = i ∨ k = i + 1 ∨ i + 1 < k := by omega
    · subst hk
      obtain rfl : old = c := by simpa using hc
      exact hempty old hon hoc
    · subst hk
      obtain rfl : new = c := by simpa using hc
      exact hempty new hnn hnc
    · obtain ⟨m, rfl⟩ : ∃ m, k = m + 1 := ⟨k - 1, by omega⟩
      rw [show m + 1 - i = m - i - 1 + 1 + 1 by omega, List.cons_append, List.getElem?_cons_succ,
        List.cons_append, List.getElem?_cons_succ, List.nil_append, List.getElem?_drop,
        show i + 1 + (m - i - 1) = m by omega] at hc
      exact hkept m (by omega) hc (by rw [if_neg (by omega)])

end Dht
