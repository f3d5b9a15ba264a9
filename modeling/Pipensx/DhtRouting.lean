import Pipensx.DhtRuns

/-!
# The routing table over whole runs

After any calls the buckets are a Kademlia table: an id is in the bucket of the number of bits it
shares with ours, up to the depth of the table. What is sent as the closest nodes is the nearest of
the good nodes around the target.
-/

namespace Dht

open SplitPath (Cell Path locate level Holds)
open NearestFirst (Sorted Nearest)

theorem le_level_iff {me d e x j : Nat} (hj : 0 < j) (hd : d ≤ e) :
    j ≤ level me d e x ↔ j ≤ e - d ∧ x / 2 ^ (e - j) = me / 2 ^ (e - j) := by
  induction e generalizing j with
  | zero =>
    simp only [level]
    omega
  | succ e ih =>
    simp only [level]
    split
    · next hgo =>
      obtain ⟨hde, hsame⟩ := hgo
      obtain rfl | hmore : j = 1 ∨ 1 < j := by omega
      · simp only [Nat.add_sub_cancel, hsame, and_true]
        omega
      · obtain ⟨j, rfl⟩ : ∃ j', j = j' + 1 := ⟨j - 1, by omega⟩
        rw [Nat.add_le_add_iff_right, ih (by omega) hde, Nat.add_sub_add_right]
        refine and_congr_left fun _ => ?_
        omega
    · next hstop =>
      refine ⟨fun h => absurd h (by omega), fun h => absurd ⟨by omega, ?_⟩ hstop⟩
      -- what agrees in the longer front agrees in the shorter one
      have hpow : 2 ^ e = 2 ^ (e + 1 - j) * 2 ^ (j - 1) := by
        rw [← Nat.pow_add]
        congr 1
        omega
      rw [hpow, ← Nat.div_div_eq_div_mul, ← Nat.div_div_eq_div_mul, h.2]

/-- How far an id goes along with ours: as many halvings as it has bits in common. -/
theorem level_eq {d : Nat} (hd : d ≤ 160) (id1 id2 : Id) :
    level (val id2) d 160 (val id1) = min (160 - d) (commonBits id1 id2) := by
  have key : ∀ j, 0 < j → (j ≤ level (val id2) d 160 (val id1) ↔
    j ≤ min (160 - d) (commonBits id1 id2)) := by
    intro j hj
    rw [le_level_iff hj hd, le_min_iff]
    refine and_congr_right fun hle => ?_
    exact (le_commonBits_iff (by omega)).symm
  apply Nat.le_antisymm
  · by_cases hzero : level (val id2) d 160 (val id1) = 0
    · omega
    · exact (key _ (by omega)).mp (Nat.le_refl _)
  · by_cases hzero : min (160 - d) (commonBits id1 id2) = 0
    · omega
    · exact (key _ (by omega)).mpr (Nat.le_refl _)

/-- The buckets, by the bits that ids share with ours. -/
structure Kademlia (myid : Id) (bs : List Bucket) (depth : Nat) : Prop where
  depth_le : depth ≤ 160
  length : bs.length = depth + 1
  same : ∀ x y : Id, findBucket x bs = findBucket y bs ↔
    min depth (commonBits x myid) = min depth (commonBits y myid)
  capacity : ∀ id : Id, ∃ i b, findBucket id bs = some i ∧ bs[i]? = some b ∧
    b.maxCount = half^[min depth (commonBits id myid)] 128

theorem Own.kademlia {myid : Id} {bs : List Bucket} {i o d : Nat} (h : Own myid bs i o d) :
    Kademlia myid bs (160 - d) := by
  have hd := h.inside.2.2.2.2
  have hlength := h.length
  have hne : bs ≠ [] := List.ne_nil_of_length_pos (by omega)
  have hval : ∀ x : Id, 0 ≤ val x ∧ val x < 0 + 2 ^ 160 :=
    fun x => ⟨Nat.zero_le _, by simpa using val_lt x⟩
  refine ⟨by omega, by omega, ?_, ?_⟩
  · intro x y
    obtain ⟨_, hsame⟩ := h.cells_eq (Nat.dvd_zero _) (hval x)
    rw [findBucket_eq x hne, findBucket_eq y hne, Option.some.injEq, hsame (val y) (hval y),
      level_eq hd, level_eq hd]
  · intro id
    obtain ⟨⟨a, ha, hcap⟩, _⟩ := h.cells_eq (Nat.dvd_zero _) (hval id)
    rw [cells_getElem?] at ha
    obtain ⟨b, hb, rfl⟩ := Option.map_eq_some_iff.mp ha
    refine ⟨_, b, findBucket_eq id hne, hb, ?_⟩
    rw [← level_eq hd]
    exact hcap

/-- The table after any run. -/
theorem run_table (w : World) (calls : List Call) :
    ((run w State.boot calls).buckets ≠ [] →
      ∃ depth, Kademlia (run w State.boot calls).self.myid (run w State.boot calls).buckets depth) ∧
    ∀ i b, (run w State.boot calls).buckets[i]? = some b →
      b.count = b.nodes.length ∧ b.nodes.length ≤ b.maxCount ∧ (b.nodes.map Node.id).Nodup ∧
      ∀ n ∈ b.nodes, n.id ≠ (run w State.boot calls).self.myid ∧
        findBucket n.id (run w State.boot calls).buckets = some i := by
  have hgood := (sound_run w Sound.boot calls).table
  constructor
  · intro hne
    obtain ⟨i, o, d, hown⟩ := hgood.shape hne
    exact ⟨_, hown.kademlia⟩
  · intro i b hb
    have hok := hgood.bucket i b hb
    exact ⟨hok.count, hok.room, hok.distinct, fun n hn =>
      ⟨(hok.placed n hn).1, TableOk.find_node hgood hb hn⟩⟩

def contact (n : Node) : Contact := ⟨n.id, n.ss⟩

/-- The good nodes of a bucket. -/
def goodContacts (now : Int) (b : Option Bucket) : List Contact :=
  (((b.map Bucket.nodes).getD []).filter (nodeGood now)).map contact

section Closest

variable {now : Int} {target : Id} {bs : List Bucket}

theorem insertClosestNode_eq (nodes : List Contact) (n : Node) : insertClosestNode target nodes n =
    NearestFirst.insert (fun c : Contact => distance c.id target) 8 nodes (contact n) := by
  have hsame : (fun c : Contact => idCmp n.id c.id == 0) =
      fun c => distance c.id target == distance (contact n).id target := by
    funext c
    rw [Bool.eq_iff_iff, beq_iff_eq, beq_iff_eq, idCmp_eq_zero_iff, distance_inj]
    exact eq_comm
  have hbehind : (fun c : Contact => decide (xorcmp n.id c.id target < 0)) =
      fun c => decide (distance (contact n).id target < distance c.id target) := by
    funext c
    rw [decide_eq_decide]
    exact xorcmp_lt_iff n.id c.id target
  unfold insertClosestNode NearestFirst.insert
  rw [hsame, hbehind]
  rfl

theorem bufferClosestNodes_eq (nodes : List Contact) (b : Option Bucket) :
    bufferClosestNodes now target nodes b = (goodContacts now b).foldl
      (NearestFirst.insert (fun c : Contact => distance c.id target) 8) nodes := by
  unfold bufferClosestNodes goodContacts
  generalize (b.map Bucket.nodes).getD [] = ns
  induction ns generalizing nodes with
  | nil => rfl
  | cons n ns ih =>
    rw [List.foldl_cons]
    cases hgood : nodeGood now n with
    | true =>
      rw [if_pos rfl, ih, insertClosestNode_eq, List.filter_cons_of_pos hgood]
      rfl
    | false => rw [if_neg (by simp), ih, List.filter_cons_of_neg (by simp [hgood])]

/-- The good nodes that `send_closest_nodes` looks at. -/
def around (now : Int) (bs : List Bucket) (i : Nat) : List Contact :=
  goodContacts now bs[i]? ++ goodContacts now bs[i + 1]? ++
    goodContacts now ((previousBucket i).bind fun p => bs[p]?)

variable (now) in
theorem closestNodes_nearest {i : Nat} (hfind : findBucket target bs = some i) :
    Nearest (fun c : Contact => distance c.id target) 8 (around now bs i)
    (closestNodes now bs target) := by
  simp only [closestNodes, hfind, bufferClosestNodes_eq]
  have h := (((Nearest.nil (fun c : Contact => distance c.id target) 8).foldl
    (goodContacts now bs[i]?)).foldl
    (goodContacts now bs[i + 1]?)).foldl
    (goodContacts now ((previousBucket i).bind fun p => bs[p]?))
  simpa [around] using h

theorem mem_goodContacts {k : Nat} {c : Contact} (h : c ∈ goodContacts now bs[k]?) :
    ∃ b, bs[k]? = some b ∧ ∃ n ∈ b.nodes, nodeGood now n = true ∧ contact n = c := by
  cases hb : bs[k]? with
  | none => simp [goodContacts, hb] at h
  | some b =>
    obtain ⟨n, hn, rfl⟩ := List.mem_map.mp h
    simp only [hb, Option.map_some, Option.getD_some] at hn
    obtain ⟨hn, hgood⟩ := List.mem_filter.mp hn
    exact ⟨b, rfl, n, hn, hgood, rfl⟩

/-- All good nodes of the table. -/
def goodNodes (now : Int) (bs : List Bucket) : List Contact :=
  ((bs.flatMap Bucket.nodes).filter (nodeGood now)).map contact

theorem mem_goodNodes {c : Contact} : c ∈ goodNodes now bs ↔
    ∃ (k : Nat) (b : Bucket), bs[k]? = some b ∧ ∃ n ∈ b.nodes, nodeGood now n = true ∧
    contact n = c := by
  simp only [goodNodes, List.mem_map, List.mem_filter, List.mem_flatMap]
  constructor
  · rintro ⟨n, ⟨⟨b, hb, hn⟩, hgood⟩, rfl⟩
    obtain ⟨k, hk⟩ := List.mem_iff_getElem?.mp hb
    exact ⟨k, b, hk, n, hn, hgood, rfl⟩
  · rintro ⟨k, b, hb, n, hn, hgood, rfl⟩
    exact ⟨n, ⟨⟨b, List.mem_of_getElem? hb, hn⟩, hgood⟩, rfl⟩

theorem around_sub {i : Nat} {c : Contact} (h : c ∈ around now bs i) : c ∈ goodNodes now bs := by
  have hprev : c ∈ goodContacts now ((previousBucket i).bind fun p => bs[p]?) →
    c ∈ goodNodes now bs := by
    unfold previousBucket
    split
    · intro h
      simp [goodContacts] at h
    · intro h
      exact mem_goodNodes.mpr ⟨_, mem_goodContacts h⟩
  rcases List.mem_append.mp h with h | h
  · rcases List.mem_append.mp h with h | h
    · exact mem_goodNodes.mpr ⟨i, mem_goodContacts h⟩
    · exact mem_goodNodes.mpr ⟨i + 1, mem_goodContacts h⟩
  · exact hprev h

variable {myid : Id}

/-- Ids of one bucket are nearer to each other than to any other id. -/
theorem TableOk.near (h : TableOk myid bs) {i : Nat} {b : Bucket} (hb : bs[i]? = some b)
    (hfind : findBucket target bs = some i) :
    ∃ t, ∀ id, distance id target < 2 ^ t ↔ findBucket id bs = some i := by
  have hne : bs ≠ [] := by
    intro hnil
    simp [hnil] at hb
  obtain ⟨k, o, d, hown⟩ := h.shape hne
  have hcell : (cells bs)[i]? = some ⟨val b.first, b.maxCount⟩ := by rw [cells_getElem?, hb]; rfl
  obtain ⟨t, ⟨q, hq⟩, hnext⟩ := hown.dyadic (Nat.dvd_zero _) hcell
  have hstart : val b.first = 2 ^ t * q := hq
  have hpos : 0 < 2 ^ t := Nat.two_pow_pos t
  -- the bucket holds the ids with one quotient
  have hholds : ∀ id : Id, findBucket id bs = some i ↔ val id / 2 ^ t = q := by
    intro id
    have hlt := val_lt id
    rw [h.findBucket_iff, inBucket_iff, Holds, hcell]
    simp only [Option.some.injEq, exists_eq_left', hstart] at hnext ⊢
    have hinside : val id / 2 ^ t = q ↔ 2 ^ t * q ≤ val id ∧ val id < 2 ^ t * q + 2 ^ t := by
      rw [Nat.div_eq_iff (by omega)]
      have hswap : q * 2 ^ t = 2 ^ t * q := Nat.mul_comm _ _
      omega
    rw [hinside]
    rcases hnext with ⟨hnone, hend⟩ | ⟨c, hc, hfirst⟩
    · simp only [hnone, reduceCtorEq, false_implies, implies_true, and_true]
      omega
    · simp only [hc, Option.some.injEq, forall_eq', hfirst]
  refine ⟨t, fun id => ?_⟩
  rw [distance, BigEndian.xor_lt_iff, hholds, (hholds target).mp hfind]

theorem TableOk.contact_inj (h : TableOk myid bs) {c1 c2 : Contact} (h1 : c1 ∈ goodNodes now bs)
    (h2 : c2 ∈ goodNodes now bs) (hid : c1.id = c2.id) : c1 = c2 := by
  obtain ⟨k1, b1, hb1, n1, hn1, _, rfl⟩ := mem_goodNodes.mp h1
  obtain ⟨k2, b2, hb2, n2, hn2, _, rfl⟩ := mem_goodNodes.mp h2
  have hid' : n1.id = n2.id := hid
  have hf1 := h.find_node hb1 hn1
  have hf2 := h.find_node hb2 hn2
  rw [hid', hf2, Option.some.injEq] at hf1
  obtain rfl : b2 = b1 := by rw [hf1, hb1] at hb2; exact (Option.some.inj hb2).symm
  rw [List.inj_on_of_nodup_map (h.bucket k1 b2 hb1).distinct hn1 hn2 hid']

/-- What is sent: good nodes in the order of their distance. A good node of the bucket of the target
that is left out is behind all of them, and if that bucket has eight good nodes, so is any good node
of the table. -/
theorem run_closestNodes (w : World) {s : State} (reached : Reached w s) (now : Int) (target : Id) :
    (closestNodes now s.buckets target).Pairwise
      (fun c1 c2 => distance c1.id target < distance c2.id target) ∧
    (closestNodes now s.buckets target).length ≤ 8 ∧
    (∀ c ∈ closestNodes now s.buckets target, c ∈ goodNodes now s.buckets) ∧
    ∀ i b, findBucket target s.buckets = some i → s.buckets[i]? = some b →
      ∀ c ∈ goodNodes now s.buckets,
        findBucket c.id s.buckets = some i ∨ 8 ≤ (b.nodes.filter (nodeGood now)).length →
        c ∈ closestNodes now s.buckets target ∨
          (closestNodes now s.buckets target).length = 8 ∧
          ∀ near ∈ closestNodes now s.buckets target, distance near.id target <
            distance c.id target := by
  have hgood : TableOk _ _ := reached.sound.table
  generalize s.buckets = bs at hgood
  cases hfind : findBucket target bs with
  | none => simp [closestNodes, hfind]
  | some i =>
  have hnear := closestNodes_nearest now hfind
  have hamong : ∀ c ∈ closestNodes now bs target, c ∈ goodNodes now bs :=
    fun c hc => around_sub (hnear.among c hc)
  refine ⟨hnear.sorted, hnear.room, hamong, ?_⟩
  intro j b hj hb c hc hcase
  obtain rfl := Option.some.inj hj
  -- a node with the distance of a listed one is that one
  have hlisted : ∀ c ∈ goodNodes now bs, (∃ x ∈ closestNodes now bs target,
      distance x.id target = distance c.id target) → c ∈ closestNodes now bs target := by
    rintro c hc ⟨x, hx, hkey⟩
    rw [hgood.contact_inj hc (hamong x hx) (distance_inj.mp hkey).symm]
    exact hx
  obtain ⟨t, ht⟩ := hgood.near hb hfind
  have hmine : ∀ c ∈ goodNodes now bs, findBucket c.id bs = some i →
    c ∈ goodContacts now bs[i]? := by
    intro c hc hci
    obtain ⟨k, b', hb', n, hn, hng, rfl⟩ := mem_goodNodes.mp hc
    have hk := hgood.find_node hb' hn
    have hid : (contact n).id = n.id := rfl
    rw [hid, hk, Option.some.injEq] at hci
    subst hci
    rw [hb']
    exact List.mem_map_of_mem (List.mem_filter.mpr ⟨hn, hng⟩)
  rcases hcase with hci | henough
  · have hin : c ∈ around now bs i :=
      List.mem_append_left _ (List.mem_append_left _ (hmine c hc hci))
    exact (hnear.best c hin).imp (hlisted c hc) id
  · have hwide : Nearest (fun c : Contact => distance c.id target) 8 (goodNodes now bs)
        (closestNodes now bs target) := by
      have hmem : ∀ c ∈ goodContacts now bs[i]?, c ∈ around now bs i :=
        fun c hc => List.mem_append_left _ (List.mem_append_left _ hc)
      refine hnear.widen (goodContacts now bs[i]?) (2 ^ t) (fun y hy => around_sub hy) ?_ ?_ ?_ ?_
      · intro z hz
        by_cases hzi : findBucket z.id bs = some i
        · exact Or.inl (hmem z (hmine z hz hzi))
        · exact Or.inr (Nat.le_of_not_lt fun hlt => hzi ((ht z.id).mp hlt))
      · intro y hy
        refine ⟨hmem y hy, (ht y.id).mpr ?_⟩
        obtain ⟨b', hb', n, hn, _, rfl⟩ := mem_goodContacts hy
        exact hgood.find_node hb' hn
      · have hids := (hgood.bucket i b hb).distinct.sublist
          (List.filter_sublist (p := nodeGood now).map _)
        have hkeys := hids.map (f := fun id => distance id target) (fun _ _ h => distance_inj.mp h)
        simpa [goodContacts, hb, contact, Function.comp_def] using hkeys
      · simpa [goodContacts, hb] using henough
    exact (hwide.best c hc).imp (hlisted c hc) id

/-- Behind the `new_node` of a request one good node is near enough. -/
theorem run_closestNodes_first :
    let s := newNode World.calm { run World.calm State.boot firstCalls with now := 1700 }
      (Vector.replicate 20 7) firstNode 2
    (closestNodes 1700 s.buckets (Vector.replicate 20 8)).length = 1 ∧
      ∀ c ∈ closestNodes 1700 s.buckets (Vector.replicate 20 8), c ∈ goodNodes 1700 s.buckets :=
  ⟨by decide +kernel, (run_closestNodes World.calm
    (Reached.newNode ⟨firstCalls, 1700, .refl⟩ (Vector.replicate 20 7)
    firstNode 2) 1700 (Vector.replicate 20 8)).2.2.1⟩

end Closest

end Dht
