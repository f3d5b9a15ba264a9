import Pipensx.DhtRouting

/-!
# What a split keeps

The loop of `split_bucket` ends with no node left to insert, and a node that is gone then was on its
way to a full bucket that is not ours.
-/

namespace Dht

open SplitPath (Cell locate Holds)

theorem le_half (n : Nat) : 8 ≤ half^[n] 128 := by
  cases n with
  | zero => decide
  | succ n =>
    rw [Function.iterate_succ_apply']
    exact Nat.le_max_right _ _

/-- The bucket of a node is full, and it is not the one that is split. -/
def Crowded (s : State) (n : Node) : Prop :=
  ∃ (k : Nat) (b : Bucket), findBucket n.id s.buckets = some k ∧ s.buckets[k]? = some b ∧
    b.maxCount ≤ b.nodes.length ∧ inBucket s.self.myid s.buckets k = false

/-- Where a node can be while buckets are split. -/
def Settled (s : State) (nodes : List Node) (n : Node) : Prop :=
  (∃ b ∈ s.buckets, n ∈ b.nodes) ∨ n ∈ nodes ∨ Crowded s n

variable {w : World} {s s' : State} {n m : Node} {nodes nodes' : List Node} {i : Nat}

/-- A bucket of ours that cannot be split has room for nobody. -/
theorem splitBucketHelper_grants (hgranted : ∀ k, w.granted k = true) (hok : s.Good)
    (hin : inBucket s.self.myid s.buckets i = true)
    (hfull : ∀ b, s.buckets[i]? = some b → b.maxCount ≤ b.count) :
    ∃ taken s', splitBucketHelper w s i = (some taken, s') := by
  have hne : s.buckets ≠ [] := by
    intro hnil
    simp [hnil, inBucket] at hin
  obtain ⟨k, o, d, hown⟩ := hok.shape hne
  obtain rfl := hown.inBucket_iff.mp hin
  obtain ⟨b, hb⟩ := hown.bucket
  obtain ⟨hfirst, hcap, _, hcase⟩ := hown.middle hb
  have hbok := hok.bucket i b hb
  rcases hcase with ⟨rfl, _⟩ | ⟨newId, _, hsome, _⟩
  · -- only our own id would be in it
    exfalso
    have hpos := le_half (160 - 0)
    have hlong : 0 < b.nodes.length := by
      have := hfull b hb
      have := hbok.count
      omega
    obtain ⟨n, hn⟩ := List.exists_mem_of_length_pos hlong
    obtain ⟨hself, hplace⟩ := hbok.placed n hn
    have hnode : inBucket n.id s.buckets i = true :=
      (TableOk.findBucket_iff hok).mp (TableOk.find_node hok hb hn)
    rw [inBucket_iff] at hin hnode
    have hinside := hown.inside
    obtain ⟨hcell, hnext⟩ := hown.own_cell
    obtain ⟨⟨a, ha, hle⟩, hbelow⟩ := hnode
    obtain rfl : _ = a := Option.some.inj (hcell.symm.trans ha)
    have hval : val n.id = val s.self.myid := by
      rcases hnext with ⟨_, hend⟩ | ⟨c, hc, hcfirst⟩
      · have := val_lt n.id
        simp only [Nat.pow_zero] at hinside hend
        dsimp only at hle
        omega
      · have := hbelow c hc
        simp only [Nat.pow_zero] at hinside hcfirst
        dsimp only at hle
        omega
    exact hself (val_inj.mp hval)
  · unfold splitBucketHelper
    simp [hb, hin, hsome, hgranted]

theorem findBucket_modify {bs : List Bucket} {f : Bucket → Bucket}
    (hfirst : ∀ b, (f b).first = b.first)
    (hcap : ∀ b, (f b).maxCount = b.maxCount) (id : Id) : findBucket id (bs.modify i f) =
    findBucket id bs := by
  have hcells := cells_modify hfirst hcap bs i
  by_cases hne : bs = []
  · simp [hne]
  · have hne' : bs.modify i f ≠ [] := by
      intro hnil
      exact hne (List.eq_nil_of_length_eq_zero (by simpa using congrArg List.length hnil))
    rw [findBucket_eq id hne, findBucket_eq id hne', hcells]

theorem settled_inserted {bs : List Bucket} (hok : s.Good)
    (hw : Waiting s.self.myid s.buckets (n :: nodes))
    (hins : insertNode n s.buckets = .done bs) (h : Settled s (n :: nodes) m) :
    Settled { s with buckets := bs } nodes m := by
  obtain ⟨i, b, hfind, hb, hroom, rfl, hok', _⟩ := insertNode_done hok hw hins
  have hcells : cells (s.buckets.modify i fun b =>
    { b with nodes := n :: b.nodes, count := b.count + 1 }) =
      cells s.buckets := by apply cells_modify <;> exact fun _ => rfl
  have hput : ∀ (k : Nat) (c : Bucket), s.buckets[k]? = some c → ∃ c' ∈ s.buckets.modify i fun b =>
      { b with nodes := n :: b.nodes, count := b.count + 1 }, ∀ x ∈ c.nodes, x ∈ c'.nodes := by
    intro k c hc
    have hget := List.getElem?_modify
      (fun b : Bucket => { b with nodes := n :: b.nodes, count := b.count + 1 })
      i s.buckets k
    rw [hc] at hget
    by_cases hik : i = k
    · refine ⟨{ c with nodes := n :: c.nodes, count := c.count + 1 },
        List.mem_of_getElem? (i := k) ?_, ?_⟩
      · rw [hget]
        simp [hik]
      · exact fun x hx => List.mem_cons_of_mem _ hx
    · refine ⟨c, List.mem_of_getElem? (i := k) ?_, fun _ hx => hx⟩
      rw [hget]
      simp [hik]
  rcases h with ⟨c, hc, hm⟩ | hm | ⟨k, c, hk, hc, hcrowd, hother⟩
  · obtain ⟨k, hk⟩ := List.mem_iff_getElem?.mp hc
    obtain ⟨c', hc', hsub⟩ := hput k c hk
    exact Or.inl ⟨c', hc', hsub m hm⟩
  · rcases List.mem_cons.mp hm with rfl | hm
    · refine Or.inl ⟨{ b with nodes := m :: b.nodes, count := b.count + 1 },
        List.mem_of_getElem? (i := i) ?_, List.mem_cons_self ..⟩
      dsimp only
      rw [List.getElem?_modify_eq, hb]
      rfl
    · exact Or.inr (Or.inl hm)
  · -- a full bucket gets nothing
    have hki : i ≠ k := by
      rintro rfl
      obtain rfl := Option.some.inj (hb.symm.trans hc)
      have := (hok.bucket i b hb).count
      omega
    refine Or.inr (Or.inr ⟨k, c, ?_, ?_, hcrowd, ?_⟩)
    · rw [← hk]
      apply findBucket_modify <;> exact fun _ => rfl
    · rw [List.getElem?_modify_ne _ (l := s.buckets) hki]
      exact hc
    · rw [Bool.eq_false_iff] at hother ⊢
      intro hin
      apply hother
      rw [inBucket_iff] at hin ⊢
      rwa [← hcells]

theorem Taken.settled {taken : List Node} (h : Taken s s' i taken) (hok : s.Good)
    (hself : s'.self = s.self) (hm : Settled s nodes m) : Settled s' (nodes ++ taken) m := by
  obtain ⟨b, o, d, newId, hb, hown, rfl, hmid, hbuckets⟩ := h.old
  obtain ⟨old, new, i', o', heq, hold, _, _, _, _, hi', hown'⟩ := hown.splitAt hb hmid
  have hi := (List.getElem?_eq_some_iff.mp hb).1
  have hlen : (s.buckets.take i).length = i := by
    rw [List.length_take]
    omega
  have hbs : s'.buckets = s.buckets.take i ++ [old, new] ++ s.buckets.drop (i + 1) :=
    hbuckets.trans heq
  -- every other bucket is where it was, or one further
  have hkept : ∀ (k : Nat) (c : Bucket), k ≠ i → s.buckets[k]? = some c →
      s'.buckets[if k < i then k else k + 1]? = some c := by
    intro k c hk hc
    rw [hbs]
    split
    · next hlt =>
        rw [List.append_assoc, List.getElem?_append_left (by omega), List.getElem?_take_of_lt hlt,
          hc]
    · rw [List.getElem?_append_right (by simp [hlen]; omega), List.getElem?_drop, ← hc]
      congr 1
      simp only [List.length_append, hlen, List.length_cons, List.length_nil]
      omega
  rcases hm with ⟨c, hc, hmem⟩ | hwait | ⟨k, c, hk, hc, hcrowd, hother⟩
  · obtain ⟨k, hk⟩ := List.mem_iff_getElem?.mp hc
    by_cases hki : k = i
    · subst hki
      obtain rfl := Option.some.inj (hb.symm.trans hk)
      exact Or.inr (Or.inl (List.mem_append_right _ hmem))
    · exact Or.inl ⟨c, List.mem_of_getElem? (hkept k c hki hk), hmem⟩
  · exact Or.inr (Or.inl (List.mem_append_left _ hwait))
  · have hki : k ≠ i := by
      rintro rfl
      rw [hown.inBucket_iff.mpr rfl] at hother
      simp at hother
    refine Or.inr (Or.inr ⟨if k < i then k else k + 1, c, ?_, hkept k c hki hc, hcrowd, ?_⟩)
    · have hok' : TableOk s.self.myid s'.buckets := h.ok
      rw [hok'.findBucket_iff, inBucket_iff, hbs]
      have hin := (TableOk.findBucket_iff hok).mp hk
      rw [inBucket_iff] at hin
      exact holds_split _ hi hb hold hki hin
    · rw [Bool.eq_false_iff, hself, hbuckets]
      intro hin
      have := hown'.inBucket_iff.mp hin
      split at this <;> omega

/-- What a turn of the loop does to a node. -/
theorem Splitting.settled {start : State} (hgranted : ∀ k, w.granted k = true)
    (h : Splitting start s (n :: nodes))
    (hne : s.buckets ≠ []) (ht : SplitTurn w s n nodes s' nodes') (hm : Settled s (n :: nodes) m) :
    Settled s' nodes' m := by
  have hself := h.moves.self
  have hok : s.Good := by
    rw [State.Good, hself]
    exact h.ok
  have hw := h.waiting
  rw [← hself] at hw
  cases ht with
  | lost hins =>
    exfalso
    obtain ⟨o, ho⟩ : ∃ o, findBucket n.id s.buckets = some o := ⟨_, findBucket_eq n.id hne⟩
    simp only [insertNode, ho] at hins
    split at hins <;> simp at hins
  | inserted bs hins => exact settled_inserted hok hw hins hm
  | away k hins hother =>
    obtain ⟨hfind, hfull⟩ := insertNode_full hins
    rcases hm with hm | hm | hm
    · exact Or.inl hm
    · rcases List.mem_cons.mp hm with rfl | hm
      · obtain ⟨b, hb⟩ := TableOk.find_lt hok hfind
        have hcount := (hok.bucket k b hb).count
        exact Or.inr (Or.inr ⟨k, b, hfind, hb, hcount ▸ hfull b hb, hother⟩)
      · exact Or.inr (Or.inl hm)
    · exact Or.inr (Or.inr hm)
  | stuck k s' hins hin hr =>
    obtain ⟨_, hfull⟩ := insertNode_full hins
    obtain ⟨taken, s1, hsome⟩ := splitBucketHelper_grants hgranted hok hin hfull
    rw [hsome] at hr
    simp at hr
  | split k s' taken hins hin hr =>
    have htaken := splitBucketHelper_some w hok hr
    have hmoves := moves_splitBucketHelper w s k
    rw [hr] at hmoves
    exact htaken.settled hok hmoves.self hm

/-- A node is in the table, or its bucket is full and not ours. -/
def Held (s : State) (m : Node) : Prop := (∃ b ∈ s.buckets, m ∈ b.nodes) ∨ Crowded s m

/-- A split loses a node only to a full bucket that is not ours. -/
theorem splitBucket_held (hgranted : ∀ k, w.granted k = true) (hok : s.Good)
    (h : splitBucket w s i = (true, s')) (hm : Held s m) : Held s' m := by
  obtain ⟨taken, s1, hhelper, hstart, hloop⟩ := splitBucket_some w hok h
  have htaken := splitBucketHelper_some w hok hhelper
  have hsettled : Settled s1 ([] ++ taken) m :=
    htaken.settled hok hstart.moves.self (hm.imp id Or.inr)
  have hne : s1.buckets ≠ [] := List.ne_nil_of_length_pos (by have := htaken.longer; omega)
  have hkept := splitLoop_induction (w := w)
    (P := fun s2 nodes => Splitting s s2 nodes ∧ s2.buckets ≠ [] ∧ Settled s2 nodes m)
    (fun s2 n nodes s3 nodes' hp ht => by
      obtain ⟨hsplit, hne, hset⟩ := hp
      refine ⟨hsplit.turn ht, ?_, hsplit.settled hgranted hne ht hset⟩
      have hlong := hsplit.longer ht
      have hpos := List.length_pos_iff.mpr hne
      exact List.ne_nil_of_length_pos (by omega))
    (160 * (taken.length + 1)) ⟨hstart, hne, by simpa using hsettled⟩
  rw [hloop] at hkept
  rcases hkept.2.2 with hin | hwait | hcrowd
  · exact Or.inl hin
  · simp at hwait
  · exact Or.inr hcrowd

/-- The buckets, with the ids in them. -/
def State.outline (s : State) : List (Id × Nat × List Id) :=
  s.buckets.map fun b => (b.first, b.maxCount, b.nodes.map Node.id)

/-- The same for the id of a node. -/
def Kept (s : State) (m : Node) : Prop :=
  (∃ b ∈ s.buckets, m.id ∈ b.nodes.map Node.id) ∨ Crowded s m

theorem outline_modifyBucket (s : State) (i : Nat) {f : Bucket → Bucket}
    (hf : ∀ b, ((f b).first, (f b).maxCount, (f b).nodes.map Node.id) =
      (b.first, b.maxCount, b.nodes.map Node.id)) : (s.modifyBucket i f).outline = s.outline :=
  map_modify_of_eq hf s.buckets i

theorem outline_modifyNode (s : State) (i j : Nat) {f : Node → Node} (hf : ∀ n, (f n).id = n.id) :
    (s.modifyNode i j f).outline = s.outline := by
  apply outline_modifyBucket
  intro b
  simp only [map_modify_of_eq hf]

theorem outline_send (s : State) (sa : Endpoint) (message : Option (List UInt8)) (confirm : Bool) :
    (s.send sa message confirm).outline = s.outline := by
  unfold State.send
  split
  · rfl
  · split <;> rfl

theorem outline_sendCachedPing (s : State) (i : Nat) :
    (sendCachedPing s i).outline = s.outline := by
  unfold sendCachedPing
  split
  · rfl
  · refine (outline_modifyBucket _ i ?_).trans (outline_send s _ _ _)
    exact fun _ => rfl

theorem outline_pinged (s : State) (i j : Nat) (b : Option Nat) :
    (pinged s i j b).outline = s.outline := by
  unfold pinged
  split
  · rfl
  · have hmark := outline_modifyNode s i j
      (f := fun n => { n with pinged := n.pinged + 1, pingedTime := s.now })
      (fun _ => rfl)
    dsimp only
    split
    · split
      · exact hmark
      · rw [outline_sendCachedPing, hmark]
    · exact hmark

theorem outline_pingedId (s : State) (id : Id) : (pingedId s id).outline = s.outline := by
  unfold pingedId
  split
  · rfl
  · exact outline_pinged s _ _ _

theorem outline_searchSendGetPeers (s : State) (k : Nat) (given : Option Nat) :
    (searchSendGetPeers s k given).2.outline = s.outline := by
  unfold searchSendGetPeers
  split
  · rfl
  · dsimp only
    split
    · rfl
    · split
      · rfl
      · dsimp only
        rw [outline_pingedId]
        exact outline_send s _ _ _

theorem outline_insertSearchNode (s : State) (id : Id) (sa : Endpoint) (k : Nat) (replied : Bool)
    (token : Option (List UInt8)) :
    (insertSearchNode s id sa k replied token).2.outline = s.outline := by
  unfold insertSearchNode
  split
  · rfl
  · split
    · rfl
    · split <;> rfl

theorem outline_addSearchNode (s : State) (id : Id) (sa : Endpoint) :
    (addSearchNode s id sa).outline = s.outline := by
  unfold addSearchNode
  generalize List.range s.searches.length = ks
  induction ks generalizing s with
  | nil => rfl
  | cons k ks ih =>
    rw [List.foldl_cons, ih]
    split
    · have hinsert := outline_insertSearchNode s id sa k false none
      generalize insertSearchNode s id sa k false none = r at hinsert
      obtain ⟨slot, s1⟩ := r
      cases slot with
      | none => exact hinsert
      | some i =>
        dsimp only
        rw [outline_searchSendGetPeers]
        exact hinsert
    · rfl

theorem cells_outline (h : s'.outline = s.outline) : cells s'.buckets = cells s.buckets := by
  have := congrArg (List.map fun t : Id × Nat × List Id => (⟨val t.1, t.2.1⟩ : Cell)) h
  simpa [State.outline, cells, Function.comp_def] using this

theorem findBucket_cells {as bs : List Bucket} (h : cells as = cells bs) (id : Id) :
    findBucket id as = findBucket id bs := by
  have hlength := congrArg List.length h
  simp only [cells, List.length_map] at hlength
  by_cases hne : bs = []
  · subst hne
    rw [List.eq_nil_of_length_eq_zero hlength]
  · have hne' : as ≠ [] := List.ne_nil_of_length_pos
      (by rw [hlength]; exact List.length_pos_iff.mpr hne)
    rw [findBucket_eq id hne, findBucket_eq id hne', h]

theorem inBucket_cells {as bs : List Bucket} (h : cells as = cells bs) (id : Id) (k : Nat) :
    inBucket id as k = inBucket id bs k := by
  rw [Bool.eq_iff_iff, inBucket_iff, inBucket_iff, h]

/-- A bucket stays crowded when the row of buckets stays as it is and no bucket gets shorter. -/
theorem Crowded.stays (h : Crowded s m) (hself : s'.self = s.self)
    (hcells : cells s'.buckets = cells s.buckets)
    (hlong : ∀ (k : Nat) (b : Bucket), s.buckets[k]? = some b → b.maxCount ≤ b.nodes.length → ∃ b',
      s'.buckets[k]? = some b' ∧ b'.maxCount = b.maxCount ∧ b.nodes.length ≤ b'.nodes.length) :
      Crowded s' m := by
  obtain ⟨k, b, hfind, hb, hfull, hother⟩ := h
  obtain ⟨b', hb', hcap, hle⟩ := hlong k b hb hfull
  refine ⟨k, b', ?_, hb', by omega, ?_⟩
  · rw [findBucket_cells hcells, hfind]
  · rw [hself, inBucket_cells hcells, hother]

theorem Kept.outline (h : Kept s m) (hself : s'.self = s.self) (hout : s'.outline = s.outline) :
    Kept s' m := by
  have hget : ∀ (k : Nat) (b : Bucket), s.buckets[k]? = some b → ∃ b', s'.buckets[k]? = some b' ∧
      b'.maxCount = b.maxCount ∧ b'.nodes.map Node.id = b.nodes.map Node.id := by
    intro k b hb
    have hk := congrArg (·[k]?) hout
    simp only [State.outline, List.getElem?_map, hb, Option.map_some] at hk
    obtain ⟨b', hb', heq⟩ := Option.map_eq_some_iff.mp hk
    simp only [Prod.mk.injEq] at heq
    exact ⟨b', hb', heq.2.1, heq.2.2⟩
  rcases h with ⟨b, hb, hm⟩ | hcrowd
  · obtain ⟨k, hk⟩ := List.mem_iff_getElem?.mp hb
    obtain ⟨b', hb', _, hids⟩ := hget k b hk
    exact Or.inl ⟨b', List.mem_of_getElem? hb', hids ▸ hm⟩
  · refine Or.inr (hcrowd.stays hself (cells_outline hout) ?_)
    intro k b hb _
    obtain ⟨b', hb', hcap, hids⟩ := hget k b hb
    have hlength := congrArg List.length hids
    simp only [List.length_map] at hlength
    exact ⟨b', hb', hcap, by omega⟩

theorem Held.kept (h : Held s m) : Kept s m :=
  h.imp (fun ⟨b, hb, hm⟩ => ⟨b, hb, List.mem_map_of_mem hm⟩) id

/-- A change of one bucket that leaves a node in it. -/
theorem Held.modifyBucket (h : Held s m) (i : Nat) {f : Bucket → Bucket}
    (hfirst : ∀ b, (f b).first = b.first) (hcap : ∀ b, (f b).maxCount = b.maxCount)
    (hkeep : ∀ b, s.buckets[i]? = some b → m ∈ b.nodes → m ∈ (f b).nodes)
    (hfull : ∀ b, s.buckets[i]? = some b → b.maxCount ≤ b.nodes.length →
    b.nodes.length ≤ (f b).nodes.length) : Held (s.modifyBucket i f) m := by
  have hget : ∀ (k : Nat) (b : Bucket), s.buckets[k]? = some b →
      (s.modifyBucket i f).buckets[k]? = some (if i = k then f b else b) := by
    intro k b hb
    simp only [State.modifyBucket, List.getElem?_modify, hb]
    split <;> rfl
  rcases h with ⟨b, hb, hm⟩ | hcrowd
  · obtain ⟨k, hk⟩ := List.mem_iff_getElem?.mp hb
    refine Or.inl ⟨_, List.mem_of_getElem? (hget k b hk), ?_⟩
    split
    · next hik => exact hkeep b (hik ▸ hk) hm
    · exact hm
  · refine Or.inr (hcrowd.stays rfl (cells_modify hfirst hcap _ i) ?_)
    intro k b hb hfill
    refine ⟨_, hget k b hb, ?_⟩
    split
    · next hik => exact ⟨hcap b, hfull b (hik ▸ hb) hfill⟩
    · exact ⟨rfl, Nat.le_refl _⟩

theorem pingDubious_none {b : Bucket} (h : (pingDubious s i b).1 = false) :
    pingDubious s i b = (false, s) := by
  have hdubious : b.nodes.any (fun n => !nodeGood s.now n) = false := by
    unfold pingDubious at h
    dsimp only at h
    split at h
    · exact h
    · split at h <;> exact h
  have hnone : b.nodes.findIdx? (fun n => !nodeGood s.now n && n.pingedTime <
    s.now - 15) = none := by
    rw [List.findIdx?_eq_none_iff]
    intro n hn
    have := List.any_eq_false.mp hdubious n hn
    simp only [Bool.not_eq_true] at this
    simp [this]
  unfold pingDubious
  simp only [hnone, hdubious]

theorem outline_pingDubious (b : Bucket) : (pingDubious s i b).2.outline = s.outline := by
  unfold pingDubious
  dsimp only
  split
  · rfl
  · split
    · rfl
    · refine (outline_modifyNode _ i _ ?_).trans (outline_send s _ _ _)
      exact fun _ => rfl

theorem splitBucket_false (h : splitBucket w s i = (false, s')) : s'.buckets = s.buckets := by
  unfold splitBucket at h
  cases hr : splitBucketHelper w s i with
  | mk taken s1 =>
    cases taken with
    | none =>
      obtain rfl : s1 = s' := by simpa [hr] using h
      exact splitBucketHelper_none w hr
    | some taken => simp [hr] at h

theorem Held.same (h : Held s m) (hself : s'.self = s.self) (hbuckets : s'.buckets = s.buckets) :
    Held s' m := by
  unfold Held Crowded at h ⊢
  rwa [hself, hbuckets]

/-- The newcomer takes the place of a node with three pings unanswered: not of a good one. -/
theorem Held.displaced (h : Held s m) {now limit : Int} (hm : nodeGood now m = true) {b : Bucket}
    (hb : s.buckets[i]? = some b) {j : Nat}
    (hbad : b.nodes.findIdx? (fun n => n.pinged ≥ 3 && n.pingedTime < limit) = some j) (n : Node) :
    Held (s.modifyNode i j fun _ => n) m := by
  refine h.modifyBucket i (fun _ => rfl) (fun _ => rfl) ?_ (fun c _ _ => by simp)
  intro c hc hin
  obtain rfl := Option.some.inj (hb.symm.trans hc)
  obtain ⟨l, hl⟩ := List.mem_iff_getElem?.mp hin
  refine List.mem_of_getElem? (i := l) ?_
  have hne : j ≠ l := by
    rintro rfl
    obtain ⟨hlt, hpinged, _⟩ := List.findIdx?_eq_some_iff_getElem.mp hbad
    obtain rfl := Option.some.inj ((List.getElem?_eq_getElem hlt).symm.trans hl)
    simp only [nodeGood, Bool.and_eq_true, decide_eq_true_eq] at hpinged hm
    omega
  rw [List.getElem?_modify_ne _ (l := b.nodes) hne, hl]

theorem newNodeRound_held (hgranted : ∀ k, w.granted k = true) (hgood : s.Good) {id : Id}
    {sa : Endpoint} {confirm : Nat} (hm : nodeGood s.now m = true) (h : Held s m) :
    ((newNodeRound w s id sa confirm).1 = .again → Held (newNodeRound w s id sa confirm).2 m) ∧
      Kept (newNodeRound w s id sa confirm).2 m := by
  unfold newNodeRound
  cases hfind : findBucket id s.buckets with
  | none => exact ⟨by simp, h.kept⟩
  | some i =>
    dsimp only
    split
    · exact ⟨by simp, h.kept⟩
    split
    · exact ⟨by simp, h.kept⟩
    have htell : ∀ s : State, Kept s m →
      Kept (if confirm = 2 then addSearchNode s id sa else s) m := by
      intro s h
      split
      · exact h.outline (moves_addSearchNode s id sa).self (outline_addSearchNode s id sa)
      · exact h
    generalize hs1 : (if confirm = 2 then s.modifyBucket i fun b =>
      { b with time := s.now } else s) = s1
    have h1 : Held s1 m ∧ Moves s s1 := by
      rw [← hs1]
      split
      · refine ⟨?_, moves_touch s i (fun _ => rfl) (fun _ => rfl) (fun _ => rfl) (fun _ => rfl)⟩
        exact h.modifyBucket i (fun _ => rfl) (fun _ => rfl) (fun _ _ hin => hin)
          (fun _ _ _ => Nat.le_refl _)
      · exact ⟨h, Moves.refl s⟩
    obtain ⟨h1, hm1⟩ := h1
    cases hb : s1.buckets[i]? with
    | none => exact ⟨by simp, h1.kept⟩
    | some b =>
      dsimp only
      split
      · next j _ =>
        refine ⟨by simp, htell _ (h1.kept.outline rfl ?_)⟩
        exact outline_modifyNode s1 i j (heardFrom_id _ _ _)
      generalize hs2 : (if inBucket s.self.myid s.buckets i = true
        then { s1 with mybucketGrowTime := s1.now } else s1) = s2
      have h2 : Held s2 m ∧ Moves s1 s2 ∧ s2.buckets = s1.buckets := by
        rw [← hs2]
        split
        · exact ⟨h1.same rfl rfl, Moves.aside rfl rfl rfl rfl, rfl⟩
        · exact ⟨h1, Moves.refl s1, rfl⟩
      obtain ⟨h2, hm2, hbuckets⟩ := h2
      have hgood2 := (hm1.trans hm2).good hgood
      split
      · next j hbad =>
        -- a bad node makes room
        exact ⟨by simp, htell _ (h2.displaced hm (hbuckets ▸ hb) hbad _).kept⟩
      split
      · -- the bucket is full
        cases hdub : pingDubious s2 i b with
        | mk dubious s3 =>
          dsimp only
          have hout := outline_pingDubious (s := s2) (i := i) b
          have hself := (moves_pingDubious s2 i b).self
          rw [hdub] at hout hself
          split
          · next hsplit =>
            obtain ⟨_, rfl⟩ : _ ∧ dubious = false := by simpa using hsplit
            have hsame := pingDubious_none (s := s2) (i := i) (b := b) (by rw [hdub])
            rw [hdub] at hsame
            obtain rfl : s3 = s2 := (Prod.mk.inj hsame).2
            have hmoves := moves_splitBucket w s3 i hgood2
            cases hr : splitBucket w s3 i with
            | mk done s4 =>
              rw [hr] at hmoves
              cases done with
              | true =>
                have h4 := splitBucket_held hgranted hgood2 hr h2
                exact ⟨fun _ => h4, h4.kept⟩
              | false => exact ⟨by simp, (h2.same hmoves.self (splitBucket_false hr)).kept⟩
          · refine ⟨by simp, htell _ ?_⟩
            have h3 : Kept s3 m := h2.kept.outline hself hout
            refine h3.outline rfl (outline_modifyBucket s3 i ?_)
            intro b
            split <;> rfl
      · next hroom =>
        rw [hgranted]
        refine ⟨by simp, htell _ (Held.kept ?_)⟩
        have h3 : Held { s2 with allocs := s2.allocs + 1 } m := h2.same rfl rfl
        refine h3.modifyBucket i (fun _ => rfl) (fun _ => rfl)
          (fun c _ hin => List.mem_cons_of_mem _ hin) ?_
        intro c _ _
        simp

/-- `new_node` loses a good node only to a full bucket that is not ours. -/
theorem newNodeLoop_kept (hgranted : ∀ k, w.granted k = true) (hgood : s.Good) {id : Id}
    {sa : Endpoint} {confirm : Nat} (hm : nodeGood s.now m = true) (h : Held s m) (fuel : Nat) :
    Kept (newNodeLoop w id sa confirm fuel s).2 m := by
  induction fuel generalizing s with
  | zero => exact h.kept
  | succ fuel ih =>
    rw [newNodeLoop]
    obtain ⟨hagain, hkept⟩ := newNodeRound_held hgranted hgood hm h
    have hmoves := (moves_newNodeRound w s id sa confirm hgood).1
    generalize newNodeRound w s id sa confirm = r at hagain hkept hmoves
    obtain ⟨round, s1⟩ := r
    cases round with
    | again =>
      refine ih (hmoves.good hgood) ?_ (hagain rfl)
      rw [hmoves.now]
      exact hm
    | returned known => exact hkept

/-- `new_node` returns, and a good node of the table is lost only when a split sends it to a full
bucket that is not ours. -/
theorem run_newNode (w : World) (hgranted : ∀ k, w.granted k = true) {s : State}
    (reached : Reached w s) (id : Id) (sa : Endpoint) (confirm : Nat) :
    (∃ known, newNodeLoop w id sa confirm 161 s = (some known, newNode w s id sa confirm)) ∧
    ∀ b ∈ s.buckets, ∀ m ∈ b.nodes, nodeGood s.now m = true →
      (∃ b' ∈ (newNode w s id sa confirm).buckets, m.id ∈ b'.nodes.map Node.id) ∨
        Crowded (newNode w s id sa confirm) m := by
  have hgood := reached.sound.table
  constructor
  · by_cases hempty : s.buckets = []
    · refine ⟨false, ?_⟩
      simp [newNode, newNodeLoop, newNodeRound, hempty, findBucket]
    · have hpos := List.length_pos_iff.mpr hempty
      obtain ⟨known, hknown⟩ := newNodeLoop_ends w id sa confirm 161 hgood (by omega)
      exact ⟨known, Prod.ext hknown rfl⟩
  · intro b hb m hm hmgood
    exact newNodeLoop_kept hgranted hgood hmgood (Or.inl ⟨b, hb, hm⟩) 161

/-- So many nodes have replied to an engine that has just started. -/
def filled : Nat → State
  | 0 => { run World.calm State.boot (firstCalls.take 1) with now := 1000 }
  | n + 1 => newNode World.calm (filled n) (Vector.replicate 20 (UInt8.ofNat (2 * n)))
      ⟨#[10, 0, 1, UInt8.ofNat n, 26, 225], rfl⟩ 2

theorem filled_reached (n : Nat) : Reached World.calm (filled n) := by
  induction n with
  | zero => exact ⟨firstCalls.take 1, 1000, .refl⟩
  | succ n ih => exact ih.newNode _ _ _

/-- The one bucket is full, and the next node splits it five times. -/
theorem run_newNode_split :
    let s := filled 128
    let s' := newNode World.calm s (Vector.replicate 20 3) firstNode 2
    s'.buckets.length = 6 ∧
    (∃ known, newNodeLoop World.calm (Vector.replicate 20 3) firstNode 2 161 s = (some known, s')) ∧
    ∀ b ∈ s.buckets, ∀ m ∈ b.nodes, nodeGood s.now m = true →
      (∃ b' ∈ s'.buckets, m.id ∈ b'.nodes.map Node.id) ∨ Crowded s' m :=
  ⟨by decide +kernel, run_newNode World.calm (fun _ => rfl) (filled_reached 128)
    (Vector.replicate 20 3) firstNode 2⟩

end Dht
