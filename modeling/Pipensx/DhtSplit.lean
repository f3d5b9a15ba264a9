import Pipensx.DhtMoves

/-!
# Splitting buckets and learning about nodes

`split_bucket` and `new_node` keep the table sound, and they end: each split makes the row of
buckets longer, and there are at most 161 of them.
-/

namespace Dht

open SplitPath (Cell Path locate Holds)

/-- Nodes on their way back into the table. -/
structure Waiting (myid : Id) (bs : List Bucket) (nodes : List Node) : Prop where
  distinct : (nodes.map Node.id).Nodup
  apart : ∀ n ∈ nodes, n.id ≠ myid ∧ ∀ b ∈ bs, n.id ∉ b.nodes.map Node.id

variable {myid : Id} {bs : List Bucket} {i o d : Nat} {b : Bucket}

theorem Own.length (h : Own myid bs i o d) : bs.length + d = 161 := by
  have hlength := h.length_eq
  have hd := h.inside.2.2.2.2
  simp only [cells, List.length_map] at hlength
  omega

theorem TableOk.length_le (h : TableOk myid bs) : bs.length ≤ 161 := by
  by_cases hne : bs = []
  · simp [hne]
  · obtain ⟨i, o, d, hown⟩ := h.shape hne
    have := hown.length
    omega

theorem Own.bucket (h : Own myid bs i o d) : ∃ b, bs[i]? = some b := by
  have hcell := h.own_cell.1
  rw [cells_getElem?] at hcell
  obtain ⟨b, hb, _⟩ := Option.map_eq_some_iff.mp hcell
  exact ⟨b, hb⟩

theorem Waiting.tail {n : Node} {nodes : List Node} (h : Waiting myid bs (n :: nodes)) :
    Waiting myid bs nodes :=
  ⟨(List.nodup_cons.mp h.distinct).2, fun m hm => h.apart m (List.mem_cons_of_mem _ hm)⟩

theorem insertNode_full {n : Node} (h : insertNode n bs = .full i) :
    findBucket n.id bs = some i ∧ ∀ b, bs[i]? = some b → b.maxCount ≤ b.count := by
  unfold insertNode at h
  cases hfind : findBucket n.id bs with
  | none => simp [hfind] at h
  | some k =>
    simp only [hfind] at h
    split at h
    · next hfull =>
      obtain rfl : k = i := by simpa using h
      refine ⟨rfl, fun b hb => ?_⟩
      simpa [hb] using hfull
    · simp at h

/-- A node that is inserted goes to the head of its bucket. -/
theorem insertNode_done (hok : TableOk myid bs) {n : Node} {nodes bs' : List _}
    (hw : Waiting myid bs (n :: nodes)) (h : insertNode n bs = .done bs') :
    ∃ i b, findBucket n.id bs = some i ∧ bs[i]? = some b ∧ b.count < b.maxCount ∧
      bs' = bs.modify i (fun b => { b with nodes := n :: b.nodes, count := b.count + 1 }) ∧
      TableOk myid bs' ∧ Waiting myid bs' nodes := by
  unfold insertNode at h
  cases hfind : findBucket n.id bs with
  | none => simp [hfind] at h
  | some i =>
    obtain ⟨b, hb⟩ := hok.find_lt hfind
    simp only [hfind, hb, Option.map_some, Option.getD_some] at h
    split at h
    · simp at h
    next hroom =>
    obtain rfl : _ = bs' := by simpa using h
    have hne : bs ≠ [] := by
      rintro rfl
      simp at hb
    obtain ⟨hself, hnew⟩ := hw.apart n (List.mem_cons_self ..)
    have hplace : locate (val n.id) (cells bs) = i := by
      rw [findBucket_eq n.id hne] at hfind
      exact Option.some.inj hfind
    refine ⟨i, b, rfl, hb, by omega, rfl, ?_, hw.tail.distinct, ?_⟩
    · refine hok.modify (fun _ => rfl) (fun _ => rfl) (fun b' hb' hbok => ?_)
      obtain rfl : b = b' := by simpa [hb] using hb'
      exact hbok.cons (by omega) (hnew b (List.mem_of_getElem? hb)) hself hplace
    · intro m hm
      refine ⟨(hw.tail.apart m hm).1, fun c hc => ?_⟩
      rcases mem_modify hc with hc | ⟨c', hc', rfl⟩
      · exact (hw.tail.apart m hm).2 c hc
      · simp only [List.map_cons, List.mem_cons, not_or]
        refine ⟨fun heq => ?_, (hw.tail.apart m hm).2 c' hc'⟩
        exact (List.nodup_cons.mp hw.distinct).1 (heq ▸ List.mem_map_of_mem hm)

theorem splitAt_modify (f : Bucket → Bucket) (newId : Id) :
    splitAt myid (bs.modify i f) i b newId = splitAt myid bs i b newId := by
  have htake : (bs.modify i f).take i = bs.take i := by
    apply List.ext_getElem?
    intro k
    by_cases hk : k < i
    · rw [List.getElem?_take_of_lt hk, List.getElem?_take_of_lt hk, List.getElem?_modify]
      cases bs[k]? <;> simp [show i ≠ k by omega]
    · rw [List.getElem?_eq_none (by rw [List.length_take]; omega),
        List.getElem?_eq_none (by rw [List.length_take]; omega)]
  have hdrop : (bs.modify i f).drop (i + 1) = bs.drop (i + 1) := by
    apply List.ext_getElem?
    intro k
    rw [List.getElem?_drop, List.getElem?_drop, List.getElem?_modify]
    cases bs[i + 1 + k]? <;> simp [show i ≠ i + 1 + k by omega]
  simp only [splitAt, htake, hdrop]

theorem sendCachedPing_buckets (s : State) (i : Nat) :
    ∃ f, (sendCachedPing s i).buckets = s.buckets.modify i f := by
  unfold sendCachedPing
  split
  · exact ⟨id, by simp⟩
  · next sa _ =>
    refine ⟨fun b => { b with cached := none }, ?_⟩
    simp only [State.modifyBucket, State.sendPing, State.send]
    split
    · rfl
    · split <;> rfl

/-- What a split does: our bucket is taken apart, and its nodes wait. -/
structure Taken (s s' : State) (i : Nat) (nodes : List Node) : Prop where
  old : ∃ b o d newId, s.buckets[i]? = some b ∧ Own s.self.myid s.buckets i o (d + 1) ∧
    nodes = b.nodes ∧
    bucketMiddle s.buckets i b = some newId ∧ s'.buckets = splitAt s.self.myid s.buckets i b newId
  ok : TableOk s.self.myid s'.buckets
  longer : s'.buckets.length = s.buckets.length + 1

theorem splitBucketHelper_some (w : World) {s s' : State} {nodes : List Node}
    (hok : TableOk s.self.myid s.buckets) (h : splitBucketHelper w s i = (some nodes, s')) :
    Taken s s' i nodes := by
  unfold splitBucketHelper at h
  cases hb : s.buckets[i]? with
  | none => simp [hb] at h
  | some b =>
    simp only [hb] at h
    split at h
    · simp at h
    next hin =>
    cases hmid : bucketMiddle s.buckets i b with
    | none => simp [hmid] at h
    | some newId =>
      simp only [hmid] at h
      split at h
      · simp at h
      simp only [Prod.mk.injEq, Option.some.injEq] at h
      obtain ⟨rfl, rfl⟩ := h
      have hne : s.buckets ≠ [] := by
        intro hnil
        simp [hnil] at hb
      obtain ⟨k, o, d, hown⟩ := hok.shape hne
      obtain rfl : i = k := hown.inBucket_iff.mp (by simpa using hin)
      obtain ⟨_, _, _, hcase⟩ := hown.middle hb
      obtain ⟨d, rfl⟩ : ∃ d', d = d' + 1 := by
        rcases hcase with ⟨_, hnone⟩ | ⟨_, hpos, _⟩
        · simp [hmid] at hnone
        · exact ⟨d - 1, by omega⟩
      obtain ⟨f, hf⟩ := sendCachedPing_buckets { s with allocs := s.allocs + 1 } i
      have hself : (sendCachedPing { s with allocs := s.allocs + 1 } i).self = s.self :=
        (moves_sendCachedPing { s with allocs := s.allocs + 1 } i).self
      have hbuckets : splitAt (sendCachedPing { s with allocs := s.allocs + 1 } i).self.myid
          (sendCachedPing { s with allocs := s.allocs + 1 } i).buckets i b newId =
          splitAt s.self.myid s.buckets i b newId := by
        rw [hself, hf, splitAt_modify]
      obtain ⟨hsplit, i', o', hown'⟩ := hok.split hown hb hmid
      refine ⟨⟨b, o, d, newId, hb, hown, rfl, hmid, hbuckets⟩, ?_, ?_⟩
      · simp only [hbuckets]
        exact hsplit
      · have h1 := hown.length
        have h2 := hown'.length
        simp only [hbuckets]
        omega

theorem splitBucketHelper_none (w : World) {s s' : State}
    (h : splitBucketHelper w s i = (none, s')) : s'.buckets = s.buckets := by
  unfold splitBucketHelper at h
  split at h
  · obtain rfl : s = s' := by simpa using h
    rfl
  split at h
  · obtain rfl : s = s' := by simpa using h
    rfl
  split at h
  · obtain rfl : s = s' := by simpa using h
    rfl
  · simp only at h
    split at h
    · simp only [Prod.mk.injEq, true_and] at h
      rw [← h]
    · simp at h

theorem moves_splitBucketHelper (w : World) (s : State) (i : Nat) :
    Moves s (splitBucketHelper w s i).2 := by
  have htable : TableOk s.self.myid s.buckets →
    TableOk s.self.myid (splitBucketHelper w s i).2.buckets := by
    intro hok
    cases hr : splitBucketHelper w s i with
    | mk nodes s' =>
      cases nodes with
      | none =>
        rw [splitBucketHelper_none w hr]
        exact hok
      | some nodes => exact (splitBucketHelper_some w hok hr).ok
  have hrest : ∃ s1 : State, Moves s s1 ∧ (splitBucketHelper w s i).2.frame = s1.frame ∧
      (splitBucketHelper w s i).2.searches = s1.searches ∧
      (splitBucketHelper w s i).2.sent = s1.sent := by
    unfold splitBucketHelper
    split
    · exact ⟨s, Moves.refl s, rfl, rfl, rfl⟩
    split
    · exact ⟨s, Moves.refl s, rfl, rfl, rfl⟩
    split
    · exact ⟨s, Moves.refl s, rfl, rfl, rfl⟩
    dsimp only
    have hcount : Moves s { s with allocs := s.allocs + 1 } := Moves.aside rfl rfl rfl rfl
    split
    · exact ⟨_, hcount, rfl, rfl, rfl⟩
    · exact ⟨_, hcount.trans (moves_sendCachedPing _ i), rfl, rfl, rfl⟩
  obtain ⟨s1, h1, hframe, hsearches, hsent⟩ := hrest
  refine ⟨hframe.trans h1.frame, htable, ?_, ?_⟩
  · rw [hsearches]
    exact h1.searches
  · rw [hsent]
    exact h1.sent

/-- The nodes of a bucket that was taken apart join those that wait. -/
theorem Taken.waiting {s s' : State} {nodes taken : List Node} (h : Taken s s' i taken)
    (hok : TableOk s.self.myid s.buckets) (hw : Waiting s.self.myid s.buckets nodes) :
    Waiting s.self.myid s'.buckets (nodes ++ taken) := by
  obtain ⟨b, o, d, newId, hb, hown, rfl, hmid, hbuckets⟩ := h.old
  obtain ⟨old, new, _, _, heq, _, hon, _, hnn, _, _, _⟩ := hown.splitAt hb hmid
  have hbok := hok.bucket i b hb
  -- a bucket of the new row is empty, or was another one before
  have hother : ∀ c ∈ s'.buckets, c.nodes = [] ∨ ∃ k, k ≠ i ∧ s.buckets[k]? = some c := by
    intro c hc
    rw [hbuckets, heq] at hc
    rcases List.mem_append.mp hc with hc | hc
    · rcases List.mem_append.mp hc with hc | hc
      · right
        obtain ⟨k, hk⟩ := List.mem_iff_getElem?.mp hc
        rw [List.getElem?_take] at hk
        split at hk
        · next hlt => exact ⟨k, by omega, hk⟩
        · simp at hk
      · left
        simp only [List.mem_cons, List.not_mem_nil, or_false] at hc
        rcases hc with rfl | rfl
        · exact hon
        · exact hnn
    · right
      obtain ⟨k, hk⟩ := List.mem_iff_getElem?.mp hc
      rw [List.getElem?_drop] at hk
      exact ⟨i + 1 + k, by omega, hk⟩
  constructor
  · rw [List.map_append]
    refine List.nodup_append'.mpr ⟨hw.distinct, hbok.distinct, ?_⟩
    intro x hx hx'
    obtain ⟨n, hn, rfl⟩ := List.mem_map.mp hx
    exact (hw.apart n hn).2 b (List.mem_of_getElem? hb) hx'
  · intro n hn
    rcases List.mem_append.mp hn with hn | hn
    · refine ⟨(hw.apart n hn).1, fun c hc => ?_⟩
      rcases hother c hc with hempty | ⟨k, _, hk⟩
      · simp [hempty]
      · exact (hw.apart n hn).2 c (List.mem_of_getElem? hk)
    · refine ⟨(hbok.placed n hn).1, fun c hc => ?_⟩
      rcases hother c hc with hempty | ⟨k, hne, hk⟩
      · simp [hempty]
      · intro hmem
        obtain ⟨m, hm, hid⟩ := List.mem_map.mp hmem
        have h1 := (hbok.placed n hn).2
        have h2 := ((hok.bucket k c hk).placed m hm).2
        rw [hid, h1] at h2
        exact hne h2.symm

/-- Where our bucket is after a split, it is empty. -/
theorem Taken.own_empty {s s' : State} {taken : List Node} (h : Taken s s' i taken)
    {k : Nat} {c : Bucket} (hk : inBucket s.self.myid s'.buckets k = true)
    (hc : s'.buckets[k]? = some c) : c.nodes = [] := by
  obtain ⟨b, o, d, newId, hb, hown, rfl, hmid, hbuckets⟩ := h.old
  obtain ⟨old, new, i', o', heq, _, hon, _, hnn, _, hi', hown'⟩ := hown.splitAt hb hmid
  have hlen : (s.buckets.take i).length = i := by
    rw [List.length_take]
    have := (List.getElem?_eq_some_iff.mp hb).1
    omega
  rw [hbuckets] at hk hc
  obtain rfl := hown'.inBucket_iff.mp hk
  rw [heq, List.append_assoc] at hc
  rcases hi' with rfl | rfl
  · rw [List.getElem?_append_right (by omega), hlen, Nat.sub_self] at hc
    obtain rfl : old = c := by simpa using hc
    exact hon
  · rw [List.getElem?_append_right (by omega), hlen, Nat.add_sub_cancel_left] at hc
    obtain rfl : new = c := by simpa using hc
    exact hnn

/-- One turn of the loop in `split_bucket`, with `n` in hand. -/
inductive SplitTurn (w : World) (s : State) (n : Node) (nodes : List Node) :
    State → List Node → Prop
  | lost : insertNode n s.buckets = .noTable → SplitTurn w s n nodes s nodes
  | inserted (bs : List Bucket) : insertNode n s.buckets = .done bs →
      SplitTurn w s n nodes { s with buckets := bs } nodes
  | away (i : Nat) : insertNode n s.buckets = .full i → inBucket s.self.myid s.buckets i = false →
      SplitTurn w s n nodes s nodes
  | stuck (i : Nat) (s' : State) : insertNode n s.buckets = .full i →
      inBucket s.self.myid s.buckets i = true → splitBucketHelper w s i = (none, s') →
      SplitTurn w s n nodes s' nodes
  | split (i : Nat) (s' : State) (taken : List Node) : insertNode n s.buckets = .full i →
      inBucket s.self.myid s.buckets i = true → splitBucketHelper w s i = (some taken, s') →
      SplitTurn w s n nodes s' (n :: (nodes ++ taken))

theorem splitLoop_turn (w : World) (fuel : Nat) (s : State) (n : Node) (nodes : List Node) :
    ∃ s' nodes', SplitTurn w s n nodes s' nodes' ∧
      splitLoop w (fuel + 1) s (n :: nodes) = splitLoop w fuel s' nodes' := by
  rw [splitLoop]
  cases hins : insertNode n s.buckets with
  | noTable => exact ⟨s, nodes, .lost hins, rfl⟩
  | done bs => exact ⟨_, nodes, .inserted bs hins, rfl⟩
  | full i =>
    dsimp only
    cases hin : inBucket s.self.myid s.buckets i with
    | false => exact ⟨s, nodes, .away i hins hin, by simp⟩
    | true =>
      cases hr : splitBucketHelper w s i with
      | mk taken s' =>
        cases taken with
        | none => exact ⟨s', nodes, .stuck i s' hins hin hr, by simp⟩
        | some taken => exact ⟨s', _, .split i s' taken hins hin hr, by simp⟩

/-- What every turn keeps, the loop keeps. -/
theorem splitLoop_induction {w : World} {P : State → List Node → Prop}
    (step : ∀ s n nodes s' nodes', P s (n :: nodes) → SplitTurn w s n nodes s' nodes' → P s' nodes')
    (fuel : Nat) {s : State} {nodes : List Node} (h : P s nodes) :
    P (splitLoop w fuel s nodes).1 (splitLoop w fuel s nodes).2 := by
  induction fuel generalizing s nodes with
  | zero => cases nodes <;> exact h
  | succ fuel ih =>
    cases nodes with
    | nil => exact h
    | cons n nodes =>
      obtain ⟨s', nodes', hturn, heq⟩ := splitLoop_turn w fuel s n nodes
      rw [heq]
      exact ih (step s n nodes s' nodes' h hturn)

/-- The loop in progress: the table is sound, and the nodes that wait fit into it. -/
structure Splitting (start s : State) (nodes : List Node) : Prop where
  moves : Moves start s
  ok : TableOk start.self.myid s.buckets
  waiting : Waiting start.self.myid s.buckets nodes

theorem Splitting.turn {w : World} {start s s' : State} {n : Node} {nodes nodes' : List Node}
    (h : Splitting start s (n :: nodes)) (ht : SplitTurn w s n nodes s' nodes') :
    Splitting start s' nodes' := by
  have hself := h.moves.self
  have hok := h.ok
  have hw := h.waiting
  rw [← hself] at hok hw
  cases ht with
  | lost _ => exact ⟨h.moves, h.ok, h.waiting.tail⟩
  | away i _ _ => exact ⟨h.moves, h.ok, h.waiting.tail⟩
  | inserted bs hins =>
    obtain ⟨i, b, _, _, _, _, hok', hw'⟩ := insertNode_done hok hw hins
    rw [hself] at hok' hw'
    refine ⟨h.moves.trans ⟨rfl, fun _ => ?_, fun hs => hs, [], rfl, by simp⟩, hok', hw'⟩
    rw [hself]
    exact hok'
  | stuck i s' _ _ hr =>
    have hbuckets := splitBucketHelper_none w hr
    have hmoves := moves_splitBucketHelper w s i
    rw [hr] at hmoves
    refine ⟨h.moves.trans hmoves, ?_, ?_⟩
    · rw [hbuckets]
      exact h.ok
    · rw [hbuckets]
      exact h.waiting.tail
  | split i s' taken _ _ hr =>
    have htaken := splitBucketHelper_some w hok hr
    have hmoves := moves_splitBucketHelper w s i
    rw [hr] at hmoves
    have hwait := htaken.waiting hok hw
    have hok' := htaken.ok
    rw [hself] at hwait hok'
    exact ⟨h.moves.trans hmoves, hok', hwait⟩

/-- Every turn takes a node from those that wait, or makes the row of buckets longer. -/
theorem splitLoop_ends (w : World) {start : State} (total fuel : Nat) {s : State}
    {nodes : List Node} (h : Splitting start s nodes)
    (htotal : ∀ i b, inBucket start.self.myid s.buckets i = true → s.buckets[i]? = some b →
      nodes.length + b.nodes.length ≤ total)
    (hfuel : (161 - s.buckets.length) * (total + 1) + nodes.length ≤ fuel) :
    (splitLoop w fuel s nodes).2 = [] := by
  induction fuel generalizing s nodes with
  | zero =>
    cases nodes with
    | nil => rfl
    | cons n nodes =>
      simp only [List.length_cons] at hfuel
      omega
  | succ fuel ih =>
    cases nodes with
    | nil => rfl
    | cons n nodes =>
      obtain ⟨s', nodes', hturn, heq⟩ := splitLoop_turn w fuel s n nodes
      have hnext := h.turn hturn
      rw [heq]
      have hself := h.moves.self
      have hok := h.ok
      have hw := h.waiting
      rw [← hself] at hok hw
      simp only [List.length_cons] at hfuel htotal
      cases hturn with
      | lost _ => exact ih hnext (fun i b hi hb => by have := htotal i b hi hb; omega) (by omega)
      | away i _ _ =>
        exact ih hnext (fun i b hi hb => by have := htotal i b hi hb; omega) (by omega)
      | inserted bs hins =>
        obtain ⟨k, b, hfind, hb, _, rfl, hok', _⟩ := insertNode_done hok hw hins
        refine ih hnext ?_ (by simp only [List.length_modify]; omega)
        intro i c hi hc
        have hne : s.buckets ≠ [] := by
          intro hnil
          simp [hnil] at hb
        obtain ⟨own, o, d, hown⟩ := h.ok.shape hne
        -- inserting a node moves no bucket
        have hin : inBucket start.self.myid s.buckets i = true := by
          rw [Dht.inBucket_iff] at hi ⊢
          have hcells : cells (s.buckets.modify k fun b =>
            { b with nodes := n :: b.nodes, count := b.count + 1 }) =
              cells s.buckets := by apply cells_modify <;> exact fun _ => rfl
          rw [← hcells]
          exact hi
        simp only [List.getElem?_modify] at hc
        cases hold : s.buckets[i]? with
        | none => simp [hold] at hc
        | some c' =>
          have := htotal i c' hin hold
          by_cases hki : k = i
          · obtain rfl : _ = c := by simpa [hold, hki] using hc
            simp only [List.length_cons]
            omega
          · obtain rfl : c' = c := by simpa [hold, hki] using hc
            omega
      | stuck i s' _ _ hr =>
        have hbuckets := splitBucketHelper_none w hr
        refine ih hnext ?_ (by rw [hbuckets]; omega)
        rw [hbuckets]
        exact fun i b hi hb => by have := htotal i b hi hb; omega
      | split i s' taken _ hin hr =>
        have htaken := splitBucketHelper_some w hok hr
        have hlong := htaken.longer
        have hlength := hnext.ok.length_le
        obtain ⟨b, _, _, _, hb, _, rfl, _, _⟩ := htaken.old
        have hlast := htotal i b (hself ▸ hin) hb
        refine ih hnext ?_ ?_
        · intro k c hk hc
          rw [htaken.own_empty (hself ▸ hk) hc]
          simp only [List.length_cons, List.length_append, List.length_nil]
          omega
        · have hsucc : (161 - s.buckets.length) * (total + 1) =
              (161 - s'.buckets.length) * (total + 1) + (total + 1) := by
            rw [← Nat.succ_mul]
            congr 1
            omega
          simp only [List.length_cons, List.length_append]
          omega

/-- `split_bucket` ends with no node left to insert. -/
theorem splitBucket_some (w : World) {s s' : State} (hok : TableOk s.self.myid s.buckets)
    (h : splitBucket w s i = (true, s')) :
    ∃ taken s1, splitBucketHelper w s i = (some taken, s1) ∧ Splitting s s1 taken ∧
      splitLoop w (160 * (taken.length + 1)) s1 taken = (s', []) := by
  unfold splitBucket at h
  cases hr : splitBucketHelper w s i with
  | mk taken s1 =>
    cases taken with
    | none => simp [hr] at h
    | some taken =>
      simp only [hr, Prod.mk.injEq, true_and] at h
      have htaken := splitBucketHelper_some w hok hr
      have hmoves := moves_splitBucketHelper w s i
      rw [hr] at hmoves
      have hnone : Waiting s.self.myid s.buckets [] := ⟨List.nodup_nil, by simp⟩
      have hstart : Splitting s s1 taken := ⟨hmoves, htaken.ok, htaken.waiting hok hnone⟩
      refine ⟨taken, s1, rfl, hstart, ?_⟩
      have hlong := htaken.longer
      have hends := splitLoop_ends w taken.length (160 * (taken.length + 1)) hstart ?_ ?_
      · exact Prod.ext h hends
      · intro k c hk hc
        simp [htaken.own_empty hk hc]
      · have hpos : 0 < s.buckets.length := by
          obtain ⟨b, _, _, _, hb, _⟩ := htaken.old
          have := (List.getElem?_eq_some_iff.mp hb).1
          omega
        have hle : 161 - s1.buckets.length ≤ 159 := by omega
        have := Nat.mul_le_mul_right (taken.length + 1) hle
        omega

theorem Splitting.longer {w : World} {start s s' : State} {n : Node} {nodes nodes' : List Node}
    (h : Splitting start s (n :: nodes)) (ht : SplitTurn w s n nodes s' nodes') :
    s.buckets.length ≤ s'.buckets.length := by
  have hself := h.moves.self
  have hok := h.ok
  have hw := h.waiting
  rw [← hself] at hok hw
  cases ht with
  | lost _ => exact Nat.le_refl _
  | away i _ _ => exact Nat.le_refl _
  | inserted bs hins =>
    obtain ⟨_, _, _, _, _, rfl, _, _⟩ := insertNode_done hok hw hins
    simp
  | stuck i s' _ _ hr => rw [splitBucketHelper_none w hr]
  | split i s' taken _ _ hr =>
    have := (splitBucketHelper_some w hok hr).longer
    omega

theorem splitBucket_longer (w : World) {s s' : State} (hok : TableOk s.self.myid s.buckets)
    (h : splitBucket w s i = (true, s')) : s.buckets.length < s'.buckets.length := by
  obtain ⟨taken, s1, hhelper, hstart, hloop⟩ := splitBucket_some w hok h
  have hlong := (splitBucketHelper_some w hok hhelper).longer
  have hkept := splitLoop_induction (w := w)
    (P := fun s2 nodes => Splitting s s2 nodes ∧ s1.buckets.length ≤ s2.buckets.length)
    (fun s2 n nodes s3 nodes' hp ht => ⟨hp.1.turn ht, Nat.le_trans hp.2 (hp.1.longer ht)⟩)
    (160 * (taken.length + 1)) ⟨hstart, Nat.le_refl _⟩
  rw [hloop] at hkept
  have := hkept.2
  dsimp only at this
  omega

theorem moves_splitBucket (w : World) (s : State) (i : Nat) (hok : TableOk s.self.myid s.buckets) :
    Moves s (splitBucket w s i).2 := by
  have hmoves := moves_splitBucketHelper w s i
  cases hr : splitBucket w s i with
  | mk done s' =>
    cases done with
    | true =>
      obtain ⟨taken, s1, _, hstart, hloop⟩ := splitBucket_some w hok hr
      have hend := splitLoop_induction (P := Splitting s) (w := w)
        (fun s n nodes s' nodes' h ht => h.turn ht) (160 * (taken.length + 1)) hstart
      rw [hloop] at hend
      exact hend.moves
    | false =>
      unfold splitBucket at hr
      cases hh : splitBucketHelper w s i with
      | mk taken s1 =>
        rw [hh] at hmoves
        cases taken with
        | none =>
          obtain rfl : s1 = s' := by simpa [hh] using hr
          exact hmoves
        | some taken => simp [hh] at hr

theorem findIdx_none {b : Bucket} {id : Id}
    (h : b.nodes.findIdx? (fun n => idCmp n.id id == 0) = none) :
    id ∉ b.nodes.map Node.id := by
  intro hmem
  obtain ⟨n, hn, rfl⟩ := List.mem_map.mp hmem
  have := List.findIdx?_eq_none_iff.mp h n hn
  simp [(idCmp_eq_zero_iff n.id n.id).mpr rfl] at this

theorem heardFrom_id (now : Int) (sa : Endpoint) (confirm : Nat) (n : Node) :
    (heardFrom now sa confirm n).id = n.id := by
  unfold heardFrom
  split
  · dsimp only
    split <;> split <;> rfl
  · rfl

section Learning

variable (w : World) (s : State)

/-- A change of one bucket that leaves its outline sound. -/
theorem moves_modifyBucket (i : Nat) {f : Bucket → Bucket} (hfirst : ∀ b, (f b).first = b.first)
    (hcap : ∀ b, (f b).maxCount = b.maxCount) (hok : ∀ b, s.buckets[i]? = some b →
      BucketOk s.self.myid (cells s.buckets) i b → BucketOk s.self.myid (cells s.buckets) i (f b)) :
    Moves s (s.modifyBucket i f) :=
  ⟨rfl, fun h => h.modify hfirst hcap hok, fun h => h, [], rfl, by simp⟩

theorem moves_pingDubious (i : Nat) (b : Bucket) : Moves s (pingDubious s i b).2 := by
  unfold pingDubious
  split
  · exact Moves.refl s
  · next j _ =>
    split
    · exact Moves.refl s
    · next n _ =>
      have hping := moves_sendPing s n.ss
      have hmark : Moves (s.sendPing n.ss) ((s.sendPing n.ss).modifyNode i j fun n =>
          { n with pinged := n.pinged + 1, pingedTime := s.now }) :=
        moves_modifyNode _ i j (fun _ => rfl)
      exact hping.trans hmark

theorem pingDubious_length (i : Nat) (b : Bucket) :
    (pingDubious s i b).2.buckets.length = s.buckets.length := by
  unfold pingDubious
  split
  · rfl
  · split
    · rfl
    · simp only [State.modifyNode, State.modifyBucket, State.sendPing, State.send]
      split
      · simp
      · split <;> simp

/-- The id is not in the bucket `i` it belongs to, and it is not ours. -/
structure Unknown (s : State) (id : Id) (i : Nat) (b : Bucket) : Prop where
  bucket : s.buckets[i]? = some b
  new : id ∉ b.nodes.map Node.id
  other : id ≠ s.self.myid
  place : locate (val id) (cells s.buckets) = i

section Unknown

variable {s} {id : Id} {i : Nat} {b : Bucket}

theorem Unknown.same {s' : State} (h : Unknown s id i b) (hself : s'.self = s.self)
    (hbuckets : s'.buckets = s.buckets) : Unknown s' id i b := by
  refine ⟨?_, h.new, ?_, ?_⟩
  · rw [hbuckets]
    exact h.bucket
  · rw [hself]
    exact h.other
  · rw [hbuckets]
    exact h.place

/-- A node gives its slot to the id. -/
theorem Unknown.replace (h : Unknown s id i b) (j : Nat) (sa : Endpoint) (confirm : Nat) :
    Moves s (s.modifyNode i j fun _ => freshNode s.now id sa confirm) := by
  refine moves_modifyBucket s i (fun _ => rfl) (fun _ => rfl) (fun b' hb' hok => ?_)
  obtain rfl : b = b' := Option.some.inj (h.bucket.symm.trans hb')
  exact hok.replace j h.new h.other h.place

/-- The id gets a slot of its own. -/
theorem Unknown.cons (h : Unknown s id i b) (room : ¬ b.count ≥ b.maxCount) (sa : Endpoint)
    (confirm : Nat) : Moves s (s.modifyBucket i fun b =>
      { b with nodes := freshNode s.now id sa confirm :: b.nodes, count := b.count + 1 }) := by
  refine moves_modifyBucket s i (fun _ => rfl) (fun _ => rfl) (fun b' hb' hok => ?_)
  obtain rfl : b = b' := Option.some.inj (h.bucket.symm.trans hb')
  exact hok.cons (by omega) h.new h.other h.place

end Unknown

/-- The time of the bucket is set by a node that has replied. -/
theorem touched_spec (i confirm : Nat) {s1 : State}
    (hs1 : (if confirm = 2 then s.modifyBucket i fun b => { b with time := s.now } else s) = s1) :
    Moves s s1 ∧ cells s1.buckets = cells s.buckets := by
  subst hs1
  split
  · refine ⟨moves_touch s i (fun _ => rfl) (fun _ => rfl) (fun _ => rfl) (fun _ => rfl), ?_⟩
    apply cells_modify <;> exact fun _ => rfl
  · exact ⟨Moves.refl s, rfl⟩

theorem grown_spec (mine : Bool) {s2 : State}
    (hs2 : (if mine = true then { s with mybucketGrowTime := s.now } else s) = s2) :
    Moves s s2 ∧ s2.buckets = s.buckets := by
  subst hs2
  split
  · exact ⟨Moves.aside rfl rfl rfl rfl, rfl⟩
  · exact ⟨Moves.refl s, rfl⟩

theorem moves_tell (id : Id) (sa : Endpoint) (confirm : Nat) :
    Moves s (if confirm = 2 then addSearchNode s id sa else s) := by
  split
  · exact moves_addSearchNode s id sa
  · exact Moves.refl s

theorem findBucket_place {id : Id} {i : Nat} (hfind : findBucket id s.buckets = some i) :
    locate (val id) (cells s.buckets) = i := by
  have hbuckets : s.buckets ≠ [] := by
    intro hnil
    simp [hnil, findBucket] at hfind
  rw [findBucket_eq id hbuckets] at hfind
  exact Option.some.inj hfind

theorem moves_newNodeRound (id : Id) (sa : Endpoint) (confirm : Nat) (hgood : s.Good) :
    Moves s (newNodeRound w s id sa confirm).2 ∧
      ((newNodeRound w s id sa confirm).1 = .again →
        s.buckets.length < (newNodeRound w s id sa confirm).2.buckets.length) := by
  unfold newNodeRound
  cases hfind : findBucket id s.buckets with
  | none => exact ⟨Moves.refl s, by simp⟩
  | some i =>
    dsimp only
    split
    · exact ⟨Moves.refl s, by simp⟩
    next hself =>
    split
    · exact ⟨Moves.refl s, by simp⟩
    have hne : id ≠ s.self.myid := by
      intro heq
      exact hself (by rw [heq, (idCmp_eq_zero_iff _ _).mpr rfl]; rfl)
    generalize hs1 : (if confirm = 2 then s.modifyBucket i fun b =>
      { b with time := s.now } else s) = s1
    obtain ⟨h1, hcells⟩ := touched_spec s i confirm hs1
    have hlength : s1.buckets.length = s.buckets.length := by
      have := congrArg List.length hcells
      simpa [cells] using this
    cases hb : s1.buckets[i]? with
    | none => exact ⟨h1, by simp⟩
    | some b =>
      dsimp only
      split
      · next j _ =>
        exact ⟨h1.trans ((moves_modifyNode s1 i j (heardFrom_id _ _ _)).trans
          (moves_tell _ id sa confirm)), by simp⟩
      next hknown =>
      have hunknown : Unknown s1 id i b :=
        ⟨hb, findIdx_none hknown, h1.self ▸ hne, by rw [hcells]; exact findBucket_place s hfind⟩
      generalize hs2 : (if inBucket s.self.myid s.buckets i = true then
        { s1 with mybucketGrowTime := s1.now }
        else s1) = s2
      obtain ⟨hgrown, hbuckets⟩ := grown_spec s1 _ hs2
      have h2 := h1.trans hgrown
      have hunknown2 := hunknown.same hgrown.self hbuckets
      split
      · next j _ =>
        exact ⟨h2.trans ((hunknown2.replace j sa confirm).trans
          (moves_tell _ id sa confirm)), by simp⟩
      split
      · -- the bucket is full
        have hdub := moves_pingDubious s2 i b
        have hlen := pingDubious_length s2 i b
        generalize pingDubious s2 i b = r at hdub hlen
        obtain ⟨dubious, s3⟩ := r
        dsimp only at hdub hlen ⊢
        have hgood3 := (h2.trans hdub).good hgood
        split
        · have hsplit := moves_splitBucket w s3 i hgood3
          cases hr : splitBucket w s3 i with
          | mk done s4 =>
            rw [hr] at hsplit
            cases done with
            | false => exact ⟨(h2.trans hdub).trans hsplit, by simp⟩
            | true =>
              refine ⟨(h2.trans hdub).trans hsplit, fun _ => ?_⟩
              have hlong := splitBucket_longer w hgood3 hr
              rw [hlen, hbuckets, hlength] at hlong
              exact hlong
        · refine ⟨(h2.trans hdub).trans (Moves.trans ?_ (moves_tell _ id sa confirm)), by simp⟩
          refine moves_touch s3 i ?_ ?_ ?_ ?_ <;> (intro b; split <;> rfl)
      · next hroom =>
        have halloc : Moves s2 { s2 with allocs := s2.allocs + 1 } := Moves.aside rfl rfl rfl rfl
        have hunknown3 : Unknown { s2 with allocs := s2.allocs + 1 } id i b :=
          hunknown2.same rfl rfl
        split
        · exact ⟨h2.trans halloc, by simp⟩
        · refine ⟨h2.trans (halloc.trans ?_), by simp⟩
          exact (hunknown3.cons hroom sa confirm).trans (moves_tell _ id sa confirm)

theorem moves_newNodeLoop (id : Id) (sa : Endpoint) (confirm fuel : Nat) {s : State}
    (hgood : s.Good) : Moves s (newNodeLoop w id sa confirm fuel s).2 := by
  induction fuel generalizing s with
  | zero => exact Moves.refl s
  | succ fuel ih =>
    rw [newNodeLoop]
    have hround := (moves_newNodeRound w s id sa confirm hgood).1
    generalize newNodeRound w s id sa confirm = r at hround
    obtain ⟨round, s'⟩ := r
    cases round with
    | again => exact hround.trans (ih (hround.good hgood))
    | returned known => exact hround

theorem moves_newNode (id : Id) (sa : Endpoint) (confirm : Nat) (hgood : s.Good) :
    Moves s (newNode w s id sa confirm) := moves_newNodeLoop w id sa confirm 161 hgood

/-- `goto again` comes to an end: each time there is one bucket more. -/
theorem newNodeLoop_ends (id : Id) (sa : Endpoint) (confirm fuel : Nat) {s : State} (hgood : s.Good)
    (hfuel : 161 - s.buckets.length < fuel) :
    ∃ known, (newNodeLoop w id sa confirm fuel s).1 = some known := by
  induction fuel generalizing s with
  | zero => omega
  | succ fuel ih =>
    rw [newNodeLoop]
    obtain ⟨hround, hlong⟩ := moves_newNodeRound w s id sa confirm hgood
    generalize newNodeRound w s id sa confirm = r at hround hlong
    obtain ⟨round, s'⟩ := r
    cases round with
    | again =>
      have hlong := hlong rfl
      dsimp only at hlong ⊢
      have hgood' : s'.Good := hround.good hgood
      have : s'.buckets.length ≤ 161 := TableOk.length_le hgood'
      exact ih hgood' (by omega)
    | returned known => exact ⟨known, rfl⟩

end Learning

end Dht
