import Pipensx.PeerQueue

/-!
# Probes end

A rebuild adds the new endpoint twice, so that the table may keep one slot more than the ring has
entries. It never fills up: a rebuild is due before the tombstones take a quarter of it, and an
entry that is taken off leaves the number of slots that are not empty as it was.
-/

namespace PeerQueue

open ProbeTable

/-- The tombstones are counted, some slots are empty, and every slot in use is reached from the home
of its endpoint over slots that are not empty. -/
structure ProbesEnd (q : Queue) : Prop where
  tombstones : q.qhash.tombstones = (inState queueHashCap q.qhash .dead).card
  room : (inState queueHashCap q.qhash .used).card + (inState queueHashCap q.qhash .dead).card <
    queueHashCap
  reached : ∀ j, j < queueHashCap → (q.qhash.slots j).state = .used → ∃ d, d < queueHashCap ∧
    j = ProbeTable.place queueHashCap (queueHashIndex (q.qhash.slots j).key) d ∧
    ∀ e, e < d → (q.qhash.slots
      (ProbeTable.place queueHashCap (queueHashIndex (q.qhash.slots j).key) e)).state ≠ .empty

/-- `queue_hash_add_raw` puts the endpoint into a slot that is not in use. -/
def Stores (q : Queue) (e : Endpoint) : Prop :=
  ∃ j, j < queueHashCap ∧ (q.qhash.slots j).state ≠ .used ∧
    (queueHashAddRaw q e).qhash.slots = Function.update q.qhash.slots j ⟨.used, e⟩

/-- A call of `queue_hash_add_raw` in an operation, with what it is called on: one for every entry
of the ring where the table is rebuilt, and one for the new entry. -/
inductive AddRawCall (q : Queue) : Op → Queue → Endpoint → Prop
  | rebuilding {a : PeerAddr} {front : Bool} {around : Surroundings} {before after : List PeerAddr}
      {b : PeerAddr} (accepted : accepts q a.endpoint around = true)
      (due : (place q a front).qhash.tombstones > queueHashCap / 4)
      (entry : (place q a front).live = before ++ b :: after) :
      AddRawCall q (.insert a front around)
        (before.foldl (fun q a => queueHashAddRaw q a.endpoint)
          { place q a front with qhash := Index.zeroed ⟨0, 0⟩ }) b.endpoint
  | adding {a : PeerAddr} {front : Bool} {around : Surroundings}
      (accepted : accepts q a.endpoint around = true) :
      AddRawCall q (.insert a front around)
        (if (place q a front).qhash.tombstones > queueHashCap / 4 then queueHashRebuild
          (place q a front)
          else place q a front) a.endpoint

/-- The table has a slot for every entry of the ring, and one more at most; a quarter of it is what
the tombstones may take beside these. -/
structure Spaced (q : Queue) : Prop where
  head : q.qhead < maxPeerQueue
  size : q.qsize ≤ maxPeerQueue
  tail : q.qtail = (q.qhead + q.qsize) % maxPeerQueue
  sound : q.qhash.Sound queueHashCap queueHashIndex
  covers : ∀ e, q.endpoints.count e ≤ q.indexed e
  load : q.qhash.load queueHashCap ≤ q.qsize + 1
  filled : q.qhash.load queueHashCap + q.qhash.tombstones ≤ maxPeerQueue + 1 + queueHashCap / 4

theorem spaced_zeroed : Spaced zeroed := by
  have hload : zeroed.qhash.load queueHashCap = 0 := load_zeroed _
  have htombs : zeroed.qhash.tombstones = 0 := rfl
  refine ⟨by decide, by decide, by decide, sound_zeroed _ _ _, fun e => Nat.zero_le _, ?_, ?_⟩
  · rw [hload]
    exact Nat.zero_le _
  · rw [hload, htombs]
    exact Nat.zero_le _

section Steps

variable {q : Queue}

theorem Spaced.probesEnd (h : Spaced q) : ProbesEnd q := by
  have hfilled := h.filled
  have hcap : queueHashCap = 2048 := rfl
  have hmax : maxPeerQueue = 1024 := rfl
  refine ⟨h.sound.tombstones, ?_, h.sound.reached⟩
  rw [← h.sound.tombstones]
  have hload : (inState queueHashCap q.qhash .used).card = q.qhash.load queueHashCap := rfl
  omega

theorem stores_of_room (room : q.qhash.load queueHashCap < queueHashCap) (e : Endpoint) :
    Stores q e :=
  Index.add_stores room e

theorem Spaced.stores (h : Spaced q) (e : Endpoint) : Stores q e := by
  have hload := h.load
  have hsize := h.size
  have hcap : queueHashCap = 2048 := rfl
  have hmax : maxPeerQueue = 1024 := rfl
  exact stores_of_room (by omega) e

theorem Spaced.pop (h : Spaced q) : Spaced (queuePop q).1 := by
  cases hpopped : queuePop q with
  | mk q' popped =>
  cases popped with
  | none =>
    rw [queuePop_none hpopped]
    exact h
  | some a =>
    have hends := queuePop_endpoints h.head hpopped
    have hcovers := h.covers
    simp only [hends, List.count_cons] at hcovers
    have hstored : 0 < q.indexed a.endpoint := by
      have hthis := hcovers a.endpoint
      simp only [BEq.rfl, if_true] at hthis
      omega
    have hused : 0 < q.qhash.load queueHashCap := Index.load_pos hstored
    obtain ⟨hhead, hcount, htail, hsound, hload, hindexed⟩ :=
      queuePop_leaves h.head h.tail h.sound hstored hpopped
    have htombs : q'.qhash.tombstones ≤ q.qhash.tombstones + 1 := by
      obtain ⟨n, -, -, rfl⟩ := queuePop_some h.head hpopped
      exact Index.tombstones_remove_le a.endpoint
    have hsize := h.size
    have hold := h.load
    have hfilled := h.filled
    simp only
    refine ⟨hhead, by omega, htail, hsound, fun e => ?_, by omega, by omega⟩
    have hthis := hcovers e
    rw [hindexed]
    by_cases heq : e = a.endpoint
    · simp only [heq, BEq.rfl, if_true] at hthis ⊢
      omega
    · simp only [if_neg heq, beq_iff_eq, Ne.symm heq, if_false] at hthis ⊢
      omega

/-- The ring with the new entry, and the table as it was. -/
structure Placed (q p : Queue) (e : Endpoint) : Prop where
  head : p.qhead < maxPeerQueue
  tail : p.qtail = (p.qhead + p.qsize) % maxPeerQueue
  size : p.qsize = q.qsize + 1
  table : p.qhash = q.qhash
  endpoints : p.endpoints.Perm (e :: q.endpoints)

theorem Spaced.placed (h : Spaced q) {a : PeerAddr} (room : q.qsize < maxPeerQueue) (front : Bool) :
    Placed q (place q a front) a.endpoint := by
  obtain ⟨hhead, htail, hsize, hhash, hring⟩ := place_ring h.head h.tail room a front
  exact ⟨hhead, htail, hsize, hhash, hring.map PeerAddr.endpoint⟩

/-- The rebuilt table has a slot for every entry of the ring. -/
theorem rebuild_spec {p : Queue} (size : p.qsize ≤ maxPeerQueue) :
    (queueHashRebuild p).qhash.Sound queueHashCap queueHashIndex ∧
      (queueHashRebuild p).qhash.load queueHashCap = p.qsize ∧
      (queueHashRebuild p).qhash.tombstones = 0 ∧
      ∀ e, (queueHashRebuild p).indexed e = p.endpoints.count e := by
  have hlength : p.endpoints.length = p.qsize := by simp [Queue.endpoints, Queue.live]
  have hcap : queueHashCap = 2048 := rfl
  have hmax : maxPeerQueue = 1024 := rfl
  obtain ⟨hsound, hload, hcount⟩ :=
    addAll_spec p.endpoints (sound_zeroed queueHashCap queueHashIndex (⟨0, 0⟩ : Endpoint))
    (by rw [load_zeroed, hlength]; omega)
  rw [load_zeroed, Nat.zero_add, hlength] at hload
  rw [queueHashRebuild_eq]
  refine ⟨hsound, hload, Nat.le_zero.mp (tombstones_addAll_le _ _), fun e => ?_⟩
  rw [Queue.indexed, hcount, count_zeroed, Nat.zero_add]

/-- One endpoint more in the ring and in the table. -/
theorem Placed.added {p p' : Queue} {e : Endpoint} (room : q.qsize < maxPeerQueue)
    (placed : Placed q p e)
    (same : ∃ x, p' = { p with qhash := x }) (sound : p'.qhash.Sound queueHashCap queueHashIndex)
    (load : p'.qhash.load queueHashCap ≤ q.qsize + 1)
    (tombstones : p'.qhash.tombstones ≤ queueHashCap / 4)
    (covers : ∀ e', q.endpoints.count e' ≤ p'.indexed e') : Spaced (queueHashAddRaw p' e) := by
  obtain ⟨x, rfl⟩ := same
  have hcap : queueHashCap = 2048 := rfl
  have hmax : maxPeerQueue = 1024 := rfl
  have hsize := placed.size
  obtain ⟨hsound, hload, hcount⟩ := sound.add (by omega) e
  have htombs : ((Index.add queueHashCap queueHashIndex x e)).tombstones ≤ x.tombstones :=
    Index.tombstones_add_le e
  simp only at hload load tombstones
  refine ⟨placed.head, ?_, placed.tail, hsound, fun e' => ?_, ?_, ?_⟩
  · show p.qsize ≤ maxPeerQueue
    omega
  · have hplaced : (queueHashAddRaw { p with qhash := x } e).endpoints.count e' =
      (e :: q.endpoints).count e' :=
      placed.endpoints.count_eq e'
    have hindexed : (queueHashAddRaw { p with qhash := x } e).indexed e' =
        Queue.indexed { p with qhash := x } e' + if e' = e then 1 else 0 := hcount e'
    have hthis := covers e'
    rw [hplaced, hindexed, List.count_cons]
    by_cases heq : e' = e
    · simp only [heq, BEq.rfl, if_true] at hthis ⊢
      omega
    · simp only [if_neg heq, beq_iff_eq, Ne.symm heq, if_false]
      omega
  · show (Index.add queueHashCap queueHashIndex x e).load queueHashCap ≤ p.qsize + 1
    omega
  · show (Index.add queueHashCap queueHashIndex x e).load queueHashCap +
      (Index.add queueHashCap queueHashIndex x e).tombstones ≤ _
    omega

/-- What the new endpoint is added to. -/
structure Ready (q p p' : Queue) : Prop where
  same : ∃ x, p' = { p with qhash := x }
  sound : p'.qhash.Sound queueHashCap queueHashIndex
  load : p'.qhash.load queueHashCap ≤ q.qsize + 1
  tombstones : p'.qhash.tombstones ≤ queueHashCap / 4
  covers : ∀ e, q.endpoints.count e ≤ p'.indexed e

theorem Spaced.ready (h : Spaced q) {p : Queue} {e : Endpoint} (room : q.qsize < maxPeerQueue)
    (placed : Placed q p e) :
    Ready q p (if p.qhash.tombstones > queueHashCap / 4 then queueHashRebuild p else p) := by
  have hsize := placed.size
  split
  · obtain ⟨hsound, hload, htombs, hindexed⟩ := rebuild_spec (p := p) (by omega)
    refine ⟨⟨_, queueHashRebuild_eq p⟩, hsound, by omega, by omega, fun e' => ?_⟩
    rw [hindexed, placed.endpoints.count_eq, List.count_cons]
    exact Nat.le_add_right _ _
  · next few =>
    refine ⟨⟨p.qhash, rfl⟩, ?_, ?_, Nat.le_of_not_lt few, fun e' => ?_⟩
    · rw [placed.table]
      exact h.sound
    · rw [placed.table]
      exact h.load
    · rw [Queue.indexed, placed.table]
      exact h.covers e'

theorem Spaced.insert (h : Spaced q) (a : PeerAddr) (front : Bool) (around : Surroundings) :
    Spaced (queueInsert q a front around).1 := by
  rw [queueInsert]
  split
  · exact h
  · next accepted =>
    obtain ⟨room, -⟩ := accepts_iff (Bool.not_eq_false _ ▸ accepted)
    have placed := h.placed room front (a := a)
    have ready := h.ready room placed
    exact placed.added room ready.same ready.sound ready.load ready.tombstones ready.covers

theorem Spaced.step (h : Spaced q) (op : Op) : Spaced (step q op) := by
  cases op with
  | insert a front around => exact h.insert a front around
  | pop => exact h.pop

/-- Every call finds a slot, those of a rebuild too. -/
theorem Spaced.calls (h : Spaced q) {op : Op} {q' : Queue} {e : Endpoint}
    (call : AddRawCall q op q' e) : Stores q' e := by
  have hcap : queueHashCap = 2048 := rfl
  have hmax : maxPeerQueue = 1024 := rfl
  cases call with
  | @rebuilding a front around before after b accepted due entry =>
    obtain ⟨room, -⟩ := accepts_iff accepted
    have placed := h.placed room front (a := a)
    have hlength : (place q a front).live.length = (place q a front).qsize := by simp [Queue.live]
    rw [entry, List.length_append, List.length_cons, placed.size] at hlength
    have hload := (addAll_spec (before.map PeerAddr.endpoint)
      (sound_zeroed queueHashCap queueHashIndex (⟨0, 0⟩ : Endpoint))
        (by rw [load_zeroed, List.length_map]; omega)).2.1
    rw [load_zeroed, List.length_map] at hload
    refine stores_of_room ?_ b.endpoint
    rw [addRaw_foldl]
    exact hload.trans_lt (by omega)
  | @adding a front around accepted =>
    obtain ⟨room, -⟩ := accepts_iff accepted
    have hload := (h.ready room (h.placed room front (a := a))).load
    exact stores_of_room (by omega) a.endpoint

end Steps

theorem spaced_run (ops : List Op) : Spaced (run zeroed ops) := by
  have hall : ∀ {q : Queue}, Spaced q → Spaced (run q ops) := by
    induction ops with
    | nil => exact fun h => h
    | cons op ops ih => exact fun h => ih (h.step op)
  exact hall spaced_zeroed

/-- In every state of a run the probes come to an empty slot, and whatever is added to the table is
stored, in that state and in each call the next operation makes. -/
theorem run_probesEnd (ops : List Op) :
    ProbesEnd (run zeroed ops) ∧ (∀ e, Stores (run zeroed ops) e) ∧
      ∀ op q e, AddRawCall (run zeroed ops) op q e → Stores q e := by
  have h := spaced_run ops
  exact ⟨h.probesEnd, h.stores, fun op q e call => h.calls call⟩

end PeerQueue
