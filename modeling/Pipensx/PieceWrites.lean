import Pipensx.RequestCounts

/-!
# Pieces on their way to the store

When the system does what it is asked for, every write of a piece succeeds: the range of a
piece lies in the files of the torrent. The results of calls and of hashed pieces are then
never negative, as long as the blocks given to the manager are ones it accepts.
-/

namespace PieceManager

open PieceGeometry Storage

/-- The store has the files of the torrent, ready to be written to. -/
structure Stored (c : Config) (s : Mgr) : Prop where
  opened : Opened c.mi s.store
  ready : s.store.Ready

/-- The store is as it was, or as one write has left it. -/
def Wrote (st st' : Store) : Prop :=
  st' = st ∨ ∃ io offset bytes,
    storageWrite io st offset bytes = .ok st' ∨ storageWrite io st offset bytes = .error st'

/-- The most a piece can have. -/
def maxPieceBytes : Nat := TorrentFile.maxPieceLength.toNat

/-- No allocation and nothing under a write fails in this action. -/
def Act.Willing : Act → Prop
  | .call _ env => env.alloc = true ∧ Storage.Willing env.io maxPieceBytes
  | .apply io => Storage.Willing io maxPieceBytes
  | _ => True

section Writes

variable {c : Config} {s s' : Mgr}

theorem Stored.wrote (layout : TorrentLayout.FileLayout c.mi) (h : Stored c s)
    (hwrote : Wrote s.store s'.store) : Stored c s' := by
  rcases hwrote with hsame | ⟨io, offset, bytes, hwrite⟩
  · constructor
    · rw [hsame]
      exact h.opened
    · rw [hsame]
      exact h.ready
  · have hready := storageWrite_ready io (laid_of_opened layout h.opened) h.ready offset bytes
    rcases hwrite with hok | herror
    · rw [hok] at hready
      exact ⟨hready.1.opened h.opened, hready.2⟩
    · rw [herror] at hready
      exact ⟨hready.1.opened h.opened, hready.2.1⟩

theorem Edit.wrote {l : Licence} (h : Edit c l s s') : Wrote s.store s'.store := by
  cases h with
  | flags v ok started lookahead first => exact Or.inl rfl
  | count idx block f =>
    obtain ⟨counts, hcounts⟩ := setCount_eq c s idx block f
    rw [hcounts]
    exact Or.inl rfl
  | pending idx => exact Or.inl rfl
  | buffer idx alloc => exact Or.inl (slotBuf_frame alloc s idx).2.2.1
  | block idx offset data b => exact Or.inl (storeBlock_frame c s idx offset data b).2.2.1
  | reset idx => exact Or.inl (Untouched.resetPiece c s idx).store
  | skipped idx => exact Or.inl rfl
  | readable idx => exact Or.inl rfl
  | written idx io st _ _ _ hwrite =>
    obtain ⟨pool, hpool⟩ := pieceBufPut_eq
      (markPieceDone c { s with store := st } idx (plenOf c idx)) (s.slots idx).buf
    rw [hpool]
    exact Or.inr ⟨io, _, _, Or.inl hwrite⟩
  | refused idx io st _ _ hwrite =>
    rw [(Untouched.resetPiece c { s with store := st } idx).store]
    exact Or.inr ⟨io, _, _, Or.inr hwrite⟩

theorem Applied.wrote {job : HashJob} {report : Option (Nat × Int)}
    (h : Applied c s job s' report) : Wrote s.store s'.store := by
  cases h with
  | stale _ =>
    obtain ⟨pool, hpool⟩ := pieceBufPut_eq s job.buf
    rw [hpool]
    exact Or.inl rfl
  | mismatch _ _ =>
    rw [(Untouched.resetPiece c _ job.idx).store]
    exact Or.inl rfl
  | refused io st _ _ hwrite =>
    rw [(Untouched.resetPiece c _ job.idx).store]
    exact Or.inr ⟨io, _, _, Or.inr hwrite⟩
  | written io st _ _ hwrite =>
    obtain ⟨pool, hpool⟩ := pieceBufPut_eq
      (markPieceDone c { s with store := st } job.idx job.plen) job.buf
    rw [hpool]
    exact Or.inr ⟨io, _, _, Or.inl hwrite⟩

theorem Stored.edits (layout : TorrentLayout.FileLayout c.mi) (h : Stored c s) {l : Licence}
    (hedits : Edits c l s s') : Stored c s' :=
  hedits.induction (P := Stored c) (fun _ _ hold hedit => hold.wrote layout hedit.wrote) h

theorem Stored.transition (layout : TorrentLayout.FileLayout c.mi) {m m' : Machine} {act : Act}
    {events : List Event} (h : Stored c m.mgr) (t : Transition c m act m' events) :
    Stored c m'.mgr := by
  cases t with
  | call call env _ => exact h.edits layout (start_edits c m.mgr env call).1
  | apply io job next _ => exact h.wrote layout (hashApply_applied c io m.mgr job).wrote
  | pop next _ _ _ => exact h.wrote layout (Or.inl rfl)
  | push idx plen _ => exact h.wrote layout (Or.inl rfl)
  | publish entry idx buf plen ok _ => exact h.wrote layout (Or.inl rfl)
  | _ => exact h

/-- A whole piece can be written. -/
theorem Stored.writes (wf : TorrentLayout.WellFormed c.mi) (h : Stored c s) {io : Faults}
    (willing : Storage.Willing io maxPieceBytes) {idx : Nat} (hidx : idx < c.mi.numPieces)
    {bytes : List UInt8} (hbytes : bytes.length = plenOf c idx) :
    ∃ st, storageWrite io s.store (absOff c.mi idx) bytes = .ok st := by
  obtain ⟨hlow, hhigh⟩ := pieceLen_bounds wf.exact hidx
  obtain ⟨hstart, hend⟩ := piece_range wf.exact hidx
  have hlimit := wf.pieceLength_le
  simp only [TorrentFile.maxPieceLength] at hlimit
  have hlen : (bytes.length : Int) = pieceLen c.mi idx := by
    rw [hbytes, plenOf]
    omega
  refine storageWrite_succeeds wf.layout h.opened h.ready (willing.shorter ?_) hstart (by omega)
  simp only [maxPieceBytes, TorrentFile.maxPieceLength]
  omega

/-- A hashed piece is reported with 0 or 2. -/
theorem hashApply_report (wf : TorrentLayout.WellFormed c.mi) (h : Stored c s) {io : Faults}
    (willing : Storage.Willing io maxPieceBytes) {job : HashJob} (sound : JobSound c job)
    (hbuf : job.buf ≠ none) {idx : Nat} {status : Int}
    (hreport : (hashApply c io s job).2 = some (idx, status)) : 0 ≤ status := by
  obtain ⟨hidx, hplen⟩ := sound
  have hlength : (s.bytes job.buf job.plen).length = plenOf c job.idx := by
    rw [bytes_length s hbuf, hplen]
  obtain ⟨st, hwrite⟩ := h.writes wf willing hidx hlength
  simp only [hashApply] at hreport
  split at hreport
  · cases hreport
  · split at hreport
    · cases hreport
      decide
    · rw [hwrite] at hreport
      cases hreport
      decide

theorem verifyInline_result (wf : TorrentLayout.WellFormed c.mi) (h : Stored c s) {io : Faults}
    (willing : Storage.Willing io maxPieceBytes) {idx : Nat} (entering : Entering c s idx) :
    0 ≤ (verifyInline c io s idx (plenOf c idx)).2 := by
  obtain ⟨hidx, _, hbuf, _⟩ := entering
  obtain ⟨st, hwrite⟩ := h.writes wf willing hidx (bytes_length s hbuf (plenOf c idx))
  simp only [verifyInline]
  split
  · simp
  · rw [hwrite]
    simp

/-- A slot has a buffer when memory does not run out. -/
theorem slotBuf_alloc (s : Mgr) (idx : Nat) : (slotBuf true s idx).1 ≠ none := by
  simp only [slotBuf]
  split
  · simp
  · simp only [pieceBufGet]
    split
    · simp
    · simp

/-- A block that passes the checks is taken. -/
theorem gotBlock_accepts (wf : TorrentLayout.WellFormed c.mi) (h : Stored c s) {env : Env}
    (alloc : env.alloc = true) (willing : Storage.Willing env.io maxPieceBytes) {idx offset : Nat}
    {data : List UInt8} (acceptable : Acceptable c s idx offset data) {r : Int}
    (hresult : (gotBlock c env s idx offset (some data)).2 = some r) : 0 ≤ r := by
  have htaken := gotBlock_taken c env s idx offset (some data)
  generalize gotBlock c env s idx offset (some data) = taken at htaken hresult
  cases htaken with
  | rejected hbad => exact absurd acceptable (hbad data rfl)
  | late _ _ =>
    cases hresult
    decide
  | noBuffer _ _ hnone =>
    rw [alloc] at hnone
    exact absurd hnone (slotBuf_alloc s idx)
  | stored bytes b hopen hgood hb =>
    obtain ⟨hidx, hpending, hbuf⟩ := collecting_stored hgood hb
    have hstored : Stored c (storeBlock c (slotBuf env.alloc s idx).2 idx offset bytes b) := by
      refine h.wrote wf.layout (Or.inl ?_)
      rw [(storeBlock_frame c _ idx offset bytes b).2.2.1, (slotBuf_frame env.alloc s idx).2.2.1]
    generalize storeBlock c (slotBuf env.alloc s idx).2 idx offset bytes b =
      s1 at hstored hidx hpending hbuf hresult
    obtain ⟨ok, started, hready, _, _⟩ := hashWorkerReady_eq env.spawn s1
    simp only [finishBlock] at hresult
    split at hresult
    · cases hresult
      decide
    · next hcomplete =>
      split at hresult
      · cases hresult
      · cases hresult
        refine verifyInline_result wf (hstored.wrote wf.layout (Or.inl ?_)) willing ?_
        · rw [hready]
        · rw [hready]
          exact ⟨hidx, hpending, hbuf, by simpa using hcomplete⟩

end Writes

section Runs

variable {c : Config}

theorem start_reports (c : Config) (s : Mgr) (env : Env) (call : Call) (idx : Nat) (status : Int) :
    Event.report idx status ∉ (start c s env call).2.2 := by
  cases call with
  | gotBlock i offset data =>
    simp only [start]
    split <;> simp
  | drainHashResults =>
    simp only [start]
    split <;> simp
  | hashFlush =>
    simp only [start]
    split <;> simp
  | _ => simp [start]

theorem transition_reports (wf : TorrentLayout.WellFormed c.mi) {m m' : Machine} {act : Act}
    {log events : List Event} (sound : MachineSound c m log) (stored : Stored c m.mgr)
    (willing : act.Willing) (t : Transition c m act m' events) {idx : Nat} {status : Int}
    (hreport : .report idx status ∈ events) : 0 ≤ status := by
  cases t with
  | call call env _ => exact absurd hreport (start_reports c m.mgr env call idx status)
  | drained flushing _ _ =>
    cases flushing <;> simp at hreport
  | pop next _ _ _ => simp [popStep] at hreport
  | push i plen _ => simp [pushStep] at hreport
  | apply io job next hpc =>
    have hflight : m.pc.flight = some job := by
      rw [hpc]
      rfl
    obtain ⟨p, hp, heq⟩ := List.mem_map.mp hreport
    cases heq
    have hpair : (hashApply c io m.mgr job).2 = some (p.1, p.2) := by simpa using hp
    exact hashApply_report wf stored willing (sound.ring.held job hflight).1
      (sound.buffers.owned.flightBuf job hflight) hpair
  | publish entry i buf plen ok _ => simp at hreport
  | _ => cases hreport

/-- Inside a call only 0 and 1 are returned. -/
theorem transition_returns {m m' : Machine} {act : Act} {events : List Event}
    (inner : ∀ call env, act ≠ .call call env) (t : Transition c m act m' events) {value : Int}
    (hreturned : .returned value ∈ events) : 0 ≤ value := by
  cases t with
  | call call env _ => exact absurd rfl (inner call env)
  | drained flushing _ _ =>
    cases flushing with
    | true => simp at hreturned
    | false =>
      simp only [Bool.false_eq_true, if_false, List.mem_singleton,
        Event.returned.injEq] at hreturned
      omega
  | pop next _ _ _ => simp [popStep] at hreturned
  | push idx plen _ =>
    simp only [pushStep, List.mem_cons, Event.returned.injEq, List.not_mem_nil,
      or_false, reduceCtorEq, false_or] at hreturned
    omega
  | apply io job next _ => simp at hreturned
  | publish entry idx buf plen ok _ => simp at hreturned
  | _ => cases hreturned

/-- No negative report, whatever both threads do. -/
theorem run_reports (wf : TorrentLayout.WellFormed c.mi) {m m' : Machine} {acts : List Act}
    {log events : List Event} (sound : MachineSound c m log) (stored : Stored c m.mgr)
    (willing : ∀ act ∈ acts, act.Willing) (h : run c m acts = some (m', events)) :
    Stored c m'.mgr ∧ ∀ idx status, .report idx status ∈ events → 0 ≤ status := by
  induction acts generalizing m log events with
  | nil =>
    cases h
    exact ⟨stored, fun _ _ hmem => by cases hmem⟩
  | cons act rest ih =>
    obtain ⟨m1, first, later, hstep, hrest, rfl⟩ := run_cons h
    have ht := step_transition hstep
    obtain ⟨hstored, hlater⟩ := ih (sound.step wf hstep) (stored.transition wf.layout ht)
      (fun a ha => willing a (by simp [ha])) hrest
    refine ⟨hstored, ?_⟩
    intro idx status hmem
    rcases List.mem_append.mp hmem with hfirst | hmem
    · exact transition_reports wf sound stored (willing act (by simp)) ht hfirst
    · exact hlater idx status hmem

theorem run_returns {m m' : Machine} {acts : List Act} {events : List Event}
    (inner : ∀ act ∈ acts, ∀ call env, act ≠ .call call env) (h : run c m acts = some (m', events))
    {value : Int} (hreturned : .returned value ∈ events) : 0 ≤ value := by
  induction acts generalizing m events with
  | nil =>
    cases h
    cases hreturned
  | cons act rest ih =>
    obtain ⟨m1, first, later, hstep, hrest, rfl⟩ := run_cons h
    rcases List.mem_append.mp hreturned with hfirst | hlater
    · exact transition_returns (inner act (by simp)) (step_transition hstep) hfirst
    · exact ih (fun a ha => inner a (by simp [ha])) hrest hlater

end Runs

end PieceManager
