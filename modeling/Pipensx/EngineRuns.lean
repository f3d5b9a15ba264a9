import Pipensx.EngineProgress
import Pipensx.PieceFrames
import Pipensx.PieceWrites
import Pipensx.PipelineCounts

/-!
# Steps of the engine as runs of the piece manager

Whatever the engine does, its piece manager only goes through calls of the torrent thread
and steps of the worker. A step that is no round of the startup check makes no call that
marks a piece done unhashed, so what every call of the other kinds preserves is preserved
by every such step.
-/

namespace PieceManager

/-- A call that takes no piece as done without hashing it from a buffer. -/
def Act.Hashing (act : Act) : Prop := act.licence.preset = false ∧ act.licence.check = false

theorem run_append {c : Config} {m m1 m2 : Machine} {acts acts' : List Act}
    {events events' : List Event}
    (h : run c m acts = some (m1, events)) (h' : run c m1 acts' = some (m2, events')) :
    run c m (acts ++ acts') = some (m2, events ++ events') := by
  induction acts generalizing m events with
  | nil =>
    cases h
    exact h'
  | cons act rest ih =>
    obtain ⟨m0, first, later, hstep, hrest, rfl⟩ := run_cons h
    have hall := ih hrest
    simp only [List.cons_append, run, hstep, hall, List.append_assoc]

/-- A write changes the content of files, and nothing else about them. -/
theorem Wrote.shape {st st' : Storage.Store} (laid : Storage.Laid st.files) (h : Wrote st st') :
    Storage.SameShape st st' := by
  rcases h with hsame | ⟨io, offset, bytes, hwrite⟩
  · rw [hsame]
    exact Storage.SameShape.refl st
  · exact (wroteWithin_of_write laid rfl hwrite).shape

/-- The table of files never changes. -/
theorem Transition.shape {c : Config} {m m' : Machine} {act : Act} {events : List Event}
    (laid : Storage.Laid m.mgr.store.files) (h : Transition c m act m' events) :
    Storage.SameShape m.mgr.store m'.mgr.store := by
  cases h with
  | call call env _ =>
    refine (start_edits c m.mgr env call).1.induction
      (P := fun s => Storage.SameShape m.mgr.store s.store) ?_ (Storage.SameShape.refl _)
    intro s s' hold hedit
    exact hold.trans (hedit.wrote.shape (hold.laid laid))
  | apply io job next _ => exact (hashApply_applied c io m.mgr job).wrote.shape laid
  | _ => exact Storage.SameShape.refl _

end PieceManager

namespace TorrentEngine

open PieceManager PeerRequests PieceGeometry

/-- `m'` comes from `m` by calls that hash what they mark done, and by the worker. -/
def Reached (c : Config) (m m' : Machine) : Prop :=
  m.pc = .idle → m'.pc = .idle ∧ ∃ acts events, PieceManager.run c m acts = some (m', events) ∧
    ∀ act ∈ acts, act.Hashing

section Reaching

variable {c : Config} {m m1 m2 : Machine}

theorem Reached.refl (m : Machine) : Reached c m m := by
  intro hidle
  exact ⟨hidle, [], [], rfl, by simp⟩

theorem Reached.trans (h : Reached c m m1) (h' : Reached c m1 m2) : Reached c m m2 := by
  intro hidle
  obtain ⟨hidle1, acts, events, hrun, hacts⟩ := h hidle
  obtain ⟨hidle2, acts', events', hrun', hacts'⟩ := h' hidle1
  refine ⟨hidle2, acts ++ acts', events ++ events', run_append hrun hrun', ?_⟩
  intro act hact
  rcases List.mem_append.mp hact with hleft | hright
  · exact hacts act hleft
  · exact hacts' act hright

/-- A call that comes back at once. -/
theorem Reached.call {s : Mgr} (call : Call) (env : Env) (hashing : (Act.call call env).Hashing)
    (hstart : (start c m.mgr env call).1 = s) (hback : (start c m.mgr env call).2.1 = .idle) :
    Reached c m { m with mgr := s } := by
  intro hidle
  refine ⟨hidle, [.call call env], (start c m.mgr env call).2.2, ?_, ?_⟩
  · rw [PieceManager.run, step_idle_call hidle, hstart, hback]
    simp [PieceManager.run, hidle]
  · intro act hact
    rw [List.mem_singleton.mp hact]
    exact hashing

theorem hashing_of_inner {act : Act} (h : inner act = true) : act.Hashing := by
  cases act with
  | call call env => cases h
  | _ => exact ⟨rfl, rfl⟩

theorem Reached.callPieces {t t' : Torrent} {call : Call} {k : Calling} {result : Int}
    (hashing : (Act.call call k.env).Hashing) (h : callPieces c t call k = some (t', result)) :
    Reached c t.machine t'.machine := by
  intro _
  obtain ⟨hinner, m, events, hrun, hback, rfl, _⟩ := callPieces_run h
  rw [hashResults_machine]
  refine ⟨hback, _, events, hrun, ?_⟩
  intro act hact
  rcases List.mem_cons.mp hact with rfl | hrest
  · exact hashing
  · exact hashing_of_inner (hinner act hrest)

theorem Reached.clearRequests (m : Machine) (rs : List BlockReq) :
    Reached c m { m with mgr := rs.foldl (clearRequest c) m.mgr } := by
  refine clearRequests_induction (P := fun s => Reached c m { m with mgr := s })
    (fun s piece block hs => ?_) rs (.refl m)
  have hone : Reached c { m with mgr := s } { m with mgr := clearBlockRequested c s piece block } :=
    Reached.call (.clearBlockRequested piece block) (envOf true) ⟨rfl, rfl⟩ rfl rfl
  exact hs.trans hone

theorem afterBlock_machine (nets : Nat → PeerSend.Transport) (idx off len now : Nat)
    (had duplicated : Bool) (r : Torrent × Int) :
    (afterBlock nets idx off len now had duplicated r).machine = r.1.machine := by
  simp only [afterBlock]
  split <;> split <;> split <;> rfl

/-- What every step of the two threads preserves between such calls. -/
theorem Reached.induction {P : Machine → Prop} (wf : TorrentLayout.WellFormed c.mi)
    (settled : Settled c m) (h : Reached c m m1)
    (preserved : ∀ m log act m' events, MachineSound c m log → P m → act.Hashing →
      Transition c m act m' events → P m') (init : P m) : P m1 := by
  obtain ⟨log, hsound⟩ := settled.sound
  obtain ⟨_, acts, events, hrun, hashing⟩ := h settled.idle
  have key := run_induction (fun m log => MachineSound c m log ∧ P m) Act.Hashing ?_
    log hrun hashing ⟨hsound, init⟩
  · exact key.2
  · rintro m log act m' events ⟨hsound, hold⟩ hact hstep
    exact ⟨hsound.step wf hstep, preserved m log act m' events hsound hold hact
      (step_transition hstep)⟩

theorem Reached.shape (wf : TorrentLayout.WellFormed c.mi) (settled : Settled c m)
    (h : Reached c m m1) : Storage.SameShape m.mgr.store m1.mgr.store := by
  refine h.induction wf settled (P := fun m1 => Storage.SameShape m.mgr.store m1.mgr.store) ?_
    (Storage.SameShape.refl _)
  intro m1 log act m2 events hsound hold _ htransition
  exact hold.trans (htransition.shape hsound.books.laid)

theorem Reached.kept (wf : TorrentLayout.WellFormed c.mi) (settled : Settled c m)
    (h : Reached c m m1) {i : Nat} (hi : i < c.mi.numPieces) (kept : KeptPiece c m.mgr i) :
    KeptPiece c m1.mgr i := by
  refine h.induction wf settled (P := fun m1 => KeptPiece c m1.mgr i) ?_ kept
  intro m1 log act m2 events hsound hold hact htransition
  exact hold.transition wf hsound hi hact htransition

end Reaching

section Moves

variable {u : Setup} {good : Calling → Prop} {t t' : Torrent}

/-- After the startup check every move is a run of the piece manager. -/
theorem Move.reached (h : Move u good t t') (started : t.startupVerifying = false) :
    Reached u.pieces t.machine t'.machine := by
  cases h with
  | flags _ hmachine _ _ _ =>
    rw [hmachine]
    exact Reached.refl _
  | worker m events hstep =>
    intro hidle
    have hpc : m.pc = .idle := by
      cases step_transition hstep with
      | take _ _ => exact hidle
      | hash _ _ _ _ _ => exact hidle
      | publish _ _ _ _ _ _ => exact hidle
    refine ⟨hpc, [.worker], events, ?_, ?_⟩
    · simp [PieceManager.run, hstep]
    · intro act hact
      rw [List.mem_singleton.mp hact]
      exact ⟨rfl, rfl⟩
  | edit call env hback hplain =>
    refine Reached.call call env ?_ rfl hback
    have hlicence : (Act.call call env).licence = plainLicence := hplain
    simp [Act.Hashing, hlicence, plainLicence]
  | check idx alloc hstarting =>
    rw [started] at hstarting
    cases hstarting
  | call _ call k result _ hplain hcall =>
    refine Reached.callPieces ?_ hcall
    have hlicence : (Act.call call k.env).licence = plainLicence := hplain
    simp [Act.Hashing, hlicence, plainLicence]
  | webFail t1 piece off data k result _ _ _ _ _ hcall _ =>
    have hreached : Reached u.pieces t.machine t1.machine := Reached.callPieces ⟨rfl, rfl⟩ hcall
    exact hreached
  | peers peers _ => exact Reached.refl _
  | join slot p _ _ => exact Reached.refl _
  | leave slot p _ _ => exact Reached.refl _
  | release slot p p' keep _ _ _ _ => exact Reached.clearRequests t.machine _
  | ask slot p p' idx b now =>
    exact Reached.call (m := t.machine) (.markBlockRequested idx b) (envOf true)
      ⟨rfl, rfl⟩ rfl rfl
  | hedge slot primary p p' q r head now =>
    exact Reached.call (m := t.machine)
      (.markBlockRequested head (r.offset.toNat / blockSize)) (envOf true) ⟨rfl, rfl⟩ rfl rfl
  | block _ slot p p' idx off data now k nets _ _ _ _ _ _ _ _ _ hblock =>
    rw [cbBlock_eq, Option.map_eq_some_iff] at hblock
    obtain ⟨r, hcall, rfl⟩ := hblock
    rw [afterBlock_machine]
    obtain ⟨t1, result⟩ := r
    exact Reached.callPieces (t := { t.setPeer slot (some p') with
      downloaded := (t.setPeer slot (some p')).downloaded + data.length }) ⟨rfl, rfl⟩ hcall

theorem callPieces_starting {c : Config} {call : Call} {k : Calling} {result : Int}
    (h : callPieces c t call k = some (t', result)) : t'.startupVerifying = t.startupVerifying := by
  obtain ⟨_, m, events, _, _, rfl, _⟩ := callPieces_run h
  rw [hashResults_startupVerifying]

/-- No move starts the startup check. -/
theorem Move.starting (h : Move u good t t') (starting : t'.startupVerifying = true) :
    t.startupVerifying = true := by
  cases h with
  | flags _ _ _ hstarting _ => exact hstarting starting
  | call _ call k result _ _ hcall =>
    rw [← callPieces_starting hcall]
    exact starting
  | webFail t1 piece off data k result _ _ _ _ _ hcall _ =>
    rw [← callPieces_starting hcall]
    exact starting
  | block _ slot p p' idx off data now k nets _ _ _ _ _ _ _ _ _ hblock =>
    rw [cbBlock_eq, Option.map_eq_some_iff] at hblock
    obtain ⟨r, hcall, rfl⟩ := hblock
    have hsame : (afterBlock nets idx off data.length now
        (hasBlock u.pieces (t.setPeer slot (some p')).mgr idx (off / blockSize))
        (decide (blockRequestCount u.pieces (t.setPeer slot (some p')).mgr idx
        (off / blockSize) > 1)) r).startupVerifying = r.1.startupVerifying := by
      simp only [afterBlock]
      split <;> split <;> split <;> rfl
    rw [hsame] at starting
    exact (callPieces_starting hcall).symm.trans starting
  | _ => exact starting

theorem Moves.reached (h : Moves u good t t') (started : t.startupVerifying = false) :
    Reached u.pieces t.machine t'.machine ∧ t'.startupVerifying = false := by
  induction h with
  | refl => exact ⟨Reached.refl _, started⟩
  | tail _ hmove ih =>
    obtain ⟨hreached, hstarted⟩ := ih
    refine ⟨hreached.trans (hmove.reached hstarted), ?_⟩
    by_contra hstarting
    rw [hmove.starting (by simpa using hstarting)] at hstarted
    cases hstarted

end Moves

/-- A step that is no round of a verification pass is a run of the piece manager. -/
theorem step_reached {u : Setup} {t t' : Torrent} {action : Action}
    (other : action.verifies = false)
    (h : step u t action = some t') : Reached u.pieces t.machine t'.machine := by
  -- with the startup check declared over, no move can be one of its rounds
  have hover := step_withProgress { t.progress with startupVerifying := false } other h (by simp)
  exact ((step_moves action.uses_any hover).reached rfl).1

/-- A final pass, begun if it was not running. -/
def Torrent.begun (t : Torrent) : Torrent :=
  if t.finalVerifying then t else { t with finalVerifying := true, finalVerifyIndex := 0 }

/-- The ways through `check_completion`. -/
inductive Completion (c : Config) (t : Torrent) (alloc flushed : Bool) : Torrent × Int → Prop where
  | missing : t.mgr.numDone ≠ c.mi.numPieces → Completion c t alloc flushed
      ({ t with finalVerifying := false, finalVerifyIndex := 0, startupVerifiedAll := false }, 1)
  | shortcut : t.mgr.numDone = c.mi.numPieces → t.startupVerifiedAll = true →
      Completion c t alloc flushed (t, 0)
  | unflushed : t.mgr.numDone = c.mi.numPieces → t.startupVerifiedAll = false →
      t.finalVerifying = false → flushed = false → Completion c t alloc flushed (t, 1)
  | wrong : t.mgr.numDone = c.mi.numPieces → t.startupVerifiedAll = false →
      ¬ (t.finalVerifying = false ∧ flushed = false) → t.begun.finalVerifyIndex < c.mi.numPieces →
      (verifyPiece c alloc t.mgr t.begun.finalVerifyIndex).2 = 0 →
      Completion c t alloc flushed
        ({ t.begun.setMgr (verifyPiece c alloc t.mgr t.begun.finalVerifyIndex).1 with
          finalVerifying := false, finalVerifyIndex := 0 }, 1)
  | right : t.mgr.numDone = c.mi.numPieces → t.startupVerifiedAll = false →
      ¬ (t.finalVerifying = false ∧ flushed = false) → t.begun.finalVerifyIndex < c.mi.numPieces →
      (verifyPiece c alloc t.mgr t.begun.finalVerifyIndex).2 ≠ 0 →
      Completion c t alloc flushed
        ({ t.begun.setMgr (verifyPiece c alloc t.mgr t.begun.finalVerifyIndex).1 with
          finalVerifyIndex := t.begun.finalVerifyIndex + 1 }, 1)
  | finished : t.mgr.numDone = c.mi.numPieces → t.startupVerifiedAll = false →
      c.mi.numPieces ≤ t.begun.finalVerifyIndex → Completion c t alloc flushed (t.begun, 0)

section Begun

variable (t : Torrent)

@[simp] theorem begun_machine : t.begun.machine = t.machine := by
  unfold Torrent.begun
  split <;> rfl

@[simp] theorem begun_mgr : t.begun.mgr = t.mgr := congrArg Machine.mgr (begun_machine t)

@[simp] theorem begun_startupVerifying : t.begun.startupVerifying = t.startupVerifying := by
  unfold Torrent.begun
  split <;> rfl

@[simp] theorem begun_startupVerifyIndex : t.begun.startupVerifyIndex = t.startupVerifyIndex := by
  unfold Torrent.begun
  split <;> rfl

@[simp] theorem begun_startupVerifiedAll : t.begun.startupVerifiedAll = t.startupVerifiedAll := by
  unfold Torrent.begun
  split <;> rfl

@[simp] theorem begun_finalVerifying : t.begun.finalVerifying = true := by
  unfold Torrent.begun
  split
  · assumption
  · rfl

theorem begun_finalVerifyIndex :
    t.begun.finalVerifyIndex = if t.finalVerifying then t.finalVerifyIndex else 0 := by
  unfold Torrent.begun
  split <;> rfl

end Begun

theorem checkCompletion_cases (c : Config) (t : Torrent) (alloc flushed : Bool) :
    Completion c t alloc flushed (checkCompletion c t alloc flushed) := by
  have hbegun : (if t.finalVerifying = true then t
      else { t with finalVerifying := true, finalVerifyIndex := 0 }) = t.begun := rfl
  simp only [checkCompletion, hbegun, begun_mgr]
  split
  · next hmissing => exact .missing hmissing
  · next hnone =>
    have hdone := not_not.mp hnone
    split
    · next hall => exact .shortcut hdone hall
    · next hall =>
      have hopen : t.startupVerifiedAll = false := by simpa using hall
      split
      · next hflush => exact .unflushed hdone hopen hflush.1 hflush.2
      · next hflush =>
        split
        · next hmore =>
          split
          · next hwrong => exact .wrong hdone hopen hflush hmore hwrong
          · next hright => exact .right hdone hopen hflush hmore hright
        · next hend => exact .finished hdone hopen (Nat.le_of_not_lt hend)

theorem checkCompletion_reached (c : Config) (t : Torrent) (alloc flushed : Bool) :
    Reached c t.machine (checkCompletion c t alloc flushed).1.machine := by
  have hverify : ∀ idx, Reached c t.machine { t.machine with
    mgr := (verifyPiece c alloc t.mgr idx).1 } :=
    fun idx => Reached.call (.verifyPiece idx) (envOf alloc) ⟨rfl, rfl⟩ rfl rfl
  have hcases := checkCompletion_cases c t alloc flushed
  generalize checkCompletion c t alloc flushed = r at hcases ⊢
  cases hcases with
  | missing _ => exact Reached.refl _
  | shortcut _ _ => exact Reached.refl _
  | unflushed _ _ _ _ => exact Reached.refl _
  | wrong _ _ _ _ _ =>
    simp only [Torrent.setMgr, begun_machine]
    exact hverify _
  | right _ _ _ _ _ =>
    simp only [Torrent.setMgr, begun_machine]
    exact hverify _
  | finished _ _ _ =>
    rw [begun_machine]
    exact Reached.refl _

theorem checkCompletion_starting (c : Config) (t : Torrent) (alloc flushed : Bool) :
    (checkCompletion c t alloc flushed).1.startupVerifying = t.startupVerifying ∧
      (checkCompletion c t alloc flushed).1.startupVerifyIndex = t.startupVerifyIndex := by
  have hcases := checkCompletion_cases c t alloc flushed
  generalize checkCompletion c t alloc flushed = r at hcases ⊢
  cases hcases <;> simp [Torrent.setMgr]

/-- What a round of the startup check does: it checks the next piece, if there is one, and
ends after the last. -/
theorem startupRound_spec (c : Config) (t : Torrent) (alloc : Bool) :
    (startupRound c t alloc).machine = { t.machine with
        mgr := if t.startupVerifyIndex < c.mi.numPieces then
          (checkExisting c alloc t.mgr t.startupVerifyIndex).1 else t.mgr } ∧
      (startupRound c t alloc).startupVerifyIndex =
        (if t.startupVerifyIndex < c.mi.numPieces then t.startupVerifyIndex + 1
          else t.startupVerifyIndex) ∧
      ((startupRound c t alloc).startupVerifying = false →
        t.startupVerifying = false ∨
          c.mi.numPieces ≤ (startupRound c t alloc).startupVerifyIndex) := by
  simp only [startupRound]
  by_cases hmore : t.startupVerifyIndex < c.mi.numPieces
  · simp only [hmore, if_true]
    split
    · next hend => exact ⟨rfl, rfl, fun _ => Or.inr hend⟩
    · exact ⟨rfl, rfl, fun hover => Or.inl hover⟩
  · simp only [hmore, if_false]
    split
    · next hend => exact ⟨rfl, rfl, fun _ => Or.inr hend⟩
    · exact ⟨rfl, rfl, fun hover => Or.inl hover⟩

theorem EngineSound.bookkeeping {u : Setup} {t : Torrent} (h : EngineSound u t) :
    Bookkeeping u.pieces t.mgr := by
  obtain ⟨log, hsound⟩ := h.settled.sound
  exact hsound.books.books

theorem step_sound {u : Setup} (wf : TorrentLayout.WellFormed u.pieces.mi) {t t' : Torrent}
    {action : Action} (sound : EngineSound u t) (h : step u t action = some t') :
    EngineSound u t' := by
  exact (step_moves action.uses_any h).induction (fun _ _ hold hmove => hold.move wf hmove) sound

/-- Every step of the run is made in a state where `ok` allows it. -/
def Conforms (u : Setup) (ok : Torrent → Action → Prop) : Torrent → List Action → Prop
  | _, [] => True
  | t, action :: rest => ok t action ∧ ∀ t', step u t action = some t' → Conforms u ok t' rest

instance decidableConforms (u : Setup) (ok : Torrent → Action → Prop)
    [∀ t action, Decidable (ok t action)] :
    (t : Torrent) → (actions : List Action) → Decidable (Conforms u ok t actions)
  | _, [] => isTrue trivial
  | t, action :: rest =>
    match hstep : step u t action with
    | none => decidable_of_iff (ok t action) (by simp [Conforms, hstep])
    | some t1 =>
      have := decidableConforms u ok t1 rest
      decidable_of_iff (ok t action ∧ Conforms u ok t1 rest) (by simp [Conforms, hstep])

theorem conforms_append {u : Setup} {ok : Torrent → Action → Prop} {t t1 : Torrent}
    {actions actions' : List Action} (h : run u t actions = some t1) :
    Conforms u ok t (actions ++ actions') ↔ Conforms u ok t actions ∧
    Conforms u ok t1 actions' := by
  induction actions generalizing t with
  | nil =>
    cases h
    simp [Conforms]
  | cons action rest ih =>
    simp only [run] at h
    split at h
    · cases h
    · next t2 hstep => simp [Conforms, hstep, ih h, and_assoc]

/-- A run keeps the engine sound, and keeps what each of its steps keeps. -/
theorem run_keeps_where {u : Setup} (wf : TorrentLayout.WellFormed u.pieces.mi)
    {ok : Torrent → Action → Prop} {P : Torrent → Prop}
    (preserved : ∀ t t' action, EngineSound u t → P t → ok t action →
    step u t action = some t' → P t')
    {t t' : Torrent} {actions : List Action} (h : run u t actions = some t')
    (conforms : Conforms u ok t actions) (sound : EngineSound u t) (init : P t) :
    EngineSound u t' ∧ P t' := by
  induction actions generalizing t with
  | nil =>
    cases h
    exact ⟨sound, init⟩
  | cons action rest ih =>
    simp only [run] at h
    split at h
    · cases h
    · next t1 hstep =>
      exact ih h (conforms.2 t1 hstep) (step_sound wf sound hstep)
        (preserved t t1 action sound init conforms.1 hstep)

theorem conforms_any (u : Setup) (t : Torrent) (actions : List Action) :
    Conforms u (fun _ _ => True) t actions := by
  induction actions generalizing t with
  | nil => trivial
  | cons action rest ih => exact ⟨trivial, fun t' _ => ih t'⟩

theorem run_keeps {u : Setup} (wf : TorrentLayout.WellFormed u.pieces.mi) {P : Torrent → Prop}
    (preserved : ∀ t t' action, EngineSound u t → P t → step u t action = some t' → P t')
    {t t' : Torrent} {actions : List Action} (h : run u t actions = some t')
    (sound : EngineSound u t) (init : P t) : EngineSound u t' ∧ P t' :=
  run_keeps_where wf (fun t t' action hsound hold _ hstep =>
    preserved t t' action hsound hold hstep) h (conforms_any u t actions) sound init

end TorrentEngine
