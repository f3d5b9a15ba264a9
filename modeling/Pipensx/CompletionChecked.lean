import Pipensx.CompletionReport
import Pipensx.ReadBack

/-!
# Completion after a check of the disk

When `torrent_tick` returns 0, every piece that lies on disk as a whole has been read back
since it was last written: by the final pass, or by a startup check that was not disturbed.
The startup check is disturbed by a piece from a web seed that it has passed already, and
by a piece that it has no scratch buffer for.
-/

namespace PieceManager

/-- An action that puts nothing into a piece. -/
def Act.Avoids (i : Nat) : Act → Prop
  | .call (.markPending idx) _ => idx ≠ i
  | .call (.gotBlock idx _ _) _ => idx ≠ i
  | _ => True

/-- An empty piece stays empty as long as nothing is put into it. -/
theorem empty_transition {c : Config} {m m' : Machine} {act : Act} {events : List Event} {i : Nat}
    (buffers : BuffersOwned c m) (empty : (m.mgr.slots i).state = .empty) (hashing : act.Hashing)
    (avoids : act.Avoids i) (t : Transition c m act m' events) :
    (m'.mgr.slots i).state = .empty := by
  cases t with
  | call call env _ =>
    cases call with
    | markPending idx =>
      simp only [start, markPending_other env.alloc m.mgr (Ne.symm avoids)]
      exact empty
    | gotBlock idx offset data =>
      have hother := gotBlock_other (c := c) env m.mgr offset data (Ne.symm avoids)
      rw [start_gotBlock]
      exact (congrArg Slot.state hother).trans empty
    | drainHashResults =>
      rw [start_drainHashResults]
      exact empty
    | hashFlush =>
      rw [start_hashFlush]
      exact empty
    | verifyPiece idx =>
      by_cases hii : i = idx
      · subst hii
        simp only [start, verifyPiece]
        split
        · exact empty
        · rw [if_pos (by rw [empty]; decide)]
          exact empty
      · simp only [start, verifyPiece_state env.alloc m.mgr (fun heq => absurd heq hii)]
        exact empty
    | checkExisting idx => cases hashing.2
    | presetHave bf bfLen => cases hashing.1
    | markBlockRequested idx block => exact (setCount_other c m.mgr block _ i).trans empty
    | clearBlockRequested idx block => exact (setCount_other c m.mgr block _ i).trans empty
    | setStrictPolicy lookahead first => exact empty
  | push idx plen hpc =>
    obtain ⟨_, _, _, ⟨_, hpending, _, _⟩⟩ := buffers.pushing hpc
    have hne : i ≠ idx := by
      rintro rfl
      rw [empty] at hpending
      cases hpending
    simp [pushStep, Mgr.pushJob, Mgr.setSlot, hne, empty]
  | apply io job next _ =>
    rw [(hashApply_applied c io m.mgr job).slots (by rw [empty]; decide)]
    exact empty
  | _ => exact empty

end PieceManager

namespace TorrentEngine

open PieceManager PeerRequests PieceGeometry Storage

/-- Nothing is asked for before the startup check is over. -/
def NoRequests (t : Torrent) : Prop :=
  t.startupVerifying = true → ∀ slot p, t.peers slot = some p → p.pipeline = []

section Requests

variable {u : Setup} {good : Calling → Prop} {t t' : Torrent}

theorem noRequests_update {peers : Nat → Option Peer}
    (h : ∀ slot p, peers slot = some p → p.pipeline = [])
    {slot : Nat} {o : Option Peer} (quiet : ∀ p, o = some p → p.pipeline = []) :
    ∀ slot' p, Function.update peers slot o slot' = some p → p.pipeline = [] := by
  intro slot' p hp
  by_cases hslot : slot' = slot
  · rw [hslot, Function.update_self] at hp
    exact quiet p hp
  · rw [Function.update_of_ne hslot] at hp
    exact h slot' p hp

theorem NoRequests.move (h : NoRequests t) (move : Move u good t t') : NoRequests t' := by
  intro hstarting'
  have hstarting := move.starting hstarting'
  have hall := h hstarting
  cases move with
  | flags _ _ hpeers _ _ =>
    rw [hpeers]
    exact hall
  | worker m events _ => exact hall
  | edit call env _ _ => exact hall
  | check idx alloc _ => exact hall
  | call _ call k result _ _ hcall =>
    obtain ⟨_, m, events, _, _, rfl, _⟩ := callPieces_run hcall
    rw [hashResults_peers]
    exact hall
  | webFail t1 piece off data k result _ _ _ _ _ hcall _ =>
    obtain ⟨_, m, events, _, _, rfl, _⟩ := callPieces_run hcall
    have hpeers : ((Torrent.hashResults { t with machine := m } events).fail
        .webSeedPieceProcessing).peers = t.peers := hashResults_peers _ _
    rw [hpeers]
    exact hall
  | peers peers hsame =>
    intro slot p hp
    have hrel := hsame slot
    rw [show peers slot = some p from hp] at hrel
    cases hpeer : t.peers slot with
    | none =>
      rw [hpeer] at hrel
      cases hrel
    | some q =>
      rw [hpeer] at hrel
      cases hrel with
      | some hrequests =>
        rw [hrequests.1]
        exact hall slot q hpeer
  | join slot p _ hempty => exact noRequests_update hall (by rintro _ ⟨⟩; exact hempty)
  | leave slot p _ _ => exact noRequests_update hall (by rintro _ ⟨⟩)
  | release slot p p' keep _ hpeer hkeep _ =>
    refine noRequests_update hall ?_
    rintro _ ⟨⟩
    rw [hkeep, hall slot p hpeer]
    rfl
  | ask slot p p' idx b now _ hstarted =>
    rw [hstarting] at hstarted
    cases hstarted
  | hedge slot primary p p' q r head now _ hstarted =>
    rw [hstarting] at hstarted
    cases hstarted
  | block _ slot p p' idx off data now k nets _ _ hpeer _ _ _ _ hasked _ _ =>
    rw [hall slot p hpeer] at hasked
    cases hasked

theorem NoRequests.step {action : Action} (h : NoRequests t) (hstep : step u t action = some t') :
    NoRequests t' := by
  exact (step_moves action.uses_any hstep).induction (fun _ _ hold hmove => hold.move hmove) h

/-- So no block arrives before. -/
theorem NoRequests.message (h : NoRequests t) (starting : t.startupVerifying = true)
    {slot : Nat} {p : Peer}
    (hpeer : t.peers slot = some p) (numPieces now idx off : Nat) (data : List UInt8) :
    (processMessage numPieces now p).2 ≠ .block idx off data := by
  intro hblock
  have hanswered := (processMessage_answered numPieces now p).2
  rw [hblock] at hanswered
  cases hanswered with
  | block _ _ _ _ _ _ hasked _ =>
    rw [h starting slot p hpeer] at hasked
    cases hasked

end Requests

section Empty

variable {u : Setup} {t t' : Torrent} {i : Nat}

theorem callPieces_empty {c : Config} (wf : TorrentLayout.WellFormed c.mi)
    {call : Call} {k : Calling}
    {result : Int} (settled : Settled c t.machine) (empty : (t.mgr.slots i).state = .empty)
    (hashing : (Act.call call k.env).Hashing) (avoids : (Act.call call k.env).Avoids i)
    (h : callPieces c t call k = some (t', result)) : (t'.mgr.slots i).state = .empty := by
  obtain ⟨hinner, m, events, hrun, _, rfl, _⟩ := callPieces_run h
  obtain ⟨log, hsound⟩ := settled.sound
  have key := run_induction (fun m log => MachineSound c m log ∧ (m.mgr.slots i).state = .empty)
    (fun act => act.Hashing ∧ act.Avoids i) ?_ log hrun ?_ ⟨hsound, empty⟩
  · simp only [Torrent.mgr, hashResults_machine]
    exact key.2
  · rintro m log act m' events ⟨hsound, hold⟩ ⟨hact, havoids⟩ hstep
    exact ⟨hsound.step wf hstep,
      empty_transition hsound.buffers hold hact havoids (step_transition hstep)⟩
  · intro act hact
    rcases List.mem_cons.mp hact with rfl | hrest
    · exact ⟨hashing, avoids⟩
    · have hin := hinner act hrest
      cases act with
      | call call env => cases hin
      | _ => exact ⟨⟨rfl, rfl⟩, trivial⟩

theorem submitBlocks_empty {c : Config} (wf : TorrentLayout.WellFormed c.mi) {piece : Nat}
    {data : List UInt8}
    {calls : Nat → Calling} (other : piece ≠ i) (fuel block : Nat) {failed : Bool}
    (settled : Settled c t.machine) (empty : (t.mgr.slots i).state = .empty)
    (h : submitBlocks c piece data calls fuel block t = some (t', failed)) :
    (t'.mgr.slots i).state = .empty := by
  induction fuel generalizing block t with
  | zero =>
    cases h
    exact empty
  | succ fuel ih =>
    simp only [submitBlocks] at h
    split at h
    · cases h
      exact empty
    · split at h
      · exact ih _ settled empty h
      · split at h
        · cases h
        · next t1 result hcall =>
          have havoids : (Act.call (.gotBlock piece (block * blockSize)
              (some ((data.drop (block * blockSize)).take blockSize))) (calls block).env).Avoids
              i := other
          have hempty := callPieces_empty wf settled empty ⟨rfl, rfl⟩ havoids hcall
          have hsettled := (callPieces_returned wf settled rfl hcall).settled
          split at h
          · cases h
            exact hempty
          · exact ih (t := { t1 with downloaded :=
              t1.downloaded + ((data.drop (block * blockSize)).take blockSize).length }) _
                hsettled hempty h

theorem clearRequests_state (c : Config) (gone : List BlockReq) (s : Mgr) (i : Nat) :
    ((gone.foldl (clearRequest c) s).slots i).state = (s.slots i).state := by
  refine clearRequests_induction (P := fun s' => (s'.slots i).state = (s.slots i).state)
    (fun s' piece block hs => ?_) gone rfl
  exact (setCount_other c s' _ _ i).trans hs

theorem removePeer_state (c : Config) (t : Torrent) (slot i : Nat) :
    ((removePeer c t slot).mgr.slots i).state = (t.mgr.slots i).state := by
  unfold removePeer
  split
  · rfl
  · exact clearRequests_state c _ t.mgr i

theorem dropPeer_state (c : Config) (t : Torrent) (slot i : Nat) :
    ((dropPeer c t slot).mgr.slots i).state = (t.mgr.slots i).state := by
  unfold dropPeer
  split
  · rfl
  · split
    · rfl
    · exact removePeer_state c t slot i

theorem sweepPeer_state (c : Config) (t : Torrent) (slot now i : Nat) :
    ((sweepPeer c t slot now).mgr.slots i).state = (t.mgr.slots i).state := by
  unfold sweepPeer
  split
  · rfl
  · next p hpeer =>
    split
    · exact removePeer_state c t slot i
    · dsimp only
      generalize (if p.lastPieceMs ≠ 0 then p.lastPieceMs else p.connectTimeMs) = idleRef
      generalize (if p.lastPieceMs ≠ 0 then 15000 else 4000) = timeoutMs
      generalize (if (peerExpireRequests p now timeoutMs).2 = [] then
        (peerExpireRequests p now timeoutMs).1
        else strike (peerExpireRequests p now timeoutMs).1 now) = p1
      have hexpired := clearRequests_state c (peerExpireRequests p now timeoutMs).2 t.mgr i
      have hremoved := (removePeer_state c ((t.setMgr ((peerExpireRequests p now timeoutMs).2.foldl
        (clearRequest c) t.mgr)).setPeer slot (some p1)) slot i).trans hexpired
      split
      · exact removePeer_state c t slot i
      · split
        · exact hremoved
        · split
          · exact hremoved
          · exact hexpired
    · split <;> rfl

theorem empty_web (wf : TorrentLayout.WellFormed u.pieces.mi) (sound : EngineSound u t)
    {piece now : Nat} {data : List UInt8} {alloc : Bool} {calls : Nat → Calling} (hne : piece ≠ i)
    (empty : (t.mgr.slots i).state = .empty)
    (hstep : step u t (.submitWebPiece piece data alloc calls now) = some t') :
    (t'.mgr.slots i).state = .empty := by
  simp only [step, submitWebPiece] at hstep
  split at hstep
  · cases hstep
    exact empty
  · split at hstep
    · cases hstep
    · next t1 failed hblocks =>
      have hpending : (t.setMgr (markPending u.pieces alloc t.mgr piece)).mgr.slots i =
        t.mgr.slots i :=
        markPending_other alloc t.mgr (Ne.symm hne)
      have hback : (start u.pieces t.machine.mgr (envOf alloc) (.markPending piece)).2.1 = .idle :=
        rfl
      have hsettled := sound.settled.call wf hback rfl
      have hempty := submitBlocks_empty wf hne _ _ hsettled (by rw [hpending]; exact empty) hblocks
      cases hstep
      split
      · exact hempty
      · exact hempty

theorem empty_handshake {slot now : Nat} {out : PeerSend.Sender}
    (empty : (t.mgr.slots i).state = .empty)
    (hstep : step u t (.handshake slot now out) = some t') : (t'.mgr.slots i).state = .empty := by
  obtain ⟨_, p, _, hp⟩ := onPeer_some hstep
  split at hp
  · dsimp only at hp
    split at hp
    · cases hp
      exact (dropPeer_state u.pieces t slot i).trans empty
    · cases hp
      exact empty
    · cases hp
      exact empty
  · cases hp

theorem empty_message (quiet : NoRequests t) (starting : t.startupVerifying = true) {slot now : Nat}
    {k : Calling} {nets : Nat → PeerSend.Transport} (empty : (t.mgr.slots i).state = .empty)
    (hstep : step u t (.message slot now k nets) = some t') : (t'.mgr.slots i).state = .empty := by
  simp only [step, receiveMessage] at hstep
  split at hstep
  · split at hstep
    · cases hstep
    · next p hpeer =>
      split at hstep
      · cases hstep
      · split at hstep
        · cases hstep
          exact empty
        · cases hstep
          exact empty
        · cases hstep
          exact (dropPeer_state u.pieces _ slot i).trans empty
        · next idx off data hblock => exact absurd hblock (quiet.message starting hpeer _ _ _ _ _)
  · cases hstep

theorem empty_releaseChoked {slot now : Nat} (empty : (t.mgr.slots i).state = .empty)
    (hstep : step u t (.releaseChoked slot now) = some t') : (t'.mgr.slots i).state = .empty := by
  simp only [step, releaseChoked] at hstep
  split at hstep
  · split at hstep
    · cases hstep
    · split at hstep
      · cases hstep
        exact (clearRequests_state u.pieces _ t.mgr i).trans empty
      · cases hstep
        exact empty
  · cases hstep

/-- During the startup check only a web seed puts something into a piece. -/
theorem empty_step (wf : TorrentLayout.WellFormed u.pieces.mi) {action : Action}
    (sound : EngineSound u t)
    (quiet : NoRequests t) (starting : t.startupVerifying = true) (other : action.verifies = false)
    (empty : (t.mgr.slots i).state = .empty)
    (web : ∀ data alloc calls now, action ≠ .submitWebPiece i data alloc calls now)
    (hstep : step u t action = some t') : (t'.mgr.slots i).state = .empty := by
  cases action with
  | worker =>
    obtain ⟨⟨m, events⟩, hworker, rfl⟩ := Option.map_eq_some_iff.mp hstep
    obtain ⟨log, hsound⟩ := sound.settled.sound
    exact empty_transition hsound.buffers empty ⟨rfl, rfl⟩ (by trivial) (step_transition hworker)
  | drainHashResults k =>
    obtain ⟨⟨t1, result⟩, hcall, rfl⟩ := Option.map_eq_some_iff.mp hstep
    exact callPieces_empty wf sound.settled empty ⟨rfl, rfl⟩ (by trivial) hcall
  | hashFlush k =>
    obtain ⟨⟨t1, result⟩, hcall, rfl⟩ := Option.map_eq_some_iff.mp hstep
    exact callPieces_empty wf sound.settled empty ⟨rfl, rfl⟩ (by trivial) hcall
  | startupVerify alloc => cases other
  | checkCompletion alloc flushed => cases other
  | submitWebPiece piece data alloc calls now =>
    refine empty_web wf sound ?_ empty hstep
    rintro rfl
    exact web data alloc calls now rfl
  | connect utp now =>
    cases hstep
    unfold connectPeer
    split <;> exact empty
  | connected slot encrypted out =>
    obtain ⟨_, p, _, hp⟩ := onPeer_some hstep
    split at hp
    · cases hp
      exact empty
    · cases hp
  | encryption slot rbuf out done =>
    obtain ⟨_, p, _, hp⟩ := onPeer_some hstep
    split at hp
    · cases hp
      exact empty
    · cases hp
  | handshake slot now out =>
    exact empty_handshake empty hstep
  | receive slot bytes =>
    obtain ⟨_, p, _, hp⟩ := onPeer_some hstep
    cases hp
    exact empty
  | message slot now k nets =>
    exact empty_message quiet starting empty hstep
  | writable slot net =>
    obtain ⟨_, p, _, hp⟩ := onPeer_some hstep
    cases hp
    split
    · exact empty
    · exact (dropPeer_state u.pieces _ slot i).trans empty
  | lost slot =>
    simp only [step] at hstep
    split at hstep
    · cases hstep
      exact (dropPeer_state u.pieces t slot i).trans empty
    · cases hstep
  | markDead slot =>
    obtain ⟨_, p, _, hp⟩ := onPeer_some hstep
    split at hp
    · cases hp
      exact empty
    · cases hp
  | releaseChoked slot now =>
    exact empty_releaseChoked empty hstep
  | sweep slot now =>
    simp only [step] at hstep
    split at hstep
    · cases hstep
      exact (sweepPeer_state u.pieces t slot now i).trans empty
    · cases hstep
  | sampleRates elapsedMs now =>
    cases hstep
    exact empty
  | hedge now answers => simp [step, starting] at hstep
  | schedule slot now rounds => simp [step, starting] at hstep
  | setStrictLookahead lookahead =>
    cases hstep
    split <;> exact empty
  | setRateFreeze freeze =>
    cases hstep
    exact empty

end Empty

/-- What must not happen during the startup check: a web seed delivers a piece that the
check has passed without finding it, or there is no scratch buffer for a piece that is
neither skipped nor empty. -/
def Undisturbed (c : Config) (t : Torrent) : Action → Prop
  | .submitWebPiece piece _ _ _ _ =>
    t.startupVerifying = true → piece < t.startupVerifyIndex → (t.mgr.slots piece).state = .done
  | .startupVerify alloc =>
    t.startupVerifyIndex < c.mi.numPieces →
      storageRangeSkipped t.mgr.store (absOff c.mi t.startupVerifyIndex)
        (plenOf c t.startupVerifyIndex) = true ∨
      (t.mgr.verifyBuf || alloc) = true ∨ (t.mgr.slots t.startupVerifyIndex).state = .empty
  | _ => True

instance decidableUndisturbed (c : Config) (t : Torrent) (action : Action) :
    Decidable (Undisturbed c t action) := by
  cases action <;> dsimp only [Undisturbed] <;> infer_instance

/-- Every piece on disk below `bound` satisfies `P`. -/
def OnDiskBelow (c : Config) (s : Mgr) (bound : Nat) (P : Nat → Prop) : Prop :=
  ∀ i, i < c.mi.numPieces → i < bound → s.store.OnDisk (absOff c.mi i) (plenOf c i) → P i

/-- What the two passes have checked so far. -/
structure Checked (c : Config) (log : List Access) (t : Torrent) : Prop where
  flags : FlagsSound c t
  requests : NoRequests t
  starting : t.startupVerifying = true → OnDiskBelow c t.mgr t.startupVerifyIndex
    (fun i => (t.mgr.slots i).state = .empty ∨ BackedPiece c log t.mgr i)
  all : t.startupVerifiedAll = true → OnDiskBelow c t.mgr c.mi.numPieces (BackedPiece c log t.mgr)
  final : t.finalVerifying = true → OnDiskBelow c t.mgr t.finalVerifyIndex (BackedPiece c log t.mgr)

section Checks

variable {u : Setup} {t t' : Torrent} {log : List Access} {i : Nat}

theorem checked_created (options : Option Options) (hashOk : Bool) (heap : Nat → Nat → UInt8)
    (store : Store) : Checked u.pieces [] (createTorrent u options hashOk heap store) := by
  refine ⟨⟨Nat.zero_le _, fun _ => rfl⟩, ?_, ?_, ?_, ?_⟩
  · rintro _ slot p ⟨⟩
  · intro _ i _ hbelow
    exact absurd hbelow (Nat.not_lt_zero i)
  · rintro ⟨⟩
  · rintro ⟨⟩

/-- The files stay where they are, so what holds of every piece on disk carries over piece
by piece. -/
theorem OnDiskBelow.carried (wf : TorrentLayout.WellFormed u.pieces.mi)
    {P Q : Nat → Prop} {bound : Nat}
    (sound : EngineSound u t) (h : OnDiskBelow u.pieces t.mgr bound P)
    (reached : Reached u.pieces t.machine t'.machine)
    (next : ∀ i, i < u.pieces.mi.numPieces → i < bound → P i → Q i) :
    OnDiskBelow u.pieces t'.mgr bound Q := by
  obtain ⟨events, hsound⟩ := sound.settled.sound
  intro i hi hbelow hdisk
  have hbefore := ((reached.shape wf sound.settled).onDisk hsound.books.laid).mp hdisk
  exact next i hi hbelow (h i hi hbelow hbefore)

theorem OnDiskBelow.backed (wf : TorrentLayout.WellFormed u.pieces.mi)
    {action : Action} {bound : Nat} (sound : EngineSound u t)
    (h : OnDiskBelow u.pieces t.mgr bound (BackedPiece u.pieces log t.mgr))
    (reached : Reached u.pieces t.machine t'.machine) (hstep : step u t action = some t') :
    OnDiskBelow u.pieces t'.mgr bound
    (BackedPiece u.pieces (log ++ stepAccesses u t action) t'.mgr) :=
  h.carried wf sound reached (fun _ hi _ hback => hback.step wf sound hi reached hstep)

theorem Checked.other (wf : TorrentLayout.WellFormed u.pieces.mi) {action : Action}
    (sound : EngineSound u t) (h : Checked u.pieces log t) (other : action.verifies = false)
    (undisturbed : Undisturbed u.pieces t action)
    (hstep : step u t action = some t') : Checked u.pieces (log ++ stepAccesses u t action) t' := by
  have hprogress := step_progress other hstep
  have hstarting : t'.startupVerifying = t.startupVerifying :=
    congrArg Progress.startupVerifying hprogress
  have hindex : t'.startupVerifyIndex = t.startupVerifyIndex :=
    congrArg Progress.startupVerifyIndex hprogress
  have hall : t'.startupVerifiedAll = t.startupVerifiedAll :=
    congrArg Progress.startupVerifiedAll hprogress
  have hfinal : t'.finalVerifying = t.finalVerifying := congrArg Progress.finalVerifying hprogress
  have hfinalIndex : t'.finalVerifyIndex = t.finalVerifyIndex :=
    congrArg Progress.finalVerifyIndex hprogress
  have hreached := step_reached other hstep
  refine ⟨h.flags.same hprogress, h.requests.step hstep, ?_, ?_, ?_⟩
  · intro hstart
    rw [hstarting] at hstart
    rw [hindex]
    refine (h.starting hstart).carried wf sound hreached ?_
    rintro i hi hbelow (hempty | hback)
    · left
      refine empty_step wf sound h.requests hstart other hempty ?_ hstep
      rintro data alloc calls now rfl
      have hdone := undisturbed hstart hbelow
      rw [hempty] at hdone
      cases hdone
    · exact Or.inr (hback.step wf sound hi hreached hstep)
  · intro hyes
    rw [hall] at hyes
    exact (h.all hyes).backed wf sound hreached hstep
  · intro hyes
    rw [hfinal] at hyes
    rw [hfinalIndex]
    exact (h.final hyes).backed wf sound hreached hstep

/-- After a round of the startup check every piece it has passed is empty or backed. -/
theorem Checked.passed (wf : TorrentLayout.WellFormed u.pieces.mi) (sound : EngineSound u t)
    {alloc : Bool}
    (h : Checked u.pieces log t) (undisturbed : Undisturbed u.pieces t (.startupVerify alloc))
    (starting : t.startupVerifying = true) :
    OnDiskBelow u.pieces (startupRound u.pieces t alloc).mgr
      (startupRound u.pieces t alloc).startupVerifyIndex
      (fun i => ((startupRound u.pieces t alloc).mgr.slots i).state = .empty ∨
        BackedPiece u.pieces (log ++ stepAccesses u t (.startupVerify alloc))
          (startupRound u.pieces t alloc).mgr i) := by
  obtain ⟨events, hsound⟩ := sound.settled.sound
  intro i hi hbelow hdisk
  by_cases hmore : t.startupVerifyIndex < u.pieces.mi.numPieces
  · have hstore := startupRound_store u.pieces alloc hmore
    obtain ⟨hmgr, hindex⟩ := startupRound_mgr u.pieces alloc hmore
    rw [hstore] at hdisk
    rw [hindex] at hbelow
    by_cases hthis : i = t.startupVerifyIndex
    · subst hthis
      have hwanted : storageRangeSkipped t.mgr.store (absOff u.pieces.mi t.startupVerifyIndex)
          (plenOf u.pieces t.startupVerifyIndex) = false :=
        onDisk_wanted wf hsound.books.laid hmore hdisk
      rcases undisturbed hmore with hskipped | hrest
      · rw [hwanted] at hskipped
        cases hskipped
      · by_cases hright : (t.mgr.verifyBuf || alloc) = true ∧
          onDiskValid u.pieces t.mgr t.startupVerifyIndex = true
        · exact Or.inr (backed_startup wf sound hmore hright.1 hdisk hright.2)
        · left
          rw [hmgr]
          refine checkExisting_leaves alloc hmore hwanted ?_ hrest
          intro hscratch
          simpa [hscratch] using hright
    · have hslot : (startupRound u.pieces t alloc).mgr.slots i = t.mgr.slots i := by
        rw [hmgr]
        exact checkExisting_other alloc t.mgr hthis
      rcases h.starting starting i hi (by omega) hdisk with hempty | hback
      · left
        rw [hslot]
        exact hempty
      · exact Or.inr (hback.startup wf sound hi starting alloc)
  · obtain ⟨hmachine, hindex, _⟩ := startupRound_spec u.pieces t alloc
    rw [if_neg hmore] at hindex hmachine
    rw [hindex] at hbelow
    have hmgr : (startupRound u.pieces t alloc).mgr = t.mgr := congrArg Machine.mgr hmachine
    rw [hmgr] at hdisk ⊢
    rcases h.starting starting i hi hbelow hdisk with hempty | hback
    · exact Or.inl hempty
    · have hkept := hback.startup wf sound hi starting alloc
      rw [hmgr] at hkept
      exact Or.inr hkept

theorem Checked.startup (wf : TorrentLayout.WellFormed u.pieces.mi) (sound : EngineSound u t)
    {alloc : Bool}
    (h : Checked u.pieces log t) (undisturbed : Undisturbed u.pieces t (.startupVerify alloc))
    (starting : t.startupVerifying = true) :
    Checked u.pieces (log ++ stepAccesses u t (.startupVerify alloc))
    (startupRound u.pieces t alloc) := by
  have hstep : step u t (.startupVerify alloc) = some (startupRound u.pieces t alloc) := by
    simp only [step, starting, if_true]
  have hpassed := h.passed wf sound undisturbed starting
  have hresult := startupRound_result u.pieces t alloc
  obtain ⟨hfinal, hfinalIndex⟩ := startupRound_final u.pieces t alloc
  obtain ⟨_, hindex, _⟩ := startupRound_spec u.pieces t alloc
  have hstore : (startupRound u.pieces t alloc).mgr.store = t.mgr.store := by
    by_cases hmore : t.startupVerifyIndex < u.pieces.mi.numPieces
    · exact startupRound_store u.pieces alloc hmore
    · have hmachine := (startupRound_spec u.pieces t alloc).1
      rw [if_neg hmore] at hmachine
      exact congrArg (fun m => m.mgr.store) hmachine
  refine ⟨h.flags.startup alloc, h.requests.step hstep, fun _ => hpassed, ?_, ?_⟩
  · intro hall i hi _ hdisk
    split at hresult
    · rw [hresult.2, h.flags.starting starting] at hall
      cases hall
    · next hlast =>
      -- the last round: every piece is done, so none it has passed is empty
      rw [hresult.2, decide_eq_true_eq] at hall
      have hdone := (numDone_iff (step_sound wf sound hstep).bookkeeping).mp hall i hi
      have hbelow : i < (startupRound u.pieces t alloc).startupVerifyIndex := by
        rw [hindex]
        split <;> omega
      rcases hpassed i hi hbelow hdisk with hempty | hback
      · rw [hdone] at hempty
        cases hempty
      · exact hback
  · intro hrunning i hi hbelow hdisk
    rw [hfinal] at hrunning
    rw [hfinalIndex] at hbelow
    rw [hstore] at hdisk
    exact (h.final hrunning i hi hbelow hdisk).startup wf sound hi starting alloc

/-- With every piece done, none of those the startup check has passed is empty. -/
theorem Checked.filled (sound : EngineSound u t) (h : Checked u.pieces log t)
    (done : t.mgr.numDone = u.pieces.mi.numPieces) (starting : t.startupVerifying = true) :
    OnDiskBelow u.pieces t.mgr t.startupVerifyIndex (BackedPiece u.pieces log t.mgr) := by
  intro i hi hbelow hdisk
  rcases h.starting starting i hi hbelow hdisk with hempty | hback
  · rw [(numDone_iff sound.bookkeeping).mp done i hi] at hempty
    cases hempty
  · exact hback

/-- The final pass, begun if it was not running, has checked the pieces below its index. -/
theorem Checked.begun (h : Checked u.pieces log t) :
    OnDiskBelow u.pieces t.mgr t.begun.finalVerifyIndex (BackedPiece u.pieces log t.mgr) := by
  rw [begun_finalVerifyIndex]
  split
  · next hrunning => exact h.final hrunning
  · intro i _ hbelow
    exact absurd hbelow (Nat.not_lt_zero i)

theorem Checked.completion (wf : TorrentLayout.WellFormed u.pieces.mi) (sound : EngineSound u t)
    (h : Checked u.pieces log t) (alloc flushed : Bool) :
    Checked u.pieces (log ++ stepAccesses u t (.checkCompletion alloc flushed))
      (checkCompletion u.pieces t alloc flushed).1 := by
  have hstep : step u t (.checkCompletion alloc flushed) =
    some (checkCompletion u.pieces t alloc flushed).1 := rfl
  have hreached := checkCompletion_reached u.pieces t alloc flushed
  obtain ⟨hstarting, hindex⟩ := checkCompletion_starting u.pieces t alloc flushed
  have hcases := checkCompletion_cases u.pieces t alloc flushed
  refine ⟨h.flags.checkCompletion alloc flushed, h.requests.step hstep, ?_, ?_, ?_⟩
  · intro hstart
    rw [hstarting] at hstart
    rw [hindex]
    by_cases hdone : t.mgr.numDone = u.pieces.mi.numPieces
    · intro i hi hbelow hdisk
      exact Or.inr ((h.filled sound hdone hstart).backed wf sound hreached hstep i hi hbelow hdisk)
    · have hmgr : (checkCompletion u.pieces t alloc flushed).1.mgr = t.mgr := by
        simp only [checkCompletion, if_pos hdone]
        rfl
      refine (h.starting hstart).carried wf sound hreached ?_
      rintro i hi _ (hempty | hback)
      · left
        rw [hmgr]
        exact hempty
      · exact Or.inr (hback.step wf sound hi hreached hstep)
  · intro hall
    have hbefore : t.startupVerifiedAll = true := by
      generalize checkCompletion u.pieces t alloc flushed = r at hcases hall
      cases hcases with
      | missing _ => cases hall
      | shortcut _ hyes => exact hyes
      | unflushed _ _ _ _ => exact hall
      | wrong _ _ _ _ _ => simpa [Torrent.setMgr] using hall
      | right _ _ _ _ _ => simpa [Torrent.setMgr] using hall
      | finished _ _ _ => simpa using hall
    exact (h.all hbefore).backed wf sound hreached hstep
  · intro hrunning
    have hbelow := h.begun.backed wf sound hreached hstep
    generalize checkCompletion u.pieces t alloc flushed =
      r at hcases hrunning hbelow hreached hstep ⊢
    cases hcases with
    | missing _ => cases hrunning
    | shortcut _ _ => exact (h.final hrunning).backed wf sound hreached hstep
    | unflushed _ _ _ _ => exact (h.final hrunning).backed wf sound hreached hstep
    | wrong _ _ _ _ _ => cases hrunning
    | right hdone hopen hflush hmore hright =>
      intro i hi hi' hdisk
      by_cases hthis : i = t.begun.finalVerifyIndex
      · subst hthis
        have hmgr : (verifyPiece u.pieces alloc t.mgr t.begun.finalVerifyIndex).1.store =
          t.mgr.store :=
          verifyPiece_store u.pieces alloc t.mgr _
        refine backed_verify wf sound hdone hopen hflush hmore hright ?_
        rw [← hmgr]
        exact hdisk
      · have hlower : i < t.begun.finalVerifyIndex := by
          have : i < t.begun.finalVerifyIndex + 1 := hi'
          omega
        exact hbelow i hi hlower hdisk
    | finished _ _ _ => exact hbelow

theorem Checked.step (wf : TorrentLayout.WellFormed u.pieces.mi) {action : Action}
    (sound : EngineSound u t)
    (h : Checked u.pieces log t) (undisturbed : Undisturbed u.pieces t action)
    (hstep : step u t action = some t') : Checked u.pieces (log ++ stepAccesses u t action) t' := by
  by_cases hother : action.verifies = false
  · exact h.other wf sound hother undisturbed hstep
  · cases action with
    | startupVerify alloc =>
      simp only [TorrentEngine.step] at hstep
      split at hstep
      · next hstarting =>
        cases hstep
        exact h.startup wf sound undisturbed hstarting
      · cases hstep
    | checkCompletion alloc flushed =>
      cases hstep
      exact h.completion wf sound alloc flushed
    | _ => exact absurd rfl hother

theorem Checked.run (wf : TorrentLayout.WellFormed u.pieces.mi) {actions : List Action}
    (sound : EngineSound u t) (h : Checked u.pieces log t) (hrun : run u t actions = some t')
    (undisturbed : Conforms u (Undisturbed u.pieces) t actions) :
    Checked u.pieces (log ++ accesses u t actions) t' := by
  induction actions generalizing t log with
  | nil =>
    cases hrun
    rwa [accesses, List.append_nil]
  | cons action rest ih =>
    simp only [TorrentEngine.run] at hrun
    split at hrun
    · cases hrun
    · next t1 hstep =>
      have hnext := h.step wf sound undisturbed.1 hstep
      have hlater := ih (step_sound wf sound hstep) hnext hrun (undisturbed.2 t1 hstep)
      simpa only [accesses, hstep, List.append_assoc] using hlater

/-- Where the completion check succeeds, every piece is done, and those on disk are backed. -/
theorem Checked.complete (sound : EngineSound u t) (h : Checked u.pieces log t)
    {alloc flushed : Bool}
    (zero : (checkCompletion u.pieces t alloc flushed).2 = 0) (hi : i < u.pieces.mi.numPieces) :
    (t.mgr.slots i).state = .done ∧
      (t.mgr.store.OnDisk (absOff u.pieces.mi i) (plenOf u.pieces i) →
        BackedPiece u.pieces log t.mgr i) := by
  have hcases := checkCompletion_cases u.pieces t alloc flushed
  generalize checkCompletion u.pieces t alloc flushed = r at hcases zero
  cases hcases with
  | missing _ => cases zero
  | shortcut hdone hall =>
    exact ⟨(numDone_iff sound.bookkeeping).mp hdone i hi, h.all hall i hi hi⟩
  | unflushed _ _ _ _ => cases zero
  | wrong _ _ _ _ _ => cases zero
  | right _ _ _ _ _ => cases zero
  | finished hdone _ hend =>
    exact ⟨(numDone_iff sound.bookkeeping).mp hdone i hi, h.begun i hi (Nat.lt_of_lt_of_le hi hend)⟩

theorem checkCompletion_zero_mgr {c : Config} {alloc flushed : Bool}
    (zero : checkCompletion c t alloc flushed = (t', 0)) : t'.mgr = t.mgr := by
  have hcases := checkCompletion_cases c t alloc flushed
  rw [zero] at hcases
  generalize hr : (t', (0 : Int)) = r at hcases
  cases hcases <;> cases hr
  · rfl
  · exact begun_mgr t

end Checks

/-- In a run whose startup check is not disturbed, a tick that returns 0 finds every piece
done, and every piece on disk read back with its hash after the last write to it. -/
theorem tick_backed {u : Setup} (wf : TorrentLayout.WellFormed u.pieces.mi)
    {options : Option Options} {hashOk : Bool} {heap : Nat → Nat → UInt8} {store : Store}
    (opened : Opened u.pieces.mi store) {t t' : Torrent} {actions more : List Action} {i : Tick}
    (session : Session u (fun _ _ => True) (createTorrent u options hashOk heap store) t actions)
    (tick : torrentTick u t i = some (t', 0, more))
    (undisturbed : Conforms u (Undisturbed u.pieces) (createTorrent u options hashOk heap store)
      (actions ++ more)) :
    ∀ piece, piece < u.pieces.mi.numPieces → (t'.mgr.slots piece).state = .done ∧
      (t'.mgr.store.OnDisk (absOff u.pieces.mi piece) (plenOf u.pieces piece) →
        Backed (accesses u (createTorrent u options hashOk heap store) (actions ++ more))
          piece) := by
  intro piece hpiece
  obtain ⟨t1, before, hbefore, rfl, hzero⟩ := (torrentTick_ticked tick).zero
  have hrun := run_append session.run hbefore
  rw [← List.append_assoc] at undisturbed ⊢
  have hcreated := sound_createTorrent wf options hashOk heap opened
  have hsound := (run_keeps wf (P := fun _ => True) (fun _ _ _ _ _ _ => trivial) hrun
    hcreated trivial).1
  have hchecked := (checked_created options hashOk heap store).run wf hcreated hrun
    ((conforms_append hrun).mp undisturbed).1
  rw [List.nil_append] at hchecked
  obtain ⟨hdone, hback⟩ := hchecked.complete hsound (congrArg Prod.snd hzero) hpiece
  have hmgr := checkCompletion_zero_mgr hzero
  rw [hmgr]
  refine ⟨hdone, fun hdisk => ?_⟩
  have hstep : step u t1 (.checkCompletion i.verifyScratch i.flushed) = some t' := by
    simp only [step, hzero]
  have hkept := (hback hdisk).backed.append
    (stepAccesses_unwritten wf hsound hpiece (hback hdisk).kept hstep)
  rw [accesses_append hrun]
  simpa only [accesses, hstep, List.append_nil] using hkept

/-! Three pieces on disk, the first of them wrong, and a web seed that has it. -/

def wrongStore : Store := ⟨[⟨0, 3, .disk, false, 0, some [1, 0, 1]⟩], [], none⟩

def wrongTorrent : Torrent := createTorrent onDiskSetup none true (fun _ _ => 7) wrongStore

def webSubmit : Input := .submitWebPiece 0 [0] true (fun _ => ⟨willing, [.lock]⟩) 5

/-- A tick once the hash worker runs: it takes the lock, and finds no result. -/
def lockTick : Tick := { quietTick with drain := ⟨willing, [.lock]⟩ }

/-- A tick that finds one result and writes the piece. -/
def drainTick : Tick := { quietTick with drain := ⟨willing, [.lock, .apply willing.io, .lock]⟩ }

theorem ticked_onDisk {t t' : Torrent} {actions more : List Action} {i : Tick}
    {r : Int} {piece : Nat} (session : Session onDiskSetup (fun _ _ => True) wrongTorrent t actions)
    (tick : torrentTick onDiskSetup t i = some (t', r, more))
    (readable : storageRangeReadable t'.mgr.store (absOff onDiskSetup.pieces.mi piece)
      (plenOf onDiskSetup.pieces piece) = true) :
    t'.mgr.store.OnDisk (absOff onDiskSetup.pieces.mi piece) (plenOf onDiskSetup.pieces piece) := by
  have hopened : Opened onDiskSetup.pieces.mi wrongStore := rfl
  have hsound := (run_keeps threePieces_wellFormed (P := fun _ => True) (fun _ _ _ _ _ _ => trivial)
    (run_append session.run (torrentTick_ticked tick).run)
    (sound_createTorrent threePieces_wellFormed none true (fun _ _ => 7) hopened) trivial).1
  obtain ⟨events, hmachine⟩ := hsound.settled.sound
  exact (storageRangeReadable_iff hmachine.books.laid _ _).mp readable

/-- The web seed delivers after the startup check: the final pass reads the piece back. -/
theorem tick_backed_web : ∃ t t' actions more,
    Session onDiskSetup (fun _ _ => True) wrongTorrent t actions ∧
    torrentTick onDiskSetup t lockTick = some (t', 0, more) ∧
    .wrote 0 ∈ accesses onDiskSetup wrongTorrent (actions ++ more) ∧
    Backed (accesses onDiskSetup wrongTorrent (actions ++ more)) 0 := by
  have hrun : (performAll onDiskSetup wrongTorrent [.tick quietTick, webSubmit, .worker,
      .worker, .worker, .tick drainTick, .tick lockTick, .tick lockTick]).bind (fun r =>
        (torrentTick onDiskSetup r.1 lockTick).map (fun q => (q.2.1,
          storageRangeReadable q.1.mgr.store (absOff onDiskSetup.pieces.mi 0)
          (plenOf onDiskSetup.pieces 0),
          decide (.wrote 0 ∈ accesses onDiskSetup wrongTorrent (r.2 ++ q.2.2)),
          decide (Conforms onDiskSetup (Undisturbed onDiskSetup.pieces) wrongTorrent
            (r.2 ++ q.2.2))))) =
      some (0, true, true, true) := by decide +kernel
  obtain ⟨⟨t, actions⟩, hcalls, hlast⟩ := Option.bind_eq_some_iff.mp hrun
  obtain ⟨⟨t', r, more⟩, htick, hfacts⟩ := Option.map_eq_some_iff.mp hlast
  simp only [Prod.mk.injEq, decide_eq_true_eq] at hfacts
  obtain ⟨rfl, hreadable, hwrote, hconforms⟩ := hfacts
  have hsession := Session.created.performAll hcalls
  have hopened : Opened onDiskSetup.pieces.mi wrongStore := rfl
  refine ⟨t, t', actions, more, hsession, htick, hwrote, ?_⟩
  exact (tick_backed threePieces_wellFormed hopened hsession htick hconforms 0 (by decide)).2
    (ticked_onDisk hsession htick hreadable)

/-- The web seed delivers the first piece when the startup check is past it. The check ends
with every piece done and the final pass is left out: the first piece is never read back. -/
theorem tick_unbacked : ∃ t t' actions more,
    Session onDiskSetup (fun _ _ => True) wrongTorrent t actions ∧
    torrentTick onDiskSetup t { lockTick with more := [] } = some (t', 0, more) ∧
    t'.mgr.store.OnDisk (absOff onDiskSetup.pieces.mi 0) (plenOf onDiskSetup.pieces 0) ∧
    .wrote 0 ∈ accesses onDiskSetup wrongTorrent (actions ++ more) ∧
    ¬ Backed (accesses onDiskSetup wrongTorrent (actions ++ more)) 0 := by
  have hrun : (performAll onDiskSetup wrongTorrent [.tick { quietTick with more := [] }, webSubmit,
      .worker, .worker, .worker, .tick { drainTick with more := [] }]).bind (fun r =>
        (torrentTick onDiskSetup r.1 { lockTick with more := [] }).map (fun q => (q.2.1,
          storageRangeReadable q.1.mgr.store (absOff onDiskSetup.pieces.mi 0)
          (plenOf onDiskSetup.pieces 0), accesses onDiskSetup wrongTorrent (r.2 ++ q.2.2)))) =
      some (0, true, [.matched 1, .wrote 0, .matched 2]) := by decide +kernel
  obtain ⟨⟨t, actions⟩, hcalls, hlast⟩ := Option.bind_eq_some_iff.mp hrun
  obtain ⟨⟨t', r, more⟩, htick, hfacts⟩ := Option.map_eq_some_iff.mp hlast
  simp only [Prod.mk.injEq] at hfacts
  obtain ⟨rfl, hreadable, hlog⟩ := hfacts
  have hsession := Session.created.performAll hcalls
  refine ⟨t, t', actions, more, hsession, htick, ticked_onDisk hsession htick hreadable, ?_, ?_⟩
  · rw [hlog]
    decide
  · intro hback
    rw [hlog] at hback
    exact absurd hback.mem (by decide)

end TorrentEngine
