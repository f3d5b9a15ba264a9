import Pipensx.EngineRuns

/-!
# What the application calls

`torrent_tick` in its own order, on top of the handlers of the engine: the startup check
within its time budget, the results of the hash worker, the peers, the requests, and the
completion check whose result it returns. Between two ticks the application submits pieces
from web seeds, asks for the bitfield and changes the request policy.
-/

namespace TorrentEngine

open PieceManager PieceGeometry

/-- What `torrent_tick` does to peers between the hash results and the requests. The worker
may move anywhere. -/
def Action.handles : Action → Bool
  | .worker => true
  | .connect _ _ => true
  | .connected _ _ _ => true
  | .encryption _ _ _ _ => true
  | .handshake _ _ _ => true
  | .receive _ _ => true
  | .message _ _ _ _ => true
  | .writable _ _ => true
  | .lost _ => true
  | .markDead _ => true
  | .releaseChoked _ _ => true
  | .sweep _ _ => true
  | .sampleRates _ _ => true
  | _ => false

def Action.requests : Action → Bool
  | .worker => true
  | .hedge _ _ => true
  | .schedule _ _ _ => true
  | _ => false

/-- What happens during one tick. The startup check gets to one piece at least, and to as
many more as its time allows; `scratch` and `more` say for each whether its scratch buffer
can be allocated. `polled` is false when `poll` fails. -/
structure Tick where
  scratch : Bool
  more : List Bool
  drain : Calling
  before : List Action
  polled : Bool
  after : List Action
  requests : List Action
  verifyScratch : Bool
  flushed : Bool

/-- The loop of the startup check, with the steps it takes. -/
def scanRounds (c : Config) : Torrent → List Bool → Torrent × List Action
  | t, [] => (t, [])
  | t, alloc :: rest =>
    if t.startupVerifying then
      let r := scanRounds c (startupRound c t alloc) rest
      (r.1, .startupVerify alloc :: r.2)
    else (t, [])

/-- The last call of a tick. -/
def finishTick (c : Config) (i : Tick) (t : Torrent) (actions : List Action) :
    Torrent × Int × List Action :=
  let r := checkCompletion c t i.verifyScratch i.flushed
  (r.1, r.2, actions ++ [.checkCompletion i.verifyScratch i.flushed])

/-- The handlers of a tick that has something left to download. -/
def tickPeers (u : Setup) (i : Tick) (t : Torrent) (actions : List Action) :
    Option (Torrent × Int × List Action) :=
  if (i.before ++ i.after).all Action.handles = false ∨
    i.requests.all Action.requests = false then none
  else
    match run u t i.before with
    | none => none
    | some t1 =>
      if i.polled = false then some (t1, 1, actions ++ i.before)
      else
        let rest := i.after ++ (if t1.startupVerifying then [] else i.requests)
        match run u t1 rest with
        | none => none
        | some t2 => some (finishTick u.pieces i t2 (actions ++ i.before ++ rest))

/-- `torrent_tick`: the torrent, the return value and the steps taken. -/
def torrentTick (u : Setup) (t : Torrent) (i : Tick) : Option (Torrent × Int × List Action) :=
  if t.fatalError then some (t, -1, [])
  else
    let scanned := scanRounds u.pieces t (i.scratch :: i.more)
    let actions := scanned.2 ++ [.drainHashResults i.drain]
    match step u scanned.1 (.drainHashResults i.drain) with
    | none => none
    | some t1 =>
      if t1.mgr.numDone = u.pieces.mi.numPieces then some (finishTick u.pieces i t1 actions)
      else tickPeers u i t1 actions

/-- The calls of the application, and the worker between them. -/
inductive Input where
  | tick (i : Tick)
  | submitWebPiece (piece : Nat) (data : List UInt8) (alloc : Bool)
    (calls : Nat → Calling) (now : Nat)
  | copyHaveBitfield (k : Calling)
  | setStrictLookahead (lookahead : Nat)
  | setRateFreeze (freeze : Bool)
  | worker

/-- One call, with the steps it takes. -/
def perform (u : Setup) (t : Torrent) : Input → Option (Torrent × List Action)
  | .tick i => (torrentTick u t i).map (fun r => (r.1, r.2.2))
  | .submitWebPiece piece data alloc calls now =>
    let action := .submitWebPiece piece data alloc calls now
    (step u t action).map (fun t' => (t', [action]))
  | .copyHaveBitfield k => (step u t (.hashFlush k)).map (fun t' => (t', [.hashFlush k]))
  | .setStrictLookahead lookahead =>
    (step u t (.setStrictLookahead lookahead)).map (fun t' => (t', [.setStrictLookahead lookahead]))
  | .setRateFreeze freeze =>
    (step u t (.setRateFreeze freeze)).map (fun t' => (t', [.setRateFreeze freeze]))
  | .worker => (step u t .worker).map (fun t' => (t', [.worker]))

/-- A session: calls one after the other, each at a state where `ok` allows it, with all
steps taken since the torrent `t0` was created. -/
inductive Session (u : Setup) (ok : Torrent → Input → Prop) (t0 : Torrent) :
    Torrent → List Action → Prop where
  | created : Session u ok t0 t0 []
  | call {t t' : Torrent} {actions more : List Action} (input : Input) : Session u ok t0 t actions →
      ok t input → perform u t input = some (t', more) → Session u ok t0 t' (actions ++ more)

/-- What `torrent_copy_have_bitfield` copies out after its flush; `none` is a return of 0. -/
def copyHaveBitfield (c : Config) (t : Torrent) (outLen : Nat) : Option (List UInt8) :=
  if t.startupVerifying then none
  else if outLen < (c.mi.numPieces + 7) / 8 then none
  else some ((List.range ((c.mi.numPieces + 7) / 8)).map t.mgr.haveBf)

/-- `refresh_skipped_bytes`. -/
def refreshSkippedBytes (c : Config) (store : Storage.Store) : Nat :=
  (List.range c.mi.numPieces).foldl (fun skipped idx =>
    if Storage.storageRangeSkipped store (absOff c.mi idx) (plenOf c idx) then
      skipped + plenOf c idx
    else skipped) 0

/-- The fields of `torrent_stat_t` that come from the pieces. -/
structure Stat where
  numPiecesDone : Nat
  numPieces : Nat
  numActivePeers : Nat
  downloaded : Nat
  totalBytes : Int
  completedBytes : Nat
  skippedBytes : Nat
  lastPayloadMs : Nat
  numPiecesVerified : Nat
  verifying : Bool
  complete : Bool

/-- `torrent_stat`; `skippedBytes` is the field of the torrent that `torrent_create_ex` has
computed. -/
def torrentStat (c : Config) (skippedBytes : Nat) (t : Torrent) : Stat where
  numPiecesDone := t.mgr.numDone
  numPieces := c.mi.numPieces
  numActivePeers := (List.range maxActivePeers).countP (fun slot =>
    (t.peers slot).any (fun p => decide (p.state = .active)))
  downloaded := t.downloaded
  totalBytes := c.mi.totalLength
  completedBytes := t.mgr.completedBytes
  skippedBytes := skippedBytes
  lastPayloadMs := t.lastPayloadMs
  numPiecesVerified := if t.startupVerifying then t.startupVerifyIndex else t.finalVerifyIndex
  verifying := t.startupVerifying || t.finalVerifying
  complete := t.finalVerifying && decide (t.finalVerifyIndex = c.mi.numPieces) &&
    decide (t.mgr.numDone = c.mi.numPieces)

theorem run_append {u : Setup} {t t1 t2 : Torrent} {actions actions' : List Action}
    (h : run u t actions = some t1) (h' : run u t1 actions' = some t2) :
    run u t (actions ++ actions') = some t2 := by
  induction actions generalizing t with
  | nil =>
    cases h
    exact h'
  | cons action rest ih =>
    simp only [run] at h
    cases hstep : step u t action with
    | none =>
      rw [hstep] at h
      cases h
    | some t0 =>
      rw [hstep] at h
      simp only [List.cons_append, run, hstep]
      exact ih h

theorem run_single {u : Setup} {t t' : Torrent} {action : Action} (h : step u t action = some t') :
    run u t [action] = some t' := by
  simp [run, h]

theorem scanRounds_run (u : Setup) (t : Torrent) (allocs : List Bool) :
    run u t (scanRounds u.pieces t allocs).2 = some (scanRounds u.pieces t allocs).1 := by
  induction allocs generalizing t with
  | nil => rfl
  | cons alloc rest ih =>
    by_cases hstarting : t.startupVerifying = true
    · simp only [scanRounds, hstarting, if_true, run, step]
      exact ih (startupRound u.pieces t alloc)
    · simp only [scanRounds, hstarting]
      rfl

/-- The handlers of a tick, in the order they run. -/
structure Handled (u : Setup) (t : Torrent) (middle : List Action) (t' : Torrent) : Prop where
  run : run u t middle = some t'
  kind : ∀ action ∈ middle, action.handles = true ∨ action.requests = true

/-- The ways through `torrent_tick`. -/
inductive Ticked (u : Setup) (t : Torrent) (i : Tick) : Torrent → Int → List Action → Prop where
  | fatal : t.fatalError = true → Ticked u t i t (-1) []
  | unpolled {t1 t2 : Torrent} {middle : List Action} : t.fatalError = false →
      step u (scanRounds u.pieces t (i.scratch :: i.more)).1 (.drainHashResults i.drain) = some t1 →
      Handled u t1 middle t2 →
      Ticked u t i t2 1 ((scanRounds u.pieces t (i.scratch :: i.more)).2 ++
        [.drainHashResults i.drain] ++ middle)
  | checked {t1 t2 : Torrent} {middle : List Action} : t.fatalError = false →
      step u (scanRounds u.pieces t (i.scratch :: i.more)).1 (.drainHashResults i.drain) = some t1 →
      Handled u t1 middle t2 →
      Ticked u t i (checkCompletion u.pieces t2 i.verifyScratch i.flushed).1
        (checkCompletion u.pieces t2 i.verifyScratch i.flushed).2
        ((scanRounds u.pieces t (i.scratch :: i.more)).2 ++ [.drainHashResults i.drain] ++ middle ++
          [.checkCompletion i.verifyScratch i.flushed])

theorem torrentTick_ticked {u : Setup} {t t' : Torrent} {i : Tick} {r : Int} {actions : List Action}
    (h : torrentTick u t i = some (t', r, actions)) : Ticked u t i t' r actions := by
  simp only [torrentTick] at h
  split at h
  · next hfatal =>
    cases h
    exact .fatal hfatal
  · next hfatal =>
    have hgood : t.fatalError = false := by simpa using hfatal
    split at h
    · cases h
    · next t1 hdrain =>
      split at h
      · cases h
        have hnothing : Handled u t1 [] t1 := ⟨rfl, by simp⟩
        have hchecked := Ticked.checked hgood hdrain hnothing
        rwa [List.append_nil] at hchecked
      · simp only [tickPeers] at h
        split at h
        · cases h
        · next hkinds =>
          simp only [not_or, Bool.not_eq_false] at hkinds
          have hhandles : ∀ action ∈ i.before ++ i.after, action.handles = true :=
            List.all_eq_true.mp hkinds.1
          have hrequests : ∀ action ∈ i.requests, action.requests = true :=
            List.all_eq_true.mp hkinds.2
          split at h
          · cases h
          · next t2 hbefore =>
            split at h
            · cases h
              refine .unpolled hgood hdrain ⟨hbefore, ?_⟩
              intro action hmem
              exact Or.inl (hhandles action (List.mem_append_left _ hmem))
            · split at h
              · cases h
              · next t3 hrest =>
                cases h
                have hchecked := Ticked.checked (i := i) hgood hdrain
                  ⟨run_append hbefore hrest, ?_⟩
                · simpa [finishTick, List.append_assoc] using hchecked
                · intro action hmem
                  rcases List.mem_append.mp hmem with hleft | hright
                  · exact Or.inl (hhandles action (List.mem_append_left _ hleft))
                  · rcases List.mem_append.mp hright with hafter | hasked
                    · exact Or.inl (hhandles action (List.mem_append_right _ hafter))
                    · split at hasked
                      · cases hasked
                      · exact Or.inr (hrequests action hasked)

theorem Ticked.run {u : Setup} {t t' : Torrent} {i : Tick} {r : Int} {actions : List Action}
    (h : Ticked u t i t' r actions) : TorrentEngine.run u t actions = some t' := by
  have hscan := scanRounds_run u t (i.scratch :: i.more)
  cases h with
  | fatal _ => rfl
  | unpolled _ hdrain handled =>
    exact run_append (run_append hscan (run_single hdrain)) handled.run
  | checked _ hdrain handled =>
    exact run_append (run_append (run_append hscan (run_single hdrain)) handled.run)
      (run_single rfl)

/-- A tick that returns 0 ends with a completion check that succeeds. -/
theorem Ticked.zero {u : Setup} {t t' : Torrent} {i : Tick} {actions : List Action}
    (h : Ticked u t i t' 0 actions) : ∃ t1 before,
      TorrentEngine.run u t before = some t1 ∧
      actions = before ++ [.checkCompletion i.verifyScratch i.flushed] ∧
      checkCompletion u.pieces t1 i.verifyScratch i.flushed = (t', 0) := by
  have hscan := scanRounds_run u t (i.scratch :: i.more)
  generalize hr : (0 : Int) = r at h
  cases h with
  | fatal _ => cases hr
  | unpolled _ _ _ => cases hr
  | checked _ hdrain handled =>
    exact ⟨_, _, run_append (run_append hscan (run_single hdrain)) handled.run, rfl, rfl⟩

theorem perform_run {u : Setup} {t t' : Torrent} {input : Input} {actions : List Action}
    (h : perform u t input = some (t', actions)) : run u t actions = some t' := by
  have single : ∀ action : Action,
      (step u t action).map (fun t' => (t', [action])) = some (t', actions) →
      run u t actions = some t' := by
    intro action hsome
    obtain ⟨t1, hstep, heq⟩ := Option.map_eq_some_iff.mp hsome
    cases heq
    exact run_single hstep
  cases input with
  | tick i =>
    obtain ⟨⟨t1, r, acts⟩, htick, heq⟩ := Option.map_eq_some_iff.mp h
    cases heq
    exact (torrentTick_ticked htick).run
  | submitWebPiece piece data alloc calls now =>
    exact single (.submitWebPiece piece data alloc calls now) h
  | copyHaveBitfield k => exact single (.hashFlush k) h
  | setStrictLookahead lookahead => exact single (.setStrictLookahead lookahead) h
  | setRateFreeze freeze => exact single (.setRateFreeze freeze) h
  | worker => exact single .worker h

/-- Every session is a run of the engine. -/
theorem Session.run {u : Setup} {ok : Torrent → Input → Prop} {t0 t : Torrent}
    {actions : List Action}
    (h : Session u ok t0 t actions) : TorrentEngine.run u t0 actions = some t := by
  induction h with
  | created => rfl
  | call input _ _ hperform ih => exact run_append ih (perform_run hperform)

/-- Several calls, one after the other. -/
def performAll (u : Setup) : Torrent → List Input → Option (Torrent × List Action)
  | t, [] => some (t, [])
  | t, input :: rest =>
    match perform u t input with
    | none => none
    | some (t1, actions) => (performAll u t1 rest).map (fun r => (r.1, actions ++ r.2))

theorem Session.performAll {u : Setup} {t0 t t' : Torrent} {before actions : List Action}
    {inputs : List Input} (session : Session u (fun _ _ => True) t0 t before)
    (h : performAll u t inputs = some (t', actions)) :
    Session u (fun _ _ => True) t0 t' (before ++ actions) := by
  induction inputs generalizing t before actions with
  | nil =>
    cases h
    rwa [List.append_nil]
  | cons input rest ih =>
    simp only [TorrentEngine.performAll] at h
    split at h
    · cases h
    · next t1 first hperform =>
      obtain ⟨⟨t2, later⟩, hrest, heq⟩ := Option.map_eq_some_iff.mp h
      cases heq
      rw [← List.append_assoc]
      exact ih (Session.call input session trivial hperform) hrest

end TorrentEngine
