import Pipensx.PieceWrites
import Pipensx.PipelineCounts

/-!
# What peers can send

A block that reaches the piece manager was asked for with the same piece, offset and
length, so it is one the manager accepts. As long as memory and storage do not fail, no
bytes from the peers make the torrent fail.
-/

namespace TorrentEngine

open PieceManager PeerRequests PieceGeometry

/-- No allocation and nothing under a write fails during the call. -/
def Calling.Willing (k : Calling) : Prop :=
  k.env.alloc = true ∧ Storage.Willing k.env.io maxPieceBytes ∧
    ∀ io, .apply io ∈ k.acts → Storage.Willing io maxPieceBytes

/-- A torrent that has not failed, with its store ready for more. -/
structure Unfailed (u : Setup) (t : Torrent) : Prop where
  sound : EngineSound u t
  stored : Stored u.pieces t.mgr
  fatal : t.fatalError = false

section Blocks

variable {c : Config} {s : Mgr}

/-- Every position of a piece lies in one of its blocks. -/
theorem known_of_inside (wf : TorrentLayout.WellFormed c.mi) {i off : Nat} (hi : i < c.mi.numPieces)
    (inside : (off : Int) < pieceLen c.mi i) : Known c i (off / blockSize) := by
  refine ⟨hi, ?_⟩
  obtain ⟨hlow, hhigh⟩ := pieceLen_bounds wf.exact hi
  have hlimit := wf.pieceLength_le
  simp only [TorrentFile.maxPieceLength] at hlimit
  simp only [pieceNumBlocks, blockSize]
  rw [Int.tdiv_eq_ediv_of_nonneg (by omega)]
  omega

/-- A block of the torrent with its own length is accepted. -/
theorem Known.acceptable (wf : TorrentLayout.WellFormed c.mi) {i b : Nat} (h : Known c i b)
    (shape : ∀ i, (s.slots i).numBlocks = pieceNumBlocks c.mi i) {data : List UInt8}
    (hdata : data.length = expectedLen c i (b * blockSize)) :
    Acceptable c s i (b * blockSize) data := by
  refine ⟨h.piece, Nat.mul_mod_left _ _, h.inside wf, ?_, hdata⟩
  rw [mul_blockSize_div, shape]
  exact h.block

/-- The part of a web piece that is handed over as one block. -/
theorem webBlock_acceptable (wf : TorrentLayout.WellFormed c.mi) {piece off : Nat}
    {data : List UInt8}
    (hpiece : piece < c.mi.numPieces) (hdata : (data.length : Int) = pieceLen c.mi piece % 2 ^ 32)
    (haligned : off % blockSize = 0) (hoff : off < data.length)
    (shape : ∀ i, (s.slots i).numBlocks = pieceNumBlocks c.mi i) :
    Acceptable c s piece off ((data.drop off).take blockSize) := by
  obtain ⟨hlow, hhigh⟩ := pieceLen_bounds wf.exact hpiece
  have hlimit := wf.pieceLength_le
  simp only [TorrentFile.maxPieceLength] at hlimit
  have hlen : (data.length : Int) = pieceLen c.mi piece := by
    rw [hdata]
    exact Int.emod_eq_of_lt (by omega) (by omega)
  have known := known_of_inside wf hpiece (show (off : Int) < pieceLen c.mi piece by omega)
  have hmul : off / blockSize * blockSize = off :=
    Nat.div_mul_cancel (Nat.dvd_of_mod_eq_zero haligned)
  have hexpected := known.length wf
  rw [hmul] at hexpected
  have hpart : ((data.drop off).take blockSize).length =
    expectedLen c piece (off / blockSize * blockSize) := by
    rw [hmul, List.length_take, List.length_drop]
    omega
  have hacceptable := known.acceptable wf shape hpart
  rwa [hmul] at hacceptable

end Blocks

section Calls

variable {c : Config} {t t' : Torrent}

theorem willing_acts {call : Call} {k : Calling} (h : k.Willing)
    (inner : ∀ act ∈ k.acts, inner act = true) :
    ∀ act ∈ Act.call call k.env :: k.acts, act.Willing := by
  intro act hact
  rcases List.mem_cons.mp hact with rfl | hrest
  · exact ⟨h.1, h.2.1⟩
  · cases act with
    | call made env => cases inner _ hrest
    | apply io => exact h.2.2 io hrest
    | _ => trivial

theorem hashResults_unfailed {t : Torrent} {events : List Event}
    (fine : ∀ idx status, .report idx status ∈ events → 0 ≤ status) : t.hashResults events = t := by
  unfold Torrent.hashResults
  rw [if_neg]
  intro hany
  obtain ⟨event, hmem, hneg⟩ := List.any_eq_true.mp hany
  cases event with
  | report idx status =>
    have hstatus := fine idx status hmem
    simp only [decide_eq_true_eq] at hneg
    omega
  | _ => cases hneg

/-- A call without faults makes nothing fail. -/
theorem callPieces_unfailed (wf : TorrentLayout.WellFormed c.mi) (settled : Settled c t.machine)
    (stored : Stored c t.mgr) {call : Call} {k : Calling} {result : Int} (willing : k.Willing)
    (h : callPieces c t call k = some (t', result)) :
    Stored c t'.mgr ∧ t'.fatalError = t.fatalError := by
  obtain ⟨hinner, m, events, hrun, _, rfl, _⟩ := callPieces_run h
  obtain ⟨log, hsound⟩ := settled.sound
  obtain ⟨hstored, hreports⟩ := run_reports wf hsound stored (willing_acts willing hinner) hrun
  rw [hashResults_unfailed hreports]
  exact ⟨hstored, rfl⟩

theorem returnValue_nonneg {events : List Event}
    (fine : ∀ value, .returned value ∈ events → 0 ≤ value) :
    0 ≤ returnValue events := by
  unfold returnValue
  generalize hfind : events.findSome? _ = found
  cases found with
  | none => simp
  | some value =>
    obtain ⟨event, hmem, hevent⟩ := List.exists_of_findSome?_eq_some hfind
    cases event with
    | returned value' =>
      cases hevent
      exact fine value hmem
    | _ => cases hevent

/-- A block that passes the checks is taken, and the call says so. -/
theorem callPieces_accepts (wf : TorrentLayout.WellFormed c.mi) (settled : Settled c t.machine)
    (stored : Stored c t.mgr) {idx off : Nat} {data : List UInt8} {k : Calling} {result : Int}
    (willing : k.Willing) (acceptable : Acceptable c t.mgr idx off data)
    (h : callPieces c t (.gotBlock idx off (some data)) k = some (t', result)) : 0 ≤ result := by
  obtain ⟨hinner, m, events, hrun, _, _, rfl⟩ := callPieces_run h
  obtain ⟨m1, first, later, hstep, hrest, rfl⟩ := run_cons hrun
  rw [step_idle_call settled.idle] at hstep
  cases hstep
  refine returnValue_nonneg ?_
  intro value hmem
  rcases List.mem_append.mp hmem with hfirst | hlater
  · simp only [start] at hfirst
    split at hfirst
    · next s' r hgot =>
      have hr : 0 ≤ r := by
        refine gotBlock_accepts wf stored willing.1 willing.2.1 acceptable ?_
        exact congrArg Prod.snd hgot
      simp only [List.mem_singleton, Event.returned.injEq] at hfirst
      omega
    · cases hfirst
  · refine run_returns ?_ hrest hlater
    rintro act hact call env rfl
    cases hinner _ hact

end Calls

section Engine

variable {u : Setup} {t t' : Torrent}

theorem stored_start {c : Config} {s : Mgr} (layout : TorrentLayout.FileLayout c.mi)
    (h : Stored c s) (env : Env) (call : Call) : Stored c (start c s env call).1 :=
  h.edits layout (start_edits c s env call).1

theorem stored_clearRequests {c : Config} (layout : TorrentLayout.FileLayout c.mi)
    (gone : List BlockReq) {s : Mgr} (h : Stored c s) : Stored c (gone.foldl (clearRequest c) s) :=
  clearRequests_induction (P := Stored c) (fun _ piece block hs =>
    stored_start layout hs (envOf true) (.clearBlockRequested piece block)) gone h

theorem Unfailed.block (wf : TorrentLayout.WellFormed u.pieces.mi) (h : Unfailed u t) {slot : Nat}
    {p p' : Peer} (hpeer : t.peers slot = some p) {idx off now : Nat}
    {data : List UInt8} {k : Calling} {nets : Nat → PeerSend.Transport} (willing : k.Willing)
    (hidx : idx < 2 ^ 32) (hoff : off < 2 ^ 32) (hdata : data.length < 2 ^ 32)
    (hasked : p.pipeline.any (fun r => r.isExactly idx off data.length) = true)
    (hblock : cbBlock u.pieces (t.setPeer slot (some p')) idx off data now k nets = some t') :
    Stored u.pieces t'.mgr ∧ t'.fatalError = false := by
  obtain ⟨b, known, rfl, hlength⟩ := (h.sound.peers slot p hpeer).asked wf hidx hoff hdata hasked
  have hacceptable := known.acceptable wf h.sound.settled.shape hlength
  obtain ⟨t1, result, hcall, hmachine, _, _, hfatal⟩ := cbBlock_cases hblock
  have hsettled : Settled u.pieces
      { t.setPeer slot (some p') with downloaded := t.downloaded + data.length }.machine :=
    h.sound.settled
  have hstored : Stored u.pieces
      { t.setPeer slot (some p') with downloaded := t.downloaded + data.length }.mgr := h.stored
  obtain ⟨hstored1, hfatal1⟩ := callPieces_unfailed wf hsettled hstored willing hcall
  have hresult := callPieces_accepts wf hsettled hstored willing hacceptable hcall
  constructor
  · rw [Torrent.mgr, hmachine]
    exact hstored1
  · rw [hfatal, hfatal1]
    simp only [Bool.or_eq_false_iff, decide_eq_false_iff_not, not_lt]
    exact ⟨h.fatal, hresult⟩

/-- Without faults of the system no move makes the torrent fail. -/
theorem Unfailed.move (wf : TorrentLayout.WellFormed u.pieces.mi) (h : Unfailed u t)
    (move : Move u Calling.Willing t t') : Unfailed u t' := by
  have hsound := h.sound.move wf move
  have key : Stored u.pieces t'.mgr ∧ t'.fatalError = false := by
    cases move with
    | flags _ hmachine _ _ hfatal =>
      rw [Torrent.mgr, hmachine, hfatal]
      exact ⟨h.stored, h.fatal⟩
    | worker m events hstep =>
      exact ⟨h.stored.transition wf.layout (step_transition hstep), h.fatal⟩
    | edit call env _ _ => exact ⟨stored_start wf.layout h.stored env call, h.fatal⟩
    | check idx alloc _ =>
      exact ⟨stored_start wf.layout h.stored (envOf alloc) (.checkExisting idx), h.fatal⟩
    | call _ call k result hwilling _ hcall =>
      obtain ⟨hstored, hfatal⟩ := callPieces_unfailed wf h.sound.settled h.stored hwilling hcall
      exact ⟨hstored, hfatal.trans h.fatal⟩
    | webFail t1 piece off data k result hwilling hpiece hdata haligned hoff hcall hneg =>
      have hacceptable := webBlock_acceptable wf hpiece hdata haligned hoff h.sound.settled.shape
      have hresult := callPieces_accepts wf h.sound.settled h.stored hwilling hacceptable hcall
      omega
    | peers peers _ => exact ⟨h.stored, h.fatal⟩
    | join slot p _ _ => exact ⟨h.stored, h.fatal⟩
    | leave slot p _ _ => exact ⟨h.stored, h.fatal⟩
    | release slot p p' keep _ _ _ _ => exact ⟨stored_clearRequests wf.layout _ h.stored, h.fatal⟩
    | ask slot p p' idx b now =>
      exact ⟨stored_start wf.layout h.stored (envOf true) (.markBlockRequested idx b), h.fatal⟩
    | hedge slot primary p p' q r head now =>
      exact ⟨stored_start wf.layout h.stored (envOf true)
        (.markBlockRequested head (r.offset.toNat / blockSize)), h.fatal⟩
    | block _ slot p p' idx off data now k nets _ hwilling hpeer _ hidx hoff hdata
      hasked _ hblock =>
      exact h.block wf hpeer hwilling hidx hoff hdata hasked hblock
  exact ⟨hsound, key.1, key.2⟩

theorem stored_createTorrent (wf : TorrentLayout.WellFormed u.pieces.mi) (options : Option Options)
    (hashOk : Bool) (heap : Nat → Nat → UInt8) {store : Storage.Store}
    (opened : Storage.Opened u.pieces.mi store) (ready : store.Ready) :
    Stored u.pieces (createTorrent u options hashOk heap store).mgr := by
  have hcreate : Stored u.pieces (create u.pieces hashOk heap store) := ⟨opened, ready⟩
  simp only [createTorrent, Torrent.mgr, createPieces]
  split
  · exact hcreate
  · next o =>
    have hpolicy := stored_start wf.layout hcreate (envOf true)
      (.setStrictPolicy o.strictOrderLookahead o.strictFillPendingFirst)
    split
    · exact stored_start wf.layout hpolicy (envOf true)
        (.presetHave o.haveBitfield o.haveBitfieldLen)
    · exact hpolicy

/-- In every run without faults of memory and storage, whatever the peers send, the torrent
does not fail; a block that a message carries is one the piece manager accepts, and the
length it was asked for with is the length that is expected. -/
theorem run_unfailed (wf : TorrentLayout.WellFormed u.pieces.mi) {options : Option Options}
    {hashOk : Bool}
    {heap : Nat → Nat → UInt8} {store : Storage.Store} (opened : Storage.Opened u.pieces.mi store)
    (ready : store.Ready) {actions : List Action}
    (willing : ∀ action ∈ actions, action.Uses Calling.Willing)
    (h : run u (createTorrent u options hashOk heap store) actions = some t) :
    t.fatalError = false ∧
      (∀ slot p now idx off data, t.peers slot = some p →
        (processMessage u.pieces.mi.numPieces now p).2 = .block idx off data →
        Acceptable u.pieces t.mgr idx off data ∧
          ∀ env : Env, env.alloc = true → Storage.Willing env.io maxPieceBytes →
            (gotBlock u.pieces env t.mgr idx off (some data)).2 ≠ some (-1)) ∧
      ∀ idx b, idx < u.pieces.mi.numPieces → b < (t.mgr.slots idx).numBlocks →
        requestLen u.pieces idx (b * blockSize % 2 ^ 32) =
          expectedLen u.pieces idx (b * blockSize) ∧
          (expectedLen u.pieces idx (b * blockSize) : Int) =
            min (blockSize : Int) (pieceLen u.pieces.mi idx - (b * blockSize : Nat)) := by
  have hunfailed : Unfailed u t := by
    refine run_moves (P := Unfailed u) (fun _ _ hold hmove => hold.move wf hmove) willing h ?_
    exact ⟨sound_createTorrent wf options hashOk heap opened,
      stored_createTorrent wf options hashOk heap opened ready, rfl⟩
  refine ⟨hunfailed.fatal, ?_, ?_⟩
  · intro slot p now idx off data hpeer hmessage
    obtain ⟨_, hanswered⟩ := processMessage_answered u.pieces.mi.numPieces now p
    rw [hmessage] at hanswered
    cases hanswered with
    | block _ _ _ hidx hoff hdata hasked _ =>
      obtain ⟨b, known, rfl, hlength⟩ :=
        (hunfailed.sound.peers slot p hpeer).asked wf hidx hoff hdata hasked
      have hacceptable := known.acceptable wf hunfailed.sound.settled.shape hlength
      refine ⟨hacceptable, ?_⟩
      intro env halloc hio hresult
      have hnonneg := gotBlock_accepts wf hunfailed.stored halloc hio hacceptable hresult
      omega
  · intro idx b hidx hb
    have known : Known u.pieces idx b := by
      refine ⟨hidx, ?_⟩
      rw [← hunfailed.sound.settled.shape idx]
      exact hb
    have hoff : b * blockSize % 2 ^ 32 = b * blockSize := Nat.mod_eq_of_lt (by
      have hbound := (known.bounds wf).2
      omega)
    refine ⟨?_, known.length wf⟩
    rw [hoff]
    rfl

end Engine

/-- Both peers are asked for the first piece, the second one sends it, and then a message
that nobody asked for. -/
def answeredRun : List Action :=
  hedgedRun ++ [.receive 1 (pieceBytes 0), .message 1 1700 ⟨willing, [.lock]⟩ (fun _ => openNet),
    .receive 0 (pieceBytes 7), .message 0 1700 ⟨willing, []⟩ (fun _ => openNet)]

theorem run_unfailed_answered : ∃ t, run threeSetup threeTorrent answeredRun = some t ∧
    hasBlock threeConfig t.mgr 0 0 = true ∧ t.fatalError = false := by
  have hrun : (run threeSetup threeTorrent answeredRun).map
      (fun t => hasBlock threeConfig t.mgr 0 0) = some true := by decide +kernel
  obtain ⟨t, hsome, hblock⟩ := Option.map_eq_some_iff.mp hrun
  have hopened : Storage.Opened threeSetup.pieces.mi threeStore := rfl
  have hready : threeStore.Ready := by
    intro i fh hget
    have hmem := List.mem_of_getElem? hget
    simp only [threeStore, List.mem_singleton] at hmem
    subst hmem
    simp
  have hio : Storage.Willing willing.io maxPieceBytes :=
    fun _ => ⟨rfl, by simp [willing, maxPieceBytes, TorrentFile.maxPieceLength], rfl⟩
  have hquiet : ∀ acts, (acts = [] ∨ acts = [Act.lock]) → Calling.Willing ⟨willing, acts⟩ := by
    intro acts hacts
    refine ⟨rfl, hio, ?_⟩
    rcases hacts with rfl | rfl <;> simp
  have hwilling : ∀ action ∈ answeredRun, action.Uses Calling.Willing := by
    simp [answeredRun, hedgedRun, startupCheck, arrive, askPeer, Action.Uses, hquiet]
  exact ⟨t, hsome, hblock, (run_unfailed threePieces_wellFormed hopened hready hwilling hsome).1⟩

end TorrentEngine
