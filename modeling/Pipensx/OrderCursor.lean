import Pipensx.HashRing
import Pipensx.PiecePicker

/-!
# The cursor of the download order

`order_cursor` caches how far the download order is done, so that the picker need not
start at position 0. It is moved forward where a piece becomes done and pulled back where
a piece is reset, through the table `order_pos`. It never passes a piece that is not done,
as long as the order repeats no piece of the torrent.
-/

namespace PieceManager

open PieceGeometry Storage

/-- A position the picker has nothing to look for at: the piece there is done, or is not
one of the torrent. -/
def Passed (c : Config) (s : Mgr) (n : Nat) : Prop :=
  c.mi.numPieces ≤ orderPieceAt c n ∨ (s.slots (orderPieceAt c n)).state = .done

structure Frontier (c : Config) (s : Mgr) : Prop where
  inside : s.orderCursor ≤ orderCount c
  passed : ∀ n < s.orderCursor, Passed c s n

/-- No piece of the torrent stands twice in the order. -/
def NoRepeat (c : Config) : Prop := (c.pieceOrder.filter (fun i => i < c.mi.numPieces)).Nodup

theorem fillOrderPos_notMem {numPieces : Nat} (order : List Nat) (n : Nat)
    (pos : Nat → Option Nat) {idx : Nat} (h : idx ∉ order) :
    fillOrderPos numPieces order n pos idx = pos idx := by
  induction order generalizing n pos with
  | nil => rfl
  | cons piece rest ih =>
    obtain ⟨hne, hrest⟩ := not_or.mp (fun hmem => h (List.mem_cons.mpr hmem))
    rw [fillOrderPos, ih _ _ hrest]
    split
    · exact Function.update_of_ne hne _ _
    · rfl

/-- The loop leaves the last position of every piece of the torrent. -/
theorem fillOrderPos_mem {numPieces : Nat} (order : List Nat) (n : Nat)
    (pos : Nat → Option Nat) {idx : Nat} (hidx : idx < numPieces) (h : idx ∈ order) :
    ∃ k, order[k]? = some idx ∧ fillOrderPos numPieces order n pos idx = some (n + k) := by
  induction order generalizing n pos with
  | nil => cases h
  | cons piece rest ih =>
    rw [fillOrderPos]
    by_cases hrest : idx ∈ rest
    · obtain ⟨k, hk, hpos⟩ := ih (n + 1)
        (if piece < numPieces then Function.update pos piece (some n) else pos) hrest
      refine ⟨k + 1, by simpa using hk, ?_⟩
      rw [hpos]
      congr 1
      omega
    · obtain rfl : idx = piece := by simpa [hrest] using h
      refine ⟨0, rfl, ?_⟩
      rw [fillOrderPos_notMem rest _ _ hrest, if_pos hidx]
      exact Function.update_self _ _ _

section Order

variable {c : Config} {s s' : Mgr}

theorem orderPieceAt_of_order {n : Nat} (hne : c.pieceOrder ≠ []) (hn : n < c.pieceOrder.length) :
    orderPieceAt c n = c.pieceOrder[n] := by
  simp [orderPieceAt, hne, hn]

/-- A piece of the torrent stands at one position at most. -/
theorem position_unique (single : NoRepeat c) {m n : Nat} (hm : m < orderCount c)
    (hn : n < orderCount c) (hin : orderPieceAt c m < c.mi.numPieces)
    (heq : orderPieceAt c m = orderPieceAt c n) : m = n := by
  by_cases hne : c.pieceOrder = []
  · simpa [orderPieceAt, hne] using heq
  · simp only [orderCount, hne, if_false] at hm hn
    rw [orderPieceAt_of_order hne hm] at hin heq
    rw [orderPieceAt_of_order hne hn] at heq
    have hpair := List.pairwise_iff_getElem.mp (List.pairwise_filter.mp single)
    rcases Nat.lt_trichotomy m n with hlt | rfl | hgt
    · exact absurd heq (hpair m n hm hn hlt (by simpa using hin) (by simpa [← heq] using hin))
    · rfl
    · exact absurd heq.symm (hpair n m hn hm hgt (by simpa [← heq] using hin) (by simpa using hin))

/-- `order_pos` is the inverse of the order on the pieces of the torrent. -/
theorem orderPos_of_piece (single : NoRepeat c) {n idx : Nat} (hn : n < orderCount c)
    (hidx : idx < c.mi.numPieces) (hat : orderPieceAt c n = idx) : orderPos c idx = some n := by
  by_cases hne : c.pieceOrder = []
  · simp only [orderPieceAt, hne, if_true] at hat
    simp [orderPos, hne, hat]
  · have hn' : n < c.pieceOrder.length := by simpa [orderCount, hne] using hn
    have hmem : idx ∈ c.pieceOrder := by
      rw [← hat, orderPieceAt_of_order hne hn']
      exact List.getElem_mem hn'
    obtain ⟨k, hk, hpos⟩ := fillOrderPos_mem c.pieceOrder 0 (fun _ => none) hidx hmem
    obtain ⟨hk', hget⟩ := List.getElem?_eq_some_iff.mp hk
    have hkat : orderPieceAt c k = idx := by rw [orderPieceAt_of_order hne hk', hget]
    have hkn : k = n := position_unique single (by simpa [orderCount, hne] using hk') hn
      (hkat ▸ hidx) (hkat.trans hat.symm)
    simp [orderPos, hne, hpos, hkn]

theorem advanceLoop_spec (c : Config) (s : Mgr) (fuel cursor : Nat) (h : cursor ≤ orderCount c) :
    advanceLoop c s.slots fuel cursor ≤ orderCount c ∧
      ∀ n, cursor ≤ n → n < advanceLoop c s.slots fuel cursor → Passed c s n := by
  induction fuel generalizing cursor with
  | zero => exact ⟨h, fun n hlo hhi => absurd hhi (by simp only [advanceLoop]; omega)⟩
  | succ fuel ih =>
    simp only [advanceLoop]
    split
    · next hcount =>
      split
      · exact ⟨h, fun n hlo hhi => by omega⟩
      · next hstop =>
        obtain ⟨hle, hpassed⟩ := ih (cursor + 1) hcount
        refine ⟨hle, fun n hlo hhi => ?_⟩
        rcases Nat.eq_or_lt_of_le hlo with rfl | hlater
        · by_cases hin : orderPieceAt c cursor < c.mi.numPieces
          · exact Or.inr (by_contra fun hnot => hstop ⟨hin, hnot⟩)
          · exact Or.inl (by omega)
        · exact hpassed n hlater hhi
    · exact ⟨h, fun n hlo hhi => by omega⟩

/-- What is done stays done, and the cursor does not move. -/
theorem Frontier.keep (h : Frontier c s) (cursor : s'.orderCursor = s.orderCursor)
    (done : ∀ i, (s.slots i).state = .done → (s'.slots i).state = .done) : Frontier c s' := by
  refine ⟨cursor ▸ h.inside, fun n hn => ?_⟩
  rcases h.passed n (cursor ▸ hn) with hout | hdone
  · exact Or.inl hout
  · exact Or.inr (done _ hdone)

/-- One slot changes that was not done, or stays done. -/
theorem Frontier.slot (h : Frontier c s) {idx : Nat} {sl : Slot}
    (cursor : s'.orderCursor = s.orderCursor) (slots : s'.slots = Function.update s.slots idx sl)
    (done : (s.slots idx).state = .done → sl.state = .done) : Frontier c s' := by
  refine h.keep cursor fun i hi => ?_
  rw [slots]
  by_cases hii : i = idx
  · subst hii
    rw [Function.update_self]
    exact done hi
  · rwa [Function.update_of_ne hii]

theorem Frontier.advance (h : Frontier c s) : Frontier c (orderCursorAdvance c s) := by
  obtain ⟨hle, hpassed⟩ := advanceLoop_spec c s (orderCount c - s.orderCursor)
    s.orderCursor h.inside
  refine ⟨hle, fun n hn => ?_⟩
  by_cases hold : n < s.orderCursor
  · exact h.passed n hold
  · exact hpassed n (by omega) hn

theorem orderCursorRewind_cursor (c : Config) (s : Mgr) (idx : Nat) :
    (orderCursorRewind c s idx).orderCursor ≤ s.orderCursor ∧
      ∀ pos, orderPos c idx = some pos → (orderCursorRewind c s idx).orderCursor ≤ pos := by
  cases hpos : orderPos c idx with
  | none => simp [orderCursorRewind, hpos]
  | some back =>
    by_cases hlt : back < s.orderCursor
    · simp [orderCursorRewind, hpos, hlt, hlt.le]
    · simp [orderCursorRewind, hpos, hlt, Nat.le_of_not_lt hlt]

theorem forgetDone_cursor (c : Config) (s : Mgr) (idx : Nat) :
    (forgetDone c s idx).orderCursor = s.orderCursor := by
  simp only [forgetDone]
  split
  · rfl
  · rfl

/-- A reset pulls the cursor back to the only position of the piece. -/
theorem Frontier.resetPiece (h : Frontier c s) (single : NoRepeat c) {idx : Nat}
    (hidx : idx < c.mi.numPieces) : Frontier c (resetPiece c s idx) := by
  obtain ⟨hrewind, hpos⟩ :=
    orderCursorRewind_cursor c ((forgetDone c s idx).setSlot idx Slot.cleared) idx
  have hback : (PieceManager.resetPiece c s idx).orderCursor ≤ s.orderCursor :=
    hrewind.trans (forgetDone_cursor c s idx).le
  refine ⟨hback.trans h.inside, fun n hn => ?_⟩
  have hold := h.passed n (Nat.lt_of_lt_of_le hn hback)
  by_cases hat : orderPieceAt c n = idx
  · have hcount : n < orderCount c := Nat.lt_of_lt_of_le hn (hback.trans h.inside)
    exact absurd hn (Nat.not_lt.mpr (hpos n (orderPos_of_piece single hcount hidx hat)))
  · simpa [Passed, Function.update_of_ne hat] using hold

theorem Frontier.markPieceDone (h : Frontier c s) (idx plen : Nat) :
    Frontier c (markPieceDone c s idx plen) := by
  apply Frontier.advance
  exact h.slot rfl rfl (fun _ => rfl)

theorem Frontier.markDoneUnhashed (h : Frontier c s) (idx : Nat) (readable : Bool) :
    Frontier c (markDoneUnhashed c s idx readable) := by
  apply Frontier.advance
  exact h.slot rfl rfl (fun _ => rfl)

/-- The pool and the store are not looked at. -/
theorem Frontier.setPool (h : Frontier c s) (buf : Option Nat) :
    Frontier c (pieceBufPut s buf) := by
  obtain ⟨pool, hpool⟩ := pieceBufPut_eq s buf
  rw [hpool]
  exact h.keep rfl fun _ => id

theorem Frontier.setBuf (h : Frontier c s) (idx : Nat) (buf : Option Nat) :
    Frontier c (s.setSlot idx (fun sl => { sl with buf := buf })) :=
  h.slot rfl rfl id

theorem Frontier.edit (single : NoRepeat c) {l : Licence} (h : Frontier c s)
    (edit : Edit c l s s') : Frontier c s' := by
  cases edit with
  | flags v ok started lookahead first => exact h.keep rfl fun _ => id
  | count idx block f =>
    obtain ⟨counts, hcounts⟩ := setCount_eq c s idx block f
    rw [hcounts]
    exact h.slot rfl rfl id
  | pending idx hidx hempty =>
    refine h.slot rfl rfl fun hdone => ?_
    rw [hempty] at hdone
    cases hdone
  | buffer idx alloc hidx hopen =>
    refine h.slot ?_ (slotBuf_slots alloc s idx) id
    simp only [slotBuf, pieceBufGet]
    split
    · rfl
    · split
      · rfl
      · split
        · rfl
        · rfl
  | block idx offset data b hidx hopen hbuf _ _ hblk =>
    refine h.slot ?_ (storeBlock_slots c s data b hidx hblk) fun hdone => absurd hdone hopen.1
    obtain ⟨counts, hcounts⟩ := setCount_eq c ({ s with
      heap := Function.update s.heap b (copyIn (s.heap b) offset data) }.setSlot idx
      (fun sl => sl.stored (offset / blockSize))) idx (offset / blockSize) (fun _ => 0)
    simp only [storeBlock, clearAllBlockRequests, hcounts]
    rfl
  | reset idx hidx => exact h.resetPiece single hidx
  | skipped idx hidx hstate => exact h.markDoneUnhashed idx false
  | readable idx hidx hstate hvalid => exact h.markDoneUnhashed idx true
  | written idx io st hidx hstate _ hwrite =>
    have hst : Frontier c { s with store := st } := h.keep rfl fun _ => id
    exact ((hst.markPieceDone idx _).setPool _).setBuf idx none
  | refused idx io st hidx _ hwrite =>
    have hst : Frontier c { s with store := st } := h.keep rfl fun _ => id
    exact hst.resetPiece single hidx

theorem Frontier.applied (single : NoRepeat c) (h : Frontier c s) {job : HashJob}
    {report : Option (Nat × Int)} (sound : JobSound c job) (applied : Applied c s job s' report) :
    Frontier c s' := by
  cases applied with
  | stale _ => exact h.setPool job.buf
  | mismatch _ _ => exact (h.setBuf job.idx job.buf).resetPiece single sound.1
  | refused io st _ _ hwrite =>
    have hst : Frontier c { s with store := st } := h.keep rfl fun _ => id
    exact (hst.setBuf job.idx job.buf).resetPiece single sound.1
  | written io st hstate _ hwrite =>
    have hst : Frontier c { s with store := st } := h.keep rfl fun _ => id
    exact (hst.markPieceDone job.idx _).setPool job.buf

theorem Frontier.transition (single : NoRepeat c) {m m' : Machine} {act : Act}
    {log events : List Event} (h : Frontier c m.mgr) (buffers : BuffersOwned c m)
    (ring : RingInv c m log) (t : Transition c m act m' events) : Frontier c m'.mgr := by
  cases t with
  | call call env hpc =>
    obtain ⟨hedits, _⟩ := start_edits c m.mgr env call
    exact hedits.induction (P := Frontier c) (fun _ _ hold hedit => hold.edit single hedit) h
  | drained flushing _ _ => exact h
  | pop next _ _ _ => exact h.keep rfl fun _ => id
  | awaited _ _ => exact h
  | push idx plen hpc =>
    obtain ⟨_, _, _, ⟨_, hpending, _, _⟩⟩ := buffers.pushing hpc
    refine h.slot rfl rfl fun hdone => ?_
    rw [hpending] at hdone
    cases hdone
  | apply io job next hpc =>
    have hheld := ring.held job (by rw [hpc]; rfl)
    exact h.applied single hheld.1 (hashApply_applied c io m.mgr job)
  | take _ _ => exact h
  | hash entry idx buf plen _ => exact h
  | publish entry idx buf plen ok _ => exact h.keep rfl fun _ => id

end Order

theorem frontier_create (c : Config) (hashOk : Bool) (heap : Nat → Nat → UInt8) (store : Store) :
    Frontier c (create c hashOk heap store) :=
  ⟨Nat.zero_le _, fun n hn => absurd hn (Nat.not_lt_zero n)⟩

/-- What holds of the two threads and the cursor in every state of a run. -/
structure CursorSound (c : Config) (m : Machine) (log : List Event) : Prop where
  buffers : BuffersOwned c m
  ring : RingInv c m log
  frontier : Frontier c m.mgr

theorem run_frontier {c : Config} (single : NoRepeat c) {hashOk : Bool}
    {heap : Nat → Nat → UInt8} {store : Store} {acts : List Act} {m : Machine} {log : List Event}
    (h : run c (initial c hashOk heap store) acts = some (m, log)) : Frontier c m.mgr := by
  have init : CursorSound c (initial c hashOk heap store) [] :=
    ⟨buffersOwned_initial c hashOk heap store, ringInv_initial c hashOk heap store,
      frontier_create c hashOk heap store⟩
  have key : CursorSound c m log := by
    refine run_induction (CursorSound c) (fun _ => True) ?_ [] h (fun _ _ => trivial) init
    intro m log act m' events hold _ hstep
    have ht := step_transition hstep
    exact ⟨hold.buffers.transition ht, hold.ring.transition hold.buffers ht,
      hold.frontier.transition single hold.buffers hold.ring ht⟩
  exact key.frontier

/-- The first piece of the order that is of the torrent and not done. -/
def firstOpen (c : Config) (s : Mgr) : Option Nat :=
  ((List.range (orderCount c)).map (orderPieceAt c)).find?
    (fun i => decide (i < c.mi.numPieces ∧ (s.slots i).state ≠ .done))

/-- What strict-mode `piece_mgr_pick` would return with the cursor at position 0. -/
def pickFromStart (c : Config) (s : Mgr) (allowed : Nat → Bool) (peerBf : Nat → UInt8)
    (bfBytes : Nat) : Option Nat :=
  let lookahead := if s.strictLookahead ≠ 0 then s.strictLookahead else strictOrderLookahead
  pickStrict c s allowed peerBf bfBytes lookahead (orderCount c) 0 0 none none

section Scan

variable {c : Config} {s : Mgr}

theorem not_passed_iff {n : Nat} :
    ¬ Passed c s n ↔
      orderPieceAt c n < c.mi.numPieces ∧ (s.slots (orderPieceAt c n)).state ≠ .done := by
  rw [Passed, not_or, Nat.not_le]

theorem headFrom_eq_find (c : Config) (s : Mgr) (fuel n : Nat) (h : n + fuel ≤ orderCount c) :
    headFrom c s fuel n = ((List.range' n fuel).map (orderPieceAt c)).find?
      (fun i => decide (i < c.mi.numPieces ∧ (s.slots i).state ≠ .done)) := by
  induction fuel generalizing n with
  | zero => rfl
  | succ fuel ih =>
    simp only [headFrom, List.range'_succ, List.map_cons, List.find?_cons]
    rw [if_neg (by omega), ih (n + 1) (by omega)]
    split
    · next hopen => simp [hopen]
    · next hpassed => simp [hpassed]

/-- Positions that were passed may be left out at the start of a scan. -/
theorem headFrom_skip {cursor : Nat} (inside : cursor ≤ orderCount c)
    (passed : ∀ n < cursor, Passed c s n) :
    headFrom c s (orderCount c) 0 = headFrom c s (orderCount c - cursor) cursor := by
  induction cursor with
  | zero => rfl
  | succ cursor ih =>
    rw [ih (by omega) fun n hn => passed n (by omega)]
    have hleft : orderCount c - cursor = orderCount c - (cursor + 1) + 1 := by omega
    have hpass := passed cursor (Nat.lt_succ_self cursor)
    simp only [hleft, headFrom]
    rw [if_neg (by omega), if_neg (fun hopen => not_passed_iff.mpr hopen hpass)]

theorem pickStrict_skip {cursor : Nat} (inside : cursor ≤ orderCount c)
    (passed : ∀ n < cursor, Passed c s n) (allowed : Nat → Bool) (peerBf : Nat → UInt8)
    (bfBytes lookahead : Nat) :
    pickStrict c s allowed peerBf bfBytes lookahead (orderCount c) 0 0 none none =
      pickStrict c s allowed peerBf bfBytes lookahead (orderCount c - cursor) cursor 0
      none none := by
  induction cursor with
  | zero => rfl
  | succ cursor ih =>
    rw [ih (by omega) fun n hn => passed n (by omega)]
    have hleft : orderCount c - cursor = orderCount c - (cursor + 1) + 1 := by omega
    have hpass : orderPieceAt c cursor ≥ c.mi.numPieces ∨
        (s.slots (orderPieceAt c cursor)).state = .done := passed cursor (Nat.lt_succ_self cursor)
    simp only [hleft, pickStrict]
    rw [if_neg (by omega), if_pos hpass]

theorem Frontier.headPiece_eq (h : Frontier c s) : headPiece c s = firstOpen c s := by
  rw [headPiece, ← headFrom_skip h.inside h.passed, headFrom_eq_find c s _ 0 (by omega), firstOpen,
    List.range_eq_range']

theorem Frontier.pick_eq (h : Frontier c s) (strict : c.strictOrder = true)
    (allowed : Nat → Bool) (peerBf : Nat → UInt8) (bfBytes : Nat) :
    pick c s allowed peerBf bfBytes = pickFromStart c s allowed peerBf bfBytes := by
  rw [pick, if_pos strict, pickFromStart, pickStrict_skip h.inside h.passed]

theorem firstOpen_eq_none : firstOpen c s = none ↔ ∀ n < orderCount c, Passed c s n := by
  rw [firstOpen, List.find?_eq_none]
  constructor
  · intro h n hn
    by_contra hnot
    have := h (orderPieceAt c n) (List.mem_map.mpr ⟨n, List.mem_range.mpr hn, rfl⟩)
    simp [not_passed_iff.mp hnot] at this
  · intro h i hi
    obtain ⟨n, hn, rfl⟩ := List.mem_map.mp hi
    simpa using fun hin => by_contra fun hstate =>
      not_passed_iff.mpr ⟨hin, hstate⟩ (h n (List.mem_range.mp hn))

end Scan

/-- In every state of every run the cursor stands before everything that is not done, so
starting there finds what starting at position 0 would find. -/
theorem run_cursor_rescan {c : Config} (single : NoRepeat c) {hashOk : Bool}
    {heap : Nat → Nat → UInt8} {store : Store} {acts : List Act} {m : Machine} {log : List Event}
    (h : run c (initial c hashOk heap store) acts = some (m, log)) :
    (∀ n < m.mgr.orderCursor, Passed c m.mgr n) ∧
    headPiece c m.mgr = firstOpen c m.mgr ∧
    (headPiece c m.mgr = none ↔ ∀ n < orderCount c, Passed c m.mgr n) ∧
    (c.strictOrder = true → ∀ (allowed : Nat → Bool) (peerBf : Nat → UInt8) (bfBytes : Nat),
      pick c m.mgr allowed peerBf bfBytes = pickFromStart c m.mgr allowed peerBf bfBytes) := by
  have hfront := run_frontier single h
  refine ⟨hfront.passed, hfront.headPiece_eq, ?_, hfront.pick_eq⟩
  rw [hfront.headPiece_eq]
  exact firstOpen_eq_none

/-- An order with an entry that is no piece and without piece 1. -/
def gappedConfig : Config := ⟨threePieces, fun _ => zeroDigest, true, [7, 0, 2]⟩

/-- Piece 0 is taken on trust and found wrong: the cursor goes to piece 2 and back. -/
def trustThenReset : List Act :=
  [.call (.presetHave (some (fun _ => 128)) 1) willing, .call (.verifyPiece 0) willing]

theorem run_cursor_rescan_gapped : ∃ m log,
    run gappedConfig (initial gappedConfig true (fun _ _ => 7) threeStore) trustThenReset =
      some (m, log) ∧ m.mgr.orderCursor = 1 ∧ headPiece gappedConfig m.mgr = some 0 ∧
      ∀ peerBf bfBytes, pick gappedConfig m.mgr (fun _ => true) peerBf bfBytes =
        pickFromStart gappedConfig m.mgr (fun _ => true) peerBf bfBytes := by
  have hrun : (run gappedConfig (initial gappedConfig true (fun _ _ => 7) threeStore)
      trustThenReset).map (fun r => (r.1.mgr.orderCursor, headPiece gappedConfig r.1.mgr)) =
        some (1, some 0) := by decide +kernel
  obtain ⟨⟨m, log⟩, hsome, hat⟩ := Option.map_eq_some_iff.mp hrun
  obtain ⟨hcursor, hhead⟩ := Prod.mk.inj hat
  have single : NoRepeat gappedConfig := by
    rw [NoRepeat]
    decide
  obtain ⟨-, -, -, hpick⟩ := run_cursor_rescan single hsome
  exact ⟨m, log, hsome, hcursor, hhead, hpick rfl (fun _ => true)⟩

end PieceManager
