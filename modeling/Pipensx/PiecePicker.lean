import Pipensx.PieceManager

/-!
# Choosing the next piece to ask for

`piece_mgr_pick` and `piece_mgr_head_piece`. The application's `request_allowed` callback
is a parameter of each call; a manager without one is given the constant `true`.
-/

namespace PieceManager

open ByteBits

def slotHasRequestableBlock (sl : Slot) : Bool :=
  (List.range sl.numBlocks).any (fun b => !blockIsSet sl b && decide (sl.requestCounts b = 0))

/-- `i / 8 < bf_bytes && bf_has(peer_bf, i)`. -/
def peerHas (peerBf : Nat → UInt8) (bfBytes i : Nat) : Bool :=
  decide (i / 8 < bfBytes) && msbHas peerBf i

section Pick

variable (c : Config) (s : Mgr) (allowed : Nat → Bool) (peerBf : Nat → UInt8) (bfBytes : Nat)

/-- The loop of the strict order from position `n` on, with the number of unfinished
pieces passed and the first pending and the first empty candidate. -/
def pickStrict (lookahead : Nat) : Nat → Nat → Nat → Option Nat → Option Nat → Option Nat
  | 0, _, _, pending, empty => pending.or empty
  | fuel + 1, n, unfinished, pending, empty =>
    if n ≥ orderCount c then pending.or empty
    else
      let i := orderPieceAt c n
      if i ≥ c.mi.numPieces ∨ (s.slots i).state = .done then
        pickStrict lookahead fuel (n + 1) unfinished pending empty
      else if allowed i = false ∨ unfinished ≥ lookahead then pending.or empty
      else if peerHas peerBf bfBytes i = false then
        pickStrict lookahead fuel (n + 1) (unfinished + 1) pending empty
      else if (s.slots i).state = .pending ∧ slotHasRequestableBlock (s.slots i) = true ∧
          pending = none then
        if s.strictFillPendingFirst then some i
        else pickStrict lookahead fuel (n + 1) (unfinished + 1) (some i) empty
      else if (s.slots i).state = .empty ∧ empty = none then
        if s.strictFillPendingFirst = false then some i
        else pickStrict lookahead fuel (n + 1) (unfinished + 1) pending (some i)
      else pickStrict lookahead fuel (n + 1) (unfinished + 1) pending empty

/-- The test of the two passes of the sequential order, apart from the state. -/
def wanted (i : Nat) : Bool :=
  allowed i && !msbHas s.haveBf i && peerHas peerBf bfBytes i

def pick : Option Nat :=
  if c.strictOrder then
    let lookahead := if s.strictLookahead ≠ 0 then s.strictLookahead else strictOrderLookahead
    pickStrict c s allowed peerBf bfBytes lookahead (orderCount c - s.orderCursor) s.orderCursor 0
      none none
  else
    ((List.range c.mi.numPieces).find? (fun i =>
        decide ((s.slots i).state = .empty) && wanted s allowed peerBf bfBytes i)).or
      ((List.range c.mi.numPieces).find? (fun i =>
        decide ((s.slots i).state ≠ .done ∧ (s.slots i).state ≠ .hashing) &&
          wanted s allowed peerBf bfBytes i))

def headFrom : Nat → Nat → Option Nat
  | 0, _ => none
  | fuel + 1, n =>
    if n ≥ orderCount c then none
    else
      let i := orderPieceAt c n
      if i < c.mi.numPieces ∧ (s.slots i).state ≠ .done then some i else headFrom fuel (n + 1)

def headPiece : Option Nat := headFrom c s (orderCount c - s.orderCursor) s.orderCursor

end Pick

/-- A piece of the torrent that still takes blocks. -/
def Requestable (c : Config) (s : Mgr) (i : Nat) : Prop :=
  i < c.mi.numPieces ∧ (s.slots i).state ≠ .done ∧ (s.slots i).state ≠ .hashing

theorem pickStrict_requestable {c : Config} {s : Mgr} {allowed : Nat → Bool} {peerBf : Nat → UInt8}
    {bfBytes lookahead fuel n unfinished : Nat} {pending empty : Option Nat}
    (hpending : ∀ i, pending = some i → Requestable c s i)
    (hempty : ∀ i, empty = some i → Requestable c s i) {i : Nat}
    (h : pickStrict c s allowed peerBf bfBytes lookahead fuel n unfinished pending empty = some i) :
    Requestable c s i := by
  have stop : ∀ i, pending.or empty = some i → Requestable c s i := by
    intro i hi
    rcases Option.or_eq_some_iff.mp hi with hp | ⟨_, he⟩
    · exact hpending i hp
    · exact hempty i he
  induction fuel generalizing n unfinished pending empty with
  | zero => exact stop i h
  | succ fuel ih =>
    simp only [pickStrict] at h
    split at h
    · exact stop i h
    · split at h
      · exact ih hpending hempty h stop
      · next hin =>
        have hlt : orderPieceAt c n < c.mi.numPieces := by
          by_contra hge
          exact hin (Or.inl (by omega))
        have picked (hreq : Requestable c s (orderPieceAt c n)) :
            ∀ j, some (orderPieceAt c n) = some j → Requestable c s j := by
          rintro j ⟨⟩
          exact hreq
        split at h
        · exact stop i h
        · split at h
          · exact ih hpending hempty h stop
          · split at h
            · next hcand =>
              have hsome := picked ⟨hlt, by rw [hcand.1]; decide, by rw [hcand.1]; decide⟩
              split at h
              · exact hsome i h
              · exact ih hsome hempty h (fun j hj => hsome j hj)
            · split at h
              · next hcand =>
                have hsome := picked ⟨hlt, by rw [hcand.1]; decide, by rw [hcand.1]; decide⟩
                split at h
                · exact hsome i h
                · refine ih hpending hsome h ?_
                  intro j hj
                  rcases Option.or_eq_some_iff.mp hj with hp | ⟨_, he⟩
                  · exact hpending j hp
                  · exact hsome j he
              · exact ih hpending hempty h stop

/-- What is picked still takes blocks. -/
theorem pick_requestable {c : Config} {s : Mgr} {allowed : Nat → Bool} {peerBf : Nat → UInt8}
    {bfBytes i : Nat} (h : pick c s allowed peerBf bfBytes = some i) : Requestable c s i := by
  simp only [pick] at h
  split at h
  · exact pickStrict_requestable (by simp) (by simp) h
  · rcases Option.or_eq_some_iff.mp h with hfirst | ⟨_, hsecond⟩
    · have hmem := List.mem_range.mp (List.mem_of_find?_eq_some hfirst)
      have hstate := List.find?_some hfirst
      simp only [Bool.and_eq_true, decide_eq_true_iff] at hstate
      exact ⟨hmem, by rw [hstate.1]; decide, by rw [hstate.1]; decide⟩
    · have hmem := List.mem_range.mp (List.mem_of_find?_eq_some hsecond)
      have hstate := List.find?_some hsecond
      simp only [Bool.and_eq_true, decide_eq_true_iff] at hstate
      exact ⟨hmem, hstate.1⟩

theorem headPiece_lt {c : Config} {s : Mgr} {i : Nat} (h : headPiece c s = some i) :
    i < c.mi.numPieces := by
  have loop : ∀ fuel n, headFrom c s fuel n = some i → i < c.mi.numPieces := by
    intro fuel
    induction fuel with
    | zero => intro n hn; cases hn
    | succ fuel ih =>
      intro n hn
      simp only [headFrom] at hn
      split at hn
      · cases hn
      · split at hn
        · next hin =>
          cases hn
          exact hin.1
        · exact ih _ hn
  exact loop _ _ h

end PieceManager
