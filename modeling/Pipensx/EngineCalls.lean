import Pipensx.EngineRuns

/-!
# The calls of the piece manager behind a step

A step of the engine calls the piece manager a number of times. The calls that can apply
hash results, write or read back a piece are listed here in the order they are made, each
with the state both threads are in before it and everything they do until it returns.
-/

namespace TorrentEngine

open PieceManager PeerRequests PieceGeometry

/-- A call, from the state it is made in. -/
structure Made where
  machine : Machine
  acts : List Act

/-- The calls of the loop of `torrent_submit_web_piece` from `block` on. -/
def submitCalls (c : Config) (piece : Nat) (data : List UInt8) (calls : Nat → Calling) :
    Nat → Nat → Torrent → List Made
  | 0, _, _ => []
  | fuel + 1, block, t =>
    let off := block * blockSize
    if off ≥ data.length then []
    else if hasBlock c t.mgr piece block then submitCalls c piece data calls fuel (block + 1) t
    else
      let bytes := (data.drop off).take blockSize
      let call := .gotBlock piece off (some bytes)
      ⟨t.machine, .call call (calls block).env :: (calls block).acts⟩ ::
        match callPieces c t call (calls block) with
        | none => []
        | some (t1, result) =>
          if result < 0 then []
          else submitCalls c piece data calls fuel (block + 1)
            { t1 with downloaded := t1.downloaded + bytes.length }

/-- The calls of a step. -/
def stepCalls (u : Setup) (t : Torrent) : Action → List Made
  | .drainHashResults k => [⟨t.machine, .call .drainHashResults k.env :: k.acts⟩]
  | .hashFlush k => [⟨t.machine, .call .hashFlush k.env :: k.acts⟩]
  | .startupVerify alloc =>
    if t.startupVerifyIndex < u.pieces.mi.numPieces then
      [⟨t.machine, [.call (.checkExisting t.startupVerifyIndex) (envOf alloc)]⟩]
    else []
  | .checkCompletion alloc flushed =>
    if t.mgr.numDone ≠ u.pieces.mi.numPieces ∨ t.startupVerifiedAll = true ∨
        (t.finalVerifying = false ∧ flushed = false) then []
    else if t.begun.finalVerifyIndex < u.pieces.mi.numPieces then
      [⟨t.machine, [.call (.verifyPiece t.begun.finalVerifyIndex) (envOf alloc)]⟩]
    else []
  | .submitWebPiece piece data alloc calls _ =>
    if piece ≥ u.pieces.mi.numPieces ∨ ByteBits.msbHas t.mgr.haveBf piece = true ∨
        (data.length : Int) ≠ pieceLen u.pieces.mi piece % 2 ^ 32 then []
    else submitCalls u.pieces piece data calls (data.length / blockSize + 1) 0
      (t.setMgr (markPending u.pieces alloc t.mgr piece))
  | .message slot now k _ =>
    match t.peers slot with
    | none => []
    | some p =>
      match (processMessage u.pieces.mi.numPieces now p).2 with
      | .block idx off data => [⟨t.machine, .call (.gotBlock idx off (some data)) k.env :: k.acts⟩]
      | _ => []
  | _ => []

/-- The calls listed hash what they mark done, and come after others that do. -/
structure Made.Hashing (c : Config) (m : Machine) (made : Made) : Prop where
  reached : Reached c m made.machine
  hashing : ∀ act ∈ made.acts, act.Hashing

section Calls

variable {u : Setup} {t t' : Torrent}

theorem callPieces_hashing {c : Config} {call : Call} {k : Calling} {result : Int}
    (hashing : (Act.call call k.env).Hashing) (h : callPieces c t call k = some (t', result)) :
    ∀ act ∈ Act.call call k.env :: k.acts, act.Hashing := by
  obtain ⟨hinner, _⟩ := callPieces_run h
  intro act hact
  rcases List.mem_cons.mp hact with rfl | hrest
  · exact hashing
  · exact hashing_of_inner (hinner act hrest)

theorem submitCalls_hashing {c : Config} {piece : Nat} {data : List UInt8} {calls : Nat → Calling}
    (fuel block : Nat) {failed : Bool}
    (h : submitBlocks c piece data calls fuel block t = some (t', failed)) :
    ∀ made ∈ submitCalls c piece data calls fuel block t, made.Hashing c t.machine := by
  induction fuel generalizing block t with
  | zero => simp [submitCalls]
  | succ fuel ih =>
    simp only [submitBlocks] at h
    simp only [submitCalls]
    split at h
    · next hend => simp [hend]
    · next hend =>
      rw [if_neg hend]
      split at h
      · next hhas =>
        rw [if_pos hhas]
        exact ih _ h
      · next hhas =>
        rw [if_neg hhas]
        cases hcall : callPieces c t (.gotBlock piece (block * blockSize)
            (some ((data.drop (block * blockSize)).take blockSize))) (calls block) with
        | none =>
          rw [hcall] at h
          cases h
        | some called =>
          obtain ⟨t1, result⟩ := called
          rw [hcall] at h
          dsimp only at h
          have hfirst : Made.Hashing c t.machine
              ⟨t.machine, .call (.gotBlock piece (block * blockSize)
              (some ((data.drop (block * blockSize)).take blockSize))) (calls block).env ::
              (calls block).acts⟩ := ⟨Reached.refl _, callPieces_hashing ⟨rfl, rfl⟩ hcall⟩
          intro made hmade
          rcases List.mem_cons.mp hmade with rfl | hlater
          · exact hfirst
          · split at h
            · next hfailed => simp [hfailed] at hlater
            · next hfailed =>
              simp only [hfailed, if_false] at hlater
              obtain ⟨hreached, hashing⟩ := ih _ h made hlater
              have hcalled : Reached c t.machine t1.machine := Reached.callPieces ⟨rfl, rfl⟩ hcall
              exact ⟨hcalled.trans hreached, hashing⟩

/-- Every call of a step but those of the startup check. -/
theorem stepCalls_hashing {action : Action} (other : ∀ alloc, action ≠ .startupVerify alloc)
    (h : step u t action = some t') :
    ∀ made ∈ stepCalls u t action, made.Hashing u.pieces t.machine := by
  cases action with
  | startupVerify alloc => exact absurd rfl (other alloc)
  | drainHashResults k =>
    obtain ⟨⟨t1, result⟩, hcall, _⟩ := Option.map_eq_some_iff.mp h
    intro made hmade
    rw [List.mem_singleton.mp hmade]
    exact ⟨Reached.refl _, callPieces_hashing ⟨rfl, rfl⟩ hcall⟩
  | hashFlush k =>
    obtain ⟨⟨t1, result⟩, hcall, _⟩ := Option.map_eq_some_iff.mp h
    intro made hmade
    rw [List.mem_singleton.mp hmade]
    exact ⟨Reached.refl _, callPieces_hashing ⟨rfl, rfl⟩ hcall⟩
  | checkCompletion alloc flushed =>
    intro made hmade
    simp only [stepCalls] at hmade
    split at hmade
    · cases hmade
    · split at hmade
      · rw [List.mem_singleton.mp hmade]
        refine ⟨Reached.refl _, ?_⟩
        intro act hact
        rw [List.mem_singleton.mp hact]
        exact ⟨rfl, rfl⟩
      · cases hmade
  | submitWebPiece piece data alloc calls now =>
    simp only [step, submitWebPiece] at h
    simp only [stepCalls]
    split at h
    · next hrefused =>
      rw [if_pos hrefused]
      intro made hmade
      cases hmade
    · next hrefused =>
      rw [if_neg hrefused]
      split at h
      · cases h
      · next t1 failed hblocks =>
        intro made hmade
        obtain ⟨hreached, hashing⟩ := submitCalls_hashing _ _ hblocks made hmade
        have hpending : Reached u.pieces t.machine
            (t.setMgr (markPending u.pieces alloc t.mgr piece)).machine :=
          Reached.call (.markPending piece) (envOf alloc) ⟨rfl, rfl⟩ rfl rfl
        exact ⟨hpending.trans hreached, hashing⟩
  | message slot now k nets =>
    simp only [step] at h
    split at h
    · simp only [receiveMessage] at h
      intro made hmade
      simp only [stepCalls] at hmade
      split at hmade
      · cases hmade
      · next p hpeer =>
        rw [hpeer] at h
        split at hmade
        · next idx off data hblock =>
          simp only [hblock] at h
          split at h
          · cases h
          · rw [cbBlock_eq, Option.map_eq_some_iff] at h
            obtain ⟨⟨t1, result⟩, hcall, _⟩ := h
            rw [List.mem_singleton.mp hmade]
            exact ⟨Reached.refl _, callPieces_hashing ⟨rfl, rfl⟩ hcall⟩
        · cases hmade
    · cases h
  | _ =>
    intro made hmade
    cases hmade

end Calls

end TorrentEngine
