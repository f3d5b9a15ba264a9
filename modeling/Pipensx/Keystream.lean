import Mathlib.Data.List.Basic

/-!
# Stream ciphers

A keystream generator is a state with a step that yields one byte. Encryption adds
the keystream to the data byte by byte, so that cutting the data into chunks makes no
difference as long as the state is carried from one chunk to the next.
-/

namespace Keystream

universe u
variable {σ : Type u} (step : σ → σ × UInt8)

def crypt : σ → List UInt8 → List UInt8 × σ
  | st, [] => ([], st)
  | st, b :: rest =>
    let r := step st
    let tail := crypt r.1 rest
    ((b ^^^ r.2) :: tail.1, tail.2)

/-- The state after `n` keystream bytes. -/
def advance (st : σ) : Nat → σ
  | 0 => st
  | n + 1 => advance (step st).1 n

@[simp] theorem crypt_length (st : σ) (data : List UInt8) :
    (crypt step st data).1.length = data.length := by
  induction data generalizing st with
  | nil => rfl
  | cons b rest ih => simp [crypt, ih]

theorem crypt_state (st : σ) (data : List UInt8) :
    (crypt step st data).2 = advance step st data.length := by
  induction data generalizing st with
  | nil => rfl
  | cons b rest ih => simp [crypt, advance, ih]

theorem crypt_append (st : σ) (a b : List UInt8) :
    crypt step st (a ++ b) =
      ((crypt step st a).1 ++ (crypt step (crypt step st a).2 b).1,
        (crypt step (crypt step st a).2 b).2) := by
  induction a generalizing st with
  | nil => rfl
  | cons x a ih => simp [crypt, ih]

/-- Encrypting twice with the same stream gives the data back. -/
theorem crypt_crypt (st : σ) (data : List UInt8) :
    crypt step st (crypt step st data).1 = (data, (crypt step st data).2) := by
  induction data generalizing st with
  | nil => rfl
  | cons b rest ih =>
    have htwice : b ^^^ (step st).2 ^^^ (step st).2 = b := by
      rw [UInt8.xor_assoc, UInt8.xor_self, UInt8.xor_zero]
    simp [crypt, ih, htwice]

theorem advance_add (st : σ) (m n : Nat) :
    advance step (advance step st m) n = advance step st (m + n) := by
  induction m generalizing st with
  | zero => simp [advance]
  | succ m ih =>
    rw [show m + 1 + n = m + n + 1 by omega]
    exact ih (step st).1

end Keystream
