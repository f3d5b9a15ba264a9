import Pipensx.DhtMessages

/-!
# What the parser reads

`parse_message` stays inside the datagram and its terminator, its loops end, and what it fills into
the arrays of a message fits.
-/

namespace Dht

open CText

/-- A step that stays inside, with a result of which `P` holds. -/
def Step.Safe {α : Type} (s : Step α) (P : α → Prop) : Prop :=
  match s with
  | .outside => False
  | .overflow => True
  | .next a => P a

theorem Step.Safe.bind {α β : Type} {s : Step α} {f : α → Step β} {P : α → Prop} {Q : β → Prop}
    (h : s.Safe P) (hf : ∀ a, P a → (f a).Safe Q) : (s.bind f).Safe Q := by
  cases s with
  | outside => exact h.elim
  | overflow => trivial
  | next a => exact hf a h

variable {buf : List UInt8} {i p q : Nat}

theorem byteAt_safe (h : i ≤ buf.length) :
    (byteAt buf i).Safe fun c => (buf ++ [0])[i]? = some c := by
  unfold byteAt
  cases hb : (buf ++ [0])[i]? with
  | none =>
    rw [List.getElem?_eq_none_iff, List.length_append] at hb
    simp only [List.length_singleton] at hb
    omega
  | some c => rfl

theorem take_safe {len off size : Nat} (h : off + len ≤ size) :
    (take buf p len off size).Safe fun bytes => bytes.length = len := by
  unfold take
  split
  · trivial
  next hin =>
  split
  · next hout =>
    rw [List.length_append, List.length_singleton] at hout
    omega
  · simp only [Step.Safe, List.length_take, List.length_drop]
    omega

theorem memmem_le {key : List UInt8} (h : memmem buf key = some p) : p + key.length ≤ buf.length :=
  Occurrence.find_le h

/-- Behind the number there is still the terminator. -/
theorem strtolAt_le (h : i ≤ buf.length) :
    i ≤ (strtolAt buf i).2 ∧ (strtolAt buf i).2 ≤ buf.length := by
  have hkeep : ∀ (f : UInt8 → Bool) (xs : List UInt8), f 0 = false →
      ∃ ys, (xs ++ [0]).dropWhile f = ys ++ [0] := by
    intro f xs hf
    induction xs with
    | nil => exact ⟨[], by simp [hf]⟩
    | cons x xs ih =>
      rw [List.cons_append, List.dropWhile_cons]
      split
      · exact ih
      · exact ⟨x :: xs, rfl⟩
  have hsuffix := (List.dropWhile_suffix isDigit).trans
    ((skipSign_suffix (((buf ++ [0]).drop i).dropWhile isSpace)).trans
      (List.dropWhile_suffix isSpace))
  have hpos : 0 < ((skipSign (((buf ++ [0]).drop i).dropWhile isSpace)).dropWhile
    isDigit).length := by
    rw [List.drop_append_of_le_length h]
    obtain ⟨ys, hys⟩ := hkeep isSpace (buf.drop i) (by decide)
    rw [hys]
    have hsign : ∃ zs, skipSign (ys ++ [0]) = zs ++ [0] := by
      cases ys with
      | nil => exact ⟨[], by decide⟩
      | cons y ys =>
        rw [List.cons_append, skipSign]
        split
        · exact ⟨ys, rfl⟩
        · exact ⟨y :: ys, rfl⟩
    obtain ⟨zs, hzs⟩ := hsign
    rw [hzs]
    obtain ⟨us, hus⟩ := hkeep isDigit zs (by decide)
    simp [hus]
  have hlength := hsuffix.length_le
  rw [List.length_drop, List.length_append, List.length_singleton] at hlength
  unfold strtolAt
  cases strtol ((buf ++ [0]).drop i) with
  | none => exact ⟨Nat.le_refl _, h⟩
  | some l =>
    dsimp only
    omega

/-- The bounds of a parsed message. -/
structure Message.Fits (m : Message) : Prop where
  tid : m.tid.length ≤ 15
  token : m.token.length ≤ 127
  nodes : m.nodes.length ≤ 416
  nodes6 : m.nodes6.length ≤ 608
  values : m.values.length ≤ 2048 ∧ m.values.length % 6 = 0
  values6 : m.values6.length ≤ 2048 ∧ m.values6.length % 18 = 0
  want : m.want ≤ 3

theorem idField_safe {key : String} {set : Id → Message → Message} {m : Message} (hm : m.Fits)
    (hset : ∀ id, (set id m).Fits) : (idField buf key set m).Safe Message.Fits := by
  unfold idField
  split
  · exact hm
  · refine (take_safe (by omega)).bind fun bytes hlength => ?_
    rw [dif_pos hlength]
    exact hset _

theorem portField_safe {key : String} {set : UInt16 → Message → Message} {m : Message} (hm : m.Fits)
    (hset : ∀ port, (set port m).Fits) : (portField buf key set m).Safe Message.Fits := by
  unfold portField
  split
  · exact hm
  · next p hp =>
    have hq := strtolAt_le (memmem_le hp)
    generalize strtolAt buf (p + (text key).length) = r at hq ⊢
    obtain ⟨l, q⟩ := r
    refine (byteAt_safe hq.2).bind fun c _ => ?_
    split
    · exact hset _
    · exact hm

theorem bytesField_safe {key : String} {most size : Nat}
    {set : List UInt8 → Message → Message} {m : Message}
    (hsize : most ≤ size) (hm : m.Fits) (hset : ∀ bytes, bytes.length ≤ most → (set bytes m).Fits) :
    (bytesField buf key most size set m).Safe Message.Fits := by
  unfold bytesField
  split
  · exact hm
  · next p hp =>
    have hq := strtolAt_le (memmem_le hp)
    generalize strtolAt buf (p + (text key).length) = r at hq ⊢
    obtain ⟨l, q⟩ := r
    refine (byteAt_safe hq.2).bind fun c _ => ?_
    split
    · refine (take_safe (by omega)).bind fun bytes hlength => hset bytes ?_
      omega
    · exact hm

/-- What the two arrays of `values` hold. -/
def Filled (v : List UInt8 × List UInt8) : Prop :=
  (v.1.length ≤ 2048 ∧ v.1.length % 6 = 0) ∧ v.2.length ≤ 2048 ∧ v.2.length % 18 = 0

theorem valuesLoop_safe (fuel : Nat) (h : i ≤ buf.length) {values values6 : List UInt8}
    (hv : Filled (values, values6)) : (valuesLoop buf fuel i values values6).Safe Filled := by
  induction fuel generalizing i values values6 with
  | zero => exact hv
  | succ fuel ih =>
    have hq := strtolAt_le h
    rw [valuesLoop]
    generalize strtolAt buf i = r at hq ⊢
    obtain ⟨l, q⟩ := r
    refine (byteAt_safe hq.2).bind fun c _ => ?_
    obtain ⟨⟨h1, h2⟩, h3, h4⟩ := hv
    dsimp only at h1 h2 h3 h4
    split
    · dsimp only
      split
      · trivial
      next hin =>
      split
      · split
        · exact ih (by omega) ⟨⟨h1, h2⟩, h3, h4⟩
        · refine (take_safe (by omega)).bind fun bytes hlength => ih (by omega) ⟨⟨?_, ?_⟩, h3, h4⟩
          · simp only [List.length_append]
            omega
          · simp only [List.length_append]
            omega
      split
      · split
        · exact ih (by omega) ⟨⟨h1, h2⟩, h3, h4⟩
        · refine (take_safe (by omega)).bind fun bytes hlength => ih (by omega) ⟨⟨h1, h2⟩, ?_, ?_⟩
          · simp only [List.length_append]
            omega
          · simp only [List.length_append]
            omega
      · exact ih (by omega) ⟨⟨h1, h2⟩, h3, h4⟩
    · exact ⟨⟨h1, h2⟩, h3, h4⟩

theorem wantLoop_safe (fuel : Nat) (h : i ≤ buf.length) {want : Nat} (hw : want ≤ 3) :
    (wantLoop buf fuel i want).Safe fun want => want ≤ 3 := by
  have hor : ∀ {want flag : Nat}, want ≤ 3 → flag ≤ 3 → want ||| flag ≤ 3 := fun hw hflag =>
    Nat.le_of_lt_succ (Nat.or_lt_two_pow (n := 2) (by omega) (by omega))
  induction fuel generalizing i want with
  | zero => exact hw
  | succ fuel ih =>
    rw [wantLoop]
    refine (byteAt_safe h).bind fun c hc => ?_
    split
    · next hdigit =>
      -- a digit is not the terminator
      have hi : i < buf.length := by
        by_contra hge
        rw [show i = buf.length by omega, List.getElem?_concat_length] at hc
        obtain rfl := Option.some.inj hc
        exact absurd hdigit.1 (by decide)
      refine (byteAt_safe (by omega)).bind fun colon _ => ?_
      dsimp only
      split
      · next hgo =>
        split
        · trivial
        · refine ih (by omega) ?_
          split
          · exact hor hw (by decide)
          split
          · exact hor hw (by decide)
          · exact hw
      · exact hw
    · exact hw

theorem fields_safe (buf : List UInt8) : (fields buf).Safe Message.Fits := by
  have hempty : Message.empty.Fits := by constructor <;> decide
  unfold fields
  refine Step.Safe.bind (bytesField_safe (by omega) hempty fun _ h => { hempty with tid := h })
    fun m hm => ?_
  refine Step.Safe.bind (idField_safe hm fun _ => { hm with }) fun m hm => ?_
  refine Step.Safe.bind (idField_safe hm fun _ => { hm with }) fun m hm => ?_
  refine Step.Safe.bind (portField_safe hm fun _ => { hm with }) fun m hm => ?_
  refine Step.Safe.bind (portField_safe hm fun _ => { hm with }) fun m hm => ?_
  refine Step.Safe.bind (idField_safe hm fun _ => { hm with }) fun m hm => ?_
  refine Step.Safe.bind (bytesField_safe (by omega) hm fun _ h => { hm with token := h })
    fun m hm => ?_
  refine Step.Safe.bind (bytesField_safe (by omega) hm fun _ h => { hm with nodes := h })
    fun m hm => ?_
  refine Step.Safe.bind (bytesField_safe (by omega) hm fun _ h => { hm with nodes6 := h })
    fun m hm => ?_
  refine Step.Safe.bind (P := Message.Fits) ?_ fun m hm => ?_
  · unfold valuesField
    split
    · exact hm
    · next p hp =>
      have hle := memmem_le hp
      have hlength : (text "6:valuesl").length = 9 := by decide
      refine (valuesLoop_safe _ (by omega) ⟨by decide, by decide⟩).bind fun v hv => ?_
      exact { hm with values := hv.1, values6 := hv.2 }
  · unfold wantField
    split
    · exact hm
    · next p hp =>
      have hle := memmem_le hp
      have hlength : (text "4:wantl").length = 7 := by decide
      exact (wantLoop_safe _ (by omega) (by decide)).bind fun want hw => { hm with want := hw }

/-- Each string of `values` is behind the one before it, so the fuel of `valuesField` is enough. -/
theorem valuesLoop_ends (k fuel : Nat) (h : i ≤ buf.length) (hfuel : buf.length < fuel + i)
    (values values6 : List UInt8) :
    valuesLoop buf (fuel + k) i values values6 = valuesLoop buf fuel i values values6 := by
  induction fuel generalizing i values values6 with
  | zero => omega
  | succ fuel ih =>
    have hq := strtolAt_le h
    rw [Nat.add_right_comm, valuesLoop, valuesLoop]
    generalize strtolAt buf i = r at hq ⊢
    obtain ⟨l, q⟩ := r
    dsimp only at hq ⊢
    congr 1
    funext c
    split
    · split
      · rfl
      · simp only [ih (i := q + 1 + l.toNat) (by omega) (by omega)]
    · rfl

theorem wantLoop_ends (k fuel : Nat) (h : i ≤ buf.length) (hfuel : buf.length < fuel + i)
    (want : Nat) : wantLoop buf (fuel + k) i want = wantLoop buf fuel i want := by
  induction fuel generalizing i want with
  | zero => omega
  | succ fuel ih =>
    rw [Nat.add_right_comm, wantLoop, wantLoop]
    congr 1
    funext c
    split
    · congr 1
      funext colon
      dsimp only
      split
      · next hgo =>
        split
        · rfl
        · exact ih (by omega) (by omega) _
      · rfl
    · rfl

/-- No datagram makes the parser leave the datagram, its terminator or an array of the message, and
every array is filled with what fits. -/
theorem parseMessage_fits (buf : List UInt8) :
    ∃ kind m, parseMessage buf = .next (kind, m) ∧ m.Fits := by
  have hsafe := fields_safe buf
  unfold parseMessage
  cases hfields : fields buf with
  | outside =>
    rw [hfields] at hsafe
    exact hsafe.elim
  | overflow => exact ⟨none, .empty, rfl, by constructor <;> decide⟩
  | next m =>
    rw [hfields] at hsafe
    exact ⟨kindOf buf, m, rfl, hsafe⟩

end Dht
