import Pipensx.Sha1

/-!
# SHA-1 as FIPS 180-4 has it

The rounds of `sha1_transform` rename the registers where the standard moves their values, and they
keep sixteen words of the schedule. The buffer and the counter hold what is left of the message
and its length, whatever chunks it comes in.
-/

namespace Sha1

open BlockHash (blocks rest absorb memcpy memcpy_length memcpy_take memcpy_full absorb_short
  absorb_block absorb_append
  rest_short rest_block rest_append rest_length rotl ch parity maj blockWord bigWord
  bigEndian pad padding shifted_byte)

namespace Standard

def f (t : Nat) : UInt32 → UInt32 → UInt32 → UInt32 :=
  if t < 20 then ch else if t < 40 then parity else if t < 60 then maj else parity

def K (t : Nat) : UInt32 :=
  if t < 20 then 0x5A827999 else if t < 40 then 0x6ED9EBA1 else if t <
    60 then 0x8F1BBCDC else 0xCA62C1D6

/-- The message schedule of a block. -/
def W (block : List UInt8) (t : Nat) : UInt32 :=
  if t < 16 then blockWord block t
  else rotl (W block (t - 3) ^^^ W block (t - 8) ^^^ W block (t - 14) ^^^ W block (t - 16)) 1

/-- One round on the working variables. -/
def step (block : List UInt8) (s : Five) (t : Nat) : Five :=
  ⟨rotl s.a 5 + f t s.b s.c s.d + s.e + K t + W block t, s.a, rotl s.b 30, s.c, s.d⟩

def compress (H : Five) (block : List UInt8) : Five :=
  let s := (List.range 80).foldl (step block) H
  ⟨s.a + H.a, s.b + H.b, s.c + H.c, s.d + H.d, s.e + H.e⟩

def initial : Five := ⟨0x67452301, 0xEFCDAB89, 0x98BADCFE, 0x10325476, 0xC3D2E1F0⟩

def hash (m : List UInt8) : List UInt8 :=
  let H := absorb compress 64 initial (pad m)
  [H.a, H.b, H.c, H.d, H.e].flatMap fun word => bigEndian 4 word.toNat

end Standard

open Standard (W)

section Words

theorem choose_eq (w x y : UInt32) : (w &&& (x ^^^ y)) ^^^ y = ch w x y := by
  rw [ch, ← UInt32.toBitVec_inj]
  simp only [UInt32.toBitVec_xor, UInt32.toBitVec_and, UInt32.toBitVec_not]
  ext i hi
  simp only [BitVec.getElem_xor, BitVec.getElem_and, BitVec.getElem_not]
  cases w.toBitVec[i] <;> cases x.toBitVec[i] <;> cases y.toBitVec[i] <;> rfl

theorem majority_eq (w x y : UInt32) : ((w ||| x) &&& y) ||| (w &&& x) = maj w x y := by
  rw [maj, ← UInt32.toBitVec_inj]
  simp only [UInt32.toBitVec_xor, UInt32.toBitVec_and, UInt32.toBitVec_or]
  ext i hi
  simp only [BitVec.getElem_xor, BitVec.getElem_and, BitVec.getElem_or]
  cases w.toBitVec[i] <;> cases x.toBitVec[i] <;> cases y.toBitVec[i] <;> rfl

/-- `BLK0` reverses the bytes of a word. -/
theorem swap_eq (b0 b1 b2 b3 : UInt8) (word : UInt32)
    (hword : word = (b0.toUInt32 ||| b1.toUInt32 <<< 8 ||| b2.toUInt32 <<< 16 |||
    b3.toUInt32 <<< 24)) : ((rol word 24 &&& 0xFF00FF00) ||| (rol word 8 &&& 0x00FF00FF) : UInt32) =
      b0.toUInt32 <<< 24 ||| b1.toUInt32 <<< 16 ||| b2.toUInt32 <<< 8 ||| b3.toUInt32 := by
  subst hword
  rw [rol, rol, ← UInt32.toBitVec_inj]
  ext i hi
  interval_cases i <;> simp

end Words

def Reg.next : Reg → Reg
  | .a => .b
  | .b => .c
  | .c => .d
  | .d => .e
  | .e => .a

def Reg.prev : Reg → Reg
  | .a => .e
  | .b => .a
  | .c => .b
  | .d => .c
  | .e => .d

/-- The register that has the role of `a` in a round. -/
def first : Nat → Reg
  | 0 => .a
  | t + 1 => (first t).prev

/-- The macro of a round. -/
def macroAt (t : Nat) : Reg → Reg → Reg → Reg → Reg → Nat → Work → Work :=
  if t < 16 then R0 else if t < 20 then R1 else if t < 40 then R2 else if t < 60 then R3 else R4

def roundAt (t : Nat) : Work → Work :=
  macroAt t (first t) (first t).next (first t).next.next (first t).next.next.next (first t).prev t

theorem rounds_eq : rounds = (List.range 80).map roundAt := rfl

/-- The registers hold the working variables, and the block holds the last words of the schedule
in front of those it still has to read. -/
structure Sim (block : List UInt8) (t : Nat) (s : Work) (vars : Five) : Prop where
  a : s.regs (first t) = vars.a
  b : s.regs (first t).next = vars.b
  c : s.regs (first t).next.next = vars.c
  d : s.regs (first t).next.next.next = vars.d
  e : s.regs (first t).prev = vars.e
  schedule : ∀ u, u < t → t ≤ u + 16 → s.blk (u % 16) = W block u
  unread : ∀ j, t ≤ j → j < 16 → s.blk j = blkWord block j

section Rounds

variable {block : List UInt8} {t : Nat} {s : Work} {vars : Five}

theorem W_first (h : t < 16) : W block t = blockWord block t := by
  rw [W, if_pos h]

theorem W_later (h : ¬ t < 16) :
    W block t = rotl
      (W block (t - 3) ^^^ W block (t - 8) ^^^ W block (t - 14) ^^^ W block (t - 16)) 1 := by
  rw [W, if_neg h]

theorem Sim.blk0 (sim : Sim block t s vars) (h : t < 16) : blk0 s.blk t = (W block t, t % 16) := by
  rw [Sha1.blk0, W_first h, sim.unread t (Nat.le_refl t) h, Nat.mod_eq_of_lt h,
    swap_eq _ _ _ _ (blkWord block t) rfl, blockWord, bigWord]

theorem Sim.blk (sim : Sim block t s vars) (h : ¬ t < 16) : blk s.blk t = (W block t, t % 16) := by
  have hand : ∀ n : Nat, n &&& 15 = n % 16 := fun n => Nat.and_two_pow_sub_one_eq_mod n 4
  have hread : ∀ k u, u + 16 = t + k → k < 16 → s.blk ((t + k) % 16) = W block u := by
    intro k u hu hk
    rw [← sim.schedule u (by omega) (by omega), ← hu, Nat.add_mod_right]
  have hlast : s.blk (t % 16) = W block (t - 16) := hread 0 (t - 16) (by omega) (by decide)
  rw [Sha1.blk, hand, hand, hand, hand, hread 13 (t - 3) (by omega) (by decide),
    hread 8 (t - 8) (by omega) (by decide),
    hread 2 (t - 14) (by omega) (by decide), hlast, W_later h]
  rfl

/-- A round writes two registers, and the roles turn by one. -/
theorem regs_turn (regs : Reg → UInt32) (r : Reg) (T U : UInt32) :
    let regs' := Function.update (Function.update regs r.prev T) r.next U
    regs' r.prev = T ∧ regs' r.prev.next = regs r ∧ regs' r.prev.next.next = U ∧
      regs' r.prev.next.next.next = regs r.next.next ∧ regs' r.prev.prev =
        regs r.next.next.next := by
  cases r <;> simp [Reg.next, Reg.prev]

/-- One round, whatever its macro. -/
theorem Sim.round (sim : Sim block t s vars) {f : UInt32 → UInt32 → UInt32 → UInt32}
    {fetch : (Nat → UInt32) → Nat → UInt32 × Nat} {k : UInt32}
    (hf : ∀ w x y, f w x y = Standard.f t w x y)
    (hk : k = Standard.K t) (hfetch : fetch s.blk t = (W block t, t % 16)) :
    Sim block (t + 1)
      (round f fetch k (first t) (first t).next (first t).next.next (first t).next.next.next
      (first t).prev t s) (Standard.step block vars t) := by
  have hsum : ∀ e g w k r : UInt32, e + (g + w + k + r) = r + g + e + k + w := by
    intro e g w k r
    ac_rfl
  have hkept : ∀ T, Function.update s.regs (first t).prev T (first t).next =
    s.regs (first t).next :=
    fun T => Function.update_of_ne (by cases first t <;> simp [Reg.next, Reg.prev]) _ _
  rw [Sha1.round, hfetch]
  simp only [hkept, sim.a, sim.b, sim.c, sim.d, sim.e, hf, hk, hsum]
  obtain ⟨ha, hb, hc, hd, he⟩ := regs_turn s.regs (first t)
    (rol vars.a 5 + Standard.f t vars.b vars.c vars.d + vars.e + Standard.K t + W block t)
    (rol vars.b 30)
  refine ⟨ha, hb.trans sim.a, hc, hd.trans sim.c, he.trans sim.d, fun u hu hnear =>
    ?_, fun j hj hlast => ?_⟩
  · by_cases hut : u = t
    · rw [hut]
      exact Function.update_self _ _ _
    · have hplace : u % 16 ≠ t % 16 := by omega
      exact (Function.update_of_ne hplace _ _).trans (sim.schedule u (by omega) (by omega))
  · have hplace : j ≠ t % 16 := by omega
    exact (Function.update_of_ne hplace _ _).trans (sim.unread j (by omega) hlast)

theorem Sim.roundAt (sim : Sim block t s vars) (h : t < 80) :
    Sim block (t + 1) (roundAt t s) (Standard.step block vars t) := by
  rw [Sha1.roundAt, macroAt]
  split_ifs with h16 h20 h40 h60
  · exact sim.round (fun w x y => by rw [choose_eq, Standard.f, if_pos (by omega)])
      (by rw [Standard.K, if_pos (by omega)]) (sim.blk0 h16)
  · exact sim.round (fun w x y => by rw [choose_eq, Standard.f, if_pos h20])
      (by rw [Standard.K, if_pos h20]) (sim.blk h16)
  · exact sim.round (fun w x y => by rw [Standard.f, if_neg h20, if_pos h40]; rfl)
      (by rw [Standard.K, if_neg h20, if_pos h40]) (sim.blk h16)
  · exact sim.round (fun w x y => by rw [majority_eq, Standard.f, if_neg h20,
      if_neg h40, if_pos h60])
      (by rw [Standard.K, if_neg h20, if_neg h40, if_pos h60]) (sim.blk h16)
  · exact sim.round (fun w x y => by rw [Standard.f, if_neg h20, if_neg h40, if_neg h60]; rfl)
      (by rw [Standard.K, if_neg h20, if_neg h40, if_neg h60]) (sim.blk h16)

theorem sim_rounds (state : Five) (n : Nat) (h : n ≤ 80) :
    Sim block n (((List.range n).map Sha1.roundAt).foldl (fun s r => r s)
      ⟨state.regs, blkWord block⟩) ((List.range n).foldl (Standard.step block) state) := by
  induction n with
  | zero =>
    exact ⟨rfl, rfl, rfl, rfl, rfl, fun u hu => absurd hu (Nat.not_lt_zero u), fun _ _ _ => rfl⟩
  | succ n ih =>
    rw [List.range_succ, List.map_append, List.foldl_append, List.foldl_append]
    exact (ih (by omega)).roundAt (by omega)

/-- The transform is the compression function of the standard. -/
theorem transform_standard (state : Five) (block : List UInt8) :
    sha1Transform state block = Standard.compress state block := by
  have hsim := @sim_rounds block state 80 (Nat.le_refl 80)
  rw [sha1Transform, Standard.compress, rounds_eq]
  simp only [Five.mk.injEq]
  refine ⟨?_, ?_, ?_, ?_, ?_⟩
  · rw [UInt32.add_comm, ← hsim.a]
    rfl
  · rw [UInt32.add_comm, ← hsim.b]
    rfl
  · rw [UInt32.add_comm, ← hsim.c]
    rfl
  · rw [UInt32.add_comm, ← hsim.d]
    rfl
  · rw [UInt32.add_comm, ← hsim.e]
    rfl

end Rounds

/-- The context has taken in a message. -/
structure Holds (m : List UInt8) (ctx : Sha1Ctx) : Prop where
  state : ctx.state = absorb Standard.compress 64 Standard.initial m
  buf : ctx.buf.take (m.length % 64) = rest 64 m
  size : ctx.buf.length = 64
  count : ctx.count0.toNat + 2 ^ 32 * ctx.count1.toNat = 8 * m.length % 2 ^ 64

section Context

variable {m data : List UInt8} {ctx : Sha1Ctx}

theorem holds_init (h : ctx.buf.length = 64) : Holds [] (sha1Init ctx) := by
  refine ⟨?_, ?_, h, rfl⟩
  · rw [absorb_short _ _ (by decide)]
    rfl
  · rw [rest_short (by decide)]
    rfl

/-- The lowest bits of the counter are the place in the buffer. -/
theorem Holds.place (h : Holds m ctx) : ((ctx.count0 >>> 3) &&& 63).toNat = m.length % 64 := by
  have hcount := h.count
  have hand : ((ctx.count0 >>> 3) &&& 63).toNat = ctx.count0.toNat / 8 % 64 := by
    rw [UInt32.toNat_and, UInt32.toNat_shiftRight]
    exact (Nat.and_two_pow_sub_one_eq_mod _ 6).trans (by rw [Nat.shiftRight_eq_div_pow]; rfl)
  rw [hand]
  omega

/-- The sum of two words carries where it is smaller than what was added. -/
theorem count_update (h : Holds m ctx) (data : List UInt8) :
    (sha1Update ctx data).count0.toNat + 2 ^ 32 * (sha1Update ctx data).count1.toNat =
      8 * (m ++ data).length % 2 ^ 64 := by
  have hcount := h.count
  have hcount1 : (sha1Update ctx data).count1 =
      (if ctx.count0 + UInt32.ofNat data.length <<< 3 < UInt32.ofNat data.length <<< 3 then
        ctx.count1 + 1
        else ctx.count1) + UInt32.ofNat (data.length >>> 29) := by
    rw [sha1Update]
    split <;> rfl
  have hadded : (UInt32.ofNat data.length <<< 3).toNat = data.length * 8 % 2 ^ 32 := by
    rw [UInt32.toNat_shiftLeft, UInt32.toNat_ofNat', Nat.shiftLeft_eq, show UInt32.toNat 3 %
      32 = 3 from rfl]
    omega
  have hhigh : (UInt32.ofNat (data.length >>> 29)).toNat = data.length / 2 ^ 29 % 2 ^ 32 := by
    rw [UInt32.toNat_ofNat', Nat.shiftRight_eq_div_pow]
  have hlt0 := ctx.count0.toNat_lt
  have hlt1 := ctx.count1.toNat_lt
  rw [hcount1, update_count0, List.length_append]
  by_cases hcarry : ctx.count0 + UInt32.ofNat data.length <<< 3 < UInt32.ofNat data.length <<< 3
  · rw [if_pos hcarry]
    rw [UInt32.lt_iff_toNat_lt, UInt32.toNat_add, hadded] at hcarry
    rw [UInt32.toNat_add, UInt32.toNat_add, UInt32.toNat_add, hadded, hhigh, UInt32.toNat_one]
    omega
  · rw [if_neg hcarry]
    rw [UInt32.lt_iff_toNat_lt, UInt32.toNat_add, hadded] at hcarry
    rw [UInt32.toNat_add, UInt32.toNat_add, hadded, hhigh]
    omega

/-- The loop takes the whole blocks and stops in front of what is left. -/
theorem blockLoop_spec (data : List UInt8) (state : Five) (i : Nat) :
    (blockLoop data state i).1 = absorb Standard.compress 64 state (data.drop i) ∧
      data.drop (blockLoop data state i).2 = rest 64 (data.drop i) := by
  induction state, i using blockLoop.induct data with
  | case1 state i h ih =>
    have hblock : data.drop i = (data.drop i).take 64 ++ data.drop (i + 64) := by
      rw [← List.drop_drop, List.take_append_drop]
    have hlength : ((data.drop i).take 64).length = 64 := by
      rw [List.length_take, List.length_drop]
      omega
    rw [blockLoop, if_pos h, hblock, absorb_block _ _ (by decide) hlength,
      rest_block (by decide) hlength, ← transform_standard, ← hblock]
    exact ih
  | case2 state i h =>
    have hshort : (data.drop i).length < 64 := by
      rw [List.length_drop]
      omega
    rw [blockLoop, if_neg h, absorb_short _ _ hshort, rest_short hshort]
    exact ⟨rfl, rfl⟩

/-- A chunk goes into the buffer and the state, of whatever length it is. -/
theorem Holds.update (h : Holds m ctx) (data : List UInt8) :
    Holds (m ++ data) (sha1Update ctx data) := by
  have hcount := count_update h data
  have hrest : (rest 64 m).length = m.length % 64 := rest_length (by decide) m
  have hsize := h.size
  rw [sha1Update] at hcount ⊢
  simp only [h.place] at hcount ⊢
  split at hcount
  · next hlong =>
    rw [if_pos hlong]
    have hfill : (data.take (64 - m.length % 64)).length = 64 - m.length % 64 := by
      rw [List.length_take]
      omega
    have hblock : memcpy ctx.buf (m.length % 64) (data.take (64 - m.length % 64)) =
        rest 64 m ++ data.take (64 - m.length % 64) := by
      rw [memcpy_full (by omega), h.buf]
    have hlength : (rest 64 m ++ data.take (64 - m.length % 64)).length = 64 := by
      rw [List.length_append, hrest]
      omega
    have hsplit : rest 64 m ++ data =
        (rest 64 m ++ data.take (64 - m.length % 64)) ++ data.drop (64 - m.length % 64) := by
      rw [List.append_assoc, List.take_append_drop]
    obtain ⟨hstate, hleft⟩ := blockLoop_spec data
      (sha1Transform ctx.state (rest 64 m ++ data.take (64 - m.length % 64))) (64 - m.length % 64)
    have hleftover : rest 64 (m ++ data) = rest 64 (data.drop (64 - m.length % 64)) := by
      rw [rest_append, hsplit, rest_block (by decide) hlength]
    have hshort : (rest 64 (data.drop (64 - m.length % 64))).length = (m ++ data).length % 64 := by
      rw [← hleftover]
      exact rest_length (by decide) (m ++ data)
    have hmod := Nat.mod_lt (m ++ data).length (by decide : 0 < 64)
    rw [hblock, hleft]
    refine ⟨?_, ?_, ?_, hcount⟩
    · rw [hstate, transform_standard, h.state, absorb_append, hsplit,
        absorb_block _ _ (by decide) hlength]
    · rw [hleftover, ← hshort]
      have htake := @memcpy_take _ (rest 64 m ++ data.take (64 - m.length % 64))
        (rest 64 (data.drop (64 - m.length % 64))) 0 (Nat.zero_le _)
      rwa [Nat.zero_add, List.take_zero, List.nil_append] at htake
    · rw [memcpy_length (by omega), hlength]
  · next hshort =>
    rw [if_neg hshort]
    have hfit : (rest 64 m ++ data).length < 64 := by
      rw [List.length_append]
      omega
    have hplace : (m ++ data).length % 64 = m.length % 64 + data.length := by
      rw [List.length_append]
      omega
    refine ⟨?_, ?_, ?_, hcount⟩
    · rw [h.state, absorb_append, absorb_short _ _ hfit]
    · rw [hplace, memcpy_take (by omega), h.buf, rest_append, rest_short hfit]
    · rw [memcpy_length (by omega), hsize]

theorem holds_chunks (h : ctx.buf.length = 64) (chunks : List (List UInt8)) :
    Holds chunks.flatten (chunks.foldl sha1Update (sha1Init ctx)) :=
  BlockHash.foldl_chunks Holds.update chunks (holds_init h)

/-- The zeros go in until eight bytes are missing. -/
theorem Holds.padLoop (h : Holds m ctx) :
    Holds (m ++ List.replicate ((120 - m.length % 64) % 64) 0) (padLoop ctx) := by
  induction ctx using padLoop.induct generalizing m with
  | case1 ctx hfull =>
    have hcount := h.count
    have hbits := toNat_and_504 ctx.count0
    rw [hfull, show UInt32.toNat 448 = 448 from rfl] at hbits
    rw [Sha1.padLoop, if_pos hfull, show (120 - m.length % 64) % 64 =
      0 by omega, List.replicate_zero, List.append_nil]
    exact h
  | case2 ctx hopen ih =>
    have hcount := h.count
    have hbits := toNat_and_504 ctx.count0
    have hne : (ctx.count0 &&& 504).toNat ≠ 448 := fun heq => hopen (UInt32.toNat_inj.mp heq)
    have hnext := ih (h.update [0])
    rw [Sha1.padLoop, if_neg hopen]
    have hzeros : (120 - m.length % 64) % 64 = (120 - (m ++ [0]).length % 64) % 64 + 1 := by
      rw [List.length_append, List.length_singleton]
      omega
    rw [hzeros, List.replicate_succ, ← List.singleton_append, ← List.append_assoc]
    exact hnext

theorem byteAt_eq (word : UInt32) (i : Nat) :
    byteAt word i = UInt8.ofNat (word.toNat >>> (8 * (3 - i % 4))) := by
  have hand : i &&& 3 = i % 4 := Nat.and_two_pow_sub_one_eq_mod i 2
  have hshift : (UInt32.ofNat ((3 - i % 4) * 8)).toNat = 8 * (3 - i % 4) := by
    rw [UInt32.toNat_ofNat']
    omega
  rw [byteAt, hand, shifted_byte _ _ (by omega), hshift]

/-- The counter is the number of bits. -/
theorem Holds.finalcount (h : Holds m ctx) :
    ((List.range 8).map fun i => byteAt (if i ≥ 4 then ctx.count0 else ctx.count1) i) =
      bigEndian 8 (8 * m.length) := by
  have hcount := h.count
  have hlt0 := ctx.count0.toNat_lt
  have hlt1 := ctx.count1.toNat_lt
  refine List.map_congr_left fun i hi => ?_
  have hlt := List.mem_range.mp hi
  rw [byteAt_eq]
  refine UInt8.toNat_inj.mp ?_
  simp only [UInt8.toNat_ofNat', Nat.shiftRight_eq_div_pow]
  interval_cases i <;> simp only [ge_iff_le, Nat.reduceLeDiff, if_true, if_false, Nat.reduceMod,
    Nat.reduceSub, Nat.reduceMul, Nat.reducePow] <;> omega

theorem digest_eq (state : Five) :
    ((List.range 20).map fun i => byteAt (state.word (i >>> 2)) i) =
      [state.a, state.b, state.c, state.d, state.e].flatMap fun word => bigEndian 4 word.toNat := by
  simp only [byteAt_eq]
  rfl

/-- The digest of what the context has taken in. -/
theorem Holds.final (h : Holds m ctx) : sha1Final ctx = Standard.hash m := by
  have hpadded := ((h.update [0x80]).padLoop).update (bigEndian 8 (8 * m.length))
  have hzeros : BlockHash.zeros m.length = (120 - (m ++ [0x80]).length % 64) % 64 := by
    rw [BlockHash.zeros_iff, List.length_append, List.length_singleton]
    omega
  have hpad : (m ++ [0x80]) ++ List.replicate (BlockHash.zeros m.length) 0 ++
    bigEndian 8 (8 * m.length) = pad m := by
    rw [pad, padding]
    simp
  rw [← hzeros, hpad] at hpadded
  rw [sha1Final, h.finalcount, digest_eq, hpadded.state, Standard.hash]

end Context

/-- The digest of a message is that of the standard, in whatever chunks the message comes. -/
theorem sha1_standard (ctx : Sha1Ctx) (hbuf : ctx.buf.length = 64) (chunks : List (List UInt8)) :
    sha1Final (chunks.foldl sha1Update (sha1Init ctx)) = Standard.hash chunks.flatten :=
  (holds_chunks hbuf chunks).final

/-- The message abc in three chunks, one of them empty, with a context of zeros. -/
theorem sha1_standard_abc :
    sha1Final ([[97], [], [98, 99]].foldl sha1Update
      (sha1Init ⟨⟨0, 0, 0, 0, 0⟩, 0, 0, List.replicate 64 0⟩)) = Standard.hash [97, 98, 99] :=
  sha1_standard ⟨⟨0, 0, 0, 0, 0⟩, 0, 0, List.replicate 64 0⟩ List.length_replicate
    [[97], [], [98, 99]]

theorem sha1_whole (ctx : Sha1Ctx) (hbuf : ctx.buf.length = 64) (data : List UInt8) :
    sha1 ctx data = Standard.hash data :=
  ((holds_init hbuf).update data).final

end Sha1
