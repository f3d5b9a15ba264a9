import Pipensx.StorageFlat

/-!
# Storage refines an array

The purpose of the storage module, stated on its own: one array of bytes, of which only
the positions in disk files are kept. Writes and reads are calls on that array, and every
sequence of successful calls of `storage_write` and `storage_read` is one of it.
-/

namespace StorageArray

open Storage

/-- `disk` are the positions that are kept; the others take writes and forget them. -/
structure FlatArray where
  total : Int
  disk : Int → Bool
  byte : Int → UInt8

def FlatArray.Inside (a : FlatArray) (offset : Int) (len : Nat) : Prop :=
  0 ≤ offset ∧ offset + len ≤ a.total

instance (a : FlatArray) (offset : Int) (len : Nat) : Decidable (a.Inside offset len) :=
  inferInstanceAs (Decidable (_ ∧ _))

/-- The range lies within the array and touches kept positions only. -/
def FlatArray.Kept (a : FlatArray) (offset : Int) (len : Nat) : Prop :=
  a.Inside offset len ∧ ∀ k < len, a.disk (offset + k) = true

instance (a : FlatArray) (offset : Int) (len : Nat) : Decidable (a.Kept offset len) :=
  inferInstanceAs (Decidable (_ ∧ _))

/-- The byte a write has for a position, if the position is in its range. -/
def dataAt (offset : Int) (data : List UInt8) (x : Int) : Option UInt8 :=
  if offset ≤ x then data[(x - offset).toNat]? else none

def FlatArray.write (a : FlatArray) (offset : Int) (data : List UInt8) : Option FlatArray :=
  if a.Inside offset data.length then
    let byte x := if a.disk x then (dataAt offset data x).getD (a.byte x) else a.byte x
    some { a with byte := byte }
  else none

def FlatArray.read (a : FlatArray) (offset : Int) (len : Nat) : Option (List UInt8) :=
  if a.Kept offset len then some ((List.range len).map (fun k : Nat => a.byte (offset + k)))
  else none

/-- A call, with what the system and the sinks answer during it. -/
inductive Call where
  | write (io : Faults) (offset : Int) (data : List UInt8)
  | read (offset : Int) (len : Nat)

/-- `0 < len < 2^31`. -/
def Call.Sized : Call → Prop
  | .write _ _ data => 0 < data.length ∧ data.length < 2 ^ 31
  | .read _ len => 0 < len ∧ len < 2 ^ 31

/-- The calls in turn, and what the reads return; `none` as soon as one does not succeed. -/
def FlatArray.run (a : FlatArray) : List Call → Option (FlatArray × List (List UInt8))
  | [] => some (a, [])
  | .write _ offset data :: calls =>
    match a.write offset data with
    | none => none
    | some a' => a'.run calls
  | .read offset len :: calls =>
    match a.read offset len with
    | none => none
    | some bytes => (a.run calls).map (fun r => (r.1, bytes :: r.2))

/-- The byte most recently written to a position. -/
def lastWritten : List Call → Int → Option UInt8
  | [], _ => none
  | .write _ offset data :: calls, x => (lastWritten calls x).or (dataAt offset data x)
  | .read _ _ :: calls, x => lastWritten calls x

theorem dataAt_inside {offset : Int} {data : List UInt8} {k : Nat} :
    dataAt offset data (offset + k) = data[k]? := by
  have hindex : (offset + (k : Int) - offset).toNat = k := by omega
  simp only [dataAt, hindex]
  rw [if_pos (by omega)]

theorem dataAt_outside {offset : Int} {data : List UInt8} {x : Int}
    (out : x < offset ∨ offset + data.length ≤ x) : dataAt offset data x = none := by
  simp only [dataAt]
  split
  · exact List.getElem?_eq_none (by omega)
  · rfl

/-- A kept position holds the byte written last, or its first one. -/
theorem FlatArray.run_byte {a a' : FlatArray} {calls : List Call} {outs : List (List UInt8)}
    (h : a.run calls = some (a', outs)) {x : Int} (kept : a.disk x = true) :
    a'.byte x = (lastWritten calls x).getD (a.byte x) := by
  induction calls generalizing a outs with
  | nil =>
    cases h
    simp [lastWritten]
  | cons call calls ih =>
    cases call with
    | write io offset data =>
      simp only [FlatArray.run, FlatArray.write] at h
      by_cases hin : a.Inside offset data.length
      · simp only [hin, if_true] at h
        have hbyte := ih h kept
        simp only [kept, if_true] at hbyte
        rw [hbyte, lastWritten, Option.getD_or]
      · simp only [hin, if_false] at h
        cases h
    | read offset len =>
      simp only [FlatArray.run] at h
      cases hread : a.read offset len with
      | none =>
        rw [hread] at h
        cases h
      | some bytes =>
        simp only [hread, Option.map_eq_some_iff, Prod.mk.injEq] at h
        obtain ⟨⟨a'', outs'⟩, hrun, rfl, _⟩ := h
        exact ih hrun kept

def totalLength (s : Store) : Int := (s.files.map FileHandle.length).sum

/-- Every disk file is open and has at least its declared length. -/
def Filled (s : Store) : Prop :=
  ∀ (i : Nat) (fh : FileHandle), s.files[i]? = some fh → fh.mode = .disk →
    ∃ bytes, fh.fp = some bytes ∧ fh.length ≤ bytes.length

/-- Every file handed to a sink has one. -/
def SinksSet (s : Store) : Prop :=
  ∀ (i : Nat) (fh : FileHandle), s.files[i]? = some fh → fh.mode = .sink → fh.hasSink = true

/-- The array a store stands for. -/
def arrayOf (s : Store) : FlatArray where
  total := totalLength s
  disk x := decide (s.modeAt x = some .disk)
  byte x := (s.byteAt x).getD 0

/-- The calls on a store in turn, as long as they succeed. -/
def run (s : Store) : List Call → Option (Store × List (List UInt8))
  | [] => some (s, [])
  | .write io offset data :: calls =>
    match storageWrite io s offset data with
    | .error _ => none
    | .ok s' => run s' calls
  | .read offset len :: calls =>
    if (storageRead s offset len).1 = len then
      (run s calls).map (fun r => (r.1, (storageRead s offset len).2 :: r.2))
    else none

section Mapping

variable {s : Store} (laid : Laid s.files)

include laid

theorem findFile_ne_none_iff {x : Int} :
    findFile s.files x ≠ none ↔ 0 ≤ x ∧ x < totalLength s := by
  have hnn : ∀ l ∈ s.files.map FileHandle.length, 0 ≤ l := by
    intro l hl
    obtain ⟨fh, hfh, rfl⟩ := List.mem_map.mp hl
    obtain ⟨k, hk⟩ := List.mem_iff_getElem?.mp hfh
    exact laid.nonneg k fh hk
  have hend : ∀ i fh, s.files[i]? = some fh →
      fh.offset + fh.length = PrefixLayout.start (s.files.map FileHandle.length) (i + 1) := by
    intro i fh hget
    obtain ⟨hi, hfi⟩ := List.getElem?_eq_some_iff.mp hget
    rw [PrefixLayout.start_succ _ _ (by simpa using hi), laid.offset i fh hget]
    simp [hfi]
  constructor
  · intro hne
    obtain ⟨⟨i, fh, localOff⟩, hfind⟩ := Option.ne_none_iff_exists'.mp hne
    obtain ⟨hget, hlo, hhi, _⟩ := findFile_some hfind
    have hi := (List.getElem?_eq_some_iff.mp hget).1
    have hzero := PrefixLayout.start_mono hnn (Nat.zero_le i)
    have hlast := PrefixLayout.start_mono hnn
      (show i + 1 ≤ (s.files.map FileHandle.length).length by simpa using hi)
    rw [PrefixLayout.start_length] at hlast
    rw [PrefixLayout.start_zero] at hzero
    rw [laid.offset i fh hget] at hlo
    rw [hend i fh hget] at hhi
    simp only [totalLength]
    omega
  · rintro ⟨hlo, hhi⟩
    obtain ⟨i, hi, hstart, hstop⟩ := PrefixLayout.exists_owner hlo hhi
    have hlen : i < s.files.length := by simpa using hi
    have hget : s.files[i]? = some s.files[i] := List.getElem?_eq_getElem hlen
    rw [← hend i _ hget] at hstop
    rw [← laid.offset i _ hget] at hstart
    rw [findFile_of_owner laid hget hstart hstop]
    simp

theorem range_unmapped_iff {offset : Int} {len : Nat} (pos : 0 < len) :
    (∃ k, k < len ∧ findFile s.files (offset + k) = none) ↔ ¬ (arrayOf s).Inside offset len := by
  constructor
  · rintro ⟨k, hk, hnone⟩ ⟨hlo, hhi⟩
    simp only [arrayOf] at hhi
    exact (findFile_ne_none_iff laid).mpr ⟨by omega, by omega⟩ hnone
  · intro hout
    by_cases hfirst : findFile s.files (offset + (0 : Nat)) = none
    · exact ⟨0, pos, hfirst⟩
    · refine ⟨len - 1, by omega, ?_⟩
      have hlo := ((findFile_ne_none_iff laid).mp hfirst).1
      by_contra hlast
      have hhi := ((findFile_ne_none_iff laid).mp hlast).2
      apply hout
      simp only [FlatArray.Inside, arrayOf]
      omega

end Mapping

/-- A kept position has a byte, and only a kept one. -/
theorem byteAt_isSome_iff {s : Store} (filled : Filled s) {x : Int} :
    (s.byteAt x).isSome = true ↔ s.modeAt x = some .disk := by
  constructor
  · intro hsome
    obtain ⟨b, hb⟩ := Option.isSome_iff_exists.mp hsome
    exact modeAt_of_byteAt hb
  · intro hmode
    cases hfind : findFile s.files x with
    | none => simp [Store.modeAt, hfind] at hmode
    | some r =>
      obtain ⟨i, fh, localOff⟩ := r
      obtain ⟨hget, hlo, hhi, rfl⟩ := findFile_some hfind
      have hdisk : fh.mode = .disk := by simpa [Store.modeAt, hfind] using hmode
      obtain ⟨bytes, hfp, hlen⟩ := filled i fh hget hdisk
      simp only [Store.byteAt, hfind, hdisk, if_true, hfp, Option.bind_some]
      rw [List.getElem?_eq_getElem (by omega)]
      rfl

theorem storageRead_ret {s : Store} (laid : Laid s.files) (filled : Filled s) (offset : Int)
    {len : Nat} (pos : 0 < len) :
    (storageRead s offset len).1 = len ↔ (arrayOf s).Kept offset len := by
  constructor
  · intro hret
    rcases storageRead_spec laid offset len with ⟨_, hlen, hbytes⟩ | ⟨hminus, _⟩
    · have hmode : ∀ k < len, s.modeAt (offset + (k : Int)) = some .disk := by
        intro k hk
        rw [← byteAt_isSome_iff filled, hbytes k hk, List.getElem?_eq_getElem (by omega)]
        rfl
      constructor
      · by_contra hout
        obtain ⟨k, hk, hnone⟩ := (range_unmapped_iff laid pos).mpr hout
        have hdisk := hmode k hk
        simp [Store.modeAt, hnone] at hdisk
      · intro k hk
        simpa [arrayOf] using hmode k hk
    · omega
  · rintro ⟨_, hdisk⟩
    rcases storageRead_spec laid offset len with ⟨hret, _⟩ | ⟨_, k, hk, hnone⟩
    · exact hret
    · have hsome := (byteAt_isSome_iff filled (x := offset + k)).mpr
        (by simpa [arrayOf] using hdisk k hk)
      rw [hnone] at hsome
      cases hsome

theorem storageRead_array {s : Store} (laid : Laid s.files) (filled : Filled s) {offset : Int}
    {len : Nat} (pos : 0 < len) (hret : (storageRead s offset len).1 = len) :
    (arrayOf s).read offset len = some (storageRead s offset len).2 := by
  have hkept := (storageRead_ret laid filled offset pos).mp hret
  rw [FlatArray.read, if_pos hkept]
  rcases storageRead_spec laid offset len with ⟨_, hlen, hbytes⟩ | ⟨hminus, _⟩
  · congr 1
    apply List.ext_getElem (by simp [hlen])
    intro k hk hk'
    have hbyte := hbytes k (by omega)
    rw [List.getElem?_eq_getElem hk'] at hbyte
    simp [arrayOf, hbyte]
  · omega

theorem filled_ready {s : Store} (filled : Filled s) (sinks : SinksSet s) : s.Ready := by
  intro i fh hget
  refine ⟨?_, sinks i fh hget⟩
  intro hdisk
  obtain ⟨bytes, hfp, _⟩ := filled i fh hget hdisk
  rw [hfp]
  simp

theorem overwrite_length (bytes : List UInt8) (pos : Nat) (data : List UInt8) :
    bytes.length ≤ (overwrite bytes pos data).length := by
  simp only [overwrite]
  split
  · exact Nat.le_refl _
  · simp only [List.length_append, List.length_take, List.length_drop, List.length_replicate]
    omega

theorem filled_setContent {s : Store} (filled : Filled s) {i : Nat} {fh : FileHandle}
    (hget : s.files[i]? = some fh) {bytes : List UInt8} (long : fh.length ≤ bytes.length) :
    Filled (s.setContent i bytes) := by
  intro j fh' hget' hdisk
  simp only [Store.setContent, List.getElem?_modify] at hget'
  by_cases hij : i = j
  · subst hij
    simp only [hget, if_true] at hget'
    cases hget'
    exact ⟨bytes, rfl, long⟩
  · cases hfile : s.files[j]? with
    | none => simp [hfile] at hget'
    | some g =>
      simp only [hfile, hij, if_false] at hget'
      cases hget'
      exact filled j g hfile hdisk

theorem writeSegment_filled (io : Faults) {s : Store} (filled : Filled s) {i : Nat}
    {fh : FileHandle} (hget : s.files[i]? = some fh) (localOff : Nat) (src : List UInt8) :
    Ends Filled Filled (writeSegment io s i fh localOff src) := by
  simp only [writeSegment]
  cases hmode : fh.mode with
  | skip => exact filled
  | sink =>
    simp only
    split
    · exact filled
    · split
      · exact filled
      · split <;> exact filled
  | disk =>
    obtain ⟨bytes, hfp, hlen⟩ := filled i fh hget hmode
    simp only [hfp]
    split
    · exact filled
    · have hlong := overwrite_length bytes localOff (src.take (min (io i).wrote src.length))
      have hfilled := filled_setContent filled hget
        (show fh.length ≤ ((overwrite bytes localOff
          (src.take (min (io i).wrote src.length))).length : Int) by omega)
      split <;> exact hfilled

theorem storageWrite_filled (io : Faults) {s : Store} (filled : Filled s) (offset : Int)
    (data : List UInt8) : Ends Filled Filled (storageWrite io s offset data) := by
  refine walk_rule (fun s' _ => Filled s') Filled (fun _ _ inv _ _ => inv) ?_ data.length s 0 filled
    (by omega) (by omega)
  intro s' done i fh localOff count inv _ hfind _
  exact writeSegment_filled io inv (findFile_some hfind).1 localOff.toNat _

/-- A write that succeeds is the write of the array; files stay as long as they have to be. -/
theorem storageWrite_array {io : Faults} {s s' : Store} (laid : Laid s.files) (filled : Filled s)
    {offset : Int} {data : List UInt8} (inside : (arrayOf s).Inside offset data.length)
    (h : storageWrite io s offset data = .ok s') :
    (arrayOf s).write offset data = some (arrayOf s') := by
  have hspec := storageWrite_spec io laid offset data
  have hfilled := storageWrite_filled io filled offset data
  rw [h] at hspec hfilled
  obtain ⟨⟨hshape, hframe⟩, hdata⟩ := hspec
  have htotal : totalLength s' = totalLength s := by simp only [totalLength, hshape.lengths]
  rw [FlatArray.write, if_pos inside]
  simp only [arrayOf, htotal, hshape.modeAt laid, Option.some.injEq, FlatArray.mk.injEq, true_and]
  funext x
  by_cases hdisk : s.modeAt x = some .disk
  · simp only [hdisk, decide_true, if_true]
    by_cases hin : offset ≤ x ∧ x < offset + data.length
    · have hx : x = offset + ((x - offset).toNat : Int) := by omega
      rw [hx] at hdisk ⊢
      rw [dataAt_inside, hdata _ (by omega) hdisk, List.getElem?_eq_getElem (by omega)]
      rfl
    · rw [dataAt_outside (by omega)]
      obtain ⟨b, hb⟩ := Option.isSome_iff_exists.mp ((byteAt_isSome_iff filled).mpr hdisk)
      rw [hframe x b (by omega) hb, hb]
      rfl
  · have hnone : s.byteAt x = none := by
      rw [← Option.not_isSome_iff_eq_none, byteAt_isSome_iff filled]
      exact hdisk
    have hnone' : s'.byteAt x = none := by
      rw [← Option.not_isSome_iff_eq_none, byteAt_isSome_iff hfilled, hshape.modeAt laid]
      exact hdisk
    simp only [hdisk, decide_false, Bool.false_eq_true, if_false, hnone, hnone']

/-- A write gets through only when every position of its range lies in a file. -/
theorem storageWrite_mapped {io : Faults} {s s' : Store} (laid : Laid s.files) {offset : Int}
    {data : List UInt8} (h : storageWrite io s offset data = .ok s') {k : Nat}
    (hk : k < data.length) : findFile s.files (offset + k) ≠ none := by
  have hwalk : Ends (fun s' => SameShape s s' ∧
        ∀ k < data.length, findFile s.files (offset + (k : Int)) ≠ none)
      (fun _ => True) (storageWrite io s offset data) := by
    refine walk_rule (fun s' done => SameShape s s' ∧
        ∀ k < done, findFile s.files (offset + (k : Int)) ≠ none)
      (fun _ => True) (fun _ _ _ _ _ => trivial) ?_ data.length s 0
      ⟨SameShape.refl s, by intro k hk; omega⟩ (by omega) (by omega)
    intro t done i fh localOff count inv hlt hfind hcount
    have hlaid := inv.1.laid laid
    have hlen : ((data.drop done).take count).length = count := by
      simp only [List.length_take, List.length_drop]
      omega
    have hseg := writeSegment_spec io hlaid hfind ((data.drop done).take count) (by omega)
    cases hvisit : writeSegment io t i fh localOff.toNat ((data.drop done).take count) with
    | error u => trivial
    | ok u =>
      rw [hvisit] at hseg
      refine ⟨inv.1.trans hseg.1.shape, ?_⟩
      intro k hk
      by_cases hold : k < done
      · exact inv.2 k hold
      · have hpos : offset + (k : Int) = offset + (done : Int) + ((k - done : Nat) : Int) := by
          omega
        have hfound := findFile_add hlaid hfind (show k - done < _ by omega)
        obtain ⟨_, hback, _⟩ := inv.1.symm.findFile hlaid hfound
        rw [hpos, hback]
        simp
  rw [h] at hwalk
  exact hwalk.2 k hk

/-- With every sink and file willing, a write fails iff its range leaves the array. -/
theorem storageWrite_fails_iff {io : Faults} {s : Store} (laid : Laid s.files) (filled : Filled s)
    (sinks : SinksSet s) {offset : Int} {data : List UInt8} (pos : 0 < data.length)
    (willing : Willing io data.length) :
    (∃ s', storageWrite io s offset data = .error s') ↔
      ¬ (arrayOf s).Inside offset data.length := by
  have hready := storageWrite_ready io laid (filled_ready filled sinks) offset data
  rw [← range_unmapped_iff laid pos]
  cases hwrite : storageWrite io s offset data with
  | ok s' =>
    constructor
    · rintro ⟨_, herror⟩
      cases herror
    · rintro ⟨k, hk, hnone⟩
      exact absurd hnone (storageWrite_mapped laid hwrite hk)
  | error s' =>
    rw [hwrite] at hready
    constructor
    · intro _
      exact hready.2.2.resolve_left (fun hunwilling => hunwilling willing)
    · intro _
      exact ⟨s', rfl⟩

/-- No byte outside the range is another one. -/
def SameOutside (offset : Int) (len : Nat) (s s' : Store) : Prop :=
  ∀ x, x < offset ∨ offset + len ≤ x → s'.byteAt x = s.byteAt x

theorem sameOutside_of_wrote {offset : Int} {len : Nat} {s s' : Store} (laid : Laid s.files)
    (filled : Filled s) (filled' : Filled s') (h : WroteWithin offset len s s') :
    SameOutside offset len s s' := by
  intro x out
  cases hbyte : s.byteAt x with
  | some b => exact h.frame x b out hbyte
  | none =>
    rw [← Option.not_isSome_iff_eq_none, byteAt_isSome_iff filled']
    rw [← Option.not_isSome_iff_eq_none, byteAt_isSome_iff filled] at hbyte
    rwa [h.shape.modeAt laid]

/-- Also a write that fails half way stays inside its range. -/
theorem storageWrite_sameOutside (io : Faults) {s : Store} (laid : Laid s.files) (filled : Filled s)
    (offset : Int) (data : List UInt8) :
    Ends (SameOutside offset data.length s) (SameOutside offset data.length s)
      (storageWrite io s offset data) := by
  have hspec := storageWrite_spec io laid offset data
  have hfilled := storageWrite_filled io filled offset data
  cases hwrite : storageWrite io s offset data with
  | ok s' =>
    rw [hwrite] at hspec hfilled
    exact sameOutside_of_wrote laid filled hfilled hspec.1
  | error s' =>
    rw [hwrite] at hspec hfilled
    exact sameOutside_of_wrote laid filled hfilled hspec

theorem run_array {s s' : Store} {calls : List Call} {outs : List (List UInt8)}
    (laid : Laid s.files) (filled : Filled s) (sized : ∀ call ∈ calls, call.Sized)
    (h : run s calls = some (s', outs)) :
    SameShape s s' ∧ Filled s' ∧ (arrayOf s).run calls = some (arrayOf s', outs) := by
  induction calls generalizing s outs with
  | nil =>
    cases h
    exact ⟨SameShape.refl _, filled, rfl⟩
  | cons call calls ih =>
    have hsized := sized call List.mem_cons_self
    have hrest : ∀ call ∈ calls, call.Sized := fun call hmem =>
      sized call (List.mem_cons_of_mem _ hmem)
    cases call with
    | write io offset data =>
      simp only [run] at h
      cases hwrite : storageWrite io s offset data with
      | error t =>
        rw [hwrite] at h
        cases h
      | ok t =>
        rw [hwrite] at h
        have hspec := storageWrite_spec io laid offset data
        have hfilled := storageWrite_filled io filled offset data
        rw [hwrite] at hspec hfilled
        have hinside : (arrayOf s).Inside offset data.length := by
          by_contra hout
          obtain ⟨k, hk, hnone⟩ := (range_unmapped_iff laid hsized.1).mpr hout
          exact storageWrite_mapped laid hwrite hk hnone
        obtain ⟨hshape, hfilled', hrun⟩ := ih (hspec.1.shape.laid laid) hfilled hrest h
        refine ⟨hspec.1.shape.trans hshape, hfilled', ?_⟩
        simp only [FlatArray.run, storageWrite_array laid filled hinside hwrite]
        exact hrun
    | read offset len =>
      simp only [run] at h
      by_cases hret : (storageRead s offset len).1 = len
      · simp only [hret, if_true, Option.map_eq_some_iff] at h
        obtain ⟨⟨t, outs'⟩, hrun, heq⟩ := h
        cases heq
        obtain ⟨hshape, hfilled', harray⟩ := ih laid filled hrest hrun
        refine ⟨hshape, hfilled', ?_⟩
        simp only [FlatArray.run, storageRead_array laid filled hsized.1 hret, harray]
        rfl
      · simp only [hret, if_false] at h
        cases h

/-- Every sequence of successful calls is a sequence of calls of the array, and after it: a
read succeeds iff its range is kept, and returns the bytes written last; a write fails by
the mapping iff its range leaves the array, and never changes a byte outside its range. -/
theorem run_refines_array {s s' : Store} {calls : List Call} {outs : List (List UInt8)}
    (laid : Laid s.files) (filled : Filled s) (sized : ∀ call ∈ calls, call.Sized)
    (h : run s calls = some (s', outs)) :
    (arrayOf s).run calls = some (arrayOf s', outs) ∧
    (∀ offset len, 0 < len → len < 2 ^ 31 →
      ((storageRead s' offset len).1 = len ↔ (arrayOf s).Kept offset len) ∧
      ((arrayOf s).Kept offset len → (storageRead s' offset len).2.length = len ∧
        ∀ k < len, (storageRead s' offset len).2[k]? =
          (lastWritten calls (offset + (k : Int))).or (s.byteAt (offset + k)))) ∧
    ∀ io offset data, 0 < data.length → data.length < 2 ^ 31 →
      (¬ (arrayOf s).Inside offset data.length →
        ∃ s'', storageWrite io s' offset data = .error s'') ∧
      (SinksSet s' → Willing io data.length →
        ((∃ s'', storageWrite io s' offset data = .error s'') ↔
          ¬ (arrayOf s).Inside offset data.length)) ∧
      Ends (SameOutside offset data.length s') (SameOutside offset data.length s')
        (storageWrite io s' offset data) := by
  obtain ⟨hshape, hfilled, hrun⟩ := run_array laid filled sized h
  have hlaid := hshape.laid laid
  have hinside : ∀ offset len, (arrayOf s').Inside offset len ↔ (arrayOf s).Inside offset len := by
    intro offset len
    simp only [FlatArray.Inside, arrayOf, totalLength, hshape.lengths]
  have hkept : ∀ offset len, (arrayOf s').Kept offset len ↔ (arrayOf s).Kept offset len := by
    intro offset len
    simp only [FlatArray.Kept, hinside]
    simp only [arrayOf, hshape.modeAt laid]
  refine ⟨hrun, ?_, ?_⟩
  · intro offset len pos _
    have hret := storageRead_ret hlaid hfilled offset pos
    rw [hkept] at hret
    refine ⟨hret, ?_⟩
    intro kept
    rcases storageRead_spec hlaid offset len with ⟨_, hlen, hbytes⟩ | ⟨hminus, _⟩
    · refine ⟨hlen, ?_⟩
      intro k hk
      have hdisk := kept.2 k hk
      have hbyte := FlatArray.run_byte hrun hdisk
      have hmode : s.modeAt (offset + k) = some .disk := by simpa [arrayOf] using hdisk
      obtain ⟨b, hb⟩ := Option.isSome_iff_exists.mp ((byteAt_isSome_iff filled).mpr hmode)
      rw [← hshape.modeAt laid, ← byteAt_isSome_iff hfilled] at hmode
      obtain ⟨b', hb'⟩ := Option.isSome_iff_exists.mp hmode
      simp only [arrayOf, hb, hb', Option.getD_some] at hbyte
      rw [← hbytes k hk, hb', hb, hbyte]
      cases lastWritten calls (offset + k) <;> rfl
    · have := hret.mpr kept
      omega
  · intro io offset data pos _
    refine ⟨?_, ?_, storageWrite_sameOutside io hlaid hfilled offset data⟩
    · intro hout
      rw [← hinside, ← range_unmapped_iff hlaid pos] at hout
      obtain ⟨k, hk, hnone⟩ := hout
      cases hwrite : storageWrite io s' offset data with
      | error s'' => exact ⟨s'', rfl⟩
      | ok s'' => exact absurd hnone (storageWrite_mapped hlaid hwrite hk)
    · intro sinks willing
      rw [← hinside]
      exact storageWrite_fails_iff hlaid hfilled sinks pos willing

/-- Two disk files around an empty one and a sink. -/
def straddled (first last : List UInt8) (delivered : List Delivery) : Store where
  files := [⟨0, 2, .disk, false, 0, some first⟩, ⟨2, 0, .disk, false, 0, some []⟩,
    ⟨2, 1, .sink, true, 0, none⟩, ⟨3, 2, .disk, false, 0, some last⟩]
  delivered := delivered
  error := none

def allWilling : Faults := fun _ => ⟨true, 2 ^ 31, true⟩

theorem straddled_laid (first last : List UInt8) (delivered : List Delivery) :
    Laid (straddled first last delivered).files := by
  constructor
  · intro i fh hget
    have hmem : fh ∈ (straddled first last delivered).files := List.mem_of_getElem? hget
    simp only [straddled, List.mem_cons, List.not_mem_nil, or_false] at hmem
    rcases hmem with rfl | rfl | rfl | rfl <;> simp
  · intro i fh hget
    match i with
    | 0 | 1 | 2 | 3 =>
      simp only [straddled, List.getElem?_cons_zero, List.getElem?_cons_succ,
        Option.some.injEq] at hget
      subst hget
      rfl
    | i + 4 => simp [straddled] at hget

theorem straddled_refines :
    (arrayOf (straddled [0, 0] [0, 0] [])).run
        [.write allWilling 1 [7, 8, 9], .write allWilling 3 [5], .read 3 2, .read 0 2] =
      some (arrayOf (straddled [0, 7] [5, 0] [⟨2, 0, [8]⟩]), [[5, 0], [0, 7]]) := by
  refine (run_refines_array (straddled_laid _ _ _) ?_ ?_ (by decide +kernel)).1
  · intro i fh hget hdisk
    have hmem := List.mem_of_getElem? hget
    simp only [straddled, List.mem_cons, List.not_mem_nil, or_false] at hmem
    rcases hmem with rfl | rfl | rfl | rfl
    · exact ⟨_, rfl, by decide⟩
    · exact ⟨_, rfl, by decide⟩
    · cases hdisk
    · exact ⟨_, rfl, by decide⟩
  · intro call hmem
    simp only [List.mem_cons, List.not_mem_nil, or_false] at hmem
    rcases hmem with rfl | rfl | rfl | rfl <;> simp [Call.Sized]

end StorageArray
