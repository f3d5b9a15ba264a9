import Pipensx.StorageArray

/-!
# What a write hands to the sinks

`storage_write` gives every sink the bytes of its file that lie in the range and were not
consumed before, once each and in order. `storage_range_skipped` says in advance that a
write will neither reach a disk file nor call a sink.
-/

namespace SinkDelivery

open Storage StorageArray

/-- The bytes of one call, each with the file index and its offset in the file. -/
def entries (d : Delivery) : List (Nat × Nat × UInt8) :=
  (d.bytes.zipIdx d.offset).map (fun p => (d.file, p.2, p.1))

/-- Byte `k` of a write, if it lies in a sink file at or after the mark. -/
def sinkEntry (files : List FileHandle) (offset : Int) (data : List UInt8) (k : Nat) :
    Option (Nat × Nat × UInt8) :=
  match findFile files (offset + k) with
  | none => none
  | some (i, fh, localOff) =>
    if fh.mode = .sink ∧ fh.readyBytes ≤ localOff.toNat then
      data[k]?.map (fun b => (i, localOff.toNat, b))
    else none

/-- The bytes among the first `done` of a write that the sinks have to get, in order. -/
def due (files : List FileHandle) (offset : Int) (data : List UInt8) (done : Nat) :
    List (Nat × Nat × UInt8) :=
  (List.range done).filterMap (sinkEntry files offset data)

/-- A position where a write leaves no trace: skipped, or consumed by an earlier session. -/
def Idle (files : List FileHandle) (x : Int) : Prop :=
  ∃ i fh localOff, findFile files x = some (i, fh, localOff) ∧
    (fh.mode = .skip ∨ fh.mode = .sink ∧ localOff.toNat < fh.readyBytes)

theorem due_add (files : List FileHandle) (offset : Int) (data : List UInt8) (done count : Nat) :
    due files offset data (done + count) = due files offset data done ++
      (List.range count).filterMap (fun k => sinkEntry files offset data (done + k)) := by
  simp only [due, List.range_add, List.filterMap_append, List.filterMap_map]
  rfl

/-- The bytes at and after a mark are what is left after dropping those before it. -/
theorem filterMap_mark (file mark : Nat) (src : List UInt8) (localOff : Nat) :
    (List.range src.length).filterMap (fun k =>
        if mark ≤ localOff + k then src[k]?.map (fun b => (file, localOff + k, b)) else none) =
      entries ⟨file, localOff + (mark - localOff), src.drop (mark - localOff)⟩ := by
  induction src generalizing localOff with
  | nil => simp [entries]
  | cons b bs ih =>
    have htail := ih (localOff + 1)
    simp only [Nat.add_assoc, Nat.add_comm 1] at htail
    rw [List.length_cons, List.range_succ_eq_map, List.filterMap_cons, List.filterMap_map]
    simp only [Function.comp_def, List.getElem?_cons_succ, Nat.succ_eq_add_one, htail]
    by_cases hmark : mark ≤ localOff
    · have hzero : mark - localOff = 0 := by omega
      have hzero' : mark - (localOff + 1) = 0 := by omega
      simp [hmark, hzero, hzero', entries]
    · have hsucc : mark - localOff = (mark - (localOff + 1)) + 1 := by omega
      simp [hmark, hsucc]

section Segment

variable {files : List FileHandle} (laid : Laid files) {offset : Int} {done i : Nat}
  {fh : FileHandle} {localOff : Int}
  (hfind : findFile files (offset + done) = some (i, fh, localOff))

include laid hfind

theorem findFile_within {k : Nat} (hk : k < (fh.length - localOff).toNat) :
    findFile files (offset + ((done + k : Nat) : Int)) = some (i, fh, localOff + k) ∧
      (localOff + (k : Int)).toNat = localOff.toNat + k := by
  have hshift : offset + ((done + k : Nat) : Int) = offset + (done : Int) + (k : Int) := by omega
  obtain ⟨_, hlo, _, hlocal⟩ := findFile_some hfind
  rw [hshift]
  exact ⟨findFile_add laid hfind hk, by omega⟩

/-- The bytes due in one file. -/
theorem due_segment (data : List UInt8) {count : Nat} (fits : count ≤ (fh.length - localOff).toNat)
    (within : done + count ≤ data.length) :
    (List.range count).filterMap (fun k => sinkEntry files offset data (done + k)) =
      if fh.mode = .sink then
        entries ⟨i, localOff.toNat + (fh.readyBytes - localOff.toNat),
          ((data.drop done).take count).drop (fh.readyBytes - localOff.toNat)⟩
      else [] := by
  have hlen : ((data.drop done).take count).length = count := by
    simp only [List.length_take, List.length_drop]
    omega
  have hentry : ∀ k ∈ List.range count, sinkEntry files offset data (done + k) =
      if fh.mode = .sink then
        if fh.readyBytes ≤ localOff.toNat + k then
          ((data.drop done).take count)[k]?.map (fun b => (i, localOff.toNat + k, b))
        else none
      else none := by
    intro k hk
    have hlt : k < count := List.mem_range.mp hk
    obtain ⟨hfound, hoff⟩ := findFile_within laid hfind (show k < _ by omega)
    simp only [sinkEntry, hfound, hoff, List.getElem?_take_of_lt hlt, List.getElem?_drop]
    by_cases hsink : fh.mode = .sink
    · simp [hsink]
    · simp [hsink]
  rw [List.filterMap_congr hentry]
  by_cases hsink : fh.mode = .sink
  · simp only [hsink, if_true]
    have hmark := filterMap_mark i fh.readyBytes ((data.drop done).take count) localOff.toNat
    rw [hlen] at hmark
    exact hmark
  · simp [hsink]

/-- The file is idle up to the end of the segment iff nothing of it is written or due. -/
theorem idle_segment_iff {count : Nat} (pos : 0 < count)
    (fits : count ≤ (fh.length - localOff).toNat) :
    (∀ k < count, Idle files (offset + ((done + k : Nat) : Int))) ↔
      fh.mode = .skip ∨ fh.mode = .sink ∧ localOff.toNat + count ≤ fh.readyBytes := by
  constructor
  · intro hidle
    obtain ⟨j, g, l, hg, hquiet⟩ := hidle (count - 1) (by omega)
    obtain ⟨hfound, hoff⟩ := findFile_within laid hfind (show count - 1 < _ by omega)
    rw [hfound] at hg
    cases hg
    rw [hoff] at hquiet
    rcases hquiet with hskip | ⟨hsink, hmark⟩
    · exact Or.inl hskip
    · exact Or.inr ⟨hsink, by omega⟩
  · intro hquiet k hk
    obtain ⟨hfound, hoff⟩ := findFile_within laid hfind (show k < _ by omega)
    refine ⟨i, fh, _, hfound, ?_⟩
    rw [hoff]
    rcases hquiet with hskip | ⟨hsink, hmark⟩
    · exact Or.inl hskip
    · exact Or.inr ⟨hsink, by omega⟩

end Segment

theorem idle_add {files : List FileHandle} {offset : Int} {done count : Nat} :
    (∀ k < done + count, Idle files (offset + (k : Int))) ↔
      (∀ k < done, Idle files (offset + (k : Int))) ∧
        ∀ k < count, Idle files (offset + ((done + k : Nat) : Int)) := by
  constructor
  · intro hall
    exact ⟨fun k hk => hall k (by omega), fun k hk => hall (done + k) (by omega)⟩
  · rintro ⟨hold, hnew⟩ k hk
    by_cases hlt : k < done
    · exact hold k hlt
    · have hk' := hnew (k - done) (by omega)
      rwa [Nat.add_sub_cancel' (by omega)] at hk'

theorem storageRangeSkipped_iff {s : Store} (laid : Laid s.files) (offset : Int) (len : Nat) :
    storageRangeSkipped s offset len = true ↔ ∀ k < len, Idle s.files (offset + (k : Int)) := by
  have hscan : (storageRangeSkipped s offset len = true →
      ∀ k < len, Idle s.files (offset + (k : Int))) ∧
      (storageRangeSkipped s offset len = false →
        ¬ ∀ k < len, Idle s.files (offset + (k : Int))) := by
    refine scan_rule (fun done => ∀ k < done, Idle s.files (offset + (k : Int))) _
      (by intro k hk; omega) ?_ ?_
    · intro done _ hlt hnone hall
      obtain ⟨i, fh, localOff, hfound, _⟩ := hall done hlt
      rw [hnone] at hfound
      cases hfound
    · intro done i fh localOff count inv hlt hfind hcount
      have hpos := findFile_count hfind
      have hiff := idle_segment_iff laid hfind (show 0 < count by omega) (by omega)
      split
      · next hskip => exact idle_add.mpr ⟨inv, hiff.mpr (Or.inl hskip)⟩
      · next hskip =>
        split
        · next hsink => exact idle_add.mpr ⟨inv, hiff.mpr (Or.inr hsink)⟩
        · next hsink =>
          intro hall
          rcases hiff.mp (fun k hk => hall (done + k) (by omega)) with h | h
          · exact hskip h
          · exact hsink h
  refine ⟨hscan.1, fun hall => ?_⟩
  by_contra hfalse
  exact hscan.2 (Bool.eq_false_iff.mpr hfalse) hall

/-- `storage_write` with its calls of `fwrite` recorded: file index, offset and bytes. -/
def tracedWrite (io : Faults) (s : Store) (offset : Int) (data : List UInt8) :
    Except (Store × List Delivery) (Store × List Delivery) :=
  walk (fun t => t.1.files)
    (fun t i fh localOff written canWrite =>
      let src := (data.drop written).take canWrite
      let wrote := if fh.mode = .disk then t.2 ++ [⟨i, localOff.toNat, src⟩] else t.2
      match writeSegment io t.1 i fh localOff.toNat src with
      | .error s' => .error (s', wrote)
      | .ok s' => .ok (s', wrote))
    offset data.length data.length (s, []) 0

/-- A result without the second part of the state. -/
def dropSecond {σ τ : Type} : Except (σ × τ) (σ × τ) → Except σ σ
  | .error t => .error t.1
  | .ok t => .ok t.1

/-- A loop over a richer state is the loop over its first part. -/
theorem walk_dropSecond {σ τ : Type} {table : σ → List FileHandle}
    {visit : σ × τ → Nat → FileHandle → Int → Nat → Nat → Except (σ × τ) (σ × τ)}
    {visit' : σ → Nat → FileHandle → Int → Nat → Nat → Except σ σ} {offset : Int} {len : Nat}
    (same : ∀ t i fh localOff done count,
      dropSecond (visit t i fh localOff done count) = visit' t.1 i fh localOff done count)
    (fuel : Nat) (t : σ × τ) (done : Nat) :
    dropSecond (walk (fun t : σ × τ => table t.1) visit offset len fuel t done) =
      walk table visit' offset len fuel t.1 done := by
  induction fuel generalizing t done with
  | zero => rfl
  | succ fuel ih =>
    by_cases hlt : done < len
    · simp only [walk, hlt, if_true]
      cases hfind : findFile (table t.1) (offset + done) with
      | none => rfl
      | some r =>
        obtain ⟨i, fh, localOff⟩ := r
        simp only [← same]
        cases hvisit : visit t i fh localOff done
          (min (fh.length - localOff).toNat (len - done)) with
        | error t' => rfl
        | ok t' => exact ih t' _
    · simp only [walk, hlt, if_false]
      rfl

/-- The record changes nothing. -/
theorem dropSecond_tracedWrite (io : Faults) (s : Store) (offset : Int) (data : List UInt8) :
    dropSecond (tracedWrite io s offset data) = storageWrite io s offset data := by
  simp only [tracedWrite, storageWrite]
  refine walk_dropSecond ?_ data.length (s, []) 0
  intro t i fh localOff done count
  cases hvisit : writeSegment io t.1 i fh localOff.toNat ((data.drop done).take count) <;>
    simp [dropSecond]

/-- What one file gets: a call of the sink with the bytes due, if there are any. -/
theorem writeSegment_delivers (io : Faults) (s : Store) (i : Nat) (fh : FileHandle) (localOff : Nat)
    (src : List UInt8) (pos : 0 < src.length) :
    Ends (fun s' => ∃ calls, s'.delivered = s.delivered ++ calls ∧
        calls.flatMap entries = (if fh.mode = .sink then
          entries ⟨i, localOff + (fh.readyBytes - localOff), src.drop (fh.readyBytes - localOff)⟩
          else []) ∧
        (fh.mode ≠ .disk ∧ calls = [] ↔
          fh.mode = .skip ∨ fh.mode = .sink ∧ localOff + src.length ≤ fh.readyBytes))
      (fun _ => ¬ (fh.mode = .skip ∨ fh.mode = .sink ∧ localOff + src.length ≤ fh.readyBytes))
      (writeSegment io s i fh localOff src) := by
  simp only [writeSegment]
  cases hmode : fh.mode with
  | skip => exact ⟨[], by simp, by simp, by simp⟩
  | sink =>
    simp only
    by_cases hbelow : localOff < fh.readyBytes ∧ fh.readyBytes - localOff ≥ src.length
    · simp only [hbelow, and_self, if_true]
      refine ⟨[], by simp, ?_, ?_⟩
      · simp [entries, List.drop_eq_nil_of_le hbelow.2]
      · simp
        omega
    · have habove : ¬ localOff + src.length ≤ fh.readyBytes := by omega
      simp only [hbelow, if_false]
      by_cases hnone : fh.hasSink = false
      · simpa [hnone, Ends] using habove
      · by_cases haccepts : (io i).accepts = true
        · simp only [hnone, haccepts, if_true]
          refine ⟨[⟨i, localOff + (fh.readyBytes - localOff),
            src.drop (fh.readyBytes - localOff)⟩], rfl, by simp, ?_⟩
          simp [habove]
        · simpa [hnone, haccepts, Ends] using habove
  | disk =>
    cases hfp : fh.fp with
    | none => simp [Ends]
    | some bytes =>
      simp only
      by_cases hseek : (io i).seek = false
      · simp [hseek, Ends]
      · by_cases hshort : min (io i).wrote src.length ≠ src.length
        · rw [if_neg hseek, if_pos hshort]
          simp [Ends]
        · rw [if_neg hseek, if_neg hshort]
          exact ⟨[], by simp [Store.setContent], by simp, by simp⟩

theorem writeSegment_shape (io : Faults) (s : Store) (i : Nat) (fh : FileHandle) (localOff : Nat)
    (src : List UInt8) :
    Ends (SameShape s) (SameShape s) (writeSegment io s i fh localOff src) := by
  simp only [writeSegment]
  cases fh.mode with
  | skip => exact SameShape.refl s
  | sink =>
    simp only
    split
    · exact SameShape.refl s
    · split
      · exact SameShape.refl s
      · split <;> exact SameShape.refl s
  | disk =>
    cases fh.fp with
    | none => exact SameShape.refl s
    | some bytes =>
      simp only
      split
      · exact SameShape.refl s
      · split <;> exact setContent_shape s i _

/-- What a write has done after `done` bytes: the sinks have got what is due, and nothing
was written or handed over iff those bytes are idle. -/
def Handed (s : Store) (offset : Int) (data : List UInt8) (t : Store × List Delivery) (done : Nat) :
    Prop :=
  SameShape s t.1 ∧ ∃ calls, t.1.delivered = s.delivered ++ calls ∧
    calls.flatMap entries = due s.files offset data done ∧
    (t.2 = [] ∧ calls = [] ↔ ∀ k < done, Idle s.files (offset + (k : Int)))

theorem handed_zero (s : Store) (offset : Int) (data : List UInt8) :
    Handed s offset data (s, []) 0 :=
  ⟨SameShape.refl s, [], by simp, by simp [due], by simp⟩

/-- Either the write gets through, or it fails and then the range is not idle. -/
theorem tracedWrite_spec (io : Faults) {s : Store} (laid : Laid s.files) (offset : Int)
    (data : List UInt8) :
    Ends (fun t => Handed s offset data t data.length)
      (fun _ => ¬ ∀ k < data.length, Idle s.files (offset + (k : Int)))
      (tracedWrite io s offset data) := by
  refine walk_rule (Handed s offset data) _ ?_ ?_ data.length (s, []) 0 (handed_zero s offset data)
    (by omega) (by omega)
  · rintro t done ⟨hshape, _⟩ hlt hnone hall
    obtain ⟨i, fh, localOff, hfound, _⟩ := hall done hlt
    obtain ⟨_, hfound', _⟩ := hshape.findFile laid hfound
    rw [hnone] at hfound'
    cases hfound'
  · rintro t done i fh' localOff count ⟨hshape, calls, hcalls, hdue, hidle⟩ hlt hfind' hcount
    -- the file as it was before the write: the same but for its content
    obtain ⟨fh, hfind, hfh⟩ := hshape.symm.findFile (hshape.laid laid) hfind'
    obtain ⟨_, hlength, hmode, hready⟩ := shape_fields hfh
    have hpos := findFile_count hfind
    have hlen : ((data.drop done).take count).length = count := by
      simp only [List.length_take, List.length_drop]
      omega
    have hseg := due_segment laid hfind data (show count ≤ _ by omega) (by omega)
    have hsegIdle := idle_segment_iff laid hfind (show 0 < count by omega) (by omega)
    have hdeliver := writeSegment_delivers io t.1 i fh' localOff.toNat
      ((data.drop done).take count) (by omega)
    have hshape' := writeSegment_shape io t.1 i fh' localOff.toNat ((data.drop done).take count)
    rw [hlen, ← hmode, ← hready, ← hsegIdle, ← hseg] at hdeliver
    cases hvisit : writeSegment io t.1 i fh' localOff.toNat ((data.drop done).take count) with
    | error s' =>
      rw [hvisit] at hdeliver
      simp only [hvisit]
      intro hall
      exact hdeliver (fun k hk => hall (done + k) (by omega))
    | ok s' =>
      rw [hvisit] at hdeliver hshape'
      obtain ⟨more, hmore, hflat, hquiet⟩ := hdeliver
      simp only [hvisit]
      refine ⟨hshape.trans hshape', calls ++ more, ?_, ?_, ?_⟩
      · rw [hmore, hcalls, List.append_assoc]
      · rw [List.flatMap_append, hdue, hflat, due_add]
      · rw [idle_add, ← hidle, ← hquiet, ← hmode]
        by_cases hdisk : fh.mode = .disk
        · simp [hdisk]
        · simp only [hdisk, if_false, List.append_eq_nil_iff, ne_eq, not_false_eq_true, true_and]
          tauto

/-- On files that are open, sinks that accept and a range inside the torrent, a write gets
through; the sinks have then got exactly the bytes due, in order, and
`storage_range_skipped` has said whether nothing was written and no sink called. -/
theorem storageWrite_delivers {io : Faults} {s : Store} (laid : Laid s.files) (ready : s.Ready)
    {offset : Int} {data : List UInt8} (pos : 0 < data.length) (lo : 0 ≤ offset)
    (hi : offset + data.length ≤ totalLength s) (willing : Willing io data.length) :
    ∃ s' wrote calls, storageWrite io s offset data = .ok s' ∧
      tracedWrite io s offset data = .ok (s', wrote) ∧
      s'.delivered = s.delivered ++ calls ∧
      calls.flatMap entries = due s.files offset data data.length ∧
      (storageRangeSkipped s offset data.length = true ↔ wrote = [] ∧ calls = []) := by
  have hwrite := storageWrite_ready io laid ready offset data
  have hspec := tracedWrite_spec io laid offset data
  have hdrop := dropSecond_tracedWrite io s offset data
  cases htraced : tracedWrite io s offset data with
  | error t =>
    rw [htraced] at hdrop
    rw [← hdrop] at hwrite
    rcases hwrite.2.2 with hunwilling | hunmapped
    · exact absurd willing hunwilling
    · rw [range_unmapped_iff laid pos] at hunmapped
      exact absurd ⟨lo, hi⟩ hunmapped
  | ok t =>
    rw [htraced] at hspec hdrop
    obtain ⟨_, calls, hcalls, hdue, hidle⟩ := hspec
    refine ⟨t.1, t.2, calls, hdrop.symm, rfl, hcalls, hdue, ?_⟩
    rw [storageRangeSkipped_iff laid, hidle]

/-- A skipped file before a sink that has consumed two of its three bytes. -/
def resumed : Store where
  files := [⟨0, 1, .skip, false, 0, none⟩, ⟨1, 3, .sink, true, 2, none⟩]
  delivered := []
  error := none

theorem resumed_delivers :
    due resumed.files 0 [1, 2, 3, 4] 4 = [(1, 2, 4)] ∧
    ∃ s' wrote calls, storageWrite allWilling resumed 0 [1, 2, 3, 4] = .ok s' ∧
      tracedWrite allWilling resumed 0 [1, 2, 3, 4] = .ok (s', wrote) ∧
      s'.delivered = resumed.delivered ++ calls ∧
      calls.flatMap entries = due resumed.files 0 [1, 2, 3, 4] 4 ∧
      (storageRangeSkipped resumed 0 4 = true ↔ wrote = [] ∧ calls = []) := by
  refine ⟨by decide +kernel, storageWrite_delivers ?_ ?_ (by decide) (by decide) (by decide) ?_⟩
  · constructor
    · intro i fh hget
      have hmem := List.mem_of_getElem? hget
      simp only [resumed, List.mem_cons, List.not_mem_nil, or_false] at hmem
      rcases hmem with rfl | rfl <;> simp
    · intro i fh hget
      match i with
      | 0 | 1 =>
        simp only [resumed, List.getElem?_cons_zero, List.getElem?_cons_succ,
          Option.some.injEq] at hget
        subst hget
        rfl
      | i + 2 => simp [resumed] at hget
  · intro i fh hget
    have hmem := List.mem_of_getElem? hget
    simp only [resumed, List.mem_cons, List.not_mem_nil, or_false] at hmem
    rcases hmem with rfl | rfl <;> simp
  · intro i
    exact ⟨rfl, by simp [allWilling], rfl⟩

end SinkDelivery
