import Pipensx.Storage
import Pipensx.TorrentLayout

/-!
# Storage as one flat array

The view of a store the piece manager relies on: a mode and a byte for each position of
the flat space. A write changes bytes inside its range only and, when it succeeds, leaves
its data on every disk position of the range; a read returns the bytes of its range iff
all of them are there.
-/

namespace Storage

/-- The mode of the file a position lies in. -/
def Store.modeAt (s : Store) (x : Int) : Option FileMode :=
  (findFile s.files x).map (fun r => r.2.1.mode)

/-- The byte on disk at a position, if there is one. -/
def Store.byteAt (s : Store) (x : Int) : Option UInt8 :=
  match findFile s.files x with
  | none => none
  | some (_, fh, localOff) =>
    if fh.mode = .disk then fh.fp.bind (fun bytes => bytes[localOff.toNat]?) else none

/-- The whole range lies in disk files. -/
def Store.OnDisk (s : Store) (offset : Int) (len : Nat) : Prop :=
  ∀ k, k < len → s.modeAt (offset + k) = some .disk

/-- Everything about a file but its content. -/
def FileHandle.shape (fh : FileHandle) : FileHandle := { fh with fp := none }

def SameShape (s s' : Store) : Prop :=
  s'.files.map FileHandle.shape = s.files.map FileHandle.shape

theorem findFile_count {files : List FileHandle} {off : Int} {i : Nat} {fh : FileHandle}
    {localOff : Int} (h : findFile files off = some (i, fh, localOff)) :
    0 < (fh.length - localOff).toNat := by
  obtain ⟨_, hlo, hhi, rfl⟩ := findFile_some h
  omega

/-- `P` of a loop that ran to its end, `Q` of one that was left early. -/
def Ends {σ : Type} (P Q : σ → Prop) : Except σ σ → Prop
  | .ok s => P s
  | .error s => Q s

/-- `P` is the loop invariant, by the number of bytes done; `Q` holds where the loop is
left early. -/
theorem walk_rule {σ : Type} {table : σ → List FileHandle}
    {visit : σ → Nat → FileHandle → Int → Nat → Nat → Except σ σ} {offset : Int} {len : Nat}
    (P : σ → Nat → Prop) (Q : σ → Prop)
    (lost : ∀ s done, P s done → done < len → findFile (table s) (offset + done) = none → Q s)
    (step : ∀ s done i fh localOff count, P s done → done < len →
      findFile (table s) (offset + done) = some (i, fh, localOff) →
      count = min (fh.length - localOff).toNat (len - done) →
      Ends (fun s' => P s' (done + count)) Q (visit s i fh localOff done count))
    (fuel : Nat) (s : σ) (done : Nat) (init : P s done) (le : done ≤ len)
    (enough : len - done ≤ fuel) :
    Ends (fun s' => P s' len) Q (walk table visit offset len fuel s done) := by
  induction fuel generalizing s done with
  | zero =>
    have hdone : done = len := by omega
    subst hdone
    exact init
  | succ fuel ih =>
    by_cases hlt : done < len
    · cases hfind : findFile (table s) (offset + done) with
      | none =>
        simp only [walk, hlt, if_true, hfind]
        exact lost s done init hlt hfind
      | some r =>
        obtain ⟨i, fh, localOff⟩ := r
        have hpos := findFile_count hfind
        have hstep := step s done i fh localOff _ init hlt hfind rfl
        simp only [walk, hlt, if_true, hfind]
        cases hvisit : visit s i fh localOff done
          (min (fh.length - localOff).toNat (len - done)) with
        | error s' =>
          rw [hvisit] at hstep
          exact hstep
        | ok s' =>
          rw [hvisit] at hstep
          exact ih s' _ hstep (by omega) (by omega)
    · have hdone : done = len := by omega
      subst hdone
      simp only [walk, hlt, if_false]
      exact init

/-- The loop that only looks at the files of a range. -/
theorem scan_rule {files : List FileHandle}
    {visit : Unit → Nat → FileHandle → Int → Nat → Nat → Except Unit Unit}
    {offset : Int} {len : Nat} (P : Nat → Prop) (Q : Prop) (init : P 0)
    (lost : ∀ done, P done → done < len → findFile files (offset + done) = none → Q)
    (step : ∀ done i fh localOff count, P done → done < len →
      findFile files (offset + done) = some (i, fh, localOff) →
      count = min (fh.length - localOff).toNat (len - done) →
      Ends (fun _ => P (done + count)) (fun _ => Q) (visit () i fh localOff done count)) :
    ((walk (fun _ => files) visit offset len len () 0).isOk = true → P len) ∧
      ((walk (fun _ => files) visit offset len len () 0).isOk = false → Q) := by
  have hwalk : Ends (fun _ => P len) (fun _ => Q)
    (walk (fun _ => files) visit offset len len () 0) :=
    walk_rule (fun _ => P) (fun _ => Q) (fun _ => lost) (fun _ => step) len () 0 init
      (Nat.zero_le len) (Nat.sub_le len 0)
  cases hresult : walk (fun _ => files) visit offset len len () 0 with
  | ok u =>
    rw [hresult] at hwalk
    exact ⟨fun _ => hwalk, fun hfailed => (by cases hfailed)⟩
  | error u =>
    rw [hresult] at hwalk
    exact ⟨fun hdone => (by cases hdone), fun _ => hwalk⟩

theorem SameShape.refl (s : Store) : SameShape s s := rfl

theorem SameShape.trans {s t u : Store} (h : SameShape s t) (h' : SameShape t u) : SameShape s u :=
  Eq.trans h' h

theorem SameShape.getElem {s s' : Store} (h : SameShape s s') {i : Nat} {fh' : FileHandle}
    (hget : s'.files[i]? = some fh') : ∃ fh, s.files[i]? = some fh ∧ fh'.shape = fh.shape := by
  have hmap : (s'.files.map FileHandle.shape)[i]? = (s.files.map FileHandle.shape)[i]? :=
    congrArg (fun l => l[i]?) h
  simp only [List.getElem?_map, hget, Option.map_some] at hmap
  cases hs : s.files[i]? with
  | none => simp [hs] at hmap
  | some fh =>
    simp only [hs, Option.map_some, Option.some.injEq] at hmap
    exact ⟨fh, rfl, hmap⟩

theorem shape_fields {f g : FileHandle} (h : f.shape = g.shape) :
    f.offset = g.offset ∧ f.length = g.length ∧ f.mode = g.mode ∧ f.readyBytes = g.readyBytes := by
  simp only [FileHandle.shape, FileHandle.mk.injEq] at h
  exact ⟨h.1, h.2.1, h.2.2.1, h.2.2.2.2.1⟩

theorem SameShape.lengths {s s' : Store} (h : SameShape s s') :
    s'.files.map FileHandle.length = s.files.map FileHandle.length := by
  have := congrArg (List.map FileHandle.length) h
  simpa [List.map_map, Function.comp_def, FileHandle.shape] using this

theorem SameShape.laid {s s' : Store} (h : SameShape s s') (laid : Laid s.files) :
    Laid s'.files := by
  constructor
  · intro i fh' hget
    obtain ⟨fh, hfh, hshape⟩ := h.getElem hget
    rw [(shape_fields hshape).2.1]
    exact laid.nonneg i fh hfh
  · intro i fh' hget
    obtain ⟨fh, hfh, hshape⟩ := h.getElem hget
    rw [(shape_fields hshape).1, h.lengths]
    exact laid.offset i fh hfh

theorem SameShape.symm {s s' : Store} (h : SameShape s s') : SameShape s' s := Eq.symm h

/-- Where a position lies does not depend on the contents. -/
theorem SameShape.findFile {s s' : Store} (h : SameShape s s') (laid : Laid s.files) {x : Int}
    {i : Nat} {fh : FileHandle} {localOff : Int}
    (hfind : findFile s.files x = some (i, fh, localOff)) :
    ∃ fh', Storage.findFile s'.files x = some (i, fh', localOff) ∧ fh'.shape = fh.shape := by
  obtain ⟨hget, hlo, hhi, hlocal⟩ := findFile_some hfind
  obtain ⟨fh', hget', hshape⟩ := h.symm.getElem hget
  obtain ⟨hoff, hlen, _, _⟩ := shape_fields hshape
  refine ⟨fh', ?_, hshape.symm⟩
  rw [findFile_iff (h.laid laid)]
  exact ⟨hget', by omega, by omega, by omega⟩

theorem SameShape.modeAt {s s' : Store} (h : SameShape s s') (laid : Laid s.files) (x : Int) :
    s'.modeAt x = s.modeAt x := by
  cases hfind : Storage.findFile s.files x with
  | some r =>
    obtain ⟨i, fh, localOff⟩ := r
    obtain ⟨fh', hfind', hshape⟩ := h.findFile laid hfind
    simp [Store.modeAt, hfind, hfind', (shape_fields hshape).2.2.1]
  | none =>
    cases hfind' : Storage.findFile s'.files x with
    | none => simp [Store.modeAt, hfind, hfind']
    | some r =>
      obtain ⟨i, fh, localOff⟩ := r
      obtain ⟨fh', hback, _⟩ := h.symm.findFile (h.laid laid) hfind'
      rw [hfind] at hback
      cases hback

theorem SameShape.onDisk {s s' : Store} (h : SameShape s s') (laid : Laid s.files) {offset : Int}
    {len : Nat} : s'.OnDisk offset len ↔ s.OnDisk offset len := by
  simp only [Store.OnDisk, h.modeAt laid]

theorem laid_of_opened {mi : TorrentFile.Metainfo} {s : Store}
    (layout : TorrentLayout.FileLayout mi) (opened : Opened mi s) : Laid s.files := by
  have hlens : s.files.map FileHandle.length = mi.fileTable.map TorrentFile.MiFile.length := by
    have := congrArg (List.map Prod.snd) opened
    simpa [List.map_map, Function.comp_def] using this
  have hget : ∀ (i : Nat) (fh : FileHandle), s.files[i]? = some fh →
      ∃ mf, mi.fileTable[i]? = some mf ∧ fh.offset = mf.offset ∧ fh.length = mf.length := by
    intro i fh hfh
    have hmap := congrArg (fun l => l[i]?) opened
    simp only [List.getElem?_map, hfh, Option.map_some] at hmap
    cases hmf : mi.fileTable[i]? with
    | none => simp [hmf] at hmap
    | some mf =>
      simp only [hmf, Option.map_some, Option.some.injEq, Prod.mk.injEq] at hmap
      exact ⟨mf, rfl, hmap.1, hmap.2⟩
  constructor
  · intro i fh hfh
    obtain ⟨mf, hmf, _, hlen⟩ := hget i fh hfh
    rw [hlen]
    exact layout.nonneg i mf hmf
  · intro i fh hfh
    obtain ⟨mf, hmf, hoff, _⟩ := hget i fh hfh
    rw [hoff, layout.offset i mf hmf, hlens, PrefixLayout.start, List.map_take]

theorem overwrite_inside {bytes data : List UInt8} {pos k : Nat} (hlo : pos ≤ k)
    (hhi : k < pos + data.length) : (overwrite bytes pos data)[k]? = data[k - pos]? := by
  have hne : data ≠ [] := by
    rintro rfl
    simp only [List.length_nil] at hhi
    omega
  have hpre : ((bytes ++ List.replicate (pos - bytes.length) 0).take pos).length = pos := by
    simp only [List.length_take, List.length_append, List.length_replicate]
    omega
  rw [overwrite, if_neg hne, List.append_assoc, List.getElem?_append_right (by omega), hpre,
    List.getElem?_append_left (by omega)]

theorem overwrite_outside {bytes data : List UInt8} {pos k : Nat} {b : UInt8}
    (out : k < pos ∨ pos + data.length ≤ k) (hb : bytes[k]? = some b) :
    (overwrite bytes pos data)[k]? = some b := by
  by_cases hne : data = []
  · rw [overwrite, if_pos hne, hb]
  · have hpre : ((bytes ++ List.replicate (pos - bytes.length) 0).take pos).length = pos := by
      simp only [List.length_take, List.length_append, List.length_replicate]
      omega
    have hk := (List.getElem?_eq_some_iff.mp hb).1
    rw [overwrite, if_neg hne, List.append_assoc]
    rcases out with hlt | hge
    · rw [List.getElem?_append_left (by omega), List.getElem?_take_of_lt hlt,
        List.getElem?_append_left hk, hb]
    · rw [List.getElem?_append_right (by omega), hpre, List.getElem?_append_right (by omega),
        List.getElem?_drop, ← hb]
      congr 1
      omega

theorem setContent_shape (s : Store) (i : Nat) (bytes : List UInt8) :
    SameShape s (s.setContent i bytes) := by
  simp only [SameShape, Store.setContent]
  apply List.ext_getElem?
  intro j
  simp only [List.getElem?_map, List.getElem?_modify]
  cases s.files[j]? with
  | none => rfl
  | some fh =>
    by_cases hij : i = j
    · simp [hij, FileHandle.shape]
    · simp [hij]

/-- A new content shows at the positions of its file only. -/
theorem byteAt_setContent {s : Store} (laid : Laid s.files) {i : Nat} {fh : FileHandle}
    (hget : s.files[i]? = some fh) (disk : fh.mode = .disk) (bytes : List UInt8) (x : Int) :
    (s.setContent i bytes).byteAt x =
      if fh.offset ≤ x ∧ x < fh.offset + fh.length then bytes[(x - fh.offset).toNat]?
      else s.byteAt x := by
  have hshape := setContent_shape s i bytes
  have hget' : (s.setContent i bytes).files[i]? = some { fh with fp := some bytes } := by
    simp [Store.setContent, hget]
  split
  · next hin =>
    have hfind : findFile (s.setContent i bytes).files x =
        some (i, { fh with fp := some bytes }, x - fh.offset) := by
      rw [findFile_iff (hshape.laid laid)]
      exact ⟨hget', hin.1, hin.2, rfl⟩
    simp [Store.byteAt, hfind, disk]
  · next hout =>
    cases hfind : findFile s.files x with
    | none =>
      cases hfind' : findFile (s.setContent i bytes).files x with
      | none => simp [Store.byteAt, hfind, hfind']
      | some r =>
        obtain ⟨j, g, localOff⟩ := r
        obtain ⟨_, hback, _⟩ := hshape.symm.findFile (hshape.laid laid) hfind'
        rw [hfind] at hback
        cases hback
    | some r =>
      obtain ⟨j, g, localOff⟩ := r
      obtain ⟨hg, hlo, hhi, hlocal⟩ := findFile_some hfind
      have hji : j ≠ i := by
        rintro rfl
        rw [hget] at hg
        cases hg
        exact hout ⟨hlo, hhi⟩
      have hfind' : findFile (s.setContent i bytes).files x = some (j, g, localOff) := by
        rw [findFile_iff (hshape.laid laid)]
        refine ⟨?_, hlo, hhi, hlocal⟩
        simp [Store.setContent, hji.symm, hg]
      simp [Store.byteAt, hfind, hfind']

/-- `s'` differs from `s` in the disk bytes of a range only, apart from files growing. -/
structure WroteWithin (offset : Int) (len : Nat) (s s' : Store) : Prop where
  shape : SameShape s s'
  frame : ∀ x b, x < offset ∨ offset + len ≤ x → s.byteAt x = some b → s'.byteAt x = some b

theorem WroteWithin.refl (offset : Int) (len : Nat) (s : Store) : WroteWithin offset len s s :=
  ⟨SameShape.refl s, fun _ _ _ h => h⟩

theorem WroteWithin.trans {offset offset' : Int} {len len' : Nat} {s t u : Store}
    (h : WroteWithin offset len s t) (h' : WroteWithin offset' len' t u) (lo : offset ≤ offset')
    (hi : offset' + len' ≤ offset + len) : WroteWithin offset len s u := by
  refine ⟨h.shape.trans h'.shape, ?_⟩
  intro x b out hb
  exact h'.frame x b (by omega) (h.frame x b out hb)

theorem wroteWithin_of_files {offset : Int} {len : Nat} {s s' : Store} (h : s'.files = s.files) :
    WroteWithin offset len s s' := by
  constructor
  · simp only [SameShape, h]
  · intro x b _ hb
    simpa only [Store.byteAt, h] using hb

theorem modeAt_segment {s : Store} (laid : Laid s.files) {x : Int} {i : Nat} {fh : FileHandle}
    {localOff : Int} (hfind : findFile s.files x = some (i, fh, localOff)) {k : Nat}
    (hk : k < (fh.length - localOff).toNat) : s.modeAt (x + k) = some fh.mode := by
  simp [Store.modeAt, findFile_add laid hfind hk]

theorem writeSegment_spec (io : Faults) {s : Store} (laid : Laid s.files) {x : Int} {i : Nat}
    {fh : FileHandle} {localOff : Int} (hfind : findFile s.files x = some (i, fh, localOff))
    (src : List UInt8) (fits : src.length ≤ (fh.length - localOff).toNat) :
    Ends (fun s' => WroteWithin x src.length s s' ∧
        ∀ k, k < src.length → s.modeAt (x + k) = some .disk → s'.byteAt (x + k) = src[k]?)
      (WroteWithin x src.length s) (writeSegment io s i fh localOff.toNat src) := by
  have notDisk : fh.mode ≠ .disk → ∀ s' : Store, ∀ k, k < src.length →
      s.modeAt (x + k) = some .disk → s'.byteAt (x + k) = src[k]? := by
    intro hne s' k hk hmode
    rw [modeAt_segment laid hfind (by omega)] at hmode
    exact absurd (Option.some.inj hmode) hne
  simp only [writeSegment]
  cases hmode : fh.mode with
  | skip => exact ⟨WroteWithin.refl x src.length s, notDisk (by rw [hmode]; decide) s⟩
  | sink =>
    have hne : fh.mode ≠ .disk := by rw [hmode]; decide
    simp only
    split
    · exact ⟨WroteWithin.refl x src.length s, notDisk hne s⟩
    · split
      · exact wroteWithin_of_files rfl
      · split
        · exact ⟨wroteWithin_of_files rfl, notDisk hne _⟩
        · exact wroteWithin_of_files rfl
  | disk =>
    obtain ⟨hget, hlo, hhi, hlocal⟩ := findFile_some hfind
    cases hfp : fh.fp with
    | none => exact WroteWithin.refl x src.length s
    | some bytes =>
      simp only
      split
      · exact WroteWithin.refl x src.length s
      · have hbyte := byteAt_setContent laid hget hmode
            (overwrite bytes localOff.toNat (src.take (min (io i).wrote src.length)))
        have hwithin : WroteWithin x src.length s (s.setContent i
            (overwrite bytes localOff.toNat (src.take (min (io i).wrote src.length)))) := by
          refine ⟨setContent_shape s i _, ?_⟩
          intro y b out hb
          rw [hbyte y]
          split
          · next hin =>
            have hy : findFile s.files y = some (i, fh, y - fh.offset) :=
              findFile_of_owner laid hget hin.1 hin.2
            simp only [Store.byteAt, hy, hmode, if_true, hfp, Option.bind_some] at hb
            apply overwrite_outside _ hb
            simp only [List.length_take]
            omega
          · exact hb
        split
        · exact hwithin
        · next hall =>
          refine ⟨hwithin, ?_⟩
          intro k hk _
          have hw : min (io i).wrote src.length = src.length := by simpa using hall
          rw [hbyte (x + k), if_pos (by omega), hw, List.take_length,
            overwrite_inside (by omega) (by omega)]
          congr 1
          omega

theorem storageWrite_spec (io : Faults) {s : Store} (laid : Laid s.files) (offset : Int)
    (data : List UInt8) :
    Ends (fun s' => WroteWithin offset data.length s s' ∧
        ∀ k, k < data.length → s.modeAt (offset + k) = some .disk →
          s'.byteAt (offset + k) = data[k]?)
      (WroteWithin offset data.length s) (storageWrite io s offset data) := by
  refine walk_rule
    (fun s' done => WroteWithin offset data.length s s' ∧
      ∀ k, k < done → s.modeAt (offset + k) = some .disk → s'.byteAt (offset + k) = data[k]?)
    (WroteWithin offset data.length s) ?_ ?_ data.length s 0 ?_ ?_ ?_
  · intro s' done inv _ _
    exact inv.1
  · intro t done i fh localOff count inv hlt hfind hcount
    have hlaid := inv.1.shape.laid laid
    have hlen : ((data.drop done).take count).length = count := by
      simp only [List.length_take, List.length_drop]
      omega
    have hseg := writeSegment_spec io hlaid hfind ((data.drop done).take count) (by omega)
    rw [hlen] at hseg
    cases hvisit : writeSegment io t i fh localOff.toNat ((data.drop done).take count) with
    | error u =>
      rw [hvisit] at hseg
      exact inv.1.trans hseg (by omega) (by omega)
    | ok u =>
      rw [hvisit] at hseg
      obtain ⟨hwithin, hdata⟩ := hseg
      refine ⟨inv.1.trans hwithin (by omega) (by omega), ?_⟩
      intro k hk hmode
      by_cases hold : k < done
      · have hkeep := inv.2 k hold hmode
        rw [List.getElem?_eq_getElem (by omega)] at hkeep ⊢
        exact hwithin.frame _ _ (by omega) hkeep
      · have hpos : offset + (k : Int) = offset + (done : Int) + ((k - done : Nat) : Int) := by
          omega
        rw [hpos, hdata (k - done) (by omega)
          (by rw [inv.1.shape.modeAt laid, ← hpos]; exact hmode),
          List.getElem?_take_of_lt (by omega), List.getElem?_drop]
        congr 1
        omega
  · refine ⟨WroteWithin.refl offset data.length s, ?_⟩
    intro k hk
    omega
  · omega
  · omega

/-- The bytes of one segment, as the flat view has them. -/
theorem byteAt_segment {s : Store} (laid : Laid s.files) {x : Int} {i : Nat} {fh : FileHandle}
    {localOff : Int} (hfind : findFile s.files x = some (i, fh, localOff)) {k : Nat}
    (hk : k < (fh.length - localOff).toNat) :
    s.byteAt (x + k) =
      if fh.mode = .disk then fh.fp.bind (fun bytes => bytes[localOff.toNat + k]?) else none := by
  have hlocal : (localOff + (k : Int)).toNat = localOff.toNat + k := by
    obtain ⟨_, hlo, _, rfl⟩ := findFile_some hfind
    omega
  simp only [Store.byteAt, findFile_add laid hfind hk, hlocal]

theorem readSegment_spec {s : Store} (laid : Laid s.files) {x : Int} {i : Nat} {fh : FileHandle}
    {localOff : Int} (hfind : findFile s.files x = some (i, fh, localOff)) {count : Nat}
    (pos : 0 < count) (fits : count ≤ (fh.length - localOff).toNat) (data : List UInt8) :
    Ends (fun data' => ∃ r : List UInt8, data' = data ++ r ∧ r.length = count ∧
        ∀ k, k < count → s.byteAt (x + k) = r[k]?)
      (fun _ => ∃ k, k < count ∧ s.byteAt (x + k) = none)
      (readSegment data fh localOff.toNat count) := by
  have hat := fun (k : Nat) (hk : k < count) => byteAt_segment laid hfind (show k < _ by omega)
  simp only [readSegment]
  split
  · next bytes hmode hfp =>
    simp only [hmode, hfp, if_true, Option.bind_some] at hat
    split
    · next hshort =>
      simp only [List.length_take, List.length_drop, ne_eq] at hshort
      refine ⟨bytes.length - localOff.toNat, by omega, ?_⟩
      rw [hat _ (by omega)]
      exact List.getElem?_eq_none (by omega)
    · next hfull =>
      refine ⟨_, rfl, by simpa using hfull, ?_⟩
      intro k hk
      rw [hat k hk, List.getElem?_take_of_lt hk, List.getElem?_drop]
  · next hother =>
    refine ⟨0, pos, ?_⟩
    rw [hat 0 pos]
    split
    · next hdisk =>
      cases hfp : fh.fp with
      | none => rfl
      | some bytes => exact (hother bytes hdisk hfp).elim
    · rfl

/-- A read returns the bytes of its range iff all of them are on disk. -/
theorem storageRead_spec {s : Store} (laid : Laid s.files) (offset : Int) (len : Nat) :
    ((storageRead s offset len).1 = len ∧ (storageRead s offset len).2.length = len ∧
      ∀ k, k < len → s.byteAt (offset + k) = (storageRead s offset len).2[k]?) ∨
    ((storageRead s offset len).1 = -1 ∧ ∃ k, k < len ∧ s.byteAt (offset + k) = none) := by
  have hwalk : Ends (fun data => data.length = len ∧ ∀ k, k < len →
      s.byteAt (offset + k) = data[k]?) (fun _ => ∃ k, k < len ∧ s.byteAt (offset + k) = none)
      (walk (fun _ => s.files)
        (fun data _ fh localOff _ canRead => readSegment data fh localOff.toNat canRead)
        offset len len [] 0) := by
    refine walk_rule
      (fun data done => data.length = done ∧ ∀ k, k < done → s.byteAt (offset + k) = data[k]?)
      (fun _ => ∃ k, k < len ∧ s.byteAt (offset + k) = none) ?_ ?_ len [] 0
      ⟨rfl, by intro k hk; omega⟩ (Nat.zero_le len) (Nat.le_refl len)
    · intro data done _ hlt hnone
      exact ⟨done, hlt, by simp [Store.byteAt, hnone]⟩
    · intro data done i fh localOff count inv hlt hfind hcount
      have hpos := findFile_count hfind
      have hseg := readSegment_spec laid hfind (show 0 < count by omega)
        (by omega) data
      have hshift : ∀ k : Nat, offset + (done : Int) + (k : Int) =
        offset + ((done + k : Nat) : Int) := by
        intro k
        omega
      simp only [hshift] at hseg
      cases hread : readSegment data fh localOff.toNat count with
      | error data' =>
        rw [hread] at hseg
        obtain ⟨k, hk, hnone⟩ := hseg
        exact ⟨done + k, by omega, hnone⟩
      | ok data' =>
        rw [hread] at hseg
        obtain ⟨r, rfl, hr, hbytes⟩ := hseg
        refine ⟨by rw [List.length_append]; omega, ?_⟩
        intro k hk
        by_cases hold : k < done
        · rw [inv.2 k hold, List.getElem?_append_left (by omega)]
        · have hk' : done + (k - done) = k := by omega
          have hbyte := hbytes (k - done) (by omega)
          rw [hk'] at hbyte
          rw [hbyte, List.getElem?_append_right (by omega), inv.1]
  simp only [storageRead]
  cases hresult : walk (fun _ => s.files)
      (fun data _ fh localOff _ canRead => readSegment data fh localOff.toNat canRead)
      offset len len [] 0 with
  | ok data =>
    rw [hresult] at hwalk
    exact Or.inl ⟨rfl, hwalk⟩
  | error data =>
    rw [hresult] at hwalk
    exact Or.inr ⟨rfl, hwalk⟩

/-- The bytes of a range, once it is known that all of them are on disk. -/
theorem storageRead_of_bytes {s : Store} (laid : Laid s.files) {offset : Int} {data : List UInt8}
    (h : ∀ k, k < data.length → s.byteAt (offset + k) = data[k]?) :
    storageRead s offset data.length = ((data.length : Int), data) := by
  rcases storageRead_spec laid offset data.length with ⟨hret, hlen, hbytes⟩ | ⟨_, k, hk, hnone⟩
  · apply Prod.ext hret
    apply List.ext_getElem?
    intro k
    by_cases hk : k < data.length
    · rw [← hbytes k hk, h k hk]
    · rw [List.getElem?_eq_none (by omega), List.getElem?_eq_none (Nat.le_of_not_lt hk)]
  · rw [h k hk, List.getElem?_eq_getElem hk] at hnone
    cases hnone

theorem modeAt_of_byteAt {s : Store} {x : Int} {b : UInt8} (h : s.byteAt x = some b) :
    s.modeAt x = some .disk := by
  simp only [Store.byteAt] at h
  split at h
  · cases h
  · next i fh localOff hfind =>
    split at h
    · next hmode => simp [Store.modeAt, hfind, hmode]
    · cases h

theorem rangeHasMode_iff {s : Store} (laid : Laid s.files) (offset : Int) (len : Nat)
    (mode : FileMode) :
    rangeHasMode s offset len mode = true ↔ ∀ k, k < len → s.modeAt (offset + k) = some mode := by
  have hscan : (rangeHasMode s offset len mode = true → ∀ k, k < len →
      s.modeAt (offset + k) = some mode) ∧
      (rangeHasMode s offset len mode = false → ∃ k, k < len ∧
        s.modeAt (offset + k) ≠ some mode) := by
    refine scan_rule (fun done => ∀ k, k < done → s.modeAt (offset + k) = some mode)
      (∃ k, k < len ∧ s.modeAt (offset + k) ≠ some mode) (by intro k hk; omega) ?_ ?_
    · intro done _ hlt hnone
      exact ⟨done, hlt, by simp [Store.modeAt, hnone]⟩
    · intro done i fh localOff count inv hlt hfind hcount
      have hpos := findFile_count hfind
      have hmode : ∀ k, k < count → s.modeAt (offset + ((done + k : Nat) : Int)) =
        some fh.mode := by
        intro k hk
        have hshift : offset + ((done + k : Nat) : Int) = offset + (done : Int) + (k : Int) := by
          omega
        rw [hshift, modeAt_segment laid hfind (by omega)]
      split
      · next hne =>
        refine ⟨done, hlt, ?_⟩
        have := hmode 0 (by omega)
        rw [Nat.add_zero] at this
        rw [this]
        simpa using hne
      · next heq =>
        intro k hk
        by_cases hold : k < done
        · exact inv k hold
        · have hk' := hmode (k - done) (by omega)
          rw [Nat.add_sub_cancel' (by omega)] at hk'
          rw [hk']
          simpa using heq
  refine ⟨hscan.1, fun hall => ?_⟩
  by_contra hfalse
  obtain ⟨k, hk, hne⟩ := hscan.2 (Bool.eq_false_iff.mpr hfalse)
  exact hne (hall k hk)

theorem storageRangeReadable_iff {s : Store} (laid : Laid s.files) (offset : Int) (len : Nat) :
    storageRangeReadable s offset len = true ↔ s.OnDisk offset len :=
  rangeHasMode_iff laid offset len .disk

/-- No position of a skipped range is on disk. -/
theorem storageRangeSkipped_notDisk {s : Store} (laid : Laid s.files) {offset : Int} {len : Nat}
    (h : storageRangeSkipped s offset len = true) :
    ∀ k, k < len → s.modeAt (offset + k) ≠ some .disk := by
  refine (scan_rule (fun done => ∀ k, k < done → s.modeAt (offset + k) ≠ some .disk) True
    (by intro k hk; omega) (fun _ _ _ _ => trivial) ?_).1 h
  intro done i fh localOff count inv hlt hfind hcount
  have grow : fh.mode ≠ .disk → ∀ k, k < done + count → s.modeAt (offset + k) ≠ some .disk := by
    intro hne k hk
    by_cases hold : k < done
    · exact inv k hold
    · have hshift : offset + (k : Int) = offset + (done : Int) + ((k - done : Nat) : Int) := by
        omega
      rw [hshift, modeAt_segment laid hfind (by omega)]
      simpa using hne
  split
  · next hskip => exact grow (by rw [hskip]; decide)
  · split
    · next hsink => exact grow (by rw [hsink.1]; decide)
    · trivial

/-- Every file on disk is open, which `storage_open_ex` sees to, and every sink is there. -/
def Store.Ready (s : Store) : Prop :=
  ∀ (i : Nat) (fh : FileHandle), s.files[i]? = some fh →
    (fh.mode = .disk → fh.fp ≠ none) ∧ (fh.mode = .sink → fh.hasSink = true)

/-- Every `fseek` succeeds, every `fwrite` of up to `len` bytes is complete, and every sink
accepts. -/
def Willing (io : Faults) (len : Nat) : Prop :=
  ∀ i, (io i).seek = true ∧ len ≤ (io i).wrote ∧ (io i).accepts = true

theorem Willing.shorter {io : Faults} {len len' : Nat} (h : Willing io len) (le : len' ≤ len) :
    Willing io len' :=
  fun i => ⟨(h i).1, le.trans (h i).2.1, (h i).2.2⟩

theorem ready_setContent {s : Store} (ready : s.Ready) (i : Nat) (bytes : List UInt8) :
    (s.setContent i bytes).Ready := by
  intro j fh' hget
  simp only [Store.setContent, List.getElem?_modify] at hget
  cases hfile : s.files[j]? with
  | none => simp [hfile] at hget
  | some fh =>
    by_cases hij : i = j
    · simp only [hfile, hij, if_true] at hget
      cases hget
      exact ⟨by simp, (ready j fh hfile).2⟩
    · simp only [hfile, hij, if_false] at hget
      cases hget
      exact ready j fh hfile

/-- The part of a write in one file fails only where the system does. -/
theorem writeSegment_ready (io : Faults) {s : Store} (ready : s.Ready) {i : Nat} {fh : FileHandle}
    (hget : s.files[i]? = some fh) (localOff : Nat) (src : List UInt8) :
    Ends (fun s' => SameShape s s' ∧ s'.Ready)
      (fun s' => SameShape s s' ∧ s'.Ready ∧ ¬ Willing io src.length)
      (writeSegment io s i fh localOff src) := by
  obtain ⟨hdisk, hsink⟩ := ready i fh hget
  simp only [writeSegment]
  cases hmode : fh.mode with
  | skip => exact ⟨SameShape.refl s, ready⟩
  | sink =>
    simp only
    split
    · exact ⟨SameShape.refl s, ready⟩
    · split
      · next hnone =>
        rw [hsink hmode] at hnone
        cases hnone
      · split
        · exact ⟨SameShape.refl s, ready⟩
        · next hrejects =>
          refine ⟨SameShape.refl s, ready, ?_⟩
          intro hwilling
          exact hrejects (hwilling i).2.2
  | disk =>
    cases hfp : fh.fp with
    | none => exact absurd hfp (hdisk hmode)
    | some bytes =>
      simp only
      split
      · next hseek =>
        refine ⟨SameShape.refl s, ready, ?_⟩
        intro hwilling
        rw [(hwilling i).1] at hseek
        cases hseek
      · split
        · next hshort =>
          refine ⟨setContent_shape s i _, ready_setContent ready i _, ?_⟩
          intro hwilling
          exact hshort (min_eq_right (hwilling i).2.1)
        · exact ⟨setContent_shape s i _, ready_setContent ready i _⟩

/-- A write fails only where the system does, or outside the files. -/
theorem storageWrite_ready (io : Faults) {s : Store} (laid : Laid s.files) (ready : s.Ready)
    (offset : Int) (data : List UInt8) :
    Ends (fun s' => SameShape s s' ∧ s'.Ready)
      (fun s' => SameShape s s' ∧ s'.Ready ∧ (¬ Willing io data.length ∨
        ∃ k, k < data.length ∧ findFile s.files (offset + k) = none))
      (storageWrite io s offset data) := by
  refine walk_rule (fun s' _ => SameShape s s' ∧ s'.Ready) _ ?_ ?_ data.length s 0
    ⟨SameShape.refl s, ready⟩ (by omega) (by omega)
  · rintro s' done ⟨hshape, hready⟩ hlt hnone
    refine ⟨hshape, hready, Or.inr ⟨done, hlt, ?_⟩⟩
    cases hfind : findFile s.files (offset + done) with
    | none => rfl
    | some r =>
      obtain ⟨i, fh, localOff⟩ := r
      obtain ⟨_, hfound, _⟩ := hshape.findFile laid hfind
      rw [hnone] at hfound
      cases hfound
  · rintro s' done i fh localOff count ⟨hshape, hready⟩ hlt hfind hcount
    have hseg := writeSegment_ready io hready (findFile_some hfind).1 localOff.toNat
      ((data.drop done).take count)
    cases hvisit : writeSegment io s' i fh localOff.toNat ((data.drop done).take count) with
    | ok s'' =>
      rw [hvisit] at hseg
      exact ⟨hshape.trans hseg.1, hseg.2⟩
    | error s'' =>
      rw [hvisit] at hseg
      refine ⟨hshape.trans hseg.1, hseg.2.1, Or.inl ?_⟩
      intro hwilling
      refine hseg.2.2 (hwilling.shorter ?_)
      simp only [List.length_take, List.length_drop]
      omega

theorem SameShape.opened {mi : TorrentFile.Metainfo} {s s' : Store} (h : SameShape s s')
    (opened : Opened mi s) : Opened mi s' := by
  have hplaces := congrArg (List.map (fun fh : FileHandle => (fh.offset, fh.length))) h
  simp only [List.map_map, Function.comp_def, FileHandle.shape] at hplaces
  exact hplaces.trans opened

/-- Every position of the torrent lies in a file. -/
theorem findFile_inside {mi : TorrentFile.Metainfo} {s : Store}
    (layout : TorrentLayout.FileLayout mi)
    (opened : Opened mi s) {x : Int} (lo : 0 ≤ x) (hi : x < mi.totalLength) :
    findFile s.files x ≠ none := by
  obtain ⟨i, ⟨f, hf, hstart, hend⟩, _⟩ := layout.tile x lo hi
  have hmap := congrArg (fun l => l[i]?) opened
  simp only [List.getElem?_map, hf, Option.map_some] at hmap
  cases hfile : s.files[i]? with
  | none => simp [hfile] at hmap
  | some fh =>
    simp only [hfile, Option.map_some, Option.some.injEq, Prod.mk.injEq] at hmap
    have hlo : fh.offset ≤ x := by omega
    have hfound := findFile_of_owner (laid_of_opened layout opened) hfile hlo (by omega)
    rw [hfound]
    simp

theorem storageWrite_succeeds {mi : TorrentFile.Metainfo} {s : Store}
    (layout : TorrentLayout.FileLayout mi) (opened : Opened mi s) (ready : s.Ready) {io : Faults}
    {offset : Int} {data : List UInt8} (willing : Willing io data.length) (lo : 0 ≤ offset)
    (hi : offset + data.length ≤ mi.totalLength) :
    ∃ s', storageWrite io s offset data = .ok s' := by
  have hwrite := storageWrite_ready io (laid_of_opened layout opened) ready offset data
  cases hresult : storageWrite io s offset data with
  | ok s' => exact ⟨s', rfl⟩
  | error s' =>
    rw [hresult] at hwrite
    rcases hwrite.2.2 with hunwilling | ⟨k, hk, hnone⟩
    · exact absurd willing hunwilling
    · exact absurd hnone (findFile_inside layout opened (by omega) (by omega))

end Storage
