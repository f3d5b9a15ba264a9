import Pipensx.BencodeGrammar
import Pipensx.TorrentLayout

/-!
# Walking a container the way it was skipped

`be_decode` steps over a list or a dictionary with `be_skip`; its children are read later,
with `be_list_next`, `be_dict_next` and `be_dict_get`, which start again at depth zero and
stop at the end of the container instead of the end of the buffer. The two readings are
compared child by child.
-/

namespace Bencode

/-- Where a value starts and where it ends. -/
def BeNode.span (node : BeNode) : Nat × Nat := (node.buf, node.buf + node.rawLen)

def BeNode.raw (mem : Memory) (node : BeNode) : List UInt8 := slice mem node.buf node.rawLen

/-- `while (be_list_next(&p, stop, &item))`: the nodes it visits and the cursor it leaves. -/
def listWalk (mem : Memory) (stop : Nat) : Nat → Nat → BeNode → Option (List BeNode × Nat)
  | 0, _, _ => none
  | fuel + 1, p, item =>
    let d := beListNext mem stop p item
    if d.ret then (listWalk mem stop fuel d.p d.out).map (fun r => (d.out :: r.1, r.2))
    else some ([], d.p)

/-- What one `be_dict_next` reports, with the cursor it started from. -/
structure DictPair where
  start : Nat
  key : Nat
  klen : Nat
  val : BeNode
  deriving DecidableEq, Repr

def DictPair.span (x : DictPair) : Nat × Nat × Nat :=
  (x.start, x.val.buf, x.val.buf + x.val.rawLen)

def DictPair.keyBytes (mem : Memory) (x : DictPair) : List UInt8 := slice mem x.key x.klen

/-- Key and value together. -/
def DictPair.raw (mem : Memory) (x : DictPair) : List UInt8 :=
  slice mem x.start (x.val.buf - x.start) ++ x.val.raw mem

/-- `while (be_dict_next(&p, stop, &key, &klen, &val))`. -/
def dictWalk (mem : Memory) (stop : Nat) : Nat → Nat → BeNode → Option (List DictPair × Nat)
  | 0, _, _ => none
  | fuel + 1, p, val =>
    match beDictNext mem stop p val with
    | (false, q, _) => some ([], q)
    | (true, q, key, klen, v) =>
      (dictWalk mem stop fuel q v).map (fun r => (⟨p, key, klen, v⟩ :: r.1, r.2))

/-- The children the list branch of `be_skip` steps over. -/
def skippedItems (mem : Memory) (stop : Nat) (skip : Nat → Option Nat) :
    Nat → Nat → List (Nat × Nat)
  | 0, _ => []
  | fuel + 1, p =>
    if p < stop ∧ mem p ≠ letterE then
      match skip p with
      | none => []
      | some q => (p, q) :: skippedItems mem stop skip fuel q
    else []

/-- The pairs the dictionary branch steps over: key, value, end. -/
def skippedPairs (mem : Memory) (stop : Nat) (skip : Nat → Option Nat) :
    Nat → Nat → List (Nat × Nat × Nat)
  | 0, _ => []
  | fuel + 1, p =>
    if p < stop ∧ mem p ≠ letterE then
      match parseStr mem stop p with
      | none => []
      | some (_, _, q) =>
        match skip q with
        | none => []
        | some r => (p, q, r) :: skippedPairs mem stop skip fuel r
    else []

theorem ValueOf.mono {int : List UInt8 → Prop} {d e : Nat} {l : List UInt8} (h : ValueOf int d l)
    (hde : d ≤ e) : ValueOf int e l := by
  induction h generalizing e with
  | int text => exact .int text
  | str text => exact .str text
  | list items room values ih =>
    refine .list items (fun hne => Nat.lt_of_lt_of_le (room hne) hde) fun v hv => ?_
    exact ih v hv (Nat.sub_le_sub_right hde 1)
  | dict pairs room keys values ih =>
    refine .dict pairs (fun hne => Nat.lt_of_lt_of_le (room hne) hde) keys fun q hq => ?_
    exact ih q hq (Nat.sub_le_sub_right hde 1)

/-- A value that was stepped over is stepped over again with more levels and with any end
that it fits below. -/
theorem beSkip_stable {mem : Memory} {stop ends d e p q : Nat}
    (h : beSkip mem stop (d + 1) p = some q) (hde : d ≤ e) (hq : q ≤ ends) :
    beSkip mem ends (e + 1) p = some q := by
  obtain ⟨hpq, -, hv⟩ := beSkip_sound d p h
  have hlen : p + (slice mem p (q - p)).length = q := by
    rw [slice_length]
    omega
  have hskip : beSkip mem ends (e + 1) p = some (p + (slice mem p (q - p)).length) :=
    beSkip_complete (hv.mono hde) p (holds_slice mem p (q - p)) (by omega)
  rwa [hlen] at hskip

theorem decimalLoop_stable {mem : Memory} {stop ends limit s v digits s' v' digits' : Nat}
    (hl : 9 ≤ limit) (hv : v ≤ limit) (hdigits : digits < 2 ^ 32)
    (h : decimalLoop mem stop limit (stop - s) s v digits = some (s', v', digits'))
    (hstop : s' < stop) (hends : s' < ends) :
    decimalLoop mem ends limit (ends - s) s v digits = some (s', v', digits') := by
  obtain ⟨ds, hds, hdig, rfl, rfl, hn, hbits, hlim, -, hlast⟩ :=
    decimalLoop_sound hl _ s v digits (Nat.le_refl _) h
  rw [Nat.mod_eq_of_lt (hbits hdigits)] at hn
  subst hn
  exact decimalLoop_complete mem ends limit hl ds _ s v digits hdigits (by omega) hds
    hdig (by omega) (hlim hv) fun _ => hlast hstop

theorem parseStr_stable {mem : Memory} {stop ends p k len q : Nat}
    (h : parseStr mem stop p = some (k, len, q)) (hq : q ≤ ends) :
    parseStr mem ends p = some (k, len, q) := by
  have hsound := parseStr_sound h
  rw [parseStr] at h ⊢
  split at h
  · cases h
  · next hp =>
    rw [if_neg (by rw [not_or] at hp ⊢; exact ⟨by omega, hp.2⟩)]
    cases hloop : decimalLoop mem stop sizeMax (stop - p) p 0 0 with
    | none => simp [hloop] at h
    | some r =>
      obtain ⟨s, len', digits⟩ := r
      simp only [hloop] at h
      split at h
      · cases h
      · next hcol =>
        split at h
        · cases h
        · next hroom =>
          simp only [Option.some.injEq, Prod.mk.injEq] at h
          obtain ⟨rfl, rfl, rfl⟩ := h
          rw [not_or] at hcol
          rw [decimalLoop_stable (by decide) (Nat.zero_le _) (by decide) hloop
            (by omega) (by omega)]
          simp only
          rw [if_neg (by rw [not_or]; exact ⟨by omega, hcol.2⟩), if_neg (by omega)]

/-- The decoder, wherever it stands before a value that ends by `ends`. -/
theorem beDecode_of_beSkip {mem : Memory} {ends p q : Nat}
    (h : beSkip mem ends (beMaxDepth + 1) p = some q) (out : BeNode) :
    (beDecode mem ends p out).ret = true ∧ (beDecode mem ends p out).p = q ∧
      (beDecode mem ends p out).out.span = (p, q) := by
  have hskip := beDecode_eq_beSkip mem ends p out
  simp only [h] at hskip
  obtain ⟨hret, hcur, hraw⟩ := hskip
  have hpq := (beSkip_sound beMaxDepth p h).1
  refine ⟨hret, hcur, ?_⟩
  rw [BeNode.span, (beDecode_out hret).1, hraw]
  congr 1
  omega

theorem raw_of_span {mem : Memory} {node : BeNode} {p q : Nat} (h : node.span = (p, q)) :
    node.raw mem = slice mem p (q - p) := by
  obtain ⟨rfl, rfl⟩ := Prod.mk.inj h
  rw [BeNode.raw, Nat.add_sub_cancel_left]

theorem slice_cut {mem : Memory} {p m q : Nat} (hpm : p ≤ m) (hmq : m ≤ q) :
    slice mem p (q - p) = slice mem p (m - p) ++ slice mem m (q - m) := by
  have hsum : q - p = (m - p) + (q - m) := by omega
  have hm : p + (m - p) = m := by omega
  rw [hsum, slice_add, hm]

section Walk

variable {mem : Memory} {stop ends : Nat} {skip : Nat → Option Nat}

/-- What the walks need of the skipping of children: it moves forward, and the same value
is stepped over by a fresh call below `ends`. -/
def Restartable (mem : Memory) (ends : Nat) (skip : Nat → Option Nat) : Prop :=
  ∀ p q, skip p = some q →
    p < q ∧ (q ≤ ends → beSkip mem ends (beMaxDepth + 1) p = some q)

theorem restartable_beSkip (mem : Memory) (stop ends : Nat) :
    Restartable mem ends (beSkip mem stop beMaxDepth) := by
  intro p q h
  exact ⟨(beSkip_sound 15 p h).1, beSkip_stable h (by decide)⟩

/-- `be_list_next` visits what the list branch stepped over and stops where it stopped. -/
theorem listWalk_of_skipItems (restart : Restartable mem ends skip) (fuel p : Nat) {r : Nat}
    (h : skipItems mem stop skip fuel p = some r) (closing : mem r = letterE) (below : r ≤ ends)
    (steps : Nat) (item : BeNode) (enough : r - p < steps) :
    p ≤ r ∧ ∃ items, listWalk mem ends steps p item = some (items, r) ∧
      items.map BeNode.span = skippedItems mem stop skip fuel p ∧
      (items.map (BeNode.raw mem)).flatten = slice mem p (r - p) := by
  induction fuel generalizing p steps item with
  | zero => cases h
  | succ fuel ih =>
    obtain ⟨steps, rfl⟩ := Nat.exists_eq_succ_of_ne_zero (by omega : steps ≠ 0)
    rw [skipItems] at h
    rw [skippedItems]
    split at h
    · next hc =>
      cases hs : skip p with
      | none => simp [hs] at h
      | some m =>
        simp only [hs] at h
        obtain ⟨hpm, hagain⟩ := restart p m hs
        have hmr : m ≤ r := (ih m h (r - m + 1) item (by omega)).1
        obtain ⟨hret, hcur, hspan⟩ := beDecode_of_beSkip (hagain (by omega)) item
        obtain ⟨-, items, hwalk, hspans, hflat⟩ :=
          ih m h steps (beDecode mem ends p item).out (by omega)
        have hnext : beListNext mem ends p item = beDecode mem ends p item := by
          rw [beListNext, if_neg (by rw [not_or]; exact ⟨by omega, hc.2⟩)]
        refine ⟨by omega, (beDecode mem ends p item).out :: items, ?_, ?_, ?_⟩
        · simp [listWalk, hnext, hret, hcur, hwalk]
        · simp [hc, hspan, hspans]
        · rw [List.map_cons, List.flatten_cons, hflat, raw_of_span hspan,
            ← slice_cut (Nat.le_of_lt hpm) hmr]
    · next hc =>
      obtain rfl := Option.some.inj h
      refine ⟨Nat.le_refl p, [], ?_, ?_, by simp [slice]⟩
      · simp [listWalk, beListNext, closing]
      · simp [hc]

/-- The same for the pairs of a dictionary. -/
theorem dictWalk_of_skipPairs (restart : Restartable mem ends skip) (fuel p : Nat) {r : Nat}
    (h : skipPairs mem stop skip fuel p = some r) (closing : mem r = letterE) (below : r ≤ ends)
    (steps : Nat) (val : BeNode) (enough : r - p < steps) :
    p ≤ r ∧ ∃ pairs, dictWalk mem ends steps p val = some (pairs, r) ∧
      pairs.map DictPair.span = skippedPairs mem stop skip fuel p ∧
      (pairs.map (DictPair.raw mem)).flatten = slice mem p (r - p) := by
  induction fuel generalizing p steps val with
  | zero => cases h
  | succ fuel ih =>
    obtain ⟨steps, rfl⟩ := Nat.exists_eq_succ_of_ne_zero (by omega : steps ≠ 0)
    rw [skipPairs] at h
    rw [skippedPairs]
    split at h
    · next hc =>
      cases hk : parseStr mem stop p with
      | none => simp [hk] at h
      | some key =>
        obtain ⟨k, len, m⟩ := key
        simp only [hk] at h
        cases hs : skip m with
        | none => simp [hs] at h
        | some m' =>
          simp only [hs] at h
          obtain ⟨hpm, -⟩ := parseStr_sound hk
          obtain ⟨hmm, hagain⟩ := restart m m' hs
          have hmr : m' ≤ r := (ih m' h (r - m' + 1) val (by omega)).1
          obtain ⟨hret, hcur, hspan⟩ := beDecode_of_beSkip (hagain (by omega)) val
          obtain ⟨-, pairs, hwalk, hspans, hflat⟩ :=
            ih m' h steps (beDecode mem ends m val).out (by omega)
          obtain ⟨hbuf, hend⟩ := Prod.mk.inj hspan
          have hnext : beDictNext mem ends p val =
              (true, m', k, len, (beDecode mem ends m val).out) := by
            rw [beDictNext, if_neg (by rw [not_or]; exact ⟨by omega, hc.2⟩),
              parseStr_stable hk (by omega)]
            simp [hret, hcur]
          refine ⟨by omega, ⟨p, k, len, (beDecode mem ends m val).out⟩ :: pairs, ?_, ?_, ?_⟩
          · simp [dictWalk, hnext, hwalk]
          · have hpair : DictPair.span ⟨p, k, len, (beDecode mem ends m val).out⟩ = (p, m, m') := by
              simp only [DictPair.span]
              rw [hend, hbuf]
            simp [hc, hs, hspans, hpair]
          · rw [List.map_cons, List.flatten_cons, hflat, DictPair.raw, raw_of_span hspan, hbuf,
              ← slice_cut (Nat.le_of_lt hpm) (Nat.le_of_lt hmm), ← slice_cut (by omega) hmr]
    · next hc =>
      obtain rfl := Option.some.inj h
      refine ⟨Nat.le_refl p, [], ?_, ?_, by simp [slice]⟩
      · simp [dictWalk, beDictNext, closing]
      · simp [hc]

end Walk

/-- The cursor, the key and the place of the value do not depend on what the node held
before. -/
theorem beDictNext_blank {mem : Memory} {stop p : Nat} {val : BeNode} {ret : Bool}
    {q k kl : Nat} {v : BeNode} (h : beDictNext mem stop p val = (ret, q, k, kl, v)) :
    ∃ w, beDictNext mem stop p BeNode.blank = (ret, q, k, kl, w) ∧
      (ret = true → w = (beDecode mem stop v.buf BeNode.blank).out ∧ w.span = v.span) := by
  rw [beDictNext] at h ⊢
  split at h
  · next hstop =>
    rw [if_pos hstop]
    cases h
    exact ⟨_, rfl, by simp⟩
  · next hgo =>
    rw [if_neg hgo]
    cases hk : parseStr mem stop p with
    | none =>
      simp only [hk] at h ⊢
      cases h
      exact ⟨_, rfl, by simp⟩
    | some key =>
      obtain ⟨k', len, m⟩ := key
      simp only [hk, Prod.mk.injEq] at h ⊢
      obtain ⟨hret, hcur, rfl, rfl, rfl⟩ := h
      have hval := beDecode_eq_beSkip mem stop m val
      have hblank := beDecode_eq_beSkip mem stop m BeNode.blank
      cases hs : beSkip mem stop (beMaxDepth + 1) m with
      | none =>
        simp only [hs] at hval hblank
        refine ⟨_, ⟨hblank.1.trans (hval.1.symm.trans hret),
          hblank.2.trans (hval.2.symm.trans hcur), rfl, rfl, rfl⟩, fun htrue => ?_⟩
        rw [← hret, hval.1] at htrue
        cases htrue
      | some e =>
        simp only [hs] at hval hblank
        refine ⟨_, ⟨hblank.1.trans (hval.1.symm.trans hret),
          hblank.2.1.trans (hval.2.1.symm.trans hcur), rfl, rfl, rfl⟩, fun _ => ⟨?_, ?_⟩⟩
        · rw [(beDecode_out hval.1).1]
        · rw [(beDecode_of_beSkip hs BeNode.blank).2.2, (beDecode_of_beSkip hs val).2.2]

/-- `be_dict_get` finds the first pair of the walk with its key. -/
theorem dictGetLoop_of_dictWalk {mem : Memory} {stop : Nat} (key : List UInt8) (fuel p : Nat)
    (val : BeNode) {pairs : List DictPair} {r : Nat}
    (h : dictWalk mem stop fuel p val = some (pairs, r)) :
    dictGetLoop mem stop key fuel p =
      (pairs.find? (fun x => x.keyBytes mem = key)).map
        (fun x => (beDecode mem stop x.val.buf BeNode.blank).out) := by
  induction fuel generalizing p val pairs with
  | zero => cases h
  | succ fuel ih =>
    rw [dictWalk] at h
    rw [dictGetLoop]
    split at h
    · next q rest hnext =>
      obtain ⟨k, kl, v⟩ := rest
      obtain ⟨w, hblank, -⟩ := beDictNext_blank hnext
      simp only [Option.some.injEq, Prod.mk.injEq] at h
      obtain ⟨rfl, -⟩ := h
      simp [hblank]
    · next q k kl v hnext =>
      obtain ⟨w, hblank, hw⟩ := beDictNext_blank hnext
      obtain ⟨⟨rest, r'⟩, hrest, hcons⟩ := Option.map_eq_some_iff.mp h
      simp only [Prod.mk.injEq] at hcons
      obtain ⟨rfl, rfl⟩ := hcons
      have hkey : (kl = key.length ∧ slice mem k kl = key) ↔ slice mem k kl = key :=
        ⟨fun hboth => hboth.2, fun heq => ⟨by rw [← heq, slice_length], heq⟩⟩
      simp only [hblank, hkey]
      split
      · next heq => simp [DictPair.keyBytes, heq, (hw rfl).1]
      · next hne =>
        rw [ih q v hrest]
        simp [DictPair.keyBytes, hne]

theorem beDecode_letter {mem : Memory} {stop p : Nat} {out : BeNode}
    (h : (beDecode mem stop p out).ret = true) :
    ((beDecode mem stop p out).out.type = .list → mem p = letterL) ∧
      ((beDecode mem stop p out).out.type = .dict → mem p = letterD) := by
  rw [beDecode] at h ⊢
  split at h
  · cases h
  · next hp =>
    rw [if_neg hp]
    split at h
    · next hi =>
      rw [if_pos hi]
      cases parseInt mem stop p <;> simp
    · next hi =>
      rw [if_neg hi]
      split at h
      · next hd =>
        rw [if_pos hd]
        cases parseStr mem stop p <;> simp
      · next hd =>
        rw [if_neg hd]
        split at h
        · next hl =>
          rw [if_pos hl]
          cases beSkip mem stop (beMaxDepth + 1) p <;> simp [hl]
        · next hl =>
          rw [if_neg hl]
          split at h
          · next hc =>
            rw [if_pos hc]
            cases beSkip mem stop (beMaxDepth + 1) p <;> simp [hc]
          · cases h

theorem beSkip_of_beDecode {mem : Memory} {stop p : Nat} {out : BeNode}
    (h : (beDecode mem stop p out).ret = true) :
    ∃ q, beSkip mem stop (beMaxDepth + 1) p = some q := by
  have hskip := beDecode_eq_beSkip mem stop p out
  cases hs : beSkip mem stop (beMaxDepth + 1) p with
  | none => simp [hs, h] at hskip
  | some q => exact ⟨q, rfl⟩

theorem beSkip_forward (mem : Memory) (stop p q : Nat)
    (h : beSkip mem stop beMaxDepth p = some q) :
    p < q ∧ q ≤ stop ∧ Counted 15 (slice mem p (q - p)) :=
  beSkip_sound 15 p h

/-- A list node is what the list branch of `be_skip` stepped over. -/
theorem beDecode_list {mem : Memory} {stop p : Nat} {out : BeNode}
    (h : (beDecode mem stop p out).ret = true)
    (ht : (beDecode mem stop p out).out.type = .list) :
    ∃ r, skipItems mem stop (beSkip mem stop beMaxDepth) (stop - p) (p + 1) = some r ∧
      mem r = letterE ∧ p < r ∧ (beDecode mem stop p out).out.span = (p, r + 1) := by
  have hl := (beDecode_letter h).1 ht
  obtain ⟨q, hskip⟩ := beSkip_of_beDecode h
  have hspan := (beDecode_of_beSkip hskip out).2.2
  rw [beSkip] at hskip
  split at hskip
  · cases hskip
  · next hp =>
    rw [if_neg (by rw [hl]; decide), if_neg (by rw [hl]; decide)] at hskip
    obtain ⟨r, hr, hstop, rfl⟩ := closeContainer_eq_some hskip
    obtain ⟨hpr, -, hlast, -⟩ := skipItems_sound (beSkip_forward mem stop) _ _ (by omega) hr
    exact ⟨r, hr, hlast hstop, hpr, hspan⟩

/-- A dictionary node is what the dictionary branch stepped over. -/
theorem beDecode_dict {mem : Memory} {stop p : Nat} {out : BeNode}
    (h : (beDecode mem stop p out).ret = true)
    (ht : (beDecode mem stop p out).out.type = .dict) :
    ∃ r, skipPairs mem stop (beSkip mem stop beMaxDepth) (stop - p) (p + 1) = some r ∧
      mem r = letterE ∧ p < r ∧ (beDecode mem stop p out).out.span = (p, r + 1) := by
  have hd := (beDecode_letter h).2 ht
  obtain ⟨q, hskip⟩ := beSkip_of_beDecode h
  have hspan := (beDecode_of_beSkip hskip out).2.2
  rw [beSkip] at hskip
  split at hskip
  · cases hskip
  · next hp =>
    rw [if_neg (by rw [hd]; decide), if_neg (by rw [hd]; decide), if_neg (by rw [hd]; decide)]
      at hskip
    obtain ⟨r, hr, hstop, rfl⟩ := closeContainer_eq_some hskip
    obtain ⟨hpr, -, hlast, -⟩ := skipPairs_sound (beSkip_forward mem stop) _ _ (by omega) hr
    exact ⟨r, hr, hlast hstop, hpr, hspan⟩

/-- Walking a list node read from a buffer that ends at `stop`, with the end `ends`. -/
def ListAgrees (mem : Memory) (stop ends : Nat) (node item : BeNode) : Prop :=
  ∃ items,
    listWalk mem ends (ends - node.buf) (node.buf + 1) item =
      some (items, node.buf + node.rawLen - 1) ∧
    mem (node.buf + node.rawLen - 1) = letterE ∧
    items.map BeNode.span =
      skippedItems mem stop (beSkip mem stop beMaxDepth) (stop - node.buf) (node.buf + 1) ∧
    (items.map (BeNode.raw mem)).flatten = slice mem (node.buf + 1) (node.rawLen - 2)

/-- Walking a dictionary node, and looking keys up in it. -/
def DictAgrees (mem : Memory) (stop ends : Nat) (node val : BeNode) : Prop :=
  ∃ pairs,
    dictWalk mem ends (ends - node.buf) (node.buf + 1) val =
      some (pairs, node.buf + node.rawLen - 1) ∧
    mem (node.buf + node.rawLen - 1) = letterE ∧
    pairs.map DictPair.span =
      skippedPairs mem stop (beSkip mem stop beMaxDepth) (stop - node.buf) (node.buf + 1) ∧
    (pairs.map (DictPair.raw mem)).flatten = slice mem (node.buf + 1) (node.rawLen - 2) ∧
    ∀ key,
      beDictGet mem node.buf ends key =
        (pairs.find? (fun x => x.keyBytes mem = key)).map
          (fun x => (beDecode mem ends x.val.buf BeNode.blank).out) ∧
      (beDictGet mem node.buf ends key = none ↔ ∀ x ∈ pairs, x.keyBytes mem ≠ key)

/-- The numbers behind a node that spans from `p` to the byte after the closing letter. -/
theorem container_ends {node : BeNode} {p r ends : Nat} (hspan : node.span = (p, r + 1))
    (hends : ends = node.buf + node.rawLen ∨ ends = node.buf + node.rawLen - 1) :
    node.buf = p ∧ node.buf + node.rawLen - 1 = r ∧ node.rawLen - 2 = r - (p + 1) ∧
      r ≤ ends ∧ r - p ≤ ends - p := by
  obtain ⟨hbuf, hlast⟩ := Prod.mk.inj hspan
  rcases hends with rfl | rfl
  · exact ⟨hbuf, by omega, by omega, by omega, by omega⟩
  · exact ⟨hbuf, by omega, by omega, by omega, by omega⟩

theorem listAgrees_of_decode {mem : Memory} {stop p ends : Nat} {out node : BeNode}
    (h : (beDecode mem stop p out).ret = true) (hnode : node = (beDecode mem stop p out).out)
    (hends : ends = node.buf + node.rawLen ∨ ends = node.buf + node.rawLen - 1)
    (ht : node.type = .list) (item : BeNode) : ListAgrees mem stop ends node item := by
  subst hnode
  obtain ⟨r, hr, hclose, hpr, hspan⟩ := beDecode_list h ht
  obtain ⟨hbuf, hlast, hbody, hbelow, hroom⟩ := container_ends hspan hends
  obtain ⟨-, items, hwalk, hspans, hflat⟩ := listWalk_of_skipItems
    (restartable_beSkip mem stop ends) _ _ hr hclose hbelow (ends - p) item (by omega)
  rw [ListAgrees, hlast, hbody, hbuf]
  exact ⟨items, hwalk, hclose, hspans, hflat⟩

theorem dictAgrees_of_decode {mem : Memory} {stop p ends : Nat} {out node : BeNode}
    (h : (beDecode mem stop p out).ret = true) (hnode : node = (beDecode mem stop p out).out)
    (hends : ends = node.buf + node.rawLen ∨ ends = node.buf + node.rawLen - 1)
    (ht : node.type = .dict) (val : BeNode) : DictAgrees mem stop ends node val := by
  subst hnode
  obtain ⟨r, hr, hclose, hpr, hspan⟩ := beDecode_dict h ht
  obtain ⟨hbuf, hlast, hbody, hbelow, hroom⟩ := container_ends hspan hends
  obtain ⟨-, pairs, hwalk, hspans, hflat⟩ := dictWalk_of_skipPairs
    (restartable_beSkip mem stop ends) _ _ hr hclose hbelow (ends - p) val (by omega)
  have hget : ∀ key, beDictGet mem p ends key =
      (pairs.find? (fun x => x.keyBytes mem = key)).map
        (fun x => (beDecode mem ends x.val.buf BeNode.blank).out) := by
    intro key
    rw [beDictGet, if_neg (by
      rw [not_or, not_not]
      exact ⟨by omega, (beDecode_letter h).2 ht⟩)]
    exact dictGetLoop_of_dictWalk key _ _ val hwalk
  rw [DictAgrees, hlast, hbody, hbuf]
  refine ⟨pairs, hwalk, hclose, hspans, hflat, fun key => ⟨hget key, ?_⟩⟩
  rw [hget key, Option.map_eq_none_iff, List.find?_eq_none]
  simp

section InfoHash

open TorrentFile TorrentLayout

/-- The nodes a walk reports are where a fresh call decodes them. -/
theorem dictWalk_decoded {mem : Memory} {stop : Nat} (fuel p : Nat) (val : BeNode)
    {pairs : List DictPair} {r : Nat} (h : dictWalk mem stop fuel p val = some (pairs, r)) :
    ∀ x ∈ pairs, (beDecode mem stop x.val.buf BeNode.blank).out.span = x.val.span := by
  induction fuel generalizing p val pairs with
  | zero => cases h
  | succ fuel ih =>
    rw [dictWalk] at h
    split at h
    · simp only [Option.some.injEq, Prod.mk.injEq] at h
      simp [← h.1]
    · next q k kl v hnext =>
      obtain ⟨⟨rest, r'⟩, hrest, hcons⟩ := Option.map_eq_some_iff.mp h
      simp only [Prod.mk.injEq] at hcons
      obtain ⟨rfl, rfl⟩ := hcons
      intro x hx
      rcases List.mem_cons.mp hx with rfl | htail
      · obtain ⟨w, -, hw⟩ := beDictNext_blank hnext
        obtain ⟨hat, hspan⟩ := hw rfl
        rw [← hat, hspan]
      · exact ih q v hrest x htail

theorem metainfoParse_infoHash {sha1 : List UInt8 → List UInt8} {alloc : Alloc}
    {data : List UInt8} {mi : Metainfo} (h : metainfoParse sha1 alloc data = .ok mi) :
    ∃ root info, decodeRoot (memoryOf data) data.length = some root ∧
      findInfo (memoryOf data) root = some info ∧
      mi.infoHash = sha1 (info.raw (memoryOf data)) := by
  obtain ⟨root, info, m1, m2, m3, m4, m5, hroot, hinfo, h1, h2, h3, h4, h5, rfl⟩ :=
    metainfoParse_ok h
  refine ⟨root, info, hroot, hinfo, ?_⟩
  obtain ⟨-, -, e1⟩ := readName_ok h1
  obtain ⟨v2, -, -, -, e2⟩ := readPieceLength_ok h2
  obtain ⟨v3, -, -, e3⟩ := readPieces_ok h3
  obtain ⟨-, e4⟩ := readFiles_ok h4
  obtain ⟨e5, -⟩ := checkPieceCount_ok h5
  change m5.infoHash = _
  rw [e5, e4, e3, e2, e1, BeNode.raw]

theorem raw_congr {mem : Memory} {a b : BeNode} (h : a.span = b.span) : a.raw mem = b.raw mem := by
  obtain ⟨hbuf, hend⟩ := Prod.mk.inj h
  have hlen : a.rawLen = b.rawLen := by omega
  rw [BeNode.raw, BeNode.raw, hbuf, hlen]

/-- The pair of the root dictionary whose value is hashed, as the walk over the root sees
it: no pair before it has the same key. -/
theorem infoHash_of_first {sha1 : List UInt8 → List UInt8} {alloc : Alloc} {data : List UInt8}
    {mi : Metainfo} (h : metainfoParse sha1 alloc data = .ok mi) (val : BeNode) :
    ∃ root pairs first, decodeRoot (memoryOf data) data.length = some root ∧
      dictWalk (memoryOf data) (root.buf + root.rawLen) (root.buf + root.rawLen - root.buf)
        (root.buf + 1) val = some (pairs, root.buf + root.rawLen - 1) ∧
      pairs.find? (fun x => x.keyBytes (memoryOf data) = ascii ['i', 'n', 'f', 'o']) =
        some first ∧
      mi.infoHash = sha1 (first.val.raw (memoryOf data)) := by
  obtain ⟨root, info, hroot, hinfo, hhash⟩ := metainfoParse_infoHash h
  refine ⟨root, ?_⟩
  have hdecoded : (beDecode (memoryOf data) data.length 0 BeNode.blank).ret = true ∧
      (beDecode (memoryOf data) data.length 0 BeNode.blank).out.type = .dict ∧
      root = (beDecode (memoryOf data) data.length 0 BeNode.blank).out := by
    simp only [decodeRoot] at hroot
    split at hroot
    · next hok => exact ⟨hok.1, hok.2, (Option.some.inj hroot).symm⟩
    · cases hroot
  obtain ⟨hret, htype, hout⟩ := hdecoded
  obtain ⟨pairs, hwalk, -, -, -, hget⟩ := dictAgrees_of_decode hret hout
    (Or.inl rfl) (hout ▸ htype) val
  have hfound : beDictGet (memoryOf data) root.buf (root.buf + root.rawLen)
      (ascii ['i', 'n', 'f', 'o']) = some info := (Option.filter_eq_some_iff.mp hinfo).1
  rw [(hget _).1] at hfound
  obtain ⟨first, hfirst, hval⟩ := Option.map_eq_some_iff.mp hfound
  have hspan := dictWalk_decoded _ _ _ hwalk first (List.mem_of_find?_eq_some hfirst)
  rw [hval] at hspan
  exact ⟨pairs, first, hroot, hwalk, hfirst, by rw [hhash, raw_congr hspan]⟩

/-- Iterating over a container that was decoded, up to either end, visits the children
that were skipped and stops on the closing letter; a lookup finds the first pair with its
key; and the info hash of an accepted torrent is that of its first `info` value. -/
theorem iteration_agrees_with_skipping :
    (∀ (mem : Memory) (stop p : Nat) (out node : BeNode) (ends : Nat),
      (beDecode mem stop p out).ret = true → node = (beDecode mem stop p out).out →
      (ends = node.buf + node.rawLen ∨ ends = node.buf + node.rawLen - 1) →
        (node.type = .list → ∀ item, ListAgrees mem stop ends node item) ∧
        (node.type = .dict → ∀ val, DictAgrees mem stop ends node val)) ∧
    ∀ (sha1 : List UInt8 → List UInt8) (alloc : Alloc) (data : List UInt8) (mi : Metainfo)
      (val : BeNode), metainfoParse sha1 alloc data = .ok mi →
      ∃ root pairs first, decodeRoot (memoryOf data) data.length = some root ∧
        dictWalk (memoryOf data) (root.buf + root.rawLen) (root.buf + root.rawLen - root.buf)
          (root.buf + 1) val = some (pairs, root.buf + root.rawLen - 1) ∧
        pairs.find? (fun x => x.keyBytes (memoryOf data) = ascii ['i', 'n', 'f', 'o']) =
          some first ∧
        mi.infoHash = sha1 (first.val.raw (memoryOf data)) := by
  refine ⟨fun mem stop p out node ends hret hnode hends => ⟨?_, ?_⟩, ?_⟩
  · exact listAgrees_of_decode hret hnode hends
  · exact dictAgrees_of_decode hret hnode hends
  · intro sha1 alloc data mi val h
    exact infoHash_of_first h val

/-- The text `d1:ali7ee1:b2:xye`. -/
def smallDict : List UInt8 :=
  ascii ['d', '1', ':', 'a', 'l', 'i', '7', 'e', 'e', '1', ':', 'b', '2', ':', 'x', 'y', 'e']

theorem smallDict_agrees :
    let node := (beDecode (memoryOf smallDict) smallDict.length 0 BeNode.blank).out
    (∀ val, DictAgrees (memoryOf smallDict) smallDict.length (node.buf + node.rawLen) node val) ∧
      ∃ mi, metainfoParse (fun _ => twoFileDigest) ⟨true, true⟩ twoFileTorrent = .ok mi ∧
        ∃ root pairs first,
          decodeRoot (memoryOf twoFileTorrent) twoFileTorrent.length = some root ∧
          dictWalk (memoryOf twoFileTorrent) (root.buf + root.rawLen)
            (root.buf + root.rawLen - root.buf) (root.buf + 1) BeNode.blank =
              some (pairs, root.buf + root.rawLen - 1) ∧
          pairs.find? (fun x => x.keyBytes (memoryOf twoFileTorrent) =
            ascii ['i', 'n', 'f', 'o']) = some first ∧
          mi.infoHash = twoFileDigest := by
  refine ⟨?_, ?_⟩
  · exact (iteration_agrees_with_skipping.1 _ _ _ _ _ _ (by decide +kernel) rfl
      (Or.inl rfl)).2 (by decide +kernel)
  · obtain ⟨mi, hparse, -⟩ := twoFile_accepted
    exact ⟨mi, hparse, iteration_agrees_with_skipping.2 _ _ _ mi BeNode.blank hparse⟩

end InfoHash

end Bencode
