import Mathlib.Data.List.Basic
import Mathlib.Data.List.Induction

/-!
# Insertion sort by shifting

The sort keeps a sorted prefix. The next element is saved, the elements of the prefix that have
to stand behind it move one place back, and it goes into the hole. `swap y temp` says that `y`
has to stand behind `temp`.
-/

namespace ShiftSort

variable {α : Type} (swap : α → α → Bool)

/-- The hole is at the index. -/
def shiftLoop (temp : α) : Nat → List α → List α
  | 0, xs => xs.set 0 temp
  | j + 1, xs =>
    match xs[j]? with
    | some y => if swap y temp then shiftLoop temp j (xs.set (j + 1) y) else xs.set (j + 1) temp
    | none => xs

/-- The prefix ends before the index, and so many elements are left. -/
def sortLoop : Nat → Nat → List α → List α
  | 0, _, xs => xs
  | n + 1, i, xs =>
    match xs[i]? with
    | some temp => sortLoop n (i + 1) (shiftLoop swap temp i xs)
    | none => xs

def sort (xs : List α) : List α := sortLoop swap (xs.length - 1) 1 xs

/-- `swap` orders the elements up to those that it leaves where they are. -/
structure Orders : Prop where
  asymm : ∀ a b, swap a b = true → swap b a = false
  trans : ∀ a b c, swap a b = false → swap b c = false → swap a c = false

def same (x y : α) : Bool := !swap x y && !swap y x

def Sorted (xs : List α) : Prop := xs.Pairwise fun a b => swap a b = false

variable {swap}

/-- Where the saved element goes. -/
theorem shiftLoop_splits (temp x : α) (pre post : List α) :
    ∃ front moved, pre = front ++ moved ∧
      shiftLoop swap temp pre.length (pre ++ x :: post) = front ++ temp :: (moved ++ post) ∧
      (∀ y ∈ moved, swap y temp = true) ∧ ∀ y, front.getLast? = some y → swap y temp = false := by
  induction pre using List.reverseRecOn generalizing x post with
  | nil => exact ⟨[], [], rfl, rfl, nofun, nofun⟩
  | append_singleton pre y ih =>
    have hget : (pre ++ [y] ++ x :: post)[pre.length]? = some y := by simp
    have hset : ∀ z, (pre ++ [y] ++ x :: post).set (pre.length + 1) z =
      pre ++ [y] ++ z :: post := by
      intro z
      rw [List.set_append_right _ _ (by simp)]
      simp
    rw [List.length_append, List.length_singleton, shiftLoop, hget]
    simp only [hset]
    cases hswap : swap y temp with
    | false =>
      refine ⟨pre ++ [y], [], (List.append_nil _).symm, rfl, nofun, fun z hz => ?_⟩
      rw [List.getLast?_append, List.getLast?_singleton] at hz
      cases hz
      exact hswap
    | true =>
      obtain ⟨front, moved, hpre, hloop, hmoved, hfront⟩ := ih y (y :: post)
      refine ⟨front, moved ++ [y], ?_, ?_, ?_, hfront⟩
      · rw [hpre, List.append_assoc]
      · rw [if_pos rfl, List.append_assoc, List.singleton_append, hloop]
        simp
      · intro z hz
        rcases List.mem_append.mp hz with hz | hz
        · exact hmoved z hz
        · rw [List.mem_singleton.mp hz]
          exact hswap

/-- One turn: the prefix is longer by the saved element, which comes behind its equals. -/
theorem shiftLoop_spec (orders : Orders swap) (temp : α) (pre post : List α)
    (sorted : Sorted swap pre) :
    ∃ pre', shiftLoop swap temp pre.length (pre ++ temp :: post) = pre' ++ post ∧
      pre'.Perm (pre ++ [temp]) ∧ Sorted swap pre' ∧
      ∀ x, pre'.filter (same swap x) = (pre ++ [temp]).filter (same swap x) := by
  obtain ⟨front, moved, rfl, hloop, hmoved, hfront⟩ := @shiftLoop_splits _ swap temp temp pre post
  refine ⟨front ++ temp :: moved, by rw [hloop]; simp, ?_, ?_, ?_⟩
  · rw [List.append_assoc]
    exact List.Perm.append_left front (List.perm_append_singleton temp moved).symm
  · obtain ⟨hsorted, hback, hcross⟩ := List.pairwise_append.mp sorted
    refine List.pairwise_append.mpr ⟨hsorted, List.pairwise_cons.mpr ⟨fun y hy => ?_, hback⟩,
      fun a ha b hb => ?_⟩
    · exact orders.asymm y temp (hmoved y hy)
    · rcases List.mem_cons.mp hb with rfl | hb
      · obtain ⟨before, last, rfl⟩ :=
          List.eq_nil_or_concat front |>.resolve_left (List.ne_nil_of_mem ha)
        rw [List.concat_eq_append] at ha hsorted hfront
        have hlast := hfront last (by simp)
        rcases List.mem_append.mp ha with ha | ha
        · have hbefore := (List.pairwise_append.mp hsorted).2.2 a ha last
            (List.mem_singleton_self last)
          exact orders.trans a last b hbefore hlast
        · rw [List.mem_singleton.mp ha]
          exact hlast
      · exact hcross a ha b hb
  · intro x
    cases hsame : same swap x temp with
    | false =>
      rw [List.filter_append, List.filter_append, List.filter_append, List.filter_cons,
        List.filter_singleton, hsame]
      simp
    | true =>
      have hnone : moved.filter (same swap x) = [] := by
        refine List.filter_eq_nil_iff.mpr fun y hy hxy => ?_
        simp only [same, Bool.and_eq_true, Bool.not_eq_true'] at hsame hxy
        have hstays := orders.trans y x temp hxy.2 hsame.1
        rw [hmoved y hy] at hstays
        cases hstays
      rw [List.filter_append, List.filter_append, List.filter_append, List.filter_cons,
        List.filter_singleton, hsame, hnone]
      simp

/-- By induction on what is left: the prefix is sorted, and nothing is lost or changes its place
among its equals. -/
theorem sortLoop_spec (orders : Orders swap) (post : List α) (pre : List α)
    (sorted : Sorted swap pre) :
    (sortLoop swap post.length pre.length (pre ++ post)).Perm (pre ++ post) ∧
      Sorted swap (sortLoop swap post.length pre.length (pre ++ post)) ∧
      ∀ x, (sortLoop swap post.length pre.length (pre ++ post)).filter (same swap x) =
        (pre ++ post).filter (same swap x) := by
  induction post generalizing pre with
  | nil =>
    rw [List.append_nil]
    exact ⟨List.Perm.refl pre, sorted, fun _ => rfl⟩
  | cons temp post ih =>
    obtain ⟨pre', hturn, hperm, hsorted, hstable⟩ := shiftLoop_spec orders temp pre post sorted
    have hget : (pre ++ temp :: post)[pre.length]? = some temp := by simp
    have hlen : pre'.length = pre.length + 1 := by
      rw [hperm.length_eq, List.length_append, List.length_singleton]
    have hassoc : pre ++ temp :: post = pre ++ [temp] ++ post := by simp
    rw [List.length_cons, sortLoop, hget]
    simp only
    rw [hturn, ← hlen]
    obtain ⟨hperm', hsorted', hstable'⟩ := ih pre' hsorted
    refine ⟨?_, hsorted', fun x => ?_⟩
    · rw [hassoc]
      exact hperm'.trans (hperm.append_right post)
    · have hprefix := hstable x
      rw [hstable', hassoc, List.filter_append, hprefix, ← List.filter_append]

theorem sort_spec (orders : Orders swap) (xs : List α) :
    (sort swap xs).Perm xs ∧ Sorted swap (sort swap xs) ∧
      ∀ x, (sort swap xs).filter (same swap x) = xs.filter (same swap x) := by
  cases xs with
  | nil => exact ⟨List.Perm.refl [], List.Pairwise.nil, fun _ => rfl⟩
  | cons x xs => exact sortLoop_spec orders xs [x] (List.pairwise_singleton _ x)

/-- A relation within the classes can be read off the classes one by one. -/
theorem pairwise_same_iff (orders : Orders swap) {R : α → α → Prop} (xs : List α) :
    xs.Pairwise (fun a b => same swap a b = true → R a b) ↔
      ∀ x, (xs.filter (same swap x)).Pairwise R := by
  constructor
  · intro h x
    have hclass := h.filter (same swap x)
    refine hclass.imp_of_mem fun {a b} ha hb hab => hab ?_
    have hxa := (List.mem_filter.mp ha).2
    have hxb := (List.mem_filter.mp hb).2
    simp only [same, Bool.and_eq_true, Bool.not_eq_true'] at hxa hxb ⊢
    exact ⟨orders.trans a x b hxa.2 hxb.1, orders.trans b x a hxb.2 hxa.1⟩
  · intro h
    induction xs with
    | nil => exact List.Pairwise.nil
    | cons a xs ih =>
      refine List.pairwise_cons.mpr ⟨fun b hb hab => ?_, ih fun x => ?_⟩
      · have hself : same swap a a = true := by
          simp only [same, Bool.and_eq_true, Bool.not_eq_true'] at hab ⊢
          have htwice := orders.trans a b a hab.1 hab.2
          exact ⟨htwice, htwice⟩
        have hclass := h a
        rw [List.filter_cons_of_pos hself] at hclass
        exact (List.pairwise_cons.mp hclass).1 b (List.mem_filter.mpr ⟨hb, hab⟩)
      · exact (h x).sublist ((List.sublist_cons_self a xs).filter _)

/-- What is sorted has a finer order exactly if the equals had it before. -/
theorem sort_refines_iff (orders : Orders swap) {R : α → α → Prop} (xs : List α)
    (finer : ∀ a ∈ xs, ∀ b ∈ xs, swap b a = true → R a b) :
    (sort swap xs).Pairwise R ↔ xs.Pairwise (fun a b => same swap a b = true → R a b) := by
  obtain ⟨hperm, hsorted, hstable⟩ := sort_spec orders xs
  rw [pairwise_same_iff orders]
  constructor
  · intro h x
    rw [← hstable x]
    exact h.filter _
  · intro h
    have hclasses : (sort swap xs).Pairwise (fun a b => same swap a b = true → R a b) := by
      refine (pairwise_same_iff orders _).mpr fun x => ?_
      rw [hstable x]
      exact h x
    refine (hclasses.and hsorted).imp_of_mem fun {a b} ha hb hab => ?_
    cases hswap : swap b a with
    | true => exact finer a (hperm.mem_iff.mp ha) b (hperm.mem_iff.mp hb) hswap
    | false =>
      refine hab.1 ?_
      rw [same, hab.2, hswap]
      rfl

section Labels

variable {β : Type} (f : β → α)

theorem shiftLoop_map (temp : β) (j : Nat) (xs : List β) :
    (shiftLoop (fun a b => swap (f a) (f b)) temp j xs).map f =
      shiftLoop swap (f temp) j (xs.map f) := by
  induction j generalizing xs with
  | zero => exact List.map_set
  | succ j ih =>
    rw [shiftLoop, shiftLoop, List.getElem?_map]
    cases xs[j]? with
    | none => rfl
    | some y =>
      simp only [Option.map_some]
      split
      · rw [ih, List.map_set]
      · exact List.map_set

theorem sortLoop_map (n i : Nat) (xs : List β) :
    (sortLoop (fun a b => swap (f a) (f b)) n i xs).map f = sortLoop swap n i (xs.map f) := by
  induction n generalizing i xs with
  | zero => rfl
  | succ n ih =>
    rw [sortLoop, sortLoop, List.getElem?_map]
    cases xs[i]? with
    | none => rfl
    | some temp =>
      simp only [Option.map_some]
      rw [ih, shiftLoop_map]

/-- Labels move with what they are put on. -/
theorem sort_map (xs : List β) :
    (sort (fun a b => swap (f a) (f b)) xs).map f = sort swap (xs.map f) := by
  rw [sort, sortLoop_map, sort, List.length_map]

end Labels

end ShiftSort
