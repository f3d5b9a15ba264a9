import Mathlib.Data.List.Basic

/-!
# Paths as texts

A path is a list of characters cut into components at a separator. Resolving it reads
the components from left to right: an empty component and a single dot stay where they
are, two dots leave the directory entered last, any other component is entered. The
stack of entered directories has the innermost one first.
-/

namespace LexicalPath

variable {α : Type} [DecidableEq α] (sep dot : α)

def components (path : List α) : List (List α) := path.splitOn sep

/-- One component. Above the root there is only the root; above the start of a path that
is not rooted the dots have to be kept. -/
def enter (rooted : Bool) (here : List (List α)) (component : List α) : List (List α) :=
  if component = [] ∨ component = [dot] then here
  else if component = [dot, dot] then
    match here with
    | [] => if rooted then [] else [[dot, dot]]
    | top :: below => if top = [dot, dot] then [dot, dot] :: top :: below else below
  else component :: here

def resolve (path : List α) : List (List α) :=
  (components sep path).foldl (enter dot (path.head? = some sep)) []

variable {sep dot}

theorem components_join (a b : List α) :
    components sep (a ++ sep :: b) = components sep a ++ components sep b :=
  List.splitOn_append_cons_self a b

theorem components_single {a : List α} (h : sep ∉ a) : components sep a = [a] :=
  List.splitOn_eq_singleton h

theorem suffix_enter {rooted : Bool} (here : List (List α)) {component : List α}
    (h : component ≠ [dot, dot]) : here <:+ enter dot rooted here component := by
  rw [enter.eq_def, if_neg h]
  split
  · exact List.suffix_rfl
  · exact List.suffix_cons _ _

/-- Without two dots nothing that was entered is left again. -/
theorem suffix_foldl_enter {rooted : Bool} (parts : List (List α)) (here : List (List α))
    (h : [dot, dot] ∉ parts) : here <:+ parts.foldl (enter dot rooted) here := by
  induction parts generalizing here with
  | nil => exact List.suffix_rfl
  | cons part rest ih =>
    have hpart : part ≠ [dot, dot] := fun e => h (e ▸ List.mem_cons_self)
    have hrest : [dot, dot] ∉ rest := fun e => h (List.mem_cons_of_mem _ e)
    exact (suffix_enter here hpart).trans (ih _ hrest)

/-- A relative part without two dots resolves to a place below the directory it is
appended to. -/
theorem resolve_suffix (dir : List α) {rel : List α} (h : [dot, dot] ∉ components sep rel) :
    resolve sep dot dir <:+ resolve sep dot (dir ++ sep :: rel) := by
  cases dir with
  | nil =>
    have hempty : resolve sep dot ([] : List α) = [] := by
      simp [resolve, components, enter]
    rw [hempty]
    exact List.nil_suffix
  | cons c rest =>
    have hcut : components sep (c :: (rest ++ sep :: rel)) =
        components sep (c :: rest) ++ components sep rel := components_join (c :: rest) rel
    simp only [resolve, List.cons_append, List.head?_cons]
    rw [hcut, List.foldl_append]
    exact suffix_foldl_enter _ _ h

end LexicalPath
