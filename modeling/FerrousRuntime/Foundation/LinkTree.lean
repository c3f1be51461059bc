import Mathlib.Data.List.Basic

/-! # Path resolution in a tree with symbolic links

A tree assigns an entry to places, a place being the names that lead to it from
the root. Resolution walks a step list, restarts at a link's target, and gives up
after a bounded number of links. The two questions asked of it are where a path
ends when everything on it exists, and which place it names when its tail does
not exist yet.
-/
namespace FerrousRuntime.LinkTree
variable {N : Type*}

inductive Step (N : Type*)
  | here
  | up
  | down (name : N)
deriving DecidableEq

structure Link (N : Type*) where
  absolute : Bool
  steps : List (Step N)
deriving DecidableEq

inductive Entry (N : Type*)
  | file
  | directory
  | link (target : Link N)
deriving DecidableEq

/-- A directory tree: what exists below the root hangs off directories. -/
structure Tree (N : Type*) where
  entry : List N → Option (Entry N)
  root : entry [] = some .directory
  parent : ∀ place name, entry (place ++ [name]) ≠ none → entry place = some .directory

/-- Where a link-free walk stops, and what is left of it. -/
inductive Descent (N : Type*)
  | arrived (place : List N)
  | missing (place : List N) (name : N) (rest : List (Step N))
  | link (place : List N) (target : Link N) (rest : List (Step N))
  | blocked
deriving DecidableEq

section Walk
variable [DecidableEq N] (tree : Tree N)

def descend : List N → List (Step N) → Descent N
  | place, [] => .arrived place
  | place, step :: rest =>
    if tree.entry place ≠ some .directory then .blocked
    else match step with
      | .here => descend place rest
      | .up => descend place.dropLast rest
      | .down name =>
        match tree.entry (place ++ [name]) with
        | none => .missing place name rest
        | some (.link target) => .link place target rest
        | some _ => descend (place ++ [name]) rest

def Descent.andThen : Descent N → List (Step N) → Descent N
  | .arrived place, steps => descend tree place steps
  | .missing place name rest, steps => .missing place name (rest ++ steps)
  | .link place target rest, steps => .link place target (rest ++ steps)
  | .blocked, _ => .blocked

theorem descend_append (place : List N) (first second : List (Step N)) :
    descend tree place (first ++ second) = (descend tree place first).andThen tree second := by
  induction first generalizing place with
  | nil => rfl
  | cons step rest ih =>
    simp only [List.cons_append, descend]
    split
    · rfl
    · cases step with
      | here => exact ih _
      | up => exact ih _
      | down name =>
        dsimp only
        cases tree.entry (place ++ [name]) with
        | none => rfl
        | some entry =>
          cases entry with
          | link target => rfl
          | file => exact ih _
          | directory => exact ih _

/-- How a walk ends when every link is followed; `left` counts unused links. -/
inductive Resolution (N : Type*)
  | arrived (place : List N) (left : ℕ)
  | missing (place : List N) (name : N) (rest : List (Step N))
  | blocked
  | looping
deriving DecidableEq

def Link.start (target : Link N) (place : List N) : List N :=
  if target.absolute then [] else place

def resolve : ℕ → List N → List (Step N) → Resolution N
  | 0, place, steps =>
    match descend tree place steps with
    | .arrived last => .arrived last 0
    | .missing last name rest => .missing last name rest
    | .link _ _ _ => .looping
    | .blocked => .blocked
  | limit + 1, place, steps =>
    match descend tree place steps with
    | .arrived last => .arrived last (limit + 1)
    | .missing last name rest => .missing last name rest
    | .link last target rest => resolve limit (target.start last) (target.steps ++ rest)
    | .blocked => .blocked

def Resolution.andThen : Resolution N → List (Step N) → Resolution N
  | .arrived place left, steps => resolve tree left place steps
  | .missing place name rest, steps => .missing place name (rest ++ steps)
  | .blocked, _ => .blocked
  | .looping, _ => .looping

/-- Resolution is compositional: the links spent on the first part are gone for
the second. -/
theorem resolve_append (limit : ℕ) (place : List N) (first second : List (Step N)) :
    resolve tree limit place (first ++ second) =
      (resolve tree limit place first).andThen tree second := by
  induction limit generalizing place first with
  | zero =>
    simp only [resolve, descend_append]
    cases descend tree place first <;> simp [Descent.andThen, Resolution.andThen, resolve]
  | succ limit ih =>
    simp only [resolve, descend_append]
    cases hd : descend tree place first with
    | link last target rest =>
      simp only [Descent.andThen]
      rw [← List.append_assoc]
      exact ih _ _
    | arrived last => simp [Descent.andThen, Resolution.andThen, resolve]
    | missing => rfl
    | blocked => rfl

theorem resolve_nil (limit : ℕ) (place : List N) :
    resolve tree limit place [] = .arrived place limit := by
  cases limit <;> rfl

theorem arrived_of_append {limit left : ℕ} {place last : List N} {first second : List (Step N)}
    (h : resolve tree limit place (first ++ second) = .arrived last left) :
    ∃ mid midLeft, resolve tree limit place first = .arrived mid midLeft ∧
      resolve tree midLeft mid second = .arrived last left := by
  rw [resolve_append] at h
  cases hr : resolve tree limit place first with
  | arrived mid midLeft => exact ⟨mid, midLeft, rfl, by simpa [hr, Resolution.andThen] using h⟩
  | missing => simp [hr, Resolution.andThen] at h
  | blocked => simp [hr, Resolution.andThen] at h
  | looping => simp [hr, Resolution.andThen] at h

def Step.name? : Step N → Option N
  | .down name => some name
  | _ => none

/-- The place a walk names: where it arrives, or where its missing tail would be
created. No place is named when the tail climbs out of what does not exist. -/
def Resolution.place? : Resolution N → Option (List N)
  | .arrived place _ => some place
  | .missing place name rest => (rest.mapM Step.name?).map (fun names => place ++ name :: names)
  | .blocked => none
  | .looping => none

omit [DecidableEq N] in
theorem mapM_name_down (names : List N) : (names.map Step.down).mapM Step.name? = some names := by
  induction names with
  | nil => rfl
  | cons name rest ih =>
    simp only [List.map_cons, List.mapM_cons, Step.name?]
    rw [ih]
    rfl

theorem resolve_down {place : List N} (hdir : tree.entry place = some .directory)
    (limit : ℕ) (name : N) (rest : List (Step N)) :
    resolve tree limit place (.down name :: rest) =
      match tree.entry (place ++ [name]), limit with
      | none, _ => .missing place name rest
      | some (.link _), 0 => .looping
      | some (.link target), k + 1 => resolve tree k (target.start place) (target.steps ++ rest)
      | some .file, k => resolve tree k (place ++ [name]) rest
      | some .directory, k => resolve tree k (place ++ [name]) rest := by
  cases limit <;> simp only [resolve, descend, hdir, ne_eq, not_true_eq_false, if_false] <;>
    cases tree.entry (place ++ [name]) with
    | none => rfl
    | some entry => cases entry <;> rfl

theorem resolve_down_blocked {place : List N} (hdir : tree.entry place ≠ some .directory)
    (limit : ℕ) (step : Step N) (rest : List (Step N)) :
    resolve tree limit place (step :: rest) = .blocked := by
  cases limit <;> simp [resolve, descend, hdir]

/-- Past the last existing place the path is literal, unless the next name is a link. -/
theorem place_of_frontier {limit left : ℕ} {start place : List N} {before : List (Step N)}
    {name : N} {names : List N}
    (hbefore : resolve tree limit start before = .arrived place left)
    (hstop : ∀ last k, resolve tree limit start (before ++ [.down name]) ≠ .arrived last k)
    (hlink : ∀ target, tree.entry (place ++ [name]) ≠ some (.link target))
    {found : List N}
    (hfound : (resolve tree limit start (before ++ .down name :: names.map .down)).place? = some found) :
    found = place ++ name :: names := by
  have happ (tail : List (Step N)) : resolve tree limit start (before ++ tail) =
      resolve tree left place tail := by rw [resolve_append, hbefore]; rfl
  rw [happ] at hfound
  by_cases hdir : tree.entry place = some .directory
  · cases he : tree.entry (place ++ [name]) with
    | none =>
      rw [resolve_down tree hdir, he] at hfound
      simp only [Resolution.place?, mapM_name_down, Option.map_some, Option.some.injEq] at hfound
      exact hfound.symm
    | some entry =>
      have harrive : resolve tree left place [.down name] = .arrived (place ++ [name]) left := by
        rw [resolve_down tree hdir, he]
        cases entry with
        | file => exact resolve_nil tree _ _
        | directory => exact resolve_nil tree _ _
        | link target => exact absurd he (hlink target)
      exact absurd ((happ _).trans harrive) (hstop _ _)
  · rw [resolve_down_blocked tree hdir] at hfound
    cases hfound

end Walk

section Finite
variable [DecidableEq N]

def listed (entries : List (List N × Entry N)) (place : List N) : Option (Entry N) :=
  if place = [] then some .directory else (entries.find? (fun e => e.1 = place)).map Prod.snd

def Tree.ofList (entries : List (List N × Entry N))
    (h : ∀ e ∈ entries, listed entries e.1.dropLast = some .directory) : Tree N where
  entry := listed entries
  root := rfl
  parent place name hne := by
    have hp : place ++ [name] ≠ [] := by simp
    simp only [listed, hp, if_false, ne_eq, Option.map_eq_none_iff] at hne
    obtain ⟨e, he⟩ := Option.ne_none_iff_exists'.mp hne
    have hmem := List.mem_of_find?_eq_some he
    have hplace : e.1 = place ++ [name] := by simpa using List.find?_some he
    simpa [hplace] using h e hmem

end Finite

end FerrousRuntime.LinkTree
