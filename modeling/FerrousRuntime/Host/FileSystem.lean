import FerrousRuntime.Foundation.LinkTree
import FerrousRuntime.Contract.Capability

/-! # The host file system and the path check that resolves links

`canonicalize` stands for `fs::canonicalize`: it resolves every link and fails
when a component does not exist. `canonicalizeWithExistingParent` is the loop of
the source over it.
-/
namespace FerrousRuntime.Host
open Capability LinkTree

/-- A snapshot of the host: its tree, the number of links a resolution may follow
and the directory relative paths start from. -/
structure FileSystem where
  tree : LinkTree.Tree OsStr
  linkLimit : ℕ
  currentDir : List OsStr

def stepOf : PathComponent → Step OsStr
  | .curDir => .here
  | .parentDir => .up
  | .normal name => .down name

def FileSystem.start (fs : FileSystem) (path : Path) : List OsStr :=
  if path.absolute then [] else fs.currentDir

def FileSystem.resolve (fs : FileSystem) (path : Path) : Resolution OsStr :=
  LinkTree.resolve fs.tree fs.linkLimit (fs.start path) (path.components.map stepOf)

def placePath (place : List OsStr) : Path := ⟨true, place.map .normal⟩

def canonicalize (fs : FileSystem) (path : Path) : Option Path :=
  match fs.resolve path with
  | .arrived place _ => some (placePath place)
  | _ => none

/-- The loop of `canonicalize_with_existing_parent`. `current` is kept last
component first; `suffix` holds the names popped so far in path order. -/
def canonicalizeLoop (fs : FileSystem) (absolute : Bool) :
    List PathComponent → List OsStr → Option Path
  | current, suffix =>
    match canonicalize fs ⟨absolute, current.reverse⟩ with
    | some resolved => some (suffix.foldl Path.push resolved)
    | none =>
      match current with
      | .normal fileName :: parent => canonicalizeLoop fs absolute parent (fileName :: suffix)
      | _ => none

def canonicalizeWithExistingParent (fs : FileSystem) (path : Path) : Option Path :=
  canonicalizeLoop fs path.absolute path.components.reverse []

def allowsExistingPath (fs : FileSystem) (grant : CapabilityGrant) (path : Path) : Bool :=
  if !grant.allowsPath path then false
  else match canonicalizeWithExistingParent fs path with
    | none => false
    | some resolvedPath =>
      grant.filesystems.any (fun filesystem =>
        match canonicalize fs filesystem.root with
        | none => false
        | some resolvedRoot => resolvedPath.startsWith resolvedRoot)

/-- The place an open or a create at the path acts on, every link followed, the
last component included, whether or not it exists yet. -/
def FileSystem.location (fs : FileSystem) (path : Path) : Option (List OsStr) :=
  (fs.resolve path).place?

def WithinGrant (fs : FileSystem) (grant : CapabilityGrant) (place : List OsStr) : Prop :=
  ∃ filesystem ∈ grant.filesystems, ∃ root, canonicalize fs filesystem.root = some (placePath root) ∧
    root <+: place

theorem canonicalize_eq_some {fs : FileSystem} {path resolved : Path} :
    canonicalize fs path = some resolved ↔
      ∃ place left, fs.resolve path = .arrived place left ∧ resolved = placePath place := by
  unfold canonicalize
  cases fs.resolve path <;> simp [eq_comm]

theorem canonicalize_eq_none {fs : FileSystem} {path : Path} :
    canonicalize fs path = none ↔ ∀ place left, fs.resolve path ≠ .arrived place left := by
  unfold canonicalize
  cases fs.resolve path <;> simp

theorem placePath_injective {first second : List OsStr} (h : placePath first = placePath second) :
    first = second := by
  have hc : first.map PathComponent.normal = second.map PathComponent.normal := congrArg Path.components h
  exact List.map_injective_iff.mpr (fun _ _ he => PathComponent.normal.inj he) hc

theorem foldl_push (place names : List OsStr) :
    names.foldl Path.push (placePath place) = placePath (place ++ names) := by
  induction names generalizing place with
  | nil => simp
  | cons name rest ih =>
    have hpush : Path.push (placePath place) name = placePath (place ++ [name]) := by
      simp [Path.push, placePath]
    rw [List.foldl_cons, hpush, ih, List.append_assoc, List.singleton_append]

theorem startsWith_placePath {place root : List OsStr} :
    (placePath place).startsWith (placePath root) = true ↔ root <+: place := by
  simp only [Path.startsWith, placePath, beq_self_eq_true, Bool.not_true, Bool.false_and,
    Bool.or_false, Bool.true_and, List.isPrefixOf_iff_prefix]
  constructor
  · rintro ⟨tail, ht⟩
    obtain ⟨names, more, hp, hn, -⟩ := List.map_eq_append_iff.mp ht.symm
    exact ⟨more, by rw [hp, List.map_injective_iff.mpr (fun _ _ he => PathComponent.normal.inj he) hn.symm]⟩
  · rintro ⟨tail, ht⟩
    exact ⟨tail.map .normal, by rw [← List.map_append, ht]⟩

theorem safe_components {path : Path} (h : isSafeAbsolutePath path = true) :
    path.absolute = true ∧ ∃ names : List OsStr, path.components = names.map .normal := by
  obtain ⟨habs, hall⟩ := Bool.and_eq_true_iff.mp h
  refine ⟨habs, ?_⟩
  clear h habs
  generalize path.components = components at hall
  induction components with
  | nil => exact ⟨[], rfl⟩
  | cons c rest ih =>
    obtain ⟨hc, hrest⟩ := by simpa only [List.all_cons, Bool.and_eq_true] using hall
    obtain ⟨names, hn⟩ := ih hrest
    cases c with
    | curDir => simp at hc
    | parentDir => simp at hc
    | normal name => exact ⟨name :: names, by rw [hn]; rfl⟩

theorem withinGrant_iff {fs : FileSystem} {grant : CapabilityGrant} {place : List OsStr} :
    WithinGrant fs grant place ↔
      grant.filesystems.any (fun filesystem =>
        match canonicalize fs filesystem.root with
        | none => false
        | some resolvedRoot => (placePath place).startsWith resolvedRoot) = true := by
  rw [List.any_eq_true]
  apply exists_congr
  intro filesystem
  apply and_congr_right
  intro _
  cases hr : canonicalize fs filesystem.root with
  | none => simp
  | some resolvedRoot =>
    obtain ⟨root, _, -, rfl⟩ := canonicalize_eq_some.mp hr
    rw [startsWith_placePath]
    constructor
    · rintro ⟨root', he, hp⟩
      rwa [placePath_injective (Option.some.inj he)]
    · intro hp
      exact ⟨root, rfl, hp⟩

instance (fs : FileSystem) (grant : CapabilityGrant) (place : List OsStr) :
    Decidable (WithinGrant fs grant place) := decidable_of_iff _ withinGrant_iff.symm

theorem allowsExistingPath_iff {fs : FileSystem} {grant : CapabilityGrant} {path : Path}
    {place : List OsStr} (h : canonicalizeWithExistingParent fs path = some (placePath place)) :
    allowsExistingPath fs grant path = true ↔
      grant.allowsPath path = true ∧ WithinGrant fs grant place := by
  unfold allowsExistingPath
  rw [h, withinGrant_iff]
  cases grant.allowsPath path <;> simp

end FerrousRuntime.Host
