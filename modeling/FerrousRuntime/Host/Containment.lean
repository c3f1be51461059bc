import FerrousRuntime.Host.FileSystem

/-! # What the link-resolving path check guarantees

The loop stops at the longest initial part of the path that exists with every
link followed. Beyond it the check treats the names literally. That is where the
path leads, except when the first name beyond is itself a link: its target does
not exist yet, so `fs::canonicalize` fails on it, but an open or a create follows it.
-/
namespace FerrousRuntime.Host
open Capability LinkTree

def plain (names : List OsStr) : Path := ⟨true, names.map .normal⟩

/-- The split of a plain path at its longest existing part. -/
structure Frontier (fs : FileSystem) (before beyond place : List OsStr) (left : ℕ) : Prop where
  arrived : fs.resolve (plain before) = .arrived place left
  stops : ∀ name rest, beyond = name :: rest → canonicalize fs (plain (before ++ [name])) = none

theorem resolve_plain (fs : FileSystem) (names : List OsStr) :
    fs.resolve (plain names) = LinkTree.resolve fs.tree fs.linkLimit [] (names.map .down) := by
  simp only [FileSystem.resolve, FileSystem.start, plain, if_true, List.map_map]
  rfl

theorem canonicalize_plain_prefix {fs : FileSystem} {first : List OsStr}
    (h : canonicalize fs (plain first) = none) (second : List OsStr) :
    canonicalize fs (plain (first ++ second)) = none := by
  rw [canonicalize_eq_none] at h ⊢
  intro place left he
  rw [resolve_plain, List.map_append] at he
  obtain ⟨mid, midLeft, hm, -⟩ := arrived_of_append fs.tree he
  exact h mid midLeft ((resolve_plain fs first).trans hm)

theorem exists_frontier (fs : FileSystem) (names : List OsStr) :
    ∃ before beyond place left, names = before ++ beyond ∧ Frontier fs before beyond place left := by
  induction names using List.reverseRecOn with
  | nil =>
    refine ⟨[], [], [], fs.linkLimit, rfl, ?_, ?_⟩
    · rw [resolve_plain]
      exact resolve_nil fs.tree _ _
    · rintro name rest ⟨⟩
  | append_singleton names last ih =>
    obtain ⟨before, beyond, place, left, hsplit, hf⟩ := ih
    cases hc : canonicalize fs (plain (names ++ [last])) with
    | some resolved =>
      obtain ⟨place', left', hr, -⟩ := canonicalize_eq_some.mp hc
      refine ⟨names ++ [last], [], place', left', by simp, hr, ?_⟩
      rintro name rest ⟨⟩
    | none =>
      refine ⟨before, beyond ++ [last], place, left, by rw [hsplit, List.append_assoc], hf.arrived, ?_⟩
      intro name rest hrest
      cases beyond with
      | nil =>
        obtain ⟨rfl, -⟩ := List.cons.inj hrest
        rw [List.append_nil] at hsplit
        rwa [← hsplit]
      | cons head tail =>
        obtain ⟨rfl, -⟩ := List.cons.inj hrest
        exact hf.stops head tail rfl

/-- The loop pops exactly the names beyond the frontier and puts them back. -/
theorem Frontier.loop {fs : FileSystem} {before beyond place : List OsStr} {left : ℕ}
    (hf : Frontier fs before beyond place left) (suffix : List OsStr) :
    canonicalizeLoop fs true ((before ++ beyond).map .normal).reverse suffix =
      some (placePath (place ++ beyond ++ suffix)) := by
  induction beyond using List.reverseRecOn generalizing suffix with
  | nil =>
    have hc : canonicalize fs ⟨true, (before.map PathComponent.normal).reverse.reverse⟩ =
        some (placePath place) := by
      rw [List.reverse_reverse]
      exact canonicalize_eq_some.mpr ⟨place, left, hf.arrived, rfl⟩
    unfold canonicalizeLoop
    simp only [List.append_nil, hc, foldl_push]
  | append_singleton beyond last ih =>
    have hnone : canonicalize fs (plain (before ++ (beyond ++ [last]))) = none := by
      obtain ⟨name, rest, hrest⟩ : ∃ name rest, beyond ++ [last] = name :: rest := by
        cases beyond <;> simp
      have hstop := canonicalize_plain_prefix (hf.stops name rest hrest) rest
      rw [hrest]
      simpa using hstop
    have hrest : Frontier fs before beyond place left := by
      refine ⟨hf.arrived, ?_⟩
      rintro name rest rfl
      exact hf.stops name (rest ++ [last]) rfl
    have hrev : ((before ++ (beyond ++ [last])).map PathComponent.normal).reverse =
        .normal last :: ((before ++ beyond).map PathComponent.normal).reverse := by simp
    unfold canonicalizeLoop
    rw [List.reverse_reverse]
    simp only [plain] at hnone
    simp only [hnone, hrev, ih hrest]
    simp

theorem Frontier.canonicalizeWithExistingParent {fs : FileSystem} {path : Path}
    {before beyond place : List OsStr} {left : ℕ} (hf : Frontier fs before beyond place left)
    (hpath : path = plain (before ++ beyond)) :
    canonicalizeWithExistingParent fs path = some (placePath (place ++ beyond)) := by
  subst hpath
  have hloop := hf.loop []
  rwa [List.append_nil] at hloop

/-- The first name of the path that does not canonicalize is a link, found in `dir`. -/
def DanglingLink (fs : FileSystem) (path : Path) (dir : List OsStr) (name : OsStr)
    (rest : List OsStr) : Prop :=
  ∃ before left target, path = plain (before ++ name :: rest) ∧
    Frontier fs before (name :: rest) dir left ∧
    fs.tree.entry (dir ++ [name]) = some (.link target)

/-- A lexically granted path whose dangling link lies inside a granted root and
leads to a place outside all of them. -/
def EscapesThroughLink (fs : FileSystem) (grant : CapabilityGrant) (path : Path) : Prop :=
  grant.allowsPath path = true ∧ ∃ dir name rest place,
    DanglingLink fs path dir name rest ∧ WithinGrant fs grant (dir ++ name :: rest) ∧
    fs.location path = some place ∧ ¬ WithinGrant fs grant place

/-- Without a dangling link the check and the resolution name the same place. -/
theorem Frontier.location {fs : FileSystem} {before beyond place found : List OsStr} {left : ℕ}
    (hf : Frontier fs before beyond place left)
    (hlink : ∀ name rest target, beyond = name :: rest →
      fs.tree.entry (place ++ [name]) ≠ some (.link target))
    (hfound : fs.location (plain (before ++ beyond)) = some found) : found = place ++ beyond := by
  have harr := hf.arrived
  rw [resolve_plain] at harr
  unfold FileSystem.location at hfound
  rw [resolve_plain] at hfound
  cases beyond with
  | nil =>
    rw [List.append_nil, harr] at hfound
    simpa [Resolution.place?] using hfound.symm
  | cons name rest =>
    rw [List.map_append, List.map_cons] at hfound
    refine place_of_frontier fs.tree harr ?_ (fun target => hlink name rest target rfl) hfound
    intro last k he
    have hstop := canonicalize_eq_none.mp (hf.stops name rest rfl) last k
    rw [resolve_plain, List.map_append] at hstop
    exact hstop he

/-- The check admits only paths that lead into a granted root, except through a
dangling link that lies in one and leads out of all. -/
theorem allowsExistingPath_contains_iff (fs : FileSystem) (grant : CapabilityGrant) (path : Path) :
    (allowsExistingPath fs grant path = true →
      ∀ place, fs.location path = some place → WithinGrant fs grant place) ↔
    ¬ EscapesThroughLink fs grant path := by
  constructor
  · rintro h ⟨hallow, dir, name, rest, place, ⟨before, left, target, hpath, hf, -⟩, hin, hloc, hout⟩
    have hparent := hf.canonicalizeWithExistingParent hpath
    exact hout (h ((allowsExistingPath_iff hparent).mpr ⟨hallow, hin⟩) place hloc)
  · intro hsafe hcheck place hloc
    have hallow : grant.allowsPath path = true := by
      by_contra hno
      simp [allowsExistingPath, hno] at hcheck
    obtain ⟨habs, names, hnames⟩ := safe_components (CapabilityGrant.allowsPath_safe hallow)
    obtain ⟨before, beyond, dir, left, hsplit, hf⟩ := exists_frontier fs names
    have hpath : path = plain (before ++ beyond) := by
      cases path
      simp only [plain, ← hsplit, Capability.Path.mk.injEq]
      exact ⟨habs, hnames⟩
    have hin := ((allowsExistingPath_iff (hf.canonicalizeWithExistingParent hpath)).mp hcheck).2
    by_cases hlink : ∃ name rest target, beyond = name :: rest ∧
        fs.tree.entry (dir ++ [name]) = some (.link target)
    · obtain ⟨name, rest, target, rfl, htarget⟩ := hlink
      by_contra hout
      exact hsafe ⟨hallow, dir, name, rest, place, ⟨before, left, target, hpath, hf, htarget⟩,
        hin, hloc, hout⟩
    · have hplace : place = dir ++ beyond := by
        refine hf.location ?_ (hpath ▸ hloc)
        intro name rest target hb he
        exact hlink ⟨name, rest, target, hb, he⟩
      exact hplace ▸ hin

def danglingTree : LinkTree.Tree OsStr :=
  LinkTree.Tree.ofList
    [([ascii "root"], .directory),
     ([ascii "outside"], .directory),
     ([ascii "root", ascii "link"],
       .link ⟨true, [.down (ascii "outside"), .down (ascii "new")]⟩)]
    (by decide)

def danglingHost : FileSystem := ⟨danglingTree, 40, []⟩

def rootGrant : CapabilityGrant :=
  { CapabilityGrant.empty with
    filesystems := [⟨plain [ascii "root"], .readWrite, by decide⟩] }

/-- The granted path `/root/link` passes the check and leads to `/outside/new`. -/
theorem dangling_link_passes_the_check :
    allowsExistingPath danglingHost rootGrant (plain [ascii "root", ascii "link"]) = true ∧
    danglingHost.location (plain [ascii "root", ascii "link"]) = some [ascii "outside", ascii "new"] ∧
    ¬ WithinGrant danglingHost rootGrant [ascii "outside", ascii "new"] := by
  decide

end FerrousRuntime.Host
