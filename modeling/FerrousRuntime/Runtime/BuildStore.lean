import FerrousRuntime.Contract.Policy
import FerrousRuntime.Host.FileSystem

/-! # Building the store of one run

`buildStore` follows the source check by check. What the builder is told is kept
as a record; what lies outside the crate (the host's files and environment, the
fallible calls into wasmtime) is one parameter.
-/
namespace FerrousRuntime.Runtime
open Capability Command Policy Host

/-- Errors of the engine and its guests. The epoch interrupt, the end of the fuel and the
trap of a full pipe are told apart, the others by their message. -/
inductive WasmtimeError
  | interrupt
  | outOfFuel
  | writeBeyondCapacity
  | other (message : String)
deriving DecidableEq, Repr

inductive RuntimeError
  | engine (source : WasmtimeError)
  | component (source : WasmtimeError)
  | command (source : CommandError)
  | wasi (source : WasmtimeError)
  | wrongMode
  | cancelled
deriving DecidableEq, Repr

structure WasiOutput where
  stdout : List UInt8
  stderr : List UInt8
  exitCode : ℤ
deriving DecidableEq, Repr

/-- An admitted component. The runs depend on one fact about it: whether one of
its core modules has a start function, which instantiation executes. -/
structure Component where
  hasStart : Bool
deriving DecidableEq, Repr

inductive Perms
  | read
  | all
deriving DecidableEq, Repr

structure Preopen where
  hostRoot : Path
  guestRoot : Path
  dirPerms : Perms
  filePerms : Perms
deriving DecidableEq, Repr

/-- The surroundings of a run: files, environment, and which calls into wasmtime
fail. -/
structure HostView where
  fs : FileSystem
  env : String → Option String
  preopenError : Path → Option WasmtimeError
  linkerError : Option WasmtimeError
  fuelError : Option WasmtimeError

/-- `/workspace` for the first grant, `/grant-{index}` for the others. -/
def guestRootFor (index : ℕ) : Path :=
  if index = 0 then ⟨true, [.normal (ascii "workspace")]⟩
  else ⟨true, [.normal (ascii ("grant-" ++ toString index))]⟩

def permsFor : FilesystemAccess → Perms
  | .read => .read
  | .readWrite => .all

structure Store where
  args : List String
  initialCwd : Path
  environment : List (String × String)
  network : NetworkPolicy
  preopens : List Preopen
  memoryBytes : ℕ
  fuel : ℕ
  epochTicks : ℕ
deriving DecidableEq

/-- The loop over the granted filesystems: open each root, and translate the
working directory through the first grant that can. -/
def openGrants (host : HostView) (cwd : Path) : ℕ → List FilesystemGrant →
    Except RuntimeError (List Preopen × Option Path)
  | _, [] => .ok ([], none)
  | index, filesystem :: rest =>
    match canonicalize host.fs filesystem.root with
    | none => .error (.command (.workingDirectoryDenied filesystem.root))
    | some hostRoot =>
      match host.preopenError hostRoot with
      | some error => .error (.wasi error)
      | none =>
        (openGrants host cwd (index + 1) rest).map (fun opened =>
          (⟨hostRoot, guestRootFor index, permsFor filesystem.access, permsFor filesystem.access⟩ ::
              opened.1,
            (filesystem.guestPathFor cwd (guestRootFor index)).or opened.2))

def buildStore (host : HostView) (request : CommandRequest) : Except RuntimeError Store :=
  match request.validate with
  | .error error => .error (.command error)
  | .ok () =>
    if request.mode != .wasi then .error .wrongMode
    else if !allowsExistingPath host.fs request.grant request.cwd then
      .error (.command (.workingDirectoryDenied request.cwd))
    else match openGrants host request.cwd 0 request.grant.filesystems with
      | .error error => .error error
      | .ok (preopens, cwdGuest) =>
        match host.linkerError, host.fuelError with
        | some error, _ => .error (.wasi error)
        | none, some error => .error (.wasi error)
        | none, none => .ok {
            args := request.args
            initialCwd := cwdGuest.getD (guestRootFor 0)
            environment := selectedEnvironment request.grant host.env
            network := NetworkPolicy.fromGrant request.grant
            preopens := preopens
            memoryBytes := request.grant.limits.maxMemoryBytes
            fuel := request.grant.limits.maxFuel
            epochTicks := request.grant.limits.epochTicks }

theorem openGrants_cons_eq_ok {host : HostView} {cwd : Path} {index : ℕ} {filesystem : FilesystemGrant}
    {rest : List FilesystemGrant} {opened : List Preopen × Option Path}
    (h : openGrants host cwd index (filesystem :: rest) = .ok opened) : ∃ hostRoot later,
      canonicalize host.fs filesystem.root = some hostRoot ∧ host.preopenError hostRoot = none ∧
      openGrants host cwd (index + 1) rest = .ok later ∧
      opened = (⟨hostRoot, guestRootFor index, permsFor filesystem.access, permsFor filesystem.access⟩ ::
          later.1, (filesystem.guestPathFor cwd (guestRootFor index)).or later.2) := by
  unfold openGrants at h
  split at h
  · cases h
  · rename_i hostRoot hroot
    split at h
    · cases h
    · rename_i hpreopen
      cases ho : openGrants host cwd (index + 1) rest with
      | error error =>
        rw [ho] at h
        cases h
      | ok later =>
        rw [ho] at h
        cases h
        exact ⟨hostRoot, later, hroot, hpreopen, rfl, rfl⟩

theorem openGrants_perms {host : HostView} {cwd : Path} {index : ℕ} {grants : List FilesystemGrant}
    {opened : List Preopen × Option Path} (h : openGrants host cwd index grants = .ok opened) :
    opened.1.map Preopen.dirPerms = grants.map (fun filesystem => permsFor filesystem.access) ∧
      opened.1.map Preopen.filePerms = grants.map (fun filesystem => permsFor filesystem.access) := by
  induction grants generalizing index opened with
  | nil =>
    cases h
    exact ⟨rfl, rfl⟩
  | cons filesystem rest ih =>
    obtain ⟨hostRoot, later, -, -, ho, rfl⟩ := openGrants_cons_eq_ok h
    obtain ⟨hdir, hfile⟩ := ih ho
    simp only [List.map_cons, hdir, hfile, and_self]

/-- The working directory is translated by the first granted filesystem that can. -/
theorem openGrants_cwd {host : HostView} {cwd : Path} {index : ℕ} {grants : List FilesystemGrant}
    {opened : List Preopen × Option Path} (h : openGrants host cwd index grants = .ok opened) :
    opened.2 = (grants.zipIdx index).findSome?
      (fun entry => entry.1.guestPathFor cwd (guestRootFor entry.2)) := by
  induction grants generalizing index opened with
  | nil =>
    cases h
    rfl
  | cons filesystem rest ih =>
    obtain ⟨hostRoot, later, -, -, ho, rfl⟩ := openGrants_cons_eq_ok h
    rw [List.zipIdx_cons, List.findSome?_cons, ← ih ho]
    cases filesystem.guestPathFor cwd (guestRootFor index) <;> rfl

theorem openGrants_error {host : HostView} {cwd : Path} {index : ℕ} {grants : List FilesystemGrant}
    {error : RuntimeError} (h : openGrants host cwd index grants = .error error) :
    (∃ source, error = .command source) ∨ ∃ source, error = .wasi source := by
  induction grants generalizing index with
  | nil => cases h
  | cons filesystem rest ih =>
    unfold openGrants at h
    split at h
    · cases h
      exact Or.inl ⟨_, rfl⟩
    · split at h
      · cases h
        exact Or.inr ⟨_, rfl⟩
      · cases ho : openGrants host cwd (index + 1) rest with
        | ok later =>
          rw [ho] at h
          cases h
        | error source =>
          rw [ho] at h
          cases h
          exact ih ho

theorem buildStore_error {host : HostView} {request : CommandRequest} {error : RuntimeError}
    (h : buildStore host request = .error error) : (error = .wrongMode ∧ request.mode ≠ .wasi) ∨
      (∃ source, error = .command source) ∨ ∃ source, error = .wasi source := by
  unfold buildStore at h
  split at h
  · cases h
    exact Or.inr (Or.inl ⟨_, rfl⟩)
  · split at h
    · rename_i hmode
      cases h
      exact Or.inl ⟨rfl, by simpa using hmode⟩
    · split at h
      · cases h
        exact Or.inr (Or.inl ⟨_, rfl⟩)
      · split at h
        · rename_i ho
          cases h
          exact Or.inr (openGrants_error ho)
        · split at h <;> cases h
          · exact Or.inr (Or.inr ⟨_, rfl⟩)
          · exact Or.inr (Or.inr ⟨_, rfl⟩)

theorem buildStore_eq_ok {host : HostView} {request : CommandRequest} {store : Store}
    (h : buildStore host request = .ok store) :
    request.validate = .ok () ∧ request.mode = .wasi ∧
      allowsExistingPath host.fs request.grant request.cwd = true ∧
      ∃ opened, openGrants host request.cwd 0 request.grant.filesystems = .ok opened ∧
        store = {
          args := request.args
          initialCwd := opened.2.getD (guestRootFor 0)
          environment := selectedEnvironment request.grant host.env
          network := NetworkPolicy.fromGrant request.grant
          preopens := opened.1
          memoryBytes := request.grant.limits.maxMemoryBytes
          fuel := request.grant.limits.maxFuel
          epochTicks := request.grant.limits.epochTicks } := by
  unfold buildStore at h
  split at h
  · cases h
  · rename_i hvalid
    split at h
    · cases h
    · rename_i hmode
      split at h
      · cases h
      · rename_i hcwd
        split at h
        · cases h
        · rename_i preopens cwdGuest hopened
          split at h <;> cases h
          exact ⟨hvalid, by simpa using hmode, by simpa using hcwd, ⟨preopens, cwdGuest⟩, hopened, rfl⟩

theorem buildStore_epochTicks {host : HostView} {request : CommandRequest} {store : Store}
    (h : buildStore host request = .ok store) :
    store.epochTicks = request.grant.limits.epochTicks := by
  obtain ⟨-, -, -, opened, -, rfl⟩ := buildStore_eq_ok h
  rfl

def sampleHost : HostView where
  fs := ⟨.ofList [([ascii "root"], .directory)] (by decide), 40, []⟩
  env := fun _ => none
  preopenError := fun _ => none
  linkerError := none
  fuelError := none

def sampleRequest (id : ℕ) (access : FilesystemAccess) (limits : ResourceLimits) : CommandRequest where
  id := id
  actor := .agent
  mode := .wasi
  program := "tool"
  args := []
  cwd := placePath [ascii "root"]
  grant := { CapabilityGrant.empty with
    filesystems := [⟨placePath [ascii "root"], access, by decide⟩]
    limits := limits }

example : (buildStore sampleHost (sampleRequest 1 .read defaultLimits)).toOption.map Store.initialCwd =
    some (guestRootFor 0) := by decide

end FerrousRuntime.Runtime
