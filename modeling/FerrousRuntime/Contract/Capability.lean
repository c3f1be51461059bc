import Mathlib.Data.Finset.Basic
import Mathlib.Data.Finset.Sort
import Mathlib.Data.String.Basic

/-! # Capability grants

The authority a command carries. Paths are kept as the component list the host's
`Path::components` yields, since every lexical check of the grant goes through it;
the component names are arbitrary bytes. The one call that gets the text itself is
`fs::canonicalize`, which fails on a file that is named with a trailing separator;
no such name is kept here. Roots and limits that their constructors reject cannot be
built.
-/
namespace FerrousRuntime.Capability

/-- `u64::MAX`, and `usize::MAX` on the 64-bit hosts. -/
def u64Max : ℕ := 2 ^ 64 - 1

theorem u64Max_pos : 0 < u64Max := by decide

abbrev OsStr := List UInt8

def ascii (text : String) : OsStr := text.toList.map (fun c => UInt8.ofNat c.toNat)

inductive PathComponent
  | curDir
  | parentDir
  | normal (name : OsStr)
deriving DecidableEq, Repr

structure Path where
  absolute : Bool
  components : List PathComponent
deriving DecidableEq, Repr

/-- `Path::starts_with`: whole components only, and every path starts with the
empty one. -/
def Path.startsWith (path base : Path) : Bool :=
  (path.absolute == base.absolute || (!base.absolute && base.components.isEmpty))
    && base.components.isPrefixOf path.components

def Path.stripPrefix (path base : Path) : Option Path :=
  if path.startsWith base then
    some ⟨path.absolute && !base.absolute, path.components.drop base.components.length⟩
  else none

def Path.push (path : Path) (name : OsStr) : Path :=
  ⟨path.absolute, path.components ++ [.normal name]⟩

def isSafeAbsolutePath (path : Path) : Bool :=
  path.absolute && path.components.all (fun c => c != .parentDir && c != .curDir)

inductive CapabilityError
  | invalidPath (path : Path)
  | invalidLimit (name : String)
  | invalidEnvironmentName (name : String)
  | invalidLoopbackPort (port : UInt16)
deriving DecidableEq, Repr

def validatePath (path : Path) : Except CapabilityError (PLift (isSafeAbsolutePath path = true)) :=
  if h : isSafeAbsolutePath path = true then .ok ⟨h⟩ else .error (.invalidPath path)

inductive FilesystemAccess
  | read
  | readWrite
deriving DecidableEq, Repr

/-- A granted root; the constructor only accepts lexically safe absolute roots. -/
structure FilesystemGrant where
  root : Path
  access : FilesystemAccess
  safe : isSafeAbsolutePath root = true
deriving DecidableEq

def FilesystemGrant.new (root : Path) (access : FilesystemAccess) :
    Except CapabilityError FilesystemGrant := do
  let safe ← validatePath root
  return ⟨root, access, safe.down⟩

def FilesystemGrant.allows (grant : FilesystemGrant) (path : Path) : Bool :=
  isSafeAbsolutePath path && path.startsWith grant.root

/-- The bytes that may follow in a UTF-8 sequence, as ranges. -/
def utf8Next (pending : List (UInt8 × UInt8)) (byte : UInt8) : Option (List (UInt8 × UInt8)) :=
  let tail := (0x80, 0xBF)
  match pending with
  | (low, high) :: rest => if low ≤ byte ∧ byte ≤ high then some rest else none
  | [] =>
    if byte ≤ 0x7F then some []
    else if 0xC2 ≤ byte ∧ byte ≤ 0xDF then some [tail]
    else if byte = 0xE0 then some [(0xA0, 0xBF), tail]
    else if byte = 0xED then some [(0x80, 0x9F), tail]
    else if 0xE1 ≤ byte ∧ byte ≤ 0xEF then some [tail, tail]
    else if byte = 0xF0 then some [(0x90, 0xBF), tail, tail]
    else if 0xF1 ≤ byte ∧ byte ≤ 0xF3 then some [tail, tail, tail]
    else if byte = 0xF4 then some [(0x80, 0x8F), tail, tail]
    else none

def isUtf8 (bytes : OsStr) : Bool := bytes.foldlM utf8Next [] = some []

def Path.toStr (path : Path) : Option Path :=
  if path.components.all (fun c => match c with | .normal name => isUtf8 name | _ => true) then some path
  else none

def FilesystemGrant.guestPathFor (grant : FilesystemGrant) (path guestRoot : Path) : Option Path :=
  if !grant.allows path then none
  else match path.stripPrefix grant.root with
    | none => none
    | some relative => Path.toStr ⟨guestRoot.absolute, guestRoot.components ++ relative.components⟩

/-- Limits of one session. Every constructor keeps each of them positive and
within its machine word. -/
structure ResourceLimits where
  maxOutputBytes : ℕ
  timeoutSeconds : ℕ
  maxMemoryBytes : ℕ
  maxFuel : ℕ
  output_pos : 0 < maxOutputBytes
  output_le : maxOutputBytes ≤ u64Max
  timeout_pos : 0 < timeoutSeconds
  timeout_le : timeoutSeconds ≤ u64Max
  memory_pos : 0 < maxMemoryBytes
  memory_le : maxMemoryBytes ≤ u64Max
  fuel_pos : 0 < maxFuel
  fuel_le : maxFuel ≤ u64Max
deriving DecidableEq

def defaultLimits : ResourceLimits where
  maxOutputBytes := 1048576
  timeoutSeconds := 30
  maxMemoryBytes := 64 * 1024 * 1024
  maxFuel := 1000000
  output_pos := by decide
  output_le := by decide
  timeout_pos := by decide
  timeout_le := by decide
  memory_pos := by decide
  memory_le := by decide
  fuel_pos := by decide
  fuel_le := by decide

/-- The check every constructor makes of a limit it is given. -/
def checkLimit (name : String) (value : ℕ) : Except CapabilityError (PLift (0 < value)) :=
  if h : value = 0 then .error (.invalidLimit name) else .ok ⟨Nat.pos_of_ne_zero h⟩

/-- `ResourceLimits::new`; the arguments are machine words. -/
def ResourceLimits.new (maxOutputBytes timeoutSeconds : ℕ) (hout : maxOutputBytes ≤ u64Max)
    (htime : timeoutSeconds ≤ u64Max) : Except CapabilityError ResourceLimits := do
  let output ← checkLimit "max_output_bytes" maxOutputBytes
  let timeout ← checkLimit "timeout_seconds" timeoutSeconds
  return { defaultLimits with
    maxOutputBytes := maxOutputBytes
    timeoutSeconds := timeoutSeconds
    output_pos := output.down
    output_le := hout
    timeout_pos := timeout.down
    timeout_le := htime }

def ResourceLimits.withFuel (limits : ResourceLimits) (maxFuel : ℕ) (hfuel : maxFuel ≤ u64Max) :
    Except CapabilityError ResourceLimits := do
  let fuel ← checkLimit "max_fuel" maxFuel
  return { limits with maxFuel := maxFuel, fuel_pos := fuel.down, fuel_le := hfuel }

def ResourceLimits.withUnlimitedFuel (limits : ResourceLimits) : ResourceLimits :=
  { limits with maxFuel := u64Max, fuel_pos := by decide, fuel_le := le_rfl }

def ResourceLimits.withMemoryBytes (limits : ResourceLimits) (maxMemoryBytes : ℕ)
    (hmem : maxMemoryBytes ≤ u64Max) : Except CapabilityError ResourceLimits := do
  let memory ← checkLimit "max_memory_bytes" maxMemoryBytes
  return { limits with maxMemoryBytes := maxMemoryBytes, memory_pos := memory.down, memory_le := hmem }

section Limits
variable {name : String} {value : ℕ} {error : CapabilityError}

theorem checkLimit_eq_ok (h : 0 < value) : checkLimit name value = .ok ⟨h⟩ := dif_neg h.ne'

theorem checkLimit_bind_error {α : Type} {next : PLift (0 < value) → Except CapabilityError α}
    (h : checkLimit name value >>= next = .error error) :
    value = 0 ∧ error = .invalidLimit name ∨ ∃ hpos, next ⟨hpos⟩ = .error error := by
  unfold checkLimit at h
  split at h
  · rename_i hzero
    cases h
    exact Or.inl ⟨hzero, rfl⟩
  · exact Or.inr ⟨_, h⟩

/-- The constructors build all limits that there are. -/
theorem ResourceLimits.built (limits : ResourceLimits) : (do
    let base ← ResourceLimits.new limits.maxOutputBytes limits.timeoutSeconds limits.output_le limits.timeout_le
    let fueled ← base.withFuel limits.maxFuel limits.fuel_le
    fueled.withMemoryBytes limits.maxMemoryBytes limits.memory_le) = .ok limits := by
  simp only [ResourceLimits.new, ResourceLimits.withFuel, ResourceLimits.withMemoryBytes,
    checkLimit_eq_ok limits.output_pos, checkLimit_eq_ok limits.timeout_pos, checkLimit_eq_ok limits.fuel_pos,
    checkLimit_eq_ok limits.memory_pos]
  rfl

/-- A constructor that refuses names a limit it was given as zero. -/
theorem ResourceLimits.refused (limits : ResourceLimits) {output timeout fuel memory : ℕ}
    (hout : output ≤ u64Max) (htime : timeout ≤ u64Max) (hfuel : fuel ≤ u64Max) (hmem : memory ≤ u64Max) :
    (ResourceLimits.new output timeout hout htime = .error error →
      output = 0 ∧ error = .invalidLimit "max_output_bytes" ∨
        timeout = 0 ∧ error = .invalidLimit "timeout_seconds") ∧
    (limits.withFuel fuel hfuel = .error error → fuel = 0 ∧ error = .invalidLimit "max_fuel") ∧
    (limits.withMemoryBytes memory hmem = .error error →
      memory = 0 ∧ error = .invalidLimit "max_memory_bytes") := by
  refine ⟨fun h => ?_, fun h => ?_, fun h => ?_⟩
  · rcases checkLimit_bind_error h with hrefused | ⟨_, h⟩
    · exact Or.inl hrefused
    · rcases checkLimit_bind_error h with hrefused | ⟨_, h⟩
      · exact Or.inr hrefused
      · cases h
  · rcases checkLimit_bind_error h with hrefused | ⟨_, h⟩
    · exact hrefused
    · cases h
  · rcases checkLimit_bind_error h with hrefused | ⟨_, h⟩
    · exact hrefused
    · cases h

end Limits

/-- `timeout_seconds().saturating_mul(10).max(1)`. -/
def ResourceLimits.epochTicks (limits : ResourceLimits) : ℕ :=
  max (min (limits.timeoutSeconds * 10) u64Max) 1

theorem ResourceLimits.epochTicks_pos (limits : ResourceLimits) : 0 < limits.epochTicks := by
  unfold ResourceLimits.epochTicks
  omega

/-- The complete authority of one command. The sets are the source's ordered
sets; iteration goes through their sorted lists. -/
structure CapabilityGrant where
  filesystems : List FilesystemGrant
  environment : Finset String
  loopbackPorts : Finset UInt16
  loopbackBindPorts : Finset UInt16
  nativeExecution : Bool
  limits : ResourceLimits
deriving DecidableEq

namespace CapabilityGrant

def empty : CapabilityGrant where
  filesystems := []
  environment := ∅
  loopbackPorts := ∅
  loopbackBindPorts := ∅
  nativeExecution := false
  limits := defaultLimits

def workspace (root : Path) (access : FilesystemAccess) : Except CapabilityError CapabilityGrant := do
  let filesystem ← FilesystemGrant.new root access
  return { empty with filesystems := [filesystem] }

/-- `char::is_whitespace`, on the code points Unicode marks as white space. -/
def isWhitespace (c : Char) : Bool :=
  c.toNat ∈ [0x9, 0xA, 0xB, 0xC, 0xD, 0x20, 0x85, 0xA0, 0x1680, 0x2028, 0x2029, 0x202F, 0x205F, 0x3000]
    || (0x2000 ≤ c.toNat && c.toNat ≤ 0x200A)

def allowEnvironment (grant : CapabilityGrant) (name : String) :
    Except CapabilityError CapabilityGrant :=
  if name.toList.isEmpty || name.toList.contains '='
      || name.toList.any (fun c => c == '\x00' || isWhitespace c) then
    .error (.invalidEnvironmentName name)
  else .ok { grant with environment := insert name grant.environment }

def allowLoopbackPort (grant : CapabilityGrant) (port : UInt16) :
    Except CapabilityError CapabilityGrant :=
  if port = 0 then .error (.invalidLoopbackPort port)
  else .ok { grant with loopbackPorts := insert port grant.loopbackPorts }

def allowLoopbackBindPort (grant : CapabilityGrant) (port : UInt16) :
    Except CapabilityError CapabilityGrant :=
  if port = 0 then .error (.invalidLoopbackPort port)
  else .ok { grant with loopbackBindPorts := insert port grant.loopbackBindPorts }

def allowNativeExecution (grant : CapabilityGrant) : CapabilityGrant :=
  { grant with nativeExecution := true }

def withLimits (grant : CapabilityGrant) (limits : ResourceLimits) : CapabilityGrant :=
  { grant with limits := limits }

/-- Lexical containment in one of the granted roots; no link is resolved. -/
def allowsPath (grant : CapabilityGrant) (path : Path) : Bool :=
  grant.filesystems.any (fun filesystem => filesystem.allows path)

def allowsNativeExecution (grant : CapabilityGrant) : Bool := grant.nativeExecution

theorem allowsPath_safe {grant : CapabilityGrant} {path : Path} (h : grant.allowsPath path = true) :
    isSafeAbsolutePath path = true := by
  obtain ⟨filesystem, -, hf⟩ := List.any_eq_true.mp h
  exact (Bool.and_eq_true_iff.mp hf).1

end CapabilityGrant

end FerrousRuntime.Capability
