import Mathlib.Data.Set.Lattice
import Mathlib.Order.Bounds.Basic
import FerrousRuntime.Contract.Policy

/-! # The rights a grant stands for

A grant is a set of rights; its builder only adds to it. The classification of a request goes
through the grant reason by reason, and comes to the worst that one of the rights is worth.
-/
namespace FerrousRuntime.Policy
open Capability Command

inductive Right
  | native
  | read (root : Path)
  | write (root : Path)
  | connect (port : UInt16)
  | bind (port : UInt16)
  | environment (name : String)
deriving DecidableEq

/-- How much a risk weighs: the later the source would come to it, the less. -/
def Risk.weight : Risk → ℕ
  | .autoApprove => 0
  | .requiresApproval .environmentAccess => 1
  | .requiresApproval .networkAccess => 2
  | .requiresApproval .filesystemWrite => 3
  | .requiresApproval .nativeExecution => 4

theorem Risk.weight_injective : Function.Injective Risk.weight := by
  intro risk other h
  rcases risk with _ | reason <;> rcases other with _ | reason' <;> (try cases reason) <;>
    (try cases reason') <;> first | rfl | cases h

instance : LinearOrder Risk := LinearOrder.lift' Risk.weight Risk.weight_injective

theorem Risk.le_iff {risk other : Risk} : risk ≤ other ↔ risk.weight ≤ other.weight := Iff.rfl

def Right.risk : Right → Risk
  | .native => .requiresApproval .nativeExecution
  | .read _ => .autoApprove
  | .write _ => .requiresApproval .filesystemWrite
  | .connect _ | .bind _ => .requiresApproval .networkAccess
  | .environment _ => .requiresApproval .environmentAccess

def Holds (grant : CapabilityGrant) : Right → Prop
  | .native => grant.nativeExecution = true
  | .read root => ∃ filesystem ∈ grant.filesystems, filesystem.root = root
  | .write root => ∃ filesystem ∈ grant.filesystems, filesystem.root = root ∧ filesystem.access = .readWrite
  | .connect port => port ∈ grant.loopbackPorts
  | .bind port => port ∈ grant.loopbackBindPorts
  | .environment name => name ∈ grant.environment

def rightsOf (grant : CapabilityGrant) : Set Right := {right | Holds grant right}

@[simp] theorem mem_rightsOf {grant : CapabilityGrant} {right : Right} :
    right ∈ rightsOf grant ↔ Holds grant right := Iff.rfl

/-- A native request asks for native execution, whatever it is granted. -/
def demanded (mode : ExecutionMode) : Set Right := {right | right = .native ∧ mode = .native}

/-- The reasons in the order of the source, each with what the earlier ones leave out. -/
inductive Classified (rights : Set Right) : Risk → Prop
  | native : .native ∈ rights → Classified rights (.requiresApproval .nativeExecution)
  | write (root : Path) : .native ∉ rights → .write root ∈ rights →
    Classified rights (.requiresApproval .filesystemWrite)
  | network (right : Right) : .native ∉ rights → (∀ root, .write root ∉ rights) → right ∈ rights →
    right.risk = .requiresApproval .networkAccess → Classified rights (.requiresApproval .networkAccess)
  | environment (name : String) : .native ∉ rights → (∀ root, .write root ∉ rights) →
    (∀ port, .connect port ∉ rights ∧ .bind port ∉ rights) → .environment name ∈ rights →
    Classified rights (.requiresApproval .environmentAccess)
  | reading : (∀ right ∈ rights, right.risk = .autoApprove) → Classified rights .autoApprove

section Classification
variable {rights : Set Right} {risk : Risk}

theorem Classified.isLUB (h : Classified rights risk) : IsLUB (Right.risk '' rights) risk := by
  -- the reason that matched is a right's, and every right of a heavier kind is left out
  refine ⟨?_, fun bound hbound => ?_⟩
  · rintro _ ⟨right, hright, rfl⟩
    rw [Risk.le_iff]
    cases h with
    | reading hall => rw [hall right hright]
    | native | write | network | environment =>
      cases right <;> first | (simp only [Right.risk, Risk.weight]; omega) | simp_all
  · cases h with
    | native hin => exact hbound ⟨_, hin, rfl⟩
    | write root _ hin => exact hbound ⟨_, hin, rfl⟩
    | network right _ _ hin hrisk => exact hrisk ▸ hbound ⟨right, hin, rfl⟩
    | environment name _ _ _ hin => exact hbound ⟨_, hin, rfl⟩
    | reading => exact Risk.le_iff.mpr (Nat.zero_le _)

theorem classifyRisk_classified (request : CommandRequest) :
    Classified (demanded request.mode ∪ rightsOf request.grant) (classifyRisk request) := by
  have hwrite (hno : ¬ request.grant.filesystems.any (fun filesystem => filesystem.access == .readWrite) = true) :
      ∀ root, .write root ∉ demanded request.mode ∪ rightsOf request.grant := by
    rintro root (hin | ⟨filesystem, hf, -, haccess⟩)
    · cases hin.1
    · exact hno (List.any_eq_true.mpr ⟨filesystem, hf, by simp [haccess]⟩)
  unfold classifyRisk
  split_ifs with hnative hany hports henv
  · rcases (Bool.or_eq_true _ _).mp hnative with hmode | hgranted
    · exact .native (Or.inl ⟨rfl, beq_iff_eq.mp hmode⟩)
    · exact .native (Or.inr hgranted)
  all_goals
    have hnative : .native ∉ demanded request.mode ∪ rightsOf request.grant := by
      rintro (hin | hin)
      · exact hnative (by simp [hin.2])
      · exact hnative (by simp [CapabilityGrant.allowsNativeExecution, show _ = true from hin])
  · obtain ⟨filesystem, hf, haccess⟩ := List.any_eq_true.mp hany
    exact .write filesystem.root hnative (Or.inr ⟨filesystem, hf, rfl, beq_iff_eq.mp haccess⟩)
  · rcases hports with hports | hports
    all_goals obtain ⟨port, hport⟩ := Finset.nonempty_iff_ne_empty.mpr hports
    · exact .network (.connect port) hnative (hwrite hany) (Or.inr hport) rfl
    · exact .network (.bind port) hnative (hwrite hany) (Or.inr hport) rfl
  all_goals
    rw [not_or, not_not, not_not] at hports
    have hnetwork : ∀ port, .connect port ∉ demanded request.mode ∪ rightsOf request.grant ∧
        .bind port ∉ demanded request.mode ∪ rightsOf request.grant := by
      intro port
      simp [demanded, Holds, hports]
  · obtain ⟨name, hname⟩ := Finset.nonempty_iff_ne_empty.mpr henv
    exact .environment name hnative (hwrite hany) hnetwork (Or.inr hname)
  · refine .reading (fun right hright => ?_)
    cases right with
    | native => exact absurd hright hnative
    | read root => rfl
    | write root => exact absurd hright (hwrite hany root)
    | connect port => exact absurd hright (hnetwork port).1
    | bind port => exact absurd hright (hnetwork port).2
    | environment name =>
      rcases hright with hin | hin
      · cases hin.1
      · rw [not_not] at henv
        simp [Holds, henv] at hin

end Classification

inductive BuilderCall
  | allowEnvironment (name : String)
  | allowLoopbackPort (port : UInt16)
  | allowLoopbackBindPort (port : UInt16)
  | allowNativeExecution
  | withLimits (limits : ResourceLimits)

namespace BuilderCall

def apply (grant : CapabilityGrant) : BuilderCall → Except CapabilityError CapabilityGrant
  | .allowEnvironment name => grant.allowEnvironment name
  | .allowLoopbackPort port => grant.allowLoopbackPort port
  | .allowLoopbackBindPort port => grant.allowLoopbackBindPort port
  | .allowNativeExecution => .ok grant.allowNativeExecution
  | .withLimits limits => .ok (grant.withLimits limits)

def rights : BuilderCall → Set Right
  | .allowEnvironment name => {.environment name}
  | .allowLoopbackPort port => {.connect port}
  | .allowLoopbackBindPort port => {.bind port}
  | .allowNativeExecution => {.native}
  | .withLimits _ => ∅

end BuilderCall

def build (grant : CapabilityGrant) : List BuilderCall → Except CapabilityError CapabilityGrant
  | [] => .ok grant
  | call :: rest => (call.apply grant).bind (fun next => build next rest)

section Builder
variable {grant next built : CapabilityGrant} {call : BuilderCall} {calls calls' : List BuilderCall}

/-- A workspace is the base with one root; a root that is not safe is refused by name. -/
theorem workspace_rights {root : Path} {access : FilesystemAccess} {error : CapabilityError} :
    (CapabilityGrant.workspace root access = .ok grant → isSafeAbsolutePath root = true ∧
      rightsOf grant = {right | right = .read root ∨ right = .write root ∧ access = .readWrite}) ∧
    (CapabilityGrant.workspace root access = .error error →
      isSafeAbsolutePath root = false ∧ error = .invalidPath root) := by
  unfold CapabilityGrant.workspace FilesystemGrant.new validatePath
  by_cases hsafe : isSafeAbsolutePath root = true
  · rw [dif_pos hsafe]
    refine ⟨fun h => ⟨hsafe, ?_⟩, fun h => by cases h⟩
    cases h
    ext right
    cases right <;> simp [Holds, CapabilityGrant.empty, eq_comm]
  · rw [dif_neg hsafe]
    refine ⟨fun h => (by cases h), fun h => ?_⟩
    cases h
    exact ⟨by simpa using hsafe, rfl⟩

/-- A call that is accepted adds the rights it names, and nothing else. -/
theorem apply_rights (h : call.apply grant = .ok next) : rightsOf next = rightsOf grant ∪ call.rights := by
  ext right
  cases call with
  | allowEnvironment name =>
    simp only [BuilderCall.apply, CapabilityGrant.allowEnvironment] at h
    split at h <;> cases h
    cases right <;> simp [Holds, BuilderCall.rights]
  | allowLoopbackPort port =>
    simp only [BuilderCall.apply, CapabilityGrant.allowLoopbackPort] at h
    split at h <;> cases h
    cases right <;> simp [Holds, BuilderCall.rights]
  | allowLoopbackBindPort port =>
    simp only [BuilderCall.apply, CapabilityGrant.allowLoopbackBindPort] at h
    split at h <;> cases h
    cases right <;> simp [Holds, BuilderCall.rights]
  | allowNativeExecution =>
    cases h
    cases right <;> simp [Holds, BuilderCall.rights, CapabilityGrant.allowNativeExecution]
  | withLimits limits =>
    cases h
    cases right <;> simp [Holds, BuilderCall.rights, CapabilityGrant.withLimits]

/-- A call is accepted or refused for what it names, whatever was granted before. -/
theorem apply_accepted (h : call.apply grant = .ok next) (other : CapabilityGrant) :
    ∃ next', call.apply other = .ok next' := by
  cases call with
  | allowEnvironment name =>
    simp only [BuilderCall.apply, CapabilityGrant.allowEnvironment] at h ⊢
    split at h
    · cases h
    · rename_i hname
      exact ⟨_, if_neg hname⟩
  | allowLoopbackPort port =>
    simp only [BuilderCall.apply, CapabilityGrant.allowLoopbackPort] at h ⊢
    split at h
    · cases h
    · rename_i hport
      exact ⟨_, if_neg hport⟩
  | allowLoopbackBindPort port =>
    simp only [BuilderCall.apply, CapabilityGrant.allowLoopbackBindPort] at h ⊢
    split at h
    · cases h
    · rename_i hport
      exact ⟨_, if_neg hport⟩
  | allowNativeExecution => exact ⟨_, rfl⟩
  | withLimits limits => exact ⟨_, rfl⟩

theorem build_cons_eq_ok (h : build grant (call :: calls) = .ok built) :
    ∃ next, call.apply grant = .ok next ∧ build next calls = .ok built := by
  simp only [build] at h
  cases hn : call.apply grant with
  | error error =>
    rw [hn] at h
    cases h
  | ok next =>
    rw [hn] at h
    exact ⟨next, rfl, h⟩

theorem build_rights (h : build grant calls = .ok built) :
    rightsOf built = rightsOf grant ∪ ⋃ call ∈ calls, call.rights := by
  induction calls generalizing grant with
  | nil =>
    cases h
    simp
  | cons call rest ih =>
    obtain ⟨next, hn, hrest⟩ := build_cons_eq_ok h
    rw [ih hrest, apply_rights hn, Set.union_assoc]
    congr 1
    ext right
    simp

theorem build_accepted (h : build grant calls = .ok built) : ∀ call ∈ calls, ∀ other : CapabilityGrant,
    ∃ next, call.apply other = .ok next := by
  induction calls generalizing grant with
  | nil => simp
  | cons call rest ih =>
    obtain ⟨next, hn, hrest⟩ := build_cons_eq_ok h
    intro own hown other
    rcases List.mem_cons.mp hown with rfl | hown
    · exact apply_accepted hn other
    · exact ih hrest own hown other

theorem build_of_accepted (h : ∀ call ∈ calls, ∀ other : CapabilityGrant, ∃ next, call.apply other = .ok next)
    (grant : CapabilityGrant) : ∃ built, build grant calls = .ok built := by
  induction calls generalizing grant with
  | nil => exact ⟨grant, rfl⟩
  | cons call rest ih =>
    obtain ⟨next, hn⟩ := h call List.mem_cons_self grant
    obtain ⟨built, hb⟩ := ih (fun own hown => h own (List.mem_cons_of_mem _ hown)) next
    exact ⟨built, by rw [build, hn]; exact hb⟩

/-- What a grant amounts to depends on what was granted, not on the order or the number of the
calls: its rights are those of the base and of the calls, it is classified by the worst of
them, and any other sequence of the same calls is accepted and comes to the same. -/
theorem built_authority (h : build grant calls = .ok built) (hsame : ∀ call, call ∈ calls ↔ call ∈ calls') :
    rightsOf built = rightsOf grant ∪ ⋃ call ∈ calls, call.rights ∧
    (∀ request : CommandRequest, request.grant = built → IsLUB (Right.risk '' (demanded request.mode ∪
      (rightsOf grant ∪ ⋃ call ∈ calls, call.rights))) (classifyRisk request)) ∧
    ∃ other, build grant calls' = .ok other ∧ rightsOf other = rightsOf built ∧
      ∀ request : CommandRequest, classifyRisk { request with grant := other } =
        classifyRisk { request with grant := built } := by
  have hrights := build_rights h
  refine ⟨hrights, fun request hrequest => ?_, ?_⟩
  · rw [← hrights, ← hrequest]
    exact (classifyRisk_classified request).isLUB
  · obtain ⟨other, ho⟩ := build_of_accepted (fun call hcall =>
      build_accepted h call ((hsame call).mpr hcall)) grant
    have hother : rightsOf other = rightsOf built := by
      rw [build_rights ho, hrights]
      simp only [hsame]
    refine ⟨other, ho, hother, fun request => ?_⟩
    have hleft := (classifyRisk_classified { request with grant := other }).isLUB
    have hright := (classifyRisk_classified { request with grant := built }).isLUB
    rw [show ({ request with grant := other } : CommandRequest).grant = other from rfl, hother] at hleft
    exact hleft.unique hright

end Builder

/-- A port and a variable, granted in either order. -/
theorem port_and_variable_in_any_order : ∃ built other : CapabilityGrant,
    build .empty [.allowLoopbackPort 80, .allowEnvironment "HOME"] = .ok built ∧
    build .empty [.allowEnvironment "HOME", .allowLoopbackPort 80] = .ok other ∧
    rightsOf built = {.connect 80, .environment "HOME"} ∧ rightsOf other = rightsOf built := by
  obtain ⟨built, hbuilt⟩ : ∃ built,
    build .empty [.allowLoopbackPort 80, .allowEnvironment "HOME"] = .ok built := ⟨_, rfl⟩
  have hsame : ∀ call : BuilderCall, call ∈ [.allowLoopbackPort 80, .allowEnvironment "HOME"] ↔
      call ∈ [.allowEnvironment "HOME", .allowLoopbackPort 80] := by
    simp [or_comm]
  obtain ⟨hbase, -, other, hother, hrights, -⟩ := built_authority hbuilt hsame
  refine ⟨built, other, hbuilt, hother, ?_, hrights⟩
  have hnone : rightsOf .empty = ∅ := by
    ext right
    cases right <;> simp [Holds, CapabilityGrant.empty]
  rw [hbase, hnone, Set.empty_union]
  ext right
  simp [BuilderCall.rights, or_comm]

end FerrousRuntime.Policy
