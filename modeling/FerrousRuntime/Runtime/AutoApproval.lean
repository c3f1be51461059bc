import FerrousRuntime.Runtime.BuildStore

/-! # What runs without a human

`classifyRisk` decides from the grant who is asked; `buildStore` reads the same grant
when it configures the run. The two agree: a request that is approved automatically
is configured with read access to its roots and nothing else, and a request that is
held back has authority of the kind it is held back for.
-/
namespace FerrousRuntime.Runtime
open Capability Command Policy Host

def Offline (sockets : SocketConfig) : Prop :=
  sockets.ipNameLookup = false ∧ sockets.udp = false ∧ sockets.tcp = false

/-- Nothing a run of the request is configured with goes beyond reading its roots. -/
structure PurelyReadOnly (request : CommandRequest) : Prop where
  mode : request.mode = .wasi
  native : request.grant.allowsNativeExecution = false
  preopens : ∀ host store, buildStore host request = .ok store →
    ∀ preopen ∈ store.preopens, preopen.dirPerms = .read ∧ preopen.filePerms = .read
  addresses : ∀ addr use, (NetworkPolicy.fromGrant request.grant).permits addr use = false
  sockets : ∀ host store builder, buildStore host request = .ok store →
    Offline (store.network.apply builder)
  environment : ∀ provider, selectedEnvironment request.grant provider = []
  handedOver : ∀ host store, buildStore host request = .ok store → store.environment = []

def HasAuthority (request : CommandRequest) : ApprovalReason → Prop
  | .nativeExecution => request.mode = .native ∨ request.grant.allowsNativeExecution = true
  | .filesystemWrite =>
    (∃ filesystem ∈ request.grant.filesystems, filesystem.access = .readWrite) ∧
      ∀ host store, buildStore host request = .ok store →
        ∃ preopen ∈ store.preopens, preopen.dirPerms = .all ∧ preopen.filePerms = .all
  | .networkAccess => ∃ addr use, (NetworkPolicy.fromGrant request.grant).permits addr use = true
  | .environmentAccess => ∃ provider, selectedEnvironment request.grant provider ≠ []

/-- What the classification of a request has to mean for its runs. -/
def Means (request : CommandRequest) : Risk → Prop
  | .autoApprove => PurelyReadOnly request
  | .requiresApproval reason => HasAuthority request reason

variable {request : CommandRequest}

/-- The grant of an automatically approved request, read off the classification. -/
theorem classifyRisk_autoApprove (h : classifyRisk request = .autoApprove) :
    request.mode = .wasi ∧ request.grant.allowsNativeExecution = false ∧
      (∀ filesystem ∈ request.grant.filesystems, filesystem.access = .read) ∧
      request.grant.loopbackPorts = ∅ ∧ request.grant.loopbackBindPorts = ∅ ∧
      request.grant.environment = ∅ := by
  unfold classifyRisk at h
  split_ifs at h with hnative hwrite hports henv
  have hread : ∀ filesystem ∈ request.grant.filesystems, filesystem.access = .read := by
    intro filesystem hf
    have hnot : filesystem.access ≠ .readWrite := by
      intro hrw
      exact hwrite (List.any_eq_true.mpr ⟨filesystem, hf, by simp [hrw]⟩)
    cases ha : filesystem.access with
    | read => rfl
    | readWrite => exact absurd ha hnot
  simp only [ne_eq, not_or, not_not] at hports
  simp only [Bool.or_eq_true, beq_iff_eq, not_or, Bool.not_eq_true] at hnative
  refine ⟨?_, hnative.2, hread, hports.1, hports.2, by simpa using henv⟩
  cases hm : request.mode with
  | wasi => rfl
  | native => exact absurd hm hnative.1

theorem not_permits_of_no_ports (hconnect : request.grant.loopbackPorts = ∅)
    (hbind : request.grant.loopbackBindPorts = ∅) (addr : SocketAddr) (use : SocketAddrUse) :
    (NetworkPolicy.fromGrant request.grant).permits addr use = false := by
  cases use <;> simp [NetworkPolicy.permits, NetworkPolicy.fromGrant, hconnect, hbind]

theorem selectedEnvironment_of_no_names (h : request.grant.environment = ∅)
    (provider : String → Option String) : selectedEnvironment request.grant provider = [] := by
  simp [selectedEnvironment, h]

theorem buildStore_perms {host : HostView} {store : Store} (h : buildStore host request = .ok store) :
    store.preopens.map (fun preopen => (preopen.dirPerms, preopen.filePerms)) =
      request.grant.filesystems.map
        (fun filesystem => (permsFor filesystem.access, permsFor filesystem.access)) := by
  obtain ⟨-, -, -, opened, hopened, rfl⟩ := buildStore_eq_ok h
  obtain ⟨hdir, hfile⟩ := openGrants_perms hopened
  have hzip := congrArg₂ List.zip hdir hfile
  simpa only [List.zip_map'] using hzip

theorem purelyReadOnly_of_autoApprove (h : classifyRisk request = .autoApprove) :
    PurelyReadOnly request := by
  obtain ⟨hmode, hnative, hread, hconnect, hbind, henv⟩ := classifyRisk_autoApprove h
  refine ⟨hmode, hnative, ?_, not_permits_of_no_ports hconnect hbind, ?_,
    selectedEnvironment_of_no_names henv, ?_⟩
  · intro host store hb preopen hp
    have hmem : (preopen.dirPerms, preopen.filePerms) ∈ store.preopens.map
        (fun preopen => (preopen.dirPerms, preopen.filePerms)) := List.mem_map_of_mem hp
    rw [buildStore_perms hb] at hmem
    obtain ⟨filesystem, hf, he⟩ := List.mem_map.mp hmem
    rw [hread filesystem hf] at he
    obtain ⟨hdir, hfile⟩ := Prod.mk.inj he
    exact ⟨hdir.symm, hfile.symm⟩
  · intro host store builder hb
    obtain ⟨-, -, -, opened, -, rfl⟩ := buildStore_eq_ok hb
    simp [Offline, NetworkPolicy.apply, NetworkPolicy.fromGrant, hconnect, hbind]
  · intro host store hb
    obtain ⟨-, -, -, opened, -, rfl⟩ := buildStore_eq_ok hb
    exact selectedEnvironment_of_no_names henv host.env

theorem permits_of_port (h : request.grant.loopbackPorts ≠ ∅ ∨ request.grant.loopbackBindPorts ≠ ∅) :
    ∃ addr use, (NetworkPolicy.fromGrant request.grant).permits addr use = true := by
  rcases h with h | h
  · obtain ⟨port, hport⟩ := Finset.nonempty_iff_ne_empty.mpr h
    exact ⟨⟨.v6 1, port⟩, .tcpConnect,
      by simp [NetworkPolicy.permits, NetworkPolicy.fromGrant, IpAddr.isLoopback, h, hport]⟩
  · obtain ⟨port, hport⟩ := Finset.nonempty_iff_ne_empty.mpr h
    exact ⟨⟨.v6 1, port⟩, .tcpBind,
      by simp [NetworkPolicy.permits, NetworkPolicy.fromGrant, IpAddr.isLoopback, h, hport]⟩

theorem selectedEnvironment_of_name (h : request.grant.environment ≠ ∅) :
    ∃ provider, selectedEnvironment request.grant provider ≠ [] := by
  obtain ⟨name, hname⟩ := Finset.nonempty_iff_ne_empty.mpr h
  refine ⟨fun name => some name, List.ne_nil_of_mem (a := (name, name)) ?_⟩
  exact List.mem_filterMap.mpr ⟨name, (Finset.mem_sort _).mpr hname, rfl⟩

theorem hasAuthority_of_requiresApproval {reason : ApprovalReason}
    (h : classifyRisk request = .requiresApproval reason) : HasAuthority request reason := by
  unfold classifyRisk at h
  split_ifs at h with hnative hwrite hports henv
  · cases h
    simpa [HasAuthority] using hnative
  · cases h
    obtain ⟨filesystem, hf, ha⟩ := List.any_eq_true.mp hwrite
    have hrw : filesystem.access = .readWrite := by simpa using ha
    refine ⟨⟨filesystem, hf, hrw⟩, ?_⟩
    intro host store hb
    have hmem : (Perms.all, Perms.all) ∈ request.grant.filesystems.map
        (fun filesystem => (permsFor filesystem.access, permsFor filesystem.access)) :=
      List.mem_map.mpr ⟨filesystem, hf, by rw [hrw]; rfl⟩
    rw [← buildStore_perms hb] at hmem
    obtain ⟨preopen, hp, he⟩ := List.mem_map.mp hmem
    exact ⟨preopen, hp, Prod.mk.inj he⟩
  · cases h
    exact permits_of_port hports
  · cases h
    exact selectedEnvironment_of_name henv

/-- The classification and the configuration of a run agree on every request. -/
theorem auto_approval_sound (request : CommandRequest) : Means request (classifyRisk request) := by
  cases h : classifyRisk request with
  | autoApprove => exact purelyReadOnly_of_autoApprove h
  | requiresApproval reason => exact hasAuthority_of_requiresApproval h

end FerrousRuntime.Runtime
