import FerrousRuntime.Contract.Authority
import FerrousRuntime.Runtime.AutoApproval

/-! # What the guest of a store can do

The rights a store confers are those of the grant, carried over to the host: the granted roots
at their canonical places, the granted ports on loopback addresses, the granted variables
that the host has. Nothing else of the host goes into the store, and its limits are the
grant's.
-/
namespace FerrousRuntime.Runtime
open Capability Command Policy Host

/-- What the guest of a store can do, whatever its builder was told about sockets before. -/
def Store.Confers (store : Store) (builder : SocketConfig) : Right → Prop
  | .native => False
  | .read root => ∃ preopen ∈ store.preopens, preopen.hostRoot = root
  | .write root => ∃ preopen ∈ store.preopens, preopen.hostRoot = root ∧
    (preopen.dirPerms = .all ∨ preopen.filePerms = .all)
  | .connect port => (store.network.apply builder).tcp = true ∧ ∃ addr : SocketAddr, addr.port = port ∧
    (store.network.apply builder).addrCheck addr .tcpConnect = true
  | .bind port => (store.network.apply builder).tcp = true ∧ ∃ addr : SocketAddr, addr.port = port ∧
    (store.network.apply builder).addrCheck addr .tcpBind = true
  | .environment name => ∃ value, (name, value) ∈ store.environment

/-- A right of the grant on this host, if there is something on it to exercise it on. -/
def onHost (host : HostView) : Right → Option Right
  | .native => none
  | .read root => (canonicalize host.fs root).map .read
  | .write root => (canonicalize host.fs root).map .write
  | .connect port => some (.connect port)
  | .bind port => some (.bind port)
  | .environment name => (host.env name).map (fun _ => .environment name)

structure LeastAuthority (host : HostView) (request : CommandRequest) (store : Store) : Prop where
  rights : ∀ builder right, store.Confers builder right ↔
    ∃ granted ∈ rightsOf request.grant, onHost host granted = some right
  values : ∀ name value, (name, value) ∈ store.environment → host.env name = some value
  sockets : ∀ builder, (store.network.apply builder).ipNameLookup = false ∧
    (store.network.apply builder).udp = false
  addresses : ∀ builder addr use, (store.network.apply builder).tcp = true →
    (store.network.apply builder).addrCheck addr use = true → addr.ip.isLoopback = true
  mounts : (store.preopens.map Preopen.guestRoot).Nodup
  /-- names that are not granted are never asked for -/
  unqueried : ∀ env : String → Option String, (∀ name ∈ request.grant.environment, env name = host.env name) →
    buildStore { host with env := env } request = .ok store
  limits : store.memoryBytes = request.grant.limits.maxMemoryBytes ∧
    store.fuel = request.grant.limits.maxFuel ∧ store.epochTicks = request.grant.limits.epochTicks

section Mounts

theorem ascii_chars {text : String} (h : ∀ c ∈ text.toList, c.toNat < 256) :
    (ascii text).map (fun byte => Char.ofNat byte.toNat) = text.toList := by
  rw [ascii, List.map_map]
  conv_rhs => rw [← List.map_id text.toList]
  refine List.map_congr_left (fun c hc => ?_)
  have hbyte : (UInt8.ofNat c.toNat).toNat = c.toNat := by
    rw [UInt8.toNat_ofNat', Nat.mod_eq_of_lt (h c hc)]
  simp only [Function.comp_apply, hbyte, id_eq]
  exact Char.ofNat_toNat c

theorem repr_injective_of_ascii {index other : ℕ}
    (h : ascii ("grant-" ++ toString index) = ascii ("grant-" ++ toString other)) : index = other := by
  have hplain (n : ℕ) : ∀ c ∈ ("grant-" ++ toString n).toList, c.toNat < 256 := by
    intro c hc
    rw [String.toList_append, List.mem_append] at hc
    rcases hc with hc | hc
    · have hsmall : "grant-".toList.all (fun c => decide (c.toNat < 256)) = true := by rfl
      exact of_decide_eq_true (List.all_eq_true.mp hsmall c hc)
    · have hdigit : c.isDigit = true :=
        Nat.isDigit_of_mem_toDigits (b := 10) (n := n) (by decide) (by decide) (by simpa using hc)
      obtain ⟨-, hle⟩ := (Bool.and_eq_true _ _).mp hdigit
      have hle : c.val.toNat ≤ 57 := UInt32.le_iff_toNat_le.mp (of_decide_eq_true hle)
      exact hle.trans_lt (by decide)
  have hlist := congrArg (List.map (fun byte => Char.ofNat byte.toNat)) h
  rw [ascii_chars (hplain index), ascii_chars (hplain other), String.toList_append, String.toList_append] at hlist
  have hdigits : Nat.toDigits 10 index = Nat.toDigits 10 other := by
    simpa using List.append_cancel_left hlist
  rw [← Nat.ofDigitChars_ten_toDigits (n := index), hdigits, Nat.ofDigitChars_ten_toDigits]

/-- No granted root is mounted over another one. -/
theorem guestRootFor_injective : Function.Injective guestRootFor := by
  have hfirst (n : ℕ) : ascii "workspace" ≠ ascii ("grant-" ++ toString n) := by
    intro h
    have hhead := congrArg List.head? h
    simp [ascii] at hhead
  intro index other h
  unfold guestRootFor at h
  split at h <;> rename_i hindex <;> split at h <;> rename_i hother
  · rw [hindex, hother]
  · simp only [Capability.Path.mk.injEq, List.cons.injEq, PathComponent.normal.injEq, and_true, true_and] at h
    exact absurd h (hfirst other)
  · simp only [Capability.Path.mk.injEq, List.cons.injEq, PathComponent.normal.injEq, and_true, true_and] at h
    exact absurd h.symm (hfirst index)
  · simp only [Capability.Path.mk.injEq, List.cons.injEq, PathComponent.normal.injEq, and_true, true_and] at h
    exact repr_injective_of_ascii h

theorem openGrants_mounts {host : HostView} {cwd : Path} {index : ℕ} {grants : List FilesystemGrant}
    {opened : List Preopen × Option Path} (h : openGrants host cwd index grants = .ok opened) :
    opened.1.map Preopen.guestRoot = (List.range' index grants.length).map guestRootFor := by
  induction grants generalizing index opened with
  | nil =>
    cases h
    rfl
  | cons filesystem rest ih =>
    obtain ⟨hostRoot, later, -, -, ho, rfl⟩ := openGrants_cons_eq_ok h
    simp only [List.map_cons, ih ho, List.length_cons, List.range'_succ]

end Mounts

section Opened
variable {host : HostView} {cwd : Path} {index : ℕ} {grants : List FilesystemGrant}
  {opened : List Preopen × Option Path}

theorem openGrants_roots (h : openGrants host cwd index grants = .ok opened) (root : Path) (perms : Perms) :
    (∃ preopen ∈ opened.1, preopen.hostRoot = root ∧ preopen.dirPerms = perms ∧ preopen.filePerms = perms) ↔
      ∃ filesystem ∈ grants, canonicalize host.fs filesystem.root = some root ∧
        permsFor filesystem.access = perms := by
  induction grants generalizing index opened with
  | nil =>
    cases h
    simp
  | cons filesystem rest ih =>
    obtain ⟨hostRoot, later, hroot, -, ho, rfl⟩ := openGrants_cons_eq_ok h
    simp only [List.mem_cons, exists_eq_or_imp, ih ho, hroot, Option.some.injEq, and_self]

theorem openGrants_uniform (h : openGrants host cwd index grants = .ok opened) :
    ∀ preopen ∈ opened.1, preopen.dirPerms = preopen.filePerms := by
  induction grants generalizing index opened with
  | nil =>
    cases h
    simp
  | cons filesystem rest ih =>
    obtain ⟨hostRoot, later, hroot, -, ho, rfl⟩ := openGrants_cons_eq_ok h
    intro preopen hp
    rcases List.mem_cons.mp hp with rfl | hp
    · rfl
    · exact ih ho preopen hp

theorem openGrants_reads (h : openGrants host cwd index grants = .ok opened) (root : Path) :
    (∃ preopen ∈ opened.1, preopen.hostRoot = root) ↔
      ∃ filesystem ∈ grants, canonicalize host.fs filesystem.root = some root := by
  have huniform := openGrants_uniform h
  have hroots := openGrants_roots h root
  constructor
  · rintro ⟨preopen, hp, hroot⟩
    obtain ⟨filesystem, hf, hcanonical, -⟩ :=
      (hroots preopen.dirPerms).mp ⟨preopen, hp, hroot, rfl, (huniform preopen hp).symm⟩
    exact ⟨filesystem, hf, hcanonical⟩
  · rintro ⟨filesystem, hf, hcanonical⟩
    obtain ⟨preopen, hp, hroot, -⟩ :=
      (hroots (permsFor filesystem.access)).mpr ⟨filesystem, hf, hcanonical, rfl⟩
    exact ⟨preopen, hp, hroot⟩

theorem permsFor_eq_all {access : FilesystemAccess} : permsFor access = .all ↔ access = .readWrite := by
  cases access <;> simp [permsFor]

theorem openGrants_writes (h : openGrants host cwd index grants = .ok opened) (root : Path) :
    (∃ preopen ∈ opened.1, preopen.hostRoot = root ∧ (preopen.dirPerms = .all ∨ preopen.filePerms = .all)) ↔
      ∃ filesystem ∈ grants, canonicalize host.fs filesystem.root = some root ∧
        filesystem.access = .readWrite := by
  have hroots := openGrants_roots h root .all
  simp only [permsFor_eq_all] at hroots
  rw [← hroots]
  constructor
  · rintro ⟨preopen, hp, hroot, hperms⟩
    have hsame := openGrants_uniform h preopen hp
    rcases hperms with hall | hall
    · exact ⟨preopen, hp, hroot, hall, hsame.symm.trans hall⟩
    · exact ⟨preopen, hp, hroot, hsame.trans hall, hall⟩
  · rintro ⟨preopen, hp, hroot, hall, -⟩
    exact ⟨preopen, hp, hroot, Or.inl hall⟩

/-- Only the files of the host and what fails on it go into opening the roots. -/
theorem openGrants_env (env : String → Option String) (cwd : Path) (index : ℕ) (grants : List FilesystemGrant) :
    openGrants { host with env := env } cwd index grants = openGrants host cwd index grants := by
  induction grants generalizing index with
  | nil => rfl
  | cons filesystem rest ih => simp only [openGrants, ih]

end Opened

section Stores
variable {host : HostView} {request : CommandRequest} {store : Store}

theorem mem_selectedEnvironment {grant : CapabilityGrant} {provider : String → Option String}
    {name value : String} : (name, value) ∈ selectedEnvironment grant provider ↔
      name ∈ grant.environment ∧ provider name = some value := by
  simp only [selectedEnvironment, List.mem_filterMap, Finset.mem_sort, Option.map_eq_some_iff, Prod.mk.injEq]
  constructor
  · rintro ⟨own, hown, own', hprovided, rfl, rfl⟩
    exact ⟨hown, hprovided⟩
  · rintro ⟨hname, hprovided⟩
    exact ⟨name, hname, value, hprovided, rfl, rfl⟩

theorem selectedEnvironment_congr {grant : CapabilityGrant} {provider other : String → Option String}
    (h : ∀ name ∈ grant.environment, provider name = other name) :
    selectedEnvironment grant provider = selectedEnvironment grant other := by
  refine List.filterMap_congr (fun name hname => ?_)
  rw [h name ((Finset.mem_sort _).mp hname)]

def portsFor (grant : CapabilityGrant) : SocketAddrUse → Finset UInt16
  | .tcpConnect => grant.loopbackPorts
  | .tcpBind => grant.loopbackBindPorts
  | _ => ∅

theorem fromGrant_tcp {grant : CapabilityGrant} {use : SocketAddrUse} {port : UInt16}
    (h : port ∈ portsFor grant use) : (NetworkPolicy.fromGrant grant).tcp = true := by
  have hports : grant.loopbackPorts.Nonempty ∨ grant.loopbackBindPorts.Nonempty := by
    cases use with
    | tcpConnect => exact Or.inl ⟨port, h⟩
    | tcpBind => exact Or.inr ⟨port, h⟩
    | _ => simp [portsFor] at h
  simpa [NetworkPolicy.fromGrant, ← Finset.nonempty_iff_ne_empty] using hports

theorem permits_iff {grant : CapabilityGrant} {addr : SocketAddr} {use : SocketAddrUse} :
    (NetworkPolicy.fromGrant grant).permits addr use = true ↔
      addr.ip.isLoopback = true ∧ addr.port ∈ portsFor grant use := by
  constructor
  · intro h
    cases use <;> simp only [NetworkPolicy.permits, Bool.and_eq_true, decide_eq_true_eq, Bool.false_eq_true] at h
    · exact ⟨h.1.2, h.2⟩
    · exact ⟨h.1.2, h.2⟩
  · rintro ⟨hloopback, hport⟩
    have htcp := fromGrant_tcp hport
    cases use with
    | tcpConnect => simp only [NetworkPolicy.permits, htcp, hloopback, Bool.and_self, Bool.true_and,
        decide_eq_true_eq]; exact hport
    | tcpBind => simp only [NetworkPolicy.permits, htcp, hloopback, Bool.and_self, Bool.true_and,
        decide_eq_true_eq]; exact hport
    | _ => simp [portsFor] at hport

theorem reaches_iff (builder : SocketConfig) (grant : CapabilityGrant) (use : SocketAddrUse) (port : UInt16) :
    ((NetworkPolicy.fromGrant grant).apply builder).tcp = true ∧ (∃ addr : SocketAddr, addr.port = port ∧
      ((NetworkPolicy.fromGrant grant).apply builder).addrCheck addr use = true) ↔
      port ∈ portsFor grant use := by
  constructor
  · rintro ⟨htcp, addr, rfl, hcheck⟩
    have htcp : (NetworkPolicy.fromGrant grant).tcp = true := htcp
    simp only [NetworkPolicy.apply, if_pos htcp] at hcheck
    exact (permits_iff.mp hcheck).2
  · intro hport
    have htcp := fromGrant_tcp hport
    have hpermits : (NetworkPolicy.fromGrant grant).permits ⟨.v6 1, port⟩ use = true :=
      permits_iff.mpr ⟨rfl, hport⟩
    exact ⟨htcp, ⟨.v6 1, port⟩, rfl, by simp only [NetworkPolicy.apply, if_pos htcp, hpermits]⟩

section Held
variable (host) (grant : CapabilityGrant)

theorem held_reads (root : Path) : (∃ granted ∈ rightsOf grant, onHost host granted = some (.read root)) ↔
    ∃ filesystem ∈ grant.filesystems, canonicalize host.fs filesystem.root = some root := by
  constructor
  · rintro ⟨granted, hgranted, hon⟩
    cases granted <;> simp [onHost] at hon
    obtain ⟨filesystem, hf, rfl⟩ := hgranted
    exact ⟨filesystem, hf, hon⟩
  · rintro ⟨filesystem, hf, hcanonical⟩
    exact ⟨.read filesystem.root, ⟨filesystem, hf, rfl⟩, by simp [onHost, hcanonical]⟩

theorem held_writes (root : Path) : (∃ granted ∈ rightsOf grant, onHost host granted = some (.write root)) ↔
    ∃ filesystem ∈ grant.filesystems, canonicalize host.fs filesystem.root = some root ∧
      filesystem.access = .readWrite := by
  constructor
  · rintro ⟨granted, hgranted, hon⟩
    cases granted <;> simp [onHost] at hon
    obtain ⟨filesystem, hf, rfl, haccess⟩ := hgranted
    exact ⟨filesystem, hf, hon, haccess⟩
  · rintro ⟨filesystem, hf, hcanonical, haccess⟩
    exact ⟨.write filesystem.root, ⟨filesystem, hf, rfl, haccess⟩, by simp [onHost, hcanonical]⟩

theorem held_connects (port : UInt16) :
    (∃ granted ∈ rightsOf grant, onHost host granted = some (.connect port)) ↔
      port ∈ portsFor grant .tcpConnect := by
  constructor
  · rintro ⟨granted, hgranted, hon⟩
    cases granted <;> simp [onHost] at hon
    exact hon ▸ hgranted
  · exact fun hport => ⟨.connect port, hport, rfl⟩

theorem held_binds (port : UInt16) :
    (∃ granted ∈ rightsOf grant, onHost host granted = some (.bind port)) ↔ port ∈ portsFor grant .tcpBind := by
  constructor
  · rintro ⟨granted, hgranted, hon⟩
    cases granted <;> simp [onHost] at hon
    exact hon ▸ hgranted
  · exact fun hport => ⟨.bind port, hport, rfl⟩

theorem held_variables (name : String) :
    (∃ granted ∈ rightsOf grant, onHost host granted = some (.environment name)) ↔
      ∃ value, (name, value) ∈ selectedEnvironment grant host.env := by
  simp only [mem_selectedEnvironment]
  constructor
  · rintro ⟨granted, hgranted, hon⟩
    cases granted <;> simp [onHost] at hon
    obtain ⟨⟨value, hvalue⟩, rfl⟩ := hon
    exact ⟨value, hgranted, hvalue⟩
  · rintro ⟨value, hname, hvalue⟩
    exact ⟨.environment name, hname, by simp [onHost, hvalue]⟩

end Held

theorem buildStore_confers (h : buildStore host request = .ok store) (builder : SocketConfig) (right : Right) :
    store.Confers builder right ↔ ∃ granted ∈ rightsOf request.grant, onHost host granted = some right := by
  obtain ⟨-, -, -, opened, hopened, rfl⟩ := buildStore_eq_ok h
  cases right with
  | native =>
    simp only [Store.Confers, false_iff]
    rintro ⟨granted, -, hon⟩
    cases granted <;> simp [onHost] at hon
  | read root => exact (openGrants_reads hopened root).trans (held_reads host request.grant root).symm
  | write root => exact (openGrants_writes hopened root).trans (held_writes host request.grant root).symm
  | connect port =>
    exact (reaches_iff builder request.grant .tcpConnect port).trans (held_connects host request.grant port).symm
  | bind port =>
    exact (reaches_iff builder request.grant .tcpBind port).trans (held_binds host request.grant port).symm
  | environment name => exact (held_variables host request.grant name).symm

/-- A store gives its guest the rights it was granted and no others. -/
theorem store_confers_the_grant (h : buildStore host request = .ok store) :
    LeastAuthority host request store := by
  have hrights := buildStore_confers h
  obtain ⟨hvalid, hmode, hcwd, opened, hopened, hstore⟩ := buildStore_eq_ok h
  refine ⟨hrights, ?_, ?_, ?_, ?_, ?_, ?_⟩
  · intro name value hin
    rw [hstore] at hin
    exact (mem_selectedEnvironment.mp hin).2
  · rw [hstore]
    exact fun builder => ⟨rfl, rfl⟩
  · rw [hstore]
    intro builder addr use htcp hcheck
    have htcp : (NetworkPolicy.fromGrant request.grant).tcp = true := htcp
    simp only [NetworkPolicy.apply, if_pos htcp] at hcheck
    exact (permits_iff.mp hcheck).1
  · rw [hstore, openGrants_mounts hopened]
    exact (List.nodup_range' 1).map guestRootFor_injective
  · intro env henv
    rw [← h]
    simp only [buildStore, openGrants_env, selectedEnvironment_congr henv]
  · rw [hstore]
    exact ⟨rfl, rfl, rfl⟩

end Stores

def outfittedHost : HostView :=
  { sampleHost with env := fun name => if name = "HOME" then some "/" else some "secret" }

def outfittedRequest : CommandRequest :=
  { sampleRequest 1 .readWrite defaultLimits with
    grant := { (sampleRequest 1 .readWrite defaultLimits).grant with
      environment := {"HOME"}
      loopbackPorts := {80} } }

theorem outfitted_store_least : ∃ store, buildStore outfittedHost outfittedRequest = .ok store ∧
    LeastAuthority outfittedHost outfittedRequest store := by
  obtain ⟨store, hstore⟩ : ∃ store, buildStore outfittedHost outfittedRequest = .ok store := ⟨_, rfl⟩
  exact ⟨store, hstore, store_confers_the_grant hstore⟩

end FerrousRuntime.Runtime
