import FerrousRuntime.Contract.Command

/-! # Risk classification and the host-side posture of a grant -/
namespace FerrousRuntime.Policy
open Capability Command

structure NetworkPolicy where
  tcp : Bool
  allowedConnectPorts : Finset UInt16
  allowedBindPorts : Finset UInt16
  udp : Bool
deriving DecidableEq

def NetworkPolicy.fromGrant (grant : CapabilityGrant) : NetworkPolicy where
  tcp := grant.loopbackPorts ≠ ∅ || grant.loopbackBindPorts ≠ ∅
  allowedConnectPorts := grant.loopbackPorts
  allowedBindPorts := grant.loopbackBindPorts
  udp := false

/-- `std::net::IpAddr`: the octets of a v4 address, the word of a v6 one. -/
inductive IpAddr
  | v4 (octets : Vector UInt8 4)
  | v6 (word : BitVec 128)
deriving DecidableEq, Repr

def IpAddr.isLoopback : IpAddr → Bool
  | .v4 octets => octets.get 0 == 127
  | .v6 word => word == 1

structure SocketAddr where
  ip : IpAddr
  port : UInt16
deriving DecidableEq, Repr

inductive SocketAddrUse
  | tcpBind
  | tcpConnect
  | udpBind
  | udpConnect
  | udpOutgoingDatagram
deriving DecidableEq, Repr

def NetworkPolicy.permits (policy : NetworkPolicy) (addr : SocketAddr) : SocketAddrUse → Bool
  | .tcpConnect => policy.tcp && addr.ip.isLoopback && decide (addr.port ∈ policy.allowedConnectPorts)
  | .tcpBind => policy.tcp && addr.ip.isLoopback && decide (addr.port ∈ policy.allowedBindPorts)
  | _ => false

structure SocketConfig where
  ipNameLookup : Bool
  udp : Bool
  tcp : Bool
  addrCheck : SocketAddr → SocketAddrUse → Bool

def NetworkPolicy.apply (policy : NetworkPolicy) (builder : SocketConfig) : SocketConfig where
  ipNameLookup := false
  udp := policy.udp
  tcp := policy.tcp
  addrCheck := if policy.tcp then policy.permits else builder.addrCheck

/-- The granted names the provider resolves, in the order of the ordered set. -/
def selectedEnvironment (grant : CapabilityGrant) (provider : String → Option String) :
    List (String × String) :=
  (grant.environment.sort (· ≤ ·)).filterMap (fun name => (provider name).map (fun value => (name, value)))

inductive Risk
  | autoApprove
  | requiresApproval (reason : ApprovalReason)
deriving DecidableEq, Repr

def classifyRisk (request : CommandRequest) : Risk :=
  if request.mode == .native || request.grant.allowsNativeExecution then
    .requiresApproval .nativeExecution
  else if request.grant.filesystems.any (fun filesystem => filesystem.access == .readWrite) then
    .requiresApproval .filesystemWrite
  else if request.grant.loopbackPorts ≠ ∅ ∨ request.grant.loopbackBindPorts ≠ ∅ then
    .requiresApproval .networkAccess
  else if request.grant.environment ≠ ∅ then .requiresApproval .environmentAccess
  else .autoApprove

/-- Whether a request parks for a human before it may run. -/
def Risky (request : CommandRequest) : Prop := ∃ reason, classifyRisk request = .requiresApproval reason

end FerrousRuntime.Policy
