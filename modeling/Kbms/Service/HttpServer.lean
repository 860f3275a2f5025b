import Kbms.Foundation.Machine
import Kbms.Ams.Interact

/-! # The start of the server

`Service::Listen` reports its failures and `Service::Start` drops the report, so
`StartServer` announces the server as UP whatever happened. The port also takes two ways:
it is announced as 32 bits and bound as 16.
-/
namespace Kbms
open Foundation

/-- The outcomes of the library calls. `eventBaseSet`: `event_base_set` returns when it
is given the null base. `boundPort`: the port of the socket after `evhttp_bind_socket`. -/
structure Libevent where
  eventBaseNew : Bool
  eventBaseSet : Bool
  evhttpNew : Bool
  evhttpBindSocket : UInt16 → ℤ
  boundPort : UInt16 → UInt16

/-- The members of `RegistryInfo` that a registration and its request are made of. -/
structure RegistryInfo where
  url : String
  serviceName : String
  version : String
  flagOfMmserverOn : Bool
  renewalSecs : UInt32
  durationSec : UInt32

/-- `bound port`: a successful `evhttp_bind_socket`, after which the socket listens on `port`. -/
inductive ServerEvent
  | configStarted
  | posted (url : String) (requestJson : JsonDoc)
  | bound (port : UInt16)
  | gencbSet
  | ioStarted
  | interactStarted

namespace Service

/-- The conversion of `port_` to the parameter of `evhttp_bind_socket`. -/
def bindPort (port : Int32) : UInt16 := port.toUInt32.toUInt16

/-- `Service::Listen`. -/
def listen (lib : Libevent) (port : Int32) : Bool × List ServerEvent :=
  if !lib.eventBaseNew then (false,[])
  else if !lib.evhttpNew then (false,[])
  else if lib.evhttpBindSocket (bindPort port) ≠ 0 then (false,[])
  else (true,[.bound (lib.boundPort (bindPort port)),.gencbSet])

/-- `Service::Start`. -/
def start (lib : Libevent) (port : Int32) : Bool × List ServerEvent :=
  (true,(listen lib port).2 ++ [.ioStarted])

end Service

/-- The members of `HttpServer` and of what it owns that `StartServer` uses. -/
structure HttpServer where
  servicePort : Int32
  url : String
  interact : Registrant
  flagOfMmserverOn : Bool
  flagOfConfigOn : Bool

/-- The program points of `StartServer`. -/
inductive StartPhase
  | entered
  | configured
  | ready
  | serving
  | announced
  | running
  deriving DecidableEq

namespace HttpServer

/-- `Init` on a machine with address `host`; `none` when the constructor of `IoThread`
does not return. -/
def init (lib : Libevent) (host : String) (port : UInt32) (rti : RegistryInfo) (flagOfConfigOn : Bool) :
    Option HttpServer :=
  if lib.eventBaseNew || lib.eventBaseSet then
    some ⟨port.toInt32,rti.url,⟨host,port,rti.version,rti.serviceName,rti.renewalSecs,rti.durationSec⟩,
      rti.flagOfMmserverOn,flagOfConfigOn⟩
  else none

/-- `UpdateStatus`; the request may fail before its body is sent. -/
def updateStatus (srv : HttpServer) (value : String) (sent : Bool) : List ServerEvent :=
  if sent then
    [.posted (join Args.slantingBar [srv.url,srv.interact.serviceName]) (srv.interact.requestJson value)]
  else []

inductive Action
  | startConfig
  | readyFun (sent : Bool)
  | start
  | finishFunc (sent : Bool)
  | startInteract

/-- The statements of `StartServer`. -/
def step (lib : Libevent) (srv : HttpServer) : StartPhase → Action → Option (StartPhase × List ServerEvent)
  | .entered,.startConfig => some (.configured,if srv.flagOfConfigOn then [.configStarted] else [])
  | .configured,.readyFun sent =>
    some (.ready,if srv.flagOfMmserverOn then srv.updateStatus "STARTING" sent else [])
  | .ready,.start => some (.serving,(Service.start lib srv.servicePort).2)
  | .serving,.finishFunc sent =>
    some (.announced,if srv.flagOfMmserverOn then srv.updateStatus "UP" sent else [])
  | .announced,.startInteract => some (.running,if srv.flagOfMmserverOn then [.interactStarted] else [])
  | _,_ => none

/-- All runs of `StartServer` after `Init`; the process may end at any point of them. -/
def machine (lib : Libevent) (srv : HttpServer) : Machine StartPhase Action ServerEvent where
  initial ph := ph = .entered
  step := step lib srv

/-- The status of a registration. -/
def statusOf (requestJson : JsonDoc) : Option String :=
  ((requestJson.member Args.instanceField).bind (fun d => d.member Args.sstatus)).bind JsonDoc.asString

/-- The port of a registration. -/
def portOf (requestJson : JsonDoc) : Option ℤ :=
  match ((requestJson.member Args.instanceField).bind (fun d => d.member Args.portName)).bind
    (fun d => d.member Args.dolar) with
  | some (.int p) => some p
  | _ => none

/-- Whatever is announced as UP is listened on under the same number before, and answered. -/
def ListensWhereUp (tr : List ServerEvent) : Prop :=
  ∀ tr₁ tr₂ url body p, tr = tr₁ ++ .posted url body :: tr₂ → statusOf body = some "UP" →
    portOf body = some p → (∃ q : UInt16, .bound q ∈ tr₁ ∧ (q.toNat : ℤ) = p) ∧ .gencbSet ∈ tr₁

section Announcement
variable {lib : Libevent} {srv : HttpServer} {ph t : StartPhase} {tr es : List ServerEvent}

/-- All calls that `Listen` makes succeed. -/
def Listens (lib : Libevent) (port : Int32) : Prop :=
  lib.eventBaseNew = true ∧ lib.evhttpNew = true ∧ lib.evhttpBindSocket (Service.bindPort port) = 0

/-- The server listens on the port that it announces. -/
def Ready (lib : Libevent) (srv : HttpServer) : Prop :=
  Listens lib srv.servicePort ∧
    ((lib.boundPort (Service.bindPort srv.servicePort)).toNat : ℤ) = srv.interact.port.toNat

/-- The program points after `service_->Start()`. -/
def AfterStart : StartPhase → Prop
  | .serving | .announced | .running => True
  | _ => False

theorem ListensWhereUp.append (h : ListensWhereUp tr)
    (hes : ∀ url body p, .posted url body ∈ es → statusOf body = some "UP" → portOf body = some p →
      (∃ q : UInt16, .bound q ∈ tr ∧ (q.toNat : ℤ) = p) ∧ .gencbSet ∈ tr) :
    ListensWhereUp (tr ++ es) := by
  intro tr₁ tr₂ url body p heq hup hp
  rcases occurrence_append heq with ⟨ys,hys⟩ | ⟨ys,rfl,hes'⟩
  · exact h tr₁ ys url body p hys hup hp
  · obtain ⟨⟨q,hq,hqp⟩,hcb⟩ := hes url body p (by rw [hes']; simp) hup hp
    exact ⟨⟨q,List.mem_append_left _ hq,hqp⟩,List.mem_append_left _ hcb⟩

/-- What a run has done at a program point after `service_->Start()`. -/
def Served (lib : Libevent) (srv : HttpServer) (tr : List ServerEvent) (ph : StartPhase) : Prop :=
  ListensWhereUp tr ∧
    (AfterStart ph → .gencbSet ∈ tr ∧ .bound (lib.boundPort (Service.bindPort srv.servicePort)) ∈ tr)

end Announcement

section Init
variable {lib : Libevent} {host : String} {port : UInt32} {rti : RegistryInfo} {flagOfConfigOn : Bool}
variable {srv : HttpServer}

end Init

end HttpServer
end Kbms
