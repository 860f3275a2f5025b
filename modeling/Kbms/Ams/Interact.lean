import Mathlib.Logic.Function.Basic
import Kbms.Ams.Args

/-! # The interaction with the registry

The body of a registration, the table of discovered services, and the refresh that
rebuilds it. Two maps take turns: the one that `flag_num_` points at is read, and the
other one is cleared and filled by the next refresh. Undefined behaviour, which is a
signed overflow or an index outside `server_vec_`, is `none`.
-/
namespace Kbms

structure ServerStatus where
  host : String
  port : String
  status : String
  deriving DecidableEq, Repr

/-- The members of `Interact::Impl` that a registration is made of. -/
structure Registrant where
  host : String
  port : UInt32
  version : String
  serviceName : String
  renewalSecs : UInt32
  durationSecs : UInt32

namespace Registrant

/-- `std::transform` with `::tolower`. -/
def toLower (s : String) : String := String.ofList (s.toList.map Char.toLower)

def args (r : Registrant) : Args := ⟨r.host,toString r.port.toNat⟩

/-- `GenInstance`. -/
def genInstance (r : Registrant) : String :=
  join "" [r.host,Args.colon,toString r.port.toNat,Args.minusSign,r.version]

def uint (n : UInt32) : JsonDoc := .int n.toNat

def portJson (r : Registrant) : JsonDoc :=
  .build [(Args.dolar,uint r.port),(Args.atEnabled,.bool Args.atEnabledValue)]

/-- The value that `GenRegistBody` gives to the member `instance`. -/
def instanceJson (r : Registrant) (serviceStatus : String) : JsonDoc :=
  .build [
    (Args.instanceId,.string r.genInstance),
    (Args.app,.string r.serviceName),
    (Args.ipAddr,.string r.host),
    (Args.statusPageUrl,.string (r.args.getUrl Args.statusPageUrlValue)),
    (Args.healthCheckUrl,.string (r.args.getUrl Args.healthCheckUrlValue)),
    (Args.homePageUrl,.string (r.args.getUrl "")),
    (Args.secureVipAddress,.string (toLower r.serviceName)),
    (Args.vipAddress,.string (toLower r.serviceName)),
    (Args.dataCenterInfo,.build [
      (Args.atClass,.string Args.atClassValue),
      (Args.name,.string Args.nameValue)]),
    (Args.hostName,.string r.host),
    (Args.sstatus,.string serviceStatus),
    (Args.leaseInfo,.build [
      (Args.renewalIntervalInsecs,uint r.renewalSecs),
      (Args.durationInsecs,uint r.durationSecs)]),
    (Args.portName,r.portJson)]

def requestJson (r : Registrant) (serviceStatus : String) : JsonDoc :=
  .build [(Args.instanceField,r.instanceJson serviceStatus)]

/-- `GenRegistBody`. -/
def genRegistBody (lib : JsonLib) (r : Registrant) (serviceStatus : String) : String :=
  jsonToStr lib (r.requestJson serviceStatus)

theorem member_requestJson (r : Registrant) (status : String) :
    (r.requestJson status).member Args.instanceField = some (r.instanceJson status) := by
  rw [requestJson, JsonDoc.member_build]
  rfl

/-- Where a registration has what discovery and the registry read in it. -/
theorem member_instance (r : Registrant) (status : String) :
    (r.instanceJson status).member Args.ipAddr = some (.string r.host) ∧
    (r.instanceJson status).member Args.app = some (.string r.serviceName) ∧
    (r.instanceJson status).member Args.sstatus = some (.string status) ∧
    (r.instanceJson status).member Args.portName = some r.portJson ∧
    r.portJson.member Args.dolar = some (.int r.port.toNat) := by
  unfold instanceJson
  refine ⟨?_,?_,?_,?_,?_⟩
  · rw [JsonDoc.member_build]
    rfl
  · rw [JsonDoc.member_build]
    rfl
  · rw [JsonDoc.member_build]
    rfl
  · rw [JsonDoc.member_build]
    rfl
  · rw [portJson, JsonDoc.member_build]
    rfl

end Registrant

/-- `ServerMap`: a `std::map` by what `find` gives. -/
abbrev ServerMap := String → Option (List ServerStatus)

def ServerMap.empty : ServerMap := fun _ => none

/-- `insert`, which keeps the entry that is there. -/
def ServerMap.insert (map : ServerMap) (name : String) (servers : List ServerStatus) : ServerMap :=
  if (map name).isSome then map else Function.update map name (some servers)

/-- `MAXNUM`. -/
def maxNum : ℤ := 2

/-- `server_vec_`, by its indices, and `flag_num_`. -/
structure Tables where
  serverVec : ℤ → ServerMap
  flagNum : ℤ

structure Response where
  code : ℤ
  body : String

def scSuccess : ℤ := 200

namespace Tables

def new : Tables := ⟨fun _ => .empty,0⟩

/-- The index that `AcqInstance` uses. -/
def active (t : Tables) : ℤ := t.flagNum.tmod maxNum

/-- The table that `AcqInstance` consults. -/
def visible (t : Tables) : ServerMap := t.serverVec t.active

/-- The index that `ParserData` uses. The sum is a plain `int`, and `none` where it overflows, which
is undefined; `fetch_add` on the atomic itself wraps by definition. -/
def inactive (t : Tables) : Option ℤ :=
  if t.flagNum + 1 < 2^31 then some ((t.flagNum + 1).tmod maxNum) else none

/-- The index is inside `server_vec_`. -/
def valid (num : ℤ) : Bool := decide (0 ≤ num ∧ num < maxNum)

def setMap (t : Tables) (num : ℤ) (map : ServerMap) : Tables :=
  { t with serverVec := Function.update t.serverVec num map }

/-- `fetch_add(1)` on an `int`. -/
def publish (t : Tables) : Tables := { t with flagNum := (t.flagNum + 1).bmod (2^32) }

end Tables

/-- The body of the inner loop of `ParserData`; `none` is an exception. -/
def readServer (instances : JsonDoc) (idy : ℕ) : Option ServerStatus := do
  let entry ← instances.index idy
  let host ← (← entry.member Args.ipAddr).asString
  let port ← (← (← entry.member Args.portName).member Args.dolar).asString
  let status ← (← entry.member Args.sstatus).asString
  return ⟨host,port,status⟩

/-- The outer loop body of `ParserData` up to the insertion. -/
def readApplication (applications : JsonDoc) (idx : ℕ) : Option (String × List ServerStatus) := do
  let entry ← applications.index idx
  let serviceName ← (← entry.member Args.name).asString
  let instances ← entry.member Args.instanceField
  let servers ← (List.range instances.size).mapM (readServer instances)
  return (serviceName,servers.filter (fun ss => ss.status = Args.validStatus))

def insertApplication (map : ServerMap) (entry : String × List ServerStatus) : ServerMap :=
  if entry.2.isEmpty then map else map.insert entry.1 entry.2

/-- The outer loop, which leaves in the map what it has inserted before an exception. -/
def insertApplications (applications : JsonDoc) : List ℕ → ServerMap → ServerMap × Bool
  | [], map => (map,true)
  | idx :: rest, map =>
    match readApplication applications idx with
    | some entry => insertApplications applications rest (insertApplication map entry)
    | none => (map,false)

/-- The list of applications in a document. -/
def applicationJson (data : JsonDoc) : Option JsonDoc :=
  (data.member Args.application).bind (fun d => d.member Args.application)

namespace Tables

/-- `ParserData` after it has cleared map `num`. -/
def parse (lib : JsonLib) (cleared : Tables) (num : ℤ) (data : String) : Tables × Bool :=
  match strToJson lib data with
  | none => (cleared,false)
  | some dataJson =>
    match applicationJson dataJson with
    | none => (cleared,false)
    | some applications =>
      match insertApplications applications (List.range applications.size) .empty with
      | (map,true) => ((cleared.setMap num map).publish,true)
      | (map,false) => (cleared.setMap num map,false)

/-- `ParserData`. -/
def parserData (lib : JsonLib) (t : Tables) (data : String) : Option (Tables × Bool) :=
  t.inactive.bind (fun num =>
    if num > 1 then some (t,false)
    else if valid num then some (parse lib (t.setMap num .empty) num data)
    else none)

/-- `ReqSerList`, for the response that the request gets. -/
def reqSerList (lib : JsonLib) (t : Tables) (response : Response) : Option (Tables × Bool) :=
  if response.code ≠ scSuccess then some (t,false) else parserData lib t response.body

/-- `RandSample`, where `rand()` gives `r`. -/
def randSample (hostList : List ServerStatus) (r : ℕ) : Option String :=
  (hostList[r % hostList.length]?).map (fun ss => Args.getUrlOf ss.host ss.port)

/-- `AcqInstance`; the inner result is `none` where it returns false. -/
def acqInstance (t : Tables) (name : String) (r : ℕ) : Option (Option String) :=
  if valid t.active then
    match t.visible name with
    | none => some none
    | some hostList => if hostList.length < 1 then some none else some (randSample hostList r)
  else none

end Tables
end Kbms
