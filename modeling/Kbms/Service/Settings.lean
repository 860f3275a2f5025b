import Kbms.Service.Impl

/-! # Where the settings of a user arrive

The timeout and the headers of a `RegistryInfo`, and the timeout and the credentials of a
`ConfigInfo`, are dropped on their way to the requests. Of the values that a header key
of the configuration is given, the first one stays.
-/
namespace Kbms.Settings
open Foundation HttpServer

/-- What sends a request or changes the next one. -/
inductive Op
  | updateStatus (value : String)
  | keepActive
  | serverDisc
  | doUpdating (response : HttpResponse)
  | setURL (configUrl : String)
  | setReqHeader (key value : String)

def step (lib : JsonLib) (impl : Impl) : Op → Impl × Option HttpRequest
  | .updateStatus value => (impl,impl.interact.map (fun i => i.reqRegisterCenter lib value))
  | .keepActive => (impl,impl.interact.map (fun i => i.sendHeartbeat))
  | .serverDisc => (impl,impl.interact.map (fun i => i.reqSerList))
  | .doUpdating response => (((impl.update response).map Prod.fst).getD impl,impl.cfl.map (fun l => l.request))
  | .setURL configUrl => ({ impl with cfl := impl.cfl.map (fun l => l.setURL configUrl) },none)
  | .setReqHeader key value => ({ impl with cfl := impl.cfl.map (fun l => l.setReqHeader key value) },none)

def after (lib : JsonLib) (impl : Impl) (ops : List Op) : Impl :=
  ops.foldl (fun impl op => (step lib impl op).1) impl

def Op.url : Op → Option String
  | .setURL configUrl => some configUrl
  | _ => none

def Op.header : Op → Option (String × String)
  | .setReqHeader key value => some (key,value)
  | _ => none

def lastUrl (cfi : ConfigInfo) (pre : List Op) : String := ((pre.filterMap Op.url).getLast?).getD cfi.url

/-- The header values that the loader is given, in their order. -/
def given (cfi : ConfigInfo) (pre : List Op) : List (String × String) :=
  cfi.headers.entries ++ pre.filterMap Op.header

section Registry
variable {rti : RegistrySettings} {memory : UInt32}

end Registry

section Loader
variable {cfi : ConfigInfo} {pre : List Op} {l : ConfigLoader}

structure Prepared (cfi : ConfigInfo) (pre : List Op) (l : ConfigLoader) : Prop where
  url : l.configUrl = lastUrl cfi pre
  headers : ∀ k, l.connInfo.headers.find k = (given cfi pre).lookup k
  timeout : l.connInfo.timeout = 50
  username : l.connInfo.username = ""

theorem given_append (op : Op) : given cfi (pre ++ [op]) = given cfi pre ++ op.header.toList := by
  rw [given, List.filterMap_append, ← List.append_assoc]
  cases h : op.header <;> simp [given,h]

theorem lastUrl_append (op : Op) : lastUrl cfi (pre ++ [op]) = op.url.getD (lastUrl cfi pre) := by
  rw [lastUrl, List.filterMap_append]
  cases h : op.url <;> simp [lastUrl,h]

theorem Prepared.setURL (h : Prepared cfi pre l) (configUrl : String) :
    Prepared cfi (pre ++ [.setURL configUrl]) (l.setURL configUrl) := by
  refine ⟨?_,fun k => ?_,h.timeout,h.username⟩
  · rw [lastUrl_append]
    rfl
  · have hnone : (Op.setURL configUrl).header = none := rfl
    rw [given_append, hnone, Option.toList_none, List.append_nil]
    exact h.headers k

theorem Prepared.setReqHeader (h : Prepared cfi pre l) (key value : String) :
    Prepared cfi (pre ++ [.setReqHeader key value]) (l.setReqHeader key value) := by
  refine ⟨?_,fun k => ?_,h.timeout,h.username⟩
  · rw [lastUrl_append]
    exact h.url
  · have hone : (l.setReqHeader key value).connInfo.headers = l.connInfo.headers.insertAll [(key,value)] := rfl
    rw [hone, SortedMap.find_insertAll, h.headers, given_append, List.lookup_append]
    rfl

/-- Other operations change neither the URL nor the settings. -/
theorem Prepared.other {l' : ConfigLoader} (h : Prepared cfi pre l) {op : Op} (hurl : op.url = none)
    (hheader : op.header = none) (hu : l'.configUrl = l.configUrl) (hc : l'.connInfo = l.connInfo) :
    Prepared cfi (pre ++ [op]) l' := by
  refine ⟨?_,fun k => ?_,hc ▸ h.timeout,hc ▸ h.username⟩
  · rw [lastUrl_append, hurl, hu]
    exact h.url
  · rw [given_append, hheader, Option.toList_none, List.append_nil, hc]
    exact h.headers k

end Loader

section Run
variable {lib : JsonLib} {impl : Impl} {cfi : ConfigInfo} {pre : List Op} {l : ConfigLoader}

theorem after_append (op : Op) : after lib impl (pre ++ [op]) = (step lib (after lib impl pre) op).1 := by
  rw [after, List.foldl_append]
  rfl

end Run

section Init
variable {lib : JsonLib} {port : UInt32} {rti : RegistrySettings} {cfi : ConfigInfo} {host : Option String}
variable {memory : UInt32}

end Init

end Kbms.Settings
