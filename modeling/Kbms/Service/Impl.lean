import Kbms.Ams.Requests
import Kbms.Config.ConfigLoader
import Kbms.Service.HttpServer

/-! # The objects behind the server

`Init` makes the two objects that the information of the user asks for. The getter of the
configuration goes through all layers and drops what it gets at the outermost one.
-/
namespace Kbms
open Foundation

/-- `RegistryInfo`, with the settings of its requests. -/
structure RegistrySettings extends RegistryInfo where
  headers : HeaderFields
  timeout : UInt32

structure ConfigInfo where
  flagOfConfigOn : Bool
  url : String
  headers : HeaderFields
  timeout : UInt32
  username : String
  password : String

namespace HttpServer

/-- `HttpServer::Impl`; `none` is an object that has not been made. -/
structure Impl where
  interact : Option Interact
  cfl : Option ConfigLoader

namespace Impl

/-- `InitInteractObj`, where `GetHost` gives `host`. -/
def initInteractObj (port : UInt32) (rti : RegistrySettings) (host : Option String) (memory : UInt32) :
    Option Interact :=
  if !rti.flagOfMmserverOn then none
  else host.map (fun host => .new rti.url
    ⟨host,port,rti.version,rti.serviceName,rti.renewalSecs,rti.durationSec⟩ rti.timeout memory)

def initConfigObj (cfi : ConfigInfo) : Option ConfigLoader :=
  if !cfi.flagOfConfigOn then none
  else some (cfi.headers.entries.foldl (fun l e => l.setReqHeader e.1 e.2) (.new cfi.url))

def new (port : UInt32) (rti : RegistrySettings) (cfi : ConfigInfo) (host : Option String) (memory : UInt32) :
    Impl := ⟨initInteractObj port rti host memory,initConfigObj cfi⟩

/-- `GetConfig`; `none` is a use of the missing object. -/
def getConfig (impl : Impl) : Option (List UInt8) := impl.cfl.map ConfigLoader.getConfig

/-- The loader's thread gets a response. -/
def update (impl : Impl) (response : HttpResponse) : Option (Impl × Bool) :=
  impl.cfl.map (fun l =>
    match l.doUpdating response with
    | (l',ok) => ({ impl with cfl := some l' },ok))

def updates (impl : Impl) (rs : List HttpResponse) : Option Impl :=
  rs.foldlM (fun impl r => (impl.update r).map Prod.fst) impl

end Impl

/-- `GetConfig`, which calls the one of `Impl` and has no return statement: flowing off
its end is undefined. -/
def getConfig (impl : Impl) : Option (List UInt8) := impl.getConfig.bind (fun _ => none)

open ConfigLoader

/-- What the getter has to report: after each outcome the last good body, and the
outcomes themselves are told apart and change nothing unless they are accepted. -/
def Reports (impl : Impl) (rs : List HttpResponse) : Prop :=
  ∀ pre r post, rs = pre ++ r :: post → ∃ before after ok, impl.updates pre = some before ∧
    before.update r = some (after,ok) ∧ ok = decide (Accepted r) ∧
    getConfig after = some (lastGood (pre ++ [r])) ∧
    (¬ Accepted r → getConfig after = getConfig before)

theorem getConfig_eq_none (impl : Impl) : getConfig impl = none := by
  rw [getConfig]
  cases impl.getConfig <;> rfl

theorem cfl_new (port : UInt32) (rti : RegistrySettings) {cfi : ConfigInfo} (host : Option String)
    (memory : UInt32) (h : cfi.flagOfConfigOn = true) :
    ∃ l, (Impl.new port rti cfi host memory).cfl = some l ∧ l.config = none := by
  refine ⟨_,if_neg (by simp [h]),?_⟩
  have hfold : ∀ (es : List (String × String)) (l : ConfigLoader), l.config = none →
      (es.foldl (fun l e => l.setReqHeader e.1 e.2) l).config = none := by
    intro es
    induction es with
    | nil => exact fun _ hl => hl
    | cons e es ih => exact fun l hl => ih _ hl
  exact hfold _ _ rfl

theorem update_eq {impl : Impl} {l : ConfigLoader} (h : impl.cfl = some l) (r : HttpResponse) :
    impl.update r = some ({ impl with cfl := some (l.doUpdating r).1 },(l.doUpdating r).2) := by
  rw [Impl.update, h]
  rfl

theorem updates_eq {impl : Impl} {l : ConfigLoader} (h : impl.cfl = some l) (rs : List HttpResponse) :
    impl.updates rs = some { impl with cfl := some (l.updates rs) } := by
  induction rs generalizing impl l with
  | nil =>
    cases impl
    cases h
    rfl
  | cons r rs ih =>
    rw [Impl.updates, List.foldlM_cons, update_eq h]
    exact ih rfl

/-- The layer below the public one reports what it should. -/
theorem impl_getConfig (port : UInt32) (rti : RegistrySettings) {cfi : ConfigInfo} (host : Option String)
    (memory : UInt32) (h : cfi.flagOfConfigOn = true) (rs : List HttpResponse) (r : HttpResponse) :
    ∃ before after, (Impl.new port rti cfi host memory).updates rs = some before ∧
      before.update r = some (after,decide (Accepted r)) ∧
      after.getConfig = some (lastGood (rs ++ [r])) ∧ (¬ Accepted r → after.getConfig = before.getConfig) := by
  obtain ⟨l,hl,hnone⟩ := cfl_new port rti host memory h
  obtain ⟨hok,hget⟩ := (l.updates rs).doUpdating_spec r
  have hlast := getConfig_updates hnone rs
  refine ⟨_,_,updates_eq hl rs,(update_eq rfl r).trans (by rw [hok]),?_,fun hrej => ?_⟩
  · rw [Impl.getConfig, Option.map_some, hget, lastGood_append, hlast]
  · rw [Impl.getConfig, Impl.getConfig, Option.map_some, Option.map_some, hget, if_neg hrej]

/-- After each outcome the layer below has what should be reported and the getter has no
value, so that only a sequence without outcomes is reported rightly. -/
theorem reports_iff (port : UInt32) (rti : RegistrySettings) {cfi : ConfigInfo} (host : Option String)
    (memory : UInt32) (h : cfi.flagOfConfigOn = true) (rs : List HttpResponse) :
    (∀ pre r post, rs = pre ++ r :: post → ∃ before after,
      (Impl.new port rti cfi host memory).updates pre = some before ∧
      before.update r = some (after,decide (Accepted r)) ∧
      after.getConfig = some (lastGood (pre ++ [r])) ∧
      (¬ Accepted r → after.getConfig = before.getConfig) ∧ getConfig after = none) ∧
    (Reports (.new port rti cfi host memory) rs ↔ rs = []) := by
  refine ⟨fun pre r post _ => ?_,?_⟩
  · obtain ⟨before,after,hbefore,hafter,hget,hsame⟩ := impl_getConfig port rti host memory h pre r
    exact ⟨before,after,hbefore,hafter,hget,hsame,getConfig_eq_none after⟩
  · constructor
    · intro hall
      cases rs with
      | nil => rfl
      | cons r rs =>
        obtain ⟨_,after,_,_,_,_,hget,_⟩ := hall [] r rs rfl
        rw [getConfig_eq_none] at hget
        cases hget
    · rintro rfl pre r post he
      exact absurd he (by simp)

def defaultRegistry : RegistrySettings :=
  { url := "http://r", serviceName := "a", version := "1", flagOfMmserverOn := true, renewalSecs := 30,
    durationSec := 90, headers := .empty, timeout := 100 }

def defaultConfig : ConfigInfo :=
  { flagOfConfigOn := true, url := "http://c", headers := .empty, timeout := 50, username := "",
    password := "" }

/-- Nor is a rejected outcome reported. -/
theorem reports_iff_rejected :
    ¬ Reports (.new 80 defaultRegistry defaultConfig (some "h") 0) [⟨404,[],.empty⟩] := by
  rw [(reports_iff 80 defaultRegistry (some "h") 0 rfl _).2]
  exact List.cons_ne_nil _ _

/-- The body that the loader has is lost on the way out. -/
theorem first_fetch_unreported :
    ((Impl.new 80 defaultRegistry defaultConfig (some "h") 0).updates [⟨200,[1],.empty⟩]).bind Impl.getConfig =
      some [1] ∧
    ((Impl.new 80 defaultRegistry defaultConfig (some "h") 0).updates [⟨200,[1],.empty⟩]).bind getConfig = none ∧
    ¬ Reports (.new 80 defaultRegistry defaultConfig (some "h") 0) [⟨200,[1],.empty⟩] := by
  refine ⟨rfl,rfl,fun h => ?_⟩
  obtain ⟨before,after,ok,hbefore,hafter,_,hget,_⟩ := h [] _ [] rfl
  rw [getConfig_eq_none] at hget
  cases hget

end HttpServer
end Kbms
