import Mathlib.Data.List.Induction
import Kbms.Utils.HttpCurl
import Kbms.Ams.Interact

/-! # The loader of the configuration

The loader keeps the body of the last response that it accepted. A new body is swapped
in as a whole, and a response that is not accepted changes nothing.
-/
namespace Kbms

structure Config where
  data : List UInt8
  deriving DecidableEq

structure ConfigLoader where
  configUrl : String
  connInfo : HttpConnectInfo
  httpCurl : HttpCurl
  config : Option Config

namespace ConfigLoader
variable {l : ConfigLoader}

def new (configUrl : String) : ConfigLoader := ⟨configUrl,.new,.new,none⟩

def getConfig (l : ConfigLoader) : List UInt8 :=
  match l.config with
  | none => []
  | some config => config.data

def setURL (l : ConfigLoader) (configUrl : String) : ConfigLoader := { l with configUrl := configUrl }

def setReqHeader (l : ConfigLoader) (key value : String) : ConfigLoader :=
  { l with connInfo := { l.connInfo with headers := l.connInfo.headers.insert key value } }

/-- The request of `DoUpdating`. -/
def request (l : ConfigLoader) : HttpRequest := l.httpCurl.get l.configUrl l.connInfo

/-- `DoUpdating`, for the response that the request gets. The old configuration is
deleted after the swap. -/
def doUpdating (l : ConfigLoader) (response : HttpResponse) : ConfigLoader × Bool :=
  if response.code ≠ scSuccess ∨ response.body.length = 0 then (l,false)
  else if l.config.all (fun config => response.body ≠ config.data) then
    ({ l with config := some ⟨response.body⟩ },true)
  else (l,true)

def Accepted (response : HttpResponse) : Prop := response.code = scSuccess ∧ response.body ≠ []

instance (response : HttpResponse) : Decidable (Accepted response) :=
  inferInstanceAs (Decidable (_ ∧ _))

/-- The body of the last response that is accepted. -/
def lastGood (rs : List HttpResponse) : List UInt8 :=
  ((rs.filter (fun r => Accepted r)).getLast?.map HttpResponse.body).getD []

/-- One outcome: it is accepted and its body is shown, or nothing changes. -/
theorem doUpdating_spec (l : ConfigLoader) (r : HttpResponse) :
    (l.doUpdating r).2 = decide (Accepted r) ∧
    (l.doUpdating r).1.getConfig = if Accepted r then r.body else l.getConfig := by
  unfold doUpdating Accepted
  by_cases hcode : r.code = scSuccess
  · by_cases hbody : r.body = []
    · simp [hbody]
    · have hlen : r.body.length ≠ 0 := fun h => hbody (List.length_eq_zero_iff.mp h)
      rw [if_neg (by simp [hcode,hbody])]
      cases hc : l.config with
      | none => simp [hcode,hbody,getConfig]
      | some config =>
        by_cases heq : r.body = config.data
        · simp [hcode,heq ▸ hbody,heq,getConfig,hc]
        · simp [hcode,hbody,heq,getConfig]
  · simp [hcode]

def updates (l : ConfigLoader) (rs : List HttpResponse) : ConfigLoader :=
  rs.foldl (fun l r => (l.doUpdating r).1) l

theorem updates_append (rs qs : List HttpResponse) : l.updates (rs ++ qs) = (l.updates rs).updates qs :=
  List.foldl_append

theorem lastGood_append (rs : List HttpResponse) (r : HttpResponse) :
    lastGood (rs ++ [r]) = if Accepted r then r.body else lastGood rs := by
  unfold lastGood
  by_cases h : Accepted r <;> simp [h]

/-- After any outcomes the loader has the last good body. -/
theorem getConfig_updates (h : l.config = none) (rs : List HttpResponse) :
    (l.updates rs).getConfig = lastGood rs := by
  induction rs using List.reverseRecOn with
  | nil =>
    rw [updates, List.foldl_nil, getConfig, h]
    rfl
  | append_singleton rs r ih =>
    have hstep : l.updates (rs ++ [r]) = ((l.updates rs).doUpdating r).1 := updates_append rs [r]
    rw [hstep, (doUpdating_spec _ r).2, lastGood_append, ih]

end ConfigLoader
end Kbms
