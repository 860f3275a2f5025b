import Mathlib
import Kbms.Foundation.Uri
import Kbms.Ams.Interact

/-! # The addresses of an instance at the registry

Registration, heartbeat and deregistration put the same identifier into their URLs, which
is a host, a port and a version between two separators. The host has no colon and the
decimal port no minus sign, so the first of each ends its part and the identifier is
parsed back without loss.
-/
namespace Kbms.Registrant
open Foundation

/-- The URL that `ReqRegisterCenter` posts to. -/
def registUrl (url : String) (r : Registrant) : String := join Args.slantingBar [url,r.serviceName]

/-- The URL of `SendHeartbeat`. -/
def heartUrl (url : String) (r : Registrant) : String :=
  join Args.slantingBar [url,r.serviceName,r.genInstance]

/-- The URL that `Interrupt` deletes. -/
def urlDel (url : String) (r : Registrant) : String :=
  join Args.slantingBar [url,toLower r.serviceName,r.genInstance]

/-- The URL by which `Interrupt` reports the status DOWN. -/
def urlPut (url : String) (r : Registrant) : String :=
  join Args.slantingBar [url,toLower r.serviceName,r.genInstance,Args.downTag]

theorem genInstance_toList (r : Registrant) : r.genInstance.toList =
    r.host.toList ++ ':' :: ((toString r.port.toNat).toList ++ '-' :: r.version.toList) := by
  simp [genInstance,join,Args.colon,Args.minusSign]

theorem toLower_toLower (s : String) : toLower (toLower s) = toLower s := by
  simp [toLower,Function.comp_def]

theorem digits_ne_minus (n : ℕ) (c : Char) (hc : c ∈ (toString n).toList) : (c != '-') = true := by
  rw [Nat.toString_eq_repr, Nat.toList_repr] at hc
  have hdigit := Nat.isDigit_of_mem_toDigits (by decide) (by decide) hc
  rw [bne_iff_ne]
  rintro rfl
  cases hdigit

theorem toString_inj {m n : ℕ} (h : (toString m).toList = (toString n).toList) : m = n := by
  have hdigits := congrArg (fun cs => Nat.ofDigitChars 10 cs 0) h
  simpa [Nat.toString_eq_repr,Nat.toList_repr] using hdigits

/-- The identifier determines the host, the port and the version. -/
theorem genInstance_inj {r s : Registrant} (hr : ':' ∉ r.host.toList) (hs : ':' ∉ s.host.toList)
    (h : r.genInstance = s.genInstance) : r.host = s.host ∧ r.port = s.port ∧ r.version = s.version := by
  have hlist := congrArg String.toList h
  rw [genInstance_toList, genInstance_toList] at hlist
  have hcolon : ∀ t : String, ':' ∉ t.toList → ∀ c ∈ t.toList, (c != ':') = true := by
    intro t ht c hc
    rw [bne_iff_ne]
    rintro rfl
    exact ht hc
  obtain ⟨hhost,hrest⟩ := Uri.append_cons_inj (hcolon _ hr) (hcolon _ hs) (by decide) hlist
  obtain ⟨hport,hversion⟩ := Uri.append_cons_inj (digits_ne_minus _) (digits_ne_minus _) (by decide) hrest
  refine ⟨String.toList_injective hhost,?_,String.toList_injective hversion⟩
  exact UInt32.toNat_inj.mp (toString_inj hport)

theorem member_instanceId (r : Registrant) (status : String) :
    (r.instanceJson status).member Args.instanceId = some (.string r.genInstance) := by
  rw [instanceJson, JsonDoc.member_build]
  rfl

theorem urlDel_eq (url : String) (r : Registrant) :
    r.urlDel url = url ++ "/" ++ toLower r.serviceName ++ "/" ++ r.genInstance := by
  simp [urlDel,join,Args.slantingBar,String.append_assoc]

/-- The heartbeat goes to the identifier of the body under the registration URL; the
deregistration and the status go to the same place up to the case of the service name;
and no other host, port and version of the same service has that place. -/
theorem one_address (url : String) (r s : Registrant) (status : String)
    (hname : s.serviceName = r.serviceName) (hr : ':' ∉ r.host.toList) (hs : ':' ∉ s.host.toList) :
    ∃ id name, ((r.requestJson status).member Args.instanceField).bind (fun d => d.member Args.instanceId) =
        some (.string id) ∧
      r.registUrl url = url ++ "/" ++ r.serviceName ∧ r.heartUrl url = r.registUrl url ++ "/" ++ id ∧
      r.urlDel url = url ++ "/" ++ name ++ "/" ++ id ∧ toLower name = toLower r.serviceName ∧
      r.urlPut url = r.urlDel url ++ "/status?value=DOWN" ∧
      (r.urlDel url = s.urlDel url → r.host = s.host ∧ r.port = s.port ∧ r.version = s.version) := by
  refine ⟨r.genInstance,toLower r.serviceName,?_,?_,?_,urlDel_eq url r,toLower_toLower _,?_,fun he => ?_⟩
  · rw [member_requestJson, Option.bind_some, member_instanceId]
  · simp [registUrl,join,Args.slantingBar,String.append_assoc]
  · simp [heartUrl,registUrl,join,Args.slantingBar,String.append_assoc]
  · simp [urlPut,urlDel,join,Args.slantingBar,Args.downTag,String.append_assoc]
  · rw [urlDel_eq, urlDel_eq, hname] at he
    apply genInstance_inj hr hs
    apply String.toList_injective
    have hlist := congrArg String.toList he
    simp only [String.toList_append] at hlist
    exact List.append_cancel_left hlist

/-- Two servers whose identifiers have the same digits around their first minus sign. -/
theorem one_address_two_servers :
    heartUrl "http://r" ⟨"10.0.0.1",80,"1-2","Svc",30,90⟩ = "http://r/Svc/10.0.0.1:80-1-2" ∧
    urlDel "http://r" ⟨"10.0.0.1",80,"1-2","Svc",30,90⟩ = "http://r/svc/10.0.0.1:80-1-2" ∧
    urlDel "http://r" ⟨"10.0.0.1",80,"1-2","Svc",30,90⟩ ≠
      urlDel "http://r" ⟨"10.0.0.1",801,"-2","Svc",30,90⟩ := by
  obtain ⟨_,_,_,_,_,_,_,_,hinj⟩ := one_address "http://r" ⟨"10.0.0.1",80,"1-2","Svc",30,90⟩
    ⟨"10.0.0.1",801,"-2","Svc",30,90⟩ "UP" rfl (by decide) (by decide)
  refine ⟨by decide,by decide,fun h => ?_⟩
  exact absurd (hinj h).2.1 (by decide)

end Kbms.Registrant
