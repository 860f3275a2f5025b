import Mathlib.Algebra.Group.Nat.Defs
import Mathlib.Algebra.Ring.Int.Defs
import Mathlib.Data.List.Induction
import Mathlib.Logic.Function.Basic
import Kbms.Utils.HttpCurl

/-! # The client and its result object

A call reports through its `ResBody` alone. It fills four members after a transfer and
none of them before, so an early exit leaves what an earlier call has reported.
-/
namespace Kbms
open Foundation

structure ReqBody where
  serviceName : String
  tailAffix : String
  requestBody : String
  timeout : Int32
  username : String
  password : String
  reqHeaders : HeaderFields

structure ResBody where
  size : Int32
  resHeaders : HeaderFields
  code : UInt64
  resBuf : List UInt8
  host : String

/-- What a call meets: the instance that `AcqInstance` gives and the transfer. -/
structure Encounter where
  instanceHost : Option String
  transfer : Transfer

namespace Client

/-- A call of a registered function: the object after it, and the request that it sends. -/
abbrev Func := ReqBody → Encounter → ResBody → ResBody × Option HttpRequest

def genParams (reqBody : ReqBody) (instanceHost : Option String) : Option (String × HttpConnectInfo) :=
  instanceHost.map (fun host =>
    (host ++ "/" ++ reqBody.tailAffix,
      { timeout := reqBody.timeout
        headers := HttpConnectInfo.new.headers.insertAll reqBody.reqHeaders.entries
        username := if reqBody.username ≠ "" ∧ reqBody.password ≠ "" then reqBody.username else ""
        password := if reqBody.username ≠ "" ∧ reqBody.password ≠ "" then reqBody.password else "" }))

def formatRet (url : String) (response : HttpResponse) (resBody : ResBody) : ResBody :=
  { resBody with
    size := Int32.ofNat response.body.length
    resBuf := response.body
    code := UInt64.ofInt response.code
    host := url }

/-- The common part of `PostRequest` and `GetRequest`. An exception of the transfer leaves
the call before `FormatRet`. -/
def transferRequest (send : String → HttpConnectInfo → HttpRequest) : Func := fun reqBody e resBody =>
  match genParams reqBody e.instanceHost with
  | none => (resBody,none)
  | some (url,info) =>
    match e.transfer.response with
    | none => (resBody,none)
    | some response => (formatRet url response resBody,some (send url info))

def postRequest : Func := fun reqBody =>
  transferRequest (fun url info => HttpCurl.new.post url reqBody.requestBody info) reqBody

def getRequest : Func := transferRequest (fun url info => HttpCurl.new.get url info)

/-- `map_func` after the constructor. -/
def mapFunc : SortedMap String Func := (SortedMap.empty.set "Post" postRequest).set "Get" getRequest

def request (type : String) : Func := fun reqBody e resBody =>
  match mapFunc.find type with
  | none => (resBody,none)
  | some f => f reqBody e resBody

structure Call where
  type : String
  reqBody : ReqBody
  encounter : Encounter
  object : ℕ

def step (objects : ℕ → ResBody) (c : Call) : ℕ → ResBody :=
  Function.update objects c.object (request c.type c.reqBody c.encounter (objects c.object)).1

def after (objects : ℕ → ResBody) (calls : List Call) : ℕ → ResBody := calls.foldl step objects

/-- What came of a call: an exchange with its URL, a failed transfer, or neither. -/
inductive Outcome
  | exchanged (url : String) (response : HttpResponse)
  | failed
  | skipped

def outcomeOf (tailAffix : String) (e : Encounter) : Outcome :=
  match e.instanceHost, e.transfer with
  | some host,.performed status headerLines body =>
    .exchanged (host ++ "/" ++ tailAffix) ⟨status.val,body,Transfer.headersOf headerLines⟩
  | some _,.failed _ _ _ => .failed
  | _,_ => .skipped

/-- The outcome of a call, by what it asks for and meets. -/
def Call.outcome (c : Call) : Outcome :=
  if c.type = "Post" ∨ c.type = "Get" then outcomeOf c.reqBody.tailAffix c.encounter else .skipped

def Describes (res : ResBody) : Outcome → Prop
  | .exchanged url response => (res.code = 200 → response.code = 200) ∧ res.resBuf = response.body ∧
      res.size.toInt = response.body.length ∧ res.resHeaders = response.headers ∧ res.host = url
  | .failed | .skipped => res.code ≠ 200

/-- What the object has to be before a call. -/
def Prepared (res : ResBody) : Outcome → Prop
  | .exchanged _ response => response.body.length < 2^31 ∧ res.resHeaders = response.headers
  | .failed => True
  | .skipped => res.code ≠ 200

theorem find_mapFunc (type : String) : mapFunc.find type =
    if type = "Get" then some getRequest else if type = "Post" then some postRequest else none := by
  rw [mapFunc, SortedMap.find_set, SortedMap.find_set, SortedMap.find_empty]

/-- The conversion of a code that can occur is 200 only for 200. -/
theorem ofInt_eq_200 {code : ℤ} (hlo : -1 ≤ code) (hhi : code < 1000) :
    UInt64.ofInt code = 200 ↔ code = 200 := by
  have htoNat : (UInt64.ofInt code).toNat = (code % 2^64).toNat := by
    rw [UInt64.ofInt, UInt64.toNat_ofNat']
    omega
  have h200 : (200 : UInt64).toNat = 200 := rfl
  rw [← UInt64.toNat_inj, htoNat, h200]
  omega

theorem toInt_ofNat (n : ℕ) : (Int32.ofNat n).toInt = n ↔ n < 2^31 := by
  have hsize : Int32.size = 2^32 := rfl
  rw [Int32.toInt_ofNat', hsize, Int.bmod_def]
  omega

/-- What a call leaves in its object, by its outcome. -/
def Leaves (res res' : ResBody) : Outcome → Prop
  | .exchanged url response => res' = formatRet url response res ∧ -1 ≤ response.code ∧ response.code < 1000
  | .failed => res'.code ≠ 200
  | .skipped => res' = res

theorem transferRequest_spec (send : String → HttpConnectInfo → HttpRequest) (reqBody : ReqBody)
    (e : Encounter) (res : ResBody) :
    Leaves res (transferRequest send reqBody e res).1 (outcomeOf reqBody.tailAffix e) := by
  obtain ⟨instanceHost,transfer⟩ := e
  cases instanceHost with
  | none => rfl
  | some host =>
    cases transfer with
    | noHandle => rfl
    | performed status headerLines body =>
      refine ⟨rfl,?_,?_⟩
      · dsimp only
        omega
      · have hlt := status.isLt
        dsimp only
        omega
    | failed error headerLines strerror =>
      have hcode : UInt64.ofInt (if error > 99 then -1 else (error : ℤ)) ≠ 200 := by
        intro h
        have heq := (ofInt_eq_200 (by split <;> omega) (by split <;> omega)).mp h
        split at heq <;> omega
      exact hcode

theorem request_spec (c : Call) (res : ResBody) :
    Leaves res (request c.type c.reqBody c.encounter res).1 c.outcome := by
  rw [request, find_mapFunc, Call.outcome]
  by_cases hget : c.type = "Get"
  · rw [if_pos hget, if_pos (.inr hget)]
    exact transferRequest_spec _ _ _ _
  · by_cases hpost : c.type = "Post"
    · rw [if_neg hget, if_pos hpost, if_pos (.inl hpost)]
      exact transferRequest_spec _ _ _ _
    · rw [if_neg hget, if_neg hpost, if_neg (not_or.mpr ⟨hpost,hget⟩)]
      rfl

/-- The object describes the call exactly when it was prepared for it. -/
theorem describes_iff {res res' : ResBody} {o : Outcome} (h : Leaves res res' o) :
    Describes res' o ↔ Prepared res o := by
  cases o with
  | exchanged url response =>
    obtain ⟨rfl,hlo,hhi⟩ := h
    have hsize := toInt_ofNat response.body.length
    constructor
    · rintro ⟨-,-,hlen,hheaders,-⟩
      exact ⟨hsize.mp hlen,hheaders⟩
    · rintro ⟨hlen,hheaders⟩
      exact ⟨(ofInt_eq_200 hlo hhi).mp,rfl,hsize.mpr hlen,hheaders,rfl⟩
  | failed => exact ⟨fun _ => trivial,fun _ => h⟩
  | skipped =>
    cases h
    rfl

theorem after_append (objects : ℕ → ResBody) (pre : List Call) (c : Call) :
    after objects (pre ++ [c]) = step (after objects pre) c := by
  rw [after, List.foldl_append]
  rfl

/-- After every call of a sequence the object describes the call exactly when, before
every call, the object is right for it: it has no success where nothing is transferred,
and it has the headers of the response and the body fits its size where something is. -/
theorem describes_call_iff (objects : ℕ → ResBody) (calls : List Call) :
    (∀ pre c post, calls = pre ++ c :: post → Describes (after objects (pre ++ [c]) c.object) c.outcome) ↔
    ∀ pre c post, calls = pre ++ c :: post → Prepared (after objects pre c.object) c.outcome := by
  have hone : ∀ pre c, Describes (after objects (pre ++ [c]) c.object) c.outcome ↔
      Prepared (after objects pre c.object) c.outcome := by
    intro pre c
    rw [after_append, step, Function.update_self]
    exact describes_iff (request_spec c _)
  constructor
  · intro h pre c post he
    exact (hone pre c).mp (h pre c post he)
  · intro h pre c post he
    exact (hone pre c).mpr (h pre c post he)

def exampleBody : ReqBody := ⟨"a","x","",50,"","",.empty⟩

def freshResult : ResBody := ⟨0,.empty,0,[],""⟩

/-- Two calls on one object, of which the second one finds no service. -/
def staleCalls : List Call :=
  [⟨"Get",exampleBody,⟨some "http:://h:80",.performed 200 [] [1]⟩,0⟩,⟨"Get",exampleBody,⟨none,.noHandle⟩,0⟩]

/-- The success of the first call is what the second one reports. -/
theorem stale_success : (after (fun _ => freshResult) staleCalls 0).code = 200 ∧
    ¬ ∀ pre c post, staleCalls = pre ++ c :: post →
      Describes (after (fun _ => freshResult) (pre ++ [c]) c.object) c.outcome := by
  refine ⟨rfl,fun h => ?_⟩
  exact h [_] _ [] rfl rfl

end Client
end Kbms
