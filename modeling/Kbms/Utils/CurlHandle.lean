import Mathlib.Logic.Function.Basic
import Kbms.Utils.Headers

/-! # The options of the curl handle

Each request sets the options of the one handle of its `HttpCurl`, some of them only under a
condition, and resets the handle at its end. The library is a parameter: the code relies on
`curl_easy_reset` to put all options back to their defaults.
-/
namespace Kbms
open Foundation

/-- The options that the code sets. -/
inductive CurlOption
  | post
  | postFields
  | postFieldSize
  | customRequest
  | put
  | upload
  | readFunction
  | readData
  | inFileSize
  | httpHeader
  | url
  | writeFunction
  | writeData
  | headerFunction
  | headerData
  | httpAuth
  | userPwd
  | errorBuffer
  | timeoutMs
  | noSignal
  | followLocation
  | maxRedirs
  deriving DecidableEq, Repr

inductive CurlFunction
  | readCallback
  | writeCallback
  | headerCallback
  deriving DecidableEq, Repr

/-- The value of an option. curl copies the strings, and takes everything else by address: the
characters of a body, the header list, the struct of an upload and the `Response` belong to the
call with this number, and the error buffer to the object. -/
inductive OptionValue
  | long (n : ℤ)
  | text (s : String)
  | function (f : CurlFunction)
  | null
  | chars (call : ℕ) (buffer : List UInt8)
  | slist (call : ℕ) (lines : List String)
  | putData (call : ℕ) (obj : PutDataStruct)
  | response (call : ℕ)
  | errorBuffer

def OptionValue.RefersTo (k : ℕ) : OptionValue → Prop
  | .chars call _ | .slist call _ | .putData call _ | .response call => call = k
  | _ => False

/-- The options in force, without those that have their defaults. -/
abbrev Options := CurlOption → Option OptionValue

def Options.default : Options := fun _ => none

/-- `curl_easy_setopt`. -/
def Options.setopt (o : Options) (name : CurlOption) (v : OptionValue) : Options := Function.update o name (some v)

structure CurlLib where
  reset : Options → Options

/-- What the manual says of `curl_easy_reset`. -/
def CurlLib.Restores (lib : CurlLib) : Prop := ∀ o, lib.reset o = .default

/-- A callback that curl calls in a transfer. -/
inductive Delivery
  | header (data : String) (b : Buffer)
  | body (p : Piece)

/-- The `CURLcode` of a transfer, with what `curl_easy_getinfo` or `curl_easy_strerror` gives. -/
inductive CurlResult
  | ok (status : ℤ)
  | failed (res : ℕ) (strerror : List UInt8) (hres : res ≠ 0)

structure Exchange where
  deliveries : List Delivery
  result : CurlResult

def deliver (ret : HttpResponse) : Delivery → HttpResponse
  | .header data b => { ret with headers := (headerFunction data b.size b.nmemb ret.headers).1 }
  | .body p => (writeCallback p.bytes p.size p.nmemb ret).1

/-- What `ExecuteRequest` makes of the `Response`: it clears it, curl calls the callbacks, and
the result is recorded. -/
def Exchange.response (x : Exchange) (ret : HttpResponse) : HttpResponse :=
  let cleared : HttpResponse := { ret with body := [], code := 0, headers := .empty }
  let received := x.deliveries.foldl deliver cleared
  match x.result with
  | .failed res strerror _ => { received with code := if res > 99 then -1 else res, body := strerror }
  | .ok status => { received with code := status.bmod (2^32) }

/-- `HttpCurl::Impl`. -/
structure CurlHandle where
  options : Options
  timeout : Int32
  followRedirects : Bool
  maxRedirects : Int32
  noSignal : Bool
  username : String
  password : String
  headerFields : HeaderFields

structure HttpCall where
  method : Method
  url : String
  request : StdString
  info : HttpConnectInfo

/-- What a call has led to at the closing brace of `ExecuteRequest`: the object, the options at the
`curl_easy_perform`, and the `Response`. -/
structure Performed where
  handle : CurlHandle
  inForce : Options
  response : HttpResponse

/-- Where flowing off the end of a function with a result leads, which is undefined. -/
inductive FlowOff
  | caller
  | elsewhere

/-- `ExecuteRequest` is declared `bool` and has no return statement. -/
def Performed.returned (p : Performed) : FlowOff → Option Performed
  | .caller => some p
  | .elsewhere => none

namespace CurlHandle

/-- The constructor of `Impl`, where `curl_easy_init` succeeds. -/
def new : CurlHandle := ⟨.default,50,false,-1,false,"","",.empty⟩

def loadInfo (h : CurlHandle) (info : HttpConnectInfo) : CurlHandle :=
  { h with timeout := info.timeout, username := info.username, password := info.password, headerFields := info.headers }

def setopt (h : CurlHandle) (name : CurlOption) (v : OptionValue) : CurlHandle :=
  { h with options := h.options.setopt name v }

/-- The header list of call `k`. -/
def headerList (h : CurlHandle) (k : ℕ) : OptionValue :=
  if h.headerFields.entries = [] then .null
  else .slist k (h.headerFields.entries.map (fun e => formatHeader e.1 e.2))

/-- `ExecuteRequest` up to `curl_easy_perform`. -/
def prepare (h : CurlHandle) (k : ℕ) (url : String) : CurlHandle :=
  let h := h.setopt .httpHeader (h.headerList k)
  let h := h.setopt .url (.text url)
  let h := (h.setopt .writeFunction (.function .writeCallback)).setopt .writeData (.response k)
  let h := (h.setopt .headerFunction (.function .headerCallback)).setopt .headerData (.response k)
  let h :=
    if h.username.length > 0 then
      (h.setopt .httpAuth (.long 1)).setopt .userPwd (.text (h.username ++ ":" ++ h.password))
    else h
  let h := h.setopt .errorBuffer .errorBuffer
  let h :=
    if h.timeout ≠ 0 then (h.setopt .timeoutMs (.long (longArg h.timeout))).setopt .noSignal (.long 1) else h
  let h :=
    if h.followRedirects then
      (h.setopt .followLocation (.long 1)).setopt .maxRedirs (.long h.maxRedirects.toInt)
    else h
  if h.noSignal then h.setopt .noSignal (.long 1) else h

/-- `ExecuteRequest`, up to its closing brace. -/
def executeRequest (lib : CurlLib) (h : CurlHandle) (k : ℕ) (url : String) (x : Exchange) (ret : HttpResponse) :
    Performed where
  handle := { h.prepare k url with options := lib.reset (h.prepare k url).options }
  inForce := (h.prepare k url).options
  response := x.response ret

def post (lib : CurlLib) (h : CurlHandle) (k : ℕ) (url : String) (data : StdString) (x : Exchange)
    (ret : HttpResponse) : Performed :=
  let h := h.setopt .post (.long 1)
  let h := h.setopt .postFields (.chars k (data.bytes ++ [0]))
  let h := h.setopt .postFieldSize (.long data.bytes.length)
  h.executeRequest lib k url x ret

def get (lib : CurlLib) (h : CurlHandle) (k : ℕ) (url : String) (x : Exchange) (ret : HttpResponse) : Performed :=
  h.executeRequest lib k url x ret

def del (lib : CurlLib) (h : CurlHandle) (k : ℕ) (url : String) (x : Exchange) (ret : HttpResponse) : Performed :=
  (h.setopt .customRequest (.text "DELETE")).executeRequest lib k url x ret

def put (lib : CurlLib) (h : CurlHandle) (k : ℕ) (url : String) (data : StdString) (x : Exchange)
    (ret : HttpResponse) : Performed :=
  let obj := PutDataStruct.put data
  let h := (h.setopt .put (.long 1)).setopt .upload (.long 1)
  let h := (h.setopt .readFunction (.function .readCallback)).setopt .readData (.putData k obj)
  let h := h.setopt .inFileSize (.long obj.infileSize)
  h.executeRequest lib k url x ret

/-- Call number `k` of an `HttpCurl`. -/
def call (lib : CurlLib) (h : CurlHandle) (k : ℕ) (c : HttpCall) (x : Exchange) (ret : HttpResponse) : Performed :=
  match c.method with
  | .post => (h.loadInfo c.info).post lib k c.url c.request x ret
  | .get => (h.loadInfo c.info).get lib k c.url x ret
  | .put => (h.loadInfo c.info).put lib k c.url c.request x ret
  | .delete => (h.loadInfo c.info).del lib k c.url x ret

end CurlHandle

/-- An earlier call on the same object, with what it met. -/
structure EarlierCall where
  number : ℕ
  call : HttpCall
  exchange : Exchange
  ret : HttpResponse

/-- The object after calls that have returned. -/
def CurlHandle.after (lib : CurlLib) (off : FlowOff) (h : CurlHandle) (history : List EarlierCall) : Option CurlHandle :=
  history.foldlM (fun h e => ((h.call lib e.number e.call e.exchange e.ret).returned off).map Performed.handle) h

namespace CurlHandle
variable {lib : CurlLib} {h : CurlHandle} {k : ℕ} {c : HttpCall} {x : Exchange} {ret ret' : HttpResponse}
  {url : String} {name : CurlOption} {v : OptionValue}

/-- The object between two calls: no call sets the members that `LoadInfo` does not. -/
structure Clean (h : CurlHandle) : Prop where
  options : h.options = .default
  followRedirects : h.followRedirects = false
  maxRedirects : h.maxRedirects = -1
  noSignal : h.noSignal = false

theorem clean_new : Clean new := ⟨rfl,rfl,rfl,rfl⟩

/-- `ExecuteRequest` changes nothing but the options before the transfer. -/
theorem prepare_eq (h : CurlHandle) (k : ℕ) (url : String) :
    h.prepare k url = { h with options := (h.prepare k url).options } := by
  unfold prepare
  dsimp only
  split <;> split <;> split <;> split <;> rfl

theorem executeRequest_clean (hreset : lib.Restores) {o : Options} (hc : Clean { h with options := .default }) :
    Clean (({ h with options := o } : CurlHandle).executeRequest lib k url x ret).handle := by
  rw [executeRequest, prepare_eq]
  exact ⟨hreset _,hc.followRedirects,hc.maxRedirects,hc.noSignal⟩

theorem call_clean (hreset : lib.Restores) (hc : Clean h) : Clean (h.call lib k c x ret).handle := by
  have hbase : ∀ o, Clean (({ h.loadInfo c.info with options := o } : CurlHandle).executeRequest lib k c.url x ret).handle :=
    fun o => executeRequest_clean hreset ⟨rfl,hc.followRedirects,hc.maxRedirects,hc.noSignal⟩
  rw [call]
  split
  all_goals exact hbase _

theorem after_clean (hreset : lib.Restores) (hc : Clean h) (history : List EarlierCall) :
    ∃ h', h.after lib .caller history = some h' ∧ Clean h' := by
  induction history generalizing h with
  | nil => exact ⟨h,rfl,hc⟩
  | cons e history ih => exact ih (call_clean hreset hc)

/-- After `LoadInfo` the object is as a new one. -/
theorem loadInfo_clean (hc : Clean h) (info : HttpConnectInfo) : h.loadInfo info = new.loadInfo info := by
  obtain ⟨options,timeout,followRedirects,maxRedirects,noSignal,username,password,headerFields⟩ := h
  obtain ⟨rfl,rfl,rfl,rfl⟩ := hc
  rfl

theorem call_congr (hc : Clean h) : h.call lib k c x ret = new.call lib k c x ret' := by
  rw [call, loadInfo_clean hc]
  rfl

/-- A failed transfer is not reported with a code of success. -/
theorem failed_code {res : ℕ} {strerror : List UInt8} {hres : res ≠ 0} (hx : x.result = .failed res strerror hres) :
    (x.response ret).code ≠ 200 ∧ (x.response ret).code ≠ 204 := by
  rw [Exchange.response, hx]
  dsimp only
  split <;> omega

section Requests

/-- The options are those of a request. -/
structure Carries (o : Options) (k : ℕ) (q : HttpRequest) : Prop where
  post : o .post = some (.long 1) ↔ q.method = .post
  put : o .put = some (.long 1) ↔ q.method = .put
  delete : o .customRequest = some (.text "DELETE") ↔ q.method = .delete
  url : o .url = some (.text q.url)
  headers : o .httpHeader = some (headerList { new with headerFields := q.headers } k)
  timeout : o .timeoutMs = q.timeoutMs.map OptionValue.long
  userPwd : o .userPwd = q.userpwd.map OptionValue.text

/-- The options that `ExecuteRequest` sets, and those that it leaves. -/
def prepared (h : CurlHandle) (k : ℕ) (url : String) : Options
  | .httpHeader => some (h.headerList k)
  | .url => some (.text url)
  | .writeFunction => some (.function .writeCallback)
  | .writeData | .headerData => some (.response k)
  | .headerFunction => some (.function .headerCallback)
  | .errorBuffer => some .errorBuffer
  | .httpAuth => if h.username.length > 0 then some (.long 1) else h.options .httpAuth
  | .userPwd => if h.username.length > 0 then some (.text (h.username ++ ":" ++ h.password)) else h.options .userPwd
  | .timeoutMs => if h.timeout ≠ 0 then some (.long (longArg h.timeout)) else h.options .timeoutMs
  | .noSignal => if h.timeout ≠ 0 then some (.long 1) else h.options .noSignal
  | name => h.options name

theorem prepare_options (hf : h.followRedirects = false) (hn : h.noSignal = false) :
    (h.prepare k url).options = prepared h k url := by
  obtain ⟨options,timeout,followRedirects,maxRedirects,noSignal,username,password,headerFields⟩ := h
  cases hf
  cases hn
  funext name
  by_cases hu : username.length > 0 <;> by_cases ht : timeout ≠ 0 <;> cases name <;>
    simp [prepare,prepared,setopt,Options.setopt,headerList,hu,ht]

/-- The options that a method sets before `ExecuteRequest`. -/
def methodOptions (k : ℕ) (request : StdString) : Method → Options
  | .post => ((Options.default.setopt .post (.long 1)).setopt .postFields (.chars k (request.bytes ++ [0]))).setopt
      .postFieldSize (.long request.bytes.length)
  | .get => .default
  | .put => ((((Options.default.setopt .put (.long 1)).setopt .upload (.long 1)).setopt .readFunction
      (.function .readCallback)).setopt .readData (.putData k (.put request))).setopt .inFileSize
      (.long (PutDataStruct.put request).infileSize)
  | .delete => Options.default.setopt .customRequest (.text "DELETE")

/-- The options of call `k`, read off the call alone. -/
def callOptions (k : ℕ) (c : HttpCall) : Options :=
  prepared { new.loadInfo c.info with options := methodOptions k c.request c.method } k c.url

theorem call_inForce (lib : CurlLib) (k : ℕ) (c : HttpCall) (x : Exchange) (ret : HttpResponse) :
    (new.call lib k c x ret).inForce = callOptions k c := by
  obtain ⟨method,url,request,info⟩ := c
  cases method <;> exact prepare_options rfl rfl

/-- The options at the transfer are those of the request that the callers reason about. -/
theorem carries (lib : CurlLib) (k : ℕ) (c : HttpCall) (x : Exchange) (ret : HttpResponse) (body : String) :
    Carries (new.call lib k c x ret).inForce k ((HttpCurl.new.loadInfo c.info).executeRequest c.method c.url body) := by
  obtain ⟨method,url,request,info⟩ := c
  rw [call_inForce, callOptions]
  refine ⟨?_,?_,?_,rfl,rfl,?_,?_⟩
  · cases method <;> simp [prepared,methodOptions,Options.setopt,Options.default,HttpCurl.executeRequest]
  · cases method <;> simp [prepared,methodOptions,Options.setopt,Options.default,HttpCurl.executeRequest]
  · cases method <;> simp [prepared,methodOptions,Options.setopt,Options.default,HttpCurl.executeRequest]
  · by_cases ht : info.timeout = 0
    · cases method <;>
        simp [prepared,methodOptions,Options.setopt,Options.default,HttpCurl.executeRequest,HttpCurl.loadInfo,loadInfo,ht]
    · simp [prepared,HttpCurl.executeRequest,HttpCurl.loadInfo,loadInfo,ht]
  · by_cases hu : info.username.length > 0
    · simp [prepared,HttpCurl.executeRequest,HttpCurl.loadInfo,loadInfo,hu]
    · cases method <;>
        simp [prepared,methodOptions,Options.setopt,Options.default,HttpCurl.executeRequest,HttpCurl.loadInfo,loadInfo,hu]

end Requests

section Responses

def Delivery.line : Delivery → Option String
  | .header data b => some (String.ofList (data.toList.take (sizeMul b.size b.nmemb)))
  | .body _ => none

def Delivery.bytes : Delivery → List UInt8
  | .header _ _ => []
  | .body p => p.bytes

/-- The transfer as a whole, where the status has three digits. -/
def transferOf (ds : List Delivery) : CurlResult → Transfer
  | .failed res strerror _ => .failed res (ds.filterMap Delivery.line) strerror
  | .ok status =>
    .performed ⟨status.toNat % 1000,Nat.mod_lt _ (Nat.succ_pos 999)⟩ (ds.filterMap Delivery.line) (ds.flatMap Delivery.bytes)

theorem deliver_all (ds : List Delivery) (ret : HttpResponse) : ds.foldl deliver ret =
    { ret with
      headers := (ds.filterMap Delivery.line).foldl Transfer.headerCallback ret.headers
      body := ret.body ++ ds.flatMap Delivery.bytes } := by
  induction ds generalizing ret with
  | nil => simp
  | cons d ds ih =>
    rw [List.foldl_cons, ih]
    cases d with
    | header data b => rfl
    | body p => simp [deliver,writeCallback_piece,List.filterMap_cons,Delivery.line,Delivery.bytes]

/-- What becomes of the `Response` is what the callers reason about. -/
theorem response_transfer (hstatus : ∀ status, x.result = .ok status → 0 ≤ status ∧ status < 1000) :
    some (x.response ret) = (transferOf x.deliveries x.result).response := by
  rw [Exchange.response, deliver_all]
  cases hr : x.result with
  | failed res strerror hres => rfl
  | ok status =>
    obtain ⟨hpos,hlt⟩ := hstatus status hr
    have hcode : status.bmod (2^32) = ((status.toNat % 1000 : ℕ) : ℤ) := by
      have hmod : status.bmod (2^32) = status := Int.bmod_eq_of_le (by omega) (by omega)
      rw [hmod]
      omega
    simp only [transferOf, Transfer.response, hcode, List.nil_append]
    rfl

end Responses

/-- The call `c`, as `used` on an object with a history and a `Response` that held `ret`, and as `fresh`
on a new object. -/
structure Independent (k : ℕ) (c : HttpCall) (x : Exchange) (ret : HttpResponse) (used fresh : Performed) : Prop where
  inForce : used.inForce = fresh.inForce
  options : used.inForce = callOptions k c
  carries : ∀ body, Carries used.inForce k ((HttpCurl.new.loadInfo c.info).executeRequest c.method c.url body)
  released : ∀ name v, used.handle.options name = some v → ¬ v.RefersTo k
  response : used.response = fresh.response
  received : used.response = x.response ret
  transfer : (∀ status, x.result = .ok status → 0 ≤ status ∧ status < 1000) →
    some used.response = (transferOf x.deliveries x.result).response
  failed : ∀ res strerror hres, x.result = .failed res strerror hres →
    used.response.code ≠ 200 ∧ used.response.code ≠ 204

theorem call_response (lib : CurlLib) (k : ℕ) (c : HttpCall) (x : Exchange) (ret : HttpResponse) :
    (new.call lib k c x ret).response = x.response ret := by
  rw [call]
  split <;> rfl

/-- For all histories of calls, whatever they met, and all contents of the two `Response`s, where
`ExecuteRequest` comes back to its caller from its end. -/
theorem history_independent (hreset : lib.Restores) {off : FlowOff} (hoff : off = .caller)
    (history : List EarlierCall) (k : ℕ) (c : HttpCall) (x : Exchange) (ret ret' : HttpResponse) :
    ∃ h used fresh, new.after lib off history = some h ∧ (h.call lib k c x ret).returned off = some used ∧
      (new.call lib k c x ret').returned off = some fresh ∧ Independent k c x ret used fresh := by
  subst hoff
  obtain ⟨h,hafter,hclean⟩ := after_clean hreset clean_new history
  have hcongr : h.call lib k c x ret = new.call lib k c x ret := call_congr hclean
  refine ⟨h,_,_,hafter,rfl,rfl,?_⟩
  rw [hcongr]
  refine ⟨?_,call_inForce lib k c x ret,fun body => carries lib k c x ret body,fun name v hv => ?_,?_,
    call_response lib k c x ret,fun hstatus => ?_,fun res strerror hres hx => ?_⟩
  · rw [call_inForce, call_inForce]
  · rw [(call_clean hreset clean_new).options] at hv
    cases hv
  · rw [call_response, call_response]
    rfl
  · rw [call_response]
    exact response_transfer hstatus
  · rw [call_response]
    exact failed_code hx

section Witness

def manualLib : CurlLib := ⟨fun _ => .default⟩

def upload : EarlierCall :=
  ⟨0,⟨.put,"http://h/a",⟨[1,2,3],by decide⟩,⟨.empty,50,"user","secret"⟩⟩,⟨[],.failed 28 [84] (by decide)⟩,⟨200,[9],.empty⟩⟩

def download : HttpCall := ⟨.get,"http://h/b",.empty,⟨.empty,0,"",""⟩⟩

/-- Nothing of an upload with a password is in force in the request after it. -/
theorem history_independent_after_upload : ∃ h used fresh, new.after manualLib .caller [upload] = some h ∧
    (h.call manualLib 1 download ⟨[],.ok 200⟩ ⟨7,[8],.empty⟩).returned .caller = some used ∧
    (new.call manualLib 1 download ⟨[],.ok 200⟩ ⟨0,[],.empty⟩).returned .caller = some fresh ∧
    Independent 1 download ⟨[],.ok 200⟩ ⟨7,[8],.empty⟩ used fresh :=
  history_independent (fun _ => rfl) rfl [upload] 1 download ⟨[],.ok 200⟩ ⟨7,[8],.empty⟩ ⟨0,[],.empty⟩

end Witness

end CurlHandle
end Kbms
