import Mathlib.Data.String.Basic
import Kbms.Foundation.SortedMap

/-! # The HTTP client around curl

`HttpCurl` takes over the settings of a request from an `HttpConnectInfo` and sets the
options of the handle from them. The transfer itself is an outcome of the environment.
-/
namespace Kbms
open Foundation

abbrev HeaderFields := SortedMap String String

structure HttpConnectInfo where
  headers : HeaderFields
  timeout : Int32
  username : String
  password : String

/-- The constructor of `HttpConnectInfo`. -/
def HttpConnectInfo.new : HttpConnectInfo := ⟨.empty,50,"",""⟩

/-- An `int` argument of `curl_easy_setopt` that is read as a `long`: its register is
extended with zeros. -/
def longArg (value : Int32) : ℤ := value.toUInt32.toNat

inductive Method
  | post
  | get
  | put
  | delete
  deriving DecidableEq

/-- The options of the handle when `curl_easy_perform` is called. The headers are given
to it as lines `key:value`. -/
structure HttpRequest where
  method : Method
  url : String
  body : String
  headers : HeaderFields
  timeoutMs : Option ℤ
  userpwd : Option String

/-- The members of `HttpCurl::Impl` that its callers change. -/
structure HttpCurl where
  timeout : Int32
  headerFields : HeaderFields
  username : String
  password : String

namespace HttpCurl

/-- The constructor of `Impl`. -/
def new : HttpCurl := ⟨50,.empty,"",""⟩

def loadInfo (_ : HttpCurl) (info : HttpConnectInfo) : HttpCurl :=
  ⟨info.timeout,info.headers,info.username,info.password⟩

def executeRequest (c : HttpCurl) (method : Method) (url body : String) : HttpRequest :=
  ⟨method,url,body,c.headerFields,if c.timeout ≠ 0 then some (longArg c.timeout) else none,
    if c.username.length > 0 then some (c.username ++ ":" ++ c.password) else none⟩

def post (c : HttpCurl) (url request : String) (info : HttpConnectInfo) : HttpRequest :=
  (c.loadInfo info).executeRequest .post url request

def put (c : HttpCurl) (url request : String) (info : HttpConnectInfo) : HttpRequest :=
  (c.loadInfo info).executeRequest .put url request

def get (c : HttpCurl) (url : String) (info : HttpConnectInfo) : HttpRequest :=
  (c.loadInfo info).executeRequest .get url ""

def del (c : HttpCurl) (url : String) (info : HttpConnectInfo) : HttpRequest :=
  (c.loadInfo info).executeRequest .delete url ""

end HttpCurl

/-- `Response`, with the bytes of its body. -/
structure HttpResponse where
  code : ℤ
  body : List UInt8
  headers : HeaderFields

/-- What `curl_easy_init` and `curl_easy_perform` may do. A status has three digits. -/
inductive Transfer
  | noHandle
  | failed (error : ℕ) (headerLines : List String) (strerror : List UInt8)
  | performed (status : Fin 1000) (headerLines : List String) (body : List UInt8)

namespace Transfer

def isSpace (c : Char) : Bool := c = ' ' || ('\t' ≤ c && c ≤ '\r')

def trim (cs : List Char) : String :=
  String.ofList ((cs.dropWhile isSpace).reverse.dropWhile isSpace).reverse

/-- `HeaderCallback`, for one line. -/
def headerCallback (headers : HeaderFields) (header : String) : HeaderFields :=
  match header.toList.span (fun c => c ≠ ':') with
  | (line,[]) => if (trim line).length = 0 then headers else headers.set (trim line) "present"
  | (key,_ :: value) => headers.set (trim key) (trim value)

def headersOf (headerLines : List String) : HeaderFields := headerLines.foldl headerCallback .empty

/-- The response after `ExecuteRequest`; `none` is the exception of `GetCurlHandle`. -/
def response : Transfer → Option HttpResponse
  | .noHandle => none
  | .failed error headerLines strerror =>
    some ⟨if error > 99 then -1 else error,strerror,headersOf headerLines⟩
  | .performed status headerLines body => some ⟨status.val,body,headersOf headerLines⟩

end Transfer
end Kbms
