import Kbms.Ams.Addresses
import Kbms.Utils.HttpCurl

/-! # The requests to the registry

Each of them starts from a new `HttpConnectInfo`. What goes into it is the timeout that
the object has and, for some, the headers of `Args`.
-/
namespace Kbms
open Foundation

namespace Args

def registryHeader : HeaderFields := SortedMap.empty.insertAll
  [("Accept","*/*"),("Accept-Encoding","gzip, deflate"),("Connection","keep-alive"),
    ("Content-Type","application/json")]

def serHeader : HeaderFields := SortedMap.empty.insertAll [("Accept","application/json")]

end Args

/-- The members of `Interact::Impl` that its requests are made of. -/
structure Interact where
  url : String
  registrant : Registrant
  timeout : UInt32

namespace Interact

/-- The constructor. The member `timeout_` is initialised with itself and keeps what its
place in memory holds, and the argument is not used. -/
def new (url : String) (registrant : Registrant) (_timeout memory : UInt32) : Interact :=
  ⟨url,registrant,memory⟩

/-- The loop that copies the headers of `Args`. -/
def connectInfo (timeout : Int32) (headers : HeaderFields) : HttpConnectInfo :=
  { HttpConnectInfo.new with
    headers := HttpConnectInfo.new.headers.insertAll headers.entries
    timeout := timeout }

def reqRegisterCenter (lib : JsonLib) (i : Interact) (serviceStatus : String) : HttpRequest :=
  HttpCurl.new.post (i.registrant.registUrl i.url) (i.registrant.genRegistBody lib serviceStatus)
    (connectInfo i.timeout.toInt32 Args.registryHeader)

def sendHeartbeat (i : Interact) : HttpRequest :=
  HttpCurl.new.put (i.registrant.heartUrl i.url) "" (connectInfo i.timeout.toInt32 .empty)

def reqSerList (i : Interact) : HttpRequest :=
  HttpCurl.new.get i.url (connectInfo i.timeout.toInt32 Args.serHeader)

def interrupt (i : Interact) : List HttpRequest :=
  [HttpCurl.new.put (i.registrant.urlPut i.url) "" (connectInfo 1000 .empty),
    HttpCurl.new.del (i.registrant.urlDel i.url) (connectInfo 1000 .empty)]

end Interact
end Kbms
