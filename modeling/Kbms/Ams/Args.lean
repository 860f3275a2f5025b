import Kbms.Utils.Json

/-! # The constants of the registry protocol and the URLs made of them -/
namespace Kbms

/-- The members of `Args` that differ between its objects. -/
structure Args where
  host : String
  port : String

namespace Args

def httpPrefix : String := "http:://"
def colon : String := ":"
def minusSign : String := "-"
def slantingBar : String := "/"

def instanceId : String := "instanceId"
def app : String := "app"
def ipAddr : String := "ipAddr"
def statusPageUrl : String := "statusPageUrl"
def statusPageUrlValue : String := "info"
def healthCheckUrl : String := "healthCheckUrl"
def healthCheckUrlValue : String := "health"
def homePageUrl : String := "homePageUrl"
def secureVipAddress : String := "secureVipAddress"
def vipAddress : String := "vipAddress"
def atClass : String := "@class"
def atClassValue : String := "com.netflix.appinfo.InstanceInfo$DefaultDataCenterInfo"
def name : String := "name"
def nameValue : String := "MyOwn"
def dataCenterInfo : String := "dataCenterInfo"
def hostName : String := "hostName"
def sstatus : String := "status"
def renewalIntervalInsecs : String := "renewalIntervalInSecs"
def durationInsecs : String := "durationInSecs"
def leaseInfo : String := "leaseInfo"
def dolar : String := "$"
def atEnabled : String := "@enabled"
def atEnabledValue : Bool := true
def portName : String := "port"
def instanceField : String := "instance"
def application : String := "application"
/-- The status of a valid instance. -/
def validStatus : String := "UP"
def downTag : String := "status?value=DOWN"

/-- `Args::GetUrl` of a page of this server. -/
def getUrl (args : Args) (tail : String) : String :=
  join "" [httpPrefix,args.host,colon,args.port,slantingBar,tail]

/-- `Args::GetUrl` of another server. -/
def getUrlOf (ip port : String) : String := join "" [httpPrefix,ip,colon,port]

end Args
end Kbms
