import Kbms.Ams.Client
import Kbms.Utils.CurlHandle

/-! # The body of a request

A `ReqBody` has the body as a pointer and a size, and `PostRequest` passes the pointer where a
`std::string` is expected. The conversion reads up to the first NUL and does not know the size.
-/
namespace Kbms
open Foundation

/-- `request_body` and `size`: `memory` are the bytes that can be read from the pointer on, and
the first `size` of them are the body. -/
structure Payload where
  memory : List UInt8
  size : Int32
  nonneg : 0 ≤ size.toInt
  readable : size.toInt ≤ memory.length
  fits : memory.length < 2^63

namespace Payload

/-- The bytes of the body. -/
def body (p : Payload) : List UInt8 := p.memory.take p.size.toInt.toNat

/-- The conversion of the pointer to a `std::string`. It is `none` where it would read beyond
the memory. -/
def toStdString (p : Payload) : Option StdString :=
  if 0 ∈ p.memory then
    some ⟨p.memory.takeWhile (· ≠ 0),Nat.lt_of_le_of_lt (List.takeWhile_prefix _).length_le p.fits⟩
  else none

end Payload

/-- What a call of `Client::Request` comes to: no request, a read beyond the memory, or the
options of a request. -/
inductive Sent
  | nothing
  | undefined
  | request (o : Options)

/-- The body that curl posts with these options. -/
def Options.posted (o : Options) : Option (List UInt8) :=
  match o .postFields, o .postFieldSize with
  | some (.chars _ buffer), some (.long n) => if 0 ≤ n then some (buffer.take n.toNat) else none
  | _, _ => none

def Sent.posted : Sent → Option (List UInt8)
  | .request o => o.posted
  | _ => none

namespace Client
variable {lib : CurlLib} {k : ℕ} {reqBody : ReqBody} {p : Payload} {host : String} {x : Exchange} {ret : HttpResponse}

/-- `PostRequest`, with a new `HttpCurl`. -/
def sendPost (lib : CurlLib) (k : ℕ) (reqBody : ReqBody) (p : Payload) (instanceHost : Option String) (x : Exchange)
    (ret : HttpResponse) : Sent :=
  match genParams reqBody instanceHost with
  | none => .nothing
  | some (url,info) =>
    match p.toStdString with
    | none => .undefined
    | some request => .request (CurlHandle.new.call lib k ⟨.post,url,request,info⟩ x ret).inForce

/-- `GetRequest`. -/
def sendGet (lib : CurlLib) (k : ℕ) (reqBody : ReqBody) (instanceHost : Option String) (x : Exchange)
    (ret : HttpResponse) : Sent :=
  match genParams reqBody instanceHost with
  | none => .nothing
  | some (url,info) => .request (CurlHandle.new.call lib k ⟨.get,url,.empty,info⟩ x ret).inForce

/-- `Client::Request`, up to the transfer. -/
def send (lib : CurlLib) (k : ℕ) (type : String) (reqBody : ReqBody) (p : Payload) (instanceHost : Option String)
    (x : Exchange) (ret : HttpResponse) : Sent :=
  if type = "Post" then sendPost lib k reqBody p instanceHost x ret
  else if type = "Get" then sendGet lib k reqBody instanceHost x ret
  else .nothing

/-- The options have the whole string. -/
theorem posted_call (lib : CurlLib) (k : ℕ) (url : String) (request : StdString) (info : HttpConnectInfo) (x : Exchange)
    (ret : HttpResponse) :
    (CurlHandle.new.call lib k ⟨.post,url,request,info⟩ x ret).inForce.posted = some request.bytes := by
  rw [CurlHandle.call_inForce, CurlHandle.callOptions]
  simp [Options.posted,CurlHandle.prepared,CurlHandle.methodOptions,Options.setopt]

theorem posted_send : (send lib k "Post" reqBody p (some host) x ret).posted = p.toStdString.map StdString.bytes := by
  rw [send, if_pos rfl, sendPost, genParams, Option.map_some]
  cases p.toStdString with
  | none => rfl
  | some request => exact posted_call ..

theorem body_length (p : Payload) : p.body.length = p.size.toInt.toNat := by
  have hle := p.readable
  have hpos := p.nonneg
  rw [Payload.body, List.length_take]
  omega

/-- What is posted is what is before the first NUL. -/
theorem toStdString_eq_iff {v : List UInt8} : p.toStdString.map StdString.bytes = some v ↔
    0 ∉ v ∧ ∃ rest, p.memory = v ++ 0 :: rest := by
  rw [Payload.toStdString]
  constructor
  · intro h
    split at h
    · rename_i hmem
      cases h
      refine ⟨fun hz => ?_,?_⟩
      · simpa using List.mem_takeWhile_imp hz
      · have hne : p.memory.dropWhile (· ≠ 0) ≠ [] := fun hnil => by
          simpa using List.dropWhile_eq_nil_iff.mp hnil 0 hmem
        obtain ⟨c,rest,hd⟩ := List.exists_cons_of_ne_nil hne
        have hc : c = 0 := by
          have hhead := List.head?_dropWhile_not (fun c => decide (c ≠ 0)) p.memory
          rw [hd] at hhead
          simpa using hhead
        subst hc
        have happend := List.takeWhile_append_dropWhile (p := fun c => decide (c ≠ 0)) (l := p.memory)
        rw [hd] at happend
        exact ⟨rest,happend.symm⟩
    · cases h
  · rintro ⟨hz,rest,hm⟩
    have hall : ∀ c ∈ v, decide (c ≠ 0) = true := fun c hc => decide_eq_true (fun h => hz (h ▸ hc))
    rw [if_pos (by simp [hm])]
    simp only [Option.map_some, hm, List.takeWhile_append_of_pos hall]
    simp

/-- A `Post` request posts exactly the body if and only if the body has no NUL in it and is
followed by one. -/
theorem posts_body_iff (lib : CurlLib) (k : ℕ) (reqBody : ReqBody) (p : Payload) (host : String) (x : Exchange)
    (ret : HttpResponse) :
    (send lib k "Post" reqBody p (some host) x ret).posted = some p.body ↔
      0 ∉ p.body ∧ p.memory[p.size.toInt.toNat]? = some 0 := by
  rw [posted_send, toStdString_eq_iff]
  refine and_congr_right (fun _ => ?_)
  rw [← body_length]
  constructor
  · rintro ⟨rest,hm⟩
    rw [hm]
    simp
  · intro hget
    refine ⟨p.memory.drop (p.body.length + 1),?_⟩
    have hsplit := List.take_append_drop p.body.length p.memory
    have hdrop := List.drop_eq_getElem_cons (List.getElem?_eq_some_iff.mp hget).1
    rw [(List.getElem?_eq_some_iff.mp hget).2] at hdrop
    rw [hdrop] at hsplit
    rw [body_length] at hsplit ⊢
    exact hsplit.symm

def getABody : ReqBody := ⟨"s","t","",50,"","",.empty⟩

/-- A body with a NUL in it is cut there, and one without a NUL after it goes on. -/
theorem posts_other_bytes :
    (send CurlHandle.manualLib 0 "Post" getABody ⟨[104,0,105,0],3,by decide,by decide,by decide⟩ (some "h") ⟨[],.ok 200⟩
      ⟨0,[],.empty⟩).posted = some [104] ∧
    (send CurlHandle.manualLib 0 "Post" getABody ⟨[104,105,106,0],2,by decide,by decide,by decide⟩ (some "h") ⟨[],.ok 200⟩
      ⟨0,[],.empty⟩).posted = some [104,105,106] ∧
    ¬ ∀ p : Payload, (send CurlHandle.manualLib 0 "Post" getABody p (some "h") ⟨[],.ok 200⟩ ⟨0,[],.empty⟩).posted =
      some p.body := by
  have hcut : (send CurlHandle.manualLib 0 "Post" getABody ⟨[104,0,105,0],3,by decide,by decide,by decide⟩ (some "h")
      ⟨[],.ok 200⟩ ⟨0,[],.empty⟩).posted = some [104] := by
    rw [posted_send]
    rfl
  refine ⟨hcut,?_,fun h => ?_⟩
  · rw [posted_send]
    rfl
  · have hbody := h ⟨[104,0,105,0],3,by decide,by decide,by decide⟩
    rw [hcut] at hbody
    cases hbody

end Client
end Kbms
