import Kbms.Foundation.History
import Kbms.Service.Responses

/-! # What a handler reads of its request

`Initialize` copies the path and the address into the context. The body, the headers and the URI
stay in the request, which belongs to libevent and is freed some time after `evhttp_send_reply`.
Only the send-response callback of the request leads there, so whoever reads before he calls it
gets what the client sent.
-/
namespace Kbms
open Foundation History

/-- What the context uses of a request of libevent. `findHeader` is `evhttp_find_header` on its input
headers, for the text of a key. -/
structure EvhttpRequest where
  uri : Bytes
  path : String
  remoteHost : Bytes
  findHeader : Bytes → Option Bytes
  inputBuffer : Bytes

/-- The members that `Initialize` sets. `reqBody` is the request into whose buffer it points. -/
structure ContextFields where
  uri : String
  remoteIp : Bytes
  reqBody : Option ℕ
  bodySize : ℕ

/-- The getters of the context. -/
inductive Getter
  | bodyByString
  | oriUri
  | uri
  | getRemoteIp
  | findRequestHeader (key : Bytes)
  deriving DecidableEq, Repr

inductive Answer
  | bytes (value : Bytes)
  | text (value : String)
  | header (value : Option Bytes)
  deriving DecidableEq, Repr

/-- What the client has sent. -/
def EvhttpRequest.answer (r : EvhttpRequest) : Getter → Answer
  | .bodyByString => .bytes r.inputBuffer
  | .oriUri => .bytes r.uri
  | .uri => .text r.path
  | .getRemoteIp => .bytes r.remoteHost
  | .findRequestHeader key => .header (r.findHeader (cText (cStr key)))

namespace ContextFields

/-- `Initialize`. -/
def initializeFrom (req : ℕ) (r : EvhttpRequest) : ContextFields where
  uri := r.path
  remoteIp := r.remoteHost
  reqBody := if r.inputBuffer.length > 0 then some req else none
  bodySize := r.inputBuffer.length

/-- A getter of the context of request `req`, in the memory of libevent. What is read of a freed
request is anything. -/
def get (memory : ℕ → Option EvhttpRequest) (req : ℕ) (c : ContextFields) (garbage : Answer) : Getter → Answer
  | .bodyByString =>
    if c.bodySize = 0 then .bytes []
    else ((c.reqBody.bind memory).map (fun r => Answer.bytes (r.inputBuffer.take c.bodySize))).getD garbage
  | .oriUri => ((memory req).map (fun r => Answer.bytes r.uri)).getD garbage
  | .uri => .text c.uri
  | .getRemoteIp => .bytes c.remoteIp
  | .findRequestHeader key =>
    ((memory req).map (fun r => Answer.header (r.findHeader (cText (cStr key))))).getD garbage

end ContextFields

/-- The members that are copies. -/
def Getter.copied : Getter → Bool
  | .uri | .getRemoteIp => true
  | _ => false

theorem ContextFields.get_live {memory : ℕ → Option EvhttpRequest} {req : ℕ} {r : EvhttpRequest}
    (hlive : memory req = some r) (garbage : Answer) (x : Getter) :
    (initializeFrom req r).get memory req garbage x = r.answer x := by
  cases x with
  | uri | getRemoteIp => rfl
  | oriUri | findRequestHeader key =>
    rw [get, hlive]
    rfl
  | bodyByString =>
    rw [get, initializeFrom, EvhttpRequest.answer]
    by_cases hempty : r.inputBuffer.length = 0
    · rw [if_pos hempty, List.length_eq_zero_iff.mp hempty]
    · rw [if_neg hempty, if_pos (Nat.pos_of_ne_zero hempty)]
      simp [hlive]

theorem ContextFields.get_copied {x : Getter} (hx : x.copied = true) (memory : ℕ → Option EvhttpRequest) (req : ℕ)
    (r : EvhttpRequest) (garbage : Answer) : (initializeFrom req r).get memory req garbage x = r.answer x := by
  cases x with
  | uri | getRemoteIp => rfl
  | bodyByString | oriUri | findRequestHeader key => cases hx

/-- The service with the requests in the memory of libevent and their contexts. `sent` are those
that `evhttp_send_reply` has been called for. -/
structure Contexts where
  service : Service
  memory : ℕ → Option EvhttpRequest
  fields : ℕ → Option ContextFields
  sent : List ℕ

inductive ContextEvent (H : Type*)
  | service (e : Event H)
  | arrived (req : ℕ) (r : EvhttpRequest)
  | got (req : ℕ) (x : Getter) (answer : Answer)
  | freed (req : ℕ)

namespace Contexts
variable {H : Type*}

/-- `get k x`: user code calls a getter of the context that it got together with the
send-response callback number `k`, at any time from any thread. -/
inductive Action
  | receive (r : EvhttpRequest) (now : TimePoint) (k : ℕ)
  | service (a : Service.Action)
  | get (k : ℕ) (x : Getter) (garbage : Answer)
  | free (req : ℕ)

def receive (setup : Setup H) (s : Contexts) (r : EvhttpRequest) (now : TimePoint) (k : ℕ) :
    Option (Contexts × List (ContextEvent H)) :=
  (Service.coreHandleRequest setup s.service r.path now k).map (fun o =>
    ({ s with
      service := o.1
      memory := Function.update s.memory s.service.requests (some r)
      fields := Function.update s.fields s.service.requests (some (.initializeFrom s.service.requests r)) },
      .arrived s.service.requests r :: o.2.map .service))

/-- A step of the service in which no request arrives. -/
def serve (setup : Setup H) (s : Contexts) : Service.Action → Option (Contexts × List (ContextEvent H))
  | .receive _ _ _ => none
  | a => (Service.step setup s.service a).map (fun o =>
      ({ s with service := o.1, sent := s.sent ++ (Service.replies o.2).map Prod.fst },o.2.map .service))

def get (s : Contexts) (k : ℕ) (x : Getter) (garbage : Answer) : Option (Contexts × List (ContextEvent H)) :=
  (s.service.respcbs[k]?).bind (fun ctx => (s.fields ctx.req).map (fun c =>
    (s,[.got ctx.req x (c.get s.memory ctx.req garbage x)])))

def free (s : Contexts) (req : ℕ) : Option (Contexts × List (ContextEvent H)) :=
  if req ∈ s.sent then some ({ s with memory := Function.update s.memory req none },[.freed req]) else none

def step (setup : Setup H) (s : Contexts) : Action → Option (Contexts × List (ContextEvent H))
  | .receive r now k => receive setup s r now k
  | .service a => serve setup s a
  | .get k x garbage => get s k x garbage
  | .free req => free s req

/-- All runs of a service and of what its handlers read. -/
def machine (setup : Setup H) : Machine Contexts Action (ContextEvent H) where
  initial s := ∃ st, s = ⟨.new setup st,fun _ => none,fun _ => none,[]⟩
  step := step setup

theorem runs_new {P : List (ContextEvent H) → Contexts → Action → Prop} (setup : Setup H) (st : TPoolState) :
    (machine setup).Runs P [] ⟨.new setup st,fun _ => none,fun _ => none,[]⟩ := .start ⟨st,rfl⟩

variable {setup : Setup H} {s t : Contexts} {tr es : List (ContextEvent H)}
  {P : List (ContextEvent H) → Contexts → Action → Prop}

theorem step_cases {a : Action} (h : step setup s a = some (t,es)) :
    (∃ r now k service ses, Service.coreHandleRequest setup s.service r.path now k = some (service,ses) ∧
      t = { s with
        service := service
        memory := Function.update s.memory s.service.requests (some r)
        fields := Function.update s.fields s.service.requests (some (.initializeFrom s.service.requests r)) } ∧
      es = .arrived s.service.requests r :: ses.map .service) ∨
    (∃ b service ses, (∀ path now k, b ≠ .receive path now k) ∧
      Service.step setup s.service b = some (service,ses) ∧
      t = { s with service := service, sent := s.sent ++ (Service.replies ses).map Prod.fst } ∧
      es = ses.map .service) ∨
    (∃ req x garbage c, s.fields req = some c ∧ t = s ∧ es = [.got req x (c.get s.memory req garbage x)]) ∨
    ∃ req, req ∈ s.sent ∧ t = { s with memory := Function.update s.memory req none } ∧ es = [.freed req] := by
  cases a with
  | receive r now k =>
    obtain ⟨⟨service,ses⟩,hs,he⟩ := Option.map_eq_some_iff.mp h
    cases he
    exact .inl ⟨r,now,k,service,ses,hs,rfl,rfl⟩
  | service b =>
    have hb : ∀ path now k, b ≠ .receive path now k := by
      rintro path now k rfl
      cases h
    have hserve : step setup s (.service b) = (Service.step setup s.service b).map (fun o =>
        ({ s with service := o.1, sent := s.sent ++ (Service.replies o.2).map Prod.fst },o.2.map .service)) := by
      cases b with
      | receive path now k => exact absurd rfl (hb path now k)
      | _ => rfl
    rw [hserve] at h
    obtain ⟨⟨service,ses⟩,hs,he⟩ := Option.map_eq_some_iff.mp h
    cases he
    exact .inr (.inl ⟨b,service,ses,hb,hs,rfl,rfl⟩)
  | get k x garbage =>
    obtain ⟨ctx,hk,h⟩ := Option.bind_eq_some_iff.mp h
    obtain ⟨c,hc,he⟩ := Option.map_eq_some_iff.mp h
    cases he
    exact .inr (.inr (.inl ⟨ctx.req,x,garbage,c,hc,rfl,rfl⟩))
  | free req =>
    simp only [step, free] at h
    split at h
    · rename_i hsent
      cases h
      exact .inr (.inr (.inr ⟨req,hsent,rfl,rfl⟩))
    · cases h

def serviceEvent : ContextEvent H → Option (Event H)
  | .service e => some e
  | _ => none

def serviceTrace (tr : List (ContextEvent H)) : List (Event H) := tr.filterMap serviceEvent

@[simp] theorem serviceTrace_append (xs ys : List (ContextEvent H)) :
    serviceTrace (xs ++ ys) = serviceTrace xs ++ serviceTrace ys := List.filterMap_append
@[simp] theorem serviceTrace_map (ses : List (Event H)) : serviceTrace (ses.map .service) = ses := by
  rw [serviceTrace, List.filterMap_map]
  simp [Function.comp_def,serviceEvent]

/-- The service inside. -/
def toService (setup : Setup H) :
    Machine.Projection (machine setup) Machine.Any (Service.machine setup) Machine.Any where
  state s := s.service
  event := serviceEvent
  initial := by
    rintro _ ⟨st,rfl⟩
    exact ⟨st,rfl⟩
  step := by
    intro tr s a t es _ _ hs hr
    change (Service.machine setup).Runs Machine.Any (serviceTrace tr ++ serviceTrace es) t.service
    rcases step_cases hs with ⟨r,now,k,service,ses,hb,rfl,rfl⟩ | ⟨b,service,ses,_,hb,rfl,rfl⟩ |
      ⟨req,x,garbage,c,_,rfl,rfl⟩ | ⟨req,_,rfl,rfl⟩
    · have hserved : serviceTrace (.arrived s.service.requests r :: ses.map .service) = ses := serviceTrace_map ses
      rw [hserved]
      exact hr.next (a := Service.Action.receive r.path now k) trivial hb
    · rw [serviceTrace_map]
      exact hr.next trivial hb
    · exact (List.append_nil _).symm ▸ hr
    · exact (List.append_nil _).symm ▸ hr

theorem runs_service (hr : (machine setup).Runs P tr s) :
    (Service.machine setup).Runs Machine.Any (serviceTrace tr) s.service :=
  (toService setup).runs hr.any

/-- A getter of a copied member, or any getter as long as nobody has called the send-response callback of the
request, gives what the client sent. -/
def Reads (pre : List (ContextEvent H)) : ContextEvent H → Prop
  | .got req x answer => x.copied = true ∨ req ∉ Service.respondedTo (serviceTrace pre) →
      ∃ r, .arrived req r ∈ pre ∧ answer = r.answer x
  | _ => True

structure Inv (tr : List (ContextEvent H)) (s : Contexts) : Prop where
  arrived : ∀ req r, .arrived req r ∈ tr → req < s.service.requests ∧ s.fields req = some (.initializeFrom req r) ∧
    (s.memory req = some r ∨ req ∈ s.sent)
  fields : ∀ req c, s.fields req = some c → ∃ r, .arrived req r ∈ tr
  sent : s.sent = (Service.replies (serviceTrace tr)).map Prod.fst
  reads : Each Reads tr

theorem requests_eq {b : Service.Action} {service service' : Service} {ses : List (Event H)}
    (hb : ∀ path now k, b ≠ .receive path now k) (hs : Service.step setup service b = some (service',ses)) :
    service'.requests = service.requests := by
  cases b with
  | receive path now k => exact absurd rfl (hb path now k)
  | schedule a =>
    obtain ⟨_,_,_,_,rfl,_⟩ := Service.schedule_cases hs
    rfl
  | enter i =>
    obtain ⟨_,_,_,⟨_,_,_,_,rfl,_⟩ | ⟨_,rfl,_⟩⟩ := Service.enter_cases hs
    · rfl
    · rfl
  | finish i o =>
    obtain ⟨_,_,_,_,rfl,_⟩ := Service.finish_cases hs
    rfl
  | respond thread k resBody =>
    obtain ⟨_,_,rfl,_⟩ := Service.complete_cases hs
    rfl
  | io a evbufferNew =>
    obtain ⟨_,_,_,_,rfl,_⟩ := Service.ioStep_cases hs
    rfl

/-- Events that no getter is called in. -/
theorem Reads.frame (h : Each Reads tr) (hes : ∀ req x answer, .got req x answer ∉ es) : Each Reads (tr ++ es) := by
  refine h.append (fun ys e zs he => ?_)
  cases e with
  | got req x answer => exact absurd (he ▸ List.mem_append_right _ List.mem_cons_self) (hes req x answer)
  | service e | arrived req r | freed req => trivial

theorem Inv.receive {r : EvhttpRequest} {now : TimePoint} {k : ℕ} {service : Service} {ses : List (Event H)}
    (h : Inv tr s) (hs : Service.coreHandleRequest setup s.service r.path now k = some (service,ses)) :
    Inv (tr ++ .arrived s.service.requests r :: ses.map .service) { s with
      service := service
      memory := Function.update s.memory s.service.requests (some r)
      fields := Function.update s.fields s.service.requests (some (.initializeFrom s.service.requests r)) } := by
  obtain ⟨_,_,_,_,_,_,rfl,rfl⟩ := Service.coreHandleRequest_cases hs
  refine ⟨fun req q hq => ?_,fun req c hc => ?_,?_,Reads.frame h.reads (by simp)⟩
  · rcases List.mem_append.mp hq with hq | hq
    · obtain ⟨hlt,hfields,hmemory⟩ := h.arrived req q hq
      have hne : req ≠ s.service.requests := by omega
      dsimp only
      rw [Function.update_of_ne hne, Function.update_of_ne hne]
      exact ⟨by omega,hfields,hmemory⟩
    · obtain ⟨rfl,rfl⟩ : req = s.service.requests ∧ q = r := by simpa using hq
      dsimp only
      rw [Function.update_self, Function.update_self]
      exact ⟨by omega,rfl,.inl rfl⟩
  · by_cases hne : req = s.service.requests
    · subst hne
      exact ⟨r,List.mem_append_right _ List.mem_cons_self⟩
    · dsimp only at hc
      rw [Function.update_of_ne hne] at hc
      obtain ⟨q,hq⟩ := h.fields req c hc
      exact ⟨q,List.mem_append_left _ hq⟩
  · rw [serviceTrace_append, Service.replies_append, List.map_append, ← h.sent]
    exact (List.append_nil _).symm

theorem Inv.serve {b : Service.Action} {service : Service} {ses : List (Event H)} (h : Inv tr s)
    (hb : ∀ path now k, b ≠ .receive path now k) (hs : Service.step setup s.service b = some (service,ses)) :
    Inv (tr ++ ses.map .service)
      { s with service := service, sent := s.sent ++ (Service.replies ses).map Prod.fst } where
  arrived req r hr := by
    obtain ⟨hlt,hfields,hmemory⟩ := h.arrived req r (by simpa using hr)
    rw [← requests_eq hb hs] at hlt
    exact ⟨hlt,hfields,hmemory.imp_right (List.mem_append_left _)⟩
  fields req c hc := by
    obtain ⟨r,hr⟩ := h.fields req c hc
    exact ⟨r,List.mem_append_left _ hr⟩
  sent := by rw [serviceTrace_append, serviceTrace_map, Service.replies_append, List.map_append, h.sent]
  reads := Reads.frame h.reads (by simp)

/-- A getter is called: the context is the one of a request that has arrived, and its memory
is freed only after a reply. -/
theorem Inv.get {req : ℕ} {x : Getter} {garbage : Answer} {c : ContextFields} (hr : (machine setup).Runs P tr s)
    (h : Inv tr s) (hc : s.fields req = some c) : Inv (tr ++ [.got req x (c.get s.memory req garbage x)]) s where
  arrived q r hq := h.arrived q r (by simpa using hq)
  fields q c hc := by
    obtain ⟨r,hr⟩ := h.fields q c hc
    exact ⟨r,List.mem_append_left _ hr⟩
  sent := by
    rw [serviceTrace_append, h.sent]
    exact congrArg _ (congrArg _ (List.append_nil _).symm)
  reads := by
    refine h.reads.snoc (fun hx => ?_)
    obtain ⟨r,harrived⟩ := h.fields req c hc
    obtain ⟨_,hfields,hmemory⟩ := h.arrived req r harrived
    obtain rfl : c = .initializeFrom req r := Option.some.inj (hc.symm.trans hfields)
    refine ⟨r,harrived,?_⟩
    rcases hx with hcopied | hcalled
    · exact ContextFields.get_copied hcopied s.memory req r garbage
    · refine ContextFields.get_live (hmemory.resolve_right (fun hsent => hcalled ?_)) garbage x
      rw [h.sent] at hsent
      obtain ⟨reply,hreply,rfl⟩ := List.mem_map.mp hsent
      obtain ⟨f,hf,rfl⟩ := List.mem_map.mp ((Service.replies_sublist (runs_service hr)).subset hreply)
      exact List.mem_map.mpr ⟨f,hf,rfl⟩

theorem Inv.free {req : ℕ} (h : Inv tr s) (hsent : req ∈ s.sent) :
    Inv (tr ++ [.freed req]) { s with memory := Function.update s.memory req none } where
  arrived q r hq := by
    obtain ⟨hlt,hfields,hmemory⟩ := h.arrived q r (by simpa using hq)
    refine ⟨hlt,hfields,?_⟩
    by_cases heq : q = req
    · exact .inr (heq ▸ hsent)
    · dsimp only
      rwa [Function.update_of_ne heq]
  fields q c hc := by
    obtain ⟨r,hr⟩ := h.fields q c hc
    exact ⟨r,List.mem_append_left _ hr⟩
  sent := by
    rw [serviceTrace_append, h.sent]
    exact congrArg _ (congrArg _ (List.append_nil _).symm)
  reads := Reads.frame h.reads (by simp)

theorem inv_of_runs (hr : (machine setup).Runs P tr s) : Inv tr s := by
  refine hr.invariant (I := Inv) ?_ (fun tr s a t es hr h _ hs => ?_)
  · rintro _ ⟨st,rfl⟩
    exact ⟨by simp,by simp,rfl,each_nil⟩
  · rcases step_cases hs with ⟨r,now,k,service,ses,hb,rfl,rfl⟩ | ⟨b,service,ses,hb,hstep,rfl,rfl⟩ |
      ⟨req,x,garbage,c,hc,rfl,rfl⟩ | ⟨req,hsent,rfl,rfl⟩
    · exact h.receive hb
    · exact h.serve hb hstep
    · exact h.get hr hc
    · exact h.free hsent

/-- Whenever a getter of a context is called, by whatever thread: the path and the address are
those of the request, and so are its body, its URI and its headers as long as nobody has called the
send-response callback of the request. -/
theorem getters_answer (hr : (machine setup).Runs P tr s) : Each Reads tr := (inv_of_runs hr).reads

section Example

def answerOf : ContextEvent H → Option (Getter × Answer)
  | .got _ x answer => some (x,answer)
  | _ => none

def reader : Setup ℕ where
  registrations := [.default (some 1)]
  threadNum := .two
  expiration := 0
  capacity := 1
  evbuffer := .copying

def asciiLower (c : UInt8) : UInt8 := if 65 ≤ c ∧ c ≤ 90 then c + 32 else c

/-- The first header with the key, without regard to case. -/
def firstHeader (headers : List ResponseHeader) (key : Bytes) : Option Bytes :=
  (headers.find? (fun h => h.1.map asciiLower = key.map asciiLower)).map Prod.snd

/-- A handler reads, responds, and reads again when libevent has freed the request. -/
def lateReader : List Action :=
  [.service (.schedule .init),.service (.schedule (.spawn 0)),.service (.io .start true),
    .receive ⟨[47,97],"/a",[49],firstHeader [([75],[118]),([107],[119])],[1,0,2]⟩ 0 0,
    .service (.schedule (.acquire 0 0)),.service (.enter 0),.get 0 .bodyByString (.bytes [9]),
    .get 0 (.findRequestHeader [107,0]) (.bytes [9]),.service (.respond (.worker 0) 0 []),
    .service (.io (.recv 1) true),.service (.io .swap true),.service (.io .call true),.free 0,
    .get 0 .bodyByString (.bytes [9]),.get 0 .uri (.bytes [9])]

theorem getters_answer_late_reader : ∃ tr, ∃ s : Contexts, (machine reader).Runs Machine.Any tr s ∧
    tr.filterMap answerOf = [(.bodyByString,.bytes [1,0,2]),(.findRequestHeader [107,0],.header (some [118])),
      (.bodyByString,.bytes [9]),(.uri,.text "/a")] ∧ Each Reads tr := by
  obtain ⟨c,hc,hanswers⟩ : ∃ c, (machine reader).replay (fun _ _ _ => true) lateReader
      ([],⟨.new reader .unknowing,fun _ => none,fun _ => none,[]⟩) = some c ∧
      c.1.filterMap answerOf = [(.bodyByString,.bytes [1,0,2]),(.findRequestHeader [107,0],.header (some [118])),
        (.bodyByString,.bytes [9]),(.uri,.text "/a")] := ⟨_,rfl,rfl⟩
  have hr := Machine.replay_runs (P := Machine.Any) (fun _ _ _ _ => trivial) (runs_new reader .unknowing) hc
  exact ⟨_,_,hr,hanswers,getters_answer hr⟩

end Example

end Contexts
end Kbms
