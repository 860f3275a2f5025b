import Mathlib.Data.List.TakeWhile
import Kbms.Service.Replies

/-! # The response a handler builds and the one that is sent

A handler sets the status code of its context and adds fields to the header list of its
request. The functor of `Complete` takes the request from the context, and with it the
header list, but it never reads the status code.
-/
namespace Kbms
open Foundation

/-- The name and the value of a header field. -/
abbrev ResponseHeader := Bytes × Bytes

/-- What is set for a reply: `status_code_` of the context, and `output_headers` of the
request. -/
structure Outgoing where
  statusCode : Int32
  outputHeaders : List ResponseHeader
  deriving DecidableEq, Repr

/-- A call that a handler makes on its context. -/
inductive Setting
  | setStatusCode (code : Int32)
  | addResponseHeader (key value : Bytes)
  deriving DecidableEq, Repr

/-- What a C function reads at a pointer to text. -/
def cText (p : Bytes) : Bytes := p.takeWhile (· ≠ 0)

namespace Outgoing

/-- `status_code_` starts as 200, and a new request has no output headers. -/
def new : Outgoing := ⟨200,[]⟩

def setStatusCode (out : Outgoing) (code : Int32) : Outgoing := { out with statusCode := code }

def getStatusCode (out : Outgoing) : Int32 := out.statusCode

/-- `evhttpAddHeader key value` is whether `evhttp_add_header` takes the field. It appends
it to the list then, and otherwise returns -1 and leaves the list as it is. -/
def addResponseHeader (evhttpAddHeader : Bytes → Bytes → Bool) (out : Outgoing) (key value : Bytes) : Outgoing :=
  -- `data()` ends with a NUL, and libevent copies both texts up to their first one.
  if evhttpAddHeader (cText (cStr key)) (cText (cStr value)) then
    { out with outputHeaders := out.outputHeaders ++ [(cText (cStr key),cText (cStr value))] }
  else out

def set (evhttpAddHeader : Bytes → Bytes → Bool) (out : Outgoing) : Setting → Outgoing
  | .setStatusCode code => out.setStatusCode code
  | .addResponseHeader key value => out.addResponseHeader evhttpAddHeader key value

end Outgoing

/-- A call of `evhttp_send_reply`, with the header list that its request has then. -/
structure SentReply where
  req : ℕ
  code : Int32
  reason : String
  headers : List ResponseHeader
  body : Bytes
  deriving DecidableEq, Repr

def httpOk : Int32 := 200

/-- The lambda of `Complete`, with all that `evhttp_send_reply` gets. -/
def Reply.send (f : Reply) (buffer : Evbuffer) (out : Outgoing) (evbufferNew : Bool) : Option SentReply :=
  (f.run buffer evbufferNew).map (fun m => ⟨m.1,httpOk,"OK",out.outputHeaders,m.2⟩)

section Settings

def Setting.status : Setting → Option Int32
  | .setStatusCode code => some code
  | _ => none

def Setting.header : Setting → Option ResponseHeader
  | .addResponseHeader key value => some (key,value)
  | _ => none

/-- The status code set last, or 200. -/
def lastStatus (settings : List Setting) : Int32 := ((settings.filterMap Setting.status).getLast?).getD 200

def addedHeaders (settings : List Setting) : List ResponseHeader := settings.filterMap Setting.header

/-- The message that `settings` and `body` describe, for the request `req`. -/
structure AsBuilt (req : ℕ) (settings : List Setting) (body : Bytes) (m : SentReply) : Prop where
  req : m.req = req
  code : m.code = lastStatus settings
  headers : ∀ h ∈ addedHeaders settings, h ∈ m.headers
  body : m.body = body

/-- libevent takes the field, and takes all of it. -/
def Addable (evhttpAddHeader : Bytes → Bytes → Bool) (h : ResponseHeader) : Prop :=
  0 ∉ h.1 ∧ 0 ∉ h.2 ∧ evhttpAddHeader h.1 h.2 = true

variable {add : Bytes → Bytes → Bool} {settings later : List Setting} {s : Bytes}

theorem cText_cStr : cText (cStr s) = cText s := by
  unfold cText cStr
  induction s with
  | nil => rfl
  | cons c s ih =>
    rw [List.cons_append, List.takeWhile_cons, List.takeWhile_cons, ih]

theorem not_mem_cText : 0 ∉ cText s := by
  intro h
  have hne := List.mem_takeWhile_imp h
  simp at hne

theorem cText_of_not_mem (h : 0 ∉ s) : cText s = s := by
  apply List.takeWhile_eq_self_iff.mpr
  intro c hc
  have hne : c ≠ 0 := fun he => h (he ▸ hc)
  simpa using hne

/-- The context keeps the code that was set last. -/
theorem statusCode_foldl (settings : List Setting) :
    (settings.foldl (Outgoing.set add) .new).getStatusCode = lastStatus settings := by
  induction settings using List.reverseRecOn with
  | nil => rfl
  | append_singleton settings setting ih =>
    rw [List.foldl_append, List.foldl_cons, List.foldl_nil, lastStatus, List.filterMap_append]
    cases setting with
    | setStatusCode code => simp [Outgoing.set,Outgoing.setStatusCode,Outgoing.getStatusCode,Setting.status]
    | addResponseHeader key value =>
      have hsame : ((settings.foldl (Outgoing.set add) .new).addResponseHeader add key value).getStatusCode =
          (settings.foldl (Outgoing.set add) .new).getStatusCode := by
        unfold Outgoing.addResponseHeader
        split <;> rfl
      rw [Outgoing.set, hsame, ih, lastStatus]
      simp [Setting.status]

theorem addedHeaders_append (settings later : List Setting) :
    addedHeaders (settings ++ later) = addedHeaders settings ++ addedHeaders later := List.filterMap_append

theorem addedHeaders_header (key value : Bytes) :
    addedHeaders [.addResponseHeader key value] = [(key,value)] := rfl

/-- The list has the texts of those added fields that libevent takes. -/
theorem mem_outputHeaders {h : ResponseHeader} : h ∈ (settings.foldl (Outgoing.set add) .new).outputHeaders ↔
    ∃ g ∈ addedHeaders settings, add (cText g.1) (cText g.2) = true ∧ h = (cText g.1,cText g.2) := by
  induction settings using List.reverseRecOn with
  | nil => simp [Outgoing.new,addedHeaders]
  | append_singleton settings setting ih =>
    rw [List.foldl_append, List.foldl_cons, List.foldl_nil, addedHeaders_append]
    cases setting with
    | setStatusCode code =>
      have hnone : addedHeaders [.setStatusCode code] = [] := rfl
      rw [hnone, List.append_nil]
      exact ih
    | addResponseHeader key value =>
      rw [Outgoing.set, Outgoing.addResponseHeader, cText_cStr, cText_cStr, addedHeaders_header]
      split
      · rename_i hadd
        rw [List.mem_append, ih, List.mem_singleton]
        constructor
        · rintro (⟨g,hg,hrest⟩ | rfl)
          · exact ⟨g,List.mem_append_left _ hg,hrest⟩
          · exact ⟨(key,value),List.mem_append_right _ (List.mem_singleton_self _),hadd,rfl⟩
        · rintro ⟨g,hg,hrest⟩
          rcases List.mem_append.mp hg with hg | hg
          · exact Or.inl ⟨g,hg,hrest⟩
          · obtain rfl := List.mem_singleton.mp hg
            exact Or.inr hrest.2
      · rename_i hadd
        rw [ih]
        constructor
        · rintro ⟨g,hg,hrest⟩
          exact ⟨g,List.mem_append_left _ hg,hrest⟩
        · rintro ⟨g,hg,htaken,hh⟩
          rcases List.mem_append.mp hg with hg | hg
          · exact ⟨g,hg,htaken,hh⟩
          · obtain rfl := List.mem_singleton.mp hg
            exact absurd htaken hadd

/-- Whatever is set after them, fields are all in the list exactly when libevent takes
each of them whole. -/
theorem headers_present_iff (settings later : List Setting) :
    (∀ h ∈ addedHeaders settings, h ∈ ((settings ++ later).foldl (Outgoing.set add) .new).outputHeaders) ↔
      ∀ h ∈ addedHeaders settings, Addable add h := by
  constructor
  · intro hall h hh
    obtain ⟨g,_,htaken,rfl⟩ := mem_outputHeaders.mp (hall h hh)
    exact ⟨not_mem_cText,not_mem_cText,htaken⟩
  · intro hall h hh
    obtain ⟨hkey,hvalue,htaken⟩ := hall h hh
    apply mem_outputHeaders.mpr
    have hmem : h ∈ addedHeaders (settings ++ later) := by
      rw [addedHeaders_append]
      exact List.mem_append_left _ hh
    refine ⟨h,hmem,?_⟩
    rw [cText_of_not_mem hkey, cText_of_not_mem hvalue]
    exact ⟨htaken,rfl⟩

/-- The functor sends what was built exactly when a buffer is there, the code set last is
the one it always sends, and libevent took all fields. -/
theorem send_asBuilt_iff {buffer : Evbuffer} {ctx : HttpContext} {body : Bytes} {evbufferNew : Bool} :
    (∃ m, Reply.send ⟨ctx,body⟩ buffer ((settings ++ later).foldl (Outgoing.set add) .new) evbufferNew = some m ∧
      AsBuilt ctx.req settings body m) ↔
      evbufferNew = true ∧ lastStatus settings = httpOk ∧ ∀ h ∈ addedHeaders settings, Addable add h := by
  cases evbufferNew with
  | false => simp [Reply.send,Reply.run]
  | true =>
    simp only [Reply.send, Reply.run, if_pos, Evbuffer.add_cStr, Option.map_some, Option.some.injEq,
      exists_eq_left', true_and]
    rw [← headers_present_iff settings later]
    constructor
    · intro h
      exact ⟨h.code.symm,h.headers⟩
    · rintro ⟨hcode,hheaders⟩
      exact ⟨rfl,hcode.symm,hheaders,rfl⟩

end Settings

/-- The service with what is set for each of its requests. -/
structure Responding where
  service : Service
  outgoing : ℕ → Outgoing

/-- `ran` belongs to a functor of `Complete` that the IO thread has called. -/
inductive ResponseEvent (H : Type*)
  | service (e : Event H)
  | configured (req : ℕ) (setting : Setting)
  | ran (evbufferNew : Bool) (sent : Option SentReply)

namespace Responding
variable {H : Type*}

/-- `configure k setting`: user code makes a call on the context that it got together with
the send-response callback number `k`, at any time from any thread. -/
inductive Action
  | service (a : Service.Action)
  | configure (k : ℕ) (setting : Setting)

def configure (add : Bytes → Bytes → Bool) (s : Responding) (k : ℕ) (setting : Setting) :
    Option (Responding × List (ResponseEvent H)) :=
  (s.service.respcbs[k]?).map (fun ctx =>
    ({ s with outgoing := Function.update s.outgoing ctx.req ((s.outgoing ctx.req).set add setting) },
      [.configured ctx.req setting]))

/-- The functors that are called in the events `es` of the service. -/
def ranEvents (buffer : Evbuffer) (outgoing : ℕ → Outgoing) (evbufferNew : Bool) (es : List (Event H)) : List (ResponseEvent H) :=
  (IoThread.called (Service.ioTrace es)).map (fun f =>
    .ran evbufferNew (f.send buffer (outgoing f.ctx.req) evbufferNew))

def serve (setup : Setup H) (s : Responding) (a : Service.Action) :
    Option (Responding × List (ResponseEvent H)) :=
  (Service.step setup s.service a).map (fun r =>
    ({ s with service := r.1 },r.2.map .service ++ ranEvents setup.evbuffer s.outgoing a.allocates r.2))

def step (add : Bytes → Bytes → Bool) (setup : Setup H) (s : Responding) :
    Action → Option (Responding × List (ResponseEvent H))
  | .service a => serve setup s a
  | .configure k setting => configure add s k setting

/-- All runs of a service and of the calls that its handlers make on their contexts. -/
def machine (add : Bytes → Bytes → Bool) (setup : Setup H) : Machine Responding Action (ResponseEvent H) where
  initial s := ∃ st, s = ⟨.new setup st,fun _ => .new⟩
  step := step add setup

theorem runs_new {P : List (ResponseEvent H) → Responding → Action → Prop} (add : Bytes → Bytes → Bool)
    (setup : Setup H) (st : TPoolState) : (machine add setup).Runs P [] ⟨.new setup st,fun _ => .new⟩ :=
  .start ⟨st,rfl⟩

variable {add : Bytes → Bytes → Bool} {setup : Setup H} {s t : Responding} {tr es : List (ResponseEvent H)}
variable {P : List (ResponseEvent H) → Responding → Action → Prop}

theorem step_cases {a : Action} (h : step add setup s a = some (t,es)) :
    (∃ b service ses, a = .service b ∧ Service.step setup s.service b = some (service,ses) ∧
      t = { s with service := service } ∧ es = ses.map .service ++ ranEvents setup.evbuffer s.outgoing b.allocates ses) ∨
    ∃ k setting ctx, a = .configure k setting ∧ s.service.respcbs[k]? = some ctx ∧
      t = { s with outgoing := Function.update s.outgoing ctx.req ((s.outgoing ctx.req).set add setting) } ∧
      es = [.configured ctx.req setting] := by
  cases a with
  | service b =>
    obtain ⟨⟨service,ses⟩,hs,he⟩ := Option.map_eq_some_iff.mp h
    cases he
    exact Or.inl ⟨b,service,ses,rfl,hs,rfl,rfl⟩
  | configure k setting =>
    obtain ⟨ctx,hk,he⟩ := Option.map_eq_some_iff.mp h
    cases he
    exact Or.inr ⟨k,setting,ctx,rfl,hk,rfl,rfl⟩

def serviceEvent : ResponseEvent H → Option (Event H)
  | .service e => some e
  | _ => none

def ranEvent : ResponseEvent H → Option (Bool × Option SentReply)
  | .ran evbufferNew sent => some (evbufferNew,sent)
  | _ => none

def settingOf (req : ℕ) : ResponseEvent H → Option Setting
  | .configured r setting => if r = req then some setting else none
  | _ => none

def serviceTrace (tr : List (ResponseEvent H)) : List (Event H) := tr.filterMap serviceEvent
/-- The functors that the IO thread has run, in that order, with what each of them sent. -/
def ran (tr : List (ResponseEvent H)) : List (Bool × Option SentReply) := tr.filterMap ranEvent
/-- The calls on the context of a request. -/
def settingsOf (req : ℕ) (tr : List (ResponseEvent H)) : List Setting := tr.filterMap (settingOf req)

@[simp] theorem serviceTrace_append (xs ys : List (ResponseEvent H)) :
    serviceTrace (xs ++ ys) = serviceTrace xs ++ serviceTrace ys := List.filterMap_append
@[simp] theorem ran_append (xs ys : List (ResponseEvent H)) : ran (xs ++ ys) = ran xs ++ ran ys :=
  List.filterMap_append
@[simp] theorem settingsOf_append (req : ℕ) (xs ys : List (ResponseEvent H)) :
    settingsOf req (xs ++ ys) = settingsOf req xs ++ settingsOf req ys := List.filterMap_append

/-- The events of a step of the service, as the three observers see them. -/
theorem served_events (buffer : Evbuffer) (outgoing : ℕ → Outgoing) (evbufferNew : Bool) (ses : List (Event H)) :
    serviceTrace (ses.map .service ++ ranEvents buffer outgoing evbufferNew ses) = ses ∧
    ran (ses.map .service ++ ranEvents buffer outgoing evbufferNew ses) =
      (IoThread.called (Service.ioTrace ses)).map (fun f =>
        (evbufferNew,f.send buffer (outgoing f.ctx.req) evbufferNew)) ∧
    ∀ req, settingsOf req (ses.map .service ++ ranEvents buffer outgoing evbufferNew ses) = [] := by
  refine ⟨?_,?_,fun req => ?_⟩
  · rw [serviceTrace_append, serviceTrace, serviceTrace, ranEvents, List.filterMap_map, List.filterMap_map]
    simp [Function.comp_def,serviceEvent]
  · rw [ran_append, ran, ran, ranEvents, List.filterMap_map, List.filterMap_map]
    simp [Function.comp_def,ranEvent]
  · rw [settingsOf_append, settingsOf, settingsOf, ranEvents, List.filterMap_map, List.filterMap_map]
    simp [Function.comp_def,settingOf]

/-- The service inside. -/
def toService (add : Bytes → Bytes → Bool) (setup : Setup H) : Machine.Projection (machine add setup)
    Machine.Any (Service.machine setup) Machine.Any where
  state s := s.service
  event := serviceEvent
  initial := by
    rintro _ ⟨st,rfl⟩
    exact ⟨st,rfl⟩
  step := by
    intro tr s a t es _ _ hs hr
    change (Service.machine setup).Runs Machine.Any (serviceTrace tr ++ serviceTrace es) t.service
    rcases step_cases hs with ⟨b,service,ses,_,hb,rfl,rfl⟩ | ⟨k,setting,ctx,_,_,rfl,rfl⟩
    · rw [(served_events setup.evbuffer s.outgoing b.allocates ses).1]
      exact hr.next trivial hb
    · exact (List.append_nil _).symm ▸ hr

theorem runs_service (hr : (machine add setup).Runs P tr s) :
    (Service.machine setup).Runs Machine.Any (serviceTrace tr) s.service :=
  (toService add setup).runs hr.any

/-- What is set for a request is what the calls on its context made of it. -/
theorem outgoing_eq (hr : (machine add setup).Runs P tr s) (req : ℕ) :
    s.outgoing req = (settingsOf req tr).foldl (Outgoing.set add) .new := by
  refine hr.invariant (I := fun tr s => s.outgoing req = (settingsOf req tr).foldl (Outgoing.set add) .new)
    ?_ ?_
  · rintro _ ⟨st,rfl⟩
    rfl
  · intro tr s a t es _ ih _ hs
    rw [settingsOf_append]
    rcases step_cases hs with ⟨b,service,ses,_,_,rfl,rfl⟩ | ⟨k,setting,ctx,_,_,rfl,rfl⟩
    · rw [(served_events setup.evbuffer s.outgoing b.allocates ses).2.2 req, List.append_nil]
      exact ih
    · rw [List.foldl_append, ← ih]
      by_cases hreq : ctx.req = req
      · subst hreq
        simp [settingsOf,settingOf]
      · have hne : req ≠ ctx.req := fun h => hreq h.symm
        simp [settingsOf,settingOf,hreq,Function.update_of_ne hne]

/-- The status code that a handler set last is in its context: `Complete` could read it. -/
theorem getStatusCode_eq (hr : (machine add setup).Runs P tr s) (req : ℕ) :
    (s.outgoing req).getStatusCode = lastStatus (settingsOf req tr) := by
  rw [outgoing_eq hr req]
  exact statusCode_foldl _

theorem ran_length (hr : (machine add setup).Runs P tr s) :
    (ran tr).length = (IoThread.called (Service.ioTrace (serviceTrace tr))).length := by
  refine hr.invariant (I := fun tr _ =>
    (ran tr).length = (IoThread.called (Service.ioTrace (serviceTrace tr))).length) (fun _ _ => rfl) ?_
  intro tr s a t es _ ih _ hs
  rw [ran_append, List.length_append, ih, serviceTrace_append, Service.ioTrace_append,
    IoThread.called_append, List.length_append]
  rcases step_cases hs with ⟨b,service,ses,_,_,rfl,rfl⟩ | ⟨k,setting,ctx,_,_,rfl,rfl⟩
  · obtain ⟨hserved,hran,_⟩ := served_events setup.evbuffer s.outgoing b.allocates ses
    rw [hserved, hran, List.length_map]
  · rfl

/-- Every response is run, or is still in the mailbox. -/
theorem ran_pending (hr : (machine add setup).Runs P tr s) :
    (Service.responses (serviceTrace tr)).length = (ran tr).length + s.service.ioThread.pending.length := by
  have hservice := runs_service hr
  rw [← Service.submitted_responses hservice, IoThread.submitted_eq (Service.runs_ioThread hservice),
    List.length_append, ran_length hr]

/-- A step that responds runs no functor. -/
theorem responded_called_nil {service service' : Service} {ses : List (Event H)} {b : Service.Action}
    {thread : Thread} {k : ℕ} {ctx : HttpContext} {body : Bytes}
    (h : Service.step setup service b = some (service',ses)) (hm : .responded thread k ctx body ∈ ses) :
    IoThread.called (Service.ioTrace ses) = [] := by
  rcases Service.step_cases h with ⟨path,now,k,hreq⟩ | ⟨b,pool,pes,_,_,_,_,_,rfl⟩ |
    ⟨i,pool,pes,cl,_,_,_,_,_,rfl⟩ | ⟨thread,k,ctx,resBody,_,_,_,rfl⟩ |
    ⟨b,evbufferNew,io,ies,_,_,_,_,rfl⟩
  · obtain ⟨_,_,_,_,_,_,_,rfl⟩ := Service.coreHandleRequest_cases hreq
    rfl
  · rw [Service.ioTrace_map]
    rfl
  · rw [Service.ioTrace_append, Service.ioTrace_map]
    rfl
  · rfl
  · rcases Service.mem_ioEvents hm with ⟨d,he⟩ | ⟨req,body,he⟩
    · cases he
    · cases he

/-- The functor that a step calls as number `n` of the run is that of the response number
`n`. -/
theorem called_response {b : Service.Action} {service : Service} {ses : List (Event H)} {f : Reply} {n : ℕ}
    (hr : (machine add setup).Runs P tr s) (hb : Service.step setup s.service b = some (service,ses))
    (hn : (ran tr).length ≤ n) (hf : (IoThread.called (Service.ioTrace ses))[n - (ran tr).length]? = some f) :
    (Service.responses (serviceTrace tr ++ ses))[n]? = some f := by
  have hnext : (Service.machine setup).Runs Machine.Any (serviceTrace tr ++ ses) service :=
    (runs_service hr).next trivial hb
  apply Service.called_response hnext
  rw [ran_length hr] at hn hf
  rw [Service.ioTrace_append, IoThread.called_append, List.getElem?_append_right hn]
  exact hf

/-- The functor of a response is not called in the step of the response. -/
theorem not_ran_yet {b : Service.Action} {service : Service} {ses : List (Event H)}
    {thread : Thread} {k : ℕ} {ctx : HttpContext} {body : Bytes}
    (hr : (machine add setup).Runs P tr s) (hb : Service.step setup s.service b = some (service,ses))
    (hm : .responded thread k ctx body ∈ ses) (ys : List (ResponseEvent H)) :
    (ran tr ++ (IoThread.called (Service.ioTrace ses)).map (fun f =>
      (b.allocates,f.send setup.evbuffer (s.outgoing f.ctx.req) b.allocates)))[
        (Service.responses (serviceTrace (tr ++ ys))).length]? = none := by
  rw [responded_called_nil hb hm, List.map_nil, List.append_nil, List.getElem?_eq_none_iff,
    serviceTrace_append, Service.responses_append, List.length_append, ran_pending hr]
  omega

/-- The functor of a response sends its body to its request, with the header list as the
calls before the response and some later ones have left it. -/
theorem ran_response (hr : (machine add setup).Runs P tr s) {pre post : List (ResponseEvent H)}
    {thread : Thread} {k : ℕ} {ctx : HttpContext} {body : Bytes} {evbufferNew : Bool} {sent : Option SentReply}
    (htr : tr = pre ++ .service (.responded thread k ctx body) :: post)
    (hran : (ran tr)[(Service.responses (serviceTrace pre)).length]? = some (evbufferNew,sent)) :
    ∃ later, sent = Reply.send ⟨ctx,body⟩ setup.evbuffer
      ((settingsOf ctx.req pre ++ later).foldl (Outgoing.set add) .new) evbufferNew := by
  refine hr.invariant (I := fun tr _ => ∀ pre post thread k ctx body evbufferNew sent,
    tr = pre ++ .service (.responded thread k ctx body) :: post →
    (ran tr)[(Service.responses (serviceTrace pre)).length]? = some (evbufferNew,sent) →
    ∃ later, sent = Reply.send ⟨ctx,body⟩ setup.evbuffer
      ((settingsOf ctx.req pre ++ later).foldl (Outgoing.set add) .new) evbufferNew)
    (by simp) ?_ pre post thread k ctx body evbufferNew sent htr hran
  intro tr s a t es hr ih _ hs pre post thread k ctx body evbufferNew sent htr hran
  rw [ran_append] at hran
  rcases step_cases hs with ⟨b,service,ses,_,hb,rfl,rfl⟩ | ⟨j,setting,c,_,_,rfl,rfl⟩
  · obtain ⟨_,hnew,_⟩ := served_events setup.evbuffer s.outgoing b.allocates ses
    rw [hnew] at hran
    rcases Foundation.occurrence_append htr with ⟨ys,rfl⟩ | ⟨ys,rfl,hys⟩
    · rcases Nat.lt_or_ge (Service.responses (serviceTrace pre)).length
        (ran (pre ++ .service (.responded thread k ctx body) :: ys)).length with hlt | hge
      · rw [List.getElem?_append_left hlt] at hran
        exact ih pre ys thread k ctx body evbufferNew sent rfl hran
      · -- The functor is called in this step: it is the one submitted with the response.
        rw [List.getElem?_append_right hge, List.getElem?_map] at hran
        obtain ⟨f,hf,hsent⟩ := Option.map_eq_some_iff.mp hran
        cases hsent
        have hresponse := called_response hr hb hge hf
        obtain rfl : (⟨ctx,body⟩ : Reply) = f := by
          simpa [Service.responses,serviceTrace,serviceEvent,Service.response] using hresponse
        refine ⟨settingsOf ctx.req (.service (.responded thread k ctx body) :: ys),?_⟩
        rw [← settingsOf_append, ← outgoing_eq hr]
    · have hm : .responded thread k ctx body ∈ ses := by
        have hmem : .service (.responded thread k ctx body) ∈
            ses.map ResponseEvent.service ++ ranEvents setup.evbuffer s.outgoing b.allocates ses := by
          rw [hys]
          simp
        simpa [ranEvents] using hmem
      rw [not_ran_yet hr hb hm ys] at hran
      cases hran
  · have hnil : ran [ResponseEvent.configured (H := H) c.req setting] = [] := rfl
    rw [hnil, List.append_nil] at hran
    rcases Foundation.occurrence_append htr with ⟨ys,rfl⟩ | ⟨ys,rfl,hys⟩
    · exact ih pre ys thread k ctx body evbufferNew sent rfl hran
    · cases ys with
      | nil => cases hys
      | cons y ys => cases ys <;> cases hys

/-- For every run and every response in it: the functor of the response calls
`evhttp_send_reply` with what the handler had built exactly when its buffer is allocated,
the status code set last is 200 or none was set, and libevent takes all added fields. Once no functor
is pending it has run. libevent frees a request with its reply, so a second response on a request is
outside of its contract. -/
theorem sent_as_built_iff (hr : (machine add setup).Runs P tr s) {pre post : List (ResponseEvent H)}
    {thread : Thread} {k : ℕ} {ctx : HttpContext} {body : Bytes}
    (htr : tr = pre ++ .service (.responded thread k ctx body) :: post) :
    (∀ evbufferNew sent, (ran tr)[(Service.responses (serviceTrace pre)).length]? = some (evbufferNew,sent) →
      ((∃ m, sent = some m ∧ AsBuilt ctx.req (settingsOf ctx.req pre) body m) ↔
        evbufferNew = true ∧ lastStatus (settingsOf ctx.req pre) = 200 ∧
          ∀ h ∈ addedHeaders (settingsOf ctx.req pre), Addable add h)) ∧
    (s.service.ioThread.pending = [] → ∃ evbufferNew sent,
      (ran tr)[(Service.responses (serviceTrace pre)).length]? = some (evbufferNew,sent)) := by
  refine ⟨fun evbufferNew sent hran => ?_,fun hpending => ?_⟩
  · obtain ⟨later,rfl⟩ := ran_response hr htr hran
    exact send_asBuilt_iff
  · have hlength := ran_pending hr
    rw [htr, serviceTrace_append, Service.responses_append, List.length_append, hpending] at hlength
    have hone : Service.responses (serviceTrace (.service (.responded thread k ctx body) :: post)) =
        ⟨ctx,body⟩ :: Service.responses (serviceTrace post) := rfl
    rw [hone, List.length_cons, List.length_nil, ← htr] at hlength
    have hlt : (Service.responses (serviceTrace pre)).length < (ran tr).length := by omega
    exact ⟨_,_,List.getElem?_eq_getElem hlt⟩

def oneHandler : Setup ℕ where
  registrations := [.default (some 1)]
  threadNum := .two
  expiration := 0
  capacity := 1
  evbuffer := .copying

/-- libevent refuses fields with line breaks. -/
def noLineBreak (key value : Bytes) : Bool := (key ++ value).all (fun c => c ≠ 10 && c ≠ 13)

/-- A handler makes calls on its context and responds, and the IO thread runs the
functor. -/
def exchange (settings : List Setting) (body : Bytes) : List Action :=
  [.service (.schedule .init),.service (.schedule (.spawn 0)),.service (.io .start true),
    .service (.receive "/a" 0 0),.service (.schedule (.acquire 0 0)),.service (.enter 0)] ++
  settings.map (.configure 0) ++
  [.service (.respond (.worker 0) 0 body),.service (.finish 0 .returned),
    .service (.io (.recv 1) true),.service (.io .swap true),.service (.io .call true)]

/-- With the default status code the message is sent as built, with its header. -/
theorem sent_as_built_iff_header : ∃ tr, ∃ s : Responding, (machine noLineBreak oneHandler).Runs Machine.Any tr s ∧
    ∃ m, ran tr = [(true,some m)] ∧ m.headers = [([88],[49])] ∧
      AsBuilt 0 [.addResponseHeader [88] [49]] [104,105] m := by
  have hrun : ∃ c, (machine noLineBreak oneHandler).replay (fun _ _ _ => true)
      (exchange [.addResponseHeader [88] [49]] [104,105])
      ([],⟨.new oneHandler .unknowing,fun _ => .new⟩) = some c ∧
      ran c.1 = [(true,some ⟨0,200,"OK",[([88],[49])],[104,105]⟩)] ∧
      c.1 = c.1.take 6 ++ .service (.responded (.worker 0) 0 ⟨0,"/a"⟩ [104,105]) :: c.1.drop 7 ∧
      Service.responses (serviceTrace (c.1.take 6)) = [] ∧
      settingsOf 0 (c.1.take 6) = [.addResponseHeader [88] [49]] := ⟨_,rfl,rfl,rfl,rfl,rfl⟩
  obtain ⟨⟨tr,s⟩,hc,hran,htr,hnone,hsettings⟩ := hrun
  dsimp only at hran htr hnone hsettings
  have hr := Machine.replay_runs (P := Machine.Any) (fun _ _ _ _ => trivial) (runs_new _ _ .unknowing) hc
  have hfirst : (ran tr)[(Service.responses (serviceTrace (tr.take 6))).length]? =
      some (true,some ⟨0,200,"OK",[([88],[49])],[104,105]⟩) := by rw [hnone, hran]; rfl
  have hiff := (sent_as_built_iff hr htr).1 _ _ hfirst
  rw [hsettings] at hiff
  have haddable : ∀ h ∈ addedHeaders [.addResponseHeader [88] [49]], Addable noLineBreak h := by
    intro h hh
    obtain rfl := List.mem_singleton.mp hh
    exact ⟨by decide,by decide,rfl⟩
  obtain ⟨m,hm,hbuilt⟩ := hiff.mpr ⟨rfl,rfl,haddable⟩
  cases hm
  exact ⟨tr,s,hr,_,hran,rfl,hbuilt⟩

/-- A handler sets 404, and the client gets 200 OK. -/
theorem status_dropped : ∃ tr, ∃ s : Responding, (machine noLineBreak oneHandler).Runs Machine.Any tr s ∧
    settingsOf 0 tr = [.setStatusCode 404] ∧ (s.outgoing 0).getStatusCode = 404 ∧
    ran tr = [(true,some ⟨0,200,"OK",[],[110,111]⟩)] ∧
    ¬ ∃ m, ran tr = [(true,some m)] ∧ AsBuilt 0 [.setStatusCode 404] [110,111] m := by
  have hrun : ∃ c, (machine noLineBreak oneHandler).replay (fun _ _ _ => true)
      (exchange [.setStatusCode 404] [110,111])
      ([],⟨.new oneHandler .unknowing,fun _ => .new⟩) = some c ∧
      settingsOf 0 c.1 = [.setStatusCode 404] ∧ (c.2.outgoing 0).getStatusCode = 404 ∧
      ran c.1 = [(true,some ⟨0,200,"OK",[],[110,111]⟩)] := ⟨_,rfl,rfl,rfl,rfl⟩
  obtain ⟨⟨tr,s⟩,hc,hsettings,hstatus,hran⟩ := hrun
  have hr := Machine.replay_runs (P := Machine.Any) (fun _ _ _ _ => trivial) (runs_new _ _ .unknowing) hc
  refine ⟨tr,s,hr,hsettings,hstatus,hran,?_⟩
  rintro ⟨m,hm,hbuilt⟩
  dsimp only at hran
  rw [hran] at hm
  cases hm
  exact absurd hbuilt.code (by decide)

end Responding
end Kbms
