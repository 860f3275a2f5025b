import Kbms.Concurrency.PoolHistory
import Kbms.Network.IoThread
import Kbms.Service.Handlers

/-! # The service as one machine

A request goes from the network thread through the queue of the pool to a worker,
and a reply goes from the thread that calls a send-response callback through the
mailbox to the IO thread. The machine composes the pool and the mailbox, and both
are projections of it, so whatever holds of their runs holds of their part here.
User code is free to call the callbacks it was given at any time from any thread.
-/
namespace Kbms
open Foundation

/-- The content of a `std::string`, which may hold NULs. -/
abbrev Bytes := List UInt8

/-- The lambda of `Complete` with the values it captures. -/
structure Reply where
  ctx : HttpContext
  resBody : Bytes
  deriving DecidableEq, Repr

/-- `other` threads belong to user code. -/
inductive Thread
  | network | io
  | worker (i : ℕ)
  | other (k : ℕ)
  deriving DecidableEq, Repr

/-- `c_str()`: the content and a terminating NUL. -/
def cStr (s : Bytes) : Bytes := s ++ [0]

/-- The buffers of libevent: what is in one after `evbuffer_add`, which appends as many bytes of the
data as it is told. -/
structure Evbuffer where
  add : Bytes → Bytes → ℕ → Bytes
  add_take : ∀ buf data datlen, datlen ≤ data.length → add buf data datlen = buf ++ data.take datlen

def Evbuffer.copying : Evbuffer := ⟨fun buf data datlen => buf ++ data.take datlen,fun _ _ _ _ => rfl⟩

/-- The body of the lambda of `Complete`: the request and the body that
`evhttp_send_reply` is called with, unless `evbuffer_new` fails. -/
def Reply.run (f : Reply) (buffer : Evbuffer) (evbufferNew : Bool) : Option (ℕ × Bytes) :=
  if evbufferNew then some (f.ctx.req,buffer.add [] (cStr f.resBody) f.resBody.length) else none

@[simp] theorem Evbuffer.add_cStr (buffer : Evbuffer) (s : Bytes) : buffer.add [] (cStr s) s.length = s := by
  rw [buffer.add_take [] (cStr s) s.length (by simp [cStr])]
  simp [cStr]

/-- `handlerEntered i req h`: worker `i` calls the user callback `h` for a request.
`responded`: a thread calls the send-response callback number `k`. -/
inductive Event (H : Type*)
  | received (req : ℕ) (path : String) (now : TimePoint)
  | pool (e : PoolEvent)
  | handlerEntered (i req : ℕ) (h : H)
  | responded (thread : Thread) (k : ℕ) (ctx : HttpContext) (resBody : Bytes)
  | io (e : IoEvent Reply)
  | sendReply (thread : Thread) (req : ℕ) (body : Bytes)

/-- What is fixed before the first request: the registrations, in their order, the
arguments of the constructor, the capacity of the socket of the mailbox, and libevent. -/
structure Setup (H : Type*) where
  registrations : List (Registration H)
  threadNum : ThreadNum
  expiration : UInt64
  capacity : ℕ
  evbuffer : Evbuffer

def Setup.handlers {H : Type*} (setup : Setup H) : Handlers H :=
  .registerAll setup.registrations

/-- Whether a request that arrived when the clock showed `arrived` is late at `now`. -/
def Setup.late {H : Type*} (setup : Setup H) (arrived now : TimePoint) : Bool :=
  setup.expiration > 0 && deadline arrived setup.expiration < now

/-- The callback that a late request and one in time are due. -/
def dueCallback (late : Bool) : Callback := if late then .expireFun else .taskFun

/-- `Service`, with the number of requests so far and the send-response callbacks that
user code has got, each of which is bound to a context. -/
structure Service where
  threadPool : ThreadPool Closure
  ioThread : IoThread Reply
  requests : ℕ
  respcbs : List HttpContext

namespace Service
variable {H : Type*}

/-- `Service::Service` up to the call of `ThreadPool::Init`. -/
def new (setup : Setup H) (st : TPoolState) : Service := ⟨.new setup.threadNum st,.new,0,[]⟩

/-- `Service::CoreHandleRequest`, when the clock shows `now`. -/
def coreHandleRequest (setup : Setup H) (s : Service) (path : String) (now : TimePoint) (k : ℕ) :
    Option (Service × List (Event H)) :=
  let hct : HttpContext := ⟨s.requests,path⟩
  let task : Task Closure :=
    .ofExpiration (some (.taskFun path hct)) (some (.expireFun hct)) setup.expiration now
  (s.threadPool.construct hct.req task).bind (fun built =>
    (built.1.addTask hct.req k).map (fun r =>
      ({ s with threadPool := r.1, requests := s.requests + 1 },
        .received hct.req path now :: r.2.map .pool)))

/-- The steps of `ThreadPool::Init` and of the workers between two closures. -/
def own : ThreadPool.Action Closure → Bool
  | .init | .spawn _ | .acquire _ _ | .spurious _ => true
  | _ => false

def schedule (s : Service) (a : ThreadPool.Action Closure) : Option (Service × List (Event H)) :=
  if own a then
    (s.threadPool.step a).map (fun r => ({ s with threadPool := r.1 },r.2.map .pool))
  else none

/-- The closure that worker `i` is in. -/
def closureAt (pool : ThreadPool Closure) (i : ℕ) : Option Closure :=
  match pool.workers[i]? with
  | some (.inside p c) => (pool.tasks p).bind (fun t => t.callback c)
  | _ => none

/-- Worker `i` enters a closure, and with it the user callback that the closure
reaches, which gets a new send-response callback for the request. -/
def enter (setup : Setup H) (s : Service) (i : ℕ) : Option (Service × List (Event H)) :=
  (s.threadPool.enter i).map (fun r =>
    match closureAt r.1 i with
    | some cl =>
      match setup.handlers.call cl with
      | .handler h =>
        ({ s with threadPool := r.1, respcbs := s.respcbs ++ [cl.hct] },
          r.2.map .pool ++ [.handlerEntered i cl.hct.req h])
      | _ => ({ s with threadPool := r.1 },r.2.map .pool)
    | none => ({ s with threadPool := r.1 },r.2.map .pool))

def Call.ends : Call H → Outcome → Bool
  | .handler _, _ => true
  | .nothing, o => o = .returned
  | .badFunctionCall, o => o = .threw

/-- Worker `i` leaves its closure, in a way that the closure has. -/
def finish (setup : Setup H) (s : Service) (i : ℕ) (o : Outcome) :
    Option (Service × List (Event H)) :=
  if (closureAt s.threadPool i).any (fun cl => Call.ends (setup.handlers.call cl) o) then
    (s.threadPool.finish i o).map (fun r => ({ s with threadPool := r.1 },r.2.map .pool))
  else none

/-- `Service::Complete`, called through the send-response callback number `k`. -/
def complete (setup : Setup H) (s : Service) (thread : Thread) (k : ℕ) (resBody : Bytes) :
    Option (Service × List (Event H)) :=
  (s.respcbs[k]?).map (fun ctx =>
    let r := IoThread.submit setup.capacity s.ioThread ⟨ctx,resBody⟩
    ({ s with ioThread := r.1 },.responded thread k ctx resBody :: r.2.map .io))

/-- A functor that the IO thread calls runs on the IO thread. -/
def ioEvents (buffer : Evbuffer) (evbufferNew : Bool) : IoEvent Reply → List (Event H)
  | .called f =>
    .io (.called f) :: (f.run buffer evbufferNew).toList.map (fun m => .sendReply .io m.1 m.2)
  | .submitted f => [.io (.submitted f)]

/-- A step of the IO thread. -/
def ioStep (setup : Setup H) (s : Service) (a : IoThread.Action Reply) (evbufferNew : Bool) :
    Option (Service × List (Event H)) :=
  match a with
  | .submit _ => none
  | a => (s.ioThread.step setup.capacity a).map (fun r =>
      ({ s with ioThread := r.1 },r.2.flatMap (ioEvents setup.evbuffer evbufferNew)))

inductive Action
  | receive (path : String) (now : TimePoint) (k : ℕ)
  | schedule (a : ThreadPool.Action Closure)
  | enter (i : ℕ)
  | finish (i : ℕ) (o : Outcome)
  | respond (thread : Thread) (k : ℕ) (resBody : Bytes)
  | io (a : IoThread.Action Reply) (evbufferNew : Bool)

def step (setup : Setup H) (s : Service) : Action → Option (Service × List (Event H))
  | .receive path now k => coreHandleRequest setup s path now k
  | .schedule a => schedule s a
  | .enter i => enter setup s i
  | .finish i o => finish setup s i o
  | .respond thread k resBody => complete setup s thread k resBody
  | .io a evbufferNew => ioStep setup s a evbufferNew

/-- All runs of a service. -/
def machine (setup : Setup H) : Machine Service Action (Event H) where
  initial s := ∃ st, s = new setup st
  step := step setup

theorem runs_new {P : List (Event H) → Service → Action → Prop} (setup : Setup H) (st : TPoolState) :
    (machine setup).Runs P [] (new setup st) := .start ⟨st,rfl⟩

variable {setup : Setup H} {s t : Service} {es tr : List (Event H)} {i : ℕ}

def newTask (setup : Setup H) (req : ℕ) (path : String) (now : TimePoint) : Task Closure :=
  .ofExpiration (some (.taskFun path ⟨req,path⟩)) (some (.expireFun ⟨req,path⟩)) setup.expiration now

theorem coreHandleRequest_cases {path : String} {now : TimePoint} {k : ℕ}
    (h : coreHandleRequest setup s path now k = some (t,es)) :
    ∃ built pool,
      s.threadPool.construct s.requests (newTask setup s.requests path now) = some (built,[]) ∧
      built.addTask s.requests k = some (pool,[.added s.requests]) ∧
      s.threadPool.tasks s.requests = none ∧
      pool.tasks = Function.update s.threadPool.tasks s.requests
        (some (newTask setup s.requests path now)) ∧
      t = { s with threadPool := pool, requests := s.requests + 1 } ∧
      es = [.received s.requests path now,.pool (.added s.requests)] := by
  obtain ⟨⟨built,bes⟩,hb,h⟩ := Option.bind_eq_some_iff.mp h
  obtain ⟨⟨pool,pes⟩,ha,h⟩ := Option.map_eq_some_iff.mp h
  obtain ⟨hnone,rfl,rfl⟩ := ThreadPool.construct_cases hb
  obtain ⟨_,rfl,_,rfl,_⟩ := ThreadPool.addTask_cases ha
  cases h
  exact ⟨_,_,hb,ha,hnone,rfl,rfl,rfl⟩

theorem own_adds {a : ThreadPool.Action Closure} (h : own a = true) : a.adds = [] := by
  cases a with
  | addTask p k => cases h
  | _ => rfl

theorem schedule_cases {a : ThreadPool.Action Closure} (h : schedule s a = some (t,es)) :
    own a = true ∧ ∃ pool pes, s.threadPool.step a = some (pool,pes) ∧
      t = { s with threadPool := pool } ∧ es = pes.map .pool := by
  unfold schedule at h
  split at h
  · rename_i ha
    obtain ⟨⟨pool,pes⟩,hp,h⟩ := Option.map_eq_some_iff.mp h
    cases h
    exact ⟨ha,pool,pes,hp,rfl,rfl⟩
  · cases h

/-- Entering a closure is a step of the pool, and a user callback is reached with it
exactly when the closure comes to one. -/
theorem enter_cases (h : enter setup s i = some (t,es)) :
    ∃ pool pes, s.threadPool.enter i = some (pool,pes) ∧
      ((∃ cl h, closureAt pool i = some cl ∧ setup.handlers.call cl = .handler h ∧
          t = { s with threadPool := pool, respcbs := s.respcbs ++ [cl.hct] } ∧
          es = pes.map .pool ++ [.handlerEntered i cl.hct.req h]) ∨
        ((∀ cl h, closureAt pool i = some cl → setup.handlers.call cl ≠ .handler h) ∧
          t = { s with threadPool := pool } ∧ es = pes.map .pool)) := by
  obtain ⟨⟨pool,pes⟩,hp,h⟩ := Option.map_eq_some_iff.mp h
  refine ⟨pool,pes,hp,?_⟩
  dsimp only at h
  cases hc : closureAt pool i with
  | none =>
    rw [hc] at h
    cases h
    exact Or.inr ⟨by simp,rfl,rfl⟩
  | some cl =>
    rw [hc] at h
    dsimp only at h
    split at h
    · rename_i h' hcall
      cases h
      exact Or.inl ⟨cl,h',rfl,hcall,rfl,rfl⟩
    · rename_i hcall
      cases h
      refine Or.inr ⟨?_,rfl,rfl⟩
      rintro _ h' ⟨⟩ hne
      exact hcall h' hne

theorem finish_cases {o : Outcome} (h : finish setup s i o = some (t,es)) :
    (∃ cl, closureAt s.threadPool i = some cl ∧ Call.ends (setup.handlers.call cl) o = true) ∧
    ∃ pool pes, s.threadPool.finish i o = some (pool,pes) ∧
      t = { s with threadPool := pool } ∧ es = pes.map .pool := by
  unfold finish at h
  split at h
  · rename_i hc
    obtain ⟨⟨pool,pes⟩,hp,h⟩ := Option.map_eq_some_iff.mp h
    cases h
    exact ⟨(Option.any_eq_true _ _).mp hc,pool,pes,hp,rfl,rfl⟩
  · cases h

theorem complete_cases {thread : Thread} {k : ℕ} {resBody : Bytes}
    (h : complete setup s thread k resBody = some (t,es)) :
    ∃ ctx, s.respcbs[k]? = some ctx ∧
      t = { s with ioThread := (IoThread.submit setup.capacity s.ioThread ⟨ctx,resBody⟩).1 } ∧
      es = [.responded thread k ctx resBody,.io (.submitted ⟨ctx,resBody⟩)] := by
  obtain ⟨ctx,hk,h⟩ := Option.map_eq_some_iff.mp h
  cases h
  exact ⟨ctx,hk,rfl,rfl⟩

theorem ioStep_cases {a : IoThread.Action Reply} {evbufferNew : Bool}
    (h : ioStep setup s a evbufferNew = some (t,es)) :
    ∃ io ies, s.ioThread.step setup.capacity a = some (io,ies) ∧ (∀ f, .submitted f ∉ ies) ∧
      t = { s with ioThread := io } ∧ es = ies.flatMap (ioEvents setup.evbuffer evbufferNew) := by
  have hmap : (∀ f, a ≠ .submit f) → ioStep setup s a evbufferNew =
      (s.ioThread.step setup.capacity a).map (fun r =>
        ({ s with ioThread := r.1 },r.2.flatMap (ioEvents setup.evbuffer evbufferNew))) := by
    intro ha
    cases a with
    | submit f => exact absurd rfl (ha f)
    | _ => rfl
  have hsub : ∀ f, a ≠ .submit f := by
    rintro f rfl
    cases h
  rw [hmap hsub] at h
  obtain ⟨⟨io,ies⟩,hio,h⟩ := Option.map_eq_some_iff.mp h
  cases h
  refine ⟨io,ies,hio,fun f hf => ?_,rfl,rfl⟩
  rcases IoThread.step_cases hio with ⟨g,ha,_⟩ | ⟨_,_,_,_,_,rfl,_⟩ | ⟨_,rfl,_⟩ | ⟨_,_,_,rfl,_⟩ |
    ⟨_,_,_,rfl,_⟩
  · exact hsub g ha
  all_goals simp at hf

/-- The steps of the service: a request arrives, the pool moves on by itself, a worker
enters a user callback, a reply is handed over, and the IO thread moves on. -/
theorem step_cases {a : Action} (h : step setup s a = some (t,es)) :
    (∃ path now k, coreHandleRequest setup s path now k = some (t,es)) ∨
    (∃ b pool pes, b.adds = [] ∧ s.threadPool.step b = some (pool,pes) ∧
      (∀ i o, b = .finish i o → a = .finish i o) ∧
      (∀ i cl h, b = .enter i → closureAt pool i = some cl → setup.handlers.call cl ≠ .handler h) ∧
      t = { s with threadPool := pool } ∧ es = pes.map .pool) ∨
    (∃ i pool pes cl h, s.threadPool.enter i = some (pool,pes) ∧ closureAt pool i = some cl ∧
      setup.handlers.call cl = .handler h ∧
      t = { s with threadPool := pool, respcbs := s.respcbs ++ [cl.hct] } ∧
      es = pes.map .pool ++ [.handlerEntered i cl.hct.req h]) ∨
    (∃ thread k ctx resBody, a = .respond thread k resBody ∧ s.respcbs[k]? = some ctx ∧
      t = { s with ioThread := (IoThread.submit setup.capacity s.ioThread ⟨ctx,resBody⟩).1 } ∧
      es = [.responded thread k ctx resBody,.io (.submitted ⟨ctx,resBody⟩)]) ∨
    (∃ b evbufferNew io ies, a = .io b evbufferNew ∧ s.ioThread.step setup.capacity b = some (io,ies) ∧
      (∀ f, .submitted f ∉ ies) ∧ t = { s with ioThread := io } ∧
      es = ies.flatMap (ioEvents setup.evbuffer evbufferNew)) := by
  cases a with
  | receive path now k => exact Or.inl ⟨path,now,k,h⟩
  | schedule b =>
    obtain ⟨hb,pool,pes,hp,ht,he⟩ := schedule_cases h
    refine Or.inr (Or.inl ⟨b,pool,pes,own_adds hb,hp,?_,?_,ht,he⟩)
    · rintro i o rfl
      cases hb
    · rintro i cl h' rfl
      cases hb
  | enter i =>
    obtain ⟨pool,pes,hp,⟨cl,h',hcl,hcall,ht,he⟩ | ⟨hnone,ht,he⟩⟩ := enter_cases h
    · exact Or.inr (Or.inr (Or.inl ⟨i,pool,pes,cl,h',hp,hcl,hcall,ht,he⟩))
    · refine Or.inr (Or.inl ⟨.enter i,pool,pes,rfl,hp,by simp,?_,ht,he⟩)
      rintro _ cl h' ⟨⟩
      exact hnone cl h'
  | finish i o =>
    obtain ⟨_,pool,pes,hp,ht,he⟩ := finish_cases h
    refine Or.inr (Or.inl ⟨.finish i o,pool,pes,rfl,hp,?_,by simp,ht,he⟩)
    rintro _ _ ⟨⟩
    rfl
  | respond thread k resBody =>
    obtain ⟨ctx,hk,ht,he⟩ := complete_cases h
    exact Or.inr (Or.inr (Or.inr (Or.inl ⟨thread,k,ctx,resBody,rfl,hk,ht,he⟩)))
  | io b evbufferNew =>
    obtain ⟨io,ies,hio,hno,ht,he⟩ := ioStep_cases h
    exact Or.inr (Or.inr (Or.inr (Or.inr ⟨b,evbufferNew,io,ies,rfl,hio,hno,ht,he⟩)))

section Components

def poolEvent : Event H → Option PoolEvent
  | .pool e => some e
  | _ => none

def ioEvent : Event H → Option (IoEvent Reply)
  | .io e => some e
  | _ => none

def poolTrace (tr : List (Event H)) : List PoolEvent := tr.filterMap poolEvent
def ioTrace (tr : List (Event H)) : List (IoEvent Reply) := tr.filterMap ioEvent

@[simp] theorem poolTrace_append (xs ys : List (Event H)) :
    poolTrace (xs ++ ys) = poolTrace xs ++ poolTrace ys := List.filterMap_append
@[simp] theorem ioTrace_append (xs ys : List (Event H)) :
    ioTrace (xs ++ ys) = ioTrace xs ++ ioTrace ys := List.filterMap_append
@[simp] theorem poolTrace_map (es : List PoolEvent) : poolTrace (es.map (Event.pool (H := H))) = es := by
  induction es with
  | nil => rfl
  | cons e es ih => simpa [poolTrace,poolEvent] using ih
@[simp] theorem ioTrace_map (es : List PoolEvent) : ioTrace (es.map (Event.pool (H := H))) = [] := by
  simp [ioTrace,ioEvent]

theorem poolTrace_ioEvents (buffer : Evbuffer) (evbufferNew : Bool) (ies : List (IoEvent Reply)) :
    poolTrace (ies.flatMap (ioEvents (H := H) buffer evbufferNew)) = [] := by
  induction ies with
  | nil => rfl
  | cons e ies ih =>
    rw [List.flatMap_cons, poolTrace_append, ih]
    cases e with
    | submitted f => rfl
    | called f => cases h : f.run buffer evbufferNew <;> simp [poolTrace,poolEvent,ioEvents,h]

theorem ioTrace_ioEvents (buffer : Evbuffer) (evbufferNew : Bool) (ies : List (IoEvent Reply)) :
    ioTrace (ies.flatMap (ioEvents (H := H) buffer evbufferNew)) = ies := by
  induction ies with
  | nil => rfl
  | cons e ies ih =>
    rw [List.flatMap_cons, ioTrace_append, ih]
    cases e with
    | submitted f => rfl
    | called f => cases h : f.run buffer evbufferNew <;> simp [ioTrace,ioEvent,ioEvents,h]

theorem mem_poolTrace {e : PoolEvent} : e ∈ poolTrace tr ↔ .pool e ∈ tr := by
  rw [poolTrace, List.mem_filterMap]
  constructor
  · rintro ⟨d,hd,he⟩
    cases d with
    | pool d =>
      cases he
      exact hd
    | _ => cases he
  · intro h
    exact ⟨_,h,rfl⟩

variable {P : List (Event H) → Service → Action → Prop}

theorem freshRun_next {tr pes : List PoolEvent} {n : ThreadNum} {pool pool' : ThreadPool Closure}
    (a : ThreadPool.Action Closure) (ha : a.adds = [])
    (hr : (ThreadPool.machine Closure n).Runs ThreadPool.FreshAdds tr pool)
    (h : pool.step a = some (pool',pes)) :
    (ThreadPool.machine Closure n).Runs ThreadPool.FreshAdds (tr ++ pes) pool' := by
  refine hr.next (a := a) ?_ h
  rintro p k rfl
  cases ha

/-- The pool inside the service. Its task objects are named by the requests, so each is
given to `AddTask` once. -/
def toPool (setup : Setup H) : Machine.Projection (machine setup) Machine.Any
    (ThreadPool.machine Closure setup.threadNum) ThreadPool.FreshAdds where
  state s := s.threadPool
  event := poolEvent
  initial := by
    rintro _ ⟨st,rfl⟩
    exact ⟨st,rfl⟩
  step := by
    intro tr s a t es _ _ hs hr
    change (ThreadPool.machine Closure setup.threadNum).Runs ThreadPool.FreshAdds
      (poolTrace tr) s.threadPool at hr
    change (ThreadPool.machine Closure setup.threadNum).Runs ThreadPool.FreshAdds
      (poolTrace tr ++ poolTrace es) t.threadPool
    rcases step_cases hs with ⟨path,now,k,h⟩ | ⟨b,pool,pes,hb,hp,_,_,rfl,rfl⟩ |
      ⟨i,pool,pes,cl,h,hp,_,_,rfl,rfl⟩ | ⟨thread,k,ctx,resBody,_,_,rfl,rfl⟩ |
      ⟨b,evbufferNew,io,ies,_,_,_,rfl,rfl⟩
    · obtain ⟨built,pool,hbuild,hadd,hnone,_,rfl,rfl⟩ := coreHandleRequest_cases h
      have hbuilt := freshRun_next (.makeExpiringTask s.requests (some (.taskFun path ⟨s.requests,path⟩))
        (some (.expireFun ⟨s.requests,path⟩)) setup.expiration now) rfl hr hbuild
      rw [List.append_nil] at hbuilt
      have hfresh : ThreadPool.FreshAdds (poolTrace tr) built (.addTask s.requests k) := by
        rintro _ _ ⟨⟩ hm
        obtain ⟨u,hu⟩ := ThreadPool.added_built hr hm
        simp [hnone] at hu
      exact hbuilt.next hfresh hadd
    · rw [poolTrace_map]
      exact freshRun_next b hb hr hp
    · have hnext := freshRun_next (.enter i) rfl hr hp
      rw [poolTrace_append, poolTrace_map]
      simpa [poolTrace,poolEvent,List.filterMap_cons] using hnext
    · simpa [poolTrace,poolEvent,List.filterMap_cons] using hr
    · rw [poolTrace_ioEvents, List.append_nil]
      exact hr

/-- The mailbox inside the service. -/
def toIoThread (setup : Setup H) : Machine.Projection (machine setup) Machine.Any
    (IoThread.machine Reply setup.capacity) Machine.Any where
  state s := s.ioThread
  event := ioEvent
  initial := by
    rintro _ ⟨st,rfl⟩
    rfl
  step := by
    intro tr s a t es _ _ hs hr
    change (IoThread.machine Reply setup.capacity).Runs Machine.Any (ioTrace tr) s.ioThread at hr
    change (IoThread.machine Reply setup.capacity).Runs Machine.Any
      (ioTrace tr ++ ioTrace es) t.ioThread
    rcases step_cases hs with ⟨path,now,k,h⟩ | ⟨b,pool,pes,_,_,_,_,rfl,rfl⟩ |
      ⟨i,pool,pes,cl,h,_,_,_,rfl,rfl⟩ | ⟨thread,k,ctx,resBody,_,_,rfl,rfl⟩ |
      ⟨b,evbufferNew,io,ies,_,hio,_,rfl,rfl⟩
    · obtain ⟨_,_,_,_,_,_,rfl,rfl⟩ := coreHandleRequest_cases h
      simpa [ioTrace,ioEvent,List.filterMap_cons] using hr
    · rw [ioTrace_map, List.append_nil]
      exact hr
    · rw [ioTrace_append, ioTrace_map]
      simpa [ioTrace,ioEvent,List.filterMap_cons] using hr
    · exact hr.next (a := .submit ⟨ctx,resBody⟩) trivial rfl
    · rw [ioTrace_ioEvents]
      exact hr.next (a := b) trivial hio

theorem runs_pool (hr : (machine setup).Runs P tr s) :
    (ThreadPool.machine Closure setup.threadNum).Runs ThreadPool.FreshAdds (poolTrace tr) s.threadPool :=
  (toPool setup).runs hr.any

theorem runs_ioThread (hr : (machine setup).Runs P tr s) :
    (IoThread.machine Reply setup.capacity).Runs Machine.Any (ioTrace tr) s.ioThread :=
  (toIoThread setup).runs hr.any

end Components

end Service
end Kbms
