import Kbms.Concurrency.LockedProgress
import Kbms.Network.LockedProgress
import Kbms.Service.Service

/-! # The service, one statement at a time

Here both mutexes are explicit, that of the pool and that of the mailbox. Workers, the IO thread
and the threads of user code interleave at every statement of `operator()`, `Submit` and
`ExecuteTask`, so a worker may be stopped in the middle of handing over a reply.
-/
namespace Kbms
open Foundation

/-- The functor of a `Submit` that has not taken effect yet. -/
def SubmitPoint.carried {Fn : Type*} : SubmitPoint Fn → Option Fn
  | .lock func | .push func | .notify func => some func
  | _ => none

namespace LockedPool
variable {F : Type*} {n : ThreadNum} {s t u : LockedPool F} {tr : List LockEvent} {p : TaskPtr} {i k m : ℕ}
variable {pool : ThreadPool F} {taken : List TaskPtr}

/-- The next `m` statements of `AddTask`. -/
def executeAdds (k : ℕ) : ℕ → LockedPool F → Option (LockedPool F)
  | 0, s => some s
  | m + 1, s => (s.executeAdd k s.adder).bind (fun r => executeAdds k m r.1)

/-- A whole call of `AddTask`, from its guard on. With a waiter counted it has a statement more. -/
def wholeAdd (s : LockedPool F) (p : TaskPtr) (k : ℕ) : Option (LockedPool F) :=
  (s.addTask p).bind (fun r => executeAdds k (if s.idleCount > 0 then 4 else 3) r.1)

theorem addTask_events {es : List LockEvent} (h : s.addTask p = some (t,es)) : es = [] := by
  rw [addTask] at h
  split at h
  · cases h
    rfl
  · cases h

/-- What each statement of a call keeps, the call keeps. -/
theorem wholeAdd_induction {I : LockedPool F → Prop} (h0 : I s)
    (hguard : ∀ t, s.addTask p = some (t,[]) → I s → I t)
    (hstep : ∀ u v, u.executeAdd k u.adder = some (v,[]) → I u → I v) (h : s.wholeAdd p k = some t) : I t := by
  have hrest : ∀ m (u : LockedPool F), I u → executeAdds k m u = some t → I t := by
    intro m
    induction m with
    | zero =>
      intro u hu h
      cases h
      exact hu
    | succ m ih =>
      intro u hu h
      obtain ⟨⟨v,es⟩,hv,h⟩ := Option.bind_eq_some_iff.mp h
      obtain rfl := (executeAdd_cases hv).silent
      exact ih v (hstep u v hv hu) h
  obtain ⟨⟨u,es⟩,hu,h⟩ := Option.bind_eq_some_iff.mp h
  obtain rfl := addTask_events hu
  exact hrest _ u (hguard u hu h0) h

theorem wholeAdd_runs {P : List LockEvent → LockedPool F → Action F → Prop} (hr : (machine F n).Runs P tr s)
    (hguard : P tr s (.addTask p)) (hstep : ∀ u, P tr u (.adder k)) (h : s.wholeAdd p k = some t) :
    (machine F n).Runs P tr t := by
  refine wholeAdd_induction (I := fun u => (machine F n).Runs P tr u) hr (fun u hu hr => ?_) (fun u v hv hr => ?_) h
  · have hnext := hr.next hguard (show (machine F n).step s (.addTask p) = some (u,[]) from hu)
    rwa [List.append_nil] at hnext
  · have hnext := hr.next (hstep u) (show (machine F n).step u (.adder k) = some (v,[]) from hv)
    rwa [List.append_nil] at hnext

theorem wholeAdd_inside {c : Callback} {q : TaskPtr} (h : s.wholeAdd p k = some t)
    (hi : s.threads[i]? = some (.inside q c)) : t.threads[i]? = some (.inside q c) :=
  wholeAdd_induction (I := fun u => u.threads[i]? = some (.inside q c)) hi
    (fun _ hu hi => inside_persists (show s.step (.addTask p) = some (_,[]) from hu) hi (by simp))
    (fun u _ hv hi => inside_persists (show u.step (.adder k) = some (_,[]) from hv) hi (by simp)) h

theorem Answered.abstracts (h : Answered n (· = none) pool taken t []) : Abstracts t pool taken := by
  obtain ⟨_,_,_,taken',rfl,hfollow,habs,hd,_⟩ := h
  cases hfollow
  obtain rfl : taken = taken' := by simpa [dequeues,ThreadPool.dequeuedTasks,Fifo.popped] using hd
  exact habs

/-- Only the statements of `AddTask` move it on. -/
theorem step_adder {act : Action F} {es : List LockEvent} (hs : s.step act = some (t,es))
    (hguard : ∀ p, act ≠ .addTask p) (hadd : ∀ k, act ≠ .adder k) (hstop : act ≠ .stop) : t.adder = s.adder := by
  cases act with
  | addTask p => exact absurd rfl (hguard p)
  | adder k => exact absurd rfl (hadd k)
  | stop => exact absurd rfl hstop
  | worker i now =>
    obtain ⟨a,_,hs⟩ := Option.bind_eq_some_iff.mp hs
    obtain ⟨b,hmoved⟩ := execute_cases hs
    exact hmoved.adder
  | finish i o =>
    obtain ⟨_,_,_,hended,_⟩ := finish_cases hs
    exact hended.adder
  | makeTask _ _ | makeExpiringTask _ _ _ _ _ | init | initRun | spawn _ | detach _ | spurious _ =>
    simp only [step, construct, init, initRun, spawn, detach] at hs
    split at hs
    · cases hs
      rfl
    · cases hs

theorem executeAdds_succ (h : executeAdds k (m + 1) s = some t) :
    ∃ u, s.executeAdd k s.adder = some (u,[]) ∧ executeAdds k m u = some t := by
  obtain ⟨⟨u,es⟩,hu,h⟩ := Option.bind_eq_some_iff.mp h
  obtain rfl := (executeAdd_cases hu).silent
  exact ⟨u,hu,h⟩

/-- The last statement comes after the announcement. -/
theorem Answered.last {act : ThreadPool.Action F} (h : Answered n (· = some act) pool taken u [])
    (hp : u.adder = .unguard) (hs : executeAdds k 1 u = some t) : Answered n (· = some act) pool taken t [] := by
  obtain ⟨v,hv,hs⟩ := executeAdds_succ hs
  cases hs
  rw [hp] at hv
  obtain ⟨b,es',pool',taken',hb,hfollow,habs,hd,hc⟩ := h
  exact ⟨b,es',pool',taken',hb,hfollow,(Answered.unlocked (n := n) habs hp hv).abstracts,hd,hc⟩

theorem unguard_of_notify {es : List LockEvent} (hp : s.adder = .notify p)
    (h : s.executeAdd k s.adder = some (t,es)) : t.adder = .unguard := by
  rw [hp] at h
  obtain ⟨ts,-,h⟩ := Option.map_eq_some_iff.mp h
  cases h
  rfl

theorem outside_of_unguard (hp : s.adder = .unguard) (h : executeAdds k 1 s = some t) : t.adder = .outside := by
  obtain ⟨u,hu,hs⟩ := executeAdds_succ h
  cases hs
  rw [hp] at hu
  cases hu
  rfl

/-- The statements from the test on, of which one announces the task. -/
theorem Answered.testing (hi : Inv tr s) (h : Abstracts s pool taken) (hp : s.adder = .test p)
    (hbuilt : (s.tasks p).isSome = true)
    (hs : executeAdds k (if s.idleCount > 0 then 3 else 2) s = some t) :
    Answered n (· = some (.addTask p k)) pool taken t [] := by
  split at hs
  · rename_i hpos
    obtain ⟨u,hu,hrest⟩ := executeAdds_succ hs
    have hiu := hi.step (show Permitted tr s (.adder k) from trivial) hu
    rw [hp, LockedPool.executeAdd, if_pos hpos] at hu
    cases hu
    obtain ⟨v,hv,hlast⟩ := executeAdds_succ hrest
    have hau : Abstracts { s with adder := .notify p } pool taken :=
      h.congr rfl rfl rfl rfl rfl rfl rfl (by rw [hp]; rfl) Iff.rfl
    exact Answered.last (Answered.notifyOne hiu hau rfl hbuilt hpos hv) (unguard_of_notify rfl hv) hlast
  · rename_i hzero
    obtain ⟨u,hu,hs⟩ := executeAdds_succ hs
    rw [hp, LockedPool.executeAdd, if_neg hzero] at hu
    cases hu
    exact Answered.last (Answered.announced hi h (.inl hp) hbuilt (.inl (Nat.eq_zero_of_not_pos hzero))) rfl hs

theorem wholeAdd_outside (h : s.wholeAdd p k = some t) : t.adder = .outside := by
  obtain ⟨⟨u,es⟩,hu,hs⟩ := Option.bind_eq_some_iff.mp h
  rw [addTask] at hu
  split at hu
  · cases hu
    split at hs <;> rename_i hidle
    · obtain ⟨u,hu,hs⟩ := executeAdds_succ hs
      cases hu
      obtain ⟨u,hu,hs⟩ := executeAdds_succ hs
      rw [executeAdd, if_pos hidle] at hu
      cases hu
      obtain ⟨u,hu,hs⟩ := executeAdds_succ hs
      exact outside_of_unguard (unguard_of_notify rfl hu) hs
    · obtain ⟨u,hu,hs⟩ := executeAdds_succ hs
      cases hu
      obtain ⟨u,hu,hs⟩ := executeAdds_succ hs
      rw [executeAdd, if_neg hidle] at hu
      cases hu
      exact outside_of_unguard rfl hs
  · cases hu

/-- A whole call is the step of the coarse pool. -/
theorem Answered.wholeAdd (hi : Inv tr s) (h : Abstracts s pool taken) (hs : s.wholeAdd p k = some t) :
    Answered n (· = some (.addTask p k)) pool taken t [] := by
  obtain ⟨⟨u,es⟩,hu,hs⟩ := Option.bind_eq_some_iff.mp hs
  obtain rfl := addTask_events hu
  have hiu := hi.step (show Permitted tr s (.addTask p) from trivial) hu
  have hau := (Answered.addTask (n := n) hi h hu).abstracts
  rw [LockedPool.addTask] at hu
  split at hu
  · rename_i hopen
    cases hu
    have hcount : (if s.idleCount > 0 then 4 else 3) = (if s.idleCount > 0 then 3 else 2) + 1 := by
      split <;> rfl
    rw [hcount] at hs
    obtain ⟨u,hu,hrest⟩ := executeAdds_succ hs
    have hit := hiu.step (show Permitted _ _ (.adder k) from trivial) hu
    have hat := (Answered.push (n := n) hiu hau rfl hu).abstracts
    cases hu
    exact .testing hit hat rfl hopen.2 hrest
  · cases hu

end LockedPool

/-- Submitter `j` is worker `j`, and those after the workers belong to user code. -/
structure LockedService where
  threadPool : LockedPool Closure
  ioThread : LockedIoThread Reply
  requests : ℕ
  respcbs : List HttpContext

namespace LockedService

/-- `responded`: thread `j` calls the send-response callback number `k`. -/
inductive Event (H : Type*)
  | received (req : ℕ) (path : String) (now : TimePoint)
  | pool (e : LockEvent)
  | handlerEntered (i req : ℕ) (h : H)
  | responded (j k : ℕ) (ctx : HttpContext) (resBody : Bytes)
  | mailbox (e : SubmitEvent Reply)
  | sendReply (req : ℕ) (body : Bytes)

variable {H : Type*}

def new (setup : Setup H) (others : ℕ) (st : TPoolState) : LockedService :=
  ⟨.new setup.threadNum st,.new Reply (setup.threadNum.val + others),0,[]⟩

/-- The event loop of the IO thread calls it, and its `AddTask` waits for the mutex of the pool. The
call has the mutex to its end, so it is one step here. -/
def coreHandleRequest (setup : Setup H) (s : LockedService) (path : String) (now : TimePoint) (k : ℕ) :
    Option (LockedService × List (Event H)) :=
  match s.ioThread.io with
  | .dispatching =>
    (s.threadPool.construct s.requests (Service.newTask setup s.requests path now)).bind (fun built =>
      (built.1.wholeAdd s.requests k).map (fun pool =>
        ({ s with threadPool := pool, requests := s.requests + 1 },[.received s.requests path now])))
  | _ => none

/-- The statements of `ThreadPool::Init`, and wakeups without a cause. -/
def own : LockedPool.Action Closure → Bool
  | .init | .initRun | .spawn _ | .detach _ | .spurious _ => true
  | _ => false

def schedule (s : LockedService) (a : LockedPool.Action Closure) : Option (LockedService × List (Event H)) :=
  if own a then
    (s.threadPool.step a).map (fun r => ({ s with threadPool := r.1 },r.2.map .pool))
  else none

/-- The closure that worker `i` is in. -/
def closureAt (pool : LockedPool Closure) (i : ℕ) : Option Closure :=
  match pool.threads[i]? with
  | some (.inside p c) => (pool.tasks p).bind (fun t => t.callback c)
  | _ => none

/-- The user callback that a closure comes to, with the context that it is called with. -/
def userCallback (setup : Setup H) (cl : Closure) : Option (HttpContext × H) :=
  match setup.handlers.call cl with
  | .handler h => some (cl.hct,h)
  | _ => none

/-- The user callback that worker `i` is in. -/
def entered (setup : Setup H) (pool : LockedPool Closure) (i : ℕ) : List (HttpContext × H) :=
  ((closureAt pool i).bind (userCallback setup)).toList

/-- The next statement of worker `i`. From the head of a callback it leads into the closure. -/
def worker (setup : Setup H) (s : LockedService) (i : ℕ) (now : TimePoint) :
    Option (LockedService × List (Event H)) :=
  (s.threadPool.step (.worker i now)).map (fun r =>
    ({ s with threadPool := r.1, respcbs := s.respcbs ++ (entered setup r.1 i).map Prod.fst },
      r.2.map .pool ++ (entered setup r.1 i).map (fun e => .handlerEntered i e.1.req e.2)))

/-- Worker `i` leaves its closure, once it is not inside `Submit` any more. -/
def finish (setup : Setup H) (s : LockedService) (i : ℕ) (o : Outcome) :
    Option (LockedService × List (Event H)) :=
  if s.ioThread.submitters[i]? = some .outside ∧
      (closureAt s.threadPool i).any (fun cl => Service.Call.ends (setup.handlers.call cl) o) then
    (s.threadPool.step (.finish i o)).map (fun r => ({ s with threadPool := r.1 },r.2.map .pool))
  else none

/-- `Service::Complete` builds its functor and calls `Submit`. A worker does so from inside of
a closure. -/
def complete (setup : Setup H) (s : LockedService) (j k : ℕ) (resBody : Bytes) :
    Option (LockedService × List (Event H)) :=
  if setup.threadNum.val ≤ j ∨ (closureAt s.threadPool j).isSome then
    s.respcbs[k]?.bind (fun ctx => (s.ioThread.call j ⟨ctx,resBody⟩).map (fun r =>
      ({ s with ioThread := r.1 },[.responded j k ctx resBody])))
  else none

/-- The functors of `Complete` submit nothing. -/
def mailboxEvents (buffer : Evbuffer) (evbufferNew : Bool) : SubmitEvent Reply → List (Event H)
  | .called f => .mailbox (.called f) :: (f.run buffer evbufferNew).toList.map (fun m => .sendReply m.1 m.2)
  | e => [.mailbox e]

/-- A statement of `Submit`, or one of the IO thread. -/
def mailboxStep (setup : Setup H) (s : LockedService) (a : LockedIoThread.Action Reply) (evbufferNew : Bool) :
    Option (LockedService × List (Event H)) :=
  if a.own then
    (s.ioThread.step setup.capacity a).map (fun r =>
      ({ s with ioThread := r.1 },r.2.flatMap (mailboxEvents setup.evbuffer evbufferNew)))
  else none

inductive Action
  | receive (path : String) (now : TimePoint) (k : ℕ)
  | schedule (a : LockedPool.Action Closure)
  | worker (i : ℕ) (now : TimePoint)
  | finish (i : ℕ) (o : Outcome)
  | respond (j k : ℕ) (resBody : Bytes)
  | mailbox (a : LockedIoThread.Action Reply) (evbufferNew : Bool)

def step (setup : Setup H) (s : LockedService) : Action → Option (LockedService × List (Event H))
  | .receive path now k => coreHandleRequest setup s path now k
  | .schedule a => schedule s a
  | .worker i now => worker setup s i now
  | .finish i o => finish setup s i o
  | .respond j k resBody => complete setup s j k resBody
  | .mailbox a evbufferNew => mailboxStep setup s a evbufferNew

/-- All runs of a service whose user code has `others` threads of its own. -/
def machine (setup : Setup H) (others : ℕ) : Machine LockedService Action (Event H) where
  initial s := ∃ st, s = new setup others st
  step := step setup

/-- The timeout handler does not throw, whatever the other handlers do. -/
def Permitted (_ : List (Event H)) (s : LockedService) : Action → Prop
  | .finish i o => ∀ p, s.threadPool.threads[i]? = some (.inside p .expireFun) → o = .returned
  | _ => True

theorem runs_new {P : List (Event H) → LockedService → Action → Prop} (setup : Setup H) (others : ℕ)
    (st : TPoolState) : (machine setup others).Runs P [] (new setup others st) := .start ⟨st,rfl⟩

variable {setup : Setup H} {others : ℕ} {s t : LockedService} {es tr : List (Event H)}
variable {P : List (Event H) → LockedService → Action → Prop}

/-- What a step does. -/
inductive Stepped (setup : Setup H) (s : LockedService) : Action → LockedService → List (Event H) → Prop
  | receive {path : String} {now : TimePoint} {k : ℕ} {built pool : LockedPool Closure}
      (hio : s.ioThread.io = .dispatching)
      (hbuild : s.threadPool.construct s.requests (Service.newTask setup s.requests path now) = some (built,[]))
      (hadd : built.wholeAdd s.requests k = some pool) :
      Stepped setup s (.receive path now k) { s with threadPool := pool, requests := s.requests + 1 }
        [.received s.requests path now]
  | schedule {a : LockedPool.Action Closure} {pool : LockedPool Closure} {pes : List LockEvent} (ha : own a = true)
      (hpool : s.threadPool.step a = some (pool,pes)) :
      Stepped setup s (.schedule a) { s with threadPool := pool } (pes.map .pool)
  | worker {i : ℕ} {now : TimePoint} {pool : LockedPool Closure} {pes : List LockEvent}
      (hpool : s.threadPool.step (.worker i now) = some (pool,pes)) :
      Stepped setup s (.worker i now)
        { s with threadPool := pool, respcbs := s.respcbs ++ (entered setup pool i).map Prod.fst }
        (pes.map .pool ++ (entered setup pool i).map (fun e => .handlerEntered i e.1.req e.2))
  | finish {i : ℕ} {o : Outcome} {cl : Closure} {pool : LockedPool Closure} {pes : List LockEvent}
      (hout : s.ioThread.submitters[i]? = some .outside) (hcl : closureAt s.threadPool i = some cl)
      (hends : Service.Call.ends (setup.handlers.call cl) o = true)
      (hpool : s.threadPool.step (.finish i o) = some (pool,pes)) :
      Stepped setup s (.finish i o) { s with threadPool := pool } (pes.map .pool)
  | respond {j k : ℕ} {ctx : HttpContext} {resBody : Bytes}
      (hfrom : setup.threadNum.val ≤ j ∨ (closureAt s.threadPool j).isSome = true) (hk : s.respcbs[k]? = some ctx)
      (hout : s.ioThread.submitters[j]? = some .outside) :
      Stepped setup s (.respond j k resBody)
        { s with ioThread := { s.ioThread with submitters := s.ioThread.submitters.set j (.lock ⟨ctx,resBody⟩) } }
        [.responded j k ctx resBody]
  | mailbox {a : LockedIoThread.Action Reply} {evbufferNew : Bool} {io : LockedIoThread Reply}
      {ses : List (SubmitEvent Reply)} (ha : a.own = true)
      (hio : s.ioThread.step setup.capacity a = some (io,ses)) :
      Stepped setup s (.mailbox a evbufferNew) { s with ioThread := io }
        (ses.flatMap (mailboxEvents setup.evbuffer evbufferNew))

theorem construct_events {pool built : LockedPool Closure} {p : TaskPtr} {u : Task Closure} {pes : List LockEvent}
    (h : pool.construct p u = some (built,pes)) : pes = [] := by
  rw [LockedPool.construct] at h
  split at h
  · cases h
    rfl
  · cases h

theorem step_stepped {a : Action} (h : step setup s a = some (t,es)) : Stepped setup s a t es := by
  cases a with
  | receive path now k =>
    simp only [step, coreHandleRequest] at h
    split at h
    · rename_i hio
      obtain ⟨⟨built,bes⟩,hbuild,h⟩ := Option.bind_eq_some_iff.mp h
      obtain rfl := construct_events hbuild
      obtain ⟨pool,hadd,h⟩ := Option.map_eq_some_iff.mp h
      cases h
      exact .receive hio hbuild hadd
    · cases h
  | schedule b =>
    simp only [step, schedule] at h
    split at h
    · rename_i hb
      obtain ⟨⟨pool,pes⟩,hpool,h⟩ := Option.map_eq_some_iff.mp h
      cases h
      exact .schedule hb hpool
    · cases h
  | worker i now =>
    obtain ⟨⟨pool,pes⟩,hpool,h⟩ := Option.map_eq_some_iff.mp h
    cases h
    exact .worker hpool
  | finish i o =>
    simp only [step, finish] at h
    split at h
    · rename_i hends
      obtain ⟨cl,hcl,hcall⟩ := (Option.any_eq_true _ _).mp hends.2
      obtain ⟨⟨pool,pes⟩,hpool,h⟩ := Option.map_eq_some_iff.mp h
      cases h
      exact .finish hends.1 hcl hcall hpool
    · cases h
  | respond j k resBody =>
    simp only [step, complete] at h
    split at h
    · rename_i hfrom
      obtain ⟨ctx,hk,h⟩ := Option.bind_eq_some_iff.mp h
      obtain ⟨⟨io,ses⟩,hcall,h⟩ := Option.map_eq_some_iff.mp h
      rw [LockedIoThread.call] at hcall
      split at hcall
      · rename_i hout
        cases hcall
        cases h
        exact .respond hfrom hk hout
      · cases hcall
    · cases h
  | mailbox b evbufferNew =>
    simp only [step, mailboxStep] at h
    split at h
    · rename_i hb
      obtain ⟨⟨io,ses⟩,hio,h⟩ := Option.map_eq_some_iff.mp h
      cases h
      exact .mailbox hb hio
    · cases h

section Components

def poolEvent : Event H → Option LockEvent
  | .pool e => some e
  | _ => none

def mailboxEvent : Event H → Option (SubmitEvent Reply)
  | .mailbox e => some e
  | _ => none

def poolTrace (tr : List (Event H)) : List LockEvent := tr.filterMap poolEvent
def mailboxTrace (tr : List (Event H)) : List (SubmitEvent Reply) := tr.filterMap mailboxEvent

theorem filterMap_pool {α : Type*} (f : Event H → Option α) (pes : List LockEvent) :
    (pes.map Event.pool).filterMap f = pes.filterMap (fun e => f (.pool e)) := List.filterMap_map

theorem filterMap_mailboxEvents {α : Type*} (f : Event H → Option α) (g : SubmitEvent Reply → List α)
    (buffer : Evbuffer) (evbufferNew : Bool) (hf : ∀ e, (mailboxEvents buffer evbufferNew e).filterMap f = g e)
    (ses : List (SubmitEvent Reply)) : (ses.flatMap (mailboxEvents buffer evbufferNew)).filterMap f = ses.flatMap g := by
  induction ses with
  | nil => rfl
  | cons e ses ih => rw [List.flatMap_cons, List.filterMap_append, ih, hf, List.flatMap_cons]

theorem poolTrace_mailboxEvents (buffer : Evbuffer) (evbufferNew : Bool) (ses : List (SubmitEvent Reply)) :
    poolTrace (ses.flatMap (mailboxEvents (H := H) buffer evbufferNew)) = [] := by
  refine (filterMap_mailboxEvents poolEvent (fun _ => []) buffer evbufferNew (fun e => ?_) ses).trans (by simp)
  cases e with
  | called f => cases h : f.run buffer evbufferNew <;> simp [mailboxEvents,poolEvent,h]
  | locked _ | pushed _ | notified _ => rfl

theorem mailboxTrace_mailboxEvents (buffer : Evbuffer) (evbufferNew : Bool) (ses : List (SubmitEvent Reply)) :
    mailboxTrace (ses.flatMap (mailboxEvents (H := H) buffer evbufferNew)) = ses := by
  refine (filterMap_mailboxEvents mailboxEvent (fun e => [e]) buffer evbufferNew (fun e => ?_) ses).trans (by simp)
  cases e with
  | called f => cases h : f.run buffer evbufferNew <;> simp [mailboxEvents,mailboxEvent,h]
  | locked _ | pushed _ | notified _ => rfl

theorem poolTrace_map (pes : List LockEvent) : poolTrace (pes.map (Event.pool (H := H))) = pes := by
  simp [poolTrace,Function.comp_def,poolEvent]

theorem mailboxTrace_map (pes : List LockEvent) : mailboxTrace (pes.map (Event.pool (H := H))) = [] := by
  simp [mailboxTrace,mailboxEvent]

theorem poolTrace_worker (pes : List LockEvent) (i : ℕ) (es : List (HttpContext × H)) :
    poolTrace (pes.map .pool ++ es.map (fun e => .handlerEntered i e.1.req e.2)) = pes := by
  simp [poolTrace,Function.comp_def,poolEvent]

theorem mailboxTrace_worker (pes : List LockEvent) (i : ℕ) (es : List (HttpContext × H)) :
    mailboxTrace (pes.map .pool ++ es.map (fun e => .handlerEntered i e.1.req e.2)) = [] := by
  simp [mailboxTrace,mailboxEvent]

theorem orderly_own {a : LockedPool.Action Closure} (ha : own a = true) {tr : List LockEvent}
    {pool : LockedPool Closure} : LockedPool.Orderly tr pool a := by
  cases a with
  | init | initRun | spawn _ | detach _ | spurious _ => exact ⟨trivial,by simp⟩
  | makeTask _ _ | makeExpiringTask _ _ _ _ _ | addTask _ | adder _ | worker _ _ | finish _ _ | stop => cases ha

/-- The constructor call of `CoreHandleRequest`. -/
def building (setup : Setup H) (req : ℕ) (path : String) (now : TimePoint) : LockedPool.Action Closure :=
  .makeExpiringTask req (some (.taskFun path ⟨req,path⟩)) (some (.expireFun ⟨req,path⟩)) setup.expiration now

/-- The pool inside the service, which nobody stops. -/
def toPool (setup : Setup H) (others : ℕ) : Machine.Projection (machine setup others) Permitted
    (LockedPool.machine Closure setup.threadNum) LockedPool.Orderly where
  state s := s.threadPool
  event := poolEvent
  initial := by
    rintro _ ⟨st,rfl⟩
    exact ⟨st,rfl⟩
  step := by
    intro tr s a t es _ hp hs hr
    change (LockedPool.machine Closure setup.threadNum).Runs LockedPool.Orderly (poolTrace tr) s.threadPool at hr
    change (LockedPool.machine Closure setup.threadNum).Runs LockedPool.Orderly
      (poolTrace tr ++ poolTrace es) t.threadPool
    cases step_stepped hs with
    | @receive path now k built pool _ hbuild hadd =>
      have hbuilt := hr.next (a := building setup s.requests path now) ⟨trivial,by simp [building]⟩ hbuild
      rw [List.append_nil] at hbuilt
      exact (List.append_nil (poolTrace tr)).symm ▸
        LockedPool.wholeAdd_runs hbuilt ⟨trivial,by simp⟩ (fun _ => ⟨trivial,by simp⟩) hadd
    | schedule ha hpool =>
      rw [poolTrace_map]
      exact hr.next (orderly_own ha) hpool
    | @worker i now pool pes hpool =>
      rw [poolTrace_worker]
      exact hr.next (a := LockedPool.Action.worker i now) ⟨trivial,by simp⟩ hpool
    | @finish i o cl pool pes _ _ _ hpool =>
      rw [poolTrace_map]
      exact hr.next (a := LockedPool.Action.finish i o) ⟨hp,by simp⟩ hpool
    | respond _ _ _ => exact (List.append_nil _).symm ▸ hr
    | mailbox _ _ =>
      rw [poolTrace_mailboxEvents, List.append_nil]
      exact hr

/-- The mailbox inside the service. -/
def toIoThread (setup : Setup H) (others : ℕ) : Machine.Projection (machine setup others) Machine.Any
    (LockedIoThread.machine Reply setup.capacity (setup.threadNum.val + others)) Machine.Any where
  state s := s.ioThread
  event := mailboxEvent
  initial := by
    rintro _ ⟨st,rfl⟩
    rfl
  step := by
    intro tr s a t es _ _ hs hr
    change (LockedIoThread.machine Reply setup.capacity (setup.threadNum.val + others)).Runs Machine.Any
      (mailboxTrace tr) s.ioThread at hr
    change (LockedIoThread.machine Reply setup.capacity (setup.threadNum.val + others)).Runs Machine.Any
      (mailboxTrace tr ++ mailboxTrace es) t.ioThread
    cases step_stepped hs with
    | receive _ _ _ => exact (List.append_nil _).symm ▸ hr
    | schedule _ _ | finish _ _ _ _ =>
      rw [mailboxTrace_map, List.append_nil]
      exact hr
    | worker _ =>
      rw [mailboxTrace_worker, List.append_nil]
      exact hr
    | @respond j k ctx resBody _ _ hout =>
      have hcall : LockedIoThread.step setup.capacity s.ioThread (.call j ⟨ctx,resBody⟩) =
          some ({ s.ioThread with submitters := s.ioThread.submitters.set j (.lock ⟨ctx,resBody⟩) },
            mailboxTrace [Event.responded (H := H) j k ctx resBody]) := by
        rw [LockedIoThread.step, LockedIoThread.call, hout]
        rfl
      refine .next (a := LockedIoThread.Action.call j ⟨ctx,resBody⟩) hr trivial ?_
      exact hcall
    | mailbox _ hio =>
      rw [mailboxTrace_mailboxEvents]
      exact hr.next trivial hio

theorem runs_pool (hr : (machine setup others).Runs Permitted tr s) :
    (LockedPool.machine Closure setup.threadNum).Runs LockedPool.Orderly (poolTrace tr) s.threadPool :=
  (toPool setup others).runs hr

theorem runs_ioThread (hr : (machine setup others).Runs P tr s) :
    (LockedIoThread.machine Reply setup.capacity (setup.threadNum.val + others)).Runs Machine.Any
      (mailboxTrace tr) s.ioThread := (toIoThread setup others).runs hr.any

/-- The IO thread is inside no `Submit`. -/
theorem io_outside (hr : (machine setup others).Runs P tr s) : s.ioThread.io.inner = .outside := by
  refine hr.stateInvariant (I := fun s => s.ioThread.io.inner = .outside) ?_ (fun s a t es h hs => ?_)
  · rintro _ ⟨st,rfl⟩
    rfl
  · cases step_stepped hs with
    | receive _ _ _ | schedule _ _ | worker _ | finish _ _ _ _ | respond _ _ _ => exact h
    | mailbox ha hio =>
      rcases LockedIoThread.own_cases h ha hio with ⟨_,_,_,_,_,_,_,rfl⟩ | ⟨_,hinner,_⟩
      · exact h
      · exact hinner

/-- Between the steps of the service no `AddTask` is under way. -/
theorem adder_outside (hr : (machine setup others).Runs P tr s) : s.threadPool.adder = .outside := by
  refine hr.stateInvariant (I := fun s => s.threadPool.adder = .outside) ?_ (fun s a t es h hs => ?_)
  · rintro _ ⟨st,rfl⟩
    rfl
  · cases step_stepped hs with
    | receive _ _ hadd => exact LockedPool.wholeAdd_outside hadd
    | schedule hb hpool =>
      refine (LockedPool.step_adder hpool ?_ ?_ ?_).trans h
      · exact fun _ he => (by rw [he] at hb; cases hb)
      · exact fun _ he => (by rw [he] at hb; cases hb)
      · exact fun he => (by rw [he] at hb; cases hb)
    | worker hpool | finish _ _ _ hpool => exact (LockedPool.step_adder hpool (by simp) (by simp) (by simp)).trans h
    | respond _ _ _ | mailbox _ _ => exact h

end Components

end LockedService
end Kbms
