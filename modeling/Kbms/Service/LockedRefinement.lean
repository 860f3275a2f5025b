import Kbms.Service.LockedService
import Kbms.Service.Unanswered

/-! # The statements of the service refine its sections

The service in which a section of a mutex is one step explains the one in which it is several.
A section of the pool takes effect at one of its statements, and a `Submit` when it has notified
the IO thread. All that the outside sees happens in the same order in both.
-/
namespace Kbms.LockedService
open Foundation
variable {H : Type*} {setup : Setup H} {others : ℕ} {s t : LockedService} {s' t' : Service}
  {tr es : List (Event H)} {tr' es' : List (Kbms.Event H)} {taken taken' : List TaskPtr} {i j : ℕ}
variable {P : List (Event H) → LockedService → Action → Prop}

section Visible

/-- What the coarse service emits at the same moment. -/
def visible : Event H → Option (Kbms.Event H)
  | .received req path now => some (.received req path now)
  | .pool e => (LockedPool.callEvent e).map .pool
  | .handlerEntered i req h => some (.handlerEntered i req h)
  | .responded _ _ _ _ => none
  | .mailbox e => (LockedIoThread.mailEvent e).map .io
  | .sendReply req body => some (.sendReply .io req body)

/-- Callbacks that begin and end, and all that happens outside of the pool. -/
def isVisible : Kbms.Event H → Bool
  | .pool e => LockedPool.isCall e
  | .responded _ _ _ _ => false
  | _ => true

def response : Event H → Option Reply
  | .responded _ _ ctx resBody => some ⟨ctx,resBody⟩
  | _ => none

/-- The calls of `Complete`, whether or not their `Submit` has been over. -/
def responses (tr : List (Event H)) : List Reply := tr.filterMap response

/-- The functors of the threads that are in the middle of a `Submit`. -/
def inFlight (s : LockedService) : List Reply := s.ioThread.submitters.filterMap SubmitPoint.carried

@[simp] theorem responses_append (xs ys : List (Event H)) : responses (xs ++ ys) = responses xs ++ responses ys :=
  List.filterMap_append

theorem visible_pool (pes : List LockEvent) :
    (pes.map (Event.pool (H := H))).filterMap visible = (LockedPool.calls pes).map .pool := by
  rw [filterMap_pool, LockedPool.calls, List.map_filterMap]
  rfl

theorem isVisible_pool (pes : List PoolEvent) :
    (pes.map (Kbms.Event.pool (H := H))).filter isVisible = (pes.filter LockedPool.isCall).map .pool := by
  rw [List.filter_map]
  rfl

theorem visible_mailbox (buffer : Evbuffer) (evbufferNew : Bool) (ses : List (SubmitEvent Reply)) :
    (ses.flatMap (mailboxEvents (H := H) buffer evbufferNew)).filterMap visible =
      ((ses.filterMap LockedIoThread.mailEvent).flatMap (Service.ioEvents buffer evbufferNew)).filter isVisible := by
  induction ses with
  | nil => rfl
  | cons e ses ih =>
    rw [List.flatMap_cons, List.filterMap_append, ih]
    cases e with
    | called f =>
      have hcons : (SubmitEvent.called f :: ses).filterMap LockedIoThread.mailEvent =
          .called f :: ses.filterMap LockedIoThread.mailEvent := rfl
      rw [hcons, List.flatMap_cons, mailboxEvents, Service.ioEvents]
      cases f.run buffer evbufferNew <;> rfl
    | locked _ | pushed _ | notified _ => rfl

theorem responses_pool (pes : List LockEvent) : responses (pes.map (Event.pool (H := H))) = [] := by
  simp [responses,response]

theorem responses_mailbox (buffer : Evbuffer) (evbufferNew : Bool) (ses : List (SubmitEvent Reply)) :
    responses (ses.flatMap (mailboxEvents (H := H) buffer evbufferNew)) = [] := by
  refine (filterMap_mailboxEvents response (fun _ => []) buffer evbufferNew (fun e => ?_) ses).trans (by simp)
  cases e with
  | called f => cases h : f.run buffer evbufferNew <;> simp [mailboxEvents,response,h]
  | locked _ | pushed _ | notified _ => rfl

end Visible

section Matching

/-- Each part of the service refines its counterpart. -/
structure Matches (s : LockedService) (s' : Service) (taken : List TaskPtr) : Prop where
  threadPool : LockedPool.Abstracts s.threadPool s'.threadPool taken
  ioThread : s'.ioThread = s.ioThread.mail
  requests : s'.requests = s.requests
  respcbs : s'.respcbs = s.respcbs

/-- The coarse service has a run to this state in which the same things are seen in the same
order, and the same replies were handed over but for those in flight. -/
structure Explained (tr : List (Event H)) (s : LockedService) (tr' : List (Kbms.Event H)) (s' : Service) : Prop where
  state : ∃ taken, Matches s s' taken
  seen : tr.filterMap visible = tr'.filter isVisible
  responses : (responses tr).Perm (Service.responses tr' ++ inFlight s)

def threadOf (setup : Setup H) (j : ℕ) : Thread :=
  if j < setup.threadNum.val then .worker j else .other (j - setup.threadNum.val)

/-- The steps of the coarse service that can answer a step of this one. -/
inductive Mirrors (setup : Setup H) (s : LockedService) : Action → Option Service.Action → Prop
  | stutter {a : Action} (ha : ∀ i o, a ≠ .finish i o) : Mirrors setup s a none
  | receive {path : String} {now : TimePoint} {k : ℕ} :
      Mirrors setup s (.receive path now k) (some (.receive path now k))
  | schedule {a : LockedPool.Action Closure} {b : ThreadPool.Action Closure} :
      Mirrors setup s (.schedule a) (some (.schedule b))
  | acquire {i : ℕ} {now later : TimePoint} : Mirrors setup s (.worker i now) (some (.schedule (.acquire i later)))
  | enter {i : ℕ} {now : TimePoint} : Mirrors setup s (.worker i now) (some (.enter i))
  | finish {i : ℕ} {o : Outcome} : Mirrors setup s (.finish i o) (some (.finish i o))
  | respond {x : LockedIoThread.Action Reply} {evbufferNew : Bool} {j k : ℕ} {f : Reply}
      (hat : s.ioThread.submitters[j]? = some (.notify f)) (hk : s.respcbs[k]? = some f.ctx) :
      Mirrors setup s (.mailbox x evbufferNew) (some (.respond (threadOf setup j) k f.resBody))
  | io {x : LockedIoThread.Action Reply} {evbufferNew : Bool} {y : IoThread.Action Reply} :
      Mirrors setup s (.mailbox x evbufferNew) (some (.io y evbufferNew))

/-- The coarse service goes on so that a step with the events `es` to `t` is explained. -/
def Answered (setup : Setup H) (s : LockedService) (s' : Service) (a : Action) (t : LockedService)
    (es : List (Event H)) : Prop :=
  ∃ b es' t' taken', Mirrors setup s a b ∧ (Service.machine setup).follow s' b = some (t',es') ∧
    Matches t t' taken' ∧ es.filterMap visible = es'.filter isVisible ∧
    (responses es ++ inFlight s).Perm (Service.responses es' ++ inFlight t)

theorem Answered.stutter {a : Action} (ha : ∀ i o, a ≠ .finish i o) (h : Matches t s' taken)
    (hv : es.filterMap visible = []) (hresp : (responses es ++ inFlight s).Perm (inFlight t)) :
    Answered setup s s' a t es := ⟨none,[],s',taken,.stutter ha,rfl,h,hv,hresp⟩

theorem Answered.one {a : Action} {b : Service.Action} (hb : Mirrors setup s a (some b))
    (hs : Service.step setup s' b = some (t',es')) (h : Matches t t' taken)
    (hv : es.filterMap visible = es'.filter isVisible)
    (hresp : (responses es ++ inFlight s).Perm (Service.responses es' ++ inFlight t)) : Answered setup s s' a t es :=
  ⟨some b,es',t',taken,hb,hs,h,hv,hresp⟩

/-- A step of the pool that is one of the coarse pool, with the events `xs` of user callbacks. -/
theorem Matches.pool {pool : LockedPool Closure} {pool' : ThreadPool Closure} (h : Matches s s' taken)
    (habs : LockedPool.Abstracts pool pool' taken') (entries : List HttpContext) :
    Matches { s with threadPool := pool, respcbs := s.respcbs ++ entries }
      { s' with threadPool := pool', respcbs := s'.respcbs ++ entries } taken' :=
  ⟨habs,h.ioThread,h.requests,by dsimp only; rw [h.respcbs]⟩

end Matching

section Pool

/-- The closure of a worker is the same in both pools. -/
theorem closureAt_eq {n : ThreadNum} {ptr : List PoolEvent} {pool : LockedPool Closure} {pool' : ThreadPool Closure}
    (hr : (ThreadPool.machine Closure n).Runs Machine.Any ptr pool') (h : LockedPool.Abstracts pool pool' taken)
    (i : ℕ) : closureAt pool i = Service.closureAt pool' i := by
  by_cases hin : ∃ p c, pool.threads[i]? = some (.inside p c)
  · obtain ⟨p,c,ha⟩ := hin
    have hw := (h.inside_iff i p c).mp ha
    rw [closureAt, Service.closureAt, ha, hw]
    dsimp only
    rw [h.tasks_eq hr hw rfl]
  · push Not at hin
    rw [closureAt, Service.closureAt]
    split
    · rename_i p c ha
      exact absurd ha (hin p c)
    · split
      · rename_i p c hw
        exact absurd ((h.inside_iff i p c).mpr hw) (hin p c)
      · rfl

theorem enter_eq (setup : Setup H) (s' : Service) (i : ℕ) : Service.enter setup s' i =
    (s'.threadPool.enter i).map (fun r =>
      ({ s' with
        threadPool := r.1
        respcbs := s'.respcbs ++ (((Service.closureAt r.1 i).bind (userCallback setup)).toList).map Prod.fst },
        r.2.map .pool ++ (((Service.closureAt r.1 i).bind (userCallback setup)).toList).map
          (fun e => .handlerEntered i e.1.req e.2))) := by
  rw [Service.enter]
  congr 1
  funext r
  cases hcl : Service.closureAt r.1 i with
  | none => simp
  | some cl => cases hcall : setup.handlers.call cl <;> simp [userCallback,hcall]

/-- Only the head of a callback leads into a closure. -/
theorem entered_of_not_call {pool pool' : LockedPool Closure} {pes : List LockEvent} {now : TimePoint}
    (hs : pool.step (.worker i now) = some (pool',pes)) (hcall : ∀ p c, pool.threads[i]? ≠ some (.call p c)) :
    closureAt pool' i = none := by
  obtain ⟨a,ha,hs⟩ := Option.bind_eq_some_iff.mp hs
  have hlt := (List.getElem?_eq_some_iff.mp ha).1
  obtain ⟨b,ht,hb⟩ := LockedPool.execute_follows hs
  have hnot : ∀ p c, b ≠ .inside p c := by
    rintro p c rfl
    rcases hb with ⟨hf,_⟩ | ⟨_,_,_,_,hb,_⟩
    · cases hf with
      | enters _ _ => exact hcall p c ha
    · cases hb
  rw [closureAt, ht, List.getElem?_set_self hlt]
  cases b with
  | inside p c => exact absurd rfl (hnot p c)
  | _ => rfl

end Pool

section Steps

/-- What the coarse pool does by itself. -/
theorem Answered.scheduled {a : Action} {pool : LockedPool Closure} {pool' : ThreadPool Closure} {pes : List LockEvent}
    {pes' : List PoolEvent} {b : Option (ThreadPool.Action Closure)} (h : Matches s s' taken)
    (hnone : b = none → ∀ i o, a ≠ .finish i o)
    (hb : ∀ c, b = some c → Service.own c = true ∧ Mirrors setup s a (some (.schedule c)))
    (hs : (ThreadPool.machine Closure setup.threadNum).follow s'.threadPool b = some (pool',pes'))
    (habs : LockedPool.Abstracts pool pool' taken') (hcalls : LockedPool.calls pes = pes'.filter LockedPool.isCall) :
    Answered setup s s' a { s with threadPool := pool } (pes.map .pool) := by
  have hresp : (responses (pes.map (Event.pool (H := H))) ++ inFlight s).Perm
      (inFlight { s with threadPool := pool }) := by
    rw [responses_pool]
    exact .refl _
  cases b with
  | none =>
    cases hs
    refine .stutter (hnone rfl) ⟨habs,h.ioThread,h.requests,h.respcbs⟩ ?_ hresp
    rw [visible_pool, hcalls]
    rfl
  | some c =>
    obtain ⟨hown,hmirrors⟩ := hb c rfl
    have hpool : s'.threadPool.step c = some (pool',pes') := hs
    have hstep : Service.step setup s' (.schedule c) = some ({ s' with threadPool := pool' },pes'.map .pool) := by
      rw [Service.step, Service.schedule, if_pos hown, hpool]
      rfl
    refine .one hmirrors hstep ⟨habs,h.ioThread,h.requests,h.respcbs⟩ ?_ ?_
    · rw [visible_pool, isVisible_pool, hcalls]
    · rw [Service.responses, Service.filterMap_pool Service.response (fun _ => rfl)]
      exact hresp

variable (hr : (machine setup others).Runs Permitted tr s) (hr' : (Service.machine setup).Runs Machine.Any tr' s')
  (h : Matches s s' taken)
include hr hr' h

/-- A step of the pool, and the step or none with which the coarse pool answers it. -/
theorem Matches.answered {a : LockedPool.Action Closure} {pool : LockedPool Closure} {pes : List LockEvent}
    (ha : LockedPool.Permitted (poolTrace tr) s.threadPool a) (hs : s.threadPool.step a = some (pool,pes)) :
    LockedPool.Answered setup.threadNum (LockedPool.Mirrors s.threadPool a) s'.threadPool taken pool pes :=
  .step (LockedPool.inv_of_runs (LockedPool.orderly_permitted (runs_pool hr))) ha (Service.runs_pool hr').any
    h.threadPool hs

theorem Answered.receive {path : String} {now : TimePoint} {k : ℕ} {built pool : LockedPool Closure}
    (hbuild : s.threadPool.construct s.requests (Service.newTask setup s.requests path now) = some (built,[]))
    (hadd : built.wholeAdd s.requests k = some pool) :
    Answered setup s s' (.receive path now k) { s with threadPool := pool, requests := s.requests + 1 }
      [.received s.requests path now] := by
  have hpool := LockedPool.orderly_permitted (runs_pool hr)
  have hbuild : s.threadPool.step (building setup s.requests path now) = some (built,[]) := hbuild
  obtain ⟨_,bes,mid,_,rfl,hmid,habs,_,_⟩ := h.answered hr hr' (a := building setup s.requests path now) trivial hbuild
  have hbuilt := hpool.next (a := building setup s.requests path now) trivial hbuild
  obtain ⟨_,ces,pool',taken',rfl,hlast,habs',_,hcalls⟩ :=
    LockedPool.Answered.wholeAdd (n := setup.threadNum) (LockedPool.inv_of_runs hbuilt) habs hadd
  have hstep : Service.step setup s' (.receive path now k) =
      some ({ s' with threadPool := pool', requests := s'.requests + 1 },
        .received s.requests path now :: ces.map .pool) := by
    have hmid : s'.threadPool.construct s.requests (Service.newTask setup s.requests path now) = some (mid,bes) := hmid
    have hlast : mid.addTask s.requests k = some (pool',ces) := hlast
    rw [Service.newTask] at hmid
    rw [Service.step, Service.coreHandleRequest, h.requests]
    dsimp only
    rw [hmid, Option.bind_some, hlast]
    rfl
  refine .one .receive hstep ⟨habs',h.ioThread,congrArg (· + 1) h.requests,h.respcbs⟩ ?_ ?_
  · rw [List.filter_cons_of_pos rfl, isVisible_pool, ← hcalls]
    rfl
  · rw [Service.responses, List.filterMap_cons, Service.filterMap_pool Service.response (fun _ => rfl)]
    exact .refl _

theorem Answered.schedule {a : LockedPool.Action Closure} {pool : LockedPool Closure} {pes : List LockEvent}
    (ha : own a = true) (hs : s.threadPool.step a = some (pool,pes)) :
    Answered setup s s' (.schedule a) { s with threadPool := pool } (pes.map .pool) := by
  obtain ⟨b,pes',pool',taken',hb,hfollow,habs,_,hcalls⟩ := h.answered hr hr' (orderly_own ha).1 hs
  refine .scheduled h (fun _ => by simp) (fun c hc => ⟨?_,.schedule⟩) hfollow habs hcalls
  subst hc
  cases a with
  | init | spawn _ =>
    cases hb
    rfl
  | initRun | detach _ => cases hb
  | spurious _ =>
    rcases hb with hb | hb
    · cases hb
    · cases hb
      rfl
  | makeTask _ _ | makeExpiringTask _ _ _ _ _ | addTask _ | adder _ | worker _ _ | finish _ _ | stop => cases ha

theorem Answered.worker {now : TimePoint} {pool : LockedPool Closure} {pes : List LockEvent}
    (hs : s.threadPool.step (.worker i now) = some (pool,pes)) :
    Answered setup s s' (.worker i now)
      { s with threadPool := pool, respcbs := s.respcbs ++ (entered setup pool i).map Prod.fst }
      (pes.map .pool ++ (entered setup pool i).map (fun e => .handlerEntered i e.1.req e.2)) := by
  obtain ⟨b,pes',pool',taken',hb,hfollow,habs,_,hcalls⟩ := h.answered hr hr' (a := .worker i now) trivial hs
  rcases hb with ⟨p,c,_,rfl⟩ | ⟨hcall,hb⟩
  · have hrun := (Service.runs_pool hr').any.next trivial hfollow
    have hpool : s'.threadPool.enter i = some (pool',pes') := hfollow
    have hstep : Service.step setup s' (.enter i) =
        some ({ s' with threadPool := pool', respcbs := s'.respcbs ++ (entered setup pool i).map Prod.fst },
          pes'.map .pool ++ (entered setup pool i).map (fun e => .handlerEntered i e.1.req e.2)) := by
      rw [Service.step, enter_eq, hpool, entered, closureAt_eq hrun habs]
      rfl
    refine .one .enter hstep (h.pool habs _) ?_ ?_
    · rw [List.filterMap_append, List.filter_append, visible_pool, isVisible_pool, hcalls]
      simp [List.filterMap_map,Function.comp_def,visible,List.filter_map,isVisible]
    · simp only [responses_append, responses_pool, Service.responses_append]
      rw [Service.responses, Service.filterMap_pool Service.response (fun _ => rfl)]
      simp [responses,Service.responses,response,Service.response,inFlight,Function.comp_def]
  · have hnone : entered setup pool i = [] := by
      rw [entered, entered_of_not_call hs hcall]
      rfl
    rw [hnone, List.map_nil, List.append_nil, List.map_nil, List.append_nil]
    refine .scheduled h (fun _ => by simp) (fun c hc => ?_) hfollow habs hcalls
    rcases hb with hb | ⟨later,hb⟩
    · rw [hb] at hc
      cases hc
    · rw [hb] at hc
      cases hc
      exact ⟨rfl,.acquire⟩

theorem Answered.finish {o : Outcome} {cl : Closure} {pool : LockedPool Closure} {pes : List LockEvent}
    (hp : Permitted tr s (.finish i o)) (hcl : closureAt s.threadPool i = some cl)
    (hends : Service.Call.ends (setup.handlers.call cl) o = true)
    (hs : s.threadPool.step (.finish i o) = some (pool,pes)) :
    Answered setup s s' (.finish i o) { s with threadPool := pool } (pes.map .pool) := by
  obtain ⟨_,pes',pool',taken',rfl,hfollow,habs,_,hcalls⟩ := h.answered hr hr' (a := .finish i o) hp hs
  rw [closureAt_eq (Service.runs_pool hr').any h.threadPool] at hcl
  have hpool : s'.threadPool.finish i o = some (pool',pes') := hfollow
  have hstep : Service.step setup s' (.finish i o) = some ({ s' with threadPool := pool' },pes'.map .pool) := by
    rw [Service.step, Service.finish, hcl, if_pos (by simpa using hends), hpool]
    rfl
  refine .one .finish hstep ⟨habs,h.ioThread,h.requests,h.respcbs⟩ ?_ ?_
  · rw [visible_pool, isVisible_pool, hcalls]
  · rw [responses_pool, Service.responses, Service.filterMap_pool Service.response (fun _ => rfl)]
    exact .refl _

end Steps

section Mailbox

/-- What a statement is for the mailbox in which a `Submit` is one step. -/
inductive Mailed (capacity : ℕ) (s t : LockedIoThread Reply) (es : List (SubmitEvent Reply)) : Prop
  | silent (hes : es.filterMap LockedIoThread.mailEvent = []) (ht : t.mail = s.mail)
  | notified (func : Reply) (hes : es = [.notified func]) (ht : t.mail = (IoThread.submit capacity s.mail func).1)
  | io (x : IoThread.Action Reply) (hes : ∀ e ∈ es, ∃ f, e = .called f)
      (hs : IoThread.step capacity s.mail x = some (t.mail,es.filterMap LockedIoThread.mailEvent))

theorem mailed {capacity : ℕ} {mtr es : List (SubmitEvent Reply)} {s t : LockedIoThread Reply}
    (ho : LockedIoThread.Ordered mtr s) (he : LockedIoThread.Effect capacity s t es) : Mailed capacity s t es := by
  cases he with
  | locked func hs ht hq hu hp =>
    refine .silent rfl (LockedIoThread.mail_eq ?_ hu hp)
    rw [LockedIoThread.announced_eq (by rw [ht]; rfl), LockedIoThread.announced_eq (by rw [hs]; rfl), hq]
  | pushed func hs ht hq hu hp =>
    refine .silent rfl (LockedIoThread.mail_eq ?_ hu hp)
    rw [LockedIoThread.announced_pushed ht hq, LockedIoThread.announced_eq (by rw [hs]; rfl)]
  | notified func hs ht hq hu hp =>
    refine .notified func rfl ?_
    rw [LockedIoThread.mail, LockedIoThread.announced_eq (by rw [ht]; rfl), hq, hu, hp, ho.queue, hs]
    rfl
  | unlocked hs ht hq hu hp =>
    refine .silent rfl (LockedIoThread.mail_eq ?_ hu hp)
    rw [LockedIoThread.announced_eq (by rw [ht]; rfl), LockedIoThread.announced_eq (by rw [hs]; rfl), hq]
  | quiet ht hq hu hp => exact .silent rfl (LockedIoThread.mail_eq (LockedIoThread.announced_same ht hq) hu hp)
  | io x ht hq hes hstep => exact .io x hes hstep

theorem mailed_of_runs (hr : (machine setup others).Runs P tr s) {a : LockedIoThread.Action Reply}
    {io : LockedIoThread Reply} {ses : List (SubmitEvent Reply)}
    (hs : s.ioThread.step setup.capacity a = some (io,ses)) : Mailed setup.capacity s.ioThread io ses :=
  mailed (LockedIoThread.ordered_of_runs (runs_ioThread hr))
    ((LockedIoThread.excluded_of_runs (runs_ioThread hr)).effect (LockedIoThread.step_stepped hs))

/-- A statement that notifies does nothing else. -/
theorem Mailed.eq_notified {capacity : ℕ} {s t : LockedIoThread Reply} {es : List (SubmitEvent Reply)} {func : Reply}
    (h : Mailed capacity s t es) (hmem : .notified func ∈ es) : es = [.notified func] := by
  cases h with
  | silent hes _ =>
    have hnone := List.filterMap_eq_nil_iff.mp hes _ hmem
    cases hnone
  | notified g hes _ =>
    subst hes
    cases List.mem_singleton.mp hmem
    rfl
  | io _ hes _ =>
    obtain ⟨g,hg⟩ := hes _ hmem
    cases hg

/-- Only with its notification a `Submit` gives its functor away. -/
theorem carried_cases {capacity : ℕ} {m m' : Mailbox Reply} {who : IoHolder} {a b : SubmitPoint Reply}
    {ses : List (SubmitEvent Reply)} (h : m.submit capacity who a = some (b,m',ses)) :
    (b.carried = a.carried ∧ ∀ func, .notified func ∉ ses) ∨
      ∃ func, a = .notify func ∧ b = .unlock ∧ ses = [.notified func] := by
  rcases LockedIoThread.submit_cases h with ⟨_,rfl,rfl,_,_,rfl⟩ | ⟨_,rfl,rfl,_,rfl⟩ | ⟨func,rfl,rfl,_,rfl⟩ |
    ⟨rfl,rfl,_,rfl⟩
  · exact .inl ⟨rfl,by simp⟩
  · exact .inl ⟨rfl,by simp⟩
  · exact .inr ⟨func,rfl,rfl,rfl⟩
  · exact .inl ⟨rfl,by simp⟩

/-- Replies stay in flight until they are notified of. -/
theorem inFlight_perm {a : LockedIoThread.Action Reply} {io : LockedIoThread Reply} {ses : List (SubmitEvent Reply)}
    (hr : (machine setup others).Runs P tr s) (ha : a.own = true)
    (hs : s.ioThread.step setup.capacity a = some (io,ses)) (hno : ∀ func, .notified func ∉ ses) :
    (inFlight s).Perm (inFlight { s with ioThread := io }) := by
  rcases LockedIoThread.own_cases (io_outside hr) ha hs with ⟨j,a,b,m,rfl,haj,hm,rfl⟩ | ⟨hsame,_⟩
  · rcases carried_cases hm with ⟨hab,_⟩ | ⟨func,_,_,rfl⟩
    · have hperm := Roster.filterMap_set_perm haj SubmitPoint.carried b
      rw [hab] at hperm
      exact ((List.perm_append_right_iff _).mp hperm).symm
    · exact absurd (List.mem_singleton_self _) (hno func)
  · rw [inFlight, inFlight, hsame]

/-- The notification of a reply is one of a thread in `Submit`, which had the reply in flight. -/
theorem notified_inFlight {a : LockedIoThread.Action Reply} {io : LockedIoThread Reply} {func : Reply}
    (hr : (machine setup others).Runs P tr s) (ha : a.own = true)
    (hs : s.ioThread.step setup.capacity a = some (io,[.notified func])) :
    (∃ j : ℕ, s.ioThread.submitters[j]? = some (.notify func)) ∧
      (inFlight s).Perm (func :: inFlight { s with ioThread := io }) := by
  rcases LockedIoThread.own_cases (io_outside hr) ha hs with ⟨j,a,b,m,rfl,haj,hm,rfl⟩ | ⟨_,_,hcalled⟩
  · rcases carried_cases hm with ⟨_,hno⟩ | ⟨_,rfl,rfl,he⟩
    · exact absurd (List.mem_singleton_self _) (hno func)
    · cases he
      have hperm := Roster.filterMap_set_perm haj SubmitPoint.carried .unlock
      rw [show (SubmitPoint.unlock : SubmitPoint Reply).carried.toList = [] from rfl, List.append_nil] at hperm
      exact ⟨⟨j,haj⟩,hperm.symm.trans List.perm_append_comm⟩
  · obtain ⟨f,hf⟩ := hcalled _ (List.mem_singleton_self _)
    cases hf

/-- The contexts of the replies in flight are those of callbacks that were handed out. -/
theorem inFlight_respcbs (hr : (machine setup others).Runs P tr s) : ∀ f ∈ inFlight s, f.ctx ∈ s.respcbs := by
  refine hr.invariant (I := fun _ s => ∀ f ∈ inFlight s, f.ctx ∈ s.respcbs) ?_ (fun tr s a t es hr h _ hs => ?_)
  · rintro _ ⟨st,rfl⟩
    simp [inFlight,new,LockedIoThread.new,SubmitPoint.carried]
  · cases step_stepped hs with
    | receive _ _ _ | schedule _ _ | finish _ _ _ _ => exact h
    | worker _ => exact fun f hf => List.mem_append_left _ (h f hf)
    | @respond j k ctx resBody _ hk hout =>
      intro f hf
      have hperm := Roster.filterMap_set_perm hout SubmitPoint.carried (.lock (⟨ctx,resBody⟩ : Reply))
      rcases List.mem_append.mp (hperm.mem_iff.mp (List.mem_append_left _ hf)) with hf | hf
      · exact h f hf
      · obtain rfl := List.mem_singleton.mp hf
        exact List.mem_of_getElem? hk
    | @mailbox _ _ io ses ha hio =>
      intro f hf
      by_cases hno : ∀ func, .notified func ∉ ses
      · exact h f ((inFlight_perm hr ha hio hno).mem_iff.mpr hf)
      · push Not at hno
        obtain ⟨func,hmem⟩ := hno
        obtain rfl := (mailed_of_runs hr hio).eq_notified hmem
        exact h f ((notified_inFlight hr ha hio).2.mem_iff.mpr (List.mem_cons_of_mem func hf))

theorem Answered.respond {k : ℕ} {ctx : HttpContext} {resBody : Bytes} (hr : (machine setup others).Runs P tr s)
    (h : Matches s s' taken) (hout : s.ioThread.submitters[j]? = some .outside) :
    Answered setup s s' (.respond j k resBody)
      { s with ioThread := { s.ioThread with submitters := s.ioThread.submitters.set j (.lock ⟨ctx,resBody⟩) } }
      [.responded j k ctx resBody] := by
  have hmail : LockedIoThread.mail { s.ioThread with
      submitters := s.ioThread.submitters.set j (.lock (⟨ctx,resBody⟩ : Reply)) } = s.ioThread.mail := by
    have hholder := (LockedIoThread.excluded_of_runs (runs_ioThread hr)).holder_call hout ⟨ctx,resBody⟩
    exact LockedIoThread.mail_eq (LockedIoThread.announced_same hholder rfl) rfl rfl
  refine .stutter (by simp) ⟨h.threadPool,h.ioThread.trans hmail.symm,h.requests,h.respcbs⟩ rfl ?_
  have hperm := Roster.filterMap_set_perm hout SubmitPoint.carried (.lock (⟨ctx,resBody⟩ : Reply))
  rw [show (SubmitPoint.outside : SubmitPoint Reply).carried.toList = [] from rfl, List.append_nil] at hperm
  exact List.perm_append_comm.trans hperm.symm

theorem ioStep_eq {x : IoThread.Action Reply} (hx : ∀ f, x ≠ .submit f) (s' : Service) (evbufferNew : Bool) :
    Service.ioStep setup s' x evbufferNew = (s'.ioThread.step setup.capacity x).map (fun r =>
      ({ s' with ioThread := r.1 },r.2.flatMap (Service.ioEvents setup.evbuffer evbufferNew))) := by
  cases x with
  | submit f => exact absurd rfl (hx f)
  | _ => rfl

/-- The notification of a reply is the call of its callback in the coarse service. -/
theorem Answered.notified {a : LockedIoThread.Action Reply} {evbufferNew : Bool} {io : LockedIoThread Reply}
    {func : Reply} (hr : (machine setup others).Runs P tr s) (h : Matches s s' taken) (ha : a.own = true)
    (hs : s.ioThread.step setup.capacity a = some (io,[.notified func]))
    (hmail : io.mail = (IoThread.submit setup.capacity s.ioThread.mail func).1) :
    Answered setup s s' (.mailbox a evbufferNew) { s with ioThread := io }
      (mailboxEvents setup.evbuffer evbufferNew (.notified func)) := by
  obtain ⟨⟨j,hj⟩,hperm⟩ := notified_inFlight hr ha hs
  have hmem : func ∈ inFlight s := List.mem_filterMap.mpr ⟨_,List.mem_of_getElem? hj,rfl⟩
  obtain ⟨k,hk⟩ := List.getElem?_of_mem (inFlight_respcbs hr func hmem)
  have hstep : Service.step setup s' (.respond (threadOf setup j) k func.resBody) =
      some ({ s' with ioThread := (IoThread.submit setup.capacity s'.ioThread func).1 },
        [.responded (threadOf setup j) k func.ctx func.resBody,.io (.submitted func)]) := by
    rw [Service.step, Service.complete, h.respcbs, hk]
    rfl
  exact .one (.respond hj hk) hstep ⟨h.threadPool,by rw [h.ioThread, hmail],h.requests,h.respcbs⟩ rfl hperm

theorem Answered.mailbox {a : LockedIoThread.Action Reply} {evbufferNew : Bool} {io : LockedIoThread Reply}
    {ses : List (SubmitEvent Reply)} (hr : (machine setup others).Runs P tr s) (h : Matches s s' taken)
    (ha : a.own = true) (hs : s.ioThread.step setup.capacity a = some (io,ses)) :
    Answered setup s s' (.mailbox a evbufferNew) { s with ioThread := io }
      (ses.flatMap (mailboxEvents setup.evbuffer evbufferNew)) := by
  have hmatch : ∀ mail, mail = io.mail → Matches { s with ioThread := io } { s' with ioThread := mail } taken :=
    fun _ hm => ⟨h.threadPool,hm,h.requests,h.respcbs⟩
  cases mailed_of_runs hr hs with
  | silent hes ht =>
    refine .stutter (by simp) (hmatch _ (h.ioThread.trans ht.symm)) ?_ ?_
    · rw [visible_mailbox, hes]
      rfl
    · rw [responses_mailbox, List.nil_append]
      refine inFlight_perm hr ha hs (fun func hmem => ?_)
      have hnone := List.filterMap_eq_nil_iff.mp hes _ hmem
      cases hnone
  | notified func hes ht =>
    subst hes
    exact .notified hr h ha hs ht
  | io x hes hstep =>
    have hx : ∀ f, x ≠ .submit f := by
      rintro f rfl
      have hsub : [.submitted f] = ses.filterMap LockedIoThread.mailEvent := congrArg Prod.snd (Option.some.inj hstep)
      obtain ⟨e,he,hmail⟩ := List.mem_filterMap.mp (hsub ▸ List.mem_singleton_self (IoEvent.submitted f))
      obtain ⟨g,rfl⟩ := hes e he
      cases hmail
    have hio : Service.step setup s' (.io x evbufferNew) = some ({ s' with ioThread := io.mail },
        (ses.filterMap LockedIoThread.mailEvent).flatMap (Service.ioEvents setup.evbuffer evbufferNew)) := by
      rw [Service.step, ioStep_eq hx, h.ioThread, hstep]
      rfl
    refine .one .io hio (hmatch _ rfl) (visible_mailbox _ evbufferNew ses) ?_
    have hnone : Service.responses ((ses.filterMap LockedIoThread.mailEvent).flatMap
        (Service.ioEvents (H := H) setup.evbuffer evbufferNew)) = [] :=
      Service.filterMap_ioEvents Service.response (fun _ => rfl) (fun _ _ _ => rfl) _ evbufferNew _
    rw [responses_mailbox, hnone, List.nil_append, List.nil_append]
    refine inFlight_perm hr ha hs (fun func hmem => ?_)
    obtain ⟨f,hf⟩ := hes _ hmem
    cases hf

end Mailbox

theorem Answered.step {a : Action} (hr : (machine setup others).Runs Permitted tr s) (hp : Permitted tr s a)
    (hr' : (Service.machine setup).Runs Machine.Any tr' s') (h : Matches s s' taken)
    (hs : step setup s a = some (t,es)) : Answered setup s s' a t es := by
  cases step_stepped hs with
  | receive _ hbuild hadd => exact .receive hr hr' h hbuild hadd
  | schedule ha hpool => exact .schedule hr hr' h ha hpool
  | worker hpool => exact .worker hr hr' h hpool
  | finish _ hcl hends hpool => exact .finish hr hr' h hp hcl hends hpool
  | respond _ _ hout => exact .respond hr h hout
  | mailbox ha hio => exact .mailbox hr h ha hio

theorem Matches.new (setup : Setup H) (others : ℕ) (st : TPoolState) :
    Matches (new setup others st) (.new setup st) [] where
  threadPool := .new setup.threadNum st
  ioThread := rfl
  requests := rfl
  respcbs := rfl

theorem Explained.new (setup : Setup H) (others : ℕ) (st : TPoolState) :
    Explained (H := H) [] (new setup others st) [] (.new setup st) := by
  refine ⟨⟨[],.new setup others st⟩,rfl,?_⟩
  simp [LockedService.responses,Service.responses,inFlight,LockedService.new,LockedIoThread.new,SubmitPoint.carried]

theorem Explained.step (h : Explained tr s tr' s') (hm : Matches t t' taken')
    (hv : es.filterMap visible = es'.filter isVisible)
    (hresp : (LockedService.responses es ++ inFlight s).Perm (Service.responses es' ++ inFlight t)) :
    Explained (tr ++ es) t (tr' ++ es') t' where
  state := ⟨taken',hm⟩
  seen := by rw [List.filterMap_append, List.filter_append, h.seen, hv]
  responses := by
    rw [responses_append, Service.responses_append, List.append_assoc]
    refine (h.responses.append_right _).trans ?_
    rw [List.append_assoc]
    exact (List.perm_append_comm.trans hresp).append_left _

/-- A forward simulation. -/
def refinement (setup : Setup H) (others : ℕ) :
    Simulation (machine setup others) Permitted (Service.machine setup) Machine.Any where
  rel := Explained
  initial := by
    rintro _ ⟨st,rfl⟩
    exact ⟨_,⟨st,rfl⟩,.new setup others st⟩
  step := by
    intro tr s a t es tr' s' hr hp hs hr' h
    obtain ⟨taken,hm⟩ := h.state
    obtain ⟨b,es',t',taken',_,hb,hm',hv,hresp⟩ := Answered.step hr hp hr' hm hs
    exact ⟨es',t',hr'.follow (fun _ _ => trivial) hb,h.step hm' hv hresp⟩

/-- In every run whose timeout handler does not throw, with any number of threads of user code that
call callbacks whenever they like. -/
theorem statements_explained (hr : (machine setup others).Runs Permitted tr s) : ∃ tr' s',
    (Service.machine setup).Runs Machine.Any tr' s' ∧ Explained tr s tr' s' := (refinement setup others).runs hr

def permits (_ : List (Event ℕ)) (s : LockedService) : Action → Bool
  | .finish i o =>
    match s.threadPool.threads[i]? with
    | some (.inside _ .expireFun) => o = .returned
    | _ => true
  | _ => true

theorem permitted_of_permits (tr : List (Event ℕ)) (s : LockedService) (a : Action) (h : permits tr s a = true) :
    Permitted tr s a := by
  cases a with
  | finish i o =>
    intro p hp
    rw [permits, hp] at h
    simpa using h
  | receive _ _ _ | schedule _ | worker _ _ | respond _ _ _ | mailbox _ _ => trivial

/-- `Init`, the start of the IO thread, a request, and worker 0 up to the inside of its handler. -/
def opening : List Action :=
  [.schedule .init,.schedule .initRun,.schedule (.spawn 0),.schedule (.spawn 1),.mailbox .start true,.receive "/echo" 100 0] ++
    List.replicate 8 (.worker 0 200)

/-- A thread of user code has pushed a reply and not notified yet, and worker 0 waits for the mutex of
the mailbox to give another one for the same request. -/
theorem statements_explained_midway : ∃ tr, ∃ s : LockedService, (machine Service.served 1).Runs Permitted tr s ∧
    s.ioThread.submitters = [.lock ⟨⟨0,"/echo"⟩,[1]⟩,.outside,.notify ⟨⟨0,"/echo"⟩,[2]⟩] ∧
    s.ioThread.mailbox.mutex = some (.submitter 2) ∧
    ∃ tr' s', (Service.machine Service.served).Runs Machine.Any tr' s' ∧ Explained tr s tr' s' := by
  obtain ⟨c,hc,hsub,hm⟩ : ∃ c, (machine Service.served 1).replay permits
      (opening ++ [.respond 0 0 [1],.respond 2 0 [2],.mailbox (.submitter 2) true,.mailbox (.submitter 2) true])
      ([],new Service.served 1 .unknowing) = some c ∧
      c.2.ioThread.submitters = [.lock ⟨⟨0,"/echo"⟩,[1]⟩,.outside,.notify ⟨⟨0,"/echo"⟩,[2]⟩] ∧
      c.2.ioThread.mailbox.mutex = some (.submitter 2) := ⟨_,rfl,rfl,rfl⟩
  have hr := Machine.replay_runs permitted_of_permits (runs_new Service.served 1 .unknowing) hc
  exact ⟨_,_,hr,hsub,hm,statements_explained hr⟩

end Kbms.LockedService
