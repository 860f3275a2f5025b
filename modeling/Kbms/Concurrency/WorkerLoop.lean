import Mathlib.Data.List.Chain
import Kbms.Foundation.Mutex
import Kbms.Concurrency.ThreadPool

/-! # The statements of a worker and the mutex

Here `mutex_` is explicit. A worker takes one statement of `operator()` at a time, and so do
`AddTask`, `Init` and `Stop`, so a statement may be executed by a thread that does not hold the
mutex. What each thread does is on record with whether it held the mutex then.
-/
namespace Kbms
open Foundation

/-- A thread before a statement of `operator()`, with the locals that are used later.
`outer` and `inner` are the tests of the two loops, `survey` and `resurvey` the two calls of
`IsSurvival`, and `take` the block that picks a task. `call` is the head of `Run` or of
`ExpireRun`, `unguard` the destructor of the `Guard` after the loop. At `terminated` an exception
has left `operator()`: nothing catches it, so `std::terminate` is called where it was thrown, and
no destructor runs on the way. -/
inductive Point
  | unborn
  | guard
  | outer (survival : Bool)
  | survey
  | inner (survival : Bool)
  | idleUp
  | wait
  | waiting
  | woken
  | resurvey
  | idleDown (survival : Bool)
  | take (survival : Bool)
  | branch (p : TaskPtr)
  | unlock (p : TaskPtr) (c : Callback)
  | call (p : TaskPtr) (c : Callback)
  | inside (p : TaskPtr) (c : Callback)
  | relock
  | unguard
  | returned
  | terminated
  deriving DecidableEq, Repr

namespace Point

/-- The mutex has been locked and not been unlocked since. -/
def holding : Point → Bool
  | .outer _ | .survey | .inner _ | .idleUp | .wait | .resurvey | .idleDown _ | .take _ | .branch _
  | .unlock _ _ | .unguard => true
  | _ => false

def born : Point → Bool
  | .unborn => false
  | _ => true

def live : Point → Bool
  | .unborn | .returned | .terminated => false
  | _ => true

/-- The thread has found that the pool is not running, or an exception has taken it out. -/
def leaving : Point → Bool
  | .outer false | .inner false | .idleDown false | .take false | .unguard | .returned | .terminated => true
  | _ => false

end Point

/-- The statements of `Stop`; `join k` is the round of its loop for thread `k`. -/
inductive StopPoint
  | idle
  | guard
  | store
  | notify
  | join (k : ℕ)
  | unguard
  | unwinding
  deriving DecidableEq, Repr

/-- The statements of a call of `AddTask` after its guard; `outside` if no call is there. -/
inductive AddPoint
  | outside
  | push (p : TaskPtr)
  | test (p : TaskPtr)
  | notify (p : TaskPtr)
  | unguard
  deriving DecidableEq, Repr

inductive Holder
  | worker (i : ℕ)
  | stop
  | adder
  deriving DecidableEq, Repr

/-- `held` and `owned` say whether the thread has the mutex at that moment. `accessed`: it
reads or writes `state_`, `task_queue_`, `idle_count_` or the state of the task it has taken.
`relocked`: it locks the mutex after a callback, and `looped`: it begins a round of its loop. -/
inductive LockEvent
  | accessed (i : ℕ) (held : Bool)
  | locked (i : ℕ)
  | relocked (i : ℕ)
  | looped (i : ℕ)
  | unlocked (i : ℕ) (owned : Bool)
  | dequeued (i : ℕ) (p : TaskPtr)
  | entered (i : ℕ) (p : TaskPtr) (c : Callback) (held : Bool)
  | left (i : ℕ) (p : TaskPtr) (c : Callback) (o : Outcome)
  | returned (i : ℕ)
  | escaped (i : ℕ)
  | stopCalled
  | stopStored
  | stopRaised
  | stopReturned
  deriving DecidableEq, Repr

/-- `Stop` has locked the mutex and not unlocked it since. -/
def StopPoint.holding : StopPoint → Bool
  | .idle | .guard => false
  | _ => true

/-- The task of a call of `AddTask` that has not finished with it. -/
def AddPoint.task : AddPoint → Option TaskPtr
  | .push p | .test p | .notify p => some p
  | .outside | .unguard => none

/-- `AddTask` has locked the mutex and not unlocked it since. -/
def AddPoint.holding : AddPoint → Bool
  | .outside => false
  | _ => true

/-- `joinable k` is that of the thread object `m_threads[k]`. `begun`: `Init` has stored the state.
`adder` is the call of `AddTask` that has the mutex; those that wait at their guard have done
nothing yet. -/
structure LockedPool (F : Type*) where
  threadNum : ThreadNum
  mutex : Option Holder
  tasks : TaskPtr → Option (Task F)
  taskQueue : List TaskPtr
  state : TPoolState
  idleCount : ℕ
  threads : List Point
  joinable : List Bool
  begun : Bool
  adder : AddPoint
  stop : StopPoint

namespace LockedPool
variable {F : Type*}

def new (threadNum : ThreadNum) (st : TPoolState) : LockedPool F :=
  ⟨threadNum,none,fun _ => none,[],st,0,[],[],false,.outside,.idle⟩

def isSurvival (s : LockedPool F) : Bool := s.state = .run

def holds (s : LockedPool F) (i : ℕ) : Bool := s.mutex = some (.worker i)

def goto (s : LockedPool F) (i : ℕ) (b : Point) : LockedPool F := { s with threads := s.threads.set i b }

def lockTo (s : LockedPool F) (i : ℕ) (b : Point) (e : LockEvent) : Option (LockedPool F × List LockEvent) :=
  if s.mutex = none then some ({ s.goto i b with mutex := some (.worker i) },[e]) else none

/-- `unlock`, by whoever has the mutex. -/
def unlockTo (s : LockedPool F) (i : ℕ) (b : Point) (es : List LockEvent) : LockedPool F × List LockEvent :=
  ({ s.goto i b with mutex := none },.unlocked i (s.holds i) :: es)

/-- The block that picks a task. The result is `none` where it would dereference a null pointer. -/
def takeTask (s : LockedPool F) (i : ℕ) (now : TimePoint) : Option (LockedPool F × List LockEvent) :=
  match s.taskQueue with
  | [] => some (s.goto i (.outer true),[.accessed i (s.holds i)])
  | p :: queue => ((s.tasks p).bind (fun t => t.mark now)).map (fun t =>
      ({ s.goto i (.branch p) with tasks := Function.update s.tasks p (some t), taskQueue := queue },
        [.accessed i (s.holds i),.dequeued i p]))

/-- The statement of thread `i` at a point. -/
def execute (s : LockedPool F) (i : ℕ) (now : TimePoint) : Point → Option (LockedPool F × List LockEvent)
  | .guard => s.lockTo i (.outer true) (.locked i)
  | .relock => s.lockTo i (.outer true) (.relocked i)
  | .outer survival => some (if survival then (s.goto i .survey,[.looped i]) else (s.goto i .unguard,[]))
  | .survey => some (s.goto i (.inner s.isSurvival),[.accessed i (s.holds i)])
  | .inner survival =>
    some (s.goto i (if survival && s.taskQueue.isEmpty then .idleUp else .take survival),
      if survival then [.accessed i (s.holds i)] else [])
  | .idleUp =>
    some ({ s.goto i .wait with idleCount := sizeInc s.idleCount },[.accessed i (s.holds i)])
  | .wait => some (s.unlockTo i .waiting [])
  | .woken => s.lockTo i .resurvey (.locked i)
  | .resurvey => some (s.goto i (.idleDown s.isSurvival),[.accessed i (s.holds i)])
  | .idleDown survival =>
    some ({ s.goto i (.inner survival) with idleCount := sizeDec s.idleCount },[.accessed i (s.holds i)])
  | .take survival => if survival then s.takeTask i now else some (s.goto i (.outer false),[])
  | .branch p => (s.tasks p).map (fun t =>
      (s.goto i (match t.selected with
        | some c => .unlock p c
        | none => .outer true),[.accessed i (s.holds i)]))
  | .unlock p c => some (s.unlockTo i (.call p c) [])
  | .call p c => (s.tasks p).map (fun t =>
      if t.accepts c then (s.goto i (.inside p c),[.entered i p c (s.holds i)]) else (s.goto i .relock,[]))
  | .unguard => some (s.unlockTo i .returned [.returned i])
  | .unborn | .waiting | .inside _ _ | .returned | .terminated => none

/-- The callable ends. Around `Run` there is a handler for all exceptions, and none around
`ExpireRun`, whose exception ends the process; the other threads may still go on until it is gone. -/
def finish (s : LockedPool F) (i : ℕ) (o : Outcome) : Option (LockedPool F × List LockEvent) :=
  match s.threads[i]? with
  | some (.inside p c) => (s.tasks p).bind (fun t =>
      match o with
      | .returned =>
        if (t.callback c).isSome then
          some ({ s.goto i .relock with tasks := Function.update s.tasks p (some t.finished) },[.left i p c o])
        else none
      | .threw => some (match c with
        | .taskFun => (s.goto i .relock,[.left i p c o])
        | .expireFun => (s.goto i .terminated,[.left i p c o,.escaped i])))
  | _ => none

def notifyOne (k : ℕ) (ts : List Point) : Option (List Point) :=
  if .waiting ∈ ts then
    if ts[k]? = some .waiting then some (ts.set k .woken) else none
  else some ts

def wake : Point → Point
  | .waiting => .woken
  | a => a

/-- The guard of `AddTask`. -/
def addTask (s : LockedPool F) (p : TaskPtr) : Option (LockedPool F × List LockEvent) :=
  if s.mutex = none ∧ (s.tasks p).isSome then some ({ s with mutex := some .adder, adder := .push p },[]) else none

/-- The next statement of `AddTask`; `k` is the waiter that `Notify` wakes, if any. -/
def executeAdd (s : LockedPool F) (k : ℕ) : AddPoint → Option (LockedPool F × List LockEvent)
  | .outside => none
  | .push p => some ({ s with taskQueue := s.taskQueue ++ [p], adder := .test p },[])
  | .test p => some ({ s with adder := if s.idleCount > 0 then .notify p else .unguard },[])
  | .notify _ => (notifyOne k s.threads).map (fun ts => ({ s with threads := ts, adder := .unguard },[]))
  | .unguard => some ({ s with mutex := none, adder := .outside },[])

/-- `Init` builds `m_threads`. It is called once. -/
def init (s : LockedPool F) : Option (LockedPool F × List LockEvent) :=
  if s.threads = [] then
    some ({ s with
      threads := List.replicate s.threadNum.val .unborn
      joinable := List.replicate s.threadNum.val false },[])
  else none

/-- `Init` stores the state, before its loop. -/
def initRun (s : LockedPool F) : Option (LockedPool F × List LockEvent) :=
  if s.threads ≠ [] ∧ s.begun = false then some ({ s with state := .run, begun := true },[]) else none

def spawn (s : LockedPool F) (i : ℕ) : Option (LockedPool F × List LockEvent) :=
  if s.begun = true ∧ s.threads[i]? = some .unborn then
    some ({ s.goto i .guard with joinable := s.joinable.set i true },[])
  else none

def detach (s : LockedPool F) (i : ℕ) : Option (LockedPool F × List LockEvent) :=
  if s.joinable[i]? = some true then some ({ s with joinable := s.joinable.set i false },[]) else none

/-- `Init` has returned. -/
def initialised (s : LockedPool F) : Bool :=
  s.begun && !s.threads.isEmpty && s.threads.all Point.born && s.joinable.all (fun j => !j)

/-- The next statement of `Stop`. A `join` waits for the thread if it is joinable, and
raises if it is not. -/
def executeStop (s : LockedPool F) : StopPoint → Option (LockedPool F × List LockEvent)
  | .idle => if s.initialised then some ({ s with stop := .guard },[.stopCalled]) else none
  | .guard => if s.mutex = none then some ({ s with mutex := some .stop, stop := .store },[]) else none
  | .store => some ({ s with state := .stop, stop := .notify },[.stopStored])
  | .notify => some ({ s with threads := s.threads.map wake, stop := .join 0 },[])
  | .join k =>
    match s.joinable[k]? with
    | none => some ({ s with stop := .unguard },[])
    | some false => some ({ s with stop := .unwinding },[])
    | some true =>
      if s.threads[k]? = some .returned then
        some ({ s with joinable := s.joinable.set k false, stop := .join (k + 1) },[])
      else none
  | .unguard => some ({ s with mutex := none, stop := .idle },[.stopReturned])
  | .unwinding => some ({ s with mutex := none, stop := .idle },[.stopRaised])

def construct (s : LockedPool F) (p : TaskPtr) (t : Task F) : Option (LockedPool F × List LockEvent) :=
  if (s.tasks p).isNone then some ({ s with tasks := Function.update s.tasks p (some t) },[]) else none

inductive Action (F : Type*)
  | makeTask (p : TaskPtr) (taskFun : Option F)
  | makeExpiringTask (p : TaskPtr) (taskFun expireFun : Option F) (expiration : UInt64) (now : TimePoint)
  | addTask (p : TaskPtr)
  | adder (k : ℕ)
  | init
  | initRun
  | spawn (i : ℕ)
  | detach (i : ℕ)
  | worker (i : ℕ) (now : TimePoint)
  | spurious (i : ℕ)
  | finish (i : ℕ) (o : Outcome)
  | stop

def step (s : LockedPool F) : Action F → Option (LockedPool F × List LockEvent)
  | .makeTask p f => s.construct p (.ofFun f)
  | .makeExpiringTask p f e expiration now => s.construct p (.ofExpiration f e expiration now)
  | .addTask p => s.addTask p
  | .adder k => s.executeAdd k s.adder
  | .init => s.init
  | .initRun => s.initRun
  | .spawn i => s.spawn i
  | .detach i => s.detach i
  | .worker i now => s.threads[i]?.bind (s.execute i now)
  | .spurious i => if s.threads[i]? = some .waiting then some (s.goto i .woken,[]) else none
  | .finish i o => s.finish i o
  | .stop => s.executeStop s.stop

def machine (F : Type*) (threadNum : ThreadNum) : Machine (LockedPool F) (Action F) LockEvent where
  initial s := ∃ st, s = new threadNum st
  step := step

variable {s t : LockedPool F} {es tr : List LockEvent} {i : ℕ} {a b : Point} {now : TimePoint}

end LockedPool

namespace LockEvent

/-- The worker whose event it is. -/
def thread : LockEvent → Option ℕ
  | .accessed i _ | .locked i | .relocked i | .looped i | .unlocked i _ | .dequeued i _ | .entered i _ _ _
  | .left i _ _ _ | .returned i | .escaped i => some i
  | _ => none

/-- What worker `i` does next: after a callback it locks the mutex, and then it goes on with its loop. -/
def next (i : ℕ) : LockEvent → Option LockEvent
  | .left _ _ _ _ => some (.relocked i)
  | .relocked _ => some (.looped i)
  | _ => none

/-- The shared state is used under the mutex and callables are entered without it, a mutex
is unlocked by its owner, and no exception leaves `operator()`. -/
def Clean : LockEvent → Prop
  | .accessed _ held => held = true
  | .entered _ _ _ held => held = false
  | .unlocked _ owned => owned = true
  | .escaped _ => False
  | _ => True

/-- An event of thread `i` at a point where it neither locks nor unlocks. -/
def Within (i : ℕ) (a : Point) (held : Bool) : LockEvent → Prop
  | .accessed j h => j = i ∧ a.holding = true ∧ h = held
  | .looped j | .dequeued j _ => j = i
  | .entered j _ _ h => j = i ∧ a.holding = false ∧ h = held
  | _ => False

end LockEvent

/-- What worker `i` owes at the point, if it is on its way from a callback back into its loop. -/
def Point.due (i : ℕ) : Point → Option LockEvent
  | .relock => some (.relocked i)
  | .outer true => some (.looped i)
  | _ => none

namespace LockedPool
variable {F : Type*} {s t : LockedPool F} {es tr : List LockEvent} {i : ℕ} {a b : Point} {now : TimePoint}

/-- What a statement does to the mutex. -/
inductive Shift (s : LockedPool F) (i : ℕ) (a b : Point) : Option Holder → List LockEvent → Prop
  | inner {es : List LockEvent} (hb : b.holding = a.holding)
      (hes : ∀ e ∈ es, e.Within i a (s.holds i)) : Shift s i a b s.mutex es
  | locks {e : LockEvent} (hfree : s.mutex = none) (hb : b.holding = true) (he : e = .locked i ∨ e = .relocked i)
      (hnext : ∀ x ∈ e.next i, b.due i = some x) : Shift s i a b (some (.worker i)) [e]
  | unlocks (ha : a.holding = true) (hb : b = .waiting ∨ ∃ p c, b = .call p c) :
      Shift s i a b none [.unlocked i (s.holds i)]
  | returns (ha : a.holding = true) (hb : b = .returned) :
      Shift s i a b none [.unlocked i (s.holds i),.returned i]

/-- The thread has moved, and the calls of `AddTask` and `Stop` are where they were. -/
structure Moved (s t : LockedPool F) (i : ℕ) (a b : Point) (es : List LockEvent) : Prop where
  threads : t.threads = s.threads.set i b
  stop : t.stop = s.stop
  adder : t.adder = s.adder
  state : t.state = s.state
  begun : t.begun = s.begun
  joinable : t.joinable = s.joinable
  born : b.born = true
  live : b.live = true ∨ .returned i ∈ es
  leaving : b.leaving = true → a.leaving = true ∨ s.isSurvival = false
  due : ∀ x, a.due i = some x → es = [x]
  shift : Shift s i a b t.mutex es

theorem lockTo_cases {e : LockEvent} (h : s.lockTo i b e = some (t,es)) (hb : b.holding = true)
    (hborn : b.born = true) (hlive : b.live = true) (hleaving : b.leaving = false)
    (he : e = .locked i ∨ e = .relocked i) (hnext : ∀ x ∈ e.next i, b.due i = some x)
    (hdue : ∀ x, a.due i = some x → e = x) : Moved s t i a b es := by
  rw [lockTo] at h
  split at h
  · rename_i hfree
    cases h
    exact ⟨rfl,rfl,rfl,rfl,rfl,rfl,hborn,.inl hlive,fun hl => (by rw [hleaving] at hl; cases hl),
      fun x hx => (by rw [hdue x hx]),.locks hfree hb he hnext⟩
  · cases h

theorem execute_cases (h : s.execute i now a = some (t,es)) : ∃ b, Moved s t i a b es := by
  cases a with
  | unborn | waiting | inside p c | returned | terminated => cases h
  | guard => exact ⟨_,lockTo_cases h rfl rfl rfl rfl (.inl rfl) (by simp [LockEvent.next]) (by simp [Point.due])⟩
  | relock =>
    exact ⟨_,lockTo_cases h rfl rfl rfl rfl (.inr rfl) (by simp [LockEvent.next,Point.due]) (by simp [Point.due])⟩
  | woken => exact ⟨_,lockTo_cases h rfl rfl rfl rfl (.inl rfl) (by simp [LockEvent.next]) (by simp [Point.due])⟩
  | outer survival =>
    cases survival with
    | true =>
      cases h
      exact ⟨_,rfl,rfl,rfl,rfl,rfl,rfl,rfl,.inl rfl,by simp [Point.leaving],by simp [Point.due],
        .inner rfl (by simp [LockEvent.Within])⟩
    | false =>
      cases h
      exact ⟨_,rfl,rfl,rfl,rfl,rfl,rfl,rfl,.inl rfl,fun _ => .inl rfl,by simp [Point.due],.inner rfl (by simp)⟩
  | survey | resurvey =>
    cases h
    refine ⟨_,rfl,rfl,rfl,rfl,rfl,rfl,rfl,.inl rfl,fun hl => .inr ?_,by simp [Point.due],
      .inner rfl (by simp [LockEvent.Within,Point.holding])⟩
    cases hs : s.isSurvival with
    | true =>
      rw [hs] at hl
      cases hl
    | false => rfl
  | idleUp =>
    cases h
    exact ⟨_,rfl,rfl,rfl,rfl,rfl,rfl,rfl,.inl rfl,by simp [Point.leaving],by simp [Point.due],
      .inner rfl (by simp [LockEvent.Within,Point.holding])⟩
  | idleDown survival =>
    cases h
    refine ⟨_,rfl,rfl,rfl,rfl,rfl,rfl,rfl,.inl rfl,fun hl => .inl ?_,by simp [Point.due],
      .inner rfl (by simp [LockEvent.Within,Point.holding])⟩
    cases survival with
    | true => cases hl
    | false => rfl
  | inner survival =>
    cases h
    refine ⟨_,rfl,rfl,rfl,rfl,rfl,rfl,?_,.inl ?_,fun hl => .inl ?_,by simp [Point.due],.inner ?_ ?_⟩
    · split <;> rfl
    · split <;> rfl
    · cases survival with
      | false => rfl
      | true => split at hl <;> cases hl
    · split <;> rfl
    · split <;> simp [LockEvent.Within,Point.holding]
  | wait =>
    cases h
    exact ⟨_,rfl,rfl,rfl,rfl,rfl,rfl,rfl,.inl rfl,by simp [Point.leaving],by simp [Point.due],
      .unlocks rfl (.inl rfl)⟩
  | take survival =>
    cases survival with
    | false =>
      cases h
      exact ⟨_,rfl,rfl,rfl,rfl,rfl,rfl,rfl,.inl rfl,fun _ => .inl rfl,by simp [Point.due],.inner rfl (by simp)⟩
    | true =>
      have h : s.takeTask i now = some (t,es) := h
      rw [takeTask] at h
      split at h
      · cases h
        exact ⟨_,rfl,rfl,rfl,rfl,rfl,rfl,rfl,.inl rfl,by simp [Point.leaving],by simp [Point.due],
          .inner rfl (by simp [LockEvent.Within,Point.holding])⟩
      · obtain ⟨u,-,h⟩ := Option.map_eq_some_iff.mp h
        cases h
        exact ⟨_,rfl,rfl,rfl,rfl,rfl,rfl,rfl,.inl rfl,by simp [Point.leaving],by simp [Point.due],
          .inner rfl (by simp [LockEvent.Within,Point.holding])⟩
  | branch p =>
    obtain ⟨u,-,h⟩ := Option.map_eq_some_iff.mp h
    cases h
    refine ⟨_,rfl,rfl,rfl,rfl,rfl,rfl,?_,.inl ?_,fun hl => ?_,by simp [Point.due],
      .inner ?_ (by simp [LockEvent.Within,Point.holding])⟩
    · cases u.selected <;> rfl
    · cases u.selected <;> rfl
    · cases hu : u.selected <;> rw [hu] at hl <;> cases hl
    · cases u.selected <;> rfl
  | unlock p c =>
    cases h
    exact ⟨_,rfl,rfl,rfl,rfl,rfl,rfl,rfl,.inl rfl,by simp [Point.leaving],by simp [Point.due],
      .unlocks rfl (.inr ⟨p,c,rfl⟩)⟩
  | call p c =>
    obtain ⟨u,-,h⟩ := Option.map_eq_some_iff.mp h
    split at h
    · cases h
      exact ⟨_,rfl,rfl,rfl,rfl,rfl,rfl,rfl,.inl rfl,by simp [Point.leaving],by simp [Point.due],
        .inner rfl (by simp [LockEvent.Within,Point.holding])⟩
    · cases h
      exact ⟨_,rfl,rfl,rfl,rfl,rfl,rfl,rfl,.inl rfl,by simp [Point.leaving],by simp [Point.due],
        .inner rfl (by simp)⟩
  | unguard =>
    cases h
    exact ⟨_,rfl,rfl,rfl,rfl,rfl,rfl,rfl,.inr (by simp),fun _ => .inl rfl,by simp [Point.due],.returns rfl rfl⟩

theorem within_thread {e : LockEvent} {held : Bool} (h : e.Within i a held) : e.thread = some i := by
  cases e with
  | accessed j _ | entered j _ _ _ =>
    obtain ⟨rfl,-,-⟩ := h
    rfl
  | looped j | dequeued j _ =>
    cases h
    rfl
  | locked _ | relocked _ | unlocked _ _ | left _ _ _ _ | returned _ | escaped _ | stopCalled | stopStored
    | stopRaised | stopReturned => exact h.elim

theorem Moved.thread (h : Moved s t i a b es) : ∀ e ∈ es, e.thread = some i := by
  have hshift := h.shift
  generalize t.mutex = m at hshift
  cases hshift with
  | inner _ hes => exact fun e he => within_thread (hes e he)
  | locks _ _ he _ => rcases he with rfl | rfl <;> simp [LockEvent.thread]
  | unlocks _ _ | returns _ _ => simp [LockEvent.thread]

theorem isSome_update {tasks : TaskPtr → Option (Task F)} {p q : TaskPtr} {u : Task F}
    (h : (tasks q).isSome = true) : (Function.update tasks p (some u) q).isSome = true := by
  rw [Function.update_apply]
  split
  · rfl
  · exact h

/-- What the end of a callback leaves as it is. -/
structure Ended (s t : LockedPool F) : Prop where
  mutex : t.mutex = s.mutex
  stop : t.stop = s.stop
  adder : t.adder = s.adder
  state : t.state = s.state
  begun : t.begun = s.begun
  joinable : t.joinable = s.joinable
  taskQueue : t.taskQueue = s.taskQueue
  idleCount : t.idleCount = s.idleCount
  built : ∀ p, (s.tasks p).isSome = true → (t.tasks p).isSome = true

theorem finish_cases {o : Outcome} (h : s.finish i o = some (t,es)) :
    ∃ p c, s.threads[i]? = some (.inside p c) ∧ Ended s t ∧
      ((t.threads = s.threads.set i .relock ∧ es = [.left i p c o] ∧ (o = .threw → c = .taskFun)) ∨
        (t.threads = s.threads.set i .terminated ∧ es = [.left i p c o,.escaped i] ∧ c = .expireFun ∧
          o = .threw)) := by
  rw [finish] at h
  split at h
  · rename_i p c hp
    obtain ⟨u,-,h⟩ := Option.bind_eq_some_iff.mp h
    cases o with
    | returned =>
      dsimp only at h
      split at h
      · cases h
        exact ⟨p,c,hp,⟨rfl,rfl,rfl,rfl,rfl,rfl,rfl,rfl,fun _ => isSome_update⟩,.inl ⟨rfl,rfl,fun h => (by cases h)⟩⟩
      · cases h
    | threw =>
      cases c with
      | taskFun =>
        cases h
        exact ⟨p,_,hp,⟨rfl,rfl,rfl,rfl,rfl,rfl,rfl,rfl,fun _ => id⟩,.inl ⟨rfl,rfl,fun _ => rfl⟩⟩
      | expireFun =>
        cases h
        exact ⟨p,_,hp,⟨rfl,rfl,rfl,rfl,rfl,rfl,rfl,rfl,fun _ => id⟩,.inr ⟨rfl,rfl,rfl,rfl⟩⟩
  · cases h

/-- How a thread may be moved by another one. None of these points has the mutex. -/
def Drift (x y : Option Point) : Prop :=
  y = x ∨ (x = some .waiting ∧ y = some .woken) ∨ (x = some .unborn ∧ y = some .guard) ∨
    (x = none ∧ y = some .unborn)

theorem drift_set (h : s.threads[i]? = some a) (hab : Drift (some a) (some b)) (j : ℕ) :
    Drift s.threads[j]? (s.threads.set i b)[j]? := by
  rw [List.getElem?_set]
  split
  · rename_i hij
    subst hij
    rw [h, if_pos (List.getElem?_eq_some_iff.mp h).1]
    exact hab
  · exact .inl rfl

/-- What a step that no worker takes does to the mutex. -/
inductive Handover (s t : LockedPool F) : Prop
  | stays (hm : t.mutex = s.mutex) (hstop : t.stop.holding = s.stop.holding)
      (hadder : t.adder.holding = s.adder.holding)
  | stopLocks (hm : s.mutex = none) (hm' : t.mutex = some .stop) (hstop : t.stop.holding = true)
      (hadder : t.adder = s.adder)
  | stopUnlocks (hheld : s.stop.holding = true) (hm' : t.mutex = none) (hstop : t.stop.holding = false)
      (hadder : t.adder = s.adder)
  | addLocks (hm : s.mutex = none) (hm' : t.mutex = some .adder) (hadder : t.adder.holding = true)
      (hstop : t.stop = s.stop)
  | addUnlocks (hheld : s.adder.holding = true) (hm' : t.mutex = none) (hadder : t.adder.holding = false)
      (hstop : t.stop = s.stop)

/-- What a step that no worker takes does to `state_`. -/
inductive Restated (s t : LockedPool F) (es : List LockEvent) : Prop
  | same (hstate : t.state = s.state) (hbegun : t.begun = s.begun)
  | begins (hthreads : t.threads = s.threads) (hne : s.threads ≠ []) (hstate : t.state = .run) (hbegun : t.begun = true)
  | stops (hes : .stopStored ∈ es) (hbegun : t.begun = s.begun)

/-- A step that no worker takes. -/
structure Quiet (s t : LockedPool F) (es : List LockEvent) : Prop where
  drift : ∀ i : ℕ, Drift s.threads[i]? t.threads[i]?
  spawned : ∀ i : ℕ, s.threads[i]? = some .unborn → t.threads[i]? = s.threads[i]? ∨ s.begun = true
  silent : ∀ e ∈ es, e.thread = none
  handover : Handover s t
  restated : Restated s t es
  called : t.stop ≠ .idle → s.stop ≠ .idle ∨ s.begun = true

theorem woken_spawned {k : ℕ} (hk : s.threads[k]? = some .waiting) (i : ℕ) (hi : s.threads[i]? = some .unborn) :
    (s.threads.set k .woken)[i]? = s.threads[i]? ∨ s.begun = true := by
  refine .inl (List.getElem?_set_ne ?_)
  rintro rfl
  rw [hk] at hi
  cases hi

theorem notifyOne_cases {k : ℕ} {ts ts' : List Point} (h : notifyOne k ts = some ts') :
    ts' = ts ∨ (ts[k]? = some .waiting ∧ ts' = ts.set k .woken) := by
  rw [notifyOne] at h
  split at h
  · split at h
    · rename_i hk
      cases h
      exact .inr ⟨hk,rfl⟩
    · cases h
  · cases h
    exact .inl rfl

/-- What a statement of `AddTask` does: the task goes into the queue, and `Notify` wakes a waiter. -/
structure Added (s t : LockedPool F) (k : ℕ) (es : List LockEvent) : Prop where
  silent : es = []
  tasks : t.tasks = s.tasks
  state : t.state = s.state
  begun : t.begun = s.begun
  joinable : t.joinable = s.joinable
  stop : t.stop = s.stop
  taskQueue : t.taskQueue = s.taskQueue ∨ ∃ p ∈ s.adder.task, t.taskQueue = s.taskQueue ++ [p]
  threads : t.threads = s.threads ∨ (s.threads[k]? = some .waiting ∧ t.threads = s.threads.set k .woken)

theorem executeAdd_cases {k : ℕ} (h : s.executeAdd k s.adder = some (t,es)) : Added s t k es := by
  cases hp : s.adder with
  | outside =>
    rw [hp] at h
    cases h
  | push p =>
    rw [hp] at h
    cases h
    exact ⟨rfl,rfl,rfl,rfl,rfl,rfl,.inr ⟨p,by rw [hp]; rfl,rfl⟩,.inl rfl⟩
  | test _ | unguard =>
    rw [hp] at h
    cases h
    exact ⟨rfl,rfl,rfl,rfl,rfl,rfl,.inl rfl,.inl rfl⟩
  | notify _ =>
    rw [hp] at h
    obtain ⟨ts,hts,h⟩ := Option.map_eq_some_iff.mp h
    cases h
    exact ⟨rfl,rfl,rfl,rfl,rfl,rfl,.inl rfl,notifyOne_cases hts⟩

theorem Added.mem_taskQueue {k : ℕ} {p : TaskPtr} (h : Added s t k es) (hp : p ∈ t.taskQueue) :
    p ∈ s.taskQueue ∨ p ∈ s.adder.task := by
  rcases h.taskQueue with hqueue | ⟨q,hq,hqueue⟩
  · exact .inl (hqueue ▸ hp)
  · rw [hqueue, List.mem_append, List.mem_singleton] at hp
    refine hp.imp_right ?_
    rintro rfl
    exact hq

theorem Quiet.of_threads (ht : t.threads = s.threads) (hes : ∀ e ∈ es, e.thread = none) (h : Handover s t)
    (hstate : Restated s t es) (hcalled : t.stop ≠ .idle → s.stop ≠ .idle ∨ s.begun = true) : Quiet s t es :=
  ⟨fun i => .inl (by rw [ht]),fun i _ => .inl (by rw [ht]),hes,h,hstate,hcalled⟩

theorem initialised_begun (h : s.initialised = true) : s.begun = true := by
  simp only [initialised, Bool.and_eq_true] at h
  exact h.1.1.1

theorem Quiet.executeStop (h : s.executeStop s.stop = some (t,es)) : Quiet s t es := by
  cases hp : s.stop with
  | idle =>
    rw [hp, LockedPool.executeStop] at h
    split at h
    · rename_i hinit
      cases h
      exact .of_threads rfl (by simp [LockEvent.thread]) (.stays rfl (by rw [hp]; rfl) rfl) (.same rfl rfl)
        (fun _ => .inr (initialised_begun hinit))
    · cases h
  | guard =>
    rw [hp, LockedPool.executeStop] at h
    split at h
    · rename_i hfree
      cases h
      exact .of_threads rfl (by simp) (.stopLocks hfree rfl rfl rfl) (.same rfl rfl) (by simp [hp])
    · cases h
  | store =>
    rw [hp] at h
    cases h
    exact .of_threads rfl (by simp [LockEvent.thread]) (.stays rfl (by rw [hp]; rfl) rfl) (.stops (by simp) rfl)
      (by simp [hp])
  | notify =>
    rw [hp] at h
    cases h
    refine ⟨fun i => ?_,fun i hi => .inl ?_,by simp,.stays rfl (by rw [hp]; rfl) rfl,.same rfl rfl,by simp [hp]⟩
    · rw [List.getElem?_map]
      cases s.threads[i]? with
      | none => exact .inl rfl
      | some a =>
        cases a with
        | waiting => exact .inr (.inl ⟨rfl,rfl⟩)
        | _ => exact .inl rfl
    · rw [List.getElem?_map, hi]
      rfl
  | join k =>
    rw [hp, LockedPool.executeStop] at h
    split at h
    · cases h
      exact .of_threads rfl (by simp) (.stays rfl (by rw [hp]; rfl) rfl) (.same rfl rfl) (by simp [hp])
    · cases h
      exact .of_threads rfl (by simp) (.stays rfl (by rw [hp]; rfl) rfl) (.same rfl rfl) (by simp [hp])
    · split at h
      · cases h
        exact .of_threads rfl (by simp) (.stays rfl (by rw [hp]; rfl) rfl) (.same rfl rfl) (by simp [hp])
      · cases h
  | unguard | unwinding =>
    rw [hp] at h
    cases h
    exact .of_threads rfl (by simp [LockEvent.thread]) (.stopUnlocks (by rw [hp]; rfl) rfl rfl rfl) (.same rfl rfl)
      (by simp)

theorem Quiet.executeAdd {k : ℕ} (h : s.executeAdd k s.adder = some (t,es)) : Quiet s t es := by
  cases hp : s.adder with
  | outside =>
    rw [hp] at h
    cases h
  | push p =>
    rw [hp] at h
    cases h
    exact .of_threads rfl (by simp) (.stays rfl rfl (by rw [hp]; rfl)) (.same rfl rfl) .inl
  | test p =>
    rw [hp] at h
    cases h
    exact .of_threads rfl (by simp) (.stays rfl rfl (by rw [hp]; dsimp only; split <;> rfl)) (.same rfl rfl) .inl
  | notify p =>
    rw [hp] at h
    obtain ⟨ts,hts,h⟩ := Option.map_eq_some_iff.mp h
    cases h
    rcases notifyOne_cases hts with rfl | ⟨hk,rfl⟩
    · exact .of_threads rfl (by simp) (.stays rfl rfl (by rw [hp]; rfl)) (.same rfl rfl) .inl
    · exact ⟨drift_set hk (.inr (.inl ⟨rfl,rfl⟩)),woken_spawned hk,by simp,.stays rfl rfl (by rw [hp]; rfl),
        .same rfl rfl,.inl⟩
  | unguard =>
    rw [hp] at h
    cases h
    exact .of_threads rfl (by simp) (.addUnlocks (by rw [hp]; rfl) rfl rfl rfl) (.same rfl rfl) .inl

/-- The steps of the other threads: producers, `Init`, `Stop` and the condition variable. -/
theorem quiet_cases {act : Action F} (hw : ∀ i now, act ≠ .worker i now) (hf : ∀ i o, act ≠ .finish i o)
    (h : s.step act = some (t,es)) : Quiet s t es := by
  cases act with
  | worker i now => exact absurd rfl (hw i now)
  | finish i o => exact absurd rfl (hf i o)
  | stop => exact .executeStop h
  | adder k => exact .executeAdd h
  | makeTask p f | makeExpiringTask p f e expiration now =>
    rw [step, construct] at h
    split at h
    · cases h
      exact .of_threads rfl (by simp) (.stays rfl rfl rfl) (.same rfl rfl) .inl
    · cases h
  | addTask p =>
    rw [step, addTask] at h
    split at h
    · rename_i hfree
      cases h
      exact .of_threads rfl (by simp) (.addLocks hfree.1 rfl rfl rfl) (.same rfl rfl) .inl
    · cases h
  | init =>
    rw [step, init] at h
    split at h
    · rename_i hnil
      cases h
      refine ⟨fun i => ?_,fun i hi => ?_,by simp,.stays rfl rfl rfl,.same rfl rfl,.inl⟩
      · rw [hnil, List.getElem?_nil, List.getElem?_replicate]
        split
        · exact .inr (.inr (.inr ⟨rfl,rfl⟩))
        · exact .inl rfl
      · rw [hnil] at hi
        cases hi
    · cases h
  | initRun =>
    rw [step, initRun] at h
    split at h
    · rename_i hb
      cases h
      exact .of_threads rfl (by simp) (.stays rfl rfl rfl) (.begins rfl hb.1 rfl rfl) .inl
    · cases h
  | spawn i =>
    rw [step, spawn] at h
    split at h
    · rename_i hi
      cases h
      exact ⟨drift_set hi.2 (.inr (.inr (.inl ⟨rfl,rfl⟩))),fun _ _ => .inr hi.1,by simp,.stays rfl rfl rfl,
        .same rfl rfl,.inl⟩
    · cases h
  | detach i =>
    rw [step, detach] at h
    split at h
    · cases h
      exact .of_threads rfl (by simp) (.stays rfl rfl rfl) (.same rfl rfl) .inl
    · cases h
  | spurious i =>
    rw [step] at h
    split at h
    · rename_i hi
      cases h
      exact ⟨drift_set hi (.inr (.inl ⟨rfl,rfl⟩)),woken_spawned hi,by simp,.stays rfl rfl rfl,.same rfl rfl,.inl⟩
    · cases h

end LockedPool
end Kbms
