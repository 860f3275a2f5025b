import Kbms.Foundation.Machine
import Kbms.Foundation.Roster
import Kbms.Concurrency.Task

/-! # The thread pool as a machine of atomic sections

Each section that runs under `mutex_` is one step: `AddTask`, `Stop`, and what a
worker does from getting the mutex until it waits, releases it around a callback
or leaves its loop. The callbacks run between such steps, so producers and other
workers interleave with them freely. Task objects are shared through pointers and
may be queued more than once.
-/
namespace Kbms
open Foundation

/-- `TaskPtr`: the address of a `Task` object. -/
abbrev TaskPtr := ℕ

/-- `TPOOL_STATE`. -/
inductive TPoolState
  | unknowing | start | run | stop
  deriving DecidableEq, Repr

/-- Where a thread stands in `ThreadWorker::operator()`: a slot of `m_threads` whose
thread is not created yet; before the guard gets the mutex; blocked in `Wait`; woken
there without the mutex; mutex released and about to call `Run` or `ExpireRun`; inside
the callable; about to lock again; out of the loop; left by an exception; and stopped
at the dereference of a null pointer. -/
inductive Worker
  | unborn | start | waiting | woken
  | selected (p : TaskPtr) (c : Callback)
  | inside (p : TaskPtr) (c : Callback)
  | relock | exited | escaped | faulted
  deriving DecidableEq, Repr

/-- Between `idle_count_++` and `idle_count_--`. -/
def Worker.idle : Worker → Bool
  | .waiting | .woken => true
  | _ => false

/-- The task a worker has taken and is not done with, and what it does with it. -/
def Worker.work : Worker → Option (TaskPtr × Callback)
  | .selected p c | .inside p c => some (p,c)
  | _ => none

def Worker.holds (p : TaskPtr) : Worker → Bool
  | .selected q _ | .inside q _ => q = p
  | _ => false

inductive Outcome
  | returned | threw
  deriving DecidableEq, Repr

/-- `dequeued i p now c`: worker `i` takes task `p` when the clock shows `now`, and
goes on to callback `c` or to none. `refused`: `Run` or `ExpireRun` finds another
state than it expects and returns at once. -/
inductive PoolEvent
  | added (p : TaskPtr)
  | dequeued (i : ℕ) (p : TaskPtr) (now : TimePoint) (c : Option Callback)
  | entered (i : ℕ) (p : TaskPtr) (c : Callback)
  | refused (i : ℕ) (p : TaskPtr) (c : Callback)
  | left (i : ℕ) (p : TaskPtr) (c : Callback) (o : Outcome)
  | stopped (raised : Bool)
  deriving DecidableEq, Repr

/-- A value of `thread_num`, an `int`, for which the pool has workers. -/
structure ThreadNum where
  val : ℕ
  pos : 1 ≤ val
  isInt : val < 2^31

def ThreadNum.two : ThreadNum := ⟨2,by decide,by decide⟩

/-- `ThreadPool`, with the task objects its pointers refer to. -/
structure ThreadPool (F : Type*) where
  threadNum : ThreadNum
  tasks : TaskPtr → Option (Task F)
  taskQueue : List TaskPtr
  state : TPoolState
  idleCount : ℕ
  workers : List Worker

/-- `++` and `--` on a `size_t`. -/
def sizeInc (n : ℕ) : ℕ := (n + 1) % 2^64
def sizeDec (n : ℕ) : ℕ := (n + (2^64 - 1)) % 2^64

/-- `notify_one`: wakes waiter `k` when some thread waits, and does nothing otherwise. -/
def notifyOne (k : ℕ) (ws : List Worker) : Option (List Worker) :=
  if .waiting ∈ ws then
    if ws[k]? = some .waiting then some (ws.set k .woken) else none
  else some ws

def notifyAll (ws : List Worker) : List Worker :=
  ws.map (fun w => if w = .waiting then .woken else w)

namespace ThreadPool
variable {F : Type*}

/-- `ThreadPool::ThreadPool`. The member `state_` is not initialised. -/
def new (threadNum : ThreadNum) (st : TPoolState) : ThreadPool F :=
  ⟨threadNum,fun _ => none,[],st,0,[]⟩

def isSurvival (pool : ThreadPool F) : Bool := pool.state = .run

/-- `ThreadPool::AddTask`; `k` is the waiter that `Notify` wakes, if any. -/
def addTask (pool : ThreadPool F) (p : TaskPtr) (k : ℕ) : Option (ThreadPool F × List PoolEvent) :=
  if (pool.tasks p).isSome then
    let queue := pool.taskQueue ++ [p]
    if pool.idleCount > 0 then
      (notifyOne k pool.workers).map (fun ws =>
        ({ pool with taskQueue := queue, workers := ws },[.added p]))
    else some ({ pool with taskQueue := queue },[.added p])
  else none

/-- `ThreadPool::Init` up to its loop, whose rounds are the `spawn` steps. -/
def init (pool : ThreadPool F) : Option (ThreadPool F × List PoolEvent) :=
  if pool.workers = [] then
    some ({ pool with workers := List.replicate pool.threadNum.val .unborn, state := .run },[])
  else none

/-- `ThreadPool::Stop`. The threads are detached, so the first `join` raises. -/
def stop (pool : ThreadPool F) : ThreadPool F × List PoolEvent :=
  ({ pool with state := .stop, workers := notifyAll pool.workers },[.stopped !pool.workers.isEmpty])

structure Section (F : Type*) where
  tasks : TaskPtr → Option (Task F)
  taskQueue : List TaskPtr
  worker : Worker
  events : List PoolEvent

/-- The worker's loop under the mutex, entered with `survival` true. A task for
which neither branch applies is dropped, and the loop goes on with the mutex held. -/
def loop (i : ℕ) (now : TimePoint) : List TaskPtr → (TaskPtr → Option (Task F)) → Section F
  | [], tasks => ⟨tasks,[],.waiting,[]⟩
  | p :: queue, tasks =>
    match (tasks p).bind (fun t => t.mark now) with
    | none => ⟨tasks,queue,.faulted,[.dequeued i p now none]⟩
    | some t =>
      let tasks' := Function.update tasks p (some t)
      match t.selected with
      | some c => ⟨tasks',queue,.selected p c,[.dequeued i p now (some c)]⟩
      | none =>
        let r := loop i now queue tasks'
        { r with events := .dequeued i p now none :: r.events }

def iterate (pool : ThreadPool F) (i : ℕ) (now : TimePoint) : ThreadPool F × List PoolEvent :=
  if pool.isSurvival then
    let r := loop i now pool.taskQueue pool.tasks
    ({ pool with
        tasks := r.tasks
        taskQueue := r.taskQueue
        idleCount := if r.worker = .waiting then sizeInc pool.idleCount else pool.idleCount
        workers := pool.workers.set i r.worker },r.events)
  else ({ pool with workers := pool.workers.set i .exited },[])

/-- Worker `i` gets the mutex and runs until it gives it away. -/
def acquire (pool : ThreadPool F) (i : ℕ) (now : TimePoint) : Option (ThreadPool F × List PoolEvent) :=
  match pool.workers[i]? with
  | some .start | some .relock => some (iterate pool i now)
  | some .woken => some (iterate { pool with idleCount := sizeDec pool.idleCount } i now)
  | _ => none

/-- `Task::Run` and `Task::ExpireRun` up to the call of the callable. -/
def enter (pool : ThreadPool F) (i : ℕ) : Option (ThreadPool F × List PoolEvent) :=
  match pool.workers[i]? with
  | some (.selected p c) => (pool.tasks p).map (fun t =>
      if t.accepts c then ({ pool with workers := pool.workers.set i (.inside p c) },[.entered i p c])
      else ({ pool with workers := pool.workers.set i .relock },[.refused i p c]))
  | _ => none

/-- The callable ends. An empty one can only throw. `Run` is called inside a
handler for all exceptions and `ExpireRun` is not. -/
def finish (pool : ThreadPool F) (i : ℕ) (o : Outcome) : Option (ThreadPool F × List PoolEvent) :=
  match pool.workers[i]? with
  | some (.inside p c) => (pool.tasks p).bind (fun t =>
      match o with
      | .returned =>
        if (t.callback c).isSome then
          some ({ pool with
            tasks := Function.update pool.tasks p (some t.finished)
            workers := pool.workers.set i .relock },[.left i p c o])
        else none
      | .threw =>
        some ({ pool with
          workers := pool.workers.set i (if c = .taskFun then .relock else .escaped) },[.left i p c o]))
  | _ => none

def advance (pool : ThreadPool F) (i : ℕ) (source target : Worker) :
    Option (ThreadPool F × List PoolEvent) :=
  if pool.workers[i]? = some source then
    some ({ pool with workers := pool.workers.set i target },[])
  else none

def construct (pool : ThreadPool F) (p : TaskPtr) (t : Task F) :
    Option (ThreadPool F × List PoolEvent) :=
  if (pool.tasks p).isNone then
    some ({ pool with tasks := Function.update pool.tasks p (some t) },[])
  else none

/-- `spawn i` is the creation of thread `i` by `Init`, and `spurious i` a return from
`Wait` without a notification. -/
inductive Action (F : Type*)
  | makeTask (p : TaskPtr) (taskFun : Option F)
  | makeExpiringTask (p : TaskPtr) (taskFun expireFun : Option F) (expiration : UInt64)
      (now : TimePoint)
  | addTask (p : TaskPtr) (k : ℕ)
  | init
  | spawn (i : ℕ)
  | acquire (i : ℕ) (now : TimePoint)
  | spurious (i : ℕ)
  | enter (i : ℕ)
  | finish (i : ℕ) (o : Outcome)
  | stop

def step (pool : ThreadPool F) : Action F → Option (ThreadPool F × List PoolEvent)
  | .makeTask p f => construct pool p (.ofFun f)
  | .makeExpiringTask p f e expiration now => construct pool p (.ofExpiration f e expiration now)
  | .addTask p k => addTask pool p k
  | .init => init pool
  | .spawn i => advance pool i .unborn .start
  | .acquire i now => acquire pool i now
  | .spurious i => advance pool i .waiting .woken
  | .enter i => enter pool i
  | .finish i o => finish pool i o
  | .stop => some (stop pool)

/-- All runs of a pool, from its construction on. -/
def machine (F : Type*) (threadNum : ThreadNum) : Machine (ThreadPool F) (Action F) PoolEvent where
  initial pool := ∃ st, pool = new threadNum st
  step := step

theorem runs_new {P : List PoolEvent → ThreadPool F → Action F → Prop} (n : ThreadNum)
    (st : TPoolState) : (machine F n).Runs P [] (new n st) := .start ⟨st,rfl⟩

variable {pool t : ThreadPool F} {es : List PoolEvent} {i : ℕ} {p : TaskPtr} {now : TimePoint}

theorem notifyOne_cases {k : ℕ} {ws ws' : List Worker} (h : notifyOne k ws = some ws') :
    (.waiting ∉ ws ∧ ws' = ws) ∨ (ws[k]? = some .waiting ∧ ws' = ws.set k .woken) := by
  unfold notifyOne at h
  split at h
  · split at h
    · rename_i hk
      cases h
      exact Or.inr ⟨hk,rfl⟩
    · cases h
  · rename_i hw
    cases h
    exact Or.inl ⟨hw,rfl⟩

/-- `AddTask` appends to the queue, and wakes a waiter unless nobody waits or
the counter is zero. -/
theorem addTask_cases {k : ℕ} (h : addTask pool p k = some (t,es)) :
    (pool.tasks p).isSome = true ∧ es = [.added p] ∧ ∃ ws,
      t = { pool with taskQueue := pool.taskQueue ++ [p], workers := ws } ∧
      ((ws = pool.workers ∧ (pool.idleCount = 0 ∨ .waiting ∉ pool.workers)) ∨
        (pool.workers[k]? = some .waiting ∧ ws = pool.workers.set k .woken)) := by
  unfold addTask at h
  split at h
  · rename_i hp
    dsimp only at h
    split at h
    · obtain ⟨ws,hws,he⟩ := Option.map_eq_some_iff.mp h
      cases he
      refine ⟨hp,rfl,ws,rfl,?_⟩
      rcases notifyOne_cases hws with ⟨hno,rfl⟩ | hk
      · exact Or.inl ⟨rfl,Or.inr hno⟩
      · exact Or.inr hk
    · rename_i hidle
      cases h
      exact ⟨hp,rfl,_,rfl,Or.inl ⟨rfl,Or.inl (by omega)⟩⟩
  · cases h

def Worker.locking : Worker → Bool
  | .start | .relock | .woken => true
  | _ => false

theorem acquire_cases (h : acquire pool i now = some (t,es)) :
    ∃ w, pool.workers[i]? = some w ∧ Worker.locking w = true ∧
      iterate { pool with
        idleCount := if w = .woken then sizeDec pool.idleCount else pool.idleCount } i now = (t,es) := by
  unfold acquire at h
  split at h
  · rename_i hw
    exact ⟨_,hw,rfl,by simpa using h⟩
  · rename_i hw
    exact ⟨_,hw,rfl,by simpa using h⟩
  · rename_i hw
    exact ⟨_,hw,rfl,by simpa using h⟩
  · cases h

theorem iterate_cases (h : iterate pool i now = (t,es)) :
    (pool.state = .run ∧ es = (loop i now pool.taskQueue pool.tasks).events ∧
      t = { pool with
        tasks := (loop i now pool.taskQueue pool.tasks).tasks
        taskQueue := (loop i now pool.taskQueue pool.tasks).taskQueue
        idleCount := if (loop i now pool.taskQueue pool.tasks).worker = .waiting then
          sizeInc pool.idleCount else pool.idleCount
        workers := pool.workers.set i (loop i now pool.taskQueue pool.tasks).worker }) ∨
    (pool.state ≠ .run ∧ es = [] ∧ t = { pool with workers := pool.workers.set i .exited }) := by
  unfold iterate isSurvival at h
  split at h
  · rename_i hs
    cases h
    exact Or.inl ⟨by simpa using hs,rfl,rfl⟩
  · rename_i hs
    cases h
    exact Or.inr ⟨by simpa using hs,rfl,rfl⟩

theorem enter_cases (h : enter pool i = some (t,es)) :
    ∃ p c task, pool.workers[i]? = some (.selected p c) ∧ pool.tasks p = some task ∧
      ((task.accepts c = true ∧ es = [.entered i p c] ∧
        t = { pool with workers := pool.workers.set i (.inside p c) }) ∨
      (task.accepts c = false ∧ es = [.refused i p c] ∧
        t = { pool with workers := pool.workers.set i .relock })) := by
  unfold enter at h
  split at h
  · rename_i p c hw
    obtain ⟨task,ht,he⟩ := Option.map_eq_some_iff.mp h
    refine ⟨p,c,task,hw,ht,?_⟩
    split at he
    · rename_i ha
      cases he
      exact Or.inl ⟨ha,rfl,rfl⟩
    · rename_i ha
      cases he
      exact Or.inr ⟨by simpa using ha,rfl,rfl⟩
  · cases h

theorem finish_cases {o : Outcome} (h : finish pool i o = some (t,es)) :
    ∃ p c task, pool.workers[i]? = some (.inside p c) ∧ pool.tasks p = some task ∧
      es = [.left i p c o] ∧
      ((o = .returned ∧ (task.callback c).isSome = true ∧
        t = { pool with
          tasks := Function.update pool.tasks p (some task.finished)
          workers := pool.workers.set i .relock }) ∨
      (o = .threw ∧ t = { pool with
        workers := pool.workers.set i (if c = .taskFun then .relock else .escaped) })) := by
  unfold finish at h
  split at h
  · rename_i p c hw
    obtain ⟨task,ht,he⟩ := Option.bind_eq_some_iff.mp h
    cases o with
    | returned =>
      dsimp only at he
      split at he
      · rename_i hc
        cases he
        exact ⟨p,c,task,hw,ht,rfl,Or.inl ⟨rfl,hc,rfl⟩⟩
      · cases he
    | threw =>
      cases he
      exact ⟨p,c,task,hw,ht,rfl,Or.inr ⟨rfl,rfl⟩⟩
  · cases h

theorem advance_cases {source target : Worker} (h : advance pool i source target = some (t,es)) :
    pool.workers[i]? = some source ∧ es = [] ∧ t = { pool with workers := pool.workers.set i target } := by
  unfold advance at h
  split at h
  · rename_i hw
    cases h
    exact ⟨hw,rfl,rfl⟩
  · cases h

theorem init_cases (h : init pool = some (t,es)) :
    pool.workers = [] ∧ es = [] ∧
      t = { pool with workers := List.replicate pool.threadNum.val .unborn, state := .run } := by
  unfold init at h
  split at h
  · rename_i hw
    cases h
    exact ⟨hw,rfl,rfl⟩
  · cases h

theorem construct_cases {task : Task F} (h : construct pool p task = some (t,es)) :
    pool.tasks p = none ∧ es = [] ∧
      t = { pool with tasks := Function.update pool.tasks p (some task) } := by
  unfold construct at h
  split at h
  · rename_i hp
    cases h
    exact ⟨by simpa using hp,rfl,rfl⟩
  · cases h

/-- How a section ends: tasks that need nothing are dropped, and then either the
queue is empty, or a task is selected, or a pointer is null. -/
theorem loop_cases (i : ℕ) (now : TimePoint) (queue : List TaskPtr)
    (tasks : TaskPtr → Option (Task F)) :
    ∃ skipped : List TaskPtr, ∃ events, events = skipped.map (fun p => PoolEvent.dequeued i p now none) ∧
      (((loop i now queue tasks).worker = .waiting ∧ queue = skipped ∧
          (loop i now queue tasks).taskQueue = [] ∧ (loop i now queue tasks).events = events) ∨
        (∃ p c u, (loop i now queue tasks).worker = .selected p c ∧
          queue = skipped ++ p :: (loop i now queue tasks).taskQueue ∧
          (loop i now queue tasks).events = events ++ [.dequeued i p now (some c)] ∧
          (loop i now queue tasks).tasks p = some u ∧ u.selected = some c) ∨
        (∃ p, (loop i now queue tasks).worker = .faulted ∧
          queue = skipped ++ p :: (loop i now queue tasks).taskQueue ∧
          (loop i now queue tasks).events = events ++ [.dequeued i p now none] ∧
          (loop i now queue tasks).tasks p = none)) := by
  induction queue generalizing tasks with
  | nil => exact ⟨[],[],rfl,Or.inl ⟨rfl,rfl,rfl,rfl⟩⟩
  | cons p queue ih =>
    rw [loop]
    cases hm : (tasks p).bind (fun t => t.mark now) with
    | none =>
      refine ⟨[],[],rfl,Or.inr (Or.inr ⟨p,rfl,rfl,rfl,?_⟩)⟩
      cases hp : tasks p with
      | none => exact hp
      | some t => exact absurd (by simpa [hp] using hm) (t.mark_ne_none now)
    | some u =>
      dsimp only
      cases hsel : u.selected with
      | some c => exact ⟨[],[],rfl,Or.inr (Or.inl ⟨p,c,u,rfl,rfl,rfl,by simp,hsel⟩)⟩
      | none =>
        obtain ⟨skipped,_,rfl,h⟩ := ih (Function.update tasks p (some u))
        refine ⟨p :: skipped,_,rfl,?_⟩
        rcases h with ⟨hw,hq,hr,he⟩ | ⟨p',c,u',hw,hq,he,ht,hs⟩ | ⟨p',hw,hq,he,ht⟩
        · exact Or.inl ⟨hw,by rw [hq],hr,by simp [he]⟩
        · refine Or.inr (Or.inl ⟨p',c,u',hw,?_,by simp [he],ht,hs⟩)
          rw [List.cons_append, ← hq]
        · refine Or.inr (Or.inr ⟨p',hw,?_,by simp [he],ht⟩)
          rw [List.cons_append, ← hq]

/-- The objects behind the pointers stay, and only their states change. -/
def Persists (tasks tasks' : TaskPtr → Option (Task F)) : Prop :=
  ∀ p t, tasks p = some t → ∃ u, tasks' p = some u ∧ t.SameWork u

theorem Persists.refl (tasks : TaskPtr → Option (Task F)) : Persists tasks tasks :=
  fun _ t h => ⟨t,h,.refl t⟩

theorem Persists.trans {a b c : TaskPtr → Option (Task F)} (h : Persists a b) (h' : Persists b c) :
    Persists a c := by
  intro p t ht
  obtain ⟨u,hu,htu⟩ := h p t ht
  obtain ⟨v,hv,huv⟩ := h' p u hu
  exact ⟨v,hv,htu.trans huv⟩

theorem persists_update {tasks : TaskPtr → Option (Task F)} {u v : Task F}
    (hp : tasks p = some u) (huv : u.SameWork v) :
    Persists tasks (Function.update tasks p (some v)) := by
  intro q t hq
  by_cases hqp : q = p
  · subst hqp
    rw [hp] at hq
    cases hq
    exact ⟨v,by simp,huv⟩
  · exact ⟨t,by simp [hqp,hq],.refl t⟩

theorem persists_fresh {tasks : TaskPtr → Option (Task F)} (hp : tasks p = none) (v : Task F) :
    Persists tasks (Function.update tasks p (some v)) := by
  intro q t hq
  have hqp : q ≠ p := by
    rintro rfl
    simp [hp] at hq
  exact ⟨t,by simp [hqp,hq],.refl t⟩

theorem loop_persists (i : ℕ) (now : TimePoint) (queue : List TaskPtr)
    (tasks : TaskPtr → Option (Task F)) : Persists tasks (loop i now queue tasks).tasks := by
  induction queue generalizing tasks with
  | nil => exact .refl tasks
  | cons p queue ih =>
    rw [loop]
    cases hm : (tasks p).bind (fun t => t.mark now) with
    | none => exact .refl tasks
    | some u =>
      obtain ⟨t,ht,htu⟩ := Option.bind_eq_some_iff.mp hm
      have hup := persists_update ht (t.mark_sameWork htu)
      dsimp only
      cases u.selected with
      | some c => exact hup
      | none => exact hup.trans (ih _)

/-- Every step keeps the task objects and their work. -/
theorem step_persists {a : Action F} (h : step pool a = some (t,es)) : Persists pool.tasks t.tasks := by
  cases a with
  | makeTask p f | makeExpiringTask p f e expiration now =>
    obtain ⟨hp,_,rfl⟩ := construct_cases h
    exact persists_fresh hp _
  | addTask p k =>
    obtain ⟨_,_,_,rfl,_⟩ := addTask_cases h
    exact .refl _
  | init =>
    obtain ⟨_,_,rfl⟩ := init_cases h
    exact .refl _
  | spawn i | spurious i =>
    obtain ⟨_,_,rfl⟩ := advance_cases h
    exact .refl _
  | acquire i now =>
    obtain ⟨w,_,_,hi⟩ := acquire_cases h
    rcases iterate_cases hi with ⟨_,_,rfl⟩ | ⟨_,_,rfl⟩
    · exact loop_persists i now _ _
    · exact .refl _
  | enter i =>
    obtain ⟨_,_,_,_,_,⟨_,_,rfl⟩ | ⟨_,_,rfl⟩⟩ := enter_cases h
    · exact .refl _
    · exact .refl _
  | finish i o =>
    obtain ⟨p,c,task,_,htask,_,⟨_,_,rfl⟩ | ⟨_,rfl⟩⟩ := finish_cases h
    · exact persists_update htask task.sameWork_finished
    · exact .refl _
  | stop =>
    cases h
    exact .refl _

end ThreadPool
end Kbms
