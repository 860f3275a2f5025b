import Kbms.Concurrency.LockDiscipline
import Kbms.Concurrency.LifeCycle

/-! # A section seen from its statements

The pool in which a whole section is one step, seen while a worker of the pool with an explicit
mutex is in the middle of its section. The section takes effect at the statement after which
nothing in it can change any more: where the worker has chosen its callback, is about to
wait, or is about to leave. Until then its tasks are still in the queue of the coarse pool, and
callbacks of other workers may end.
-/
namespace Kbms
open Foundation

/-- Where a thread stands for the coarse pool; `none` is in the middle of a section. -/
def Point.worker : Point → Option Worker
  | .unborn => some .unborn
  | .guard => some .start
  | .wait | .waiting => some .waiting
  | .woken => some .woken
  | .unlock p c | .call p c => some (.selected p c)
  | .inside p c => some (.inside p c)
  | .relock => some .relock
  | .returned => some .exited
  | .terminated => some .escaped
  | .outer _ | .survey | .inner _ | .idleUp | .resurvey | .idleDown _ | .take _ | .branch _ | .unguard => none

/-- Before `idle_count_--` in a section that began with a wakeup. -/
def Point.uncounted : Point → Bool
  | .resurvey | .idleDown _ => true
  | _ => false

/-- What the locals of a point say about the pool, which nobody else changes meanwhile. -/
def Point.Informed (run empty : Bool) : Point → Prop
  | .outer survival => survival = false → run = false
  | .inner survival | .idleDown survival => survival = run
  | .idleUp => run = true ∧ empty = true
  | .take survival => survival = run ∧ (survival = true → empty = false)
  | .branch _ => run = true
  | .unguard => run = false
  | _ => True

/-- The task that a call of `AddTask` has put into the queue and not yet announced to the waiters. -/
def AddPoint.pushed : AddPoint → List TaskPtr
  | .test p | .notify p => [p]
  | .outside | .push _ | .unguard => []

theorem AddPoint.pushed_of_not_holding {x : AddPoint} (h : x.holding = false) : x.pushed = [] := by
  cases x with
  | outside => rfl
  | push _ | test _ | notify _ | unguard => cases h

theorem Point.holding_of_midway {a : Point} (h : a.worker = none) : a.holding = true := by
  cases a <;> first | rfl | cases h

theorem Task.dropped_finished {F : Type*} (u : Task F) : u.finished.dropped = true := rfl

namespace ThreadPool
variable {F : Type*} {pool t : ThreadPool F} {i : ℕ} {now : TimePoint}

/-- A worker would drop the task if it took it. -/
def Dropped (tasks : TaskPtr → Option (Task F)) (p : TaskPtr) : Prop :=
  ∃ u, tasks p = some u ∧ u.dropped = true

theorem mark_of_dropped (now : TimePoint) {u : Task F} (h : u.dropped = true) : u.mark now = some u ∧ u.selected = none := by
  rw [Task.dropped, Bool.and_eq_true, decide_eq_true_eq] at h
  exact ⟨by rw [Task.mark, if_neg h.1],Option.isNone_iff_eq_none.mp h.2⟩

/-- A section goes past the tasks that it drops. -/
theorem loop_dropped (i : ℕ) (now : TimePoint) {taken : List TaskPtr} (queue : List TaskPtr)
    {tasks : TaskPtr → Option (Task F)} (h : ∀ q ∈ taken, Dropped tasks q) :
    loop i now (taken ++ queue) tasks = { loop i now queue tasks with
      events := taken.map (fun q => .dequeued i q now none) ++ (loop i now queue tasks).events } := by
  induction taken with
  | nil => rfl
  | cons p taken ih =>
    obtain ⟨u,hu,hdrop⟩ := h p List.mem_cons_self
    obtain ⟨hmark,hsel⟩ := mark_of_dropped now hdrop
    have hsame : Function.update tasks p (some u) = tasks := by
      rw [← hu]
      exact Function.update_eq_self p tasks
    rw [List.cons_append, loop, hu, Option.bind_some, hmark]
    dsimp only
    rw [hsel, hsame, ih (fun q hq => h q (List.mem_cons_of_mem p hq))]
    rfl

/-- The counter that a section finds, once it has counted its own wakeup down. -/
def counted (w : Worker) (idleCount : ℕ) : ℕ := if w = .woken then sizeDec idleCount else idleCount

theorem acquire_eq {w : Worker} (hw : pool.workers[i]? = some w) (hlock : Worker.locking w = true) :
    acquire pool i now = some (iterate { pool with idleCount := counted w pool.idleCount } i now) := by
  rw [acquire, hw]
  cases w with
  | start | relock => rw [counted, if_neg (by simp)]
  | woken => rw [counted, if_pos rfl]
  | unborn | waiting | selected _ _ | inside _ _ | exited | escaped | faulted => cases hlock

section Sections
variable {w : Worker} {taken : List TaskPtr} {tasks : TaskPtr → Option (Task F)}

theorem section_runs (hw : pool.workers[i]? = some w) (hlock : Worker.locking w = true) (hrun : pool.state = .run) :
    pool.step (.acquire i now) = some ({ pool with
      tasks := (loop i now pool.taskQueue pool.tasks).tasks
      taskQueue := (loop i now pool.taskQueue pool.tasks).taskQueue
      idleCount := if (loop i now pool.taskQueue pool.tasks).worker = .waiting then
        sizeInc (counted w pool.idleCount) else counted w pool.idleCount
      workers := pool.workers.set i (loop i now pool.taskQueue pool.tasks).worker },
      (loop i now pool.taskQueue pool.tasks).events) := by
  have hsurvival : isSurvival { pool with idleCount := counted w pool.idleCount } = true := decide_eq_true hrun
  rw [step, acquire_eq hw hlock, iterate, if_pos hsurvival]

/-- A section that finds nothing to do. -/
theorem section_waits (now : TimePoint) (hw : pool.workers[i]? = some w) (hlock : Worker.locking w = true)
    (hrun : pool.state = .run) (hqueue : pool.taskQueue = taken) (hdrop : ∀ q ∈ taken, Dropped pool.tasks q) :
    pool.step (.acquire i now) = some ({ pool with
      taskQueue := []
      idleCount := sizeInc (counted w pool.idleCount)
      workers := pool.workers.set i .waiting },taken.map (fun q => .dequeued i q now none)) := by
  have hloop : loop i now pool.taskQueue pool.tasks =
      ⟨pool.tasks,[],.waiting,taken.map (fun q => .dequeued i q now none)⟩ := by
    have hall := loop_dropped i now [] hdrop
    rw [List.append_nil] at hall
    rw [hqueue, hall, loop, List.append_nil]
  rw [section_runs hw hlock hrun, hloop, if_pos rfl]

/-- A section that goes on to callback `c` of task `p`. -/
theorem section_selects {p : TaskPtr} {c : Callback} {u v : Task F} {queue : List TaskPtr}
    (hw : pool.workers[i]? = some w) (hlock : Worker.locking w = true) (hrun : pool.state = .run)
    (hqueue : pool.taskQueue = taken ++ p :: queue) (hdrop : ∀ q ∈ taken, Dropped pool.tasks q)
    (hu : pool.tasks p = some u) (hmark : u.mark now = some v) (hsel : v.selected = some c) :
    pool.step (.acquire i now) = some ({ pool with
      tasks := Function.update pool.tasks p (some v)
      taskQueue := queue
      idleCount := counted w pool.idleCount
      workers := pool.workers.set i (.selected p c) },
      taken.map (fun q => .dequeued i q now none) ++ [.dequeued i p now (some c)]) := by
  have hhead : loop i now (p :: queue) pool.tasks =
      ⟨Function.update pool.tasks p (some v),queue,.selected p c,[.dequeued i p now (some c)]⟩ := by
    rw [loop, hu, Option.bind_some, hmark]
    dsimp only
    rw [hsel]
  rw [section_runs hw hlock hrun, hqueue, loop_dropped i now (p :: queue) hdrop, hhead, if_neg (by simp)]

theorem addTask_quiet {p : TaskPtr} {k : ℕ} (hp : (pool.tasks p).isSome = true)
    (hno : pool.idleCount = 0 ∨ .waiting ∉ pool.workers) :
    pool.step (.addTask p k) = some ({ pool with taskQueue := pool.taskQueue ++ [p] },[.added p]) := by
  rw [step, addTask, if_pos hp]
  dsimp only
  split
  · rename_i hpos
    have hno : .waiting ∉ pool.workers := hno.resolve_left (Nat.pos_iff_ne_zero.mp hpos)
    rw [notifyOne, if_neg hno]
    rfl
  · rfl

theorem addTask_wakes {p : TaskPtr} {k : ℕ} (hp : (pool.tasks p).isSome = true) (hpos : 0 < pool.idleCount)
    (hk : pool.workers[k]? = some .waiting) : pool.step (.addTask p k) = some ({ pool with
      taskQueue := pool.taskQueue ++ [p]
      workers := pool.workers.set k .woken },[.added p]) := by
  rw [step, addTask, if_pos hp]
  dsimp only
  rw [if_pos hpos, notifyOne, if_pos (List.mem_of_getElem? hk), if_pos hk]
  rfl

/-- A section after `Stop`. -/
theorem section_exits (now : TimePoint) (hw : pool.workers[i]? = some w) (hlock : Worker.locking w = true)
    (hrun : pool.state ≠ .run) : pool.step (.acquire i now) = some ({ pool with
      idleCount := counted w pool.idleCount
      workers := pool.workers.set i .exited },[]) := by
  have hsurvival : ¬ isSurvival { pool with idleCount := counted w pool.idleCount } = true := by
    simpa [isSurvival] using hrun
  rw [step, acquire_eq hw hlock, iterate, if_neg hsurvival]

theorem dequeuedTasks_skipped (i : ℕ) (now : TimePoint) (taken : List TaskPtr) :
    dequeuedTasks (taken.map (fun q => .dequeued i q now none)) = taken := by
  rw [dequeuedTasks, filterMap_skipped]
  simp [Fifo.popped,Function.comp_def,Fifo.Op.popped]

end Sections

end ThreadPool

namespace LockedPool
open ThreadPool (Dropped counted Worker.locking)
variable {F : Type*} {s t : LockedPool F} {pool pool' : ThreadPool F} {taken taken' : List TaskPtr} {i : ℕ}
  {a b : Point} {w : Worker} {now : TimePoint} {tr es : List LockEvent}

/-- The task that a thread at `branch` has marked is the last one of `taken`, and the others
have been dropped. -/
def Taken (s : LockedPool F) (pool : ThreadPool F) (taken : List TaskPtr) : Point → Prop
  | .branch p => ∃ dropped now u v, taken = dropped ++ [p] ∧ (∀ q ∈ dropped, Dropped pool.tasks q) ∧
      pool.tasks p = some u ∧ u.mark now = some v ∧ s.tasks = Function.update pool.tasks p (some v)
  | _ => (∀ q ∈ taken, Dropped pool.tasks q) ∧ s.tasks = pool.tasks

/-- The section of the thread at `a`, which the coarse pool still sees at `w`. -/
structure Midway (s : LockedPool F) (pool : ThreadPool F) (taken : List TaskPtr) (a : Point) (w : Worker) :
    Prop where
  locking : Worker.locking w = true
  woken : a.uncounted = true → w = .woken
  idle : s.idleCount = if a.uncounted then pool.idleCount else counted w pool.idleCount
  queue : pool.taskQueue = taken ++ s.taskQueue
  running : taken ≠ [] → s.isSurvival = true
  informed : a.Informed s.isSurvival s.taskQueue.isEmpty
  tasks : Taken s pool taken a

/-- The coarse pool wakes all waiters at once when `Stop` stores its flag. -/
def settle (s : LockedPool F) (w : Worker) : Worker := if s.stop = .notify ∧ w = .waiting then .woken else w

theorem settle_of_ne (h : w ≠ .waiting) : s.settle w = w := by
  rw [settle, if_neg (fun hnotify => h hnotify.2)]

/-- It stores its own state as soon as `Init` has built `m_threads`. -/
def published (s : LockedPool F) : TPoolState := if s.begun = false ∧ s.threads ≠ [] then .run else s.state

theorem published_eq (hstate : t.state = s.state) (hbegun : t.begun = s.begun)
    (ht : t.threads = [] ↔ s.threads = []) : t.published = s.published := by
  simp only [published, hstate, hbegun, ne_eq, ht]

/-- `taken` are the tasks that have left the queue in a section that is not over. -/
structure Abstracts (s : LockedPool F) (pool : ThreadPool F) (taken : List TaskPtr) : Prop where
  threadNum : pool.threadNum = s.threadNum
  state : pool.state = s.published
  length : pool.workers.length = s.threads.length
  outside : ∀ (i : ℕ) a w, s.threads[i]? = some a → a.worker = some w → pool.workers[i]? = some (s.settle w)
  midway : ∀ (i : ℕ) a, s.threads[i]? = some a → a.worker = none →
    ∃ w, pool.workers[i]? = some w ∧ Midway s pool taken a w
  free : (∀ (i : ℕ) a, s.threads[i]? = some a → a.worker ≠ none) →
    s.tasks = pool.tasks ∧ s.taskQueue = pool.taskQueue ++ s.adder.pushed ∧ s.idleCount = pool.idleCount ∧ taken = []

theorem set_of_getElem? {α : Type*} {l : List α} {i : ℕ} {a : α} (h : l[i]? = some a) : l.set i a = l := by
  obtain ⟨hi,rfl⟩ := List.getElem?_eq_some_iff.mp h
  exact List.set_getElem_self hi

theorem Taken.eq_at {p : TaskPtr} {u : Task F} (h : Taken s pool taken a) (hu : pool.tasks p = some u)
    (hw : u.state ≠ .waiting) : s.tasks p = some u := by
  cases a with
  | branch q =>
    obtain ⟨_,now,v,v',_,_,hv,hmark,htasks⟩ := h
    rw [htasks]
    by_cases hpq : p = q
    · subst hpq
      rw [hu] at hv
      cases hv
      rw [Function.update_self, Task.mark_started hw hmark]
    · rw [Function.update_of_ne hpq, hu]
  | _ => exact (congrFun h.2 p).trans hu

theorem Taken.none_iff {p : TaskPtr} (h : Taken s pool taken a) : s.tasks p = none ↔ pool.tasks p = none := by
  cases a with
  | branch q =>
    obtain ⟨_,_,u,v,_,_,hu,_,htasks⟩ := h
    rw [htasks]
    by_cases hq : p = q
    · subst hq
      rw [Function.update_self, hu]
      simp
    · rw [Function.update_of_ne hq]
  | _ => rw [h.2]

theorem Taken.congr (h : Taken s pool taken a) (htasks : t.tasks = s.tasks) (hptasks : pool'.tasks = pool.tasks) :
    Taken t pool' taken a := by
  cases a <;> simpa only [Taken, htasks, hptasks] using h

theorem Midway.congr (h : Midway s pool taken a w) (hstate : t.state = s.state) (htasks : t.tasks = s.tasks)
    (hqueue : t.taskQueue = s.taskQueue) (hidle : t.idleCount = s.idleCount) (hptasks : pool'.tasks = pool.tasks)
    (hpqueue : pool'.taskQueue = pool.taskQueue) (hpidle : pool'.idleCount = pool.idleCount) :
    Midway t pool' taken a w := by
  have hsurvival : t.isSurvival = s.isSurvival := by rw [isSurvival, isSurvival, hstate]
  refine ⟨h.locking,h.woken,?_,?_,hsurvival ▸ h.running,?_,h.tasks.congr htasks hptasks⟩
  · rw [hidle, hpidle]
    exact h.idle
  · rw [hpqueue, hqueue]
    exact h.queue
  · rw [hsurvival, hqueue]
    exact h.informed

/-- A task that is marked only once it waits may be built or finished during a section. -/
theorem Taken.update {p : TaskPtr} {x : Task F} (h : Taken s pool taken a)
    (hx : ∀ u, pool.tasks p = some u → u.state ≠ .waiting ∧ x = u.finished)
    (htasks : t.tasks = Function.update s.tasks p (some x))
    (hptasks : pool'.tasks = Function.update pool.tasks p (some x)) : Taken t pool' taken a := by
  have hdropped : ∀ q, Dropped pool.tasks q → Dropped pool'.tasks q := by
    rintro q ⟨u,hu,hdrop⟩
    rw [Dropped, hptasks]
    by_cases hq : q = p
    · subst hq
      obtain ⟨-,rfl⟩ := hx u hu
      exact ⟨_,Function.update_self .., u.dropped_finished⟩
    · exact ⟨u,by rw [Function.update_of_ne hq, hu],hdrop⟩
  cases a with
  | branch q =>
    obtain ⟨dropped,now,u,v,htaken,hdrop,hu,hmark,hsame⟩ := h
    by_cases hq : q = p
    · subst hq
      obtain ⟨hstarted,rfl⟩ := hx u hu
      have hdone : u.finished.mark now = some u.finished := by
        rw [Task.mark, if_neg (by simp [Task.finished])]
      refine ⟨dropped,now,_,_,htaken,fun r hr => hdropped r (hdrop r hr),?_,hdone,?_⟩
      · rw [hptasks, Function.update_self]
      · rw [htasks, hptasks, hsame, Function.update_idem, Function.update_idem]
    · refine ⟨dropped,now,u,v,htaken,fun r hr => hdropped r (hdrop r hr),?_,hmark,?_⟩
      · rw [hptasks, Function.update_of_ne hq, hu]
      · rw [htasks, hptasks, hsame, Function.update_comm hq]
  | _ => exact ⟨fun q hq => hdropped q (h.1 q hq),by rw [htasks, hptasks, h.2]⟩

theorem Midway.update {p : TaskPtr} {x : Task F} (h : Midway s pool taken a w)
    (hx : ∀ u, pool.tasks p = some u → u.state ≠ .waiting ∧ x = u.finished)
    (htasks : t.tasks = Function.update s.tasks p (some x))
    (hptasks : pool'.tasks = Function.update pool.tasks p (some x)) (hstate : t.state = s.state)
    (hqueue : t.taskQueue = s.taskQueue) (hidle : t.idleCount = s.idleCount)
    (hpqueue : pool'.taskQueue = pool.taskQueue) (hpidle : pool'.idleCount = pool.idleCount) :
    Midway t pool' taken a w := by
  have hsame : Midway { s with tasks := t.tasks } { pool with tasks := pool'.tasks } taken a w :=
    ⟨h.locking,h.woken,h.idle,h.queue,h.running,h.informed,h.tasks.update hx htasks hptasks⟩
  exact hsame.congr hstate rfl hqueue hidle rfl hpqueue hpidle

/-- `idle_count_--` after a wakeup. -/
theorem Midway.down {survival : Bool} (h : Midway s pool taken (.idleDown survival) w)
    (hstate : t.state = s.state) (htasks : t.tasks = s.tasks) (hqueue : t.taskQueue = s.taskQueue)
    (hidle : t.idleCount = sizeDec s.idleCount) : Midway t pool taken (.inner survival) w := by
  have hsurvival : t.isSurvival = s.isSurvival := by rw [isSurvival, isSurvival, hstate]
  have hbefore : (Point.idleDown survival).uncounted = true := rfl
  have hafter : ¬ (Point.inner survival).uncounted = true := Bool.false_ne_true
  refine ⟨h.locking,fun hunc => absurd hunc hafter,?_,by rw [hqueue, h.queue],hsurvival ▸ h.running,?_,h.tasks.1,?_⟩
  · rw [hidle, h.idle, if_pos hbefore, if_neg hafter, counted, if_pos (h.woken rfl)]
  · rw [hsurvival]
    exact h.informed
  · rw [htasks]
    exact h.tasks.2

/-- What a step of a thread leaves as it is. -/
structure Frame (s t : LockedPool F) : Prop where
  threadNum : t.threadNum = s.threadNum
  stop : t.stop = s.stop
  state : t.state = s.state
  begun : t.begun = s.begun

theorem Frame.settle (h : Frame s t) : t.settle = s.settle := by
  funext v
  rw [LockedPool.settle, LockedPool.settle, h.stop]

/-- One thread moves, with the worker that stands for it. -/
theorem Abstracts.move (h : Abstracts s pool taken) (ha : s.threads[i]? = some a) (hframe : Frame s t)
    (ht : t.threads = s.threads.set i b) (hpnum : pool'.threadNum = pool.threadNum)
    (hpstate : pool'.state = pool.state) (hpool : pool'.workers = pool.workers.set i w)
    (hout : ∀ v, b.worker = some v → w = s.settle v) (hmid : b.worker = none → Midway t pool' taken' b w)
    (hothers : ∀ j c v, j ≠ i → s.threads[j]? = some c → c.worker = none → Midway s pool taken c v →
      Midway t pool' taken' c v)
    (hfree : b.worker ≠ none → (∀ j c, j ≠ i → s.threads[j]? = some c → c.worker ≠ none) →
      t.tasks = pool'.tasks ∧ t.taskQueue = pool'.taskQueue ++ t.adder.pushed ∧ t.idleCount = pool'.idleCount ∧
        taken' = []) : Abstracts t pool' taken' := by
  have hlt := (List.getElem?_eq_some_iff.mp ha).1
  have hplt : i < pool.workers.length := h.length ▸ hlt
  have hpublished : t.published = s.published :=
    published_eq hframe.state hframe.begun (by rw [ht, List.set_eq_nil_iff])
  have hti : t.threads[i]? = some b := by rw [ht, List.getElem?_set_self hlt]
  have hpi : pool'.workers[i]? = some w := by rw [hpool, List.getElem?_set_self hplt]
  have htj : ∀ j, j ≠ i → t.threads[j]? = s.threads[j]? :=
    fun j hj => by rw [ht, List.getElem?_set_ne (Ne.symm hj)]
  have hpj : ∀ j, j ≠ i → pool'.workers[j]? = pool.workers[j]? :=
    fun j hj => by rw [hpool, List.getElem?_set_ne (Ne.symm hj)]
  refine ⟨by rw [hpnum, hframe.threadNum, h.threadNum],by rw [hpstate, hpublished, h.state],?_,?_,?_,?_⟩
  · rw [hpool, ht, List.length_set, List.length_set, h.length]
  · intro j c v hc hv
    rw [hframe.settle]
    by_cases hj : j = i
    · subst hj
      rw [hti] at hc
      cases hc
      rw [hpi, hout v hv]
    · rw [hpj j hj]
      exact h.outside j c v (htj j hj ▸ hc) hv
  · intro j c hc hnone
    by_cases hj : j = i
    · subst hj
      rw [hti] at hc
      cases hc
      exact ⟨w,hpi,hmid hnone⟩
    · rw [htj j hj] at hc
      obtain ⟨v,hv,hm⟩ := h.midway j c hc hnone
      exact ⟨v,by rw [hpj j hj, hv],hothers j c v hj hc hnone hm⟩
  · intro hall
    refine hfree (hall i b hti) (fun j c hj hc => ?_)
    exact hall j c (by rw [htj j hj, hc])

/-- No thread moves. -/
theorem Abstracts.still (h : Abstracts s pool taken) (hframe : Frame s t) (ht : t.threads = s.threads)
    (hpnum : pool'.threadNum = pool.threadNum) (hpstate : pool'.state = pool.state)
    (hpool : pool'.workers = pool.workers)
    (hmid : ∀ (j : ℕ) c v, s.threads[j]? = some c → c.worker = none → Midway s pool taken c v →
      Midway t pool' taken c v)
    (hfree : s.tasks = pool.tasks → s.taskQueue = pool.taskQueue ++ s.adder.pushed → s.idleCount = pool.idleCount →
      t.tasks = pool'.tasks ∧ t.taskQueue = pool'.taskQueue ++ t.adder.pushed ∧ t.idleCount = pool'.idleCount) :
    Abstracts t pool' taken := by
  have hpublished : t.published = s.published := published_eq hframe.state hframe.begun (by rw [ht])
  refine ⟨by rw [hpnum, hframe.threadNum, h.threadNum],by rw [hpstate, hpublished, h.state],
    by rw [hpool, ht, h.length],?_,?_,?_⟩
  · intro j c v hc hv
    rw [hframe.settle, hpool]
    exact h.outside j c v (ht ▸ hc) hv
  · intro j c hc hnone
    rw [ht] at hc
    obtain ⟨v,hv,hm⟩ := h.midway j c hc hnone
    exact ⟨v,by rw [hpool, hv],hmid j c v hc hnone hm⟩
  · intro hall
    rw [ht] at hall
    obtain ⟨htasks,hqueue,hidle,htaken⟩ := h.free hall
    obtain ⟨htasks,hqueue,hidle⟩ := hfree htasks hqueue hidle
    exact ⟨htasks,hqueue,hidle,htaken⟩

/-- Steps that touch nothing that the coarse pool sees. -/
theorem Abstracts.congr (h : Abstracts s pool taken) (hnum : t.threadNum = s.threadNum)
    (hstate : t.state = s.state) (hbegun : t.begun = s.begun) (ht : t.threads = s.threads) (htasks : t.tasks = s.tasks)
    (hqueue : t.taskQueue = s.taskQueue) (hidle : t.idleCount = s.idleCount)
    (hpushed : t.adder.pushed = s.adder.pushed) (hstop : t.stop = .notify ↔ s.stop = .notify) :
    Abstracts t pool taken := by
  have hsettle : t.settle = s.settle := by
    funext v
    rw [settle, settle]
    simp only [hstop]
  have hpublished : t.published = s.published := published_eq hstate hbegun (by rw [ht])
  refine ⟨hnum ▸ h.threadNum,hpublished ▸ h.state,ht ▸ h.length,?_,?_,?_⟩
  · intro j c v hc hv
    rw [hsettle]
    exact h.outside j c v (ht ▸ hc) hv
  · intro j c hc hnone
    obtain ⟨v,hv,hm⟩ := h.midway j c (ht ▸ hc) hnone
    exact ⟨v,hv,hm.congr hstate htasks hqueue hidle rfl rfl rfl⟩
  · intro hall
    rw [htasks, hqueue, hidle, hpushed]
    exact h.free (fun j c hc => hall j c (by rw [ht, hc]))

theorem Abstracts.free_of_others (h : Abstracts s pool taken) (ha : s.threads[i]? = some a) (hout : a.worker ≠ none)
    (hothers : ∀ (j : ℕ) c, j ≠ i → s.threads[j]? = some c → c.worker ≠ none) :
    s.tasks = pool.tasks ∧ s.taskQueue = pool.taskQueue ++ s.adder.pushed ∧ s.idleCount = pool.idleCount ∧
      taken = [] := by
  refine h.free (fun j c hc => ?_)
  by_cases hj : j = i
  · subst hj
    rw [ha] at hc
    cases hc
    exact hout
  · exact hothers j c hj hc

theorem Abstracts.midway_or_same (h : Abstracts s pool taken) :
    (∃ a w, Midway s pool taken a w) ∨ s.tasks = pool.tasks := by
  by_cases hmid : ∃ (j : ℕ) (b : Point), s.threads[j]? = some b ∧ b.worker = none
  · obtain ⟨j,b,hb,hnone⟩ := hmid
    obtain ⟨v,_,hm⟩ := h.midway j b hb hnone
    exact .inl ⟨b,v,hm⟩
  · exact .inr (h.free (fun j b hb hnone => hmid ⟨j,b,hb,hnone⟩)).1

theorem Abstracts.tasks_none {p : TaskPtr} (h : Abstracts s pool taken) : s.tasks p = none ↔ pool.tasks p = none := by
  rcases h.midway_or_same with ⟨a,w,hm⟩ | htasks
  · exact hm.tasks.none_iff
  · rw [htasks]

/-- A thread moves outside of the sections. -/
theorem Abstracts.shift {v : Worker} (h : Abstracts s pool taken) (ha : s.threads[i]? = some a)
    (haw : a.worker = some v) (hbw : b.worker = some w) (hframe : Frame s t) (ht : t.threads = s.threads.set i b)
    (htasks : t.tasks = s.tasks) (hqueue : t.taskQueue = s.taskQueue) (hidle : t.idleCount = s.idleCount)
    (hadder : t.adder = s.adder) : Abstracts t { pool with workers := pool.workers.set i (s.settle w) } taken := by
  refine h.move ha hframe ht rfl rfl rfl ?_ ?_ ?_ ?_
  · intro v hv
    rw [hbw] at hv
    cases hv
    rfl
  · intro hbn
    rw [hbw] at hbn
    cases hbn
  · exact fun j c v _ _ _ hm => hm.congr hframe.state htasks hqueue hidle rfl rfl rfl
  · intro _ hothers
    rw [htasks, hqueue, hidle, hadder]
    exact h.free_of_others ha (by rw [haw]; simp) hothers

/-- While thread `i` has the mutex no other one is in a section. -/
theorem Inv.midway_alone (hi : Inv tr s) (ha : s.threads[i]? = some a) (hold : a.holding = true) :
    ∀ (j : ℕ) c, j ≠ i → s.threads[j]? = some c → c.worker ≠ none := by
  intro j c hj hc hnone
  have howner := (hi.owns.at ha).mp hold
  have hother := (hi.owns.at hc).mp (Point.holding_of_midway hnone)
  rw [howner] at hother
  exact hj (worker_injective (Option.some.inj hother)).symm

theorem Inv.none_midway (hi : Inv tr s) (hm : ∀ i, s.mutex ≠ some (.worker i)) :
    ∀ (j : ℕ) c, s.threads[j]? = some c → c.worker ≠ none :=
  fun j _ hc hnone => hm j ((hi.owns.at hc).mp (Point.holding_of_midway hnone))

/-- While a worker has the mutex, or nobody, no task of the queue is still to be announced. -/
theorem Owned.pushed_eq (h : Owned s) (hm : s.mutex = none ∨ s.mutex = some (.worker i)) : s.adder.pushed = [] :=
  AddPoint.pushed_of_not_holding (h.others hm).2

/-- With a thread created the store of `Init` is over. -/
theorem Inv.published_eq (hi : Inv tr s) (ha : s.threads[i]? = some a) (hborn : a.born = true) :
    s.published = s.state := by
  rw [published, if_neg]
  rintro ⟨hno,-⟩
  rw [hi.begun_of_born ha hborn] at hno
  cases hno

end LockedPool
end Kbms
