import Mathlib.Data.List.Nodup
import Mathlib.Data.Nat.Basic
import Kbms.Foundation.Fifo
import Kbms.Concurrency.ThreadPool

/-! # The history of the tasks of a pool

The queue of the pool projects onto an abstract channel, which gives the order of
the tasks for all runs. The rest is bookkeeping that also holds for all runs: what
workers have selected is what they have entered, refused or still hold. When every
task object is added once, a task is dequeued once, and these balances leave room
for a single callback.
-/
namespace Kbms.ThreadPool
open Foundation
variable {F : Type*} {n : ThreadNum} {pool t : ThreadPool F} {tr es : List PoolEvent} {i : ℕ}
variable {P : List PoolEvent → ThreadPool F → Action F → Prop}

def fifoOp : PoolEvent → Option (Fifo.Op TaskPtr)
  | .added p => some (.push p)
  | .dequeued _ p _ _ => some (.pop p)
  | _ => none

/-- The tasks in the order in which `AddTask` locked the mutex. -/
def addedTasks (tr : List PoolEvent) : List TaskPtr := Fifo.pushed (tr.filterMap fifoOp)
/-- The tasks in the order in which workers took them. -/
def dequeuedTasks (tr : List PoolEvent) : List TaskPtr := Fifo.popped (tr.filterMap fifoOp)

@[simp] theorem addedTasks_append (xs ys : List PoolEvent) :
    addedTasks (xs ++ ys) = addedTasks xs ++ addedTasks ys := by simp [addedTasks]
@[simp] theorem dequeuedTasks_append (xs ys : List PoolEvent) :
    dequeuedTasks (xs ++ ys) = dequeuedTasks xs ++ dequeuedTasks ys := by simp [dequeuedTasks]

theorem mem_dequeuedTasks {p : TaskPtr} :
    p ∈ dequeuedTasks tr ↔ ∃ i now o, .dequeued i p now o ∈ tr := by
  simp only [dequeuedTasks, Fifo.popped, List.mem_filterMap]
  constructor
  · rintro ⟨op,⟨e,he,hop⟩,hp⟩
    cases e with
    | dequeued i q now o =>
      cases hop
      cases hp
      exact ⟨i,now,o,he⟩
    | added q =>
      cases hop
      cases hp
    | _ => cases hop
  · rintro ⟨i,now,o,h⟩
    exact ⟨_,⟨_,h,rfl⟩,rfl⟩

theorem filterMap_skipped (i : ℕ) (now : TimePoint) (ps : List TaskPtr) :
    (ps.map (fun p => PoolEvent.dequeued i p now none)).filterMap fifoOp = ps.map Fifo.Op.pop := by
  rw [List.filterMap_map, ← List.filterMap_eq_map]
  rfl

theorem loop_pops (i : ℕ) (now : TimePoint) (queue : List TaskPtr)
    (tasks : TaskPtr → Option (Task F)) :
    ∃ ps, queue = ps ++ (loop i now queue tasks).taskQueue ∧
      (loop i now queue tasks).events.filterMap fifoOp = ps.map Fifo.Op.pop := by
  obtain ⟨skipped,_,rfl,⟨_,hq,hr,he⟩ | ⟨p,c,_,_,hq,he,_⟩ | ⟨p,_,hq,he,_⟩⟩ := loop_cases i now queue tasks
  · exact ⟨skipped,by simp [hr,← hq],by rw [he, filterMap_skipped]⟩
  · refine ⟨skipped ++ [p],by simpa using hq,?_⟩
    rw [he, List.filterMap_append, filterMap_skipped]
    simp [fifoOp]
  · refine ⟨skipped ++ [p],by simpa using hq,?_⟩
    rw [he, List.filterMap_append, filterMap_skipped]
    simp [fifoOp]

/-- The pool refines the channel: its queue is the content, `AddTask` puts in, and
a section of a worker takes out. -/
def toChannel (F : Type*) (n : ThreadNum) :
    Machine.Projection (machine F n) Machine.Any (Fifo.channel TaskPtr) Machine.Any where
  state pool := pool.taskQueue
  event := fifoOp
  initial := by
    rintro _ ⟨st,rfl⟩
    rfl
  step := by
    intro tr pool a t es _ _ hs hr
    cases a with
    | makeTask p f | makeExpiringTask p f e expiration now =>
      obtain ⟨_,rfl,rfl⟩ := construct_cases hs
      simpa using hr
    | addTask p k =>
      obtain ⟨_,rfl,_,rfl,_⟩ := addTask_cases hs
      simpa [fifoOp] using Fifo.runs_push p hr
    | init =>
      obtain ⟨_,rfl,rfl⟩ := init_cases hs
      simpa using hr
    | spawn i | spurious i =>
      obtain ⟨_,rfl,rfl⟩ := advance_cases hs
      simpa using hr
    | acquire i now =>
      obtain ⟨w,_,_,hi⟩ := acquire_cases hs
      rcases iterate_cases hi with ⟨_,rfl,rfl⟩ | ⟨_,rfl,rfl⟩
      · obtain ⟨ps,hq,he⟩ := loop_pops i now pool.taskQueue pool.tasks
        rw [hq] at hr
        rw [he]
        exact Fifo.runs_pops ps hr
      · simpa using hr
    | enter i =>
      obtain ⟨_,_,_,_,_,⟨_,rfl,rfl⟩ | ⟨_,rfl,rfl⟩⟩ := enter_cases hs
      · simpa [fifoOp,List.filterMap_cons] using hr
      · simpa [fifoOp,List.filterMap_cons] using hr
    | finish i o =>
      obtain ⟨_,_,_,_,_,rfl,⟨_,_,rfl⟩ | ⟨_,rfl⟩⟩ := finish_cases hs
      · simpa [fifoOp,List.filterMap_cons] using hr
      · simpa [fifoOp,List.filterMap_cons] using hr
    | stop =>
      cases hs
      simpa [fifoOp,List.filterMap_cons] using hr

theorem added_eq (hr : (machine F n).Runs P tr pool) :
    addedTasks tr = dequeuedTasks tr ++ pool.taskQueue :=
  Fifo.conservation ((toChannel F n).runs hr.any)

def selects (p : TaskPtr) (c : Callback) : PoolEvent → Bool
  | .dequeued _ q _ o => q = p ∧ o = some c
  | _ => false

def enters (p : TaskPtr) (c : Callback) : PoolEvent → Bool
  | .entered _ q d => q = p ∧ d = c
  | _ => false

def refuses (p : TaskPtr) (c : Callback) : PoolEvent → Bool
  | .refused _ q d => q = p ∧ d = c
  | _ => false

def leaves (p : TaskPtr) (c : Callback) : PoolEvent → Bool
  | .left _ q d _ => q = p ∧ d = c
  | _ => false

/-- Where the selected callbacks are: entered, refused, or still ahead of the worker;
and where the entered ones are: left, or still running. -/
structure Ledger (tr : List PoolEvent) (pool : ThreadPool F) : Prop where
  selected : ∀ p c, tr.countP (enters p c) + tr.countP (refuses p c) +
    pool.workers.countP (· = .selected p c) = tr.countP (selects p c)
  inside : ∀ p c, tr.countP (leaves p c) + pool.workers.countP (· = .inside p c) =
    tr.countP (enters p c)

theorem Ledger.move {w b : Worker} (h : Ledger tr pool) (hw : pool.workers[i]? = some w)
    (ht : t.workers = pool.workers.set i b)
    (hsel : ∀ p c, es.countP (enters p c) + es.countP (refuses p c) +
      (if b = .selected p c then 1 else 0) =
        es.countP (selects p c) + (if w = .selected p c then 1 else 0))
    (hin : ∀ p c, es.countP (leaves p c) + (if b = .inside p c then 1 else 0) =
      es.countP (enters p c) + (if w = .inside p c then 1 else 0)) : Ledger (tr ++ es) t := by
  refine ⟨fun p c => ?_,fun p c => ?_⟩
  · have hold := h.selected p c
    have hset := Roster.countP_set_add hw (· = .selected p c) b
    have hes := hsel p c
    simp only [decide_eq_true_eq] at hset
    rw [ht, List.countP_append, List.countP_append, List.countP_append]
    omega
  · have hold := h.inside p c
    have hset := Roster.countP_set_add hw (· = .inside p c) b
    have hes := hin p c
    simp only [decide_eq_true_eq] at hset
    rw [ht, List.countP_append, List.countP_append]
    omega

theorem Ledger.quiet (h : Ledger tr pool) (ht : ∀ p c, t.workers.countP (· = .selected p c) =
      pool.workers.countP (· = .selected p c) ∧
      t.workers.countP (· = .inside p c) = pool.workers.countP (· = .inside p c))
    (hes : ∀ e ∈ es, ∀ p c, selects p c e = false ∧ enters p c e = false ∧ refuses p c e = false ∧
      leaves p c e = false) : Ledger (tr ++ es) t := by
  have hzero : ∀ f : TaskPtr → Callback → PoolEvent → Bool, (∀ e ∈ es, ∀ p c, f p c e = false) →
      ∀ p c, (tr ++ es).countP (f p c) = tr.countP (f p c) := by
    intro f hf p c
    have : es.countP (f p c) = 0 := List.countP_eq_zero.mpr (fun e he => by simp [hf e he p c])
    rw [List.countP_append, this, Nat.add_zero]
  have h1 := hzero selects (fun e he p c => (hes e he p c).1)
  have h2 := hzero enters (fun e he p c => (hes e he p c).2.1)
  have h3 := hzero refuses (fun e he p c => (hes e he p c).2.2.1)
  have h4 := hzero leaves (fun e he p c => (hes e he p c).2.2.2)
  refine ⟨fun p c => ?_,fun p c => ?_⟩
  · rw [h1, h2, h3, (ht p c).1]
    exact h.selected p c
  · rw [h2, h4, (ht p c).2]
    exact h.inside p c

theorem Ledger.step {a : Action F} (h : Ledger tr pool) (hs : step pool a = some (t,es)) :
    Ledger (tr ++ es) t := by
  cases a with
  | makeTask p f | makeExpiringTask p f e expiration now =>
    obtain ⟨_,rfl,rfl⟩ := construct_cases hs
    exact h.quiet (fun p c => ⟨rfl,rfl⟩) (by simp)
  | addTask p k =>
    obtain ⟨_,rfl,_,rfl,⟨rfl,_⟩ | ⟨hk,rfl⟩⟩ := addTask_cases hs
    · exact h.quiet (fun p c => ⟨rfl,rfl⟩) (by simp [selects,enters,refuses,leaves])
    · exact h.move hk rfl (by simp [selects,enters,refuses]) (by simp [leaves,enters])
  | init =>
    obtain ⟨hw,rfl,rfl⟩ := init_cases hs
    exact h.quiet (fun p c => by simp [hw,List.countP_replicate]) (by simp)
  | spawn i | spurious i =>
    obtain ⟨hw,rfl,rfl⟩ := advance_cases hs
    exact h.move hw rfl (by simp) (by simp)
  | acquire i now =>
    obtain ⟨w,hw,hl,hi⟩ := acquire_cases hs
    have hsel : ∀ p c, w ≠ .selected p c := by rintro p c rfl; cases hl
    have hin : ∀ p c, w ≠ .inside p c := by rintro p c rfl; cases hl
    rcases iterate_cases hi with ⟨_,rfl,rfl⟩ | ⟨_,rfl,rfl⟩
    · obtain ⟨skipped,_,rfl,h'⟩ := loop_cases i now pool.taskQueue pool.tasks
      have hskip : ∀ p c, (skipped.map (fun p => PoolEvent.dequeued i p now none)).countP (selects p c) = 0 ∧
          (skipped.map (fun p => PoolEvent.dequeued i p now none)).countP (enters p c) = 0 ∧
          (skipped.map (fun p => PoolEvent.dequeued i p now none)).countP (refuses p c) = 0 ∧
          (skipped.map (fun p => PoolEvent.dequeued i p now none)).countP (leaves p c) = 0 := by
        intro p c
        simp [List.countP_eq_zero,selects,enters,refuses,leaves]
      rcases h' with ⟨hr,_,_,he⟩ | ⟨p',c',_,hr,_,he,_⟩ | ⟨p',hr,_,he,_⟩
      · refine h.move hw rfl (fun p c => ?_) (fun p c => ?_)
        · simp [hr,he,hskip p c,hsel p c]
        · simp [hr,he,hskip p c,hin p c]
      · refine h.move hw rfl (fun p c => ?_) (fun p c => ?_)
        · simp [hr,he,hskip p c,hsel p c,enters,refuses,selects,List.countP_cons]
        · simp [hr,he,hskip p c,hin p c,enters,leaves]
      · refine h.move hw rfl (fun p c => ?_) (fun p c => ?_)
        · simp [hr,he,hskip p c,hsel p c,enters,refuses,selects]
        · simp [hr,he,hskip p c,hin p c,enters,leaves]
    · exact h.move hw rfl (by simp [hsel]) (by simp [hin])
  | enter i =>
    obtain ⟨p,c,_,hw,_,⟨_,rfl,rfl⟩ | ⟨_,rfl,rfl⟩⟩ := enter_cases hs
    · exact h.move hw rfl (by simp [enters,refuses,selects,List.countP_cons])
        (by simp [enters,leaves,List.countP_cons])
    · exact h.move hw rfl (by simp [enters,refuses,selects,List.countP_cons]) (by simp [enters,leaves])
  | finish i o =>
    obtain ⟨p,c,_,hw,_,rfl,⟨_,_,rfl⟩ | ⟨_,rfl⟩⟩ := finish_cases hs
    · exact h.move hw rfl (by simp [enters,refuses,selects]) (by simp [enters,leaves,List.countP_cons])
    · refine h.move hw rfl ?_ ?_
      · intro q d
        split <;> simp [enters,refuses,selects]
      · intro q d
        split <;> simp [enters,leaves,List.countP_cons]
  | stop =>
    cases hs
    refine h.quiet (fun p c => ?_) (by simp [selects,enters,refuses,leaves])
    simp only [notifyAll, List.countP_map]
    constructor <;> (congr 1; funext w; cases w <;> simp)

theorem ledger_of_runs (hr : (machine F n).Runs P tr pool) : Ledger tr pool := by
  refine hr.invariant (I := fun tr pool => Ledger tr pool) ?_ (fun tr s a t es _ h _ hs => h.step hs)
  rintro _ ⟨st,rfl⟩
  exact ⟨by simp [new],by simp [new]⟩

theorem countP_holds (p : TaskPtr) (ws : List Worker) :
    ws.countP (Worker.holds p) =
      ws.countP (· = .selected p .taskFun) + ws.countP (· = .inside p .taskFun) +
      (ws.countP (· = .selected p .expireFun) + ws.countP (· = .inside p .expireFun)) := by
  induction ws with
  | nil => rfl
  | cons w ws ih =>
    simp only [List.countP_cons, ih]
    cases w with
    | selected q c | inside q c =>
      cases c <;> by_cases h : q = p <;> simp [Worker.holds,h] <;> omega
    | _ => simp [Worker.holds]

def drops (p : TaskPtr) : PoolEvent → Bool
  | .dequeued _ q _ o => q = p ∧ o = none
  | _ => false

/-- Each time a task is dequeued it is selected for one callback or dropped. -/
theorem selects_balance (p : TaskPtr) (tr : List PoolEvent) :
    tr.countP (selects p .taskFun) + tr.countP (selects p .expireFun) + tr.countP (drops p) =
      (dequeuedTasks tr).count p := by
  induction tr with
  | nil => rfl
  | cons e tr ih =>
    change _ = (dequeuedTasks ([e] ++ tr)).count p
    rw [dequeuedTasks_append, List.count_append, ← ih, List.countP_cons, List.countP_cons,
      List.countP_cons]
    cases e with
    | dequeued i q now o =>
      have hq : (dequeuedTasks [.dequeued i q now o]).count p = if q = p then 1 else 0 := by
        simp [dequeuedTasks,fifoOp,List.count_cons]
      rw [hq]
      by_cases h : q = p
      · rcases o with _ | (_ | _) <;> simp [selects,drops,h] <;> omega
      · simp [selects,drops,h]
    | added q => simp [selects,drops,dequeuedTasks,fifoOp]
    | _ => simp [selects,drops,dequeuedTasks,fifoOp,List.filterMap_cons,Fifo.popped]

/-- The balance of one task: how often it is held, over and done, or refused. -/
theorem Ledger.holds_le (h : Ledger tr pool) (p : TaskPtr) :
    pool.workers.countP (Worker.holds p) ≤ (dequeuedTasks tr).count p := by
  have hs := selects_balance p tr
  have h1 := h.selected p .taskFun
  have h2 := h.selected p .expireFun
  have h3 := h.inside p .taskFun
  have h4 := h.inside p .expireFun
  rw [countP_holds]
  omega

def Action.adds : Action F → List TaskPtr
  | .addTask p _ => [p]
  | _ => []

theorem step_added {a : Action F} (hs : step pool a = some (t,es)) : addedTasks es = a.adds := by
  cases a with
  | makeTask p f | makeExpiringTask p f e expiration now =>
    obtain ⟨_,rfl,_⟩ := construct_cases hs
    rfl
  | addTask p k =>
    obtain ⟨_,rfl,_⟩ := addTask_cases hs
    rfl
  | init =>
    obtain ⟨_,rfl,_⟩ := init_cases hs
    rfl
  | spawn i | spurious i =>
    obtain ⟨_,rfl,_⟩ := advance_cases hs
    rfl
  | acquire i now =>
    obtain ⟨_,_,_,hi⟩ := acquire_cases hs
    rcases iterate_cases hi with ⟨_,rfl,_⟩ | ⟨_,rfl,_⟩
    · obtain ⟨ps,_,he⟩ := loop_pops i now pool.taskQueue pool.tasks
      rw [addedTasks, he]
      exact List.filterMap_eq_nil_iff.mpr (fun _ hm => by
        obtain ⟨q,_,rfl⟩ := List.mem_map.mp hm
        rfl)
    · rfl
  | enter i =>
    obtain ⟨_,_,_,_,_,⟨_,rfl,_⟩ | ⟨_,rfl,_⟩⟩ := enter_cases hs
    · rfl
    · rfl
  | finish i o =>
    obtain ⟨_,_,_,_,_,rfl,_⟩ := finish_cases hs
    rfl
  | stop =>
    cases hs
    rfl

/-- Callbacks are entered and left by the steps of their worker alone, and refused where the
task is in another state. -/
theorem step_callbacks {a : Action F} (hs : step pool a = some (t,es)) :
    (∀ i p c, .entered i p c ∈ es → a = .enter i ∧ pool.workers[i]? = some (.selected p c) ∧
      t = { pool with workers := pool.workers.set i (.inside p c) }) ∧
    (∀ i p c o, .left i p c o ∈ es → a = .finish i o ∧ pool.workers[i]? = some (.inside p c)) ∧
    ∀ i p c, .refused i p c ∈ es → pool.workers[i]? = some (.selected p c) ∧
      ∀ u, pool.tasks p = some u → u.accepts c = false := by
  cases a with
  | makeTask q f | makeExpiringTask q f e expiration now =>
    obtain ⟨_,rfl,_⟩ := construct_cases hs
    simp
  | addTask q k =>
    obtain ⟨_,rfl,_⟩ := addTask_cases hs
    simp
  | init =>
    obtain ⟨_,rfl,_⟩ := init_cases hs
    simp
  | spawn j | spurious j =>
    obtain ⟨_,rfl,_⟩ := advance_cases hs
    simp
  | acquire j now =>
    obtain ⟨_,_,_,hi⟩ := acquire_cases hs
    rcases iterate_cases hi with ⟨_,rfl,_⟩ | ⟨_,rfl,_⟩
    · obtain ⟨skipped,_,rfl,⟨_,_,_,he⟩ | ⟨q,d,_,_,_,he,_⟩ | ⟨q,_,_,he,_⟩⟩ :=
        loop_cases j now pool.taskQueue pool.tasks
      all_goals simp [he]
    · simp
  | enter j =>
    obtain ⟨q,d,u,hw,hu,⟨_,rfl,rfl⟩ | ⟨hrefuse,rfl,_⟩⟩ := enter_cases hs
    · refine ⟨fun i p c h => ?_,by simp,by simp⟩
      simp only [List.mem_singleton, PoolEvent.entered.injEq] at h
      obtain ⟨rfl,rfl,rfl⟩ := h
      exact ⟨rfl,hw,rfl⟩
    · refine ⟨by simp,by simp,fun i p c h => ?_⟩
      simp only [List.mem_singleton, PoolEvent.refused.injEq] at h
      obtain ⟨rfl,rfl,rfl⟩ := h
      refine ⟨hw,fun v hv => ?_⟩
      rw [hu] at hv
      cases hv
      exact hrefuse
  | finish j o' =>
    obtain ⟨q,d,_,hw,_,rfl,_⟩ := finish_cases hs
    refine ⟨by simp,fun i p c o h => ?_,by simp⟩
    simp only [List.mem_singleton, PoolEvent.left.injEq] at h
    obtain ⟨rfl,rfl,rfl,rfl⟩ := h
    exact ⟨rfl,hw⟩
  | stop =>
    cases hs
    simp

/-- Only existing objects are queued. -/
theorem added_built {p : TaskPtr} (hr : (machine F n).Runs P tr pool) (hp : p ∈ addedTasks tr) :
    ∃ u, pool.tasks p = some u := by
  refine hr.invariant (I := fun tr pool => ∀ p ∈ addedTasks tr, ∃ u, pool.tasks p = some u)
    (fun _ _ p hp => by cases hp) ?_ p hp
  intro tr pool a t es _ ih _ hs p hp
  have hkeep : ∀ p, (∃ u, pool.tasks p = some u) → ∃ u, t.tasks p = some u := by
    rintro p ⟨u,hu⟩
    obtain ⟨v,hv,_⟩ := step_persists hs p u hu
    exact ⟨v,hv⟩
  rw [addedTasks_append, step_added hs] at hp
  rcases List.mem_append.mp hp with hp | hp
  · exact hkeep p (ih p hp)
  · cases a with
    | addTask q k =>
      obtain rfl := List.mem_singleton.mp hp
      exact hkeep p (Option.isSome_iff_exists.mp (addTask_cases hs).1)
    | _ => cases hp

/-- No worker ever reads a null pointer: queued pointers refer to objects, and an
object with the timeout flag has a deadline. -/
theorem notFaulted (hr : (machine F n).Runs P tr pool) : .faulted ∉ pool.workers := by
  refine hr.invariant (I := fun _ pool => .faulted ∉ pool.workers) ?_ ?_
  · rintro _ ⟨st,rfl⟩
    simp [new]
  · intro tr pool a t es hr ih _ hs
    have hset : ∀ i b, b ≠ .faulted → .faulted ∉ pool.workers.set i b := by
      intro i b hb hm
      rcases List.mem_or_eq_of_mem_set hm with hm | hm
      · exact ih hm
      · exact hb hm.symm
    cases a with
    | makeTask p f | makeExpiringTask p f e expiration now =>
      obtain ⟨_,_,rfl⟩ := construct_cases hs
      exact ih
    | addTask p k =>
      obtain ⟨_,_,_,rfl,⟨rfl,_⟩ | ⟨_,rfl⟩⟩ := addTask_cases hs
      · exact ih
      · exact hset _ _ (by simp)
    | init =>
      obtain ⟨_,_,rfl⟩ := init_cases hs
      exact fun hm => absurd (List.eq_of_mem_replicate hm) (by simp)
    | spawn i | spurious i =>
      obtain ⟨_,_,rfl⟩ := advance_cases hs
      exact hset _ _ (by simp)
    | acquire i now =>
      obtain ⟨_,_,_,hi⟩ := acquire_cases hs
      rcases iterate_cases hi with ⟨_,_,rfl⟩ | ⟨_,_,rfl⟩
      · obtain ⟨skipped,_,_,⟨hw,_⟩ | ⟨p,c,_,hw,_⟩ | ⟨p,_,hq,_,hnull⟩⟩ :=
          loop_cases i now pool.taskQueue pool.tasks
        · exact hset _ _ (by simp [hw])
        · exact hset _ _ (by simp [hw])
        · have hmem : p ∈ pool.taskQueue := hq ▸ by simp
          obtain ⟨u,hu⟩ := added_built hr (added_eq hr ▸ List.mem_append_right _ hmem)
          obtain ⟨v,hv,_⟩ := loop_persists i now pool.taskQueue pool.tasks p u hu
          simp [hnull] at hv
      · exact hset _ _ (by simp)
    | enter i =>
      obtain ⟨_,_,_,_,_,⟨_,_,rfl⟩ | ⟨_,_,rfl⟩⟩ := enter_cases hs
      · exact hset _ _ (by simp)
      · exact hset _ _ (by simp)
    | finish i o =>
      obtain ⟨_,_,_,_,_,_,⟨_,_,rfl⟩ | ⟨_,rfl⟩⟩ := finish_cases hs
      · exact hset _ _ (by simp)
      · exact hset _ _ (by split <;> simp)
    | stop =>
      cases hs
      intro hm
      obtain ⟨w,hw,he⟩ := List.mem_map.mp hm
      split at he
      · cases he
      · exact ih (he ▸ hw)

section Fresh

/-- No task object is given to `AddTask` twice. -/
def FreshAdds (tr : List PoolEvent) (_ : ThreadPool F) (a : Action F) : Prop :=
  ∀ p k, a = .addTask p k → p ∉ addedTasks tr

theorem nodup_added (hr : (machine F n).Runs FreshAdds tr pool) : (addedTasks tr).Nodup := by
  refine hr.invariant (I := fun tr _ => (addedTasks tr).Nodup) (fun _ _ => List.nodup_nil) ?_
  intro tr pool a t es hr ih hfresh hs
  rw [addedTasks_append, step_added hs]
  cases a with
  | addTask p k =>
    refine List.nodup_append.mpr ⟨ih,List.nodup_singleton p,?_⟩
    rintro q hq _ hm rfl
    exact hfresh p k rfl (List.mem_singleton.mp hm ▸ hq)
  | _ => simpa [Action.adds] using ih

/-- What `FreshAdds` gives: tasks are untouched until they are dequeued, workers
hold tasks in the state that `Run` and `ExpireRun` expect, and the choice made at
the dequeue is the one the deadline asks for. -/
structure FreshInv (tr : List PoolEvent) (pool : ThreadPool F) : Prop where
  waiting : ∀ p u, pool.tasks p = some u → p ∉ dequeuedTasks tr → u.state = .waiting
  agrees : ∀ w ∈ pool.workers, ∀ p c, w.work = some (p,c) →
    ∃ u, pool.tasks p = some u ∧ u.accepts c = true
  refused : ∀ i p c, .refused i p c ∉ tr
  chosen : ∀ i p now o, .dequeued i p now o ∈ tr → ∃ u c, pool.tasks p = some u ∧ o = some c ∧
    (c = .expireFun ↔ u.Late now)

theorem work_holds {w : Worker} {p : TaskPtr} {c : Callback} (h : w.work = some (p,c)) :
    w.holds p = true := by
  cases w with
  | selected q d | inside q d =>
    cases h
    simp [Worker.holds]
  | _ => cases h

theorem held_dequeued {w : Worker} {p : TaskPtr} {c : Callback} (h : Ledger tr pool)
    (hw : w ∈ pool.workers) (hp : w.work = some (p,c)) : p ∈ dequeuedTasks tr := by
  have hpos : 0 < pool.workers.countP (Worker.holds p) :=
    List.countP_pos_iff.mpr ⟨w,hw,work_holds hp⟩
  exact List.count_pos_iff.mp (hpos.trans_le (h.holds_le p))

theorem held_once {w v : Worker} {j : ℕ} {p : TaskPtr} {c d : Callback} (h : Ledger tr pool)
    (hn : (dequeuedTasks tr).Nodup) (hw : pool.workers[i]? = some w) (hv : pool.workers[j]? = some v)
    (hp : w.work = some (p,c)) (hq : v.work = some (p,d)) : i = j := by
  by_contra hij
  have htwo := Roster.two_le_countP hij hw hv (work_holds hp) (work_holds hq)
  have hone := (h.holds_le p).trans (List.nodup_iff_count_le_one.mp hn p)
  omega

/-- Steps that leave the task objects alone. -/
theorem FreshInv.frame (h : FreshInv tr pool) (ht : t.tasks = pool.tasks)
    (hw : ∀ w ∈ t.workers, ∀ p c, w.work = some (p,c) → ∃ v ∈ pool.workers, v.work = some (p,c))
    (hes : ∀ e ∈ es, (∀ i p c, e ≠ .refused i p c) ∧ ∀ i p now o, e ≠ .dequeued i p now o) :
    FreshInv (tr ++ es) t := by
  refine ⟨?_,?_,?_,?_⟩
  · intro p u hp hd
    refine h.waiting p u (ht ▸ hp) (fun hm => hd ?_)
    rw [dequeuedTasks_append]
    exact List.mem_append_left _ hm
  · intro w hmem p c hp
    obtain ⟨v,hv,hvp⟩ := hw w hmem p c hp
    rw [ht]
    exact h.agrees v hv p c hvp
  · intro i p c hm
    rcases List.mem_append.mp hm with hm | hm
    · exact h.refused i p c hm
    · exact (hes _ hm).1 i p c rfl
  · intro i p now o hm
    rw [ht]
    rcases List.mem_append.mp hm with hm | hm
    · exact h.chosen i p now o hm
    · exact ((hes _ hm).2 i p now o rfl).elim

/-- The same when one thread moves to a point where it holds what it held before. -/
theorem FreshInv.move {w b : Worker} (h : FreshInv tr pool) (hw : pool.workers[i]? = some w)
    (hb : b.work = none ∨ b.work = w.work) (ht : t.tasks = pool.tasks)
    (htw : t.workers = pool.workers.set i b)
    (hes : ∀ e ∈ es, (∀ i p c, e ≠ .refused i p c) ∧ ∀ i p now o, e ≠ .dequeued i p now o) :
    FreshInv (tr ++ es) t := by
  refine h.frame ht (fun v hv p c hp => ?_) hes
  rw [htw] at hv
  rcases List.mem_or_eq_of_mem_set hv with hv | rfl
  · exact ⟨v,hv,hp⟩
  · rcases hb with hb | hb
    · rw [hb] at hp
      cases hp
    · exact ⟨w,List.mem_of_getElem? hw,hb ▸ hp⟩

/-- A section that meets a waiting task marks it by its deadline and selects it. -/
theorem loop_waiting (i : ℕ) (now : TimePoint) {p : TaskPtr} (queue : List TaskPtr) {u : Task F}
    {tasks : TaskPtr → Option (Task F)} (hp : tasks p = some u) (hu : u.state = .waiting) :
    ∃ v c, u.SameWork v ∧ v.accepts c = true ∧ (c = .expireFun ↔ u.Late now) ∧
      loop i now (p :: queue) tasks = ⟨Function.update tasks p (some v),queue,.selected p c,
        [.dequeued i p now (some c)]⟩ := by
  cases hm : u.mark now with
  | none => exact absurd hm (u.mark_ne_none now)
  | some v =>
    rcases u.mark_waiting hu hm with ⟨hl,hs,ha⟩ | ⟨hl,hs,ha⟩
    · exact ⟨v,.expireFun,u.mark_sameWork hm,ha,by simp [hl],by simp [loop,hp,hm,hs]⟩
    · exact ⟨v,.taskFun,u.mark_sameWork hm,ha,by simp [hl],by simp [loop,hp,hm,hs]⟩

theorem FreshInv.construct {p : TaskPtr} {task : Task F} (h : FreshInv tr pool)
    (hp : pool.tasks p = none) (htask : task.state = .waiting) :
    FreshInv tr { pool with tasks := Function.update pool.tasks p (some task) } := by
  have hold : ∀ q u, pool.tasks q = some u → Function.update pool.tasks p (some task) q = some u := by
    intro q u hq
    rw [Function.update_of_ne (by rintro rfl; simp [hp] at hq), hq]
  refine ⟨?_,?_,h.refused,?_⟩
  · intro q u hq hd
    by_cases hqp : q = p
    · subst hqp
      simp only [Function.update_self, Option.some.injEq] at hq
      exact hq ▸ htask
    · simp only [Function.update_of_ne hqp] at hq
      exact h.waiting q u hq hd
  · intro w hw q c hq
    obtain ⟨u,hu,ha⟩ := h.agrees w hw q c hq
    exact ⟨u,hold q u hu,ha⟩
  · intro i q now o hm
    obtain ⟨u,c,hu,ho⟩ := h.chosen i q now o hm
    exact ⟨u,c,hold q u hu,ho⟩

/-- A worker takes the head of the queue. -/
theorem FreshInv.dequeue {w : Worker} {now : TimePoint} {p : TaskPtr} {u v : Task F} {c : Callback}
    (h : FreshInv tr pool) (queue : List TaskPtr) (hl : Ledger tr pool)
    (hw : pool.workers[i]? = some w) (hfresh : p ∉ dequeuedTasks tr) (hu : pool.tasks p = some u)
    (huv : u.SameWork v) (ha : v.accepts c = true) (hc : c = .expireFun ↔ u.Late now) :
    FreshInv (tr ++ [.dequeued i p now (some c)]) { pool with
      tasks := Function.update pool.tasks p (some v)
      taskQueue := queue
      workers := pool.workers.set i (.selected p c) } := by
  refine ⟨?_,?_,?_,?_⟩
  · intro q r hq hd
    rw [dequeuedTasks_append, List.mem_append, not_or] at hd
    have hqp : q ≠ p := fun hqp => hd.2 (hqp ▸ List.mem_singleton.mpr rfl)
    simp only [Function.update_of_ne hqp] at hq
    exact h.waiting q r hq hd.1
  · intro b hb q d hq
    rcases List.mem_or_eq_of_mem_set hb with hb | rfl
    · have hqp : q ≠ p := fun hqp => hfresh (hqp ▸ held_dequeued hl hb hq)
      simp only [Function.update_of_ne hqp]
      exact h.agrees b hb q d hq
    · cases hq
      exact ⟨v,by simp,ha⟩
  · intro j q d hm
    rcases List.mem_append.mp hm with hm | hm
    · exact h.refused j q d hm
    · simp at hm
  · intro j q now' o hm
    rcases List.mem_append.mp hm with hm | hm
    · obtain ⟨r,d,hr,ho,hd⟩ := h.chosen j q now' o hm
      obtain ⟨r',hr',hsame⟩ := persists_update hu huv q r hr
      exact ⟨r',d,hr',ho,hd.trans hsame.late.symm⟩
    · simp only [List.mem_singleton, PoolEvent.dequeued.injEq] at hm
      obtain ⟨rfl,rfl,rfl,rfl⟩ := hm
      exact ⟨v,c,by simp,rfl,hc.trans huv.late.symm⟩

/-- A callable returns and the task it belongs to is complete. -/
theorem FreshInv.complete {p : TaskPtr} {c : Callback} {task : Task F} (h : FreshInv tr pool)
    (hl : Ledger tr pool) (hn : (dequeuedTasks tr).Nodup)
    (hw : pool.workers[i]? = some (.inside p c)) (htask : pool.tasks p = some task) :
    FreshInv (tr ++ [.left i p c .returned]) { pool with
      tasks := Function.update pool.tasks p (some task.finished)
      workers := pool.workers.set i .relock } := by
  have hd : p ∈ dequeuedTasks tr := held_dequeued hl (List.mem_of_getElem? hw) rfl
  refine ⟨?_,?_,?_,?_⟩
  · intro q r hq hnd
    rw [dequeuedTasks_append, List.mem_append, not_or] at hnd
    have hqp : q ≠ p := fun hqp => hnd.1 (hqp ▸ hd)
    simp only [Function.update_of_ne hqp] at hq
    exact h.waiting q r hq hnd.1
  · intro b hb q d hq
    obtain ⟨j,hjt⟩ := List.getElem?_of_mem hb
    rcases Roster.getElem?_set_cases hjt with ⟨_,rfl⟩ | ⟨hij,hj⟩
    · cases hq
    · have hqp : q ≠ p := by
        rintro rfl
        exact hij (held_once hl hn hw hj rfl hq)
      simp only [Function.update_of_ne hqp]
      exact h.agrees b (List.mem_of_getElem? hj) q d hq
  · intro j q d hm
    rcases List.mem_append.mp hm with hm | hm
    · exact h.refused j q d hm
    · simp at hm
  · intro j q now o hm
    rcases List.mem_append.mp hm with hm | hm
    · obtain ⟨r,d,hr,ho,hlate⟩ := h.chosen j q now o hm
      obtain ⟨r',hr',hsame⟩ := persists_update htask task.sameWork_finished q r hr
      exact ⟨r',d,hr',ho,hlate.trans hsame.late.symm⟩
    · simp at hm

theorem nodup_dequeued (hr : (machine F n).Runs FreshAdds tr pool) :
    (dequeuedTasks tr ++ pool.taskQueue).Nodup :=
  added_eq hr ▸ nodup_added hr

theorem FreshInv.step {a : Action F} (hr : (machine F n).Runs FreshAdds tr pool)
    (h : FreshInv tr pool) (hs : step pool a = some (t,es)) : FreshInv (tr ++ es) t := by
  have hl := ledger_of_runs hr
  obtain ⟨hn,_,hdisj⟩ := List.nodup_append.mp (nodup_dequeued hr)
  cases a with
  | makeTask p f | makeExpiringTask p f e expiration now =>
    obtain ⟨hp,rfl,rfl⟩ := construct_cases hs
    simpa using h.construct hp rfl
  | addTask p k =>
    obtain ⟨_,rfl,_,rfl,⟨rfl,_⟩ | ⟨hk,rfl⟩⟩ := addTask_cases hs
    · exact h.frame rfl (fun w hw p c hp => ⟨w,hw,hp⟩) (by simp)
    · exact h.move hk (Or.inl rfl) rfl rfl (by simp)
  | init =>
    obtain ⟨_,rfl,rfl⟩ := init_cases hs
    refine h.frame rfl (fun w hw p c hp => ?_) (by simp)
    rw [List.eq_of_mem_replicate hw] at hp
    cases hp
  | spawn i | spurious i =>
    obtain ⟨hw,rfl,rfl⟩ := advance_cases hs
    exact h.move hw (Or.inl rfl) rfl rfl (by simp)
  | acquire i now =>
    obtain ⟨w,hw,_,hi⟩ := acquire_cases hs
    rcases iterate_cases hi with ⟨_,rfl,rfl⟩ | ⟨_,rfl,rfl⟩
    · dsimp only
      cases hq : pool.taskQueue with
      | nil => exact h.move hw (Or.inl rfl) rfl rfl (by simp [loop])
      | cons p queue =>
        have hmem : p ∈ pool.taskQueue := hq ▸ List.mem_cons_self
        obtain ⟨u,hu⟩ := added_built hr (added_eq hr ▸ List.mem_append_right _ hmem)
        have hfresh : p ∉ dequeuedTasks tr := fun hd => hdisj p hd p hmem rfl
        obtain ⟨v,c,huv,ha,hc,hloop⟩ := loop_waiting i now queue hu (h.waiting p u hu hfresh)
        rw [hloop]
        exact { h.dequeue queue hl hw hfresh hu huv ha hc with }
    · exact h.move hw (Or.inl rfl) rfl rfl (by simp)
  | enter i =>
    obtain ⟨p,c,task,hw,htask,⟨_,rfl,rfl⟩ | ⟨hrefuse,_,_⟩⟩ := enter_cases hs
    · exact h.move (b := .inside p c) hw (Or.inr rfl) rfl rfl (by simp)
    · obtain ⟨u,hu,ha⟩ := h.agrees _ (List.mem_of_getElem? hw) p c rfl
      rw [htask] at hu
      cases hu
      simp [ha] at hrefuse
  | finish i o =>
    obtain ⟨p,c,task,hw,htask,rfl,⟨rfl,_,rfl⟩ | ⟨rfl,rfl⟩⟩ := finish_cases hs
    · exact h.complete hl hn hw htask
    · exact h.move hw (Or.inl (by split <;> rfl)) rfl rfl (by simp)
  | stop =>
    cases hs
    refine h.frame rfl (fun w hw p c hp => ?_) (by simp)
    obtain ⟨v,hv,hvw⟩ := List.mem_map.mp hw
    split at hvw
    · rw [← hvw] at hp
      cases hp
    · exact ⟨v,hv,hvw ▸ hp⟩

theorem freshInv_of_runs (hr : (machine F n).Runs FreshAdds tr pool) : FreshInv tr pool := by
  refine hr.invariant (I := fun tr pool => FreshInv tr pool) ?_
    (fun tr s a t es hr h _ hs => h.step hr hs)
  rintro _ ⟨st,rfl⟩
  exact ⟨by simp [new],by simp [new],by simp,by simp⟩

theorem dropped_none {p : TaskPtr} (h : FreshInv tr pool) : tr.countP (drops p) = 0 := by
  refine List.countP_eq_zero.mpr (fun e he hd => ?_)
  cases e with
  | dequeued i q now o =>
    obtain ⟨_,c,_,rfl,_⟩ := h.chosen i q now o he
    simp [drops] at hd
  | _ => cases hd

theorem refuses_none {p : TaskPtr} {c : Callback} (h : FreshInv tr pool) :
    tr.countP (refuses p c) = 0 := by
  refine List.countP_eq_zero.mpr (fun e he hd => ?_)
  cases e with
  | refused i q d => exact h.refused i q d he
  | _ => cases hd

theorem selects_pos {p : TaskPtr} {c : Callback} :
    0 < tr.countP (selects p c) ↔ ∃ i now, .dequeued i p now (some c) ∈ tr := by
  rw [List.countP_pos_iff]
  constructor
  · rintro ⟨e,he,hs⟩
    cases e with
    | dequeued i q now o =>
      simp only [selects, decide_eq_true_eq] at hs
      obtain ⟨rfl,rfl⟩ := hs
      exact ⟨i,now,he⟩
    | _ => cases hs
  · rintro ⟨i,now,he⟩
    exact ⟨_,he,by simp [selects]⟩

/-- The other callback of a task. -/
def other : Callback → Callback
  | .taskFun => .expireFun
  | .expireFun => .taskFun

/-- A dequeued task is selected once, for one of its callbacks. -/
theorem selected_once {p : TaskPtr} (hr : (machine F n).Runs FreshAdds tr pool)
    (hp : p ∈ dequeuedTasks tr) :
    ∃ c, tr.countP (selects p c) = 1 ∧ tr.countP (selects p (other c)) = 0 := by
  have hn := (List.nodup_append.mp (nodup_dequeued hr)).1
  have hbal := selects_balance p tr
  rw [dropped_none (freshInv_of_runs hr), List.count_eq_one_of_mem hn hp] at hbal
  by_cases h : tr.countP (selects p .taskFun) = 1
  · exact ⟨.taskFun,h,by simp only [other]; omega⟩
  · exact ⟨.expireFun,by omega,by simp only [other]; omega⟩

/-- At most one callback of a task is entered, and only after it was selected. -/
theorem enters_le_one (hr : (machine F n).Runs FreshAdds tr pool) (p : TaskPtr) :
    tr.countP (enters p .taskFun) + tr.countP (enters p .expireFun) ≤ 1 := by
  have hl := ledger_of_runs hr
  have hbal := selects_balance p tr
  have hone := List.nodup_iff_count_le_one.mp (List.nodup_append.mp (nodup_dequeued hr)).1 p
  have h1 := hl.selected p .taskFun
  have h2 := hl.selected p .expireFun
  omega

theorem enters_pos {p : TaskPtr} {c : Callback} (h : .entered i p c ∈ tr) :
    0 < tr.countP (enters p c) := List.countP_pos_iff.mpr ⟨_,h,by simp [enters]⟩

theorem entered_dequeued {p : TaskPtr} {c : Callback} (hr : (machine F n).Runs P tr pool)
    (h : .entered i p c ∈ tr) : ∃ j now, .dequeued j p now (some c) ∈ tr := by
  have hsel := (ledger_of_runs hr).selected p c
  have hpos := enters_pos h
  exact selects_pos.mp (by omega)

theorem entered_added {p : TaskPtr} {c : Callback} (hr : (machine F n).Runs P tr pool)
    (h : .entered i p c ∈ tr) : p ∈ addedTasks tr := by
  obtain ⟨j,now,hdeq⟩ := entered_dequeued hr h
  rw [added_eq hr]
  exact List.mem_append_left _ (mem_dequeuedTasks.mpr ⟨j,now,_,hdeq⟩)

/-- The choice between the callbacks of a task is made once. -/
theorem selected_unique {p : TaskPtr} {j : ℕ} {now now' : TimePoint} {c d : Callback}
    (hr : (machine F n).Runs FreshAdds tr pool) (hc : .dequeued i p now (some c) ∈ tr)
    (hd : .dequeued j p now' (some d) ∈ tr) : c = d := by
  have hbal := selects_balance p tr
  have hone := List.nodup_iff_count_le_one.mp (List.nodup_append.mp (nodup_dequeued hr)).1 p
  have h1 := selects_pos.mpr ⟨i,now,hc⟩
  have h2 := selects_pos.mpr ⟨j,now',hd⟩
  cases c <;> cases d <;> first | rfl | omega

/-- A dequeued task that no worker holds has had its callback entered and left. -/
theorem dequeued_left {p : TaskPtr} (hr : (machine F n).Runs FreshAdds tr pool)
    (hp : p ∈ dequeuedTasks tr) (hidle : ∀ w ∈ pool.workers, w.work = none) :
    ∃ i j c o, .entered i p c ∈ tr ∧ .left j p c o ∈ tr := by
  obtain ⟨c,hone,_⟩ := selected_once hr hp
  have hl := ledger_of_runs hr
  have hsel := hl.selected p c
  have hin := hl.inside p c
  have h1 : pool.workers.countP (· = .selected p c) = 0 := List.countP_eq_zero.mpr (fun w hw he => by
    have hnone := hidle w hw
    simp only [decide_eq_true_eq] at he
    simp [he,Worker.work] at hnone)
  have h2 : pool.workers.countP (· = .inside p c) = 0 := List.countP_eq_zero.mpr (fun w hw he => by
    have hnone := hidle w hw
    simp only [decide_eq_true_eq] at he
    simp [he,Worker.work] at hnone)
  have hrefuses := refuses_none (p := p) (c := c) (freshInv_of_runs hr)
  obtain ⟨e,he,hent⟩ := List.countP_pos_iff.mp (show 0 < tr.countP (enters p c) by omega)
  obtain ⟨f,hf,hleft⟩ := List.countP_pos_iff.mp (show 0 < tr.countP (leaves p c) by omega)
  cases e with
  | entered i q d =>
    simp only [enters, decide_eq_true_eq] at hent
    obtain ⟨rfl,rfl⟩ := hent
    cases f with
    | left j q' d' o =>
      simp only [leaves, decide_eq_true_eq] at hleft
      obtain ⟨rfl,rfl⟩ := hleft
      exact ⟨i,j,_,o,he,hf⟩
    | _ => cases hleft
  | _ => cases hent

/-- A task is not entered while it is inside or after it was left. -/
theorem left_not_inside {p : TaskPtr} {j : ℕ} {c d : Callback} {o : Outcome}
    (hr : (machine F n).Runs FreshAdds tr pool) (h : .left i p c o ∈ tr) :
    pool.workers[j]? ≠ some (.inside p d) := by
  intro hj
  have hl := ledger_of_runs hr
  have hone := enters_le_one hr p
  have hleft : 0 < tr.countP (leaves p c) := List.countP_pos_iff.mpr ⟨_,h,by simp [leaves]⟩
  have hin : 0 < pool.workers.countP (· = .inside p d) :=
    List.countP_pos_iff.mpr ⟨_,List.mem_of_getElem? hj,by simp⟩
  have hc := hl.inside p c
  have hd := hl.inside p d
  cases c <;> cases d <;> omega

/-- For every run in which each task object is added once: the tasks leave the queue
in the order of the calls of `AddTask`, and none is lost or repeated; a dequeued task
is with exactly one worker or its callback has ended; one callback is selected for
it, by its deadline and the clock at the dequeue, and that one is entered at most
once and the other never; and no null deadline is read. -/
theorem fifo_exactly_once (hr : (machine F n).Runs FreshAdds tr pool) :
    addedTasks tr = dequeuedTasks tr ++ pool.taskQueue ∧
    (∀ p ∈ dequeuedTasks tr, ∃ c,
      (pool.workers.countP (Worker.holds p) = 1 ∧ tr.countP (leaves p c) = 0 ∨
        pool.workers.countP (Worker.holds p) = 0 ∧ tr.countP (leaves p c) = 1) ∧
      tr.countP (selects p c) = 1 ∧ tr.countP (enters p c) ≤ 1 ∧
      tr.countP (selects p (other c)) = 0 ∧ tr.countP (enters p (other c)) = 0 ∧
      ∃ i now u, .dequeued i p now (some c) ∈ tr ∧ pool.tasks p = some u ∧
        (c = .expireFun ↔ u.Late now)) ∧
    .faulted ∉ pool.workers := by
  have h := freshInv_of_runs hr
  have hl := ledger_of_runs hr
  refine ⟨added_eq hr,fun p hp => ?_,?_⟩
  · obtain ⟨c,hone,hzero⟩ := selected_once hr hp
    have hc1 := hl.selected p c
    have hc2 := hl.inside p c
    have ho1 := hl.selected p (other c)
    have ho2 := hl.inside p (other c)
    have hholds : pool.workers.countP (Worker.holds p) =
        pool.workers.countP (· = .selected p c) + pool.workers.countP (· = .inside p c) +
        (pool.workers.countP (· = .selected p (other c)) +
          pool.workers.countP (· = .inside p (other c))) := by
      rw [countP_holds]
      cases c
      · rfl
      · exact Nat.add_comm _ _
    rw [refuses_none h] at hc1 ho1
    obtain ⟨i,now,hmem⟩ := selects_pos.mp (hone ▸ Nat.one_pos)
    obtain ⟨u,d,hu,hd,hlate⟩ := h.chosen i p now (some c) hmem
    cases hd
    exact ⟨c,by omega,hone,by omega,hzero,by omega,i,now,u,hmem,hu,hlate⟩
  · exact notFaulted hr

def checkFresh (tr : List PoolEvent) (_ : ThreadPool F) : Action F → Bool
  | .addTask p _ => p ∉ addedTasks tr
  | _ => true

theorem checkFresh_sound (tr : List PoolEvent) (pool : ThreadPool F) (a : Action F)
    (h : checkFresh tr pool a = true) : FreshAdds tr pool a := by
  rintro p k rfl
  simpa [checkFresh] using h

/-- One task runs to its end, and a second one is found late and still runs. -/
theorem fifo_exactly_once_two_tasks : ∃ tr, ∃ pool : ThreadPool Unit,
    (machine Unit .two).Runs FreshAdds tr pool ∧ pool.workers = [.inside 1 .expireFun,.start] ∧
    dequeuedTasks tr = [0,1] ∧ pool.taskQueue = [] ∧
    (∀ p ∈ dequeuedTasks tr, ∃ c, tr.countP (selects p c) = 1 ∧ tr.countP (enters p c) ≤ 1) ∧
    .faulted ∉ pool.workers := by
  have hrun : ∃ c, (machine Unit .two).replay checkFresh
      [.makeTask 0 (some ()),.makeExpiringTask 1 (some ()) (some ()) 5 100,.addTask 0 0,.init,
        .spawn 0,.spawn 1,.addTask 1 0,.acquire 0 50,.enter 0,.finish 0 .returned,
        .acquire 0 5000101,.enter 0]
      ([],new .two .unknowing) = some c ∧ c.2.workers = [.inside 1 .expireFun,.start] ∧
      dequeuedTasks c.1 = [0,1] ∧ c.2.taskQueue = [] :=
    ⟨_,rfl,rfl,rfl,rfl⟩
  obtain ⟨⟨tr,pool⟩,hc,hw,hd,hq⟩ := hrun
  have hr := Machine.replay_runs checkFresh_sound (runs_new .two .unknowing) hc
  obtain ⟨_,hone,hfault⟩ := fifo_exactly_once hr
  refine ⟨tr,pool,hr,hw,hd,hq,fun p hp => ?_,hfault⟩
  obtain ⟨c,_,hs,he,_⟩ := hone p hp
  exact ⟨c,hs,he⟩

end Fresh

end Kbms.ThreadPool
