import Kbms.Concurrency.PoolHistory

/-! # The life cycle of a task

The state of a task only moves forward, however often the task is queued. That its work
is entered once is another matter: a worker goes on with a task that it finds `EXECUTING`
or `TIMEDOUT`, although another worker may be inside it or its callback may have thrown.
-/
namespace Kbms
open Foundation

/-- The moves of `state_`. -/
inductive TaskState.Moves : TaskState → TaskState → Prop
  | execute : Moves .waiting .executing
  | timeOut : Moves .waiting .timedOut
  | executed : Moves .executing .complete
  | expired : Moves .timedOut .complete

def TaskState.Forward (a b : TaskState) : Prop := b = a ∨ Moves a b

theorem TaskState.Forward.started {a b : TaskState} (h : Forward a b) (ha : a ≠ .waiting) : b ≠ .waiting := by
  rcases h with rfl | h
  · exact ha
  · cases h <;> simp

namespace Task
variable {F : Type*} {t u : Task F} {now : TimePoint} {c : Callback}

theorem forward_finished (h : t.state ≠ .waiting) : TaskState.Forward t.state t.finished.state := by
  cases ht : t.state with
  | waiting => exact absurd ht h
  | executing => exact Or.inr .executed
  | timedOut => exact Or.inr .expired
  | complete => exact Or.inl rfl

theorem mark_forward (h : t.mark now = some u) : TaskState.Forward t.state u.state := by
  unfold mark at h
  split at h
  · rename_i hw
    obtain ⟨late,_,rfl⟩ := Option.map_eq_some_iff.mp h
    rw [hw]
    cases late with
    | true => exact Or.inr .timeOut
    | false => exact Or.inr .execute
  · cases h
    exact Or.inl rfl

theorem mark_started (hw : t.state ≠ .waiting) (h : t.mark now = some u) : u = t := by
  rw [mark, if_neg hw] at h
  exact (Option.some.inj h).symm

theorem selected_started (h : t.selected = some c) : t.state ≠ .waiting ∧ t.accepts c = true := by
  unfold selected at h
  split at h
  · rename_i he
    cases h
    exact ⟨by simp [he],by simp [accepts,he]⟩
  · split at h
    · rename_i he
      cases h
      simp only [Bool.and_eq_true, decide_eq_true_eq] at he
      exact ⟨by simp [he.1],by simp [accepts,he.1]⟩
    · cases h

/-- Neither branch of the worker applies, also after the marking. -/
def dropped (t : Task F) : Bool := t.state ≠ .waiting && t.selected.isNone

/-- Only tasks that the marking left alone are dropped. -/
theorem dropped_of_mark (h : t.mark now = some u) (hs : u.selected = none) : u = t ∧ t.dropped = true := by
  have hw : t.state ≠ .waiting := by
    intro hw
    rcases mark_waiting hw h with ⟨_,hsel,_⟩ | ⟨_,hsel,_⟩
    · rw [hs] at hsel
      cases hsel
    · rw [hs] at hsel
      cases hsel
  obtain rfl := mark_started hw h
  exact ⟨rfl,by simp [dropped,hw,hs]⟩

end Task

namespace ThreadPool
variable {F : Type*} {n : ThreadNum} {pool t : ThreadPool F} {tr es : List PoolEvent} {i : ℕ} {p : TaskPtr}
variable {P : List PoolEvent → ThreadPool F → Action F → Prop}

/-- The task a worker takes for work: the first of the queue that it does not drop. -/
def nextTask (queue : List TaskPtr) (tasks : TaskPtr → Option (Task F)) : Option TaskPtr :=
  queue.find? (fun p => (tasks p).any (fun u => !u.dropped))

/-- A section changes one task at most: the next one, which it marks and selects. -/
theorem loop_choice (i : ℕ) (now : TimePoint) (queue : List TaskPtr) (tasks : TaskPtr → Option (Task F)) :
    ((loop i now queue tasks).tasks = tasks ∧ (∀ p c, (loop i now queue tasks).worker ≠ .selected p c) ∧
      ((loop i now queue tasks).worker = .faulted ∨ nextTask queue tasks = none)) ∨
    ∃ p c u v, (loop i now queue tasks).worker = .selected p c ∧ nextTask queue tasks = some p ∧
      tasks p = some u ∧ u.mark now = some v ∧ v.selected = some c ∧
      (loop i now queue tasks).tasks = Function.update tasks p (some v) := by
  induction queue with
  | nil => exact Or.inl ⟨rfl,(fun p c hw => by cases hw),Or.inr rfl⟩
  | cons p queue ih =>
    rw [loop]
    cases hm : (tasks p).bind (fun t => t.mark now) with
    | none => exact Or.inl ⟨rfl,(fun q c hw => by cases hw),Or.inl rfl⟩
    | some v =>
      obtain ⟨u,hu,huv⟩ := Option.bind_eq_some_iff.mp hm
      dsimp only
      cases hsel : v.selected with
      | some c =>
        refine Or.inr ⟨p,c,u,v,rfl,?_,hu,huv,hsel,rfl⟩
        have hkept : u.dropped = false := by
          by_cases hw : u.state = .waiting
          · simp [Task.dropped,hw]
          · obtain rfl := Task.mark_started hw huv
            simp [Task.dropped,hsel]
        rw [nextTask, List.find?_cons, hu, Option.any_some, hkept]
        rfl
      | none =>
        obtain ⟨rfl,hdrop⟩ := Task.dropped_of_mark huv hsel
        have hsame : Function.update tasks p (some v) = tasks := by
          rw [← hu]
          exact Function.update_eq_self p tasks
        have hnext : nextTask (p :: queue) tasks = nextTask queue tasks := by
          rw [nextTask, List.find?_cons, hu, Option.any_some, hdrop]
          rfl
        rw [hsame, hnext]
        exact ih

theorem loop_selects (i : ℕ) (now : TimePoint) (queue : List TaskPtr) (tasks : TaskPtr → Option (Task F))
    (p : TaskPtr) (c : Callback) :
    (loop i now queue tasks).events.countP (selects p c) =
      if (loop i now queue tasks).worker = .selected p c then 1 else 0 := by
  obtain ⟨skipped,_,rfl,⟨hw,_,_,he⟩ | ⟨q,d,_,hw,_,he,_⟩ | ⟨q,hw,_,he,_⟩⟩ := loop_cases i now queue tasks
  all_goals
    have hskip : (skipped.map (fun p => PoolEvent.dequeued i p now none)).countP (selects p c) = 0 := by
      simp [List.countP_eq_zero,selects]
    rw [he, hw]
    simp [hskip,selects,List.countP_cons]

/-- How often a task was selected for one of its callbacks. -/
def selections (p : TaskPtr) (tr : List PoolEvent) : ℕ :=
  tr.countP (selects p .taskFun) + tr.countP (selects p .expireFun)

def entries (p : TaskPtr) (tr : List PoolEvent) : ℕ :=
  tr.countP (enters p .taskFun) + tr.countP (enters p .expireFun)

theorem selections_append (p : TaskPtr) (tr es : List PoolEvent) :
    selections p (tr ++ es) = selections p tr + selections p es := by
  rw [selections, selections, selections, List.countP_append, List.countP_append]
  omega

theorem entries_append (p : TaskPtr) (tr es : List PoolEvent) :
    entries p (tr ++ es) = entries p tr + entries p es := by
  rw [entries, entries, entries, List.countP_append, List.countP_append]
  omega

/-- What a step does to the objects and the selections: a new object; a section that
selects the next task; a callback that returns; or nothing. -/
theorem step_tasks {a : Action F} (h : step pool a = some (t,es)) :
    (∃ p u, pool.tasks p = none ∧ u.state = .waiting ∧ t.tasks = Function.update pool.tasks p (some u) ∧
      t.workers = pool.workers ∧ es = []) ∨
    (∃ i now p c u v, a = .acquire i now ∧ pool.state = .run ∧ nextTask pool.taskQueue pool.tasks = some p ∧
      pool.tasks p = some u ∧ u.mark now = some v ∧ v.selected = some c ∧
      t.tasks = Function.update pool.tasks p (some v) ∧ t.workers = pool.workers.set i (.selected p c) ∧
      ∀ q d, es.countP (selects q d) = if p = q ∧ c = d then 1 else 0) ∨
    (∃ i p c u, pool.workers[i]? = some (.inside p c) ∧ pool.tasks p = some u ∧
      t.tasks = Function.update pool.tasks p (some u.finished) ∧ t.workers = pool.workers.set i .relock ∧
      es = [.left i p c .returned]) ∨
    (t.tasks = pool.tasks ∧ (∀ q d, es.countP (selects q d) = 0) ∧
      ∀ w ∈ t.workers, ∀ q d, w = .selected q d → w ∈ pool.workers) := by
  have hset : ∀ i b, (∀ q d, b ≠ Worker.selected q d) → ∀ w ∈ pool.workers.set i b, ∀ q d,
      w = .selected q d → w ∈ pool.workers := by
    intro i b hb w hw q d hq
    rcases List.mem_or_eq_of_mem_set hw with hw | rfl
    · exact hw
    · exact absurd hq (hb q d)
  cases a with
  | makeTask p f | makeExpiringTask p f e expiration now =>
    obtain ⟨hp,rfl,rfl⟩ := construct_cases h
    exact Or.inl ⟨p,_,hp,rfl,rfl,rfl,rfl⟩
  | addTask p k =>
    obtain ⟨_,rfl,_,rfl,⟨rfl,_⟩ | ⟨_,rfl⟩⟩ := addTask_cases h
    · exact Or.inr (Or.inr (Or.inr ⟨rfl,by simp [selects],fun w hw _ _ _ => hw⟩))
    · exact Or.inr (Or.inr (Or.inr ⟨rfl,by simp [selects],hset k _ (by simp)⟩))
  | init =>
    obtain ⟨_,rfl,rfl⟩ := init_cases h
    refine Or.inr (Or.inr (Or.inr ⟨rfl,by simp,fun w hw q d hq => ?_⟩))
    rw [List.eq_of_mem_replicate hw] at hq
    cases hq
  | spawn i | spurious i =>
    obtain ⟨_,rfl,rfl⟩ := advance_cases h
    exact Or.inr (Or.inr (Or.inr ⟨rfl,by simp,hset i _ (by simp)⟩))
  | acquire i now =>
    obtain ⟨w,_,_,hi⟩ := acquire_cases h
    rcases iterate_cases hi with ⟨hrun,rfl,rfl⟩ | ⟨_,rfl,rfl⟩
    · have hcount := loop_selects i now pool.taskQueue pool.tasks
      rcases loop_choice i now pool.taskQueue pool.tasks with ⟨hsame,hno,_⟩ | ⟨p,c,u,v,hw,hnext,hu,huv,hsel,hupd⟩
      · refine Or.inr (Or.inr (Or.inr ⟨hsame,fun q d => ?_,hset i _ hno⟩))
        rw [hcount q d, if_neg (hno q d)]
      · refine Or.inr (Or.inl ⟨i,now,p,c,u,v,rfl,hrun,hnext,hu,huv,hsel,hupd,by rw [hw],fun q d => ?_⟩)
        rw [hcount q d, hw]
        simp
    · exact Or.inr (Or.inr (Or.inr ⟨rfl,by simp,hset i _ (by simp)⟩))
  | enter i =>
    obtain ⟨_,_,_,_,_,⟨_,rfl,rfl⟩ | ⟨_,rfl,rfl⟩⟩ := enter_cases h
    · exact Or.inr (Or.inr (Or.inr ⟨rfl,by simp [selects],hset i _ (by simp)⟩))
    · exact Or.inr (Or.inr (Or.inr ⟨rfl,by simp [selects],hset i _ (by simp)⟩))
  | finish i o =>
    obtain ⟨p,c,u,hw,hu,rfl,⟨rfl,_,rfl⟩ | ⟨_,rfl⟩⟩ := finish_cases h
    · exact Or.inr (Or.inr (Or.inl ⟨i,p,c,u,hw,hu,rfl,rfl,rfl⟩))
    · refine Or.inr (Or.inr (Or.inr ⟨rfl,by simp [selects],hset i _ (fun q d => ?_)⟩))
      split <;> simp
  | stop =>
    cases h
    refine Or.inr (Or.inr (Or.inr ⟨rfl,by simp [selects],fun w hw q d hq => ?_⟩))
    obtain ⟨v,hv,hvw⟩ := List.mem_map.mp hw
    split at hvw
    · rw [← hvw] at hq
      cases hq
    · exact hvw ▸ hv

/-- Tasks that have been selected, and only they, have left `WAITING`. -/
def Started (tr : List PoolEvent) (pool : ThreadPool F) : Prop :=
  ∀ p, 0 < selections p tr ↔ ∃ u, pool.tasks p = some u ∧ u.state ≠ .waiting

theorem selections_none (h : ∀ q d, es.countP (selects q d) = 0) (q : TaskPtr) : selections q es = 0 := by
  rw [selections, h, h]

theorem selections_one {c : Callback} (h : ∀ q d, es.countP (selects q d) = if p = q ∧ c = d then 1 else 0)
    (q : TaskPtr) : selections q es = if p = q then 1 else 0 := by
  rw [selections, h, h]
  by_cases hq : p = q
  · cases c <;> simp [hq]
  · simp [hq]

/-- A worker that has a task has selected it. -/
theorem Ledger.selected_pos {w : Worker} {c : Callback} (h : Ledger tr pool) (hw : w ∈ pool.workers)
    (hp : w.work = some (p,c)) : 0 < selections p tr := by
  have hsel := h.selected p c
  have hin := h.inside p c
  have hpos : 0 < tr.countP (selects p c) := by
    cases w with
    | selected q d =>
      cases hp
      have hone : 0 < pool.workers.countP (· = .selected p c) :=
        List.countP_pos_iff.mpr ⟨_,hw,decide_eq_true rfl⟩
      omega
    | inside q d =>
      cases hp
      have hone : 0 < pool.workers.countP (· = .inside p c) :=
        List.countP_pos_iff.mpr ⟨_,hw,decide_eq_true rfl⟩
      omega
    | _ => cases hp
  rw [selections]
  cases c
  · exact Nat.add_pos_left hpos _
  · exact Nat.add_pos_right _ hpos

theorem Started.step {a : Action F} (h : Started tr pool) (hl : Ledger tr pool)
    (hs : step pool a = some (t,es)) : Started (tr ++ es) t := by
  intro q
  rw [selections_append]
  rcases step_tasks hs with ⟨p,u,hp,hu,htasks,_,rfl⟩ | ⟨i,now,p,c,u,v,_,_,_,hu,_,hv,htasks,_,hcount⟩ |
    ⟨i,p,c,u,hw,hu,htasks,_,rfl⟩ | ⟨htasks,hcount,_⟩
  · have hnil : selections q [] = 0 := rfl
    rw [hnil, Nat.add_zero, h q, htasks]
    by_cases hq : q = p
    · subst hq
      simp [hp,hu]
    · rw [Function.update_of_ne hq]
  · rw [selections_one hcount, htasks]
    by_cases hq : p = q
    · subst hq
      rw [if_pos rfl, Function.update_self]
      exact ⟨fun _ => ⟨v,rfl,(Task.selected_started hv).1⟩,fun _ => Nat.succ_pos _⟩
    · have hne : q ≠ p := fun hqp => hq hqp.symm
      rw [if_neg hq, Nat.add_zero, h q, Function.update_of_ne hne]
  · have hleft : selections q [.left i p c .returned] = 0 := rfl
    rw [hleft, Nat.add_zero, htasks]
    by_cases hq : q = p
    · subst hq
      rw [Function.update_self]
      have hpos := hl.selected_pos (List.mem_of_getElem? hw) rfl
      exact ⟨fun _ => ⟨u.finished,rfl,by simp [Task.finished]⟩,fun _ => hpos⟩
    · rw [h q, Function.update_of_ne hq]
  · rw [selections_none hcount, Nat.add_zero, htasks]
    exact h q

theorem started_of_runs (hr : (machine F n).Runs P tr pool) : Started tr pool := by
  refine hr.invariant (I := fun tr pool => Started tr pool) ?_
    (fun tr s a t es hr h _ hs => h.step (ledger_of_runs hr) hs)
  rintro _ ⟨st,rfl⟩ p
  simp [selections,new]

/-- Whatever a step does, the state of a task moves forward or stays. -/
theorem step_forward {a : Action F} {u : Task F} (hr : (machine F n).Runs P tr pool)
    (hs : step pool a = some (t,es)) (hu : pool.tasks p = some u) :
    ∃ v, t.tasks p = some v ∧ TaskState.Forward u.state v.state := by
  rcases step_tasks hs with ⟨q,w,hq,_,htasks,_⟩ | ⟨i,now,q,c,w,v,_,_,_,hw,hv,_,htasks,_⟩ |
    ⟨i,q,c,w,hin,hw,htasks,_⟩ | ⟨htasks,_⟩
  · have hne : p ≠ q := by
      rintro rfl
      rw [hq] at hu
      cases hu
    exact ⟨u,by rw [htasks, Function.update_of_ne hne, hu],Or.inl rfl⟩
  · by_cases hp : p = q
    · subst hp
      rw [hu] at hw
      cases hw
      exact ⟨v,by rw [htasks, Function.update_self],Task.mark_forward hv⟩
    · exact ⟨u,by rw [htasks, Function.update_of_ne hp, hu],Or.inl rfl⟩
  · by_cases hp : p = q
    · subst hp
      rw [hu] at hw
      cases hw
      have hpos := (ledger_of_runs hr).selected_pos (List.mem_of_getElem? hin) rfl
      obtain ⟨u',hu',hstarted⟩ := (started_of_runs hr p).mp hpos
      rw [hu] at hu'
      cases hu'
      exact ⟨u.finished,by rw [htasks, Function.update_self],Task.forward_finished hstarted⟩
    · exact ⟨u,by rw [htasks, Function.update_of_ne hp, hu],Or.inl rfl⟩
  · exact ⟨u,by rw [htasks, hu],Or.inl rfl⟩

section Once

/-- A worker that takes a task for work finds it `WAITING`. -/
def TakesWaiting (_ : List PoolEvent) (pool : ThreadPool F) (a : Action F) : Prop :=
  ∀ i now, a = .acquire i now → pool.state = .run → ∀ p, nextTask pool.taskQueue pool.tasks = some p →
    ∀ u, pool.tasks p = some u → u.state = .waiting

/-- A task is selected once, and the worker that selected it finds it in the state that
`Run` or `ExpireRun` expects. -/
structure Once (tr : List PoolEvent) (pool : ThreadPool F) : Prop where
  selected : ∀ p, selections p tr ≤ 1
  agrees : ∀ w ∈ pool.workers, ∀ p c, w = .selected p c → ∃ u, pool.tasks p = some u ∧ u.accepts c = true

/-- Two workers do not have the same task. -/
theorem held_alone {w v : Worker} {j : ℕ} {c d : Callback} (h : Ledger tr pool) (hone : selections p tr ≤ 1)
    (hw : pool.workers[i]? = some w) (hv : pool.workers[j]? = some v) (hp : w.work = some (p,c))
    (hq : v.work = some (p,d)) : i = j := by
  by_contra hij
  have htwo := Roster.two_le_countP hij hw hv (work_holds hp) (work_holds hq)
  have h1 := h.selected p .taskFun
  have h2 := h.selected p .expireFun
  have h3 := h.inside p .taskFun
  have h4 := h.inside p .expireFun
  rw [countP_holds] at htwo
  rw [selections] at hone
  omega

theorem Once.step {a : Action F} (h : Once tr pool) (hl : Ledger tr pool) (hstarted : Started tr pool)
    (hp : TakesWaiting tr pool a) (hs : step pool a = some (t,es)) : Once (tr ++ es) t := by
  rcases step_tasks hs with ⟨p,u,hnone,hu,htasks,hworkers,rfl⟩ |
    ⟨i,now,p,c,u,v,rfl,hrun,hnext,hu,_,hv,htasks,hworkers,hcount⟩ |
    ⟨i,p,c,u,hw,hu,htasks,hworkers,rfl⟩ | ⟨htasks,hcount,hworkers⟩
  · rw [List.append_nil]
    refine ⟨h.selected,fun w hw q d hq => ?_⟩
    obtain ⟨r,hr,ha⟩ := h.agrees w (hworkers ▸ hw) q d hq
    have hne : q ≠ p := by
      rintro rfl
      rw [hnone] at hr
      cases hr
    exact ⟨r,by rw [htasks, Function.update_of_ne hne, hr],ha⟩
  · -- The task was waiting, so nobody had selected it.
    have hfresh : selections p tr = 0 := by
      by_contra hpos
      obtain ⟨r,hr,hne⟩ := (hstarted p).mp (Nat.pos_of_ne_zero hpos)
      rw [hu] at hr
      cases hr
      exact hne (hp i now rfl hrun p hnext u hu)
    refine ⟨fun q => ?_,fun w hw q d hq => ?_⟩
    · rw [selections_append, selections_one hcount]
      by_cases hq : p = q
      · subst hq
        rw [hfresh, if_pos rfl]
      · rw [if_neg hq]
        exact h.selected q
    · rw [hworkers] at hw
      rcases List.mem_or_eq_of_mem_set hw with hold | rfl
      · have hne : q ≠ p := by
          rintro rfl
          subst hq
          have hpos := hl.selected_pos hold rfl
          omega
        obtain ⟨r,hr,ha⟩ := h.agrees w hold q d hq
        exact ⟨r,by rw [htasks, Function.update_of_ne hne, hr],ha⟩
      · cases hq
        exact ⟨v,by rw [htasks, Function.update_self],(Task.selected_started hv).2⟩
  · refine ⟨fun q => ?_,fun w hw' q d hq => ?_⟩
    · rw [selections_append]
      exact h.selected q
    · rw [hworkers] at hw'
      obtain ⟨j,hj⟩ := List.getElem?_of_mem hw'
      rcases Roster.getElem?_set_cases hj with ⟨_,rfl⟩ | ⟨hij,hj⟩
      · cases hq
      · have hne : q ≠ p := by
          rintro rfl
          exact hij (held_alone hl (h.selected q) hw hj rfl (by rw [hq]; rfl))
        obtain ⟨r,hr,ha⟩ := h.agrees w (List.mem_of_getElem? hj) q d hq
        exact ⟨r,by rw [htasks, Function.update_of_ne hne, hr],ha⟩
  · refine ⟨fun q => ?_,fun w hw q d hq => ?_⟩
    · rw [selections_append, selections_none hcount]
      exact h.selected q
    · rw [htasks]
      exact h.agrees w (hworkers w hw q d hq) q d hq

theorem once_of_runs (hr : (machine F n).Runs TakesWaiting tr pool) : Once tr pool := by
  refine hr.invariant (I := fun tr pool => Once tr pool) ?_
    (fun tr s a t es hr h hp hs => h.step (ledger_of_runs hr) (started_of_runs hr) hp hs)
  rintro _ ⟨st,rfl⟩
  exact ⟨fun p => Nat.zero_le 1,fun w hw => by cases hw⟩

def insideTask (p : TaskPtr) : Worker → Bool
  | .inside q _ => q = p
  | _ => false

theorem countP_insideTask (p : TaskPtr) (ws : List Worker) : ws.countP (insideTask p) =
    ws.countP (· = .inside p .taskFun) + ws.countP (· = .inside p .expireFun) := by
  induction ws with
  | nil => rfl
  | cons w ws ih =>
    simp only [List.countP_cons, ih]
    cases w with
    | inside q c => cases c <;> by_cases h : q = p <;> simp [insideTask,h] <;> omega
    | _ => simp [insideTask]

/-- For every run in which the workers only take waiting tasks for work: a step moves the
state of a task forward or leaves it, at most one worker is inside the callbacks of a
task, and they are entered at most once. -/
theorem life_cycle (hr : (machine F n).Runs TakesWaiting tr pool) :
    (∀ a t es, step pool a = some (t,es) → ∀ p u, pool.tasks p = some u →
      ∃ v, t.tasks p = some v ∧ TaskState.Forward u.state v.state) ∧
    (∀ p, pool.workers.countP (insideTask p) ≤ 1) ∧ ∀ p, entries p tr ≤ 1 := by
  have hl := ledger_of_runs hr
  have hentries : ∀ p, entries p tr ≤ 1 := by
    intro p
    have hone := (once_of_runs hr).selected p
    have h1 := hl.selected p .taskFun
    have h2 := hl.selected p .expireFun
    rw [selections] at hone
    rw [entries]
    omega
  refine ⟨fun a t es hs p u hu => step_forward hr hs hu,fun p => ?_,hentries⟩
  have hone := hentries p
  have h1 := hl.inside p .taskFun
  have h2 := hl.inside p .expireFun
  rw [entries] at hone
  rw [countP_insideTask]
  omega

def checkTakes (_ : List PoolEvent) (pool : ThreadPool F) : Action F → Bool
  | .acquire _ _ => pool.state ≠ .run || (nextTask pool.taskQueue pool.tasks).all (fun p =>
      (pool.tasks p).all (fun u => u.state = .waiting))
  | _ => true

theorem checkTakes_sound (tr : List PoolEvent) (pool : ThreadPool F) (a : Action F)
    (h : checkTakes tr pool a = true) : TakesWaiting tr pool a := by
  rintro i now rfl hrun p hnext u hu
  simpa [checkTakes,hrun,hnext,hu] using h

/-- A task is queued again while it is executing, and dropped when it is complete. -/
theorem life_cycle_requeued : ∃ tr, ∃ pool : ThreadPool Unit, (machine Unit .two).Runs TakesWaiting tr pool ∧
    addedTasks tr = [0,0] ∧ dequeuedTasks tr = [0,0] ∧ (∀ p, pool.workers.countP (insideTask p) ≤ 1) ∧
    ∀ p, entries p tr ≤ 1 := by
  have hrun : ∃ c, (machine Unit .two).replay checkTakes
      [.makeTask 0 (some ()),.addTask 0 0,.init,.spawn 0,.acquire 0 5,.enter 0,.addTask 0 0,
        .finish 0 .returned,.acquire 0 6] ([],new .two .unknowing) = some c ∧
      addedTasks c.1 = [0,0] ∧ dequeuedTasks c.1 = [0,0] := ⟨_,rfl,rfl,rfl⟩
  obtain ⟨⟨tr,pool⟩,hc,hadded,hdequeued⟩ := hrun
  have hr := Machine.replay_runs checkTakes_sound (runs_new .two .unknowing) hc
  obtain ⟨_,hinside,hentries⟩ := life_cycle hr
  exact ⟨tr,pool,hr,hadded,hdequeued,hinside,hentries⟩

/-- A task that is queued twice has two workers inside its callback at once, and one that
is queued again after its callback threw is entered again. -/
theorem entered_twice :
    (∃ tr, ∃ pool : ThreadPool Unit, (machine Unit .two).Runs Machine.Any tr pool ∧
      addedTasks tr = [0,0] ∧ pool.workers = [.inside 0 .taskFun,.inside 0 .taskFun] ∧ entries 0 tr = 2) ∧
    ∃ tr, ∃ pool : ThreadPool Unit, (machine Unit .two).Runs Machine.Any tr pool ∧
      .left 0 0 .taskFun .threw ∈ tr ∧ pool.workers = [.inside 0 .taskFun,.unborn] ∧ entries 0 tr = 2 := by
  constructor
  · have hrun : ∃ c, (machine Unit .two).replay (fun _ _ _ => true)
        [.makeTask 0 (some ()),.addTask 0 0,.addTask 0 0,.init,.spawn 0,.spawn 1,.acquire 0 5,.enter 0,
          .acquire 1 6,.enter 1] ([],new .two .unknowing) = some c ∧ addedTasks c.1 = [0,0] ∧
        c.2.workers = [.inside 0 .taskFun,.inside 0 .taskFun] ∧ entries 0 c.1 = 2 := ⟨_,rfl,rfl,rfl,rfl⟩
    obtain ⟨⟨tr,pool⟩,hc,hrest⟩ := hrun
    exact ⟨tr,pool,Machine.replay_runs (fun _ _ _ _ => trivial) (runs_new .two .unknowing) hc,hrest⟩
  · have hrun : ∃ c, (machine Unit .two).replay (fun _ _ _ => true)
        [.makeTask 0 (some ()),.addTask 0 0,.init,.spawn 0,.acquire 0 5,.enter 0,.finish 0 .threw,
          .addTask 0 0,.acquire 0 6,.enter 0] ([],new .two .unknowing) = some c ∧
        .left 0 0 .taskFun .threw ∈ c.1 ∧ c.2.workers = [.inside 0 .taskFun,.unborn] ∧
        entries 0 c.1 = 2 := ⟨_,rfl,by decide,rfl,rfl⟩
    obtain ⟨⟨tr,pool⟩,hc,hrest⟩ := hrun
    exact ⟨tr,pool,Machine.replay_runs (fun _ _ _ _ => trivial) (runs_new .two .unknowing) hc,hrest⟩

/-- No worker finds another state than it selected. -/
theorem not_refused (hr : (machine F n).Runs TakesWaiting tr pool) (i : ℕ) (p : TaskPtr) (c : Callback) :
    .refused i p c ∉ tr := by
  refine hr.invariant (I := fun tr _ => .refused i p c ∉ tr) (fun _ _ hm => by cases hm) ?_
  intro tr pool a t es hr ih _ hs hm
  rcases List.mem_append.mp hm with hm | hm
  · exact ih hm
  · obtain ⟨hw,hrefuse⟩ := (step_callbacks hs).2.2 i p c hm
    obtain ⟨u,hu,ha⟩ := (once_of_runs hr).agrees _ (List.mem_of_getElem? hw) p c rfl
    rw [hrefuse u hu] at ha
    cases ha

/-- A task that has left `WAITING` without being entered is with a worker that is about
to enter it. -/
theorem entered_or_selected {u : Task F} (hr : (machine F n).Runs TakesWaiting tr pool)
    (hu : pool.tasks p = some u) (hstate : u.state ≠ .waiting) :
    1 ≤ entries p tr ∨ ∃ (j : ℕ) (c : Callback), pool.workers[j]? = some (.selected p c) ∧ u.accepts c = true := by
  have hpos := (started_of_runs hr p).mpr ⟨u,hu,hstate⟩
  have hl := ledger_of_runs hr
  have hzero : ∀ c, tr.countP (refuses p c) = 0 := by
    intro c
    refine List.countP_eq_zero.mpr (fun e he hd => ?_)
    cases e with
    | refused i q d => exact not_refused hr i q d he
    | _ => cases hd
  have h1 := hl.selected p .taskFun
  have h2 := hl.selected p .expireFun
  rw [hzero] at h1 h2
  rw [selections] at hpos
  rw [entries]
  by_cases hent : 1 ≤ tr.countP (enters p .taskFun) + tr.countP (enters p .expireFun)
  · exact Or.inl hent
  · have hsome : ∃ c, 0 < pool.workers.countP (· = .selected p c) := by
      by_cases htask : 0 < pool.workers.countP (· = .selected p .taskFun)
      · exact ⟨_,htask⟩
      · exact ⟨.expireFun,by omega⟩
    obtain ⟨c,hc⟩ := hsome
    obtain ⟨w,hw,heq⟩ := List.countP_pos_iff.mp hc
    obtain rfl := of_decide_eq_true heq
    obtain ⟨j,hj⟩ := List.getElem?_of_mem hw
    obtain ⟨v,hv,ha⟩ := (once_of_runs hr).agrees _ hw p c rfl
    rw [hu] at hv
    cases hv
    exact Or.inr ⟨j,c,hj,ha⟩

theorem runs_enter {c : Callback} {u : Task F} (hr : (machine F n).Runs Machine.Any tr pool)
    (hw : pool.workers[i]? = some (.selected p c)) (hu : pool.tasks p = some u) (ha : u.accepts c = true) :
    (machine F n).Runs Machine.Any (tr ++ [.entered i p c])
      { pool with workers := pool.workers.set i (.inside p c) } := by
  have hs : step pool (.enter i) =
      some ({ pool with workers := pool.workers.set i (.inside p c) },[.entered i p c]) := by
    simp only [step, enter, hw, hu, Option.map_some, ha, if_true]
  exact hr.next (a := Action.enter i) trivial hs

theorem entries_entered (i : ℕ) (p : TaskPtr) (c : Callback) : entries p [.entered i p c] = 1 := by
  cases c <;> simp [entries,enters]

/-- A section of a running pool selects the next task, if there is one. -/
theorem acquire_next {now : TimePoint} {u : Task F} (hr : (machine F n).Runs P tr pool)
    (hs : step pool (.acquire i now) = some (t,es)) (hrun : pool.state = .run)
    (hnext : nextTask pool.taskQueue pool.tasks = some p) (hu : pool.tasks p = some u) :
    ∃ w c v, pool.workers[i]? = some w ∧ Worker.locking w = true ∧ u.mark now = some v ∧ v.selected = some c ∧
      t.tasks = Function.update pool.tasks p (some v) ∧ t.workers = pool.workers.set i (.selected p c) := by
  have hfault := notFaulted (hr.any.next (a := Action.acquire i now) trivial hs)
  obtain ⟨w,hw,hlocking,hi⟩ := acquire_cases hs
  have hlen : i < pool.workers.length := (List.getElem?_eq_some_iff.mp hw).1
  rcases iterate_cases hi with ⟨_,_,rfl⟩ | ⟨hstop,_⟩
  · rcases loop_choice i now pool.taskQueue pool.tasks with ⟨_,_,hnull | hnone⟩ |
      ⟨q,c,u',v,hsel,hnext',hu',hv,hc,htasks⟩
    · dsimp only at hfault
      rw [hnull] at hfault
      exact absurd (List.mem_set hlen _) hfault
    · rw [hnext] at hnone
      cases hnone
    · rw [hnext] at hnext'
      cases hnext'
      rw [hu] at hu'
      cases hu'
      exact ⟨w,c,v,hw,hlocking,hv,hc,htasks,by rw [hsel]⟩
  · exact absurd hrun hstop

/-- The condition is exact: where a worker takes a task for work that is not waiting, the
run can go on until the callbacks of that task have been entered twice. -/
theorem taken_again_entered {now : TimePoint} (hr : (machine F n).Runs TakesWaiting tr pool)
    (hs : step pool (.acquire i now) = some (t,es)) (hno : ¬ TakesWaiting tr pool (.acquire i now)) :
    ∃ p post t', (machine F n).Runs Machine.Any (tr ++ post) t' ∧ 2 ≤ entries p (tr ++ post) := by
  obtain ⟨p,u,hrun,hnext,hu,hstate⟩ : ∃ p u, pool.state = .run ∧
      nextTask pool.taskQueue pool.tasks = some p ∧ pool.tasks p = some u ∧ u.state ≠ .waiting := by
    by_contra hall
    refine hno (fun j now' _ hrun p hnext u hu => ?_)
    by_contra hstate
    exact hall ⟨p,u,hrun,hnext,hu,hstate⟩
  obtain ⟨w,c,v,hw,hlocking,hv,hc,htasks,hworkers⟩ := acquire_next hr hs hrun hnext hu
  obtain rfl := Task.mark_started hstate hv
  have hlen : i < pool.workers.length := (List.getElem?_eq_some_iff.mp hw).1
  have hafter := hr.any.next (a := Action.acquire i now) trivial hs
  have hi : t.workers[i]? = some (.selected p c) := by rw [hworkers, List.getElem?_set_self hlen]
  have hv' : t.tasks p = some v := by rw [htasks, Function.update_self]
  -- The worker enters, and then the one that had selected the task before it.
  have henter := runs_enter hafter hi hv' (Task.selected_started hc).2
  rcases entered_or_selected hr hu hstate with hent | ⟨j,d,hj,hd⟩
  · rw [List.append_assoc] at henter
    refine ⟨p,_,_,henter,?_⟩
    rw [entries_append, entries_append, entries_entered]
    omega
  · have hij : i ≠ j := by
      rintro rfl
      rw [hw] at hj
      cases hj
      cases hlocking
    have hj' : (t.workers.set i (.inside p c))[j]? = some (.selected p d) := by
      rw [List.getElem?_set_ne hij, hworkers, List.getElem?_set_ne hij, hj]
    have htwice := runs_enter henter hj' hv' hd
    rw [List.append_assoc, List.append_assoc] at htwice
    refine ⟨p,_,_,htwice,?_⟩
    rw [entries_append, entries_append, entries_append, entries_entered, entries_entered]
    omega

end Once

end ThreadPool
end Kbms
