import Kbms.Concurrency.ThreadPool

/-! # No wakeup of the pool is lost

`AddTask` signals whenever `idle_count_` is positive, although that counter also
counts workers that are already woken. What makes this safe is an invariant: as
long as some worker sleeps, the tasks in the queue are outnumbered by the workers
that are woken and on their way to the mutex.
-/
namespace Kbms.ThreadPool
open Foundation
variable {F : Type*} {pool t : ThreadPool F} {es : List PoolEvent} {i : ℕ}

/-- Woken in `Wait` and not yet back under the mutex. -/
def Worker.isWoken (w : Worker) : Bool := w = .woken

/-- The counter of the pool, and the balance of sleepers, wakeups and tasks. -/
structure WakeupInv (pool : ThreadPool F) : Prop where
  threads : pool.workers = [] ∨ pool.workers.length = pool.threadNum.val
  idle : pool.idleCount = pool.workers.countP Worker.idle
  running : .waiting ∈ pool.workers → pool.state = .run
  asleep : .waiting ∈ pool.workers →
    pool.taskQueue.length ≤ pool.workers.countP Worker.isWoken

theorem WakeupInv.idle_le (h : WakeupInv pool) : pool.idleCount < 2^31 := by
  have hlen : pool.workers.length ≤ pool.threadNum.val := by
    rcases h.threads with hw | hw
    · simp [hw]
    · exact Nat.le_of_eq hw
  have hcount := List.countP_le_length (p := Worker.idle) (l := pool.workers)
  have hint := pool.threadNum.isInt
  rw [h.idle]
  omega

theorem mem_of_mem_set {ws : List Worker} {a b : Worker} (h : a ∈ ws.set i b) (hb : b ≠ a) :
    a ∈ ws := by
  rcases List.mem_or_eq_of_mem_set h with hm | hm
  · exact hm
  · exact absurd hm.symm hb

/-- A thread that moves without touching the counter or the queue, and does not
fall asleep, keeps the balance when it was not counted in it. -/
theorem WakeupInv.move {w b : Worker} (h : WakeupInv pool) (hw : pool.workers[i]? = some w)
    (hidle : Worker.idle b = Worker.idle w) (hwoken : Worker.isWoken w = false)
    (hb : b ≠ .waiting) : WakeupInv { pool with workers := pool.workers.set i b } := by
  refine ⟨?_,?_,fun hmem => h.running (mem_of_mem_set hmem hb),?_⟩
  · simpa using h.threads
  · exact h.idle.trans (Roster.countP_set_of_eq hw hidle).symm
  · intro hmem
    have hold := mem_of_mem_set hmem hb
    have hcount := Roster.countP_set_add hw Worker.isWoken b
    have := h.asleep hold
    simp only [hwoken, Bool.false_eq_true, if_false] at hcount
    dsimp only
    omega

theorem waiting_idle : Worker.idle .waiting = true := rfl

theorem WakeupInv.idle_pos (h : WakeupInv pool) (hw : .waiting ∈ pool.workers) :
    0 < pool.idleCount := by
  rw [h.idle]
  exact List.countP_pos_iff.mpr ⟨_,hw,waiting_idle⟩

/-- A wakeup turns a sleeper into a woken worker, and pays for one more task. -/
theorem WakeupInv.wake {queue : List TaskPtr} (h : WakeupInv pool)
    (hw : pool.workers[i]? = some .waiting) (hq : queue.length ≤ pool.taskQueue.length + 1) :
    WakeupInv { pool with taskQueue := queue, workers := pool.workers.set i .woken } := by
  have hcount := Roster.countP_set_add hw Worker.isWoken .woken
  have hidle := Roster.countP_set_of_eq (p := Worker.idle) (b := .woken) hw rfl
  have hmem := List.mem_of_getElem? hw
  refine ⟨by simpa using h.threads,h.idle.trans hidle.symm,fun _ => h.running hmem,fun _ => ?_⟩
  have hq' := h.asleep hmem
  simp only [Worker.isWoken, decide_true, if_true, reduceCtorEq, decide_false, Bool.false_eq_true,
    if_false] at hcount hq' ⊢
  omega

theorem WakeupInv.addTask {p : TaskPtr} {k : ℕ} (h : WakeupInv pool)
    (hs : addTask pool p k = some (t,es)) : WakeupInv t := by
  obtain ⟨_,_,ws,rfl,⟨rfl,hno⟩ | ⟨hk,rfl⟩⟩ := addTask_cases hs
  · refine ⟨h.threads,h.idle,h.running,?_⟩
    intro hmem
    have hpos := h.idle_pos hmem
    rcases hno with hno | hno
    · omega
    · exact absurd hmem hno
  · exact h.wake hk (by simp)

/-- A section that ends asleep found the queue empty, and any other section that
looked at the queue took a task from it. -/
theorem loop_balance (i : ℕ) (now : TimePoint) (queue : List TaskPtr)
    (tasks : TaskPtr → Option (Task F)) :
    ((loop i now queue tasks).worker = .waiting ∧ (loop i now queue tasks).taskQueue = []) ∨
    (Worker.idle (loop i now queue tasks).worker = false ∧
      (loop i now queue tasks).taskQueue.length < queue.length) := by
  obtain ⟨skipped,_,_,⟨hw,_,hq,_⟩ | ⟨p,c,_,hw,hq,_⟩ | ⟨p,hw,hq,_⟩⟩ := loop_cases i now queue tasks
  · exact Or.inl ⟨hw,hq⟩
  · have := congrArg List.length hq
    simp only [List.length_append, List.length_cons] at this
    exact Or.inr ⟨by rw [hw]; rfl,by omega⟩
  · have := congrArg List.length hq
    simp only [List.length_append, List.length_cons] at this
    exact Or.inr ⟨by rw [hw]; rfl,by omega⟩

theorem sizeDec_eq {n : ℕ} (h0 : 0 < n) (h : n < 2^31) : sizeDec n = n - 1 := by
  unfold sizeDec
  omega

theorem sizeInc_eq {n : ℕ} (h : n < 2^31) : sizeInc n = n + 1 := by
  unfold sizeInc
  omega

/-- After `idle_count_--` the counter still counts all the other idle workers. -/
theorem WakeupInv.idle_others {w : Worker} (h : WakeupInv pool) (hw : pool.workers[i]? = some w)
    (hl : Worker.locking w = true) :
    (if w = .woken then sizeDec pool.idleCount else pool.idleCount) + (if Worker.idle w then 1 else 0) =
      pool.workers.countP Worker.idle := by
  cases w with
  | woken =>
    have hpos : 0 < pool.idleCount := by
      rw [h.idle]
      exact Roster.countP_pos hw rfl
    have := sizeDec_eq hpos h.idle_le
    simp only [if_true, Worker.idle, ← h.idle]
    omega
  | start | relock => simp [Worker.idle,h.idle]
  | _ => cases hl

theorem WakeupInv.acquire {now : TimePoint} (h : WakeupInv pool)
    (hs : acquire pool i now = some (t,es)) : WakeupInv t := by
  obtain ⟨w,hw,hl,hi⟩ := acquire_cases hs
  have hothers := h.idle_others hw hl
  have hle := h.idle_le
  rw [h.idle] at hle
  rcases iterate_cases hi with ⟨hrun,-,rfl⟩ | ⟨hstop,-,rfl⟩
  · rcases loop_balance i now pool.taskQueue pool.tasks with ⟨hr,hq⟩ | ⟨hr,hq⟩
    · have hcount := Roster.countP_set_add hw Worker.idle .waiting
      refine ⟨by simpa using h.threads,?_,fun _ => hrun,fun _ => by simp [hq]⟩
      simp only [hr, if_true, waiting_idle] at hcount ⊢
      rw [sizeInc_eq (by omega)]
      omega
    · have hne : (loop i now pool.taskQueue pool.tasks).worker ≠ .waiting := by
        intro he
        simp [he,Worker.idle] at hr
      have hcount := Roster.countP_set_add hw Worker.idle (loop i now pool.taskQueue pool.tasks).worker
      have hwoken := Roster.countP_set_add hw Worker.isWoken (loop i now pool.taskQueue pool.tasks).worker
      refine ⟨by simpa using h.threads,?_,fun _ => hrun,fun hmem => ?_⟩
      · simp only [hr, hne, if_false, Bool.false_eq_true] at hcount ⊢
        omega
      · have := h.asleep (mem_of_mem_set hmem hne)
        dsimp only
        split at hwoken <;> omega
  · have hcount := Roster.countP_set_add hw Worker.idle .exited
    have hno : ∀ hmem : .waiting ∈ pool.workers.set i .exited, False := fun hmem =>
      hstop (h.running (mem_of_mem_set hmem (by simp)))
    refine ⟨by simpa using h.threads,?_,fun hmem => (hno hmem).elim,fun hmem => (hno hmem).elim⟩
    simp only [Worker.idle, Bool.false_eq_true, if_false] at hcount hothers ⊢
    omega

theorem waiting_notMem_notifyAll (ws : List Worker) : .waiting ∉ notifyAll ws := by
  intro h
  obtain ⟨w,_,hw⟩ := List.mem_map.mp h
  split at hw
  · cases hw
  · rename_i hne
    exact hne hw

theorem idle_notifyAll (ws : List Worker) :
    (notifyAll ws).countP Worker.idle = ws.countP Worker.idle := by
  rw [notifyAll, List.countP_map]
  congr 1
  funext w
  cases w <;> rfl

theorem WakeupInv.stop (h : WakeupInv pool) : WakeupInv (stop pool).1 := by
  have hno := waiting_notMem_notifyAll pool.workers
  refine ⟨?_,h.idle.trans (idle_notifyAll _).symm,fun hmem => (hno hmem).elim,
    fun hmem => (hno hmem).elim⟩
  rcases h.threads with hw | hw
  · exact Or.inl (by simp [ThreadPool.stop,notifyAll,hw])
  · exact Or.inr (by simpa [ThreadPool.stop,notifyAll] using hw)

theorem WakeupInv.step {a : Action F} (h : WakeupInv pool) (hs : step pool a = some (t,es)) :
    WakeupInv t := by
  cases a with
  | makeTask p f | makeExpiringTask p f e expiration now =>
    obtain ⟨_,_,rfl⟩ := construct_cases hs
    exact ⟨h.threads,h.idle,h.running,h.asleep⟩
  | addTask p k => exact h.addTask hs
  | init =>
    obtain ⟨hw,_,rfl⟩ := init_cases hs
    refine ⟨Or.inr (by simp),?_,fun hmem => ?_,fun hmem => ?_⟩
    · rw [h.idle, hw]
      simp [List.countP_replicate,Worker.idle]
    all_goals exact absurd (List.eq_of_mem_replicate hmem) (by simp)
  | spawn i =>
    obtain ⟨hw,_,rfl⟩ := advance_cases hs
    exact h.move hw rfl rfl (by simp)
  | acquire i now => exact h.acquire hs
  | spurious i =>
    obtain ⟨hw,_,rfl⟩ := advance_cases hs
    exact h.wake hw (Nat.le_succ _)
  | enter i =>
    obtain ⟨p,c,_,hw,_,⟨_,_,rfl⟩ | ⟨_,_,rfl⟩⟩ := enter_cases hs
    · exact h.move hw rfl rfl (by simp)
    · exact h.move hw rfl rfl (by simp)
  | finish i o =>
    obtain ⟨p,c,_,hw,_,_,⟨_,_,rfl⟩ | ⟨_,rfl⟩⟩ := finish_cases hs
    · exact { h.move hw (b := .relock) rfl rfl (by simp) with }
    · exact h.move hw (by split <;> rfl) rfl (by split <;> simp)
  | stop =>
    cases hs
    exact h.stop

theorem wakeupInv_of_runs {n : ThreadNum} {tr : List PoolEvent}
    (hr : (machine F n).Runs Machine.Any tr pool) : WakeupInv pool := by
  refine hr.stateInvariant ?_ (fun s a t es h hs => h.step hs)
  rintro _ ⟨st,rfl⟩
  exact ⟨Or.inl rfl,rfl,by simp [new],by simp [new]⟩

/-- In every reachable state the counter is exact, and sleeping workers are never
forgotten: as long as one sleeps, each queued task is covered by a worker that is
woken already. A nonempty queue therefore never meets a pool that is all asleep. -/
theorem no_lost_wakeup {n : ThreadNum} {tr : List PoolEvent}
    (hr : (machine F n).Runs Machine.Any tr pool) :
    pool.idleCount = pool.workers.countP Worker.idle ∧
    (.waiting ∈ pool.workers → pool.taskQueue.length ≤ pool.workers.countP Worker.isWoken) ∧
    (pool.workers ≠ [] → pool.taskQueue ≠ [] → ∃ w ∈ pool.workers, w ≠ .waiting) := by
  have h := wakeupInv_of_runs hr
  refine ⟨h.idle,h.asleep,fun hw hq => ?_⟩
  by_contra hall
  push Not at hall
  obtain ⟨w,hmem⟩ := List.exists_mem_of_ne_nil _ hw
  have hle := h.asleep (hall w hmem ▸ hmem)
  have hzero : pool.workers.countP Worker.isWoken = 0 := by
    rw [List.countP_eq_zero]
    intro v hv
    simp [hall v hv,Worker.isWoken]
  exact hq (List.length_eq_zero_iff.mp (by omega))

/-- Both workers fall asleep before a task arrives, and one of them is woken for it. -/
theorem no_lost_wakeup_two_threads : ∃ tr, ∃ pool : ThreadPool Unit,
    (machine Unit .two).Runs Machine.Any tr pool ∧ pool.workers = [.woken,.waiting] ∧
    pool.taskQueue = [0] ∧
    (pool.idleCount = pool.workers.countP Worker.idle ∧
      (.waiting ∈ pool.workers → pool.taskQueue.length ≤ pool.workers.countP Worker.isWoken) ∧
      (pool.workers ≠ [] → pool.taskQueue ≠ [] → ∃ w ∈ pool.workers, w ≠ .waiting)) := by
  have hrun : ∃ c, (machine Unit .two).replay (fun _ _ _ => true)
      [.init,.spawn 0,.spawn 1,.acquire 1 0,.acquire 0 0,.makeTask 0 (some ()),.addTask 0 0]
      ([],new .two .unknowing) = some c ∧ c.2.workers = [.woken,.waiting] ∧ c.2.taskQueue = [0] :=
    ⟨_,rfl,rfl,rfl⟩
  obtain ⟨⟨tr,pool⟩,hc,hw,hq⟩ := hrun
  have hr := Machine.replay_runs (fun _ _ _ _ => trivial) (runs_new .two .unknowing) hc
  exact ⟨tr,pool,hr,hw,hq,no_lost_wakeup hr⟩

end Kbms.ThreadPool
