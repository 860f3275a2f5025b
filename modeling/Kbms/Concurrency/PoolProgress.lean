import Kbms.Concurrency.PoolHistory
import Kbms.Concurrency.PoolWakeup

/-! # The workers make progress

Every step that the pool takes by itself leaves its workers less to do, and none of them is left
behind: as long as nobody stops the pool and no expiry callback throws, a pool in which no worker
can go on has an empty queue.
-/
namespace Kbms.ThreadPool
open Foundation
variable {F : Type*} {n : ThreadNum} {pool t : ThreadPool F} {tr es : List PoolEvent} {i : ℕ} {w b : Worker}

/-- The most steps that a worker takes before it asks for the next task. -/
def Worker.load : Worker → ℕ
  | .selected _ _ => 3
  | .unborn | .inside _ _ => 2
  | .start | .woken | .relock => 1
  | .waiting | .exited | .escaped | .faulted => 0

def workersLoad (pool : ThreadPool F) : ℕ :=
  if pool.workers = [] then 2 * pool.threadNum.val + 1 else (pool.workers.map Worker.load).sum

def load (pool : ThreadPool F) : ℕ := workersLoad pool + 3 * pool.taskQueue.length

/-- The steps that the pool takes by itself. -/
def Action.own : Action F → Bool
  | .init | .spawn _ | .acquire _ _ | .enter _ | .finish _ _ => true
  | _ => false

theorem Worker.load_le (w : Worker) : Worker.load w ≤ 3 := by
  cases w <;> simp [Worker.load]

/-- A worker moves, and maybe takes tasks from the queue. -/
theorem load_set_lt (hw : pool.workers[i]? = some w) (ht : t.workers = pool.workers.set i b)
    (hlt : Worker.load b + 3 * t.taskQueue.length < Worker.load w + 3 * pool.taskQueue.length) :
    load t < load pool := by
  have hne : pool.workers ≠ [] := by
    intro hnil
    rw [hnil] at hw
    cases hw
  have hsum := Roster.sum_map_set_add hw Worker.load b
  rw [load, load, workersLoad, workersLoad, if_neg hne, ht, if_neg (by simpa using hne)]
  omega

theorem step_load {a : Action F} (ha : a.own = true) (hs : step pool a = some (t,es)) : load t < load pool := by
  cases a with
  | init =>
    obtain ⟨hw,_,rfl⟩ := init_cases hs
    have hpos := pool.threadNum.pos
    have hne : List.replicate pool.threadNum.val Worker.unborn ≠ [] := by
      simp [Nat.pos_iff_ne_zero.mp hpos]
    rw [load, load, workersLoad, workersLoad, if_pos hw, if_neg hne, List.map_replicate, List.sum_replicate_nat]
    simp only [Worker.load]
    omega
  | spawn i =>
    obtain ⟨hw,_,rfl⟩ := advance_cases hs
    exact load_set_lt hw rfl (Nat.add_lt_add_right (by decide) _)
  | acquire i now =>
    obtain ⟨w,hw,hl,hi⟩ := acquire_cases hs
    have hone : Worker.load w = 1 := by
      cases w with
      | start | woken | relock => rfl
      | _ => cases hl
    rcases iterate_cases hi with ⟨_,_,rfl⟩ | ⟨_,_,rfl⟩
    · refine load_set_lt (w := w) hw rfl ?_
      rw [hone]
      rcases loop_balance i now pool.taskQueue pool.tasks with ⟨hworker,hqueue⟩ | ⟨_,hlt⟩
      · rw [hworker, hqueue, Worker.load, List.length_nil]
        omega
      · have hle := Worker.load_le (loop i now pool.taskQueue pool.tasks).worker
        dsimp only
        omega
    · refine load_set_lt (w := w) hw rfl ?_
      rw [hone]
      exact Nat.add_lt_add_right (by decide) _
  | enter i =>
    obtain ⟨_,_,_,hw,_,⟨_,_,rfl⟩ | ⟨_,_,rfl⟩⟩ := enter_cases hs
    · exact load_set_lt hw rfl (Nat.add_lt_add_right (by decide : 2 < 3) _)
    · exact load_set_lt hw rfl (Nat.add_lt_add_right (by decide : 1 < 3) _)
  | finish i o =>
    obtain ⟨_,c,_,hw,_,_,⟨_,_,rfl⟩ | ⟨_,rfl⟩⟩ := finish_cases hs
    · exact load_set_lt hw rfl (Nat.add_lt_add_right (by decide : 1 < 2) _)
    · refine load_set_lt hw rfl (Nat.add_lt_add_right ?_ _)
      cases c <;> simp [Worker.load]
  | makeTask _ _ | makeExpiringTask _ _ _ _ _ | addTask _ _ | spurious _ | stop => cases ha

/-- No worker has left, and those that are there keep going. -/
structure Alive (pool : ThreadPool F) : Prop where
  running : pool.workers ≠ [] → pool.state = .run
  here : ∀ w ∈ pool.workers, w ≠ .exited ∧ w ≠ .escaped

theorem Alive.set (h : Alive pool) (ht : t.workers = pool.workers.set i b) (hstate : t.state = pool.state)
    (hb : b ≠ .exited ∧ b ≠ .escaped) : Alive t := by
  refine ⟨fun hne => ?_,fun w hw => ?_⟩
  · rw [hstate]
    refine h.running (fun hnil => hne ?_)
    rw [ht, hnil]
    rfl
  · rw [ht] at hw
    rcases List.mem_or_eq_of_mem_set hw with hw | rfl
    · exact h.here w hw
    · exact hb

/-- Nobody stops the pool, and no expiry callback throws. -/
theorem Alive.step {a : Action F} (h : Alive pool) (hstop : a ≠ .stop)
    (hthrow : ∀ i p, a = .finish i .threw → pool.workers[i]? ≠ some (.inside p .expireFun))
    (hs : step pool a = some (t,es)) : Alive t := by
  cases a with
  | makeTask p f | makeExpiringTask p f e expiration now =>
    obtain ⟨_,_,rfl⟩ := construct_cases hs
    exact ⟨h.running,h.here⟩
  | addTask p k =>
    obtain ⟨_,_,_,rfl,⟨rfl,_⟩ | ⟨_,rfl⟩⟩ := addTask_cases hs
    · exact ⟨h.running,h.here⟩
    · exact h.set rfl rfl (by simp)
  | init =>
    obtain ⟨_,_,rfl⟩ := init_cases hs
    refine ⟨fun _ => rfl,fun w hw => ?_⟩
    rw [List.eq_of_mem_replicate hw]
    simp
  | spawn i | spurious i =>
    obtain ⟨_,_,rfl⟩ := advance_cases hs
    exact h.set rfl rfl (by simp)
  | acquire i now =>
    obtain ⟨w,hw,_,hi⟩ := acquire_cases hs
    have hrun : pool.state = .run := h.running (List.ne_nil_of_mem (List.mem_of_getElem? hw))
    rcases iterate_cases hi with ⟨_,_,rfl⟩ | ⟨hno,_,_⟩
    · refine h.set rfl rfl ?_
      obtain ⟨_,_,_,⟨hw,_⟩ | ⟨p,c,_,hw,_⟩ | ⟨p,hw,_⟩⟩ := loop_cases i now pool.taskQueue pool.tasks
      all_goals simp [hw]
    · exact absurd hrun hno
  | enter i =>
    obtain ⟨_,_,_,_,_,⟨_,_,rfl⟩ | ⟨_,_,rfl⟩⟩ := enter_cases hs
    · exact h.set rfl rfl (by simp)
    · exact h.set rfl rfl (by simp)
  | finish i o =>
    obtain ⟨p,c,_,hw,_,_,⟨_,_,rfl⟩ | ⟨rfl,rfl⟩⟩ := finish_cases hs
    · exact h.set rfl rfl (by simp)
    · cases c with
      | taskFun => exact h.set rfl rfl (by simp)
      | expireFun => exact absurd hw (hthrow i p rfl)
  | stop => exact absurd rfl hstop

/-- When no worker has anything to do, nobody has left a task behind. -/
theorem Alive.queue_empty (h : Alive pool) (hwake : WakeupInv pool) (hfault : .faulted ∉ pool.workers)
    (hne : pool.workers ≠ []) (hidle : ∀ w ∈ pool.workers, w ≠ .unborn ∧ Worker.locking w = false ∧ w.work = none) :
    pool.taskQueue = [] := by
  have hall : ∀ w ∈ pool.workers, w = .waiting := by
    intro w hw
    obtain ⟨hborn,hlock,hwork⟩ := hidle w hw
    have hhere := h.here w hw
    cases w with
    | waiting => rfl
    | unborn => exact absurd rfl hborn
    | start | woken | relock => cases hlock
    | selected p c | inside p c => cases hwork
    | exited => exact absurd rfl hhere.1
    | escaped => exact absurd rfl hhere.2
    | faulted => exact absurd hw hfault
  obtain ⟨w,hw⟩ := List.exists_mem_of_ne_nil _ hne
  have hle := hwake.asleep (hall w hw ▸ hw)
  have hzero : pool.workers.countP Worker.isWoken = 0 := by
    rw [List.countP_eq_zero]
    intro v hv
    rw [hall v hv]
    decide
  exact List.length_eq_zero_iff.mp (by omega)

end Kbms.ThreadPool
