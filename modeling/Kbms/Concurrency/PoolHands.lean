import Kbms.Concurrency.PoolHistory

/-! # Which tasks the workers hold

The tasks that are in the hands of the workers, as a set. A step of the pool takes the head of
the queue into it, lets one of them go, or leaves it as it is.
-/
namespace Kbms
open Foundation

namespace ThreadPool
variable {F : Type*} {n : ThreadNum} {pool t : ThreadPool F} {tr es : List PoolEvent} {i : ℕ} {p : TaskPtr}
  {w b : Worker}

def Worker.task (w : Worker) : Option TaskPtr := w.work.map Prod.fst

def heldTasks (pool : ThreadPool F) : Finset TaskPtr := Roster.hands Worker.task pool.workers

theorem mem_heldTasks {c : Callback} (hw : pool.workers[i]? = some w) (hp : w.work = some (p,c)) :
    p ∈ heldTasks pool := Roster.mem_hands.mpr ⟨i,w,hw,by rw [Worker.task, hp]; rfl⟩

/-- How a step changes the queue and the hands of the workers. -/
inductive Handover (pool t : ThreadPool F) : Prop
  | keep (hqueue : t.taskQueue = pool.taskQueue) (hheld : heldTasks t = heldTasks pool)
  | take (p : TaskPtr) (hqueue : pool.taskQueue = p :: t.taskQueue)
      (hfree : (heldTasks pool).card < pool.workers.length) (hheld : heldTasks t = insert p (heldTasks pool))
  | release (p : TaskPtr) (hqueue : t.taskQueue = pool.taskQueue) (hheld : heldTasks t = (heldTasks pool).erase p)

theorem heldTasks_notifyAll (ws : List Worker) :
    Roster.hands Worker.task (notifyAll ws) = Roster.hands Worker.task ws := by
  rw [Roster.hands, Roster.hands, notifyAll, List.filterMap_map]
  congr 2
  funext w
  cases w <;> rfl

theorem Handover.set (hw : pool.workers[i]? = some w) (hq : t.taskQueue = pool.taskQueue)
    (ht : t.workers = pool.workers.set i b) (hb : Worker.task b = Worker.task w) : Handover pool t :=
  .keep hq (by rw [heldTasks, ht]; exact Roster.hands_set_of_eq hw hb)

theorem Handover.lose {c : Callback} (hr : (machine F n).Runs FreshAdds tr pool) (hw : pool.workers[i]? = some w)
    (hp : w.work = some (p,c)) (hq : t.taskQueue = pool.taskQueue) (ht : t.workers = pool.workers.set i b)
    (hb : Worker.task b = none) : Handover pool t := by
  refine .release p hq ?_
  rw [heldTasks, ht]
  refine Roster.hands_set_lose hw (by rw [Worker.task, hp]; rfl) hb (fun j v hj hv => ?_)
  obtain ⟨⟨q,d⟩,hwork,hq⟩ := Option.map_eq_some_iff.mp hv
  obtain rfl : q = p := hq
  exact held_once (ledger_of_runs hr) (List.nodup_append.mp (nodup_dequeued hr)).1 hj hw hwork hp

theorem step_handover {a : Action F} (hr : (machine F n).Runs FreshAdds tr pool) (ha : a.adds = [])
    (hs : step pool a = some (t,es)) : Handover pool t := by
  cases a with
  | makeTask p f | makeExpiringTask p f e expiration now =>
    obtain ⟨_,_,rfl⟩ := construct_cases hs
    exact .keep rfl rfl
  | addTask p k => cases ha
  | init =>
    obtain ⟨hw,_,rfl⟩ := init_cases hs
    refine .keep rfl ?_
    ext q
    rw [heldTasks, heldTasks, hw, Roster.mem_hands, Roster.mem_hands]
    constructor
    · rintro ⟨j,c,hj,hc⟩
      rw [List.eq_of_mem_replicate (List.mem_of_getElem? hj)] at hc
      cases hc
    · rintro ⟨j,c,hj,_⟩
      cases hj
  | spawn i | spurious i =>
    obtain ⟨hw,_,rfl⟩ := advance_cases hs
    exact .set hw rfl rfl rfl
  | acquire i now =>
    obtain ⟨w,hw,hl,hi⟩ := acquire_cases hs
    have hidle : Worker.task w = none := by
      cases w with
      | start | woken | relock => rfl
      | _ => cases hl
    rcases iterate_cases hi with ⟨_,_,rfl⟩ | ⟨_,_,rfl⟩
    · dsimp only
      cases hq : pool.taskQueue with
      | nil => exact .set hw hq.symm rfl (by rw [hidle]; rfl)
      | cons p queue =>
        obtain ⟨_,_,hdisj⟩ := List.nodup_append.mp (nodup_dequeued hr)
        have hmem : p ∈ pool.taskQueue := hq ▸ List.mem_cons_self
        obtain ⟨u,hu⟩ := added_built hr (added_eq hr ▸ List.mem_append_right _ hmem)
        have hfresh : p ∉ dequeuedTasks tr := fun hd => hdisj p hd p hmem rfl
        obtain ⟨v,c,_,_,_,hloop⟩ := loop_waiting i now queue hu ((freshInv_of_runs hr).waiting p u hu hfresh)
        rw [hloop]
        exact .take p hq (Roster.card_hands_lt hw hidle) (Roster.hands_set_gain hw hidle rfl)
    · exact .set hw rfl rfl (by rw [hidle]; rfl)
  | enter i =>
    obtain ⟨p,c,_,hw,_,⟨_,_,rfl⟩ | ⟨_,_,rfl⟩⟩ := enter_cases hs
    · exact .set hw rfl rfl rfl
    · exact .lose hr hw rfl rfl rfl rfl
  | finish i o =>
    obtain ⟨p,c,_,hw,_,_,⟨_,_,rfl⟩ | ⟨_,rfl⟩⟩ := finish_cases hs
    · exact .lose hr hw rfl rfl rfl rfl
    · exact .lose hr hw rfl rfl rfl (by split <;> rfl)
  | stop =>
    cases hs
    exact .keep rfl (heldTasks_notifyAll _)

theorem heldTasks_addTask {k : ℕ} (h : addTask pool p k = some (t,es)) :
    t.taskQueue = pool.taskQueue ++ [p] ∧ heldTasks t = heldTasks pool := by
  obtain ⟨_,_,_,rfl,⟨rfl,_⟩ | ⟨hk,rfl⟩⟩ := addTask_cases h
  · exact ⟨rfl,rfl⟩
  · exact ⟨rfl,Roster.hands_set_of_eq hk rfl⟩

theorem step_threadNum {a : Action F} (hs : step pool a = some (t,es)) : t.threadNum = pool.threadNum := by
  cases a with
  | makeTask p f | makeExpiringTask p f e expiration now =>
    obtain ⟨_,_,rfl⟩ := construct_cases hs
    rfl
  | addTask p k =>
    obtain ⟨_,_,_,rfl,_⟩ := addTask_cases hs
    rfl
  | init =>
    obtain ⟨_,_,rfl⟩ := init_cases hs
    rfl
  | spawn i | spurious i =>
    obtain ⟨_,_,rfl⟩ := advance_cases hs
    rfl
  | acquire i now =>
    obtain ⟨_,_,_,hi⟩ := acquire_cases hs
    rcases iterate_cases hi with ⟨_,_,rfl⟩ | ⟨_,_,rfl⟩ <;> rfl
  | enter i =>
    obtain ⟨_,_,_,_,_,⟨_,_,rfl⟩ | ⟨_,_,rfl⟩⟩ := enter_cases hs <;> rfl
  | finish i o =>
    obtain ⟨_,_,_,_,_,_,⟨_,_,rfl⟩ | ⟨_,rfl⟩⟩ := finish_cases hs <;> rfl
  | stop =>
    cases hs
    rfl

theorem threadNum_of_runs {P : List PoolEvent → ThreadPool F → Action F → Prop} (hr : (machine F n).Runs P tr pool) :
    pool.threadNum = n := by
  refine hr.stateInvariant (I := fun pool => pool.threadNum = n) ?_ (fun s a t es h hs => (step_threadNum hs).trans h)
  rintro _ ⟨st,rfl⟩
  rfl

end ThreadPool

end Kbms
