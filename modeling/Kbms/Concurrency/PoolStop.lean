import Kbms.Concurrency.LockDiscipline

/-! # Stopping the pool

`Init` detaches each thread that it creates, so the first `join` of `Stop` finds a thread
object that is not joinable and raises.
-/
namespace Kbms
open Foundation

namespace Point

/-- The thread wants the mutex. -/
def locking : Point → Bool
  | .guard | .woken | .relock => true
  | _ => false

/-- The task that the worker has taken. -/
def task : Point → Option TaskPtr
  | .branch p | .unlock p _ | .call p _ | .inside p _ => some p
  | _ => none

/-- The statements that are left until the worker unlocks the mutex or takes a task. -/
def left (idle : Bool) : Point → ℕ
  | .unlock _ _ | .wait | .unguard => 1
  | .idleUp | .outer false => 2
  | .take survival => if survival && idle then 8 else 3
  | .inner _ => 4
  | .idleDown _ => 5
  | .survey | .resurvey => 6
  | .outer true => 7
  | .branch _ => 8
  | _ => 0

end Point

/-- The statements that are left of a call of `AddTask`. -/
def AddPoint.left : AddPoint → ℕ
  | .outside => 0
  | .unguard => 1
  | .notify _ => 2
  | .test _ => 3
  | .push _ => 4

namespace LockedPool
variable {F : Type*} {s t : LockedPool F} {es tr : List LockEvent} {i : ℕ} {a b : Point} {now : TimePoint}
  {m : Option Holder}

/-- `Stop` waits in a join for a worker that wants the mutex of `Stop`. -/
def Deadlocked (s : LockedPool F) : Prop :=
  ∃ k a, s.stop = .join k ∧ s.joinable[k]? = some true ∧ s.threads[k]? = some a ∧ a.locking = true ∧
    s.mutex = some .stop

structure ShutsDown (tr : List LockEvent) (s : LockedPool F) : Prop where
  dequeues : ∀ pre post, tr = pre ++ .stopStored :: post → ∀ i p, .dequeued i p ∉ post
  raises : .stopRaised ∉ tr
  waits : ¬ Deadlocked s
  returns : .stopReturned ∈ tr → ∀ a ∈ s.threads, a = .returned

/-- No pointer is null, in any run: those in the queue and those that workers have taken. -/
structure Built (s : LockedPool F) : Prop where
  queued : ∀ p ∈ s.taskQueue, (s.tasks p).isSome = true
  taken : ∀ a ∈ s.threads, ∀ p ∈ a.task, (s.tasks p).isSome = true

theorem Built.taken_set (h : Built s) (hb : ∀ p ∈ b.task, (s.tasks p).isSome = true) :
    ∀ c ∈ s.threads.set i b, ∀ p ∈ c.task, (s.tasks p).isSome = true := by
  intro c hc p hp
  rcases List.mem_or_eq_of_mem_set hc with hc | rfl
  · exact h.taken c hc p hp
  · exact hb p hp

/-- A thread moves to a point where it has no task, and the queue and the tasks stay. -/
theorem Built.goto (h : Built s) (hb : b.task = none) : Built (s.goto i b) :=
  ⟨h.queued,h.taken_set (by simp [hb])⟩

theorem Built.lockTo {e : LockEvent} (h : Built s) (hb : b.task = none) (hs : s.lockTo i b e = some (t,es)) :
    Built t := by
  rw [LockedPool.lockTo] at hs
  split at hs
  · cases hs
    exact ⟨h.queued,h.taken_set (by simp [hb])⟩
  · cases hs

theorem Built.execute (h : Built s) (ha : s.threads[i]? = some a) (hs : s.execute i now a = some (t,es)) :
    Built t := by
  have htask := h.taken a (List.mem_of_getElem? ha)
  cases a with
  | unborn | waiting | inside p c | returned | terminated => cases hs
  | guard | relock | woken => exact h.lockTo rfl hs
  | outer survival =>
    cases survival with
    | true | false =>
      cases hs
      exact h.goto rfl
  | survey | resurvey =>
    cases hs
    exact h.goto rfl
  | idleUp | idleDown survival | wait | unguard =>
    cases hs
    exact ⟨h.queued,h.taken_set (by simp [Point.task])⟩
  | inner survival =>
    cases hs
    exact h.goto (by split <;> rfl)
  | take survival =>
    cases survival with
    | false =>
      cases hs
      exact h.goto rfl
    | true =>
      have hs : s.takeTask i now = some (t,es) := hs
      rw [takeTask] at hs
      split at hs
      · cases hs
        exact h.goto rfl
      · rename_i p queue hq
        obtain ⟨u,hu,hs⟩ := Option.map_eq_some_iff.mp hs
        cases hs
        have hp : (s.tasks p).isSome = true := h.queued p (by rw [hq]; exact List.mem_cons_self)
        refine ⟨fun q hmem => isSome_update (h.queued q ?_),fun c hc q hmem => isSome_update ?_⟩
        · rw [hq]
          exact List.mem_cons_of_mem p hmem
        · exact h.taken_set (by simpa [Point.task] using hp) c hc q hmem
  | branch p =>
    obtain ⟨u,hu,hs⟩ := Option.map_eq_some_iff.mp hs
    cases hs
    refine ⟨h.queued,h.taken_set (fun q hq => htask q ?_)⟩
    cases hsel : u.selected with
    | none =>
      rw [hsel] at hq
      cases hq
    | some c =>
      rw [hsel] at hq
      exact hq
  | unlock p c =>
    cases hs
    exact ⟨h.queued,h.taken_set htask⟩
  | call p c =>
    obtain ⟨u,hu,hs⟩ := Option.map_eq_some_iff.mp hs
    split at hs
    · cases hs
      exact ⟨h.queued,h.taken_set htask⟩
    · cases hs
      exact h.goto rfl

theorem Built.finish {o : Outcome} (h : Built s) (hs : s.finish i o = some (t,es)) : Built t := by
  rw [LockedPool.finish] at hs
  split at hs
  · rename_i p c hp
    obtain ⟨u,hu,hs⟩ := Option.bind_eq_some_iff.mp hs
    cases o with
    | returned =>
      dsimp only at hs
      split at hs
      · cases hs
        have htaken := h.taken_set (i := i) (b := .relock) (by simp [Point.task])
        exact ⟨fun q hq => isSome_update (h.queued q hq),fun c hc q hq => isSome_update (htaken c hc q hq)⟩
      · cases hs
    | threw =>
      cases c with
      | taskFun | expireFun =>
        cases hs
        exact h.goto rfl
  · cases hs

/-- The invariants of all runs, also of those in which an expiry callback throws. -/
structure Sound (s : LockedPool F) : Prop extends Built s, Owned s, Adding s where
  size : s.joinable.length = s.threads.length

theorem Sound.worker (h : Sound s) (ha : s.threads[i]? = some a) (hs : s.execute i now a = some (t,es)) :
    Sound t := by
  obtain ⟨b,hmoved⟩ := execute_cases hs
  refine ⟨h.toBuilt.execute ha hs,h.toOwned.worker ha hs,h.toAdding.worker h.toOwned ha hs,?_⟩
  rw [hmoved.joinable, hmoved.threads, List.length_set]
  exact h.size

theorem Sound.finish {o : Outcome} (h : Sound s) (hs : s.finish i o = some (t,es)) : Sound t := by
  obtain ⟨p,c,ha,hend,hcases⟩ := finish_cases hs
  refine ⟨h.toBuilt.finish hs,h.toOwned.finish hs,h.toAdding.finish hs,?_⟩
  rcases hcases with ⟨ht,-⟩ | ⟨ht,-⟩
  · rw [hend.joinable, ht, List.length_set]
    exact h.size
  · rw [hend.joinable, ht, List.length_set]
    exact h.size

theorem Built.update (h : Built s) {p : TaskPtr} {u : Task F} :
    Built { s with tasks := Function.update s.tasks p (some u) } :=
  ⟨fun q hq => isSome_update (h.queued q hq),fun c hc q hq => isSome_update (h.taken c hc q hq)⟩

theorem Built.executeAdd {k : ℕ} (h : Built s) (hadding : Adding s) (hsize : s.joinable.length = s.threads.length)
    (hs : s.executeAdd k s.adder = some (t,es)) : Built t ∧ t.joinable.length = t.threads.length := by
  have hadded := executeAdd_cases hs
  have hqueued : ∀ q ∈ t.taskQueue, (s.tasks q).isSome = true :=
    fun q hq => (hadded.mem_taskQueue hq).elim (h.queued q) (hadding.built q)
  rw [← hadded.tasks] at hqueued
  rw [hadded.joinable]
  rcases hadded.threads with ht | ⟨-,ht⟩
  · exact ⟨⟨hqueued,by rw [ht, hadded.tasks]; exact h.taken⟩,hsize.trans (by rw [ht])⟩
  · refine ⟨⟨hqueued,?_⟩,hsize.trans (by rw [ht, List.length_set])⟩
    rw [ht, hadded.tasks]
    exact h.taken_set (by simp [Point.task])

theorem Built.executeStop (h : Built s) (hsize : s.joinable.length = s.threads.length)
    (hs : s.executeStop s.stop = some (t,es)) : Built t ∧ t.joinable.length = t.threads.length := by
  cases hp : s.stop with
  | idle | guard =>
    rw [hp, LockedPool.executeStop] at hs
    split at hs
    · cases hs
      exact ⟨⟨h.queued,h.taken⟩,hsize⟩
    · cases hs
  | store | unguard | unwinding =>
    rw [hp] at hs
    cases hs
    exact ⟨⟨h.queued,h.taken⟩,hsize⟩
  | notify =>
    rw [hp] at hs
    cases hs
    refine ⟨⟨h.queued,fun c hc q hq => ?_⟩,hsize.trans (List.length_map ..).symm⟩
    obtain ⟨a,ha,rfl⟩ := List.mem_map.mp hc
    cases a with
    | waiting => cases hq
    | _ => exact h.taken _ ha q hq
  | join k =>
    rw [hp, LockedPool.executeStop] at hs
    split at hs
    · cases hs
      exact ⟨⟨h.queued,h.taken⟩,hsize⟩
    · cases hs
      exact ⟨⟨h.queued,h.taken⟩,hsize⟩
    · split at hs
      · cases hs
        exact ⟨⟨h.queued,h.taken⟩,(List.length_set ..).trans hsize⟩
      · cases hs

theorem Sound.others {act : Action F} (h : Sound s) (hw : ∀ i now, act ≠ .worker i now)
    (hf : ∀ i o, act ≠ .finish i o) (hs : s.step act = some (t,es)) :
    Built t ∧ t.joinable.length = t.threads.length := by
  cases act with
  | worker i now => exact absurd rfl (hw i now)
  | finish i o => exact absurd rfl (hf i o)
  | stop => exact h.toBuilt.executeStop h.size hs
  | adder k => exact h.toBuilt.executeAdd h.toAdding h.size hs
  | makeTask p f | makeExpiringTask p f e expiration now =>
    rw [step, construct] at hs
    split at hs
    · cases hs
      exact ⟨h.toBuilt.update,h.size⟩
    · cases hs
  | addTask p =>
    rw [step, addTask] at hs
    split at hs
    · cases hs
      exact ⟨⟨h.queued,h.taken⟩,h.size⟩
    · cases hs
  | init =>
    rw [step, init] at hs
    split at hs
    · cases hs
      refine ⟨⟨h.queued,fun c hc q hq => ?_⟩,by simp⟩
      rw [List.eq_of_mem_replicate hc] at hq
      cases hq
    · cases hs
  | initRun =>
    rw [step, initRun] at hs
    split at hs
    · cases hs
      exact ⟨⟨h.queued,h.taken⟩,h.size⟩
    · cases hs
  | spawn i =>
    rw [step, spawn] at hs
    split at hs
    · cases hs
      exact ⟨⟨h.queued,h.taken_set (by simp [Point.task])⟩,by simpa [goto] using h.size⟩
    · cases hs
  | detach i =>
    rw [step, detach] at hs
    split at hs
    · cases hs
      exact ⟨⟨h.queued,h.taken⟩,(List.length_set ..).trans h.size⟩
    · cases hs
  | spurious i =>
    rw [step] at hs
    split at hs
    · cases hs
      exact ⟨h.toBuilt.goto rfl,h.size.trans (List.length_set ..).symm⟩
    · cases hs

theorem Sound.step {act : Action F} (h : Sound s) (hs : s.step act = some (t,es)) : Sound t := by
  cases act with
  | worker i now =>
    obtain ⟨a,ha,hs⟩ := Option.bind_eq_some_iff.mp hs
    exact h.worker ha hs
  | finish i o => exact h.finish hs
  | makeTask _ _ | makeExpiringTask _ _ _ _ _ | addTask _ | adder _ | init | initRun | spawn _ | detach _
    | spurious _ | stop =>
    obtain ⟨hbuilt,hsize⟩ := h.others (by simp) (by simp) hs
    exact ⟨hbuilt,h.toOwned.step hs,h.toAdding.step h.toOwned hs,hsize⟩

theorem sound_of_runs {n : ThreadNum} (hr : (machine F n).Runs Machine.Any tr s) : Sound s := by
  refine hr.stateInvariant ?_ (fun s act t es h hs => h.step hs)
  rintro _ ⟨st,rfl⟩
  exact ⟨⟨by simp [LockedPool.new],by simp [LockedPool.new]⟩,.new n st,.new n st,rfl⟩

def remaining (s : LockedPool F) (a : Point) : ℕ := 8 * s.taskQueue.length + a.left s.taskQueue.isEmpty

/-- What comes of the next statement of the worker that has the mutex. -/
structure Advance (s t : LockedPool F) (i : ℕ) (a b : Point) : Prop where
  threads : t.threads = s.threads.set i b
  mutex : t.mutex = none ∨ (t.mutex = s.mutex ∧ b.holding = true ∧ t.remaining b < s.remaining a)

theorem takeTask_advance (h : Built s) : ∃ b t es, s.takeTask i now = some (t,es) ∧ Advance s t i (.take true) b := by
  rw [takeTask]
  cases hq : s.taskQueue with
  | nil =>
    refine ⟨.outer true,_,_,rfl,rfl,.inr ⟨rfl,rfl,?_⟩⟩
    simp [remaining,goto,hq,Point.left]
  | cons p queue =>
    obtain ⟨u,hu⟩ := Option.isSome_iff_exists.mp (h.queued p (by rw [hq]; exact List.mem_cons_self))
    obtain ⟨v,hv⟩ := Option.ne_none_iff_exists'.mp (u.mark_ne_none now)
    simp only [hu, Option.bind_some, hv, Option.map_some]
    refine ⟨.branch p,_,_,rfl,rfl,.inr ⟨rfl,rfl,?_⟩⟩
    simp only [remaining, hq, List.length_cons, Point.left, List.isEmpty_cons, Bool.and_false]
    split <;> omega

/-- A worker that has the mutex can go on, and comes closer to unlocking it. -/
theorem exists_advance (now : TimePoint) (h : Built s) (ha : s.threads[i]? = some a) (hold : a.holding = true) :
    ∃ b t es, s.execute i now a = some (t,es) ∧ Advance s t i a b := by
  cases a with
  | unborn | guard | waiting | woken | call p c | inside p c | relock | returned | terminated => cases hold
  | outer survival =>
    cases survival with
    | true | false =>
      refine ⟨_,_,_,rfl,rfl,.inr ⟨rfl,rfl,?_⟩⟩
      simp [remaining,goto,Point.left]
  | survey | resurvey | idleUp | idleDown survival =>
    refine ⟨_,_,_,rfl,rfl,.inr ⟨rfl,rfl,?_⟩⟩
    simp [remaining,goto,Point.left]
  | wait | unguard | unlock p c => exact ⟨_,_,_,rfl,rfl,.inl rfl⟩
  | inner survival =>
    refine ⟨_,_,_,rfl,rfl,.inr ⟨rfl,by split <;> rfl,?_⟩⟩
    simp only [remaining, goto]
    split
    · simp [Point.left]
    · rename_i hne
      simp [Point.left,hne]
  | take survival =>
    cases survival with
    | false =>
      refine ⟨_,_,_,rfl,rfl,.inr ⟨rfl,rfl,?_⟩⟩
      simp [remaining,goto,Point.left]
    | true => exact takeTask_advance h
  | branch p =>
    obtain ⟨u,hu⟩ := Option.isSome_iff_exists.mp (h.taken _ (List.mem_of_getElem? ha) p rfl)
    have hs : s.execute i now (.branch p) = some _ := congrArg (Option.map _) hu
    refine ⟨_,_,_,hs,rfl,.inr ⟨rfl,by split <;> rfl,?_⟩⟩
    simp only [remaining, goto]
    split <;> simp [Point.left]

theorem initialised_iff : s.initialised = true ↔ s.begun = true ∧
    s.threads ≠ [] ∧ (∀ c ∈ s.threads, c.born = true) ∧ ∀ j ∈ s.joinable, j = false := by
  simp [initialised,and_assoc]

theorem initialised_set (hs : s.initialised = true) (ht : t.threads = s.threads.set i b) (hb : b.born = true)
    (hbegun : t.begun = s.begun) (hjoinable : t.joinable = s.joinable) : t.initialised = true := by
  obtain ⟨hbeg,hne,hborn,hj⟩ := initialised_iff.mp hs
  refine initialised_iff.mpr ⟨hbegun.trans hbeg,fun hnil => ?_,fun c hc => ?_,hjoinable ▸ hj⟩
  · rw [ht] at hnil
    exact hne ((List.set_eq_nil_iff i b).mp hnil)
  · rw [ht] at hc
    rcases List.mem_or_eq_of_mem_set hc with hc | rfl
    · exact hborn c hc
    · exact hb

/-- A worker unlocks the mutex in the end. -/
theorem unlocks {n : ThreadNum} (hr : (machine F n).Runs Machine.Any tr s) (hinit : s.initialised = true)
    (hm : s.mutex = some (.worker i)) :
    ∃ post t, (machine F n).Runs Machine.Any (tr ++ post) t ∧ t.mutex = none ∧ t.stop = s.stop ∧
      t.initialised = true := by
  have howns := (sound_of_runs hr).owns
  rw [hm] at howns
  obtain ⟨a,ha,hold⟩ := howns.exists_point
  clear howns
  -- Induction on what is left of the worker's turn, with the queue and the point varying.
  induction hk : s.remaining a using Nat.strong_induction_on generalizing s a tr with
  | _ k ih =>
    obtain ⟨b,t,es,hs,hadv⟩ := exists_advance 0 (sound_of_runs hr).toBuilt ha hold
    have hr' := hr.next trivial (show (machine F n).step s (.worker i 0) = some (t,es) by
      change s.threads[i]?.bind _ = _
      rw [ha]
      exact hs)
    obtain ⟨c,hmoved⟩ := execute_cases hs
    have hinit' := initialised_set hinit hmoved.threads hmoved.born hmoved.begun hmoved.joinable
    rcases hadv.mutex with hnone | ⟨hm',hb,hlt⟩
    · exact ⟨es,t,hr',hnone,hmoved.stop,hinit'⟩
    · have hat : t.threads[i]? = some b := by
        rw [hadv.threads, List.getElem?_set_self (List.getElem?_eq_some_iff.mp ha).1]
      obtain ⟨post,u,hru,hfree,hstop,hu⟩ := ih _ (hk ▸ hlt) hr' hinit' (hm'.trans hm) b hat hb rfl
      rw [List.append_assoc] at hru
      exact ⟨es ++ post,u,hru,hfree,hstop.trans hmoved.stop,hu⟩

/-- What the next statement of `AddTask` leaves as it is. -/
theorem executeAdd_initialised {k : ℕ} (hs : s.executeAdd k s.adder = some (t,es)) (hinit : s.initialised = true) :
    t.initialised = true := by
  have hadded := executeAdd_cases hs
  rcases hadded.threads with ht | ⟨-,ht⟩
  · rwa [initialised, hadded.begun, ht, hadded.joinable]
  · exact initialised_set hinit ht rfl hadded.begun hadded.joinable

/-- A waiter that can be notified. -/
theorem exists_notifyOne (ts : List Point) : ∃ k ts', notifyOne k ts = some ts' := by
  by_cases hw : .waiting ∈ ts
  · obtain ⟨k,hk⟩ := List.mem_iff_getElem?.mp hw
    exact ⟨k,ts.set k .woken,by rw [notifyOne, if_pos hw, if_pos hk]⟩
  · exact ⟨0,ts,by rw [notifyOne, if_neg hw]⟩

theorem exists_executeAdd (h : s.adder.holding = true) : ∃ k t es, s.executeAdd k s.adder = some (t,es) ∧
    t.stop = s.stop ∧ t.adder.left < s.adder.left ∧ (t.mutex = none ∨ t.adder.holding = true) := by
  cases hp : s.adder with
  | outside =>
    rw [hp] at h
    cases h
  | push p => exact ⟨0,_,_,rfl,rfl,by simp [AddPoint.left],.inr rfl⟩
  | test p => exact ⟨0,_,_,rfl,rfl,by dsimp only; split <;> simp [AddPoint.left],.inr (by dsimp only; split <;> rfl)⟩
  | notify p =>
    obtain ⟨k,ts,hts⟩ := exists_notifyOne s.threads
    exact ⟨k,_,_,congrArg (Option.map _) hts,rfl,by simp [AddPoint.left],.inr rfl⟩
  | unguard => exact ⟨0,_,_,rfl,rfl,by simp [AddPoint.left],.inl rfl⟩

/-- And so does a call of `AddTask`. -/
theorem add_unlocks {n : ThreadNum} (hr : (machine F n).Runs Machine.Any tr s) (hinit : s.initialised = true)
    (hold : s.adder.holding = true) :
    ∃ post t, (machine F n).Runs Machine.Any (tr ++ post) t ∧ t.mutex = none ∧ t.stop = s.stop ∧
      t.initialised = true := by
  induction hk : s.adder.left using Nat.strong_induction_on generalizing s tr with
  | _ left ih =>
    obtain ⟨k,t,es,hs,hstop,hlt,hcase⟩ := exists_executeAdd hold
    have hr' := hr.next trivial (show (machine F n).step s (.adder k) = some (t,es) from hs)
    have hinit' := executeAdd_initialised hs hinit
    rcases hcase with hnone | hheld
    · exact ⟨es,t,hr',hnone,hstop,hinit'⟩
    · obtain ⟨post,u,hru,hfree,hstop',hu⟩ := ih _ (hk ▸ hlt) hr' hinit' hheld rfl
      rw [List.append_assoc] at hru
      exact ⟨es ++ post,u,hru,hfree,hstop'.trans hstop,hu⟩

section Raises
variable {n : ThreadNum}

theorem step_stop : (machine F n).step s .stop = s.executeStop s.stop := rfl

/-- The next statement of `Stop`, after which it goes on to raise. -/
theorem raises_after (hr : (machine F n).Runs Machine.Any tr s) (hs : s.executeStop s.stop = some (t,es))
    (hc : (machine F n).Runs Machine.Any (tr ++ es) t →
      (machine F n).Continues Machine.Any (tr ++ es) .stopRaised) :
    (machine F n).Continues Machine.Any tr .stopRaised :=
  (hc (hr.next trivial (step_stop.trans hs))).after

theorem raises_from_unwinding (hr : (machine F n).Runs Machine.Any tr s) (hp : s.stop = .unwinding) :
    (machine F n).Continues Machine.Any tr .stopRaised := by
  have hs : s.executeStop s.stop = some ({ s with mutex := none, stop := .idle },[.stopRaised]) := by
    rw [hp, executeStop]
  exact ⟨_,_,hr.next trivial (step_stop.trans hs),List.mem_singleton_self _⟩

/-- The first thread is not joinable. -/
theorem raises_from_join {k : ℕ} (hr : (machine F n).Runs Machine.Any tr s) (hp : s.stop = .join k)
    (hj : s.joinable[k]? = some false) : (machine F n).Continues Machine.Any tr .stopRaised := by
  have hs : s.executeStop s.stop = some ({ s with stop := .unwinding },[]) := by
    rw [hp, executeStop, hj]
  exact raises_after hr hs (fun hr' => raises_from_unwinding hr' rfl)

theorem raises_from_notify (hr : (machine F n).Runs Machine.Any tr s) (hp : s.stop = .notify)
    (hj : s.joinable[0]? = some false) : (machine F n).Continues Machine.Any tr .stopRaised := by
  have hs : s.executeStop s.stop = some ({ s with threads := s.threads.map wake, stop := .join 0 },[]) := by
    rw [hp, executeStop]
  exact raises_after hr hs (fun hr' => raises_from_join hr' rfl hj)

theorem raises_from_store (hr : (machine F n).Runs Machine.Any tr s) (hp : s.stop = .store)
    (hj : s.joinable[0]? = some false) : (machine F n).Continues Machine.Any tr .stopRaised := by
  have hs : s.executeStop s.stop = some ({ s with state := .stop, stop := .notify },[.stopStored]) := by
    rw [hp, executeStop]
  exact raises_after hr hs (fun hr' => raises_from_notify hr' rfl hj)

theorem Sound.joinable_zero (h : Sound s) (hinit : s.initialised = true) : s.joinable[0]? = some false := by
  obtain ⟨-,hne,-,hj⟩ := initialised_iff.mp hinit
  have hpos : 0 < s.joinable.length := by
    rw [h.size]
    exact List.length_pos_iff.mpr hne
  rw [List.getElem?_eq_getElem hpos, hj _ (List.getElem_mem hpos)]

/-- `Stop` waits for the mutex, which the thread that has it unlocks. -/
theorem raises_from_guard (hr : (machine F n).Runs Machine.Any tr s) (hinit : s.initialised = true)
    (hp : s.stop = .guard) : (machine F n).Continues Machine.Any tr .stopRaised := by
  have hfree : ∀ {tr : List LockEvent} {s : LockedPool F}, (machine F n).Runs Machine.Any tr s →
      s.initialised = true → s.stop = .guard → s.mutex = none →
      (machine F n).Continues Machine.Any tr .stopRaised := by
    intro tr s hr hinit hp hm
    have hs : s.executeStop s.stop = some ({ s with mutex := some .stop, stop := .store },[]) := by
      rw [hp, executeStop, if_pos hm]
    exact raises_after hr hs (fun hr' => raises_from_store hr' rfl ((sound_of_runs hr).joinable_zero hinit))
  have hafter : (∃ post t, (machine F n).Runs Machine.Any (tr ++ post) t ∧ t.mutex = none ∧ t.stop = s.stop ∧
      t.initialised = true) → (machine F n).Continues Machine.Any tr .stopRaised := by
    rintro ⟨post,t,hr',hm',hstop,ht⟩
    obtain ⟨post',u,hru,hmem⟩ := hfree hr' ht (hstop.trans hp) hm'
    rw [List.append_assoc] at hru
    exact ⟨post ++ post',u,hru,List.mem_append_right post hmem⟩
  cases hm : s.mutex with
  | none => exact hfree hr hinit hp hm
  | some holder =>
    cases holder with
    | stop =>
      have hhold := (sound_of_runs hr).stop.mpr hm
      rw [hp] at hhold
      cases hhold
    | worker i => exact hafter (unlocks hr hinit hm)
    | adder => exact hafter (add_unlocks hr hinit ((sound_of_runs hr).adder.mpr hm))

theorem raises_from_idle (hr : (machine F n).Runs Machine.Any tr s) (hinit : s.initialised = true)
    (hp : s.stop = .idle) : (machine F n).Continues Machine.Any tr .stopRaised := by
  have hs : s.executeStop s.stop = some ({ s with stop := .guard },[.stopCalled]) := by
    rw [hp, executeStop, if_pos hinit]
  exact raises_after hr hs (fun hr' => raises_from_guard hr' hinit rfl)

theorem raises_from_unguard (hr : (machine F n).Runs Machine.Any tr s) (hinit : s.initialised = true)
    (hp : s.stop = .unguard) : (machine F n).Continues Machine.Any tr .stopRaised := by
  have hs : s.executeStop s.stop = some ({ s with mutex := none, stop := .idle },[.stopReturned]) := by
    rw [hp, executeStop]
  exact raises_after hr hs (fun hr' => raises_from_idle hr' hinit rfl)

/-- Once `Init` has returned, `Stop` can raise. -/
theorem raises (hr : (machine F n).Runs Machine.Any tr s) (hinit : s.initialised = true) :
    (machine F n).Continues Machine.Any tr .stopRaised := by
  have hzero := (sound_of_runs hr).joinable_zero hinit
  cases hp : s.stop with
  | idle => exact raises_from_idle hr hinit hp
  | guard => exact raises_from_guard hr hinit hp
  | store => exact raises_from_store hr hp hzero
  | notify => exact raises_from_notify hr hp hzero
  | unguard => exact raises_from_unguard hr hinit hp
  | unwinding => exact raises_from_unwinding hr hp
  | join k =>
    cases hk : s.joinable[k]? with
    | none =>
      have hs : s.executeStop s.stop = some ({ s with stop := .unguard },[]) := by
        rw [hp, executeStop, hk]
      exact raises_after hr hs (fun hr' => raises_from_unguard hr' hinit rfl)
    | some j =>
      obtain ⟨-,-,-,hj⟩ := initialised_iff.mp hinit
      rw [hj j (List.mem_of_getElem? hk)] at hk
      exact raises_from_join hr hp hk

end Raises

/-- From no state after `Init` does `Stop` shut the pool down, whatever the workers do: it
can always go on to raise. -/
theorem never_shuts_down {n : ThreadNum} (hr : (machine F n).Runs Machine.Any tr s) (hinit : s.initialised = true) :
    ∃ post t, (machine F n).Runs Machine.Any (tr ++ post) t ∧ ¬ ShutsDown (tr ++ post) t := by
  obtain ⟨post,t,hr',hraised⟩ := raises hr hinit
  exact ⟨post,t,hr',fun h => h.raises (List.mem_append_right tr hraised)⟩

def starts : List (Action Unit) := [.init,.initRun,.spawn 0,.detach 0,.spawn 1,.detach 1]

/-- The pool after `Init`, before a worker has done anything. -/
theorem never_shuts_down_started : ∃ s : LockedPool Unit, (machine Unit .two).Runs Machine.Any [] s ∧
    s.initialised = true ∧
    ∃ post t, (machine Unit .two).Runs Machine.Any ([] ++ post) t ∧ ¬ ShutsDown ([] ++ post) t := by
  obtain ⟨c,hc,htr,hinit⟩ : ∃ c, (machine Unit .two).replay (fun _ _ _ => true) starts
      ([],new .two .unknowing) = some c ∧ c.1 = [] ∧ c.2.initialised = true := ⟨_,rfl,rfl,rfl⟩
  have hr := Machine.replay_runs (P := Machine.Any) (fun _ _ _ _ => trivial) (runs_new .two .unknowing) hc
  rw [htr] at hr
  exact ⟨_,hr,hinit,never_shuts_down hr hinit⟩

/-- `Stop` joins the first thread, which `Init` has detached. -/
theorem join_raises : ∃ tr, ∃ s : LockedPool Unit, (machine Unit .two).Runs Machine.Any tr s ∧
    tr = [.stopCalled,.stopStored,.stopRaised] ∧ ¬ ShutsDown tr s := by
  obtain ⟨c,hc,htr⟩ : ∃ c, (machine Unit .two).replay (fun _ _ _ => true)
      (starts ++ List.replicate 6 .stop) ([],new .two .unknowing) = some c ∧
      c.1 = [.stopCalled,.stopStored,.stopRaised] := ⟨_,rfl,rfl⟩
  have hr := Machine.replay_runs (P := Machine.Any) (fun _ _ _ _ => trivial) (runs_new .two .unknowing) hc
  refine ⟨_,_,hr,htr,fun h => h.raises ?_⟩
  rw [htr]
  simp

end LockedPool
end Kbms
