import Kbms.Foundation.Simulation
import Kbms.Concurrency.PoolWakeup
import Kbms.Concurrency.Sections

/-! # The statements refine the sections

The pool whose mutex is explicit behaves as the one in which a whole section is a step, so
what holds of the sections holds of the statements wherever the mutex is free.
-/
namespace Kbms.LockedPool
open Foundation
open ThreadPool (Dropped counted Worker.locking)
variable {F : Type*} {s t : LockedPool F} {pool pool' : ThreadPool F} {taken l : List TaskPtr} {i : ℕ}
  {a b : Point} {w : Worker} {now : TimePoint} {tr es : List LockEvent}

section Traces

def dequeue : LockEvent → Option TaskPtr
  | .dequeued _ p => some p
  | _ => none

/-- The events of callbacks, without the mutex. -/
def callEvent : LockEvent → Option PoolEvent
  | .entered i p c _ => some (.entered i p c)
  | .left i p c o => some (.left i p c o)
  | _ => none

def isCall : PoolEvent → Bool
  | .entered _ _ _ | .left _ _ _ _ => true
  | _ => false

def dequeues (tr : List LockEvent) : List TaskPtr := tr.filterMap dequeue
def calls (tr : List LockEvent) : List PoolEvent := tr.filterMap callEvent

theorem dequeues_append (xs ys : List LockEvent) : dequeues (xs ++ ys) = dequeues xs ++ dequeues ys :=
  List.filterMap_append
theorem calls_append (xs ys : List LockEvent) : calls (xs ++ ys) = calls xs ++ calls ys :=
  List.filterMap_append

theorem calls_skipped (i : ℕ) (now : TimePoint) (taken : List TaskPtr) :
    (taken.map (fun q => PoolEvent.dequeued i q now none)).filter isCall = [] := by
  simp [List.filter_eq_nil_iff,isCall]

/-- The coarse pool has a run to this state in which the same callbacks are entered and left
in the same order, and the same tasks are dequeued but for those of an open section. -/
structure Explains (tr : List LockEvent) (s : LockedPool F) (tr' : List PoolEvent) (pool : ThreadPool F) : Prop where
  state : ∃ taken, Abstracts s pool taken ∧ dequeues tr = ThreadPool.dequeuedTasks tr' ++ taken
  calls : calls tr = tr'.filter isCall

def Maybe (act : ThreadPool.Action F) (b : Option (ThreadPool.Action F)) : Prop := b = none ∨ b = some act

/-- A worker gets the mutex and a section of it takes effect, or nothing happens. -/
def Acquires (i : ℕ) (b : Option (ThreadPool.Action F)) : Prop := b = none ∨ ∃ now, b = some (.acquire i now)

/-- The steps of the coarse pool that can answer a step of this one. -/
def Mirrors (s : LockedPool F) : Action F → Option (ThreadPool.Action F) → Prop
  | .makeTask p f, b => b = some (.makeTask p f)
  | .makeExpiringTask p f e expiration now, b => b = some (.makeExpiringTask p f e expiration now)
  | .addTask _, b => b = none
  | .adder k, b => b = none ∨ ∃ p, b = some (.addTask p k)
  | .init, b => b = some .init
  | .initRun, b => b = none
  | .spawn i, b => b = some (.spawn i)
  | .detach _, b => b = none
  | .worker i _, b => (∃ p c, s.threads[i]? = some (.call p c) ∧ b = some (.enter i)) ∨
      (∀ p c, s.threads[i]? ≠ some (.call p c)) ∧ Acquires i b
  | .spurious i, b => Maybe (.spurious i) b
  | .finish i o, b => b = some (.finish i o)
  | .stop, b => Maybe .stop b

/-- The coarse pool goes on, in a way that meets `ok`, so that a step with the events `es` to `t`
is explained. -/
def Answered (n : ThreadNum) (ok : Option (ThreadPool.Action F) → Prop) (pool : ThreadPool F) (taken : List TaskPtr)
    (t : LockedPool F) (es : List LockEvent) : Prop :=
  ∃ b es' pool' taken', ok b ∧ (ThreadPool.machine F n).follow pool b = some (pool',es') ∧
    Abstracts t pool' taken' ∧ taken ++ dequeues es = ThreadPool.dequeuedTasks es' ++ taken' ∧
    calls es = es'.filter isCall

variable {n : ThreadNum} {tr' es' : List PoolEvent} {ok ok' : Option (ThreadPool.Action F) → Prop}

theorem Answered.mono (h : Answered n ok pool taken t es) (hok : ∀ b, ok b → ok' b) :
    Answered n ok' pool taken t es := by
  obtain ⟨b,es',pool',taken',hb,hrest⟩ := h
  exact ⟨b,es',pool',taken',hok b hb,hrest⟩

theorem Answered.stutter (hok : ok none) (h : Abstracts t pool l) (hd : taken ++ dequeues es = l)
    (hc : calls es = []) : Answered n ok pool taken t es :=
  ⟨none,[],pool,l,hok,rfl,h,hd,hc⟩

theorem Answered.one {act : ThreadPool.Action F} (hok : ok (some act)) (hs : pool.step act = some (pool',es'))
    (h : Abstracts t pool' l) (hd : taken ++ dequeues es = ThreadPool.dequeuedTasks es' ++ l)
    (hc : calls es = es'.filter isCall) : Answered n ok pool taken t es :=
  ⟨some act,es',pool',l,hok,hs,h,hd,hc⟩

end Traces

section Worker
variable {n : ThreadNum} {tr' : List PoolEvent} {ok : Option (ThreadPool.Action F) → Prop}

/-- A statement in the middle of a section. -/
theorem Answered.inner (hi : Inv tr s) (hok : ok none) (h : Abstracts s pool taken)
    (ha : s.threads[i]? = some a) (hnone : a.worker = none) (hb : b.worker = none) (hframe : Frame s t)
    (ht : t.threads = s.threads.set i b)
    (hd : taken ++ dequeues es = l) (hc : calls es = [])
    (hm : ∀ w, pool.workers[i]? = some w → Midway s pool taken a w → Midway t pool l b w) :
    Answered n ok pool taken t es := by
  obtain ⟨w,hw,hmid⟩ := h.midway i a ha hnone
  have halone := hi.midway_alone ha (Point.holding_of_midway hnone)
  refine .stutter hok (h.move ha hframe ht rfl rfl (set_of_getElem? hw).symm ?_ ?_ ?_ ?_) hd hc
  · intro v hv
    rw [hb] at hv
    cases hv
  · exact fun _ => hm w hw hmid
  · exact fun j c v hj hcj hcnone => absurd hcnone (halone j c hj hcj)
  · exact fun hne => absurd hb hne

/-- The mutex is free, and a worker takes it and begins its section. -/
theorem Answered.begin {e : LockEvent} (hi : Inv tr s) (hok : ok none) (h : Abstracts s pool taken)
    (ha : s.threads[i]? = some a) (hout : a.worker = some w)
    (hlock : Worker.locking w = true) (hb : b.worker = none) (hunc : b.uncounted = true → w = .woken)
    (hcount : b.uncounted = false → w ≠ .woken) (hbranch : ∀ p, b ≠ .branch p)
    (hinf : b.Informed s.isSurvival s.taskQueue.isEmpty) (he : dequeue e = none ∧ callEvent e = none)
    (hs : s.lockTo i b e = some (t,es)) : Answered n ok pool taken t es := by
  rw [lockTo] at hs
  split at hs
  · rename_i hfree
    cases hs
    have hnobody := hi.none_midway (fun k => by rw [hfree]; simp)
    obtain ⟨htasks,hqueue,hidle,rfl⟩ := h.free hnobody
    rw [hi.pushed_eq (i := i) (.inl hfree), List.append_nil] at hqueue
    have hw := h.outside i a w ha hout
    rw [settle_of_ne (by rintro rfl; cases hlock)] at hw
    have hmid : Midway { s.goto i b with mutex := some (.worker i) } pool [] b w := by
      refine ⟨hlock,hunc,?_,hqueue.symm,fun hne => absurd rfl hne,hinf,?_⟩
      · cases hu : b.uncounted with
        | true => exact hidle
        | false =>
          rw [counted, if_neg (hcount hu)]
          exact hidle
      · cases b with
        | branch p => exact absurd rfl (hbranch p)
        | _ => exact ⟨fun q hq => absurd hq List.not_mem_nil,htasks⟩
    refine .stutter hok (h.move ha ⟨rfl,rfl,rfl,rfl⟩ rfl rfl rfl (set_of_getElem? hw).symm ?_ (fun _ => hmid) ?_ ?_)
      (by simp [dequeues,he.1]) (by simp [calls,he.2])
    · intro v hv
      rw [hb] at hv
      cases hv
    · exact fun j c v _ hcj hcnone => absurd hcnone (hnobody j c hcj)
    · exact fun hne => absurd hb hne
  · cases hs

/-- The last statement of a section, with which it takes effect. -/
theorem Answered.complete {act : ThreadPool.Action F} {es' : List PoolEvent} (hi : Inv tr s)
    (hok : ok (some act)) (h : Abstracts s pool taken)
    (ha : s.threads[i]? = some a) (hnone : a.worker = none) (hb : b.worker = some w) (hw : s.settle w = w)
    (hs : pool.step act = some (pool',es')) (hframe : Frame s t) (hadder : t.adder = s.adder)
    (ht : t.threads = s.threads.set i b) (hpnum : pool'.threadNum = pool.threadNum)
    (hpstate : pool'.state = pool.state) (hpool : pool'.workers = pool.workers.set i w)
    (hfree : t.tasks = pool'.tasks ∧ t.taskQueue = pool'.taskQueue ∧ t.idleCount = pool'.idleCount)
    (hd : taken ++ dequeues es = ThreadPool.dequeuedTasks es') (hc : calls es = es'.filter isCall) :
    Answered n ok pool taken t es := by
  have halone := hi.midway_alone ha (Point.holding_of_midway hnone)
  have hmove : Abstracts t pool' [] := by
    refine h.move ha hframe ht hpnum hpstate hpool ?_ ?_ ?_ ?_
    · intro v hv
      rw [hb] at hv
      cases hv
      exact hw.symm
    · intro hbn
      rw [hb] at hbn
      cases hbn
    · exact fun j c v hj hcj hcnone => absurd hcnone (halone j c hj hcj)
    · intro _ _
      have hpushed := hi.pushed_eq (.inr ((hi.owns.at ha).mp (Point.holding_of_midway hnone)))
      rw [hadder, hpushed, List.append_nil]
      exact ⟨hfree.1,hfree.2.1,hfree.2.2,rfl⟩
  exact .one hok hs hmove (by rw [List.append_nil, hd]) hc

theorem Inv.settle_eq (hi : Inv tr s) (ha : s.threads[i]? = some a) (hold : a.holding = true) (w : Worker) :
    s.settle w = w := by
  have howner := (hi.owns.at ha).mp hold
  rw [settle, if_neg]
  rintro ⟨hnotify,_⟩
  have hstop := hi.stop.mp (by rw [hnotify]; rfl)
  rw [howner] at hstop
  cases hstop

/-- The sections of a worker, from the statement at which they take effect. -/
theorem Answered.idleUp (hi : Inv tr s) (h : Abstracts s pool taken) (ha : s.threads[i]? = some .idleUp)
    (now : TimePoint) (hs : s.execute i now .idleUp = some (t,es)) : Answered n (Acquires i) pool taken t es := by
  cases hs
  obtain ⟨w,hw,hm⟩ := h.midway i _ ha rfl
  have hrun : pool.state = .run :=
    (h.state.trans (hi.published_eq ha rfl)).trans (of_decide_eq_true hm.informed.1)
  have hempty : s.taskQueue = [] := List.isEmpty_iff.mp hm.informed.2
  have hqueue : pool.taskQueue = taken := by
    rw [hm.queue, hempty, List.append_nil]
  have hstep := ThreadPool.section_waits now hw hm.locking hrun hqueue hm.tasks.1
  refine .complete hi (.inr ⟨now,rfl⟩) h ha rfl rfl (hi.settle_eq ha rfl _) hstep
    ⟨rfl,rfl,rfl,rfl⟩ rfl rfl rfl rfl rfl ?_ ?_ ?_
  · exact ⟨hm.tasks.2,hempty,congrArg sizeInc hm.idle⟩
  · rw [ThreadPool.dequeuedTasks_skipped]
    exact List.append_nil taken
  · rw [calls_skipped]
    rfl

theorem Answered.unguard (hi : Inv tr s) (h : Abstracts s pool taken) (ha : s.threads[i]? = some .unguard)
    (now : TimePoint) (hs : s.execute i now .unguard = some (t,es)) : Answered n (Acquires i) pool taken t es := by
  cases hs
  obtain ⟨w,hw,hm⟩ := h.midway i _ ha rfl
  have hoff : s.isSurvival = false := hm.informed
  have hrun : pool.state ≠ .run := by
    rw [h.state, hi.published_eq ha rfl]
    exact of_decide_eq_false hoff
  obtain rfl : taken = [] := by
    by_contra hne
    rw [hm.running hne] at hoff
    cases hoff
  have hstep := ThreadPool.section_exits now hw hm.locking hrun
  exact .complete hi (.inr ⟨now,rfl⟩) h ha rfl rfl (hi.settle_eq ha rfl _) hstep ⟨rfl,rfl,rfl,rfl⟩ rfl rfl rfl rfl rfl
    ⟨hm.tasks.2,hm.queue.symm,hm.idle⟩ rfl rfl

/-- The branch for the task that has been taken: it is selected or dropped. -/
theorem Answered.branch {p : TaskPtr} (hi : Inv tr s) (h : Abstracts s pool taken)
    (ha : s.threads[i]? = some (.branch p)) (now : TimePoint)
    (hs : s.execute i now (.branch p) = some (t,es)) : Answered n (Acquires i) pool taken t es := by
  obtain ⟨x,hx,hs⟩ := Option.map_eq_some_iff.mp hs
  obtain ⟨w,hw,hm⟩ := h.midway i _ ha rfl
  obtain ⟨dropped,now,u,v,rfl,hdrop,hu,hmark,htasks⟩ := hm.tasks
  have hv : x = v := by
    rw [htasks, Function.update_self] at hx
    exact (Option.some.inj hx).symm
  subst hv
  have hrun : pool.state = .run := (h.state.trans (hi.published_eq ha rfl)).trans (of_decide_eq_true hm.informed)
  have hqueue : pool.taskQueue = dropped ++ p :: s.taskQueue := by
    rw [hm.queue, List.append_assoc]
    rfl
  cases hsel : x.selected with
  | some c =>
    rw [hsel] at hs
    cases hs
    have hstep := ThreadPool.section_selects hw hm.locking hrun hqueue hdrop hu hmark hsel
    refine .complete hi (.inr ⟨now,rfl⟩) h ha rfl rfl (hi.settle_eq ha rfl _) hstep ⟨rfl,rfl,rfl,rfl⟩ rfl rfl rfl rfl rfl
      ⟨htasks,rfl,hm.idle⟩ ?_ ?_
    · rw [ThreadPool.dequeuedTasks_append, ThreadPool.dequeuedTasks_skipped]
      exact List.append_nil _
    · rw [List.filter_append, calls_skipped]
      rfl
  | none =>
    rw [hsel] at hs
    cases hs
    obtain ⟨rfl,hlast⟩ := Task.dropped_of_mark hmark hsel
    have hsame : Function.update pool.tasks p (some x) = pool.tasks := by
      rw [← hu]
      exact Function.update_eq_self p pool.tasks
    refine .inner hi (.inl rfl) h ha rfl rfl ⟨rfl,rfl,rfl,rfl⟩ rfl (List.append_nil _) rfl (fun v hv hm => ?_)
    refine ⟨hm.locking,fun hunc => (by cases hunc),hm.idle,hm.queue,hm.running,fun hoff => (by cases hoff),?_,?_⟩
    · intro q hq
      rcases List.mem_append.mp hq with hq | hq
      · exact hdrop q hq
      · obtain rfl := List.mem_singleton.mp hq
        exact ⟨x,hu,hlast⟩
    · exact htasks.trans hsame

theorem Answered.take (hi : Inv tr s) (h : Abstracts s pool taken) (ha : s.threads[i]? = some (.take true))
    (now : TimePoint) (hs : s.takeTask i now = some (t,es)) : Answered n (Acquires i) pool taken t es := by
  obtain ⟨w,hw,hm⟩ := h.midway i _ ha rfl
  obtain ⟨hrun,hempty⟩ := hm.informed
  rw [takeTask] at hs
  split at hs
  · rename_i hqueue
    have hne := hempty rfl
    rw [hqueue] at hne
    cases hne
  · rename_i p queue hqueue
    obtain ⟨v,hv,hs⟩ := Option.map_eq_some_iff.mp hs
    cases hs
    obtain ⟨u,hu,hmark⟩ := Option.bind_eq_some_iff.mp hv
    refine .inner hi (.inl rfl) h ha rfl rfl ⟨rfl,rfl,rfl,rfl⟩ rfl rfl rfl (fun v' hv' hm => ?_)
    refine ⟨hm.locking,fun hunc => (by cases hunc),hm.idle,?_,fun _ => hrun.symm,hrun.symm,?_⟩
    · rw [hm.queue, hqueue]
      exact (List.append_assoc taken [p] queue).symm
    · exact ⟨taken,now,u,v,rfl,hm.tasks.1,hm.tasks.2 ▸ hu,hmark,by rw [hm.tasks.2]⟩

/-- The head of `Run` or of `ExpireRun`. The coarse pool sees the same task there, as another
worker marks only tasks that wait. -/
theorem Answered.call {p : TaskPtr} {c : Callback} (h : Abstracts s pool taken)
    (ha : s.threads[i]? = some (.call p c)) (hw : pool.workers[i]? = some (.selected p c))
    (hp : s.tasks p = pool.tasks p) (now : TimePoint) (hs : s.execute i now (.call p c) = some (t,es)) :
    Answered n (· = some (.enter i)) pool taken t es := by
  obtain ⟨u,hu,hs⟩ := Option.map_eq_some_iff.mp hs
  have hpu : pool.tasks p = some u := hp ▸ hu
  have hstep : pool.step (.enter i) = pool.enter i := rfl
  rw [ThreadPool.enter, hw] at hstep
  dsimp only at hstep
  rw [hpu, Option.map_some] at hstep
  split at hs
  · rename_i hacc
    cases hs
    rw [if_pos hacc] at hstep
    have hmove := h.shift (t := s.goto i (.inside p c)) ha rfl rfl ⟨rfl,rfl,rfl,rfl⟩ rfl rfl rfl rfl rfl
    rw [settle_of_ne (by simp)] at hmove
    exact .one rfl hstep hmove (List.append_nil _) rfl
  · rename_i hacc
    cases hs
    rw [if_neg hacc] at hstep
    have hmove := h.shift (t := s.goto i .relock) ha rfl rfl ⟨rfl,rfl,rfl,rfl⟩ rfl rfl rfl rfl rfl
    rw [settle_of_ne (by simp)] at hmove
    exact .one rfl hstep hmove (List.append_nil _) rfl

/-- The task of a worker is the same in both pools. -/
theorem Abstracts.tasks_eq (hr : (ThreadPool.machine F n).Runs Machine.Any tr' pool)
    (h : Abstracts s pool taken) (hw : pool.workers[i]? = some w) {p : TaskPtr} {c : Callback}
    (hp : w.work = some (p,c)) : s.tasks p = pool.tasks p := by
  rcases h.midway_or_same with ⟨a,v,hm⟩ | htasks
  · have hpos := (ThreadPool.ledger_of_runs hr).selected_pos (List.mem_of_getElem? hw) hp
    obtain ⟨u,hu,hstate⟩ := (ThreadPool.started_of_runs hr p).mp hpos
    rw [hu]
    exact hm.tasks.eq_at hu hstate
  · rw [htasks]

theorem Abstracts.inside_iff (h : Abstracts s pool taken) (i : ℕ) (p : TaskPtr) (c : Callback) :
    s.threads[i]? = some (.inside p c) ↔ pool.workers[i]? = some (.inside p c) := by
  constructor
  · intro ha
    rw [h.outside i _ _ ha rfl, settle_of_ne (by simp)]
  · intro hw
    obtain ⟨a,ha⟩ : ∃ a, s.threads[i]? = some a := by
      have hlt := (List.getElem?_eq_some_iff.mp hw).1
      exact ⟨_,List.getElem?_eq_getElem (h.length ▸ hlt)⟩
    cases haw : a.worker with
    | none =>
      obtain ⟨w,hw',hm⟩ := h.midway i a ha haw
      rw [hw] at hw'
      cases hw'
      cases hm.locking
    | some w =>
      have hout := h.outside i a w ha haw
      rw [hw, settle] at hout
      have hinside : w = .inside p c := by
        split at hout
        · cases hout
        · exact (Option.some.inj hout).symm
      subst hinside
      rw [ha]
      cases a <;> cases haw
      rfl

/-- The statements of a worker other than the head of its callback. -/
theorem Answered.section (hi : Inv tr s) (h : Abstracts s pool taken) (ha : s.threads[i]? = some a)
    (hcall : ∀ p c, a ≠ .call p c) (now : TimePoint) (hs : s.execute i now a = some (t,es)) :
    Answered n (Acquires i) pool taken t es := by
  cases a with
  | unborn | waiting | inside p c | returned | terminated => cases hs
  | guard | relock =>
    have hinf : (Point.outer true).Informed s.isSurvival s.taskQueue.isEmpty := fun hoff => (by cases hoff)
    exact .begin hi (.inl rfl) h ha rfl rfl rfl (fun hu => (by cases hu)) (by simp) (by simp) hinf ⟨rfl,rfl⟩ hs
  | woken =>
    have hinf : Point.resurvey.Informed s.isSurvival s.taskQueue.isEmpty := trivial
    exact .begin hi (.inl rfl) h ha rfl rfl rfl (by simp) (fun hu => (by cases hu)) (by simp) hinf ⟨rfl,rfl⟩ hs
  | outer survival =>
    cases survival with
    | true =>
      cases hs
      exact .inner hi (.inl rfl) h ha rfl rfl ⟨rfl,rfl,rfl,rfl⟩ rfl (List.append_nil _) rfl (fun v hv hm =>
        ⟨hm.locking,hm.woken,hm.idle,hm.queue,hm.running,trivial,hm.tasks⟩)
    | false =>
      cases hs
      exact .inner hi (.inl rfl) h ha rfl rfl ⟨rfl,rfl,rfl,rfl⟩ rfl (List.append_nil _) rfl (fun v hv hm =>
        ⟨hm.locking,hm.woken,hm.idle,hm.queue,hm.running,hm.informed rfl,hm.tasks⟩)
  | survey =>
    cases hs
    exact .inner hi (.inl rfl) h ha rfl rfl ⟨rfl,rfl,rfl,rfl⟩ rfl (List.append_nil _) rfl (fun v hv hm =>
      ⟨hm.locking,hm.woken,hm.idle,hm.queue,hm.running,rfl,hm.tasks⟩)
  | resurvey =>
    cases hs
    exact .inner hi (.inl rfl) h ha rfl rfl ⟨rfl,rfl,rfl,rfl⟩ rfl (List.append_nil _) rfl (fun v hv hm =>
      ⟨hm.locking,hm.woken,hm.idle,hm.queue,hm.running,rfl,hm.tasks⟩)
  | idleDown survival =>
    obtain ⟨rfl,rfl⟩ := Prod.mk.inj (Option.some.inj hs)
    exact .inner hi (.inl rfl) h ha rfl rfl ⟨rfl,rfl,rfl,rfl⟩ rfl (List.append_nil _) rfl
      (fun v hv hm => hm.down rfl rfl rfl rfl)
  | inner survival =>
    obtain ⟨w,_,hm⟩ := h.midway i _ ha rfl
    have hrun : survival = s.isSurvival := hm.informed
    subst hrun
    cases hs
    cases hrun : s.isSurvival with
    | true =>
      cases hempty : s.taskQueue.isEmpty with
      | true =>
        exact .inner hi (.inl rfl) h ha rfl rfl ⟨rfl,rfl,rfl,rfl⟩ rfl (List.append_nil _) rfl (fun v hv hm =>
          ⟨hm.locking,hm.woken,hm.idle,hm.queue,hm.running,⟨hrun,hempty⟩,hm.tasks⟩)
      | false =>
        exact .inner hi (.inl rfl) h ha rfl rfl ⟨rfl,rfl,rfl,rfl⟩ rfl (List.append_nil _) rfl (fun v hv hm =>
          ⟨hm.locking,hm.woken,hm.idle,hm.queue,hm.running,⟨hrun.symm,fun _ => hempty⟩,hm.tasks⟩)
    | false =>
      exact .inner hi (.inl rfl) h ha rfl rfl ⟨rfl,rfl,rfl,rfl⟩ rfl (List.append_nil _) rfl (fun v hv hm =>
        ⟨hm.locking,hm.woken,hm.idle,hm.queue,hm.running,⟨hrun.symm,fun hon => (by cases hon)⟩,hm.tasks⟩)
  | idleUp => exact .idleUp hi h ha now hs
  | wait =>
    have hw := h.outside i _ _ ha rfl
    have hmove := h.shift (t := { s.goto i .waiting with mutex := none }) ha rfl rfl ⟨rfl,rfl,rfl,rfl⟩ rfl rfl rfl rfl rfl
    rw [set_of_getElem? hw] at hmove
    cases hs
    exact .stutter (.inl rfl) hmove (List.append_nil _) rfl
  | take survival =>
    cases survival with
    | true => exact .take hi h ha now hs
    | false =>
      cases hs
      exact .inner hi (.inl rfl) h ha rfl rfl ⟨rfl,rfl,rfl,rfl⟩ rfl (List.append_nil _) rfl (fun v hv hm =>
        ⟨hm.locking,hm.woken,hm.idle,hm.queue,hm.running,fun _ => hm.informed.1.symm,hm.tasks⟩)
  | branch p => exact .branch hi h ha now hs
  | unlock p c =>
    have hw := h.outside i _ _ ha rfl
    have hmove := h.shift (t := { s.goto i (.call p c) with mutex := none }) ha rfl rfl ⟨rfl,rfl,rfl,rfl⟩ rfl rfl rfl rfl rfl
    rw [set_of_getElem? hw] at hmove
    cases hs
    exact .stutter (.inl rfl) hmove (List.append_nil _) rfl
  | call p c => exact absurd rfl (hcall p c)
  | unguard => exact .unguard hi h ha now hs

/-- Every statement of a worker. -/
theorem Answered.execute (hi : Inv tr s) (hr : (ThreadPool.machine F n).Runs Machine.Any tr' pool)
    (h : Abstracts s pool taken) (ha : s.threads[i]? = some a) (now : TimePoint)
    (hs : s.execute i now a = some (t,es)) : Answered n (Mirrors s (.worker i now)) pool taken t es := by
  by_cases hcall : ∃ p c, a = .call p c
  · obtain ⟨p,c,rfl⟩ := hcall
    have hw := h.outside i _ _ ha rfl
    rw [settle_of_ne (by simp)] at hw
    have hcalled := Answered.call (n := n) h ha hw (h.tasks_eq hr hw rfl) now hs
    exact hcalled.mono (fun b hb => .inl ⟨p,c,ha,hb⟩)
  · push Not at hcall
    refine (Answered.section (n := n) hi h ha hcall now hs).mono (fun b hb => .inr ⟨fun p c hpc => ?_,hb⟩)
    rw [ha] at hpc
    exact hcall p c (Option.some.inj hpc)

/-- A callback ends, maybe while another worker is in the middle of a section. -/
theorem Answered.finish {o : Outcome} (hp : Permitted tr s (.finish i o))
    (hr : (ThreadPool.machine F n).Runs Machine.Any tr' pool) (h : Abstracts s pool taken)
    (hs : s.finish i o = some (t,es)) : Answered n (· = some (.finish i o)) pool taken t es := by
  rw [LockedPool.finish] at hs
  split at hs
  · rename_i p c ha
    obtain ⟨u,hu,hs⟩ := Option.bind_eq_some_iff.mp hs
    have hw := h.outside i _ _ ha rfl
    rw [settle_of_ne (by simp)] at hw
    have hpu : pool.tasks p = some u := h.tasks_eq hr hw rfl ▸ hu
    have hpos := (ThreadPool.ledger_of_runs hr).selected_pos (List.mem_of_getElem? hw) rfl
    obtain ⟨u',hu',hstarted⟩ := (ThreadPool.started_of_runs hr p).mp hpos
    obtain rfl : u' = u := Option.some.inj (hu'.symm.trans hpu)
    have hstep : pool.step (.finish i o) = pool.finish i o := rfl
    rw [ThreadPool.finish, hw] at hstep
    dsimp only at hstep
    rw [hpu, Option.bind_some] at hstep
    cases o with
    | returned =>
      dsimp only at hs hstep
      split at hs
      · rename_i hcall
        rw [if_pos hcall] at hstep
        obtain ⟨rfl,rfl⟩ := Prod.mk.inj (Option.some.inj hs)
        have hx : ∀ v, pool.tasks p = some v → v.state ≠ .waiting ∧ u'.finished = v.finished := by
          intro v hv
          rw [hpu] at hv
          cases hv
          exact ⟨hstarted,rfl⟩
        refine .one rfl hstep (h.move ha ⟨rfl,rfl,rfl,rfl⟩ rfl rfl rfl rfl ?_ ?_ ?_ ?_) (List.append_nil _) rfl
        · intro v hv
          cases hv
          exact (settle_of_ne (by simp)).symm
        · exact fun hnone => (by cases hnone)
        · exact fun j c v _ _ _ hm => hm.update hx rfl rfl rfl rfl rfl rfl rfl
        · intro _ hothers
          obtain ⟨htasks,hqueue,hidle,htaken⟩ := h.free_of_others ha (by simp [Point.worker]) hothers
          exact ⟨congrArg (Function.update · p (some u'.finished)) htasks,hqueue,hidle,htaken⟩
      · cases hs
    | threw =>
      obtain rfl : c = .taskFun := by
        cases c with
        | taskFun => rfl
        | expireFun => cases hp p ha
      cases hs
      have hmove := h.shift (t := s.goto i .relock) ha rfl rfl ⟨rfl,rfl,rfl,rfl⟩ rfl rfl rfl rfl rfl
      rw [settle_of_ne (by simp)] at hmove
      exact .one rfl hstep hmove (List.append_nil _) rfl
  · cases hs

end Worker

section Others
variable {n : ThreadNum} {tr' : List PoolEvent} {p : TaskPtr}

theorem Answered.construct {u : Task F} (h : Abstracts s pool taken) (act : ThreadPool.Action F)
    (hact : pool.step act = pool.construct p u) (hs : s.construct p u = some (t,es)) :
    Answered n (· = some act) pool taken t es := by
  rw [LockedPool.construct] at hs
  split at hs
  · rename_i hnew
    have hnone : pool.tasks p = none := h.tasks_none.mp (Option.isNone_iff_eq_none.mp hnew)
    cases hs
    rw [ThreadPool.construct, if_pos (Option.isNone_iff_eq_none.mpr hnone)] at hact
    have hx : ∀ v, pool.tasks p = some v → v.state ≠ .waiting ∧ u = v.finished := by
      intro v hv
      rw [hnone] at hv
      cases hv
    refine .one rfl hact (h.still ⟨rfl,rfl,rfl,rfl⟩ rfl rfl rfl rfl ?_ ?_) (List.append_nil _) rfl
    · exact fun j c v _ _ hm => hm.update hx rfl rfl rfl rfl rfl rfl rfl
    · exact fun htasks hqueue hidle => ⟨congrArg (Function.update · p (some u)) htasks,hqueue,hidle⟩
  · cases hs

/-- While neither a worker nor `Stop` has the mutex, each thread stands where the coarse pool sees it. -/
theorem Inv.outside (hi : Inv tr s) (h : Abstracts s pool taken) (hm : s.mutex = none ∨ s.mutex = some .adder) :
    ∀ (j : ℕ) c, s.threads[j]? = some c → ∃ w, c.worker = some w ∧ pool.workers[j]? = some w := by
  have hnobody := hi.none_midway (fun k => by rcases hm with hm | hm <;> simp [hm])
  intro j c hc
  obtain ⟨w,hw⟩ := Option.ne_none_iff_exists'.mp (hnobody j c hc)
  have hpw := h.outside j c w hc hw
  rw [settle, if_neg] at hpw
  · exact ⟨w,hw,hpw⟩
  · rintro ⟨hnotify,_⟩
    have hstop := hi.stop.mp (by rw [hnotify]; rfl)
    rcases hm with hm | hm <;> rw [hm] at hstop <;> cases hstop

/-- With the mutex free nobody is in a section, and the pools are equal. -/
theorem Inv.free (hi : Inv tr s) (h : Abstracts s pool taken) (hm : s.mutex = none) :
    (s.tasks = pool.tasks ∧ s.taskQueue = pool.taskQueue ∧ s.idleCount = pool.idleCount ∧ taken = []) ∧
    ∀ (j : ℕ) c, s.threads[j]? = some c → ∃ w, c.worker = some w ∧ pool.workers[j]? = some w := by
  have hnobody := hi.none_midway (fun k => by rw [hm]; simp)
  obtain ⟨htasks,hqueue,hrest⟩ := h.free hnobody
  rw [hi.pushed_eq (i := 0) (.inl hm), List.append_nil] at hqueue
  exact ⟨⟨htasks,hqueue,hrest⟩,hi.outside h (.inl hm)⟩

theorem waiting_of_worker (h : a.worker = some .waiting) (hold : a.holding = false) : a = .waiting := by
  cases a with
  | waiting => rfl
  | wait => cases hold
  | _ => cases h

/-- The same threads wait in both pools. -/
theorem Inv.waiting_iff (hi : Inv tr s) (h : Abstracts s pool taken) (hm : s.mutex = none ∨ s.mutex = some .adder)
    (k : ℕ) : s.threads[k]? = some .waiting ↔ pool.workers[k]? = some .waiting := by
  have hall := hi.outside h hm
  constructor
  · intro hk
    obtain ⟨w,hw,hpw⟩ := hall k _ hk
    cases hw
    exact hpw
  · intro hk
    have hlt := (List.getElem?_eq_some_iff.mp hk).1
    rw [h.length] at hlt
    have hc := List.getElem?_eq_getElem hlt
    obtain ⟨w,hw,hpw⟩ := hall k _ hc
    rw [hk] at hpw
    cases hpw
    have hfree : s.threads[k].holding = false := by
      refine Bool.eq_false_iff.mpr (fun hold => ?_)
      have howner := (hi.owns.at hc).mp hold
      rcases hm with hm | hm <;> rw [hm] at howner <;> cases howner
    rw [hc, waiting_of_worker hw hfree]

section AddTask
variable {k : ℕ}

theorem Answered.addTask (hi : Inv tr s) (h : Abstracts s pool taken) (hs : s.addTask p = some (t,es)) :
    Answered n (· = none) pool taken t es := by
  rw [LockedPool.addTask] at hs
  split at hs
  · rename_i hfree
    have hpushed := hi.pushed_eq (i := 0) (.inl hfree.1)
    cases hs
    exact .stutter rfl (h.congr rfl rfl rfl rfl rfl rfl rfl hpushed.symm Iff.rfl) (List.append_nil _) rfl
  · cases hs

theorem Inv.nobody_of_adder (hi : Inv tr s) (hold : s.adder.holding = true) :
    s.mutex = some .adder ∧ ∀ (j : ℕ) c, s.threads[j]? = some c → c.worker ≠ none := by
  have hm := hi.adder.mp hold
  exact ⟨hm,hi.none_midway (fun k => by rw [hm]; simp)⟩

theorem Answered.push (hi : Inv tr s) (h : Abstracts s pool taken) (hp : s.adder = .push p)
    (hs : s.executeAdd k (.push p) = some (t,es)) : Answered n (· = none) pool taken t es := by
  obtain ⟨-,hnobody⟩ := hi.nobody_of_adder (by rw [hp]; rfl)
  cases hs
  refine .stutter rfl (h.still ⟨rfl,rfl,rfl,rfl⟩ rfl rfl rfl rfl ?_ ?_) (List.append_nil _) rfl
  · exact fun j c v hc hnone _ => absurd hnone (hnobody j c hc)
  · intro htasks hqueue hidle
    rw [hp] at hqueue
    exact ⟨htasks,by rw [hqueue]; simp [AddPoint.pushed],hidle⟩

/-- What the coarse pool knows while a task is to be announced. -/
theorem Abstracts.announcing (hi : Inv tr s) (h : Abstracts s pool taken)
    (hp : s.adder = .test p ∨ s.adder = .notify p) (hbuilt : (s.tasks p).isSome = true) :
    s.taskQueue = pool.taskQueue ++ [p] ∧ s.idleCount = pool.idleCount ∧ taken = [] ∧
      (pool.tasks p).isSome = true ∧ ∀ j : ℕ, s.threads[j]? = some .waiting ↔ pool.workers[j]? = some .waiting := by
  obtain ⟨hm,hnobody⟩ := hi.nobody_of_adder (by rcases hp with hp | hp <;> rw [hp] <;> rfl)
  obtain ⟨htasks,hqueue,hidle,htaken⟩ := h.free hnobody
  have hpushed : s.adder.pushed = [p] := by rcases hp with hp | hp <;> rw [hp] <;> rfl
  exact ⟨hpushed ▸ hqueue,hidle,htaken,htasks ▸ hbuilt,hi.waiting_iff h (.inr hm)⟩

/-- With nobody to wake the coarse pool takes the task now. -/
theorem Answered.announced (hi : Inv tr s) (h : Abstracts s pool taken)
    (hp : s.adder = .test p ∨ s.adder = .notify p) (hbuilt : (s.tasks p).isSome = true)
    (hno : s.idleCount = 0 ∨ .waiting ∉ s.threads) :
    Answered n (· = some (.addTask p k)) pool taken { s with adder := .unguard } [] := by
  obtain ⟨hqueue,hidle,rfl,hbuilt,hwaiting⟩ := h.announcing hi hp hbuilt
  obtain ⟨-,hnobody⟩ := hi.nobody_of_adder (by rcases hp with hp | hp <;> rw [hp] <;> rfl)
  have hno : pool.idleCount = 0 ∨ .waiting ∉ pool.workers := by
    refine hno.imp hidle.symm.trans (fun hno hmem => hno ?_)
    obtain ⟨j,hj⟩ := List.mem_iff_getElem?.mp hmem
    exact List.mem_of_getElem? ((hwaiting j).mpr hj)
  refine .one rfl (ThreadPool.addTask_quiet (k := k) hbuilt hno) (h.still ⟨rfl,rfl,rfl,rfl⟩ rfl rfl rfl rfl ?_ ?_)
    rfl rfl
  · exact fun j c v hc hnone _ => absurd hnone (hnobody j c hc)
  · exact fun htasks _ hidle => ⟨htasks,by rw [hqueue]; simp [AddPoint.pushed],hidle⟩

theorem Answered.test (hi : Inv tr s) (h : Abstracts s pool taken) (hp : s.adder = .test p)
    (hbuilt : (s.tasks p).isSome = true) (hs : s.executeAdd k (.test p) = some (t,es)) :
    Answered n (fun b => b = none ∨ ∃ p, b = some (.addTask p k)) pool taken t es := by
  cases hs
  split
  · refine .stutter (.inl rfl) (h.congr rfl rfl rfl rfl rfl rfl rfl ?_ Iff.rfl) (List.append_nil _) rfl
    rw [hp]
    rfl
  · rename_i hzero
    exact (Answered.announced hi h (.inl hp) hbuilt (.inl (Nat.eq_zero_of_not_pos hzero))).mono
      (fun b hb => .inr ⟨p,hb⟩)

theorem Answered.notifyOne (hi : Inv tr s) (h : Abstracts s pool taken) (hp : s.adder = .notify p)
    (hbuilt : (s.tasks p).isSome = true) (hpos : 0 < s.idleCount)
    (hs : s.executeAdd k (.notify p) = some (t,es)) :
    Answered n (· = some (.addTask p k)) pool taken t es := by
  obtain ⟨ts,hts,hs⟩ := Option.map_eq_some_iff.mp hs
  cases hs
  rw [LockedPool.notifyOne] at hts
  split at hts
  · split at hts
    · rename_i hk
      cases hts
      obtain ⟨hqueue,hidle,rfl,hbuilt,hwaiting⟩ := h.announcing hi (.inr hp) hbuilt
      obtain ⟨-,hnobody⟩ := hi.nobody_of_adder (by rw [hp]; rfl)
      refine .one rfl (ThreadPool.addTask_wakes hbuilt (hidle ▸ hpos) ((hwaiting k).mp hk))
        (h.move hk ⟨rfl,rfl,rfl,rfl⟩ rfl rfl rfl rfl ?_ ?_ ?_ ?_) rfl rfl
      · intro v hv
        cases hv
        exact (settle_of_ne (by simp)).symm
      · exact fun hnone => (by cases hnone)
      · exact fun j c v _ hc hnone _ => absurd hnone (hnobody j c hc)
      · intro _ _
        obtain ⟨htasks,-⟩ := h.free hnobody
        exact ⟨htasks,by rw [hqueue]; simp [AddPoint.pushed],hidle,rfl⟩
    · cases hts
  · rename_i hno
    cases hts
    exact .announced hi h (.inr hp) hbuilt (.inr hno)

theorem Answered.unlocked (h : Abstracts s pool taken) (hp : s.adder = .unguard)
    (hs : s.executeAdd k .unguard = some (t,es)) : Answered n (· = none) pool taken t es := by
  cases hs
  exact .stutter rfl (h.congr rfl rfl rfl rfl rfl rfl rfl (by rw [hp]; rfl) Iff.rfl) (List.append_nil _) rfl

/-- The statements of `AddTask`. `hadd`: its task has been built, and a waiter was counted if it notifies. -/
theorem Answered.executeAdd (hi : Inv tr s) (h : Abstracts s pool taken) (hadd : s.Adding)
    (hs : s.executeAdd k s.adder = some (t,es)) :
    Answered n (fun b => b = none ∨ ∃ p, b = some (.addTask p k)) pool taken t es := by
  cases hp : s.adder with
  | outside =>
    rw [hp] at hs
    cases hs
  | push p =>
    rw [hp] at hs
    exact (Answered.push hi h hp hs).mono (fun _ => .inl)
  | test p =>
    rw [hp] at hs
    exact .test hi h hp (hadd.built p (by rw [hp]; rfl)) hs
  | notify p =>
    rw [hp] at hs
    exact (Answered.notifyOne hi h hp (hadd.built p (by rw [hp]; rfl)) (hadd.counted p hp) hs).mono
      (fun _ hb => .inr ⟨p,hb⟩)
  | unguard =>
    rw [hp] at hs
    exact (Answered.unlocked h hp hs).mono (fun _ => .inl)

end AddTask

theorem Answered.init (hi : Inv tr s) (h : Abstracts s pool taken) (hs : s.init = some (t,es)) :
    Answered n (· = some .init) pool taken t es := by
  rw [LockedPool.init] at hs
  split at hs
  · rename_i hnil
    cases hs
    have hpnil : pool.workers = [] := by
      rw [← List.length_eq_zero_iff, h.length, hnil]
      rfl
    have hstep : pool.step .init = pool.init := rfl
    rw [ThreadPool.init, if_pos hpnil] at hstep
    have hno : s.begun = false := Bool.eq_false_iff.mpr (fun hb => hi.opened hb hnil)
    have hne : List.replicate s.threadNum.val Point.unborn ≠ [] := by
      simp [Nat.pos_iff_ne_zero.mp s.threadNum.pos]
    obtain ⟨htasks,hqueue,hidle,rfl⟩ := h.free (fun j c hc => (by rw [hnil] at hc; cases hc))
    have hunborn : ∀ (j : ℕ) c, (List.replicate s.threadNum.val Point.unborn)[j]? = some c → c = .unborn :=
      fun j c hc => List.eq_of_mem_replicate (List.mem_of_getElem? hc)
    refine .one (l := []) rfl hstep ⟨h.threadNum,?_,?_,?_,?_,fun _ => ⟨htasks,hqueue,hidle,rfl⟩⟩ rfl rfl
    · rw [published, if_pos ⟨hno,hne⟩]
    · dsimp only
      rw [List.length_replicate, List.length_replicate, h.threadNum]
    · intro j c w hc hw
      obtain rfl := hunborn j c hc
      cases hw
      rw [settle_of_ne (by simp), h.threadNum]
      dsimp only at hc
      rw [List.getElem?_replicate] at hc ⊢
      split at hc
      · rename_i hlt
        rw [if_pos hlt]
      · cases hc
    · intro j c hc hnone
      obtain rfl := hunborn j c hc
      cases hnone
  · cases hs

/-- The coarse pool has stored its state already, and no thread is there to read this one. -/
theorem Answered.initRun (hi : Inv tr s) (h : Abstracts s pool taken) (hs : s.initRun = some (t,es)) :
    Answered n (· = none) pool taken t es := by
  rw [LockedPool.initRun] at hs
  split at hs
  · rename_i hopen
    cases hs
    have hstate := h.state
    rw [published, if_pos ⟨hopen.2,hopen.1⟩] at hstate
    refine .stutter rfl ⟨h.threadNum,?_,h.length,h.outside,fun j c hc hnone => ?_,h.free⟩ (List.append_nil _) rfl
    · rw [published, if_neg (by simp)]
      exact hstate
    · rw [hi.begun hopen.2 j c hc] at hnone
      cases hnone
  · cases hs

theorem Answered.spawn (h : Abstracts s pool taken) (hs : s.spawn i = some (t,es)) :
    Answered n (· = some (.spawn i)) pool taken t es := by
  rw [LockedPool.spawn] at hs
  split at hs
  · rename_i hborn
    obtain ⟨-,ha⟩ := hborn
    cases hs
    have hw := h.outside i _ _ ha rfl
    rw [settle_of_ne (by simp)] at hw
    have hstep : pool.step (.spawn i) = pool.advance i .unborn .start := rfl
    rw [ThreadPool.advance, if_pos hw] at hstep
    have hmove := h.shift (t := { s.goto i .guard with joinable := s.joinable.set i true }) ha rfl rfl
      ⟨rfl,rfl,rfl,rfl⟩ rfl rfl rfl rfl rfl
    rw [settle_of_ne (by simp)] at hmove
    exact .one rfl hstep hmove (List.append_nil _) rfl
  · cases hs

theorem Answered.detach (h : Abstracts s pool taken) (hs : s.detach i = some (t,es)) :
    Answered n (· = none) pool taken t es := by
  rw [LockedPool.detach] at hs
  split at hs
  · cases hs
    exact .stutter rfl (h.congr rfl rfl rfl rfl rfl rfl rfl rfl Iff.rfl) (List.append_nil _) rfl
  · cases hs

/-- Once `Stop` has stored its flag the coarse pool has woken the worker already. -/
theorem Answered.spurious (h : Abstracts s pool taken) (hs : s.step (.spurious i) = some (t,es)) :
    Answered n (Maybe (.spurious i)) pool taken t es := by
  rw [LockedPool.step] at hs
  split at hs
  · rename_i ha
    cases hs
    have hw := h.outside i _ _ ha rfl
    have hmove := h.shift (t := s.goto i .woken) ha rfl rfl ⟨rfl,rfl,rfl,rfl⟩ rfl rfl rfl rfl rfl
    rw [settle_of_ne (by simp)] at hmove
    by_cases hnotify : s.stop = .notify
    · rw [settle, if_pos ⟨hnotify,rfl⟩] at hw
      rw [set_of_getElem? hw] at hmove
      exact .stutter (.inl rfl) hmove (List.append_nil _) rfl
    · rw [settle, if_neg (fun hn => hnotify hn.1)] at hw
      have hstep : pool.step (.spurious i) = pool.advance i .waiting .woken := rfl
      rw [ThreadPool.advance, if_pos hw] at hstep
      exact .one (.inr rfl) hstep hmove (List.append_nil _) rfl
  · cases hs

theorem getElem?_notifyAll (ws : List Worker) (j : ℕ) :
    (notifyAll ws)[j]? = ws[j]?.map (fun w => if w = .waiting then .woken else w) := List.getElem?_map

/-- `Stop` stores its flag, and takes effect. -/
theorem Answered.store (hi : Inv tr s) (h : Abstracts s pool taken) (hstop : s.stop = .store)
    (hs : s.executeStop .store = some (t,es)) :
    Answered n (Maybe .stop) pool taken t es := by
  cases hs
  have howner := hi.stop.mp (by rw [hstop]; rfl)
  have hnobody := hi.none_midway (fun k => by rw [howner]; simp)
  obtain ⟨htasks,hqueue,hidle,rfl⟩ := h.free hnobody
  have hstep : pool.step .stop = some ({ pool with state := .stop, workers := notifyAll pool.workers },
      [.stopped !pool.workers.isEmpty]) := rfl
  have hbegun : s.begun = true := hi.stopping (by simp [hstop])
  refine .one (l := []) (.inr rfl) hstep ⟨h.threadNum,?_,?_,?_,?_,fun _ => ⟨htasks,hqueue,hidle,rfl⟩⟩ rfl rfl
  · rw [published, if_neg (by simp [hbegun])]
  · rw [notifyAll, List.length_map]
    exact h.length
  · intro j c w hc hw
    rw [getElem?_notifyAll, h.outside j c w hc hw, settle, settle, hstop]
    simp
  · exact fun j c hc hnone => absurd hnone (hnobody j c hc)

/-- `notify_all`, with which the threads follow those of the coarse pool. -/
theorem Answered.notify (hi : Inv tr s) (h : Abstracts s pool taken) (hstop : s.stop = .notify)
    (hs : s.executeStop .notify = some (t,es)) :
    Answered n (Maybe .stop) pool taken t es := by
  cases hs
  have howner := hi.stop.mp (by rw [hstop]; rfl)
  have hnobody := hi.none_midway (fun k => by rw [howner]; simp)
  obtain ⟨htasks,hqueue,hidle,rfl⟩ := h.free hnobody
  have hwake : ∀ (j : ℕ) c, (s.threads.map wake)[j]? = some c → ∃ a, s.threads[j]? = some a ∧ c = wake a := by
    intro j c hc
    rw [List.getElem?_map] at hc
    obtain ⟨a,ha,hac⟩ := Option.map_eq_some_iff.mp hc
    exact ⟨a,ha,hac.symm⟩
  refine .stutter (l := []) (.inl rfl) ⟨h.threadNum,?_,?_,?_,?_,fun _ => ⟨htasks,hqueue,hidle,rfl⟩⟩ rfl rfl
  · refine h.state.trans (Eq.symm ?_)
    exact published_eq rfl rfl List.map_eq_nil_iff
  · rw [h.length, List.length_map]
  · intro j c w hc hw
    obtain ⟨a,ha,rfl⟩ := hwake j c hc
    cases a with
    | waiting =>
      cases hw
      rw [h.outside j _ _ ha rfl, settle, if_pos ⟨hstop,rfl⟩, settle_of_ne (by simp)]
    | wait =>
      have hm := (hi.owns.at ha).mp rfl
      rw [howner] at hm
      cases hm
    | _ =>
      have hne : w ≠ .waiting := by
        rintro rfl
        cases hw
      rw [h.outside j _ w ha hw, settle_of_ne hne, settle_of_ne hne]
  · intro j c hc hnone
    obtain ⟨a,ha,rfl⟩ := hwake j c hc
    refine absurd ?_ (hnobody j a ha)
    cases a with
    | waiting => cases hnone
    | _ => exact hnone

theorem Answered.executeStop (hi : Inv tr s) (h : Abstracts s pool taken)
    (hs : s.executeStop s.stop = some (t,es)) : Answered n (Maybe .stop) pool taken t es := by
  have hsame : ∀ {u : LockedPool F} {es : List LockEvent}, u.threadNum = s.threadNum → u.state = s.state →
      u.begun = s.begun → u.threads = s.threads → u.tasks = s.tasks → u.taskQueue = s.taskQueue →
      u.idleCount = s.idleCount → u.adder = s.adder → s.stop ≠ .notify → u.stop ≠ .notify → dequeues es = [] → calls es = [] →
      Answered n (Maybe .stop) pool taken u es := by
    intro u es hnum hstate hbegun ht htasks hqueue hidle hadder hbefore hafter hd hc
    have hstop : u.stop = .notify ↔ s.stop = .notify := ⟨fun he => absurd he hafter,fun he => absurd he hbefore⟩
    exact .stutter (.inl rfl) (h.congr hnum hstate hbegun ht htasks hqueue hidle (by rw [hadder]) hstop)
      (by rw [hd, List.append_nil]) hc
  cases hp : s.stop with
  | store =>
    rw [hp] at hs
    exact .store hi h hp hs
  | notify =>
    rw [hp] at hs
    exact .notify hi h hp hs
  | idle | guard =>
    rw [hp, LockedPool.executeStop] at hs
    split at hs
    · cases hs
      exact hsame rfl rfl rfl rfl rfl rfl rfl rfl (by simp [hp]) (by simp) rfl rfl
    · cases hs
  | join k =>
    rw [hp, LockedPool.executeStop] at hs
    split at hs
    · cases hs
      exact hsame rfl rfl rfl rfl rfl rfl rfl rfl (by simp [hp]) (by simp) rfl rfl
    · cases hs
      exact hsame rfl rfl rfl rfl rfl rfl rfl rfl (by simp [hp]) (by simp) rfl rfl
    · split at hs
      · cases hs
        exact hsame rfl rfl rfl rfl rfl rfl rfl rfl (by simp [hp]) (by simp) rfl rfl
      · cases hs
  | unguard | unwinding =>
    rw [hp] at hs
    cases hs
    exact hsame rfl rfl rfl rfl rfl rfl rfl rfl (by simp [hp]) (by simp) rfl rfl

theorem Answered.step {act : Action F} (hi : Inv tr s) (hp : Permitted tr s act)
    (hr : (ThreadPool.machine F n).Runs Machine.Any tr' pool) (h : Abstracts s pool taken)
    (hs : s.step act = some (t,es)) : Answered n (Mirrors s act) pool taken t es := by
  cases act with
  | makeTask p f => exact .construct h (.makeTask p f) rfl hs
  | makeExpiringTask p f e expiration now =>
    exact .construct h (.makeExpiringTask p f e expiration now) rfl hs
  | addTask p => exact .addTask hi h hs
  | adder k => exact .executeAdd hi h hi.toAdding hs
  | init => exact .init hi h hs
  | initRun => exact .initRun hi h hs
  | spawn i => exact .spawn h hs
  | detach i => exact .detach h hs
  | worker i now =>
    obtain ⟨a,ha,hs⟩ := Option.bind_eq_some_iff.mp hs
    exact .execute hi hr h ha now hs
  | spurious i => exact .spurious h hs
  | finish i o => exact .finish hp hr h hs
  | stop => exact .executeStop hi h hs

end Others

theorem Abstracts.new (n : ThreadNum) (st : TPoolState) :
    Abstracts (new n st : LockedPool F) (ThreadPool.new n st) [] where
  threadNum := rfl
  state := rfl
  length := rfl
  outside := fun _ _ _ ha => (by cases ha)
  midway := fun _ _ ha => (by cases ha)
  free := fun _ => ⟨rfl,rfl,rfl,rfl⟩

/-- A forward simulation, in which a section is explained by the statement with which it takes
effect. -/
def refinement (n : ThreadNum) :
    Simulation (machine F n) Permitted (ThreadPool.machine F n) Machine.Any where
  rel := Explains
  initial := by
    rintro _ ⟨st,rfl⟩
    exact ⟨.new n st,⟨st,rfl⟩,⟨[],.new n st,rfl⟩,rfl⟩
  step := by
    intro tr s act t es tr' pool hr hp hs hr' h
    obtain ⟨taken,ha,hd⟩ := h.state
    obtain ⟨b,es',pool',taken',_,hb,ha',hd',hc'⟩ := Answered.step (inv_of_runs hr) hp hr' ha hs
    refine ⟨es',pool',hr'.follow (fun _ _ => trivial) hb,⟨taken',ha',?_⟩,?_⟩
    · rw [dequeues_append, hd, ThreadPool.dequeuedTasks_append, List.append_assoc, hd', List.append_assoc]
    · rw [calls_append, h.calls, hc', List.filter_append]

/-- In every run in which no expiry callback throws. -/
theorem refines {n : ThreadNum} (hr : (machine F n).Runs Permitted tr s) : ∃ tr' pool,
    (ThreadPool.machine F n).Runs Machine.Any tr' pool ∧ Explains tr s tr' pool := (refinement n).runs hr

/-- The worker has taken its task and not tested it yet. -/
theorem refines_midway : ∃ tr, ∃ s : LockedPool Unit, (machine Unit .two).Runs Permitted tr s ∧
    dequeues tr = [0] ∧ s.threads = [.branch 0,.guard] ∧ ∃ tr' pool,
      (ThreadPool.machine Unit .two).Runs Machine.Any tr' pool ∧ Explains tr s tr' pool := by
  obtain ⟨c,hc,htr,hthreads⟩ : ∃ c, (machine Unit .two).replay permits
      (opens ++ .makeTask 0 (some ()) :: adds 0 ++ List.replicate 5 (.worker 0 0))
      ([],new .two .unknowing) = some c ∧ dequeues c.1 = [0] ∧ c.2.threads = [.branch 0,.guard] := ⟨_,rfl,rfl,rfl⟩
  have hr := Machine.replay_runs permitted_of_permits (runs_new .two .unknowing) hc
  exact ⟨_,_,hr,htr,hthreads,refines hr⟩

/-- With the mutex free the threads stand where those of the coarse pool do. -/
theorem Inv.map_worker (hi : Inv tr s) (h : Abstracts s pool taken) (hm : s.mutex = none) :
    s.threads.map Point.worker = pool.workers.map some := by
  obtain ⟨_,hall⟩ := hi.free h hm
  refine List.ext_getElem? (fun j => ?_)
  rw [List.getElem?_map, List.getElem?_map]
  cases hc : s.threads[j]? with
  | some c =>
    obtain ⟨w,hw,hpw⟩ := hall j c hc
    rw [hpw, Option.map_some, Option.map_some, hw]
  | none =>
    have hlen := List.getElem?_eq_none_iff.mp hc
    rw [← h.length] at hlen
    rw [List.getElem?_eq_none hlen]
    rfl

/-- Between `idle_count_++` and `idle_count_--`, without the mutex. -/
def asleepOrWoken (a : Point) : Bool := a = .waiting || a = .woken

theorem Inv.countP_worker (hi : Inv tr s) (h : Abstracts s pool taken) (hm : s.mutex = none) {f : Point → Bool}
    {g : Worker → Bool} (hfg : ∀ a w, a.holding = false → a.worker = some w → f a = g w) :
    s.threads.countP f = pool.workers.countP g := by
  have hcount := congrArg (List.countP (Option.any g)) (hi.map_worker h hm)
  rw [List.countP_map, List.countP_map] at hcount
  refine Eq.trans (List.countP_congr (fun a ha => ?_)) hcount
  obtain ⟨j,hj⟩ := List.mem_iff_getElem?.mp ha
  obtain ⟨w,hw,_⟩ := (hi.free h hm).2 j a hj
  have hfree : a.holding = false := by
    refine Bool.eq_false_iff.mpr (fun hold => ?_)
    have howner := (hi.owns.at hj).mp hold
    rw [hm] at howner
    cases howner
  rw [hfg a w hfree hw, Function.comp_apply, hw]
  rfl

/-- The counter and the wakeups where the mutex is free, which are those of the coarse pool. -/
theorem Inv.covered (hi : Inv tr s) (h : Abstracts s pool taken) (hm : s.mutex = none)
    (hinv : ThreadPool.WakeupInv pool) :
    s.idleCount = s.threads.countP asleepOrWoken ∧
    (.waiting ∈ s.threads → s.taskQueue.length ≤ s.threads.countP (· = .woken)) := by
  obtain ⟨⟨_,hqueue,hidle,_⟩,_⟩ := hi.free h hm
  have hcount : s.threads.countP asleepOrWoken = pool.workers.countP Worker.idle := by
    refine hi.countP_worker h hm (fun a w hfree hw => ?_)
    cases a with
    | wait => cases hfree
    | _ => cases hw <;> rfl
  have hwoken : s.threads.countP (· = .woken) = pool.workers.countP ThreadPool.Worker.isWoken := by
    refine hi.countP_worker h hm (fun a w hfree hw => ?_)
    cases a with
    | wait => cases hfree
    | _ => cases hw <;> rfl
  refine ⟨by rw [hidle, hinv.idle, hcount],fun hmem => ?_⟩
  obtain ⟨j,hj⟩ := List.mem_iff_getElem?.mp hmem
  rw [hqueue, hwoken]
  exact hinv.asleep (List.mem_of_getElem? ((hi.waiting_iff h (.inl hm) j).mp hj))

theorem queue_of_all_waiting (hasleep : .waiting ∈ s.threads → s.taskQueue.length ≤ s.threads.countP (· = .woken))
    (hne : s.threads ≠ []) (hall : ∀ a ∈ s.threads, a = .waiting) : s.taskQueue = [] := by
  obtain ⟨a,hmem⟩ := List.exists_mem_of_ne_nil _ hne
  have hle := hasleep (hall a hmem ▸ hmem)
  have hzero : s.threads.countP (· = .woken) = 0 := by
    rw [List.countP_eq_zero]
    intro b hb
    simp [hall b hb]
  exact List.length_eq_zero_iff.mp (by omega)

/-- Wherever the mutex is free the counter is exact, and as long as a thread sleeps each task of
the queue is covered by a thread that has been woken. -/
theorem wakeups_cover_queue {n : ThreadNum} (hr : (machine F n).Runs Permitted tr s) (hm : s.mutex = none) :
    s.idleCount = s.threads.countP asleepOrWoken ∧
    (.waiting ∈ s.threads → s.taskQueue.length ≤ s.threads.countP (· = .woken)) ∧
    (s.taskQueue ≠ [] → s.threads ≠ [] → ∃ a ∈ s.threads, a ≠ .waiting) := by
  obtain ⟨tr',pool,hr',⟨taken,ha,_⟩,_⟩ := (refinement n).runs hr
  obtain ⟨hidle,hasleep⟩ := (inv_of_runs hr).covered ha hm (ThreadPool.wakeupInv_of_runs hr')
  refine ⟨hidle,hasleep,fun hne hthreads => ?_⟩
  by_contra hall
  push Not at hall
  exact hne (queue_of_all_waiting hasleep hthreads hall)

/-- One of two sleepers is woken for a task. -/
theorem wakeups_cover_queue_two_threads : ∃ tr, ∃ s : LockedPool Unit, (machine Unit .two).Runs Permitted tr s ∧
    s.taskQueue = [0] ∧ s.threads = [.woken,.waiting] ∧
    s.idleCount = s.threads.countP asleepOrWoken ∧
    (.waiting ∈ s.threads → s.taskQueue.length ≤ s.threads.countP (· = .woken)) ∧
    (s.taskQueue ≠ [] → s.threads ≠ [] → ∃ a ∈ s.threads, a ≠ .waiting) := by
  obtain ⟨c,hc,hm,hqueue,hthreads⟩ : ∃ c, (machine Unit .two).replay permits
      (opens ++ List.replicate 6 (.worker 0 0) ++ List.replicate 6 (.worker 1 0) ++
        [.makeTask 0 (some ()),.addTask 0,.adder 0,.adder 0,.adder 0,.adder 0])
      ([],new .two .unknowing) = some c ∧ c.2.mutex = none ∧ c.2.taskQueue = [0] ∧
        c.2.threads = [.woken,.waiting] := ⟨_,rfl,rfl,rfl,rfl⟩
  have hr := Machine.replay_runs permitted_of_permits (runs_new .two .unknowing) hc
  exact ⟨_,_,hr,hqueue,hthreads,wakeups_cover_queue hr hm⟩

end Kbms.LockedPool
