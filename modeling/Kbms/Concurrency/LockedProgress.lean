import Kbms.Foundation.Termination
import Kbms.Concurrency.PoolStop
import Kbms.Concurrency.Refinement

/-! # The workers never block each other for ever

Every statement leaves its worker less to do, and whoever holds the mutex can go on. So as long
as nobody stops the pool its threads come to rest by themselves, and they rest in `Wait`,
with the mutex free and the queue empty.
-/
namespace Kbms
open Foundation
variable {F : Type*}

/-- The most statements that a thread executes before it asks for the next task. -/
def Point.load : Point → ℕ
  | .waiting | .returned | .terminated => 0
  | .wait | .unguard => 1
  | .idleUp | .outer false => 2
  | .take _ => 3
  | .inner _ => 4
  | .survey | .idleDown _ => 5
  | .outer true | .resurvey => 6
  | .guard | .relock | .woken => 7
  | .inside _ _ => 8
  | .unborn | .call _ _ => 9
  | .unlock _ _ => 10
  | .branch _ => 11

/-- Those that a call of `AddTask` executes or leaves to others, the woken waiter among them. -/
def AddPoint.load : AddPoint → ℕ
  | .outside => 0
  | .unguard => 1
  | .notify _ => 9
  | .test _ => 10
  | .push _ => 20

/-- The task that a call of `AddTask` has not put into the queue yet. -/
def AddPoint.pushing : AddPoint → List TaskPtr
  | .push p => [p]
  | .outside | .test _ | .notify _ | .unguard => []

theorem AddPoint.pushing_of_not_holding {x : AddPoint} (h : x.holding = false) : x.pushing = [] := by
  cases x with
  | outside => rfl
  | push _ | test _ | notify _ | unguard => cases h

/-- The timeout flag implies an expiry callback. -/
def Task.Timed (u : Task F) : Prop := u.flagSetTimeout = true → u.expireFun.isSome = true

/-- The task at the point is there, and has an expiry callback if that is the one to be called. -/
def Point.Ready (tasks : TaskPtr → Option (Task F)) : Point → Prop
  | .branch p => ∃ u, tasks p = some u
  | .unlock p c | .call p c | .inside p c => ∃ u, tasks p = some u ∧ (c = .expireFun → u.expireFun.isSome = true)
  | _ => True

theorem Task.Timed.sameWork {u v : Task F} (h : u.Timed) (hw : u.SameWork v) : v.Timed := by
  obtain ⟨_,rfl⟩ := hw
  exact h

theorem Task.timed_ofFun (f : Option F) : (Task.ofFun f).Timed := fun h => by cases h

theorem Task.timed_ofExpiration (f e : Option F) (expiration : UInt64) (now : TimePoint) :
    (Task.ofExpiration f e expiration now).Timed := fun h => (Bool.and_eq_true_iff.mp h).1

theorem Task.selected_expireFun {u : Task F} (h : u.selected = some .expireFun) : u.flagSetTimeout = true := by
  rw [Task.selected] at h
  split at h
  · cases h
  · split at h
    · rename_i hlate
      exact (Bool.and_eq_true_iff.mp hlate).2
    · cases h

theorem Point.Ready.persists {a : Point} {tasks tasks' : TaskPtr → Option (Task F)} (h : a.Ready tasks)
    (ht : ThreadPool.Persists tasks tasks') : a.Ready tasks' := by
  cases a with
  | branch p =>
    obtain ⟨u,hu⟩ := h
    obtain ⟨v,hv,_⟩ := ht p u hu
    exact ⟨v,hv⟩
  | unlock p c | call p c | inside p c =>
    obtain ⟨u,hu,hc⟩ := h
    obtain ⟨_,hv,_,rfl⟩ := ht p u hu
    exact ⟨_,hv,hc⟩
  | _ => trivial

namespace LockedPool
variable {s t : LockedPool F} {i : ℕ} {a b : Point} {now : TimePoint} {tr es : List LockEvent} {n : ThreadNum}

/-- The point that a statement leads to, other than the block that takes a task. -/
inductive Follows (s : LockedPool F) : Point → Point → Prop
  | begins (a : Point) (ha : a = .guard ∨ a = .relock) : Follows s a (.outer true)
  | again : Follows s (.outer true) .survey
  | ends : Follows s (.outer false) .unguard
  | survey : Follows s .survey (.inner s.isSurvival)
  | sleeps : Follows s (.inner true) .idleUp
  | proceeds (survival : Bool) : Follows s (.inner survival) (.take survival)
  | idleUp : Follows s .idleUp .wait
  | wait : Follows s .wait .waiting
  | woken : Follows s .woken .resurvey
  | resurvey : Follows s .resurvey (.idleDown s.isSurvival)
  | idleDown (survival : Bool) : Follows s (.idleDown survival) (.inner survival)
  | gives : Follows s (.take false) (.outer false)
  | finds (hq : s.taskQueue = []) : Follows s (.take true) (.outer true)
  | selects {p : TaskPtr} {c : Callback} {u : Task F} (hu : s.tasks p = some u) (hc : u.selected = some c) :
      Follows s (.branch p) (.unlock p c)
  | drops (p : TaskPtr) : Follows s (.branch p) (.outer true)
  | unlock (p : TaskPtr) (c : Callback) : Follows s (.unlock p c) (.call p c)
  | enters (p : TaskPtr) (c : Callback) : Follows s (.call p c) (.inside p c)
  | refuses (p : TaskPtr) (c : Callback) : Follows s (.call p c) .relock
  | unguard : Follows s .unguard .returned

/-- Where a statement leads, and what it does to the tasks and the queue. -/
theorem execute_follows (h : s.execute i now a = some (t,es)) : ∃ b, t.threads = s.threads.set i b ∧
    ((Follows s a b ∧ t.tasks = s.tasks ∧ t.taskQueue = s.taskQueue ∧ dequeues es = []) ∨
      ∃ p u v, a = .take true ∧ b = .branch p ∧ s.taskQueue = p :: t.taskQueue ∧ s.tasks p = some u ∧
        u.mark now = some v ∧ t.tasks = Function.update s.tasks p (some v) ∧ dequeues es = [p]) := by
  cases a with
  | unborn | waiting | inside p c | returned | terminated => cases h
  | guard | relock | woken =>
    simp only [execute, lockTo] at h
    split at h
    · cases h
      refine ⟨_,rfl,.inl ⟨?_,rfl,rfl,rfl⟩⟩
      constructor <;> simp
    · cases h
  | outer survival =>
    cases survival with
    | true =>
      cases h
      exact ⟨_,rfl,.inl ⟨.again,rfl,rfl,rfl⟩⟩
    | false =>
      cases h
      exact ⟨_,rfl,.inl ⟨.ends,rfl,rfl,rfl⟩⟩
  | survey =>
    cases h
    exact ⟨_,rfl,.inl ⟨.survey,rfl,rfl,rfl⟩⟩
  | inner survival =>
    cases h
    refine ⟨_,rfl,.inl ⟨?_,rfl,rfl,by cases survival <;> rfl⟩⟩
    cases survival with
    | true =>
      split
      · exact .sleeps
      · exact .proceeds true
    | false => exact .proceeds false
  | idleUp =>
    cases h
    exact ⟨_,rfl,.inl ⟨.idleUp,rfl,rfl,rfl⟩⟩
  | wait =>
    cases h
    exact ⟨_,rfl,.inl ⟨.wait,rfl,rfl,rfl⟩⟩
  | resurvey =>
    cases h
    exact ⟨_,rfl,.inl ⟨.resurvey,rfl,rfl,rfl⟩⟩
  | idleDown survival =>
    cases h
    exact ⟨_,rfl,.inl ⟨.idleDown survival,rfl,rfl,rfl⟩⟩
  | take survival =>
    cases survival with
    | false =>
      cases h
      exact ⟨_,rfl,.inl ⟨.gives,rfl,rfl,rfl⟩⟩
    | true =>
      have h : s.takeTask i now = some (t,es) := h
      rw [takeTask] at h
      split at h
      · rename_i hq
        cases h
        exact ⟨_,rfl,.inl ⟨.finds hq,rfl,rfl,rfl⟩⟩
      · rename_i p queue hq
        obtain ⟨v,hv,h⟩ := Option.map_eq_some_iff.mp h
        obtain ⟨u,hu,hmark⟩ := Option.bind_eq_some_iff.mp hv
        cases h
        exact ⟨_,rfl,.inr ⟨p,u,v,rfl,rfl,hq,hu,hmark,rfl,rfl⟩⟩
  | branch p =>
    obtain ⟨u,hu,h⟩ := Option.map_eq_some_iff.mp h
    cases h
    refine ⟨_,rfl,.inl ⟨?_,rfl,rfl,rfl⟩⟩
    cases hsel : u.selected with
    | some c => exact .selects hu hsel
    | none => exact .drops p
  | unlock p c =>
    cases h
    exact ⟨_,rfl,.inl ⟨.unlock p c,rfl,rfl,rfl⟩⟩
  | call p c =>
    obtain ⟨u,-,h⟩ := Option.map_eq_some_iff.mp h
    split at h
    · cases h
      exact ⟨_,rfl,.inl ⟨.enters p c,rfl,rfl,rfl⟩⟩
    · cases h
      exact ⟨_,rfl,.inl ⟨.refuses p c,rfl,rfl,rfl⟩⟩
  | unguard =>
    cases h
    exact ⟨_,rfl,.inl ⟨.unguard,rfl,rfl,rfl⟩⟩

theorem Follows.load_lt (h : Follows s a b) (hq : a = .take true → s.taskQueue ≠ []) : b.load < a.load := by
  cases h with
  | begins a ha => rcases ha with rfl | rfl <;> decide
  | finds hnil => exact absurd hnil (hq rfl)
  | survey | resurvey => cases s.isSurvival <;> decide
  | proceeds survival | idleDown survival => cases survival <;> decide
  | again | ends | sleeps | idleUp | wait | woken | gives | unguard => decide
  | selects _ _ | drops _ | unlock _ _ | enters _ _ | refuses _ _ => exact Nat.lt_of_sub_eq_succ rfl

/-- With the pool running no thread begins to leave its loop. -/
theorem Follows.leaving (h : Follows s a b) (hrun : s.isSurvival = true) (ha : a.leaving = false) :
    b.leaving = false := by
  cases h with
  | survey | resurvey => rw [hrun]; rfl
  | proceeds survival | idleDown survival => cases survival with
    | true => rfl
    | false => cases ha
  | ends | gives | unguard => cases ha
  | begins _ _ | again | sleeps | idleUp | wait | woken | finds _ | selects _ _ | drops _ | unlock _ _
    | enters _ _ | refuses _ _ => rfl

theorem Follows.ready (h : Follows s a b) (htimed : ∀ p u, s.tasks p = some u → u.Timed) (ha : a.Ready s.tasks) :
    b.Ready s.tasks := by
  cases h with
  | selects hu hc =>
    refine ⟨_,hu,?_⟩
    rintro rfl
    exact htimed _ _ hu (Task.selected_expireFun hc)
  | unlock _ _ | enters _ _ => exact ha
  | begins _ _ | again | ends | survey | sleeps | proceeds _ | idleUp | wait | woken | resurvey | idleDown _
    | gives | finds _ | drops _ | refuses _ _ | unguard => trivial

/-- No expiry callback throws, and nobody calls `Stop`. -/
def Orderly (tr : List LockEvent) (s : LockedPool F) (act : Action F) : Prop := Permitted tr s act ∧ act ≠ .stop

/-- The statements of the workers, of `Init` and of calls of `AddTask` that have the mutex. Further
calls and spurious wakeups come from outside. -/
def Action.own : Action F → Bool
  | .adder _ | .init | .initRun | .spawn _ | .detach _ | .worker _ _ | .finish _ _ => true
  | _ => false

def Internal (tr : List LockEvent) (s : LockedPool F) (act : Action F) : Prop := act.own = true ∧ Orderly tr s act

/-- Nobody has left, and every task that is needed is there. -/
structure Going (s : LockedPool F) : Prop where
  stop : s.stop = .idle
  running : s.begun = true → s.state = .run
  here : ∀ a ∈ s.threads, a.leaving = false
  timed : ∀ p u, s.tasks p = some u → u.Timed
  queued : ∀ p ∈ s.taskQueue, ∃ u, s.tasks p = some u
  ready : ∀ a ∈ s.threads, a.Ready s.tasks

theorem Going.survival (h : Going s) (hbegun : s.begun = true) : s.isSurvival = true :=
  decide_eq_true (h.running hbegun)

/-- One thread moves, and tasks are built, marked or finished. -/
theorem Going.move (h : Going s) (htasks : ThreadPool.Persists s.tasks t.tasks)
    (htimed : ∀ p u, t.tasks p = some u → u.Timed) (hqueue : ∀ p ∈ t.taskQueue, ∃ u, t.tasks p = some u)
    (hstop : t.stop = s.stop) (hrun : t.begun = true → t.state = .run)
    (hthreads : ∀ b ∈ t.threads, b ∈ s.threads ∨ b.leaving = false ∧ b.Ready t.tasks) : Going t where
  stop := hstop.trans h.stop
  running := hrun
  here b hb := (hthreads b hb).elim (h.here b) And.left
  timed := htimed
  queued := hqueue
  ready b hb := (hthreads b hb).elim (fun hmem => (h.ready b hmem).persists htasks) And.right

theorem timed_update {p : TaskPtr} {v : Task F} (h : ∀ p u, s.tasks p = some u → u.Timed) (hv : v.Timed) :
    ∀ q u, Function.update s.tasks p (some v) q = some u → u.Timed := by
  intro q u hu
  by_cases hq : q = p
  · subst hq
    rw [Function.update_self] at hu
    cases hu
    exact hv
  · rw [Function.update_of_ne hq] at hu
    exact h q u hu

theorem queued_persists {queue : List TaskPtr} {tasks tasks' : TaskPtr → Option (Task F)}
    (h : ∀ p ∈ queue, ∃ u, tasks p = some u) (ht : ThreadPool.Persists tasks tasks') :
    ∀ p ∈ queue, ∃ u, tasks' p = some u := by
  intro p hp
  obtain ⟨u,hu⟩ := h p hp
  obtain ⟨v,hv,_⟩ := ht p u hu
  exact ⟨v,hv⟩

theorem Going.construct {p : TaskPtr} {u : Task F} (h : Going s) (hu : u.Timed)
    (hs : s.construct p u = some (t,es)) : Going t := by
  rw [LockedPool.construct] at hs
  split at hs
  · rename_i hnew
    cases hs
    have hpersists := ThreadPool.persists_fresh (Option.isNone_iff_eq_none.mp hnew) u
    exact h.move hpersists (timed_update h.timed hu) (queued_persists h.queued hpersists) rfl h.running
      (fun b hb => .inl hb)
  · cases hs

/-- A thread goes to a point that needs no task. -/
theorem Going.goto (h : Going s) (ht : t.threads = s.threads.set i b) (hstate : t.state = s.state)
    (hbegun : t.begun = s.begun) (hstop : t.stop = s.stop) (htasks : t.tasks = s.tasks)
    (hqueue : t.taskQueue = s.taskQueue) (hb : b.leaving = false) (hready : b.Ready t.tasks) : Going t := by
  refine h.move (htasks ▸ .refl _) (htasks ▸ h.timed) (by rw [hqueue, htasks]; exact h.queued) hstop
    (hstate ▸ hbegun ▸ h.running) (fun c hc => ?_)
  rw [ht] at hc
  rcases List.mem_or_eq_of_mem_set hc with hc | rfl
  · exact .inl hc
  · exact .inr ⟨hb,hready⟩

theorem Going.executeAdd {k : ℕ} (h : Going s) (hadding : Adding s) (hs : s.executeAdd k s.adder = some (t,es)) :
    Going t := by
  have hadded := executeAdd_cases hs
  refine h.move (hadded.tasks ▸ .refl _) (hadded.tasks ▸ h.timed) (fun q hq => ?_) hadded.stop
    (hadded.state ▸ hadded.begun ▸ h.running) (fun b hb => ?_)
  · rw [hadded.tasks]
    rcases hadded.mem_taskQueue hq with hq | hq
    · exact h.queued q hq
    · exact Option.isSome_iff_exists.mp (hadding.built q hq)
  · rcases hadded.threads with ht | ⟨-,ht⟩
    · exact .inl (ht ▸ hb)
    · rw [ht] at hb
      rcases List.mem_or_eq_of_mem_set hb with hb | rfl
      · exact .inl hb
      · exact .inr ⟨rfl,trivial⟩

theorem Going.execute (h : Going s) (hi : Inv tr s) (ha : s.threads[i]? = some a)
    (hs : s.execute i now a = some (t,es)) : Going t := by
  have hmem := List.mem_of_getElem? ha
  have hrun := h.survival (hi.begun_of_born ha (execute_born hs))
  obtain ⟨c,hmoved⟩ := execute_cases hs
  obtain ⟨b,ht,⟨hf,htasks,hqueue,_⟩ | ⟨p,u,v,_,rfl,hq,hu,hmark,htasks,_⟩⟩ := execute_follows hs
  · refine h.goto ht hmoved.state hmoved.begun hmoved.stop htasks hqueue (hf.leaving hrun (h.here a hmem)) ?_
    rw [htasks]
    exact hf.ready h.timed (h.ready a hmem)
  · have hsame := Task.mark_sameWork hmark
    have hpersists : ThreadPool.Persists s.tasks t.tasks := by
      rw [htasks]
      exact ThreadPool.persists_update hu hsame
    refine h.move hpersists ?_ (queued_persists (fun q hmem => h.queued q ?_) hpersists) hmoved.stop
      (hmoved.state ▸ hmoved.begun ▸ h.running) (fun c hc => ?_)
    · rw [htasks]
      exact timed_update h.timed ((h.timed p u hu).sameWork hsame)
    · rw [hq]
      exact List.mem_cons_of_mem p hmem
    · rw [ht] at hc
      rcases List.mem_or_eq_of_mem_set hc with hc | rfl
      · exact .inl hc
      · exact .inr ⟨rfl,v,by rw [htasks, Function.update_self]⟩

theorem Going.finish {o : Outcome} (h : Going s) (hp : Permitted tr s (.finish i o))
    (hs : s.finish i o = some (t,es)) : Going t := by
  rw [LockedPool.finish] at hs
  split at hs
  · rename_i p c hat
    obtain ⟨u,hu,hs⟩ := Option.bind_eq_some_iff.mp hs
    cases o with
    | returned =>
      dsimp only at hs
      split at hs
      · cases hs
        have hpersists := ThreadPool.persists_update hu (Task.sameWork_finished u)
        refine h.move hpersists (timed_update h.timed (h.timed p u hu)) (queued_persists h.queued hpersists) rfl
          h.running (fun d hd => ?_)
        rcases List.mem_or_eq_of_mem_set hd with hd | rfl
        · exact .inl hd
        · exact .inr ⟨rfl,trivial⟩
      · cases hs
    | threw =>
      cases c with
      | taskFun =>
        cases hs
        exact h.goto rfl rfl rfl rfl rfl rfl rfl trivial
      | expireFun => cases hp p hat
  · cases hs

theorem Going.step {act : Action F} (h : Going s) (hi : Inv tr s) (ho : Orderly tr s act)
    (hs : s.step act = some (t,es)) : Going t := by
  cases act with
  | makeTask p f => exact h.construct (Task.timed_ofFun f) hs
  | makeExpiringTask p f e expiration now => exact h.construct (Task.timed_ofExpiration f e expiration now) hs
  | addTask p =>
    rw [LockedPool.step, addTask] at hs
    split at hs
    · cases hs
      exact h.move (.refl _) h.timed h.queued rfl h.running (fun b hb => .inl hb)
    · cases hs
  | adder k => exact h.executeAdd hi.toAdding hs
  | init =>
    rw [LockedPool.step, init] at hs
    split at hs
    · cases hs
      refine h.move (.refl _) h.timed h.queued rfl h.running (fun b hb => .inr ?_)
      rw [List.eq_of_mem_replicate hb]
      exact ⟨rfl,trivial⟩
    · cases hs
  | initRun =>
    rw [LockedPool.step, initRun] at hs
    split at hs
    · cases hs
      exact h.move (.refl _) h.timed h.queued rfl (fun _ => rfl) (fun b hb => .inl hb)
    · cases hs
  | spawn i | spurious i =>
    simp only [LockedPool.step, spawn] at hs
    split at hs
    · cases hs
      exact h.goto rfl rfl rfl rfl rfl rfl rfl trivial
    · cases hs
  | detach i =>
    rw [LockedPool.step, detach] at hs
    split at hs
    · cases hs
      exact h.move (.refl _) h.timed h.queued rfl h.running (fun b hb => .inl hb)
    · cases hs
  | worker i now =>
    obtain ⟨a,ha,hs⟩ := Option.bind_eq_some_iff.mp hs
    exact h.execute hi ha hs
  | finish i o => exact h.finish ho.1 hs
  | stop => exact absurd rfl ho.2

theorem orderly_permitted (hr : (machine F n).Runs Orderly tr s) : (machine F n).Runs Permitted tr s :=
  hr.mono (fun _ _ _ _ h => h.1)

theorem going_of_runs (hr : (machine F n).Runs Orderly tr s) : Going s := by
  refine hr.invariant (I := fun _ s => Going s) ?_ (fun tr s act t es hr h ho hs => ?_)
  · rintro _ ⟨st,rfl⟩
    exact ⟨rfl,by simp [new],by simp [new],by simp [new],by simp [new],by simp [new]⟩
  · exact h.step (inv_of_runs (orderly_permitted hr)) ho hs

def threadsLoad (s : LockedPool F) : ℕ :=
  if s.threads = [] then 9 * s.threadNum.val + 1 else (s.threads.map Point.load).sum

/-- The state is still to be stored by `Init`, and a thread in `m_threads` to be detached. -/
def load (s : LockedPool F) : ℕ :=
  threadsLoad s + 9 * s.taskQueue.length + s.joinable.countP id + s.adder.load + if s.begun then 0 else 1

theorem load_set_lt (ha : s.threads[i]? = some a) (ht : t.threads = s.threads.set i b) (hbegun : t.begun = s.begun)
    (hlt : b.load + 9 * t.taskQueue.length + t.joinable.countP id + t.adder.load <
      a.load + 9 * s.taskQueue.length + s.joinable.countP id + s.adder.load) : load t < load s := by
  have hne : s.threads ≠ [] := List.ne_nil_of_mem (List.mem_of_getElem? ha)
  have hsum := Roster.sum_map_set_add ha Point.load b
  rw [load, load, threadsLoad, threadsLoad, if_neg hne, ht, if_neg (by simpa using hne), hbegun]
  omega

/-- No thread moves. -/
theorem load_same_lt (ht : t.threads = s.threads) (hnum : t.threadNum = s.threadNum)
    (hlt : 9 * t.taskQueue.length + t.joinable.countP id + t.adder.load + (if t.begun then 0 else 1) <
      9 * s.taskQueue.length + s.joinable.countP id + s.adder.load + (if s.begun then 0 else 1)) :
    load t < load s := by
  rw [load, load, threadsLoad, threadsLoad, ht, hnum]
  omega

/-- Nobody else takes the task that a worker has seen in the queue. -/
theorem take_queue (hr : (machine F n).Runs Permitted tr s) (ha : s.threads[i]? = some (.take true)) :
    s.taskQueue ≠ [] := by
  obtain ⟨_,_,_,⟨taken,habs,_⟩,_⟩ := (refinement n).runs hr
  obtain ⟨_,_,hm⟩ := habs.midway i _ ha rfl
  have hsome : s.taskQueue.isEmpty = false := hm.informed.2 rfl
  rintro hnil
  rw [hnil] at hsome
  cases hsome

theorem countP_set_le {l : List Bool} (i : ℕ) (b : Bool) : (l.set i b).countP id ≤ l.countP id + 1 := by
  cases hl : l[i]? with
  | none => rw [List.set_eq_of_length_le (List.getElem?_eq_none_iff.mp hl)]; omega
  | some c =>
    have hset := Roster.countP_set_add (p := id) hl b
    split at hset <;> split at hset <;> omega

theorem executeAdd_load {k : ℕ} (hs : s.executeAdd k s.adder = some (t,es)) : load t < load s := by
  cases hp : s.adder with
  | outside =>
    rw [hp] at hs
    cases hs
  | push p =>
    rw [hp] at hs
    cases hs
    refine load_same_lt rfl rfl ?_
    rw [hp, List.length_append, List.length_singleton]
    simp only [AddPoint.load]
    omega
  | test p =>
    rw [hp] at hs
    cases hs
    refine load_same_lt rfl rfl ?_
    rw [hp]
    split <;> simp only [AddPoint.load] <;> omega
  | notify p =>
    rw [hp] at hs
    obtain ⟨ts,hts,hs⟩ := Option.map_eq_some_iff.mp hs
    cases hs
    rcases notifyOne_cases hts with rfl | ⟨hk,rfl⟩
    · refine load_same_lt rfl rfl ?_
      rw [hp]
      simp only [AddPoint.load]
      omega
    · refine load_set_lt hk rfl rfl ?_
      rw [hp]
      simp only [AddPoint.load, Point.load]
      omega
  | unguard =>
    rw [hp] at hs
    cases hs
    refine load_same_lt rfl rfl ?_
    rw [hp]
    simp only [AddPoint.load]
    omega

theorem step_load {act : Action F} (hr : (machine F n).Runs Permitted tr s) (hown : act.own = true)
    (ho : Orderly tr s act) (hs : s.step act = some (t,es)) : load t < load s := by
  cases act with
  | adder k => exact executeAdd_load hs
  | init =>
    rw [step, init] at hs
    split at hs
    · rename_i hnil
      cases hs
      have hpos := s.threadNum.pos
      have hne : List.replicate s.threadNum.val Point.unborn ≠ [] := by
        simp [Nat.pos_iff_ne_zero.mp hpos]
      have hnone : (List.replicate s.threadNum.val false).countP id = 0 := by
        simp [List.countP_replicate]
      rw [load, load, threadsLoad, threadsLoad, if_pos hnil, if_neg hne, hnone, List.map_replicate,
        List.sum_replicate_nat]
      simp only [Point.load]
      omega
    · cases hs
  | initRun =>
    rw [step, initRun] at hs
    split at hs
    · rename_i hno
      cases hs
      refine load_same_lt rfl rfl ?_
      rw [hno.2]
      simp
    · cases hs
  | spawn i =>
    rw [step, spawn] at hs
    split at hs
    · rename_i ha
      cases hs
      refine load_set_lt ha.2 rfl rfl ?_
      have hle := countP_set_le (l := s.joinable) i true
      simp only [Point.load, goto]
      omega
    · cases hs
  | detach i =>
    rw [step, detach] at hs
    split at hs
    · rename_i ha
      cases hs
      have hset := Roster.countP_set_add (p := id) ha false
      refine load_same_lt rfl rfl ?_
      simp at hset
      dsimp only
      omega
    · cases hs
  | worker i now =>
    obtain ⟨a,ha,hs⟩ := Option.bind_eq_some_iff.mp hs
    obtain ⟨c,hmoved⟩ := execute_cases hs
    obtain ⟨b,ht,⟨hf,_,hq,_⟩ | ⟨p,_,_,rfl,rfl,hq,_⟩⟩ := execute_follows hs
    · refine load_set_lt ha ht hmoved.begun ?_
      have hlt := hf.load_lt (by rintro rfl; exact take_queue hr ha)
      rw [hq, hmoved.joinable, hmoved.adder]
      omega
    · refine load_set_lt ha ht hmoved.begun ?_
      rw [hq, hmoved.joinable, hmoved.adder, List.length_cons]
      simp only [Point.load]
      omega
  | finish i o =>
    obtain ⟨p,c,ha,hend,⟨ht,_⟩ | ⟨_,_,rfl,rfl⟩⟩ := finish_cases hs
    · refine load_set_lt ha ht hend.begun ?_
      rw [hend.taskQueue, hend.joinable, hend.adder]
      simp only [Point.load]
      omega
    · cases ho.1 p ha
  | makeTask _ _ | makeExpiringTask _ _ _ _ _ | addTask _ | spurious _ | stop => cases hown

theorem descends (F : Type*) (n : ThreadNum) :
    (machine F n).Descends Orderly Internal (fun _ s => load s) where
  permitted _ _ _ h := h.2
  step _ _ _ _ _ hr h hs := step_load (orderly_permitted hr) h.1 h.2 hs

section Stuck

/-- A thread between two statements waits for nothing but the mutex. -/
theorem execute_isSome (h : Going s) (ha : s.threads[i]? = some a) (hlock : s.mutex = none ∨ a.holding = true)
    (hborn : a ≠ .unborn) (hwait : a ≠ .waiting) (hcall : ∀ p c, a ≠ .inside p c) :
    (s.execute i now a).isSome = true := by
  have hmem := List.mem_of_getElem? ha
  have hhere := h.here a hmem
  have hready := h.ready a hmem
  cases a with
  | unborn => exact absurd rfl hborn
  | waiting => exact absurd rfl hwait
  | inside p c => exact absurd rfl (hcall p c)
  | returned | terminated => cases hhere
  | guard | relock | woken =>
    have hfree : s.mutex = none := hlock.resolve_right (fun hh => by cases hh)
    simp [execute,lockTo,hfree]
  | take survival =>
    cases survival with
    | false => rfl
    | true =>
      cases hq : s.taskQueue with
      | nil => simp [execute,takeTask,hq]
      | cons p queue =>
        obtain ⟨u,hu⟩ := h.queued p (hq ▸ List.mem_cons_self)
        obtain ⟨v,hv⟩ := Option.ne_none_iff_exists'.mp (u.mark_ne_none now)
        simp [execute,takeTask,hq,hu,hv]
  | branch p =>
    obtain ⟨u,hu⟩ := hready
    simp [execute,hu]
  | call p c =>
    obtain ⟨u,hu,_⟩ := hready
    simp [execute,hu]
  | outer survival => cases survival <;> rfl
  | survey | inner _ | idleUp | wait | resurvey | idleDown _ | unlock _ _ | unguard => rfl

/-- A callback that runs can end: `Run` catches whatever it throws, and an expiry callback
is one that returns. -/
theorem finish_isSome {p : TaskPtr} {c : Callback} (h : Going s) (ha : s.threads[i]? = some (.inside p c)) :
    ∃ o, Permitted tr s (.finish i o) ∧ (s.finish i o).isSome = true := by
  obtain ⟨u,hu,hc⟩ := h.ready _ (List.mem_of_getElem? ha)
  cases c with
  | taskFun =>
    refine ⟨.threw,fun q hq => ?_,by simp [finish,ha,hu]⟩
    rw [ha] at hq
    cases hq
  | expireFun =>
    have hsome : (u.callback .expireFun).isSome = true := hc rfl
    exact ⟨.returned,fun _ _ => rfl,by simp [finish,ha,hu,hsome]⟩

theorem Stuck.not_execute (hstuck : (machine F n).Stuck Internal (tr,s)) (ha : s.threads[i]? = some a) :
    ¬ (s.execute i 0 a).isSome = true := by
  have hnone := hstuck (.worker i 0) ⟨rfl,trivial,by simp⟩
  simp only [machine, step, ha, Option.bind_some] at hnone
  rw [hnone]
  simp

variable (hr : (machine F n).Runs Orderly tr s) (hstuck : (machine F n).Stuck Internal (tr,s))
include hr hstuck

theorem Stuck.free : s.mutex = none := by
  have hgoing := going_of_runs hr
  have hi := inv_of_runs (orderly_permitted hr)
  by_contra hne
  obtain ⟨who,hwho⟩ := Option.ne_none_iff_exists'.mp hne
  cases who with
  | stop =>
    have hhold := hi.stop.mpr hwho
    rw [hgoing.stop] at hhold
    cases hhold
  | adder =>
    obtain ⟨k,t,es,hs,-⟩ := exists_executeAdd (hi.adder.mpr hwho)
    have hnone : s.executeAdd k s.adder = none := hstuck (.adder k) ⟨rfl,trivial,by simp⟩
    rw [hs] at hnone
    cases hnone
  | worker i =>
    have howns := hi.owns
    rw [hwho] at howns
    obtain ⟨a,ha,hhold⟩ := howns.exists_point
    refine Stuck.not_execute hstuck ha (execute_isSome hgoing ha (.inr hhold) ?_ ?_ ?_)
    · rintro rfl
      cases hhold
    · rintro rfl
      cases hhold
    · rintro p c rfl
      cases hhold

theorem Stuck.waiting : s.threads ≠ [] ∧ ∀ a ∈ s.threads, a = .waiting := by
  have hgoing := going_of_runs hr
  have hne : s.threads ≠ [] := by
    intro hnil
    have hnone := hstuck .init ⟨rfl,trivial,by simp⟩
    simp [machine,step,init,hnil] at hnone
  have hbegun : s.begun = true := by
    by_contra hno
    have hnone := hstuck .initRun ⟨rfl,trivial,by simp⟩
    simp [machine,step,initRun,hne,hno] at hnone
  refine ⟨hne,fun a hmem => ?_⟩
  · obtain ⟨i,ha⟩ := List.getElem?_of_mem hmem
    by_contra hwait
    by_cases hborn : a = .unborn
    · have hnone := hstuck (.spawn i) ⟨rfl,trivial,by simp⟩
      simp [machine,step,spawn,ha,hborn,hbegun] at hnone
    · by_cases hcall : ∃ p c, a = .inside p c
      · obtain ⟨p,c,rfl⟩ := hcall
        obtain ⟨o,hp,hsome⟩ : ∃ o, Permitted tr s (.finish i o) ∧ (s.finish i o).isSome = true :=
          finish_isSome hgoing ha
        have hnone : s.finish i o = none := hstuck (.finish i o) ⟨rfl,hp,by simp⟩
        rw [hnone] at hsome
        cases hsome
      · push Not at hcall
        exact Stuck.not_execute hstuck ha
          (execute_isSome hgoing ha (.inl (Stuck.free hr hstuck)) hborn hwait hcall)

end Stuck

/-- A thread is inside of a callback until that ends. -/
theorem inside_persists {j : ℕ} {p : TaskPtr} {c : Callback} {act : Action F} (hs : s.step act = some (t,es))
    (hj : s.threads[j]? = some (.inside p c)) (hact : ∀ o, act ≠ .finish j o) :
    t.threads[j]? = some (.inside p c) := by
  cases act with
  | worker i now =>
    obtain ⟨a,ha,hs⟩ := Option.bind_eq_some_iff.mp hs
    obtain ⟨b,ht,_⟩ := execute_follows hs
    have hij : i ≠ j := by
      rintro rfl
      obtain rfl := Option.some.inj (hj.symm.trans ha)
      cases hs
    rw [ht, List.getElem?_set_ne hij, hj]
  | finish i o =>
    obtain ⟨q,d,ha,_,hcase⟩ := finish_cases hs
    have hij : i ≠ j := by
      rintro rfl
      exact hact o rfl
    rcases hcase with ⟨ht,_⟩ | ⟨ht,_⟩
    · rw [ht, List.getElem?_set_ne hij, hj]
    · rw [ht, List.getElem?_set_ne hij, hj]
  | makeTask _ _ | makeExpiringTask _ _ _ _ _ | addTask _ | adder _ | init | initRun | spawn _ | detach _
    | spurious _ | stop =>
    -- nobody moves another thread but from its birth or its wait
    rcases (quiet_cases (by simp) (by simp) hs).drift j with hd | ⟨hx,-⟩ | ⟨hx,-⟩ | ⟨hx,-⟩
    · rw [hd, hj]
    all_goals
      rw [hj] at hx
      cases hx

/-- What the threads do by themselves takes tasks from the head of the queue, and puts only those into
it whose call of `AddTask` has begun. -/
theorem own_dequeues {act : Action F} (hown : act.own = true) (hs : s.step act = some (t,es)) :
    dequeues es ++ (t.taskQueue ++ t.adder.pushing) = s.taskQueue ++ s.adder.pushing := by
  cases act with
  | adder k =>
    rw [step] at hs
    cases hp : s.adder with
    | outside =>
      rw [hp] at hs
      cases hs
    | push p =>
      rw [hp] at hs
      cases hs
      exact List.append_nil _
    | test p =>
      rw [hp] at hs
      cases hs
      split <;> rfl
    | notify p =>
      rw [hp] at hs
      obtain ⟨ts,-,hs⟩ := Option.map_eq_some_iff.mp hs
      cases hs
      rfl
    | unguard =>
      rw [hp] at hs
      cases hs
      rfl
  | init | initRun | spawn _ | detach _ =>
    simp only [step, init, initRun, spawn, detach] at hs
    split at hs
    · cases hs
      rfl
    · cases hs
  | worker i now =>
    obtain ⟨a,_,hs⟩ := Option.bind_eq_some_iff.mp hs
    obtain ⟨c,hmoved⟩ := execute_cases hs
    rw [hmoved.adder]
    obtain ⟨_,_,⟨_,_,hq,hes⟩ | ⟨p,_,_,_,_,hq,_,_,_,hes⟩⟩ := execute_follows hs
    · rw [hes, hq, List.nil_append]
    · rw [hes, hq, List.singleton_append, List.cons_append]
  | finish i o =>
    obtain ⟨_,_,_,hend,⟨_,rfl,_⟩ | ⟨_,rfl,_⟩⟩ := finish_cases hs
    · rw [hend.taskQueue, hend.adder]
      rfl
    · rw [hend.taskQueue, hend.adder]
      rfl
  | makeTask _ _ | makeExpiringTask _ _ _ _ _ | addTask _ | spurious _ | stop => cases hown

/-- From every reachable state of a pool that nobody stops and whose expiry callbacks do not
throw, whatever the scheduling: without further tasks the threads execute at most `load s` more
statements, and where none of them has one left the mutex is free, every worker is blocked in
`Wait` and counted, and the queue, with the task that is on its way into it, has been emptied from
its head. -/
theorem never_deadlocks (hr : (machine F n).Runs Orderly tr s) :
    (∀ k c, (machine F n).Steps Internal k (tr,s) c → k ≤ load s) ∧
    (∃ k c, (machine F n).Steps Internal k (tr,s) c ∧ (machine F n).Stuck Internal c) ∧
    ∀ k tr' s', (machine F n).Steps Internal k (tr,s) (tr',s') → (machine F n).Stuck Internal (tr',s') →
      s'.mutex = none ∧ s'.threads ≠ [] ∧ (∀ a ∈ s'.threads, a = .waiting) ∧
      s'.idleCount = s'.threads.length ∧ dequeues tr' = dequeues tr ++ (s.taskQueue ++ s.adder.pushing) := by
  refine ⟨fun k c h => ?_,(descends F n).exists_stuck hr,fun k tr' s' h hstuck => ?_⟩
  · have hbound := (descends F n).bound hr h
    dsimp only at hbound
    omega
  · have hr' := h.runs (descends F n).permitted hr
    have hfree := Stuck.free hr' hstuck
    obtain ⟨hne,hall⟩ := Stuck.waiting hr' hstuck
    obtain ⟨_,_,hpool,⟨_,habs,_⟩,_⟩ := (refinement n).runs (orderly_permitted hr')
    obtain ⟨hidle,hasleep⟩ := (inv_of_runs (orderly_permitted hr')).covered habs hfree
      (ThreadPool.wakeupInv_of_runs hpool)
    have hconserved : dequeues tr' ++ (s'.taskQueue ++ s'.adder.pushing) =
        dequeues tr ++ (s.taskQueue ++ s.adder.pushing) := by
      refine h.invariant (I := fun c => dequeues c.1 ++ (c.2.taskQueue ++ c.2.adder.pushing) =
        dequeues tr ++ (s.taskQueue ++ s.adder.pushing)) ?_ rfl
      intro tr₁ s₁ act t es heq hint hs
      dsimp only at heq ⊢
      rw [dequeues_append, List.append_assoc, own_dequeues hint.1 hs, heq]
    have hpushing : s'.adder.pushing = [] :=
      AddPoint.pushing_of_not_holding ((inv_of_runs (orderly_permitted hr')).others (i := 0) (.inl hfree)).2
    rw [queue_of_all_waiting hasleep hne hall, hpushing, List.append_nil, List.append_nil] at hconserved
    refine ⟨hfree,hne,hall,?_,hconserved⟩
    rw [hidle, List.countP_eq_length]
    intro a ha
    rw [hall a ha]
    rfl

def checkOrderly (tr : List LockEvent) (s : LockedPool Unit) (act : Action Unit) : Bool :=
  permits tr s act && match act with
    | .stop => false
    | _ => true

theorem checkOrderly_sound (tr : List LockEvent) (s : LockedPool Unit) (act : Action Unit)
    (h : checkOrderly tr s act = true) : Orderly tr s act := by
  obtain ⟨hpermits,hstop⟩ := Bool.and_eq_true_iff.mp h
  refine ⟨permitted_of_permits tr s act hpermits,?_⟩
  rintro rfl
  cases hstop

/-- One worker has taken the first task and has the mutex, which the other one waits for. -/
theorem never_deadlocks_midway : ∃ tr, ∃ s : LockedPool Unit, (machine Unit .two).Runs Orderly tr s ∧
    s.mutex = some (.worker 0) ∧ s.threads = [.branch 0,.guard] ∧ s.taskQueue = [1] ∧ load s = 29 ∧
    (∀ k c, (machine Unit .two).Steps Internal k (tr,s) c → k ≤ load s) ∧
    (∃ k c, (machine Unit .two).Steps Internal k (tr,s) c ∧ (machine Unit .two).Stuck Internal c) ∧
    ∀ k tr' s', (machine Unit .two).Steps Internal k (tr,s) (tr',s') → (machine Unit .two).Stuck Internal (tr',s') →
      s'.mutex = none ∧ s'.threads ≠ [] ∧ (∀ a ∈ s'.threads, a = .waiting) ∧
      s'.idleCount = s'.threads.length ∧ dequeues tr' = dequeues tr ++ (s.taskQueue ++ s.adder.pushing) := by
  obtain ⟨c,hc,hmutex,hthreads,hqueue,hload⟩ : ∃ c, (machine Unit .two).replay checkOrderly
      (opens ++ [.makeTask 0 (some ()),.makeTask 1 (some ())] ++ adds 0 ++ adds 1 ++
        List.replicate 5 (.worker 0 0)) ([],new .two .unknowing) = some c ∧
      c.2.mutex = some (.worker 0) ∧ c.2.threads = [.branch 0,.guard] ∧ c.2.taskQueue = [1] ∧ load c.2 = 29 :=
    ⟨_,rfl,rfl,rfl,rfl,rfl⟩
  have hr := Machine.replay_runs checkOrderly_sound (runs_new .two .unknowing) hc
  exact ⟨_,_,hr,hmutex,hthreads,hqueue,hload,never_deadlocks hr⟩

end LockedPool
end Kbms
