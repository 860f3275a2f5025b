import Kbms.Foundation.Mutex
import Kbms.Network.IoThread

/-! # The statements of `Submit` and of `ExecuteTask`

Here `mutex_` is explicit. Threads are inside `Submit`, one statement at a time, and so is the
IO thread when a functor calls it. The vector is only touched by who holds the mutex, so
these statements refine the mailbox in which a whole `Submit` is one step.
-/
namespace Kbms
open Foundation

/-- A thread before a statement of `Submit`, or outside of it. At `notify` the functor has
been moved into the vector. -/
inductive SubmitPoint (Fn : Type*)
  | outside
  | lock (func : Fn)
  | push (func : Fn)
  | notify (func : Fn)
  | unlock
  deriving DecidableEq, Repr

namespace SubmitPoint
variable {Fn : Type*}

def holding : SubmitPoint Fn → Bool
  | .push _ | .notify _ | .unlock => true
  | _ => false

/-- The functor of a `Submit` that has locked the mutex and has not pushed yet. -/
def inFlight : SubmitPoint Fn → List Fn
  | .push func => [func]
  | _ => []

/-- The functor that has been pushed and not been notified of. -/
def unannounced : SubmitPoint Fn → List Fn
  | .notify func => [func]
  | _ => []

end SubmitPoint

/-- The IO thread. `lock`, `swap` and `unlock` are the block of `ExecuteTask` that has the
mutex; inside functor `f` it is at a point of the `Submit` that `f` calls. -/
inductive IoPoint (Fn : Type*)
  | created
  | dispatching
  | lock
  | swap
  | unlock (functors : List Fn)
  | draining (rest : List Fn)
  | running (f : Fn) (rest : List Fn) (inner : SubmitPoint Fn)
  deriving DecidableEq, Repr

namespace IoPoint
variable {Fn : Type*}

def inner : IoPoint Fn → SubmitPoint Fn
  | .running _ _ a => a
  | _ => .outside

def holding : IoPoint Fn → Bool
  | .swap | .unlock _ => true
  | .running _ _ a => a.holding
  | _ => false

/-- What is left when statements under the mutex are not told apart. -/
def phase : IoPoint Fn → IoPhase Fn
  | .created => .created
  | .dispatching => .dispatching
  | .lock | .swap => .received
  | .unlock rest | .draining rest => .draining rest
  | .running f rest _ => .running f rest

end IoPoint

inductive IoHolder
  | io
  | submitter (i : ℕ)
  deriving DecidableEq, Repr

/-- `locked func` and the next two are the statements of a `Submit` with that functor. -/
inductive SubmitEvent (Fn : Type*)
  | locked (func : Fn)
  | pushed (func : Fn)
  | notified (func : Fn)
  | called (f : Fn)
  deriving DecidableEq, Repr

/-- What `Submit` uses: `mutex_`, `task_functors_` and the socket. -/
structure Mailbox (Fn : Type*) where
  mutex : Option IoHolder
  taskFunctors : List Fn
  unread : ℕ
  deriving DecidableEq, Repr

/-- The statement of `Submit` at a point, executed by `who`. -/
def Mailbox.submit {Fn : Type*} (capacity : ℕ) (m : Mailbox Fn) (who : IoHolder) :
    SubmitPoint Fn → Option (SubmitPoint Fn × Mailbox Fn × List (SubmitEvent Fn))
  | .outside => none
  | .lock func =>
    if m.mutex = none then some (.push func,{ m with mutex := some who },[.locked func]) else none
  | .push func =>
    some (.notify func,{ m with taskFunctors := m.taskFunctors ++ [func] },[.pushed func])
  | .notify func =>
    some (.unlock,{ m with unread := IoThread.eventNotify capacity m.unread },[.notified func])
  | .unlock => some (.outside,{ m with mutex := none },[])

/-- `IoThread` with the threads that submit. -/
structure LockedIoThread (Fn : Type*) where
  mailbox : Mailbox Fn
  io : IoPoint Fn
  submitters : List (SubmitPoint Fn)

namespace LockedIoThread
variable {Fn : Type*}

def new (Fn : Type*) (n : ℕ) : LockedIoThread Fn := ⟨⟨none,[],0⟩,.created,List.replicate n .outside⟩

/-- Thread `i` calls `Submit`. -/
def call (s : LockedIoThread Fn) (i : ℕ) (func : Fn) : Option (LockedIoThread Fn × List (SubmitEvent Fn)) :=
  match s.submitters[i]? with
  | some .outside => some ({ s with submitters := s.submitters.set i (.lock func) },[])
  | _ => none

def submitter (capacity : ℕ) (s : LockedIoThread Fn) (i : ℕ) :
    Option (LockedIoThread Fn × List (SubmitEvent Fn)) :=
  s.submitters[i]?.bind (fun a => (s.mailbox.submit capacity (.submitter i) a).map (fun r =>
    ({ s with mailbox := r.2.1, submitters := s.submitters.set i r.1 },r.2.2)))

/-- The functor that runs calls `Submit`. -/
def callInside (s : LockedIoThread Fn) (func : Fn) : Option (LockedIoThread Fn × List (SubmitEvent Fn)) :=
  match s.io with
  | .running f rest .outside => some ({ s with io := .running f rest (.lock func) },[])
  | _ => none

def inside (capacity : ℕ) (s : LockedIoThread Fn) : Option (LockedIoThread Fn × List (SubmitEvent Fn)) :=
  match s.io with
  | .running f rest a => (s.mailbox.submit capacity .io a).map (fun r =>
      ({ s with mailbox := r.2.1, io := .running f rest r.1 },r.2.2))
  | _ => none

def start (s : LockedIoThread Fn) : Option (LockedIoThread Fn × List (SubmitEvent Fn)) :=
  match s.io with
  | .created => some ({ s with io := .dispatching },[])
  | _ => none

/-- `EventHandler` reads `n` bytes and calls `ExecuteTask`. -/
def recv (s : LockedIoThread Fn) (n : ℕ) : Option (LockedIoThread Fn × List (SubmitEvent Fn)) :=
  match s.io with
  | .dispatching =>
    if 0 < n ∧ n ≤ IoThread.bufSize ∧ n ≤ s.mailbox.unread then
      some ({ s with mailbox := { s.mailbox with unread := s.mailbox.unread - n }, io := .lock },[])
    else none
  | _ => none

/-- The statement of `ExecuteTask` at a point. -/
def execute (s : LockedIoThread Fn) : Option (LockedIoThread Fn × List (SubmitEvent Fn)) :=
  match s.io with
  | .lock =>
    if s.mailbox.mutex = none then
      some ({ s with mailbox := { s.mailbox with mutex := some .io }, io := .swap },[])
    else none
  | .swap => some ({ s with
      mailbox := { s.mailbox with taskFunctors := [] }
      io := .unlock s.mailbox.taskFunctors },[])
  | .unlock functors =>
    some ({ s with mailbox := { s.mailbox with mutex := none }, io := .draining functors },[])
  | .draining [] => some ({ s with io := .dispatching },[])
  | .draining (f :: rest) => some ({ s with io := .running f rest .outside },[.called f])
  | _ => none

/-- The functor returns. -/
def ret (s : LockedIoThread Fn) : Option (LockedIoThread Fn × List (SubmitEvent Fn)) :=
  match s.io with
  | .running _ rest .outside => some ({ s with io := .draining rest },[])
  | _ => none

inductive Action (Fn : Type*)
  | call (i : ℕ) (func : Fn)
  | submitter (i : ℕ)
  | callInside (func : Fn)
  | inside
  | start
  | recv (n : ℕ)
  | execute
  | ret

def step (capacity : ℕ) (s : LockedIoThread Fn) : Action Fn → Option (LockedIoThread Fn × List (SubmitEvent Fn))
  | .call i func => s.call i func
  | .submitter i => s.submitter capacity i
  | .callInside func => s.callInside func
  | .inside => s.inside capacity
  | .start => s.start
  | .recv n => s.recv n
  | .execute => s.execute
  | .ret => s.ret

/-- All runs with `n` threads that submit. -/
def machine (Fn : Type*) (capacity n : ℕ) : Machine (LockedIoThread Fn) (Action Fn) (SubmitEvent Fn) where
  initial s := s = new Fn n
  step := step capacity

variable {capacity n i : ℕ} {s t : LockedIoThread Fn} {a b : SubmitPoint Fn} {es tr : List (SubmitEvent Fn)}
variable {P : List (SubmitEvent Fn) → LockedIoThread Fn → Action Fn → Prop}

/-- What a statement of `Submit` does, by the point it is at. -/
theorem submit_cases {m m' : Mailbox Fn} {who : IoHolder} (h : m.submit capacity who a = some (b,m',es)) :
    (∃ func, a = .lock func ∧ b = .push func ∧ m.mutex = none ∧ m' = { m with mutex := some who } ∧
      es = [.locked func]) ∨
    (∃ func, a = .push func ∧ b = .notify func ∧ m' = { m with taskFunctors := m.taskFunctors ++ [func] } ∧
      es = [.pushed func]) ∨
    (∃ func, a = .notify func ∧ b = .unlock ∧
      m' = { m with unread := IoThread.eventNotify capacity m.unread } ∧ es = [.notified func]) ∨
    (a = .unlock ∧ b = .outside ∧ m' = { m with mutex := none } ∧ es = []) := by
  cases a with
  | outside => cases h
  | lock func =>
    rw [Mailbox.submit] at h
    split at h
    · rename_i hfree
      cases h
      exact Or.inl ⟨func,rfl,rfl,hfree,rfl,rfl⟩
    · cases h
  | push func =>
    cases h
    exact Or.inr (Or.inl ⟨func,rfl,rfl,rfl,rfl⟩)
  | notify func =>
    cases h
    exact Or.inr (Or.inr (Or.inl ⟨func,rfl,rfl,rfl,rfl⟩))
  | unlock =>
    cases h
    exact Or.inr (Or.inr (Or.inr ⟨rfl,rfl,rfl,rfl⟩))

/-- What a step does. -/
inductive Stepped (capacity : ℕ) (s : LockedIoThread Fn) : LockedIoThread Fn → List (SubmitEvent Fn) → Prop
  | call {i : ℕ} {func : Fn} (ha : s.submitters[i]? = some .outside) :
      Stepped capacity s { s with submitters := s.submitters.set i (.lock func) } []
  | submitter {i : ℕ} {a b : SubmitPoint Fn} {m : Mailbox Fn} {es : List (SubmitEvent Fn)}
      (ha : s.submitters[i]? = some a) (hm : s.mailbox.submit capacity (.submitter i) a = some (b,m,es)) :
      Stepped capacity s { s with mailbox := m, submitters := s.submitters.set i b } es
  | callInside {f func : Fn} {rest : List Fn} (ha : s.io = .running f rest .outside) :
      Stepped capacity s { s with io := .running f rest (.lock func) } []
  | inside {f : Fn} {rest : List Fn} {a b : SubmitPoint Fn} {m : Mailbox Fn} {es : List (SubmitEvent Fn)}
      (ha : s.io = .running f rest a) (hm : s.mailbox.submit capacity .io a = some (b,m,es)) :
      Stepped capacity s { s with mailbox := m, io := .running f rest b } es
  | start (ha : s.io = .created) : Stepped capacity s { s with io := .dispatching } []
  | recv {n : ℕ} (ha : s.io = .dispatching) (hn : 0 < n ∧ n ≤ IoThread.bufSize ∧ n ≤ s.mailbox.unread) :
      Stepped capacity s
        { s with mailbox := { s.mailbox with unread := s.mailbox.unread - n }, io := .lock } []
  | locks (ha : s.io = .lock) (hfree : s.mailbox.mutex = none) :
      Stepped capacity s { s with mailbox := { s.mailbox with mutex := some .io }, io := .swap } []
  | swaps (ha : s.io = .swap) : Stepped capacity s
      { s with mailbox := { s.mailbox with taskFunctors := [] }, io := .unlock s.mailbox.taskFunctors } []
  | unlocks {functors : List Fn} (ha : s.io = .unlock functors) :
      Stepped capacity s { s with mailbox := { s.mailbox with mutex := none }, io := .draining functors } []
  | drained (ha : s.io = .draining []) : Stepped capacity s { s with io := .dispatching } []
  | calls {f : Fn} {rest : List Fn} (ha : s.io = .draining (f :: rest)) :
      Stepped capacity s { s with io := .running f rest .outside } [.called f]
  | returns {f : Fn} {rest : List Fn} (ha : s.io = .running f rest .outside) :
      Stepped capacity s { s with io := .draining rest } []

theorem step_stepped {x : Action Fn} (h : step capacity s x = some (t,es)) : Stepped capacity s t es := by
  cases x with
  | call i func =>
    simp only [step, call] at h
    split at h
    · rename_i ha
      cases h
      exact .call ha
    · cases h
  | submitter i =>
    obtain ⟨a,ha,h⟩ := Option.bind_eq_some_iff.mp h
    obtain ⟨⟨b,m,es⟩,hm,h⟩ := Option.map_eq_some_iff.mp h
    cases h
    exact .submitter ha hm
  | callInside func =>
    simp only [step, callInside] at h
    split at h
    · rename_i ha
      cases h
      exact .callInside ha
    · cases h
  | inside =>
    simp only [step, inside] at h
    split at h
    · rename_i ha
      obtain ⟨⟨b,m,es⟩,hm,h⟩ := Option.map_eq_some_iff.mp h
      cases h
      exact .inside ha hm
    · cases h
  | start =>
    simp only [step, start] at h
    split at h
    · rename_i ha
      cases h
      exact .start ha
    · cases h
  | recv n =>
    simp only [step, recv] at h
    split at h
    · rename_i ha
      split at h
      · rename_i hn
        cases h
        exact .recv ha hn
      · cases h
    · cases h
  | execute =>
    simp only [step, execute] at h
    split at h
    · rename_i ha
      split at h
      · rename_i hfree
        cases h
        exact .locks ha hfree
      · cases h
    · rename_i ha
      cases h
      exact .swaps ha
    · rename_i ha
      cases h
      exact .unlocks ha
    · rename_i ha
      cases h
      exact .drained ha
    · rename_i ha
      cases h
      exact .calls ha
    · cases h
  | ret =>
    simp only [step, ret] at h
    split at h
    · rename_i ha
      cases h
      exact .returns ha
    · cases h

/-- The threads at the statements that have the mutex are the one that holds it. -/
structure Excluded (s : LockedIoThread Fn) : Prop where
  owns : Mutex.Owns SubmitPoint.holding IoHolder.submitter s.submitters s.mailbox.mutex
  io : s.io.holding = true ↔ s.mailbox.mutex = some .io

theorem submitter_inj : Function.Injective IoHolder.submitter := fun _ _ h => by
  cases h
  rfl

/-- A move of the IO thread to a point that has the mutex or not as before. -/
theorem Excluded.quiet {x : IoPoint Fn} {m : Mailbox Fn} (h : Excluded s) (hx : x.holding = s.io.holding)
    (hm : m.mutex = s.mailbox.mutex) : Excluded { s with mailbox := m, io := x } where
  owns := by
    rw [hm]
    exact h.owns
  io := by
    rw [hx, hm]
    exact h.io

/-- The IO thread takes the mutex or leaves it. -/
theorem Excluded.ioLocks {x : IoPoint Fn} {m : Mailbox Fn} (h : Excluded s) (hfree : s.mailbox.mutex = none)
    (hx : x.holding = true) (hm : m.mutex = some .io) : Excluded { s with mailbox := m, io := x } where
  owns := by
    refine h.owns.drift (fun _ => rfl) (fun j => ?_)
    rw [hm, hfree]
    simp
  io := by
    rw [hx, hm]
    simp

theorem Excluded.ioUnlocks {x : IoPoint Fn} {m : Mailbox Fn} (h : Excluded s) (hio : s.io.holding = true)
    (hx : x.holding = false) (hm : m.mutex = none) : Excluded { s with mailbox := m, io := x } where
  owns := by
    refine h.owns.drift (fun _ => rfl) (fun j => ?_)
    rw [hm, h.io.mp hio]
    simp
  io := by
    rw [hx, hm]
    simp

theorem Excluded.submitter {m : Mailbox Fn} (h : Excluded s) (ha : s.submitters[i]? = some a)
    (hm : s.mailbox.submit capacity (.submitter i) a = some (b,m,es)) :
    Excluded { s with mailbox := m, submitters := s.submitters.set i b } := by
  have hat := h.owns.at ha
  rcases submit_cases hm with ⟨func,rfl,rfl,hfree,rfl,rfl⟩ | ⟨func,rfl,rfl,rfl,rfl⟩ | ⟨func,rfl,rfl,rfl,rfl⟩ |
    ⟨rfl,rfl,rfl,rfl⟩
  · refine ⟨Mutex.Owns.lock submitter_inj (hfree ▸ h.owns) ha rfl,?_⟩
    rw [h.io, hfree]
    simp
  · exact ⟨h.owns.stay ha rfl,h.io⟩
  · exact ⟨h.owns.stay ha rfl,h.io⟩
  · have howner := hat.mp rfl
    refine ⟨Mutex.Owns.unlock submitter_inj (howner ▸ h.owns) rfl,?_⟩
    rw [h.io, howner]
    simp

theorem Excluded.inside {f : Fn} {rest : List Fn} {m : Mailbox Fn} (h : Excluded s)
    (ha : s.io = .running f rest a) (hm : s.mailbox.submit capacity .io a = some (b,m,es)) :
    Excluded { s with mailbox := m, io := .running f rest b } := by
  rcases submit_cases hm with ⟨func,rfl,rfl,hfree,rfl,rfl⟩ | ⟨func,rfl,rfl,rfl,rfl⟩ | ⟨func,rfl,rfl,rfl,rfl⟩ |
    ⟨rfl,rfl,rfl,rfl⟩
  · exact h.ioLocks hfree rfl rfl
  · exact h.quiet (by rw [ha]; rfl) rfl
  · exact h.quiet (by rw [ha]; rfl) rfl
  · exact h.ioUnlocks (by rw [ha]; rfl) rfl rfl

theorem Excluded.step (h : Excluded s) (hs : Stepped capacity s t es) : Excluded t := by
  cases hs with
  | call ha => exact ⟨h.owns.stay ha rfl,h.io⟩
  | submitter ha hm => exact h.submitter ha hm
  | inside ha hm => exact h.inside ha hm
  | callInside ha | start ha | recv ha hn | swaps ha | drained ha | calls ha | returns ha =>
    exact h.quiet (by rw [ha]; rfl) rfl
  | locks ha hfree => exact h.ioLocks hfree rfl rfl
  | unlocks ha => exact h.ioUnlocks (by rw [ha]; rfl) rfl rfl

theorem excluded_of_runs (hr : (machine Fn capacity n).Runs P tr s) : Excluded s := by
  refine hr.stateInvariant (I := Excluded) ?_ (fun s a t es h hs => h.step (step_stepped hs))
  rintro _ rfl
  refine ⟨fun i => ?_,by simp [new,IoPoint.holding]⟩
  rw [new, List.getElem?_replicate]
  split <;> simp [SubmitPoint.holding]

/-- Where in `Submit` the thread is that holds the mutex. -/
def holder (s : LockedIoThread Fn) : SubmitPoint Fn :=
  match s.mailbox.mutex with
  | none => .outside
  | some .io => s.io.inner
  | some (.submitter i) => s.submitters[i]?.getD .outside

/-- The functors that have been notified of. -/
def announced (s : LockedIoThread Fn) : List Fn :=
  s.mailbox.taskFunctors.take (s.mailbox.taskFunctors.length - s.holder.unannounced.length)

/-- The mailbox in which a `Submit` is one step, that of its notification. -/
def mail (s : LockedIoThread Fn) : IoThread Fn := ⟨s.announced,s.mailbox.unread,s.io.phase⟩

def mailEvent : SubmitEvent Fn → Option (IoEvent Fn)
  | .notified func => some (.submitted func)
  | .called f => some (.called f)
  | _ => none

theorem holder_free (h : s.mailbox.mutex = none) : s.holder = .outside := by
  rw [holder, h]

theorem Excluded.holder_submitter (h : Excluded s) (ha : s.submitters[i]? = some a) (hhold : a.holding = true) :
    s.holder = a := by
  rw [holder, (h.owns.at ha).mp hhold]
  dsimp only
  rw [ha]
  rfl

theorem Excluded.holder_io {f : Fn} {rest : List Fn} (h : Excluded s) (ha : s.io = .running f rest a)
    (hhold : a.holding = true) : s.holder = a := by
  have hio : s.io.holding = true := by
    rw [ha]
    exact hhold
  rw [holder, h.io.mp hio, ha]
  rfl

/-- A step of a `Submit` is one of the thread that holds the mutex, or takes it. -/
inductive Effect (capacity : ℕ) (s t : LockedIoThread Fn) : List (SubmitEvent Fn) → Prop
  | locked (func : Fn) (hs : s.holder = .outside) (ht : t.holder = .push func)
      (hq : t.mailbox.taskFunctors = s.mailbox.taskFunctors) (hu : t.mailbox.unread = s.mailbox.unread)
      (hp : t.io.phase = s.io.phase) : Effect capacity s t [.locked func]
  | pushed (func : Fn) (hs : s.holder = .push func) (ht : t.holder = .notify func)
      (hq : t.mailbox.taskFunctors = s.mailbox.taskFunctors ++ [func])
      (hu : t.mailbox.unread = s.mailbox.unread) (hp : t.io.phase = s.io.phase) :
      Effect capacity s t [.pushed func]
  | notified (func : Fn) (hs : s.holder = .notify func) (ht : t.holder = .unlock)
      (hq : t.mailbox.taskFunctors = s.mailbox.taskFunctors)
      (hu : t.mailbox.unread = IoThread.eventNotify capacity s.mailbox.unread)
      (hp : t.io.phase = s.io.phase) : Effect capacity s t [.notified func]
  | unlocked (hs : s.holder = .unlock) (ht : t.holder = .outside)
      (hq : t.mailbox.taskFunctors = s.mailbox.taskFunctors) (hu : t.mailbox.unread = s.mailbox.unread)
      (hp : t.io.phase = s.io.phase) : Effect capacity s t []
  | quiet (ht : t.holder = s.holder) (hq : t.mailbox.taskFunctors = s.mailbox.taskFunctors)
      (hu : t.mailbox.unread = s.mailbox.unread) (hp : t.io.phase = s.io.phase) : Effect capacity s t []
  | io {es : List (SubmitEvent Fn)} (x : IoThread.Action Fn) (ht : t.holder = s.holder)
      (hq : t.mailbox.taskFunctors = s.mailbox.taskFunctors ∨
        t.mailbox.taskFunctors = [] ∧ s.holder = .outside) (hes : ∀ e ∈ es, ∃ f, e = .called f)
      (hstep : IoThread.step capacity s.mail x = some (t.mail,es.filterMap mailEvent)) : Effect capacity s t es

theorem Excluded.effect_submitter {m : Mailbox Fn} (h : Excluded s) (ha : s.submitters[i]? = some a)
    (hm : s.mailbox.submit capacity (.submitter i) a = some (b,m,es)) :
    Effect capacity s { s with mailbox := m, submitters := s.submitters.set i b } es := by
  have hafter := h.submitter ha hm
  have hb : (s.submitters.set i b)[i]? = some b := List.getElem?_set_self (List.getElem?_eq_some_iff.mp ha).1
  rcases submit_cases hm with ⟨func,rfl,rfl,hfree,rfl,rfl⟩ | ⟨func,rfl,rfl,rfl,rfl⟩ | ⟨func,rfl,rfl,rfl,rfl⟩ |
    ⟨rfl,rfl,rfl,rfl⟩
  · exact .locked func (holder_free hfree) (hafter.holder_submitter hb rfl) rfl rfl rfl
  · exact .pushed func (h.holder_submitter ha rfl) (hafter.holder_submitter hb rfl) rfl rfl rfl
  · exact .notified func (h.holder_submitter ha rfl) (hafter.holder_submitter hb rfl) rfl rfl rfl
  · exact .unlocked (h.holder_submitter ha rfl) (holder_free rfl) rfl rfl rfl

theorem Excluded.effect_inside {f : Fn} {rest : List Fn} {m : Mailbox Fn} (h : Excluded s)
    (ha : s.io = .running f rest a) (hm : s.mailbox.submit capacity .io a = some (b,m,es)) :
    Effect capacity s { s with mailbox := m, io := .running f rest b } es := by
  have hafter := h.inside ha hm
  have hp : (IoPoint.running f rest b).phase = s.io.phase := by
    rw [ha]
    rfl
  rcases submit_cases hm with ⟨func,rfl,rfl,hfree,rfl,rfl⟩ | ⟨func,rfl,rfl,rfl,rfl⟩ | ⟨func,rfl,rfl,rfl,rfl⟩ |
    ⟨rfl,rfl,rfl,rfl⟩
  · exact .locked func (holder_free hfree) (hafter.holder_io rfl rfl) rfl rfl hp
  · exact .pushed func (h.holder_io ha rfl) (hafter.holder_io rfl rfl) rfl rfl hp
  · exact .notified func (h.holder_io ha rfl) (hafter.holder_io rfl rfl) rfl rfl hp
  · exact .unlocked (h.holder_io ha rfl) (holder_free rfl) rfl rfl hp

/-- A thread that calls `Submit` does not have the mutex. -/
theorem Excluded.holder_call (h : Excluded s) (ha : s.submitters[i]? = some .outside) (func : Fn) :
    holder { s with submitters := s.submitters.set i (.lock func) } = s.holder := by
  unfold holder
  cases hm : s.mailbox.mutex with
  | none => rfl
  | some who =>
    cases who with
    | io => rfl
    | submitter j =>
      have hij : i ≠ j := by
        rintro rfl
        have hhold := (h.owns.at ha).mpr hm
        cases hhold
      simp only [List.getElem?_set_ne hij]

/-- A move of the IO thread alone. -/
theorem holder_io_move {x : IoPoint Fn} {m : Mailbox Fn} (hm : m.mutex = s.mailbox.mutex)
    (hx : s.mailbox.mutex = some .io → x.inner = s.io.inner) : holder { s with mailbox := m, io := x } = s.holder := by
  unfold holder
  dsimp only
  rw [hm]
  cases hs : s.mailbox.mutex with
  | none => rfl
  | some who =>
    cases who with
    | io => exact hx hs
    | submitter j => rfl

/-- A move of the IO thread that leaves the vector alone is one of the coarse mailbox. -/
theorem effect_io_move {y : IoPoint Fn} {m : Mailbox Fn} (x : IoThread.Action Fn)
    (ht : holder { s with mailbox := m, io := y } = s.holder) (hq : m.taskFunctors = s.mailbox.taskFunctors)
    (hes : ∀ e ∈ es, ∃ f, e = .called f)
    (hstep : IoThread.step capacity s.mail x = some (⟨s.announced,m.unread,y.phase⟩,es.filterMap mailEvent)) :
    Effect capacity s { s with mailbox := m, io := y } es := by
  refine .io x ht (Or.inl hq) hes ?_
  rw [hstep, mail, announced, announced, ht, hq]

theorem Excluded.effect (h : Excluded s) (hs : Stepped capacity s t es) : Effect capacity s t es := by
  cases hs with
  | call ha => exact .quiet (h.holder_call ha _) rfl rfl rfl
  | submitter ha hm => exact h.effect_submitter ha hm
  | inside ha hm => exact h.effect_inside ha hm
  | callInside ha =>
    refine .quiet (holder_io_move rfl (fun hio => ?_)) rfl rfl (by rw [ha]; rfl)
    have hhold := h.io.mpr hio
    rw [ha] at hhold
    cases hhold
  | locks ha hfree =>
    refine .quiet ?_ rfl rfl (by rw [ha]; rfl)
    rw [holder_free hfree]
    rfl
  | unlocks ha =>
    have hio := h.io.mp (by rw [ha]; rfl)
    refine .quiet ?_ rfl rfl (by rw [ha]; rfl)
    rw [holder, holder, hio, ha]
    rfl
  | start ha =>
    refine effect_io_move .start (holder_io_move rfl (fun _ => by rw [ha]; rfl)) rfl (by simp) ?_
    rw [mail, ha]
    rfl
  | @recv n ha hn =>
    refine effect_io_move (.recv n) (holder_io_move rfl (fun _ => by rw [ha]; rfl)) rfl (by simp) ?_
    rw [mail, ha]
    exact if_pos hn
  | swaps ha =>
    have hio := h.io.mp (by rw [ha]; rfl)
    have hout : s.holder = .outside := by
      rw [holder, hio, ha]
      rfl
    have hnext : holder { s with mailbox := { s.mailbox with taskFunctors := [] }
                                 io := .unlock s.mailbox.taskFunctors } = s.holder :=
      holder_io_move rfl (fun _ => by rw [ha]; rfl)
    refine .io .swap hnext (Or.inr ⟨rfl,hout⟩) (by simp) ?_
    rw [mail, mail, announced, announced, hnext, hout, ha]
    simp [IoThread.step,IoThread.swap,IoPoint.phase,SubmitPoint.unannounced]
  | drained ha =>
    refine effect_io_move .call (holder_io_move rfl (fun _ => by rw [ha]; rfl)) rfl (by simp) ?_
    rw [mail, ha]
    rfl
  | calls ha =>
    refine effect_io_move .call (holder_io_move rfl (fun _ => by rw [ha]; rfl)) rfl (by simp) ?_
    rw [mail, ha]
    rfl
  | returns ha =>
    refine effect_io_move .ret (holder_io_move rfl (fun _ => by rw [ha]; rfl)) rfl (by simp) ?_
    rw [mail, ha]
    rfl

section History

def lockedEvent : SubmitEvent Fn → Option Fn
  | .locked func => some func
  | _ => none

def pushedEvent : SubmitEvent Fn → Option Fn
  | .pushed func => some func
  | _ => none

/-- The functors in the order in which `Submit` locked the mutex. -/
def lockOrder (tr : List (SubmitEvent Fn)) : List Fn := tr.filterMap lockedEvent
def pushOrder (tr : List (SubmitEvent Fn)) : List Fn := tr.filterMap pushedEvent
def notifyOrder (tr : List (SubmitEvent Fn)) : List Fn := IoThread.submitted (tr.filterMap mailEvent)
/-- The functors in the order in which the IO thread called them. -/
def callOrder (tr : List (SubmitEvent Fn)) : List Fn := IoThread.called (tr.filterMap mailEvent)

@[simp] theorem lockOrder_append (xs ys : List (SubmitEvent Fn)) :
    lockOrder (xs ++ ys) = lockOrder xs ++ lockOrder ys := List.filterMap_append
@[simp] theorem pushOrder_append (xs ys : List (SubmitEvent Fn)) :
    pushOrder (xs ++ ys) = pushOrder xs ++ pushOrder ys := List.filterMap_append
@[simp] theorem notifyOrder_append (xs ys : List (SubmitEvent Fn)) :
    notifyOrder (xs ++ ys) = notifyOrder xs ++ notifyOrder ys := by simp [notifyOrder]

/-- Only `called` events. -/
theorem orders_called (hes : ∀ e ∈ es, ∃ f, e = .called f) :
    lockOrder es = [] ∧ pushOrder es = [] ∧ notifyOrder es = [] := by
  induction es with
  | nil => exact ⟨rfl,rfl,rfl⟩
  | cons e es ih =>
    obtain ⟨f,rfl⟩ := hes e List.mem_cons_self
    exact ih (fun e he => hes e (List.mem_cons_of_mem _ he))

/-- The functors pass the statements of `Submit` in one order, and the last one that was
pushed is at the end of the vector until it is notified of. -/
structure Ordered (tr : List (SubmitEvent Fn)) (s : LockedIoThread Fn) : Prop where
  locked : lockOrder tr = pushOrder tr ++ s.holder.inFlight
  pushed : pushOrder tr = notifyOrder tr ++ s.holder.unannounced
  queue : s.mailbox.taskFunctors = s.announced ++ s.holder.unannounced

theorem announced_eq (h : s.holder.unannounced = []) : s.announced = s.mailbox.taskFunctors := by
  rw [announced, h]
  exact List.take_length

theorem queue_eq (h : s.holder.unannounced = []) :
    s.mailbox.taskFunctors = s.announced ++ s.holder.unannounced := by
  rw [announced_eq h, h, List.append_nil]

theorem announced_pushed {func : Fn} {queue : List Fn} (hs : s.holder = .notify func)
    (hq : s.mailbox.taskFunctors = queue ++ [func]) : s.announced = queue := by
  rw [announced, hs, hq]
  simp [SubmitPoint.unannounced]

theorem announced_same (ht : t.holder = s.holder) (hq : t.mailbox.taskFunctors = s.mailbox.taskFunctors) :
    t.announced = s.announced := by
  rw [announced, announced, ht, hq]

theorem Ordered.step (h : Ordered tr s) (he : Effect capacity s t es) : Ordered (tr ++ es) t := by
  have hlocked := h.locked
  have hpushed := h.pushed
  cases he with
  | locked func hs ht hq hu hp =>
    rw [hs] at hlocked hpushed
    refine ⟨?_,?_,queue_eq (by rw [ht]; rfl)⟩
    · rw [lockOrder_append, pushOrder_append, hlocked, ht]
      simp [lockOrder,lockedEvent,pushOrder,pushedEvent,SubmitPoint.inFlight]
    · rw [pushOrder_append, notifyOrder_append, hpushed, ht]
      rfl
  | pushed func hs ht hq hu hp =>
    rw [hs] at hlocked hpushed
    refine ⟨?_,?_,?_⟩
    · rw [lockOrder_append, pushOrder_append, hlocked, ht]
      simp [lockOrder,lockedEvent,pushOrder,pushedEvent,SubmitPoint.inFlight]
    · rw [pushOrder_append, notifyOrder_append, hpushed, ht]
      have hnone : notifyOrder [SubmitEvent.pushed func] = [] := rfl
      simp [hnone,pushOrder,pushedEvent,SubmitPoint.unannounced]
    · rw [announced_pushed ht hq, hq, ht]
      rfl
  | notified func hs ht hq hu hp =>
    rw [hs] at hlocked hpushed
    refine ⟨?_,?_,queue_eq (by rw [ht]; rfl)⟩
    · rw [lockOrder_append, pushOrder_append, hlocked, ht]
      rfl
    · rw [pushOrder_append, notifyOrder_append, hpushed, ht]
      have hone : notifyOrder [SubmitEvent.notified func] = [func] := rfl
      simp [hone,pushOrder,pushedEvent,SubmitPoint.unannounced]
  | unlocked hs ht hq hu hp =>
    rw [hs] at hlocked hpushed
    rw [List.append_nil]
    exact ⟨by rw [hlocked, ht]; rfl,by rw [hpushed, ht]; rfl,queue_eq (by rw [ht]; rfl)⟩
  | quiet ht hq hu hp =>
    rw [List.append_nil]
    exact ⟨by rw [ht]; exact hlocked,by rw [ht]; exact hpushed,
      by rw [announced_same ht hq, ht, hq]; exact h.queue⟩
  | io x ht hq hes hstep =>
    obtain ⟨hl,hpu,hn⟩ := orders_called hes
    refine ⟨?_,?_,?_⟩
    · rw [lockOrder_append, pushOrder_append, hl, hpu, ht, List.append_nil, List.append_nil]
      exact hlocked
    · rw [pushOrder_append, notifyOrder_append, hpu, hn, ht, List.append_nil, List.append_nil]
      exact hpushed
    · rcases hq with hq | ⟨hq,hout⟩
      · rw [announced_same ht hq, ht, hq]
        exact h.queue
      · exact queue_eq (by rw [ht, hout]; rfl)

theorem ordered_of_runs (hr : (machine Fn capacity n).Runs P tr s) : Ordered tr s := by
  refine hr.invariant (I := Ordered) ?_
    (fun tr s a t es hr h _ hs => h.step ((excluded_of_runs hr).effect (step_stepped hs)))
  rintro _ rfl
  exact ⟨rfl,rfl,rfl⟩

theorem mail_eq (ha : t.announced = s.announced) (hu : t.mailbox.unread = s.mailbox.unread)
    (hp : t.io.phase = s.io.phase) : t.mail = s.mail := by
  rw [mail, mail, ha, hu, hp]

/-- The statements refine the mailbox. A `Submit` takes place there when it notifies. -/
def toIoThread (Fn : Type*) (capacity n : ℕ) : Machine.Projection (machine Fn capacity n) Machine.Any
    (IoThread.machine Fn capacity) Machine.Any where
  state := mail
  event := mailEvent
  initial := by
    rintro _ rfl
    rfl
  step := by
    intro tr s x t es hr _ hs hmail
    have hqueue := (ordered_of_runs hr).queue
    have heffect := (excluded_of_runs hr).effect (step_stepped hs)
    clear hs
    cases heffect with
    | locked func hs ht hq hu hp =>
      have ha : t.announced = s.announced := by
        rw [announced_eq (by rw [ht]; rfl), announced_eq (by rw [hs]; rfl), hq]
      rw [mail_eq ha hu hp]
      exact (List.append_nil _).symm ▸ hmail
    | pushed func hs ht hq hu hp =>
      have ha : t.announced = s.announced := by
        rw [announced_pushed ht hq, announced_eq (by rw [hs]; rfl)]
      rw [mail_eq ha hu hp]
      exact (List.append_nil _).symm ▸ hmail
    | notified func hs ht hq hu hp =>
      have hnext : t.mail = (IoThread.submit capacity s.mail func).1 := by
        rw [mail, announced_eq (by rw [ht]; rfl), hq, hu, hp, hqueue, hs]
        rfl
      rw [hnext]
      exact hmail.next (a := IoThread.Action.submit func) trivial rfl
    | unlocked hs ht hq hu hp =>
      have ha : t.announced = s.announced := by
        rw [announced_eq (by rw [ht]; rfl), announced_eq (by rw [hs]; rfl), hq]
      rw [mail_eq ha hu hp]
      exact (List.append_nil _).symm ▸ hmail
    | quiet ht hq hu hp =>
      rw [mail_eq (announced_same ht hq) hu hp]
      exact (List.append_nil _).symm ▸ hmail
    | io x ht hq hes hstep => exact hmail.next (a := x) trivial hstep

theorem runs_ioThread (hr : (machine Fn capacity n).Runs P tr s) :
    (IoThread.machine Fn capacity).Runs Machine.Any (tr.filterMap mailEvent) s.mail :=
  (toIoThread Fn capacity n).runs hr.any

/-- Nothing is lost, repeated or reordered on the way to the IO thread. -/
theorem pushOrder_eq (hr : (machine Fn capacity n).Runs P tr s) :
    pushOrder tr = callOrder tr ++ s.io.phase.rest ++ s.mailbox.taskFunctors := by
  have h := ordered_of_runs hr
  have hmail : notifyOrder tr = callOrder tr ++ (s.io.phase.rest ++ s.announced) :=
    IoThread.submitted_eq (runs_ioThread hr)
  rw [h.pushed, hmail, h.queue]
  simp only [List.append_assoc]

end History

section Progress

theorem runs_submitter {m : Mailbox Fn} (hr : (machine Fn capacity n).Runs Machine.Any tr s)
    (ha : s.submitters[i]? = some a) (hm : s.mailbox.submit capacity (.submitter i) a = some (b,m,es)) :
    (machine Fn capacity n).Runs Machine.Any (tr ++ es)
      { s with mailbox := m, submitters := s.submitters.set i b } := by
  have hs : step capacity s (.submitter i) =
      some ({ s with mailbox := m, submitters := s.submitters.set i b },es) := by
    rw [step, submitter, ha, Option.bind_some, hm]
    rfl
  exact hr.next (a := Action.submitter i) trivial hs

/-- A thread in `Submit` that has the mutex goes on until it unlocks it, whatever the IO
thread waits for. -/
theorem submitter_unlocks (hr : (machine Fn capacity n).Runs Machine.Any tr s) (ha : s.submitters[i]? = some a)
    (hhold : a.holding = true) : ∃ post t, (machine Fn capacity n).Runs Machine.Any (tr ++ post) t ∧
      t.mailbox.mutex = none ∧ t.io = s.io := by
  have hset : ∀ b, (s.submitters.set i b)[i]? = some b :=
    fun b => List.getElem?_set_self (List.getElem?_eq_some_iff.mp ha).1
  cases a with
  | outside => cases hhold
  | lock func => cases hhold
  | push func =>
    have hpush := runs_submitter hr ha rfl
    have hnotify := runs_submitter hpush (hset _) rfl
    have hunlock := runs_submitter hnotify (by rw [List.set_set]; exact hset _) rfl
    rw [List.append_assoc, List.append_assoc] at hunlock
    exact ⟨_,_,hunlock,rfl,rfl⟩
  | notify func =>
    have hnotify := runs_submitter hr ha rfl
    have hunlock := runs_submitter hnotify (hset _) rfl
    rw [List.append_assoc] at hunlock
    exact ⟨_,_,hunlock,rfl,rfl⟩
  | unlock => exact ⟨_,_,runs_submitter hr ha rfl,rfl,rfl⟩

theorem inside_locks {f func : Fn} {rest : List Fn} (hr : (machine Fn capacity n).Runs Machine.Any tr s)
    (hio : s.io = .running f rest (.lock func)) (hfree : s.mailbox.mutex = none) :
    ∃ post t, (machine Fn capacity n).Runs Machine.Any (tr ++ post) t ∧
      t.io = .running f rest (.push func) ∧ t.mailbox.mutex = some .io := by
  have hs : step capacity s .inside = some ({ s with
      mailbox := { s.mailbox with mutex := some .io }
      io := .running f rest (.push func) },[.locked func]) := by
    rw [step, inside, hio]
    dsimp only
    rw [Mailbox.submit, if_pos hfree]
    rfl
  exact ⟨_,_,hr.next (a := Action.inside) trivial hs,rfl,rfl⟩

/-- A functor that waits for the mutex in its `Submit` can get it: nobody else needs the IO
thread to give it back. -/
theorem functor_locks {f func : Fn} {rest : List Fn} (hr : (machine Fn capacity n).Runs P tr s)
    (hio : s.io = .running f rest (.lock func)) :
    ∃ post t, (machine Fn capacity n).Runs Machine.Any (tr ++ post) t ∧
      t.io = .running f rest (.push func) ∧ t.mailbox.mutex = some .io := by
  have hex := excluded_of_runs hr
  cases hmutex : s.mailbox.mutex with
  | none => exact inside_locks hr.any hio hmutex
  | some who =>
    cases who with
    | io =>
      have hhold := hex.io.mpr hmutex
      rw [hio] at hhold
      cases hhold
    | submitter i =>
      have howns := hex.owns
      rw [hmutex] at howns
      obtain ⟨a,ha,hhold⟩ := howns.exists_point
      obtain ⟨post,t,hpost,hfree,hsame⟩ := submitter_unlocks hr.any ha hhold
      obtain ⟨last,u,hlast,hu⟩ := inside_locks hpost (hsame.trans hio) hfree
      rw [List.append_assoc] at hlast
      exact ⟨post ++ last,u,hlast,hu⟩

end Progress

/-- For every number of threads that submit and every run: the functors that `Submit` has
put into the vector are those already run, in the order in which they were run, then the
rest of the vector that the current `ExecuteTask` has taken, then the vector; this is the
order in which `Submit` locked the mutex, where a `Submit` that has just locked it comes
last; inside a functor the IO thread has the mutex only for a `Submit` of the functor
itself; and such a `Submit` can always get it. -/
theorem runs_in_lock_order (hr : (machine Fn capacity n).Runs P tr s) :
    pushOrder tr = callOrder tr ++ s.io.phase.rest ++ s.mailbox.taskFunctors ∧
    lockOrder tr = pushOrder tr ++ s.holder.inFlight ∧
    (∀ f rest a, s.io = .running f rest a → (s.mailbox.mutex = some .io ↔ a.holding = true)) ∧
    ∀ f rest func, s.io = .running f rest (.lock func) →
      ∃ post t, (machine Fn capacity n).Runs Machine.Any (tr ++ post) t ∧
        t.io = .running f rest (.push func) ∧ t.mailbox.mutex = some .io := by
  refine ⟨pushOrder_eq hr,(ordered_of_runs hr).locked,fun f rest a hio => ?_,fun f rest func hio => functor_locks hr hio⟩
  rw [← (excluded_of_runs hr).io, hio]
  rfl

/-- While functor 1 runs and wants to submit 7, another thread has locked the mutex for 2. -/
theorem runs_in_lock_order_inside : ∃ tr, ∃ s : LockedIoThread ℕ,
    (machine ℕ 1 2).Runs Machine.Any tr s ∧ s.io = .running 1 [] (.lock 7) ∧ lockOrder tr = [1,2] ∧
    callOrder tr = [1] ∧ pushOrder tr = callOrder tr ++ s.io.phase.rest ++ s.mailbox.taskFunctors ∧
    ∃ post t, (machine ℕ 1 2).Runs Machine.Any (tr ++ post) t ∧ t.io = .running 1 [] (.push 7) ∧
      t.mailbox.mutex = some .io := by
  have hrun : ∃ c, (machine ℕ 1 2).replay (fun _ _ _ => true)
      [.start,.call 0 1,.submitter 0,.submitter 0,.submitter 0,.recv 1,.submitter 0,.execute,.execute,.execute,
        .execute,.call 1 2,.callInside 7,.submitter 1] ([],new ℕ 2) = some c ∧
      c.2.io = .running 1 [] (.lock 7) ∧ lockOrder c.1 = [1,2] ∧ callOrder c.1 = [1] := ⟨_,rfl,rfl,rfl,rfl⟩
  obtain ⟨⟨tr,s⟩,hc,hio,hlock,hcall⟩ := hrun
  have hr := Machine.replay_runs (P := Machine.Any) (fun _ _ _ _ => trivial) (.start rfl) hc
  obtain ⟨horder,_,_,hfunctor⟩ := runs_in_lock_order hr
  exact ⟨tr,s,hr,hio,hlock,hcall,horder,hfunctor 1 [] 7 hio⟩

end LockedIoThread
end Kbms
