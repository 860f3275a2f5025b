import Kbms.Foundation.Fifo

/-! # The mailbox of the IO thread

Other threads leave functors in `task_functors_` and one byte in a socketpair, and
the event loop of the IO thread answers readable bytes by swapping the vector out
and running what it took. Bytes and functors are not kept in step: a `recv` takes
up to 24 bytes, a swap takes all functors, and a full socket drops the byte. What
is kept is only that functors are never left behind without a byte or a swap ahead.
-/
namespace Kbms
open Foundation

/-- Where the IO thread stands: before `Start`; in the event loop; in `EventHandler`
after a successful `recv`; in `ExecuteTask`, between two functors of the vector it
took; and inside a functor. -/
inductive IoPhase (Fn : Type*)
  | created
  | dispatching
  | received
  | draining (rest : List Fn)
  | running (f : Fn) (rest : List Fn)

/-- The taken functors that are not called yet. -/
def IoPhase.rest {Fn : Type*} : IoPhase Fn → List Fn
  | .draining rest | .running _ rest => rest
  | _ => []

inductive IoEvent (Fn : Type*)
  | submitted (f : Fn)
  | called (f : Fn)

/-- `IoThread` with the bytes that wait in the socketpair of its monitor. -/
structure IoThread (Fn : Type*) where
  taskFunctors : List Fn
  unread : ℕ
  phase : IoPhase Fn

namespace IoThread
variable {Fn : Type*}

def new : IoThread Fn := ⟨[],0,.created⟩

/-- `EventMonitor::EventNotify` on a socket with room for `capacity` bytes. -/
def eventNotify (capacity unread : ℕ) : ℕ := if unread < capacity then unread + 1 else unread

/-- `IoThread::Submit`, one section of `mutex_`. -/
def submit (capacity : ℕ) (io : IoThread Fn) (f : Fn) : IoThread Fn × List (IoEvent Fn) :=
  ({ io with taskFunctors := io.taskFunctors ++ [f], unread := eventNotify capacity io.unread },
    [.submitted f])

/-- The size of the buffer of `EventMonitor::EventHandler`. -/
def bufSize : ℕ := 24

/-- `EventMonitor::EventHandler` reads `n` bytes and is about to call its handler. -/
def recv (io : IoThread Fn) (n : ℕ) : Option (IoThread Fn × List (IoEvent Fn)) :=
  match io.phase with
  | .dispatching =>
    if 0 < n ∧ n ≤ bufSize ∧ n ≤ io.unread then
      some ({ io with unread := io.unread - n, phase := .received },[])
    else none
  | _ => none

/-- The section of `IoThread::ExecuteTask` under `mutex_`. -/
def swap (io : IoThread Fn) : Option (IoThread Fn × List (IoEvent Fn)) :=
  match io.phase with
  | .received => some ({ io with taskFunctors := [], phase := .draining io.taskFunctors },[])
  | _ => none

/-- The loop of `ExecuteTask` calls the next functor, or ends. -/
def call (io : IoThread Fn) : Option (IoThread Fn × List (IoEvent Fn)) :=
  match io.phase with
  | .draining [] => some ({ io with phase := .dispatching },[])
  | .draining (f :: rest) => some ({ io with phase := .running f rest },[.called f])
  | _ => none

def ret (io : IoThread Fn) : Option (IoThread Fn × List (IoEvent Fn)) :=
  match io.phase with
  | .running _ rest => some ({ io with phase := .draining rest },[])
  | _ => none

def start (io : IoThread Fn) : Option (IoThread Fn × List (IoEvent Fn)) :=
  match io.phase with
  | .created => some ({ io with phase := .dispatching },[])
  | _ => none

/-- `submit f` may come from any thread at any time, so also from inside a functor. -/
inductive Action (Fn : Type*)
  | start
  | submit (f : Fn)
  | recv (n : ℕ)
  | swap
  | call
  | ret

def step (capacity : ℕ) (io : IoThread Fn) : Action Fn → Option (IoThread Fn × List (IoEvent Fn))
  | .start => start io
  | .submit f => some (submit capacity io f)
  | .recv n => recv io n
  | .swap => swap io
  | .call => call io
  | .ret => ret io

/-- All runs after a successful `EventMonitor::Initialize`. -/
def machine (Fn : Type*) (capacity : ℕ) : Machine (IoThread Fn) (Action Fn) (IoEvent Fn) where
  initial io := io = new
  step := step capacity

variable {capacity : ℕ} {io t : IoThread Fn} {tr es : List (IoEvent Fn)}

/-- What a step of the IO thread itself does to its phase, the vector and the socket. -/
theorem step_cases {a : Action Fn} (h : step capacity io a = some (t,es)) :
    (∃ f, a = .submit f ∧ t = (submit capacity io f).1 ∧ es = [.submitted f]) ∨
    (∃ n, io.phase = .dispatching ∧ 0 < n ∧ n ≤ bufSize ∧ n ≤ io.unread ∧ es = [] ∧
      t = { io with unread := io.unread - n, phase := .received }) ∨
    (io.phase = .received ∧ es = [] ∧
      t = { io with taskFunctors := [], phase := .draining io.taskFunctors }) ∨
    (∃ f rest, io.phase = .draining (f :: rest) ∧ es = [.called f] ∧
      t = { io with phase := .running f rest }) ∨
    (∃ ph, io.phase ≠ .received ∧ ph.rest = io.phase.rest ∧ es = [] ∧ t = { io with phase := ph }) := by
  cases a with
  | submit f =>
    cases h
    exact Or.inl ⟨f,rfl,rfl,rfl⟩
  | recv n =>
    simp only [step, recv] at h
    split at h
    · rename_i hp
      split at h
      · rename_i hn
        cases h
        exact Or.inr (Or.inl ⟨n,hp,hn.1,hn.2.1,hn.2.2,rfl,rfl⟩)
      · cases h
    · cases h
  | swap =>
    simp only [step, swap] at h
    split at h
    · rename_i hp
      cases h
      exact Or.inr (Or.inr (Or.inl ⟨hp,rfl,rfl⟩))
    · cases h
  | call =>
    simp only [step, call] at h
    split at h
    · rename_i hp
      cases h
      exact Or.inr (Or.inr (Or.inr (Or.inr ⟨_,by simp [hp],by simp [hp,IoPhase.rest],rfl,rfl⟩)))
    · rename_i f rest hp
      cases h
      exact Or.inr (Or.inr (Or.inr (Or.inl ⟨f,rest,hp,rfl,rfl⟩)))
    · cases h
  | ret =>
    simp only [step, ret] at h
    split at h
    · rename_i f rest hp
      cases h
      exact Or.inr (Or.inr (Or.inr (Or.inr ⟨_,by simp [hp],by simp [hp,IoPhase.rest],rfl,rfl⟩)))
    · cases h
  | start =>
    simp only [step, start] at h
    split at h
    · rename_i hp
      cases h
      exact Or.inr (Or.inr (Or.inr (Or.inr ⟨_,by simp [hp],by simp [hp,IoPhase.rest],rfl,rfl⟩)))
    · cases h

/-- The functors that are submitted and not called yet. -/
def pending (io : IoThread Fn) : List Fn := io.phase.rest ++ io.taskFunctors

def fifoOp : IoEvent Fn → Option (Fifo.Op Fn)
  | .submitted f => some (.push f)
  | .called f => some (.pop f)

/-- The mailbox refines the channel, with the swapped vector and the shared one as
its content. -/
def toChannel (Fn : Type*) (capacity : ℕ) :
    Machine.Projection (machine Fn capacity) Machine.Any (Fifo.channel Fn) Machine.Any where
  state := pending
  event := fifoOp
  initial := by
    rintro _ rfl
    rfl
  step := by
    intro tr io a t es _ _ hs hr
    rcases step_cases hs with ⟨f,_,rfl,rfl⟩ | ⟨n,hp,_,_,_,rfl,rfl⟩ | ⟨hp,rfl,rfl⟩ |
      ⟨f,rest,hp,rfl,rfl⟩ | ⟨ph,_,hph,rfl,rfl⟩
    · have hpend : pending (submit capacity io f).1 = pending io ++ [f] := by
        simp [pending,submit]
      rw [hpend]
      exact Fifo.runs_push f hr
    · simpa [pending,hp,IoPhase.rest] using hr
    · simpa [pending,hp,IoPhase.rest] using hr
    · simp only [pending, hp, IoPhase.rest, List.cons_append] at hr
      exact Fifo.runs_pop hr
    · simpa [pending,hph] using hr

def submitted (tr : List (IoEvent Fn)) : List Fn := Fifo.pushed (tr.filterMap fifoOp)
def called (tr : List (IoEvent Fn)) : List Fn := Fifo.popped (tr.filterMap fifoOp)

@[simp] theorem submitted_append (xs ys : List (IoEvent Fn)) :
    submitted (xs ++ ys) = submitted xs ++ submitted ys := by simp [submitted]
@[simp] theorem called_append (xs ys : List (IoEvent Fn)) :
    called (xs ++ ys) = called xs ++ called ys := by simp [called]

variable {P : List (IoEvent Fn) → IoThread Fn → Action Fn → Prop}

theorem submitted_eq (hr : (machine Fn capacity).Runs P tr io) :
    submitted tr = called tr ++ pending io :=
  Fifo.conservation ((toChannel Fn capacity).runs hr.any)

/-- The mailbox has a wakeup ahead of it. -/
def Noticed (io : IoThread Fn) : Prop :=
  io.taskFunctors ≠ [] → 0 < io.unread ∨ io.phase = .received

theorem eventNotify_pos (hc : 0 < capacity) (n : ℕ) : 0 < eventNotify capacity n := by
  unfold eventNotify
  split <;> omega

theorem Noticed.step {a : Action Fn} (hc : 0 < capacity) (h : Noticed io)
    (hs : step capacity io a = some (t,es)) : Noticed t := by
  rcases step_cases hs with ⟨f,_,rfl,_⟩ | ⟨n,_,_,_,_,_,rfl⟩ | ⟨_,_,rfl⟩ | ⟨f,rest,hp,_,rfl⟩ |
    ⟨ph,hp,_,_,rfl⟩
  · exact fun _ => Or.inl (eventNotify_pos hc io.unread)
  · exact fun _ => Or.inr rfl
  · exact fun hne => absurd rfl hne
  · intro hne
    rcases h hne with hu | hr
    · exact Or.inl hu
    · simp [hp] at hr
  · intro hne
    rcases h hne with hu | hr
    · exact Or.inl hu
    · exact absurd hr hp

/-- No functor is stranded: whenever the shared vector is not empty, a byte waits in
the socket or the IO thread is on its way from `recv` to the swap. -/
theorem no_stranded_functor (hc : 0 < capacity) (hr : (machine Fn capacity).Runs P tr io)
    (hne : io.taskFunctors ≠ []) : 0 < io.unread ∨ io.phase = .received := by
  refine hr.stateInvariant (I := Noticed) ?_ (fun s a t es h hs => h.step hc hs) hne
  rintro _ rfl hne
  exact absurd rfl hne

/-- A byte for two functors is received before a third one arrives. -/
theorem no_stranded_functor_late_submit : ∃ tr, ∃ io : IoThread ℕ,
    (machine ℕ 1).Runs Machine.Any tr io ∧ io.taskFunctors = [1,2,3] ∧ io.unread = 1 ∧
    (0 < io.unread ∨ io.phase = .received) := by
  have hrun : ∃ c, (machine ℕ 1).replay (fun _ _ _ => true)
      [.start,.submit 1,.submit 2,.recv 1,.submit 3] ([],new) = some c ∧
      c.2.taskFunctors = [1,2,3] ∧ c.2.unread = 1 := ⟨_,rfl,rfl,rfl⟩
  obtain ⟨⟨tr,io⟩,hc,hf,hu⟩ := hrun
  dsimp only at hf hu
  have hr := Machine.replay_runs (P := Machine.Any) (fun _ _ _ _ => trivial) (.start rfl) hc
  exact ⟨tr,io,hr,hf,hu,no_stranded_functor (by decide) hr (by simp [hf])⟩

end IoThread
end Kbms
