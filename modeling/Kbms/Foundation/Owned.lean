import Mathlib.Data.List.Basic
import Kbms.Foundation.Machine
import Kbms.Foundation.LoopThread

/-! # Objects that own a background thread

The owner's calls and its destructor are lists of statements, which are executed one by
one between the steps of the thread. The pieces of the thread's rounds use a state that
one statement of the destructor releases. The last one destroys the thread object.
-/
namespace Foundation

inductive OwnerStatement
  | release
  | stop
  | join
  | drop
  deriving DecidableEq, Repr

structure Owned where
  thread : LoopThread
  todo : List OwnerStatement
  released : Bool
  destroying : Bool

inductive OwnedAction
  | start
  | callStop
  | destroy
  | owner
  | thread

/-- `dropped`: a thread object is destroyed, joinable or not. -/
inductive OwnedEvent
  | used
  | released
  | dropped (joinable : Bool)
  deriving DecidableEq, Repr

namespace Owned
variable {last : ℕ} {dtor : List OwnerStatement} {s t : Owned} {tr es : List OwnedEvent}

def new : Owned := ⟨⟨.absent,false⟩,[],false,false⟩

/-- The object is not busy with a call and not in its destructor. -/
def idle (s : Owned) : Bool := s.todo.isEmpty && !s.destroying

def execute (s : Owned) (rest : List OwnerStatement) : OwnerStatement → Option (Owned × List OwnedEvent)
  | .release => some ({ s with todo := rest, released := true },[.released])
  | .stop => some ({ s with todo := rest, thread := s.thread.stop },[])
  | .join =>
    if s.thread.joinable then s.thread.join.map (fun v => ({ s with todo := rest, thread := v },[]))
    else some ({ s with todo := rest },[])
  | .drop => some ({ s with todo := rest },[.dropped s.thread.joinable])

/-- A piece of a round uses the state. -/
def uses : LoopPhase → List OwnedEvent
  | .working _ => [.used]
  | _ => []

def step (last : ℕ) (dtor : List OwnerStatement) (s : Owned) : OwnedAction → Option (Owned × List OwnedEvent)
  | .start => if s.idle && !s.thread.joinable then some ({ s with thread := s.thread.start },[]) else none
  | .callStop => if s.idle then some ({ s with todo := [.stop,.join] },[]) else none
  | .destroy => if s.idle then some ({ s with todo := dtor, destroying := true },[]) else none
  | .owner =>
    match s.todo with
    | [] => none
    | stmt :: rest => s.execute rest stmt
  | .thread => (s.thread.advance last).map (fun v => ({ s with thread := v },uses s.thread.phase))

def machine (last : ℕ) (dtor : List OwnerStatement) : Machine Owned OwnedAction OwnedEvent where
  initial s := s = new
  step := step last dtor

/-- Nothing uses the state after its release, and no joinable thread is destroyed. -/
def Safe (tr : List OwnedEvent) : Prop :=
  (∀ pre post, tr = pre ++ .released :: post → .used ∉ post) ∧ .dropped true ∉ tr

/-- The destructor is not kept at its join. -/
def Finishes (last : ℕ) (s : Owned) : Prop :=
  s.destroying = true → s.todo.head? = some .join → s.thread.joinable = true → s.thread.Ends last

/-- The safety of a run from what each step does: once the state is released, by this step
or before, the step does not use it. -/
theorem safe_of_runs {σ α : Type*} {M : Machine σ α OwnedEvent} {P : List OwnedEvent → σ → α → Prop}
    {tr : List OwnedEvent} {s : σ} (I rel : σ → Prop) (hstart : ∀ s, M.initial s → I s)
    (hstep : ∀ tr s a t es, I s → P tr s a → M.step s a = some (t,es) →
      I t ∧ .dropped true ∉ es ∧ (rel s ∨ .released ∈ es → .used ∉ es ∧ rel t))
    (hr : M.Runs P tr s) : I s ∧ Safe tr := by
  have hall : I s ∧ Safe tr ∧ (.released ∈ tr → rel s) := by
    refine hr.invariant (I := fun tr s => I s ∧ Safe tr ∧ (.released ∈ tr → rel s)) ?_ ?_
    · intro s hs
      exact ⟨hstart s hs,⟨fun pre post h => absurd h (by simp),by simp⟩,fun h => (by cases h)⟩
    · intro tr s a t es _ ⟨hi,hsafe,hrel⟩ hp hs
      obtain ⟨hi',hdrop,hused⟩ := hstep tr s a t es hi hp hs
      refine ⟨hi',⟨fun pre post he hmem => ?_,fun hmem => ?_⟩,fun hmem => ?_⟩
      · rcases occurrence_append he with ⟨ys,rfl⟩ | ⟨ys,rfl,rfl⟩
        · have hpost : ys ++ es = post := by simpa using he
          rcases List.mem_append.mp (hpost ▸ hmem) with h | h
          · exact hsafe.1 pre ys rfl h
          · exact (hused (.inl (hrel (by simp)))).1 h
        · exact (hused (.inr (by simp))).1 (by simp [hmem])
      · rcases List.mem_append.mp hmem with h | h
        · exact hsafe.2 h
        · exact hdrop h
      · rcases List.mem_append.mp hmem with h | h
        · exact (hused (.inl (hrel h))).2
        · exact (hused (.inr h)).2
  exact ⟨hall.1,hall.2.1⟩

/-- What the rule asks of the events of a step between two states. -/
def StepSafe (s : Owned) (es : List OwnedEvent) (t : Owned) : Prop :=
  .dropped true ∉ es ∧ (s.released = true ∨ .released ∈ es → .used ∉ es ∧ t.released = true)

theorem stepSafe_nil (h : t.released = s.released) : StepSafe s [] t :=
  ⟨by simp,fun hr => ⟨by simp,h.trans (hr.resolve_right (by simp))⟩⟩

theorem uses_eq_nil {phase : LoopPhase} (h : ∀ k, phase ≠ .working k) : uses phase = [] := by
  cases phase with
  | working k => exact absurd rfl (h k)
  | absent | created | checking | sleeping | ended => rfl

theorem stepSafe_uses (phase : LoopPhase) (hs : s.released = false) : StepSafe s (uses phase) t := by
  refine ⟨?_,fun hr => ?_⟩
  · cases phase <;> simp [uses]
  · rcases hr with hr | hr
    · rw [hs] at hr
      cases hr
    · cases phase <;> simp [uses] at hr

theorem thread_cases (hs : s.step last dtor .thread = some (t,es)) :
    ∃ v, s.thread.advance last = some v ∧ t = { s with thread := v } ∧ es = uses s.thread.phase := by
  obtain ⟨v,hv,he⟩ := Option.map_eq_some_iff.mp hs
  cases he
  exact ⟨v,hv,rfl,rfl⟩

theorem owner_cases (hs : s.step last dtor .owner = some (t,es)) :
    ∃ stmt rest, s.todo = stmt :: rest ∧ s.execute rest stmt = some (t,es) := by
  rw [step] at hs
  split at hs
  · cases hs
  · rename_i stmt rest htodo
    exact ⟨stmt,rest,htodo,hs⟩

/-- The join returns when there is no thread or it has ended, and leaves none. -/
theorem join_cases {rest : List OwnerStatement} (hs : s.execute rest .join = some (t,es)) :
    es = [] ∧ t.todo = rest ∧ t.released = s.released ∧ t.destroying = s.destroying ∧
      t.thread.phase = .absent := by
  rw [execute] at hs
  split at hs
  · obtain ⟨v,hv,he⟩ := Option.map_eq_some_iff.mp hs
    cases he
    rw [LoopThread.join] at hv
    split at hv
    · cases hv
      exact ⟨rfl,rfl,rfl,rfl,rfl⟩
    · cases hv
  · rename_i hj
    cases hs
    exact ⟨rfl,rfl,rfl,rfl,not_not.mp (fun h => hj (decide_eq_true h))⟩

structure Before (s : Owned) : Prop where
  destroying : s.destroying = false
  released : s.released = false
  todo : s.todo = [] ∨ s.todo = [.stop,.join] ∨ s.todo = [.join]

theorem before_new : Before new := ⟨rfl,rfl,.inl rfl⟩

theorem idle_cases (h : s.idle = true) : s.todo = [] ∧ s.destroying = false := by
  obtain ⟨htodo,hd⟩ := Bool.and_eq_true_iff.mp h
  exact ⟨List.isEmpty_iff.mp htodo,by simpa using hd⟩

theorem destroy_cases (hs : s.step last dtor .destroy = some (t,es)) :
    t = { s with todo := dtor, destroying := true } ∧ es = [] := by
  rw [step] at hs
  split at hs
  · cases hs
    exact ⟨rfl,rfl⟩
  · cases hs

/-- Without the destructor the state stays, and `Stop` may be called at any time. -/
theorem Before.step {a : OwnedAction} (h : Before s) (ha : a ≠ .destroy)
    (hs : s.step last dtor a = some (t,es)) : Before t ∧ StepSafe s es t := by
  cases a with
  | destroy => exact absurd rfl ha
  | start =>
    rw [Owned.step] at hs
    split at hs
    · cases hs
      exact ⟨⟨h.destroying,h.released,h.todo⟩,stepSafe_nil rfl⟩
    · cases hs
  | callStop =>
    rw [Owned.step] at hs
    split at hs
    · cases hs
      exact ⟨⟨h.destroying,h.released,.inr (.inl rfl)⟩,stepSafe_nil rfl⟩
    · cases hs
  | thread =>
    obtain ⟨v,-,rfl,rfl⟩ := thread_cases hs
    exact ⟨⟨h.destroying,h.released,h.todo⟩,stepSafe_uses _ h.released⟩
  | owner =>
    obtain ⟨stmt,rest,htodo,hs⟩ := owner_cases hs
    have hturn := h.todo
    rw [htodo] at hturn
    rcases hturn with hturn | hturn | hturn
    · cases hturn
    · cases hturn
      cases hs
      exact ⟨⟨h.destroying,h.released,.inr (.inr rfl)⟩,stepSafe_nil rfl⟩
    · cases hturn
      obtain ⟨rfl,ht,hr,hd,-⟩ := join_cases hs
      exact ⟨⟨hd.trans h.destroying,hr.trans h.released,.inl ht⟩,stepSafe_nil hr⟩

/-- No other call is made in the destructor. -/
theorem destroying_cases {a : OwnedAction} (h : s.destroying = true)
    (hs : s.step last dtor a = some (t,es)) : a = .owner ∨ a = .thread := by
  have hidle : s.idle = false := by
    refine Bool.eq_false_iff.mpr (fun hi => ?_)
    rw [(idle_cases hi).2] at h
    cases h
  cases a with
  | owner => exact .inl rfl
  | thread => exact .inr rfl
  | start | callStop | destroy =>
    rw [step, hidle] at hs
    cases hs

end Owned
end Foundation
