import Mathlib.Algebra.Group.Nat.Defs
import Mathlib.Algebra.Ring.Int.Defs
import Mathlib.Tactic.Common

/-! # Tasks and their deadlines

A task carries two callables, and a deadline when it was built with a nonzero
expiration. The deadline pointer is null exactly when no expiration was given;
that the timeout flag implies a deadline is part of the type, so every task that
the two constructors can build satisfies it.
-/
namespace Kbms

inductive TaskState
  | waiting | executing | timedOut | complete
  deriving DecidableEq, Repr

/-- A `steady_clock::time_point`, in nanoseconds. -/
abbrev TimePoint := ℤ

def int64 (z : ℤ) : ℤ := z.bmod (2^64)

/-- `now + milliseconds(expiration)`: the count is converted to int64 and then
scaled to nanoseconds in int64. The conversion wraps by definition; the product and the sum are
undefined where they overflow, and are taken to wrap as well. -/
def deadline (now : TimePoint) (expiration : UInt64) : TimePoint :=
  int64 (now + int64 (int64 expiration.toNat * 1000000))

inductive Callback
  | taskFun | expireFun
  deriving DecidableEq, Repr

/-- `Task`. `F` stands for the callables a `std::function` can hold and `none`
for an empty one. -/
structure Task (F : Type*) where
  state : TaskState
  taskFun : Option F
  expireFun : Option F
  flagSetTimeout : Bool
  expireTime : Option TimePoint
  expireTime_of_flag : flagSetTimeout = true → expireTime.isSome = true

namespace Task
variable {F : Type*}

/-- The constructor with an expiration, run when the clock shows `now`. -/
def ofExpiration (taskFun expireFun : Option F) (expiration : UInt64) (now : TimePoint) : Task F where
  state := .waiting
  taskFun := taskFun
  expireFun := expireFun
  flagSetTimeout := expireFun.isSome && decide (expiration > 0)
  expireTime := if expiration ≠ 0 then some (deadline now expiration) else none
  expireTime_of_flag := by
    intro h
    have he : expiration ≠ 0 := by
      rintro rfl
      simp at h
    simp [he]

def ofFun (taskFun : Option F) : Task F where
  state := .waiting
  taskFun := taskFun
  expireFun := none
  flagSetTimeout := false
  expireTime := none
  expireTime_of_flag := by simp

def callback (t : Task F) : Callback → Option F
  | .taskFun => t.taskFun
  | .expireFun => t.expireFun

/-- The state test at the head of `Run` and of `ExpireRun`. -/
def accepts (t : Task F) : Callback → Bool
  | .taskFun => t.state = .executing
  | .expireFun => t.state = .timedOut

/-- The condition under which the worker marks a task `TIMEDOUT`. The result is
`none` where the code would dereference a null deadline. -/
def expired (t : Task F) (now : TimePoint) : Option Bool :=
  if t.flagSetTimeout then t.expireTime.map (fun d => decide (d < now)) else some false

/-- The state the worker gives a task it has just taken from the queue. -/
def mark (t : Task F) (now : TimePoint) : Option (Task F) :=
  if t.state = .waiting then
    (t.expired now).map (fun late => { t with state := if late then .timedOut else .executing })
  else some t

/-- The branch the worker takes for a task after marking it; `none` when neither applies. -/
def selected (t : Task F) : Option Callback :=
  if t.state = .executing then some .taskFun
  else if t.state = .timedOut && t.flagSetTimeout then some .expireFun
  else none

def finished (t : Task F) : Task F := { t with state := .complete }

/-- The task has a deadline that counts, and it had passed when the clock showed `now`. -/
def Late (t : Task F) (now : TimePoint) : Prop :=
  t.flagSetTimeout = true ∧ ∃ d, t.expireTime = some d ∧ d < now

def SameWork (t u : Task F) : Prop := ∃ st, u = { t with state := st }

variable {t u v : Task F} {now : TimePoint}

theorem SameWork.refl (t : Task F) : SameWork t t := ⟨t.state,rfl⟩
theorem SameWork.trans (h : SameWork t u) (h' : SameWork u v) : SameWork t v := by
  obtain ⟨_,rfl⟩ := h
  obtain ⟨st,rfl⟩ := h'
  exact ⟨st,rfl⟩
theorem SameWork.callback (h : SameWork t u) (c : Callback) : u.callback c = t.callback c := by
  obtain ⟨_,rfl⟩ := h
  cases c <;> rfl
theorem SameWork.late (h : SameWork t u) : u.Late now ↔ t.Late now := by
  obtain ⟨_,rfl⟩ := h
  rfl
theorem sameWork_finished (t : Task F) : SameWork t t.finished := ⟨.complete,rfl⟩

/-- The deadline pointer is never null where it is dereferenced. -/
theorem expired_ne_none (t : Task F) (now : TimePoint) : t.expired now ≠ none := by
  unfold expired
  split
  · rename_i h
    have := t.expireTime_of_flag h
    cases he : t.expireTime with
    | none => simp [he] at this
    | some d => simp
  · simp

theorem expired_eq_true : t.expired now = some true ↔ t.Late now := by
  unfold expired Late
  by_cases h : t.flagSetTimeout = true
  · simp [h]
  · simp [h]

theorem mark_ne_none (t : Task F) (now : TimePoint) : t.mark now ≠ none := by
  unfold mark
  split
  · cases he : t.expired now with
    | none => exact absurd he (expired_ne_none t now)
    | some b => simp
  · simp

theorem mark_sameWork (h : t.mark now = some u) : SameWork t u := by
  unfold mark at h
  split at h
  · obtain ⟨b,_,rfl⟩ := Option.map_eq_some_iff.mp h
    exact ⟨_,rfl⟩
  · cases h
    exact .refl t

/-- A waiting task is always given work to do: the expiry callback when it is
late, and the ordinary one otherwise. -/
theorem mark_waiting (hw : t.state = .waiting) (h : t.mark now = some u) :
    (t.Late now ∧ u.selected = some .expireFun ∧ u.accepts .expireFun = true) ∨
    (¬ t.Late now ∧ u.selected = some .taskFun ∧ u.accepts .taskFun = true) := by
  simp only [mark, hw, if_true] at h
  obtain ⟨b,hb,rfl⟩ := Option.map_eq_some_iff.mp h
  cases b with
  | true =>
    have hl := expired_eq_true.mp hb
    exact Or.inl ⟨hl,by simp [selected,hl.1],by simp [accepts]⟩
  | false =>
    have hl : ¬ t.Late now := fun hl => by simp [expired_eq_true.mpr hl] at hb
    exact Or.inr ⟨hl,by simp [selected],by simp [accepts]⟩

end Task
end Kbms
