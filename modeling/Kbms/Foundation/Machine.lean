import Mathlib.Data.List.Basic
import Mathlib.Order.Basic

/-! # Labelled machines, their traces, and projections between them

A machine is deterministic once its action is chosen: every scheduling decision,
clock value and outcome of the environment is part of the action. A run carries
the trace of events emitted so far, so a property of histories is an invariant
of pairs of a trace and a state.
-/
namespace Foundation
variable {σ τ α β ε δ : Type*}

/-- `step s a` is the effect of action `a` in state `s` with the events it emits,
and `none` when `a` is not enabled there. -/
structure Machine (σ α ε : Type*) where
  initial : σ → Prop
  step : σ → α → Option (σ × List ε)

/-- An event of a trace that grows is one of the old trace or one of the new events. -/
theorem occurrence_append {tr es tr₁ tr₂ : List ε} {e : ε} (h : tr ++ es = tr₁ ++ e :: tr₂) :
    (∃ ys, tr = tr₁ ++ e :: ys) ∨ ∃ ys, tr₁ = tr ++ ys ∧ es = ys ++ e :: tr₂ := by
  rcases List.append_eq_append_iff.mp h with ⟨ys,hys,hes⟩ | ⟨ys,hys,hes⟩
  · exact .inr ⟨ys,hys,hes⟩
  · cases ys with
    | nil =>
      rw [List.append_nil] at hys
      exact .inr ⟨[],by rw [List.append_nil, hys],hes.symm⟩
    | cons d ys =>
      rw [List.cons_append] at hes
      cases hes
      exact .inl ⟨ys,hys⟩

namespace Machine

/-- Finite executions all of whose steps meet `P`, with the emitted trace. -/
inductive Runs (M : Machine σ α ε) (P : List ε → σ → α → Prop) : List ε → σ → Prop
  | start {s : σ} (h : M.initial s) : Runs M P [] s
  | next {tr : List ε} {s t : σ} {a : α} {es : List ε} (hr : Runs M P tr s)
      (hp : P tr s a) (hs : M.step s a = some (t,es)) : Runs M P (tr ++ es) t

/-- No condition on the steps of a run. -/
def Any : List ε → σ → α → Prop := fun _ _ _ => True

variable {M : Machine σ α ε} {P Q : List ε → σ → α → Prop} {tr : List ε} {s : σ}

theorem Runs.mono (h : ∀ tr s a, M.Runs P tr s → P tr s a → Q tr s a) (hr : M.Runs P tr s) :
    M.Runs Q tr s := by
  induction hr with
  | start hi => exact .start hi
  | next hr hp hs ih => exact .next ih (h _ _ _ hr hp) hs

theorem Runs.any (hr : M.Runs P tr s) : M.Runs Any tr s := hr.mono (fun _ _ _ _ _ => trivial)

/-- The induction rule for histories. A step may use that its source is reached. -/
theorem Runs.invariant {I : List ε → σ → Prop} (h0 : ∀ s, M.initial s → I [] s)
    (hstep : ∀ tr s a t es, M.Runs P tr s → I tr s → P tr s a → M.step s a = some (t,es) →
      I (tr ++ es) t)
    (hr : M.Runs P tr s) : I tr s := by
  induction hr with
  | start hi => exact h0 _ hi
  | next hr hp hs ih => exact hstep _ _ _ _ _ hr ih hp hs

/-- The induction rule for properties of the current state alone. -/
theorem Runs.stateInvariant {I : σ → Prop} (h0 : ∀ s, M.initial s → I s)
    (hstep : ∀ s a t es, I s → M.step s a = some (t,es) → I t)
    (hr : M.Runs P tr s) : I s :=
  hr.invariant (I := fun _ s => I s) h0 (fun _ s a t es _ hi _ hs => hstep s a t es hi hs)

/-- A run can go on until it emits `e`. -/
def Continues (M : Machine σ α ε) (P : List ε → σ → α → Prop) (tr : List ε) (e : ε) : Prop :=
  ∃ post t, M.Runs P (tr ++ post) t ∧ e ∈ post

theorem Continues.after {es : List ε} {e : ε} (h : M.Continues P (tr ++ es) e) : M.Continues P tr e := by
  obtain ⟨post,t,hr,he⟩ := h
  rw [List.append_assoc] at hr
  exact ⟨es ++ post,t,hr,List.mem_append_right es he⟩

/-- Executes a list of actions, checking `ok` before each of them. -/
def replay (M : Machine σ α ε) (ok : List ε → σ → α → Bool) :
    List α → List ε × σ → Option (List ε × σ)
  | [], c => some c
  | a :: as, c =>
    if ok c.1 c.2 a then
      match M.step c.2 a with
      | some (t,es) => replay M ok as (c.1 ++ es,t)
      | none => none
    else none

theorem replay_runs {ok : List ε → σ → α → Bool} (hok : ∀ tr s a, ok tr s a = true → P tr s a)
    {as : List α} {c d : List ε × σ} (hc : M.Runs P c.1 c.2) (h : M.replay ok as c = some d) :
    M.Runs P d.1 d.2 := by
  induction as generalizing c with
  | nil =>
    simp only [replay, Option.some.injEq] at h
    exact h ▸ hc
  | cons a as ih =>
    simp only [replay] at h
    split at h
    · rename_i ha
      split at h
      · rename_i t es hs
        exact ih (.next hc (hok _ _ _ ha) hs) h
      · cases h
    · cases h

/-- `N` observes `M`: states are mapped, some events are kept, and every step of
`M` is followed in `N` by the steps that emit the kept events. -/
structure Projection (M : Machine σ α ε) (P : List ε → σ → α → Prop)
    (N : Machine τ β δ) (Q : List δ → τ → β → Prop) where
  state : σ → τ
  event : ε → Option δ
  initial : ∀ s, M.initial s → N.initial (state s)
  step : ∀ tr s a t es, M.Runs P tr s → P tr s a → M.step s a = some (t,es) →
    N.Runs Q (tr.filterMap event) (state s) →
    N.Runs Q (tr.filterMap event ++ es.filterMap event) (state t)

theorem Projection.runs {N : Machine τ β δ} {Q : List δ → τ → β → Prop}
    (π : Projection M P N Q) (hr : M.Runs P tr s) :
    N.Runs Q (tr.filterMap π.event) (π.state s) := by
  induction hr with
  | start hi => exact .start (π.initial _ hi)
  | next hr hp hs ih =>
    rw [List.filterMap_append]
    exact π.step _ _ _ _ _ hr hp hs ih

end Machine
end Foundation
