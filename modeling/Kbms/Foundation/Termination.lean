import Mathlib.Tactic.Common
import Kbms.Foundation.Machine

/-! # Runs that come to an end

Some steps of a machine are those of its own threads, and the others come from outside. When
the former all make a measure smaller, left to itself the machine stops, whatever the
scheduling, and it stops where none of its own steps is possible.
-/
namespace Foundation.Machine
variable {σ α ε : Type*} {M : Machine σ α ε} {P Q : List ε → σ → α → Prop} {n : ℕ} {c d : List ε × σ}

/-- `n` more steps, each of which meets `Q`. -/
inductive Steps (M : Machine σ α ε) (Q : List ε → σ → α → Prop) : ℕ → List ε × σ → List ε × σ → Prop
  | none (c : List ε × σ) : Steps M Q 0 c c
  | more {n : ℕ} {c d : List ε × σ} {a : α} {t : σ} {es : List ε} (h : Steps M Q n c d) (hq : Q d.1 d.2 a)
      (hs : M.step d.2 a = some (t,es)) : Steps M Q (n + 1) c (d.1 ++ es,t)

/-- None of the steps that meet `Q` is possible. -/
def Stuck (M : Machine σ α ε) (Q : List ε → σ → α → Prop) (c : List ε × σ) : Prop :=
  ∀ a, Q c.1 c.2 a → M.step c.2 a = none

/-- On the runs with `P` every step with `Q` makes the measure smaller. -/
structure Descends (M : Machine σ α ε) (P Q : List ε → σ → α → Prop) (measure : List ε → σ → ℕ) : Prop where
  permitted : ∀ tr s a, Q tr s a → P tr s a
  step : ∀ tr s a t es, M.Runs P tr s → Q tr s a → M.step s a = some (t,es) → measure (tr ++ es) t < measure tr s

theorem Steps.runs (hqp : ∀ tr s a, Q tr s a → P tr s a) (hr : M.Runs P c.1 c.2) (h : M.Steps Q n c d) :
    M.Runs P d.1 d.2 := by
  induction h with
  | none _ => exact hr
  | more _ hq hs ih => exact (ih hr).next (hqp _ _ _ hq) hs

/-- The induction rule for what the steps keep. -/
theorem Steps.invariant {I : List ε × σ → Prop}
    (hstep : ∀ tr s a t es, I (tr,s) → Q tr s a → M.step s a = some (t,es) → I (tr ++ es,t))
    (h : M.Steps Q n c d) (h0 : I c) : I d := by
  induction h with
  | none _ => exact h0
  | more _ hq hs ih => exact hstep _ _ _ _ _ (ih h0) hq hs

variable {measure : List ε → σ → ℕ}

theorem Descends.bound (hm : Descends M P Q measure) (hr : M.Runs P c.1 c.2) (h : M.Steps Q n c d) :
    n + measure d.1 d.2 ≤ measure c.1 c.2 := by
  induction h with
  | none c => exact Nat.le_of_eq (Nat.zero_add _)
  | more h hq hs ih =>
    have hlt := hm.step _ _ _ _ _ (h.runs hm.permitted hr) hq hs
    have hle := ih hr
    dsimp only
    omega

theorem Descends.exists_stuck (hm : Descends M P Q measure) (hr : M.Runs P c.1 c.2) :
    ∃ n d, M.Steps Q n c d ∧ M.Stuck Q d := by
  by_contra hno
  push Not at hno
  -- otherwise there are steps of every length
  have hlong : ∀ n, ∃ d, M.Steps Q n c d := by
    intro n
    induction n with
    | zero => exact ⟨c,.none c⟩
    | succ n ih =>
      obtain ⟨d,hd⟩ := ih
      have hmore := hno n d hd
      rw [Stuck] at hmore
      push Not at hmore
      obtain ⟨a,hq,hs⟩ := hmore
      obtain ⟨⟨t,es⟩,hs⟩ := Option.ne_none_iff_exists'.mp hs
      exact ⟨_,.more hd hq hs⟩
  obtain ⟨d,hd⟩ := hlong (measure c.1 c.2 + 1)
  have hle := hm.bound hr hd
  omega

end Foundation.Machine
