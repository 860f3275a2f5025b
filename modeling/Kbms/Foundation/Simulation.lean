import Kbms.Foundation.Machine

/-! # Forward simulation with histories

The concrete machine may take several steps for one abstract step, and none for some of them.
What relates two states may speak about the traces that led to them, so an abstract step can
come later than the concrete event that it explains.
-/
namespace Foundation
variable {σ τ α β ε δ : Type*}

/-- One step, or none. -/
def Machine.follow (N : Machine τ β δ) (t : τ) : Option β → Option (τ × List δ)
  | none => some (t,[])
  | some b => N.step t b

theorem Machine.Runs.follow {N : Machine τ β δ} {Q : List δ → τ → β → Prop} {tr es : List δ} {t t' : τ}
    {b : Option β} (hr : N.Runs Q tr t) (hq : ∀ c, b = some c → Q tr t c) (h : N.follow t b = some (t',es)) :
    N.Runs Q (tr ++ es) t' := by
  cases b with
  | none =>
    cases h
    rwa [List.append_nil]
  | some c => exact hr.next (hq c rfl) h

/-- Every step of `M` is answered by some steps of `N`, and the relation is kept. -/
structure Simulation (M : Machine σ α ε) (P : List ε → σ → α → Prop)
    (N : Machine τ β δ) (Q : List δ → τ → β → Prop) where
  rel : List ε → σ → List δ → τ → Prop
  initial : ∀ s, M.initial s → ∃ t, N.initial t ∧ rel [] s [] t
  step : ∀ tr s a s' es tr' t, M.Runs P tr s → P tr s a → M.step s a = some (s',es) → N.Runs Q tr' t →
    rel tr s tr' t → ∃ es' t', N.Runs Q (tr' ++ es') t' ∧ rel (tr ++ es) s' (tr' ++ es') t'

namespace Simulation
variable {M : Machine σ α ε} {P : List ε → σ → α → Prop} {N : Machine τ β δ} {Q : List δ → τ → β → Prop}
  {tr : List ε} {s : σ}

theorem runs (sim : Simulation M P N Q) (hr : M.Runs P tr s) : ∃ tr' t, N.Runs Q tr' t ∧ sim.rel tr s tr' t := by
  induction hr with
  | start hi =>
    obtain ⟨t,ht,hrel⟩ := sim.initial _ hi
    exact ⟨[],t,.start ht,hrel⟩
  | next hr hp hs ih =>
    obtain ⟨tr',t,hr',hrel⟩ := ih
    obtain ⟨es',t',hnext,hrel'⟩ := sim.step _ _ _ _ _ _ _ hr hp hs hr' hrel
    exact ⟨tr' ++ es',t',hnext,hrel'⟩

end Simulation
end Foundation
