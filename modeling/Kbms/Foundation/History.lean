import Kbms.Foundation.Machine

/-! # Properties of the events of a trace

What is said of an event may depend on the events before it. A trace that grows keeps such
a property as soon as its new events have it.
-/
namespace Foundation.History
variable {ε : Type*} {P : List ε → ε → Prop} {tr es before during : List ε} {e call : ε}

/-- Every event has the property, with the events before it. -/
def Each (P : List ε → ε → Prop) (tr : List ε) : Prop := ∀ pre e post, tr = pre ++ e :: post → P pre e

theorem each_nil : Each P [] := fun pre e post h => absurd h (by simp)

theorem Each.append (h : Each P tr) (hes : ∀ ys e zs, es = ys ++ e :: zs → P (tr ++ ys) e) : Each P (tr ++ es) := by
  intro pre e post heq
  rcases occurrence_append heq with ⟨ys,hys⟩ | ⟨ys,rfl,hys⟩
  · exact h pre e ys hys
  · exact hes ys e post hys

theorem Each.snoc (h : Each P tr) (he : P tr e) : Each P (tr ++ [e]) := by
  refine h.append (fun ys d zs heq => ?_)
  cases ys with
  | nil =>
    cases heq
    rwa [List.append_nil]
  | cons c ys => simp at heq

theorem Each.of_append (h : Each P (tr ++ es)) : Each P tr := by
  intro pre e post heq
  apply h pre e (post ++ es)
  rw [heq, List.append_assoc, List.cons_append]

theorem Each.last (h : Each P (tr ++ [e])) : P tr e := h tr e [] rfl

/-- A trace is split at the last occurrence of `call`. -/
structure Since (call : ε) (tr before during : List ε) : Prop where
  eq : tr = before ++ call :: during
  last : call ∉ during

theorem Since.append (h : Since call tr before during) (hes : call ∉ es) :
    Since call (tr ++ es) before (during ++ es) := by
  refine ⟨by rw [h.eq, List.append_assoc, List.cons_append],?_⟩
  rw [List.mem_append, not_or]
  exact ⟨h.last,hes⟩

theorem since_now (call : ε) (tr : List ε) : Since call (tr ++ [call]) tr [] := ⟨rfl,by simp⟩

end Foundation.History
