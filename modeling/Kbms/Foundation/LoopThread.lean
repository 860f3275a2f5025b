import Mathlib.Tactic.Common

/-! # Background threads that are stopped by a flag

Such a thread sets its flag itself when it begins. Then it works in rounds, whose pieces
are numbered up to `last`, sleeps after each of them, and leaves its loop when it finds
the flag cleared. Its owner creates it, clears the flag and joins it.
-/
namespace Foundation

inductive LoopPhase
  | absent
  | created
  | checking
  | working (k : ℕ)
  | sleeping
  | ended
  deriving DecidableEq, Repr

structure LoopThread where
  phase : LoopPhase
  on : Bool
  deriving DecidableEq, Repr

namespace LoopThread
variable {last : ℕ} {u v w : LoopThread}

def advance (last : ℕ) (u : LoopThread) : Option LoopThread :=
  match u.phase with
  | .absent | .ended => none
  | .created => some ⟨.checking,true⟩
  | .checking => some ⟨if u.on then .working 0 else .ended,u.on⟩
  | .working k => some ⟨if k < last then .working (k + 1) else .sleeping,u.on⟩
  | .sleeping => some ⟨.checking,u.on⟩

def start (u : LoopThread) : LoopThread := ⟨.created,u.on⟩

def stop (u : LoopThread) : LoopThread := ⟨u.phase,false⟩

/-- A join that returns. -/
def join (u : LoopThread) : Option LoopThread := if u.phase = .ended then some ⟨.absent,u.on⟩ else none

/-- The thread has been created and not joined. -/
def joinable (u : LoopThread) : Bool := u.phase ≠ .absent

inductive Reaches (last : ℕ) : LoopThread → LoopThread → Prop
  | refl (u : LoopThread) : Reaches last u u
  | step {u v w : LoopThread} (h : u.advance last = some v) (hr : Reaches last v w) : Reaches last u w

/-- The thread leaves its loop if its owner does nothing more. -/
def Ends (last : ℕ) (u : LoopThread) : Prop := ∃ v, Reaches last u v ∧ v.phase = .ended

theorem Ends.of_advance (hs : u.advance last = some v) (h : v.Ends last) : u.Ends last := by
  obtain ⟨w,hr,hend⟩ := h
  exact ⟨w,.step hs hr,hend⟩

theorem ends_checking (h : u.phase = .checking) (hoff : u.on = false) : u.Ends last :=
  ⟨⟨.ended,u.on⟩,.step (by rw [advance, h, hoff]; rfl) (.refl _),rfl⟩

theorem ends_sleeping (h : u.phase = .sleeping) (hoff : u.on = false) : u.Ends last := by
  have hs : u.advance last = some ⟨.checking,u.on⟩ := by rw [advance, h]
  exact .of_advance hs (ends_checking rfl hoff)

/-- By induction on the pieces that are left of the round. -/
theorem ends_working {k : ℕ} (h : u.phase = .working k) (hoff : u.on = false) : u.Ends last := by
  induction hd : last - k generalizing k u with
  | zero =>
    have hs : u.advance last = some ⟨.sleeping,u.on⟩ := by
      rw [advance, h]
      dsimp only
      rw [if_neg (by omega)]
    exact .of_advance hs (ends_sleeping rfl hoff)
  | succ d ih =>
    have hs : u.advance last = some ⟨.working (k + 1),u.on⟩ := by
      rw [advance, h]
      dsimp only
      rw [if_pos (by omega)]
    exact .of_advance hs (ih rfl hoff (by omega))

/-- A thread that sets its flag or sees it set goes on. -/
def Loops (u : LoopThread) : Prop :=
  u.phase = .created ∨ (u.on = true ∧ u.phase ≠ .absent ∧ u.phase ≠ .ended)

theorem advance_loops (h : u.Loops) (hs : u.advance last = some v) : v.Loops := by
  obtain ⟨phase,on⟩ := u
  rcases h with rfl | ⟨rfl,_,_⟩
  · cases hs
    exact .inr ⟨rfl,by simp,by simp⟩
  · cases phase with
    | absent | ended => cases hs
    | created | checking | sleeping =>
      cases hs
      exact .inr ⟨rfl,by simp,by simp⟩
    | working k =>
      cases hs
      refine .inr ⟨rfl,?_,?_⟩ <;> dsimp only <;> split <;> simp

theorem Reaches.loops (hr : Reaches last u v) (h : u.Loops) : v.Loops := by
  induction hr with
  | refl => exact h
  | step hs _ ih => exact ih (advance_loops h hs)

/-- A thread that has begun does not set its flag. -/
theorem advance_off (hoff : u.on = false) (hcre : u.phase ≠ .created) (hs : u.advance last = some v) :
    v.on = false ∧ v.phase ≠ .absent ∧ v.phase ≠ .created := by
  obtain ⟨phase,on⟩ := u
  cases phase with
  | absent | ended => cases hs
  | created => exact absurd rfl hcre
  | sleeping =>
    cases hs
    exact ⟨hoff,by simp,by simp⟩
  | checking =>
    cases hs
    exact ⟨hoff,by dsimp only; split <;> simp,by dsimp only; split <;> simp⟩
  | working k =>
    cases hs
    exact ⟨hoff,by dsimp only; split <;> simp,by dsimp only; split <;> simp⟩

theorem advance_ne_absent (hs : u.advance last = some v) : v.phase ≠ .absent := by
  obtain ⟨phase,on⟩ := u
  cases phase with
  | absent | ended => cases hs
  | created | sleeping =>
    cases hs
    simp
  | checking | working k =>
    cases hs
    dsimp only
    split <;> simp

/-- A thread begins a round only where it finds its flag set. -/
theorem advance_rests (h : ∀ k, u.phase ≠ .working k) (hcheck : u.phase = .checking → u.on = false)
    (hs : u.advance last = some v) (k : ℕ) : v.phase ≠ .working k := by
  obtain ⟨phase,on⟩ := u
  cases phase with
  | absent | ended => cases hs
  | created | sleeping =>
    cases hs
    exact fun h => by cases h
  | checking =>
    cases hcheck rfl
    cases hs
    exact fun h => by cases h
  | working j => exact absurd rfl (h j)

/-- The thread leaves its loop exactly when it has left it or has begun and its flag is
cleared. -/
theorem ends_iff : u.Ends last ↔
    u.phase = .ended ∨ (u.on = false ∧ u.phase ≠ .absent ∧ u.phase ≠ .created) := by
  constructor
  · rintro ⟨v,hr,hend⟩
    by_cases hl : u.Loops
    · rcases hr.loops hl with hv | ⟨-,-,hv⟩
      · rw [hend] at hv
        cases hv
      · exact absurd hend hv
    · cases hr with
      | refl => exact .inl hend
      | step hs _ =>
        obtain ⟨phase,on⟩ := u
        cases phase with
        | absent | ended => cases hs
        | created => exact absurd (.inl rfl) hl
        | checking | working k | sleeping =>
          cases on with
          | false => exact .inr ⟨rfl,by simp,by simp⟩
          | true => exact absurd (.inr ⟨rfl,by simp,by simp⟩) hl
  · rintro (hend | ⟨hoff,habs,hcre⟩)
    · exact ⟨u,.refl u,hend⟩
    · cases hp : u.phase with
      | absent => exact absurd hp habs
      | created => exact absurd hp hcre
      | checking => exact ends_checking hp hoff
      | working k => exact ends_working hp hoff
      | sleeping => exact ends_sleeping hp hoff
      | ended => exact ⟨u,.refl u,hp⟩

end LoopThread
end Foundation
