import Mathlib.Data.List.Basic
import Kbms.Foundation.Roster

/-! # Who holds a mutex

A system of threads is a list of program points, and some of the points are those at which
a thread holds the mutex. The mutex has at most one owner, so the invariant says that the
thread at each such point is the owner, and that a thread elsewhere is not.
-/
namespace Foundation.Mutex
variable {π ω : Type*} {holding : π → Bool} {name : ℕ → ω} {l : List π} {owner owner' : Option ω}
  {i : ℕ} {a b : π}

/-- `name` gives the owner that thread `i` is. -/
def Owns (holding : π → Bool) (name : ℕ → ω) (l : List π) (owner : Option ω) : Prop :=
  ∀ i : ℕ, l[i]?.any holding = true ↔ owner = some (name i)

theorem Owns.at (h : Owns holding name l owner) (ha : l[i]? = some a) :
    holding a = true ↔ owner = some (name i) := by
  have hi := h i
  rwa [ha] at hi

theorem Owns.exists_point (h : Owns holding name l (some (name i))) : ∃ a, l[i]? = some a ∧ holding a = true :=
  (Option.any_eq_true _ _).mp ((h i).mpr rfl)

/-- A move of one thread that leaves the others where they are. -/
theorem Owns.move (h : Owns holding name l owner) (ha : l[i]? = some a)
    (hb : holding b = true ↔ owner' = some (name i))
    (hothers : ∀ j, j ≠ i → (owner' = some (name j) ↔ owner = some (name j))) :
    Owns holding name (l.set i b) owner' := by
  intro j
  by_cases hj : j = i
  · subst hj
    rw [List.getElem?_set_self (List.getElem?_eq_some_iff.mp ha).1]
    exact hb
  · rw [List.getElem?_set_ne (Ne.symm hj)]
    exact (h j).trans (hothers j hj).symm

/-- Neither locks nor unlocks. -/
theorem Owns.stay (h : Owns holding name l owner) (ha : l[i]? = some a) (hab : holding b = holding a) :
    Owns holding name (l.set i b) owner :=
  h.move ha (by rw [hab]; exact h.at ha) (fun _ _ => Iff.rfl)

theorem Owns.lock (hname : Function.Injective name) (h : Owns holding name l none) (ha : l[i]? = some a)
    (hb : holding b = true) : Owns holding name (l.set i b) (some (name i)) := by
  refine h.move ha ⟨fun _ => rfl,fun _ => hb⟩ (fun j hj => ?_)
  constructor
  · intro he
    exact absurd (hname (Option.some.inj he)).symm hj
  · intro he
    cases he

theorem Owns.unlock (hname : Function.Injective name) (h : Owns holding name l (some (name i)))
    (hb : holding b = false) : Owns holding name (l.set i b) none := by
  obtain ⟨a,ha,-⟩ := h.exists_point
  refine h.move ha ⟨fun he => (by rw [hb] at he; cases he),fun he => (by cases he)⟩ (fun j hj => ?_)
  constructor
  · intro he
    cases he
  · intro he
    exact absurd (hname (Option.some.inj he)).symm hj

/-- Parties that are not threads of the list take and leave the mutex, and threads are moved
between points where they do not have it. -/
theorem Owns.drift {l' : List π} (h : Owns holding name l owner)
    (hl : ∀ i : ℕ, l'[i]?.any holding = l[i]?.any holding)
    (howner : ∀ i, owner' = some (name i) ↔ owner = some (name i)) : Owns holding name l' owner' := by
  intro i
  rw [hl, howner]
  exact h i

end Foundation.Mutex
