import Kbms.Foundation.Machine

/-! # First-in first-out channels

The abstract channel has the content as its whole state. What it guarantees is
one law: the values put in are the values taken out followed by the content.
Loss, duplication and reordering are all excluded by that law, and a component
gets them by a projection onto the channel.
-/
namespace Foundation.Fifo
variable {α : Type*}

inductive Op (α : Type*)
  | push (a : α)
  | pop (a : α)

def Op.pushed : Op α → Option α
  | .push a => some a
  | .pop _ => none

def Op.popped : Op α → Option α
  | .push _ => none
  | .pop a => some a

def pushed (tr : List (Op α)) : List α := tr.filterMap Op.pushed
def popped (tr : List (Op α)) : List α := tr.filterMap Op.popped

@[simp] theorem pushed_append (xs ys : List (Op α)) : pushed (xs ++ ys) = pushed xs ++ pushed ys :=
  List.filterMap_append
@[simp] theorem popped_append (xs ys : List (Op α)) : popped (xs ++ ys) = popped xs ++ popped ys :=
  List.filterMap_append
@[simp] theorem pushed_push (a : α) : pushed [.push a] = [a] := rfl
@[simp] theorem pushed_pop (a : α) : pushed [.pop a] = [] := rfl
@[simp] theorem popped_push (a : α) : popped [.push a] = [] := rfl
@[simp] theorem popped_pop (a : α) : popped [.pop a] = [a] := rfl

def put (q : List α) (a : α) : List α × List (Op α) := (q ++ [a],[.push a])

def take : List α → Option (List α × List (Op α))
  | [] => none
  | a :: q => some (q,[.pop a])

/-- The channel: an action is the value to put in, or `none` to take one out. -/
def channel (α : Type*) : Machine (List α) (Option α) (Op α) where
  initial q := q = []
  step q
    | some a => some (put q a)
    | none => take q

variable {P : List (Op α) → List α → Option α → Prop} {tr : List (Op α)} {q : List α}

/-- Nothing is lost, repeated or reordered. -/
theorem conservation (hr : (channel α).Runs P tr q) : pushed tr = popped tr ++ q := by
  refine hr.invariant (I := fun tr q => pushed tr = popped tr ++ q) ?_ ?_
  · intro q hq
    rw [hq]
    rfl
  · intro tr q a t es _ ih _ hs
    cases a with
    | some a =>
      cases hs
      simp [ih]
    | none =>
      cases q with
      | nil => cases hs
      | cons b q =>
        cases hs
        simp [ih]

theorem runs_push (a : α) (hr : (channel α).Runs Machine.Any tr q) :
    (channel α).Runs Machine.Any (tr ++ [.push a]) (q ++ [a]) :=
  .next (a := some a) hr trivial rfl

theorem runs_pop {a : α} (hr : (channel α).Runs Machine.Any tr (a :: q)) :
    (channel α).Runs Machine.Any (tr ++ [.pop a]) q :=
  .next (a := none) hr trivial rfl

/-- Several values leave the channel in its order. -/
theorem runs_pops (xs : List α) (hr : (channel α).Runs Machine.Any tr (xs ++ q)) :
    (channel α).Runs Machine.Any (tr ++ xs.map .pop) q := by
  induction xs generalizing tr with
  | nil => simpa using hr
  | cons a xs ih => simpa using ih (runs_pop hr)

end Foundation.Fifo
