import Mathlib.Algebra.Group.Nat.Defs
import Mathlib.Algebra.Ring.Int.Defs
import Mathlib.Data.List.Induction
import Mathlib.Tactic.Common

/-! # JSON values and their text

The accessors of `Json::Value` that the program uses, with the conversions they make
and the type errors they raise, and the functions of `utils` around parsing and
writing. The parser and the writer themselves are parameters.
-/
namespace Kbms

/-- `Json::Value`. A real number is kept as the text that `asString` gives for it, and
the members of an object are in the order of their keys. -/
inductive JsonDoc
  | null
  | int (value : ℤ)
  | real (text : String)
  | bool (value : Bool)
  | string (value : String)
  | array (values : List JsonDoc)
  | object (members : List (String × JsonDoc))

namespace JsonDoc

/-- `operator[]` with a key. It makes an object of a null value and a null member where
there is none; on other types it throws. -/
def member (key : String) : JsonDoc → Option JsonDoc
  | .null => some .null
  | .object members => some ((members.lookup key).getD .null)
  | _ => none

/-- `operator[]` with an index. -/
def index (idx : ℕ) : JsonDoc → Option JsonDoc
  | .null => some .null
  | .array values => some ((values[idx]?).getD .null)
  | _ => none

def asString : JsonDoc → Option String
  | .null => some ""
  | .int value => some (toString value)
  | .real text => some text
  | .bool value => some (toString value)
  | .string value => some value
  | .array _ | .object _ => none

def size : JsonDoc → ℕ
  | .array values => values.length
  | .object members => members.length
  | _ => 0

/-- The assignment of a member. -/
def assign (members : List (String × JsonDoc)) (key : String) (value : JsonDoc) :
    List (String × JsonDoc) :=
  match members with
  | [] => [(key,value)]
  | (k,v) :: rest =>
    if key = k then (key,value) :: rest
    else if key < k then (key,value) :: (k,v) :: rest
    else (k,v) :: assign rest key value

/-- The object that a sequence of assignments makes of a null value. -/
def build (assignments : List (String × JsonDoc)) : JsonDoc :=
  .object (assignments.foldl (fun members a => assign members a.1 a.2) [])

theorem lookup_cons (k key : String) (value : JsonDoc) (members : List (String × JsonDoc)) :
    ((key,value) :: members).lookup k = if k = key then some value else members.lookup k := by
  by_cases h : k = key
  · simp [h]
  · rw [List.lookup_cons, beq_false_of_ne h, if_neg h]

theorem lookup_assign (members : List (String × JsonDoc)) (key k : String) (value : JsonDoc) :
    (assign members key value).lookup k = if k = key then some value else members.lookup k := by
  induction members with
  | nil => exact lookup_cons k key value []
  | cons m rest ih =>
    obtain ⟨k',v⟩ := m
    unfold assign
    split
    · rename_i he
      rw [lookup_cons, lookup_cons, ← he]
      by_cases h : k = key <;> simp [h]
    · rename_i hne
      split
      · rw [lookup_cons]
      · rw [lookup_cons, lookup_cons, ih]
        by_cases h : k = k'
        · rw [if_pos h, if_pos h, if_neg (h ▸ Ne.symm hne)]
        · rw [if_neg h, if_neg h]

/-- The last assignment to a key is what a later access finds. -/
theorem member_build (assignments : List (String × JsonDoc)) (key : String) :
    (build assignments).member key = some ((assignments.reverse.lookup key).getD .null) := by
  have hfold : ∀ members, (assignments.foldl (fun members a => assign members a.1 a.2) members).lookup key =
      (assignments.reverse.lookup key).or (members.lookup key) := by
    intro members
    induction assignments generalizing members with
    | nil => rfl
    | cons a rest ih =>
      rw [List.foldl_cons, ih, lookup_assign, List.reverse_cons, List.lookup_append, Option.or_assoc,
        lookup_cons]
      by_cases h : key = a.1 <;> simp [h]
  rw [build, member, hfold]
  cases assignments.reverse.lookup key <;> rfl

/-- A loop over the indices of a list is one over its elements. -/
theorem mapM_range {α β : Type} {f : ℕ → Option β} {g : α → Option β} (xs : List α)
    (h : ∀ i x, xs[i]? = some x → f i = g x) : (List.range xs.length).mapM f = xs.mapM g := by
  induction xs using List.reverseRecOn with
  | nil => rfl
  | append_singleton xs x ih =>
    have hlast : f xs.length = g x := h _ _ (by simp)
    have hinit := ih (fun i y hy => h i y (by
      rw [List.getElem?_append_left (List.getElem?_eq_some_iff.mp hy).1, hy]))
    rw [List.length_append, List.length_singleton, List.range_succ, List.mapM_append, List.mapM_append, hinit]
    simp [hlast]

end JsonDoc

/-- The reader and the writer of the library; `parse` is `none` for a syntax error. -/
structure JsonLib where
  parse : String → Option JsonDoc
  write : JsonDoc → String

/-- `StrToJson`. -/
def strToJson (lib : JsonLib) (str : String) : Option JsonDoc :=
  if str.isEmpty then none else lib.parse str

/-- `JsonToStr`. -/
def jsonToStr (lib : JsonLib) (json : JsonDoc) : String := lib.write json

/-- `Join`, into an empty string. -/
def join (delim : String) : List String → String
  | [] => ""
  | [s] => s
  | s :: vec => s ++ delim ++ join delim vec

end Kbms
