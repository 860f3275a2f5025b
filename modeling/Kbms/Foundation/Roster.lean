import Mathlib.Algebra.Ring.Nat
import Mathlib.Data.Finset.Card
import Mathlib.Data.List.Basic

/-! # Counting processes by where they stand

A system of threads is a list with one program point for each thread, and a step
of thread `i` replaces entry `i`. The lemmas here say what one replacement does
to the number of threads at a given kind of point.
-/
namespace Foundation.Roster
variable {α : Type*} {l : List α} {i j : ℕ} {a b : α} {p : α → Bool}

/-- Additive form of `List.countP_set`, without truncated subtraction. -/
theorem countP_set_add (h : l[i]? = some a) (p : α → Bool) (b : α) :
    (l.set i b).countP p + (if p a then 1 else 0) = l.countP p + (if p b then 1 else 0) := by
  obtain ⟨hi,rfl⟩ := List.getElem?_eq_some_iff.mp h
  rw [List.countP_set hi]
  by_cases hp : p l[i] = true
  · have hpos : 0 < l.countP p := List.countP_pos_iff.mpr ⟨_,List.getElem_mem hi,hp⟩
    simp only [hp, if_true]
    omega
  · simp [hp]

theorem countP_set_of_eq (h : l[i]? = some a) (hab : p b = p a) :
    (l.set i b).countP p = l.countP p := by
  have := countP_set_add h p b
  rw [hab] at this
  omega

theorem countP_pos (h : l[i]? = some a) (hp : p a = true) : 0 < l.countP p :=
  List.countP_pos_iff.mpr ⟨a,List.mem_of_getElem? h,hp⟩

/-- Two different threads of one kind are counted twice. -/
theorem two_le_countP (hij : i ≠ j) (hi : l[i]? = some a) (hj : l[j]? = some b)
    (ha : p a = true) (hb : p b = true) : 2 ≤ l.countP p := by
  induction l generalizing i j with
  | nil => simp at hi
  | cons x l ih =>
    rw [List.countP_cons]
    cases i with
    | zero =>
      cases j with
      | zero => exact absurd rfl hij
      | succ j =>
        simp only [List.getElem?_cons_zero, Option.some.injEq] at hi
        have hpos := countP_pos (l := l) (i := j) (by simpa using hj) hb
        subst hi
        simp only [ha, if_true]
        omega
    | succ i =>
      cases j with
      | zero =>
        simp only [List.getElem?_cons_zero, Option.some.injEq] at hj
        have hpos := countP_pos (l := l) (i := i) (by simpa using hi) ha
        subst hj
        simp only [hb, if_true]
        omega
      | succ j =>
        have := ih (i := i) (j := j) (by omega) (by simpa using hi) (by simpa using hj)
        omega

theorem getElem?_set_cases {c : α} (h : (l.set i b)[j]? = some c) :
    (i = j ∧ c = b) ∨ (i ≠ j ∧ l[j]? = some c) := by
  rw [List.getElem?_set] at h
  by_cases hij : i = j
  · left
    simp only [hij, if_true] at h
    split at h
    · exact ⟨hij,(Option.some.inj h).symm⟩
    · cases h
  · right
    simpa [hij] using h

/-- What one replacement does to a total over all threads. -/
theorem sum_map_set_add (h : l[i]? = some a) (g : α → ℕ) (b : α) :
    ((l.set i b).map g).sum + g a = (l.map g).sum + g b := by
  induction l generalizing i with
  | nil => cases h
  | cons x l ih =>
    cases i with
    | zero =>
      obtain rfl : x = a := by simpa using h
      simp only [List.set_cons_zero, List.map_cons, List.sum_cons]
      omega
    | succ i =>
      have hrest := ih (i := i) (by simpa using h)
      simp only [List.set_cons_succ, List.map_cons, List.sum_cons]
      omega

/-- What one replacement does to what the threads have. -/
theorem filterMap_set_perm {β : Type*} (h : l[i]? = some a) (g : α → Option β) (b : α) :
    ((l.set i b).filterMap g ++ (g a).toList).Perm (l.filterMap g ++ (g b).toList) := by
  have hcons : ∀ c l, (c :: l).filterMap g = (g c).toList ++ l.filterMap g := by
    intro c l
    rw [List.filterMap_cons]
    cases g c <;> rfl
  induction l generalizing i with
  | nil => cases h
  | cons x l ih =>
    cases i with
    | zero =>
      obtain rfl : x = a := by simpa using h
      rw [List.set_cons_zero, hcons, hcons]
      refine List.perm_append_comm.trans ?_
      rw [List.append_assoc]
      exact List.perm_append_comm.append_left _
    | succ i =>
      rw [List.set_cons_succ, hcons, hcons, List.append_assoc, List.append_assoc]
      exact (ih (by simpa using h)).append_left _

section Hands
variable {β : Type*} [DecidableEq β] {f : α → Option β} {x y : β}

/-- What the threads have in their hands. -/
def hands (f : α → Option β) (l : List α) : Finset β := (l.filterMap f).toFinset

theorem mem_hands : x ∈ hands f l ↔ ∃ (j : ℕ) (c : α), l[j]? = some c ∧ f c = some x := by
  rw [hands, List.mem_toFinset, List.mem_filterMap]
  constructor
  · rintro ⟨c,hc,hx⟩
    obtain ⟨j,hj⟩ := List.getElem?_of_mem hc
    exact ⟨j,c,hj,hx⟩
  · rintro ⟨j,c,hj,hx⟩
    exact ⟨c,List.mem_of_getElem? hj,hx⟩

theorem mem_hands_set (h : l[i]? = some a) :
    x ∈ hands f (l.set i b) ↔ f b = some x ∨ ∃ (j : ℕ) (c : α), j ≠ i ∧ l[j]? = some c ∧ f c = some x := by
  have hlt := (List.getElem?_eq_some_iff.mp h).1
  rw [mem_hands]
  constructor
  · rintro ⟨j,c,hj,hx⟩
    rcases getElem?_set_cases hj with ⟨-,rfl⟩ | ⟨hij,hj⟩
    · exact .inl hx
    · exact .inr ⟨j,c,Ne.symm hij,hj,hx⟩
  · rintro (hx | ⟨j,c,hij,hj,hx⟩)
    · exact ⟨i,b,List.getElem?_set_self hlt,hx⟩
    · exact ⟨j,c,by rw [List.getElem?_set_ne (Ne.symm hij), hj],hx⟩

theorem mem_hands_split (h : l[i]? = some a) :
    x ∈ hands f l ↔ f a = some x ∨ ∃ (j : ℕ) (c : α), j ≠ i ∧ l[j]? = some c ∧ f c = some x := by
  have hsame : l.set i a = l := by
    obtain ⟨hi,rfl⟩ := List.getElem?_eq_some_iff.mp h
    exact List.set_getElem_self hi
  have hset := mem_hands_set (x := x) (f := f) (b := a) h
  rwa [hsame] at hset

theorem hands_set_of_eq (h : l[i]? = some a) (hab : f b = f a) : hands f (l.set i b) = hands f l := by
  ext x
  rw [mem_hands_set h, mem_hands_split h, hab]

theorem hands_set_gain (h : l[i]? = some a) (ha : f a = none) (hb : f b = some y) :
    hands f (l.set i b) = insert y (hands f l) := by
  ext x
  rw [mem_hands_set h, Finset.mem_insert, mem_hands_split h, ha, hb]
  simp [eq_comm]

/-- A thread lets go of something that nobody else has. -/
theorem hands_set_lose (h : l[i]? = some a) (ha : f a = some y) (hb : f b = none)
    (honce : ∀ (j : ℕ) (c : α), l[j]? = some c → f c = some y → j = i) :
    hands f (l.set i b) = (hands f l).erase y := by
  ext x
  rw [mem_hands_set h, Finset.mem_erase, mem_hands_split h, ha, hb]
  constructor
  · rintro (hx | ⟨j,c,hij,hj,hx⟩)
    · cases hx
    · refine ⟨?_,.inr ⟨j,c,hij,hj,hx⟩⟩
      rintro rfl
      exact hij (honce j c hj hx)
  · rintro ⟨hne,hx | hx⟩
    · exact absurd (Option.some.inj hx).symm hne
    · exact .inr hx

theorem card_hands_lt (h : l[i]? = some a) (ha : f a = none) : (hands f l).card < l.length := by
  refine (List.toFinset_card_le _).trans_lt (List.length_filterMap_lt_length_iff_exists.mpr ?_)
  exact ⟨a,List.mem_of_getElem? h,ha⟩

end Hands

end Foundation.Roster
