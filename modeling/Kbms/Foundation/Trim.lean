import Mathlib.Data.List.DropRight

/-! # Trimming a list at both ends

What is dropped at the ends are the elements with a property. A list without such an element
at its ends comes back from any padding.
-/
namespace Foundation.Trim
variable {α : Type*} {p : α → Bool} {l v : List α}

def ltrim (p : α → Bool) (l : List α) : List α := l.dropWhile p
def rtrim (p : α → Bool) (l : List α) : List α := l.rdropWhile p

/-- Neither end has the property. -/
@[mk_iff]
structure Edged (p : α → Bool) (v : List α) : Prop where
  head : ∀ a ∈ v.head?, p a = false
  last : ∀ a ∈ v.getLast?, p a = false

theorem Edged.reverse (h : Edged p v) : Edged p v.reverse := by
  refine ⟨fun a ha => h.last a ?_,fun a ha => h.head a ?_⟩
  · rwa [List.head?_reverse] at ha
  · rwa [List.getLast?_reverse] at ha

theorem ltrim_padded (pre post : List α) (h : Edged p v) (hne : v ≠ []) (hpre : ∀ a ∈ pre, p a = true) :
    ltrim p (pre ++ (v ++ post)) = v ++ post := by
  rw [ltrim, List.dropWhile_append_of_pos hpre]
  cases v with
  | nil => exact absurd rfl hne
  | cons a v =>
    rw [List.cons_append, List.dropWhile_cons_of_neg]
    simp [h.head a rfl]

theorem rtrim_padded (pre post : List α) (h : Edged p v) (hne : v ≠ []) (hpost : ∀ a ∈ post, p a = true) :
    rtrim p (pre ++ v ++ post) = pre ++ v := by
  have hrev := ltrim_padded post.reverse pre.reverse h.reverse (by simpa using hne)
    (fun a ha => hpost a (List.mem_reverse.mp ha))
  rw [rtrim, List.rdropWhile, List.reverse_append, List.reverse_append, ← ltrim, hrev]
  simp

theorem ltrim_eq_nil (h : ∀ a ∈ l, p a = true) : ltrim p l = [] := List.dropWhile_eq_nil_iff.mpr h

theorem rtrim_eq_nil (h : ∀ a ∈ l, p a = true) : rtrim p l = [] := List.rdropWhile_eq_nil_iff.mpr h

theorem padding {pre post : List α} (hpre : ∀ a ∈ pre, p a = true) (hpost : ∀ a ∈ post, p a = true) :
    ∀ a ∈ pre ++ [] ++ post, p a = true := by
  intro a ha
  rw [List.append_nil, List.mem_append] at ha
  exact ha.elim (hpre a) (hpost a)

/-- Padding at both ends is trimmed away, also where nothing is left. -/
theorem trim_padded (pre post : List α) (h : Edged p v) (hpre : ∀ a ∈ pre, p a = true) (hpost : ∀ a ∈ post, p a = true) :
    rtrim p (ltrim p (pre ++ v ++ post)) = v := by
  cases v with
  | nil =>
    rw [ltrim_eq_nil (padding hpre hpost)]
    rfl
  | cons a v =>
    rw [List.append_assoc, ltrim_padded pre post h (by simp) hpre]
    exact rtrim_padded [] post h (by simp) hpost

theorem ltrim_rtrim_padded (pre post : List α) (h : Edged p v) (hpre : ∀ a ∈ pre, p a = true) (hpost : ∀ a ∈ post, p a = true) :
    ltrim p (rtrim p (pre ++ v ++ post)) = v := by
  cases v with
  | nil =>
    rw [rtrim_eq_nil (padding hpre hpost)]
    rfl
  | cons a v =>
    rw [rtrim_padded pre post h (by simp) hpost]
    simpa using ltrim_padded pre [] h (by simp) hpre

/-- Every list is one without padding in some padding. -/
theorem exists_padded (p : α → Bool) (l : List α) :
    ∃ pre v post, l = pre ++ v ++ post ∧ (∀ a ∈ pre, p a = true) ∧ (∀ a ∈ post, p a = true) ∧ Edged p v := by
  induction l with
  | nil => exact ⟨[],[],[],rfl,by simp,by simp,⟨by simp,by simp⟩⟩
  | cons a l ih =>
    obtain ⟨pre,v,post,rfl,hpre,hpost,hv⟩ := ih
    cases ha : p a with
    | true =>
      refine ⟨a :: pre,v,post,rfl,fun b hb => ?_,hpost,hv⟩
      rcases List.mem_cons.mp hb with rfl | hb
      · exact ha
      · exact hpre b hb
    | false =>
      cases v with
      | nil => exact ⟨[],[a],pre ++ post,by simp,by simp,fun b hb => (List.mem_append.mp hb).elim (hpre b) (hpost b),
          ⟨by simp [ha],by simp [ha]⟩⟩
      | cons b v =>
        refine ⟨[],a :: (pre ++ b :: v),post,by simp,by simp,hpost,by simp [ha],fun c hc => hv.last c ?_⟩
        rw [List.getLast?_cons, List.getLast?_append] at hc
        cases hl : (b :: v).getLast? with
        | none => simp at hl
        | some d =>
          rw [hl] at hc
          simpa using hc

/-- The order of the two trims does not matter. -/
theorem trim_comm (p : α → Bool) (l : List α) : rtrim p (ltrim p l) = ltrim p (rtrim p l) := by
  obtain ⟨pre,v,post,rfl,hpre,hpost,hv⟩ := exists_padded p l
  rw [trim_padded pre post hv hpre hpost, ltrim_rtrim_padded pre post hv hpre hpost]

end Foundation.Trim
