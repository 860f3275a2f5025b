import Mathlib.Data.Finset.Card
import Kbms.Foundation.Machine

/-! # Overtaking on a first-in first-out queue

A crew of servers takes jobs from a queue, whose order numbers them, and completes them in any
order. What a completed job can overtake is then bounded by the size of the crew, since the
earlier jobs that are still to be completed are all in the hands of the other servers.
-/
namespace Foundation.Overtaking

/-- The jobs below `taken` have left the queue, and those in `held` are with a server. -/
structure Crew where
  taken : ℕ
  held : Finset ℕ

inductive Act
  | take
  | complete (x : ℕ)
  | release (x : ℕ)

/-- A crew of `k` servers. The trace is the jobs in the order of their completion. -/
def crew (k : ℕ) : Machine Crew Act ℕ where
  initial c := c = ⟨0,∅⟩
  step c
    | .take => if c.held.card < k then some (⟨c.taken + 1,insert c.taken c.held⟩,[]) else none
    | .complete x => if x ∈ c.held then some (c,[x]) else none
    | .release x => some ({ c with held := c.held.erase x },[])

/-- No job is completed twice. -/
def Once (tr : List ℕ) (_ : Crew) : Act → Prop
  | .complete x => x ∉ tr
  | _ => True

variable {k : ℕ} {tr pre post : List ℕ} {c d : Crew} {r x : ℕ}

/-- The earlier jobs that can still be completed after `r`. -/
def ahead (tr : List ℕ) (c : Crew) (r : ℕ) : Finset ℕ := c.held.filter (fun x => x < r ∧ x ∉ tr)

/-- `slack`: what a job has overtaken and what it can still overtake are with the other servers. -/
structure Bounded (k : ℕ) (tr : List ℕ) (c : Crew) : Prop where
  held : ∀ x ∈ c.held, x < c.taken
  done : ∀ x ∈ tr, x < c.taken
  card : c.held.card ≤ k
  nodup : tr.Nodup
  slack : ∀ pre r post, tr = pre ++ r :: post → (post.filter (· < r)).length + (ahead tr c r).card < k

theorem Bounded.take (h : Bounded k tr c) (hk : c.held.card < k) :
    Bounded k tr ⟨c.taken + 1,insert c.taken c.held⟩ := by
  refine ⟨fun x hx => ?_,fun x hx => (h.done x hx).trans (Nat.lt_succ_self _),?_,h.nodup,?_⟩
  · rcases Finset.mem_insert.mp hx with rfl | hx
    · exact Nat.lt_succ_self _
    · exact (h.held x hx).trans (Nat.lt_succ_self _)
  · exact (Finset.card_insert_le _ _).trans hk
  · intro pre r post htr
    have hr : r < c.taken := h.done r (by rw [htr]; simp)
    -- the new job was queued after `r`
    have hsame : ahead tr ⟨c.taken + 1,insert c.taken c.held⟩ r = ahead tr c r := by
      rw [ahead, Finset.filter_insert, if_neg (fun hlt => Nat.lt_asymm hr hlt.1), ahead]
    rw [hsame]
    exact h.slack pre r post htr

theorem Bounded.release (h : Bounded k tr c) : Bounded k tr { c with held := c.held.erase x } := by
  refine ⟨fun y hy => h.held y (Finset.mem_of_mem_erase hy),h.done,(Finset.card_erase_le).trans h.card,h.nodup,?_⟩
  intro pre r post htr
  have hsub : ahead tr { c with held := c.held.erase x } r ⊆ ahead tr c r :=
    Finset.filter_subset_filter _ (Finset.erase_subset x c.held)
  have hcard := Finset.card_le_card hsub
  have hslack := h.slack pre r post htr
  omega

/-- A job that is completed is no longer ahead of others. -/
theorem ahead_complete : ahead (tr ++ [x]) c r = (ahead tr c r).erase x := by
  ext y
  simp only [ahead, Finset.mem_filter, Finset.mem_erase, List.mem_append, List.mem_singleton, not_or]
  tauto

theorem Bounded.complete (h : Bounded k tr c) (hx : x ∈ c.held) (hnew : x ∉ tr) : Bounded k (tr ++ [x]) c := by
  refine ⟨h.held,fun y hy => ?_,h.card,?_,?_⟩
  · rcases List.mem_append.mp hy with hy | hy
    · exact h.done y hy
    · rw [List.mem_singleton.mp hy]
      exact h.held x hx
  · refine List.nodup_append.mpr ⟨h.nodup,List.nodup_singleton x,?_⟩
    rintro y hy z hz rfl
    rw [List.mem_singleton.mp hz] at hy
    exact hnew hy
  · intro pre r post htr
    rw [ahead_complete]
    rcases post.eq_nil_or_concat with rfl | ⟨post,y,rfl⟩
    · obtain ⟨-,hxr⟩ := List.append_inj' htr rfl
      obtain rfl : x = r := List.head_eq_of_cons_eq hxr
      -- what `x` can overtake is held besides `x`
      have hsub : (ahead tr c x).erase x ⊆ c.held.erase x :=
        Finset.erase_subset_erase x (Finset.filter_subset _ _)
      have hcard := Finset.card_le_card hsub
      rw [Finset.card_erase_of_mem hx] at hcard
      have hpos := Finset.card_pos.mpr ⟨x,hx⟩
      have hk := h.card
      simp only [List.filter_nil, List.length_nil]
      omega
    · rw [List.concat_eq_append, ← List.cons_append, ← List.append_assoc] at htr
      obtain ⟨hold,hxy⟩ := List.append_inj' htr rfl
      obtain rfl : x = y := List.head_eq_of_cons_eq hxy
      have hslack := h.slack pre r post hold
      rw [List.concat_eq_append, List.filter_append, List.length_append]
      by_cases hlt : x < r
      · have hmem : x ∈ ahead tr c r := Finset.mem_filter.mpr ⟨hx,hlt,hnew⟩
        have hpos := Finset.card_pos.mpr ⟨x,hmem⟩
        rw [Finset.card_erase_of_mem hmem, List.filter_cons_of_pos (by simpa using hlt)]
        simp only [List.filter_nil, List.length_singleton]
        omega
      · have hcard := Finset.card_erase_le (s := ahead tr c r) (a := x)
        rw [List.filter_cons_of_neg (by simpa using hlt)]
        simp only [List.filter_nil, List.length_nil]
        omega

theorem bounded_of_runs (hr : (crew k).Runs Once tr c) : Bounded k tr c := by
  refine hr.invariant ?_ (fun tr c a d es _ h hp hs => ?_)
  · rintro _ rfl
    exact ⟨by simp,by simp,Nat.zero_le _,List.nodup_nil,by simp⟩
  · cases a with
    | take =>
      simp only [crew] at hs
      split at hs
      · rename_i hk
        cases hs
        rw [List.append_nil]
        exact h.take hk
      · cases hs
    | complete x =>
      simp only [crew] at hs
      split at hs
      · rename_i hx
        cases hs
        exact h.complete hx hp
      · cases hs
    | release x =>
      cases hs
      rw [List.append_nil]
      exact h.release

/-- A job is completed before less than `k` jobs that were queued earlier. -/
theorem overtaken_lt (hr : (crew k).Runs Once (pre ++ r :: post) c) : (post.filter (· < r)).length < k := by
  have hslack := (bounded_of_runs hr).slack pre r post rfl
  omega

theorem pairwise_of_splits {α : Type*} {R : α → α → Prop} {l : List α}
    (h : ∀ pre a post, l = pre ++ a :: post → ∀ b ∈ post, R a b) : l.Pairwise R := by
  induction l with
  | nil => exact .nil
  | cons a l ih =>
    refine List.pairwise_cons.mpr ⟨h [] a l rfl,ih (fun pre b post hl => ?_)⟩
    exact h (a :: pre) b post (by rw [hl]; rfl)

/-- A single server completes the jobs in the order of the queue. -/
theorem in_order (hr : (crew 1).Runs Once tr c) : tr.Pairwise (· < ·) := by
  have h := bounded_of_runs hr
  refine pairwise_of_splits (fun pre r post htr x hx => ?_)
  have hnone : post.filter (· < r) = [] := by
    have hslack := h.slack pre r post htr
    exact List.length_eq_zero_iff.mp (by omega)
  have hle : ¬ x < r := by simpa using List.filter_eq_nil_iff.mp hnone x hx
  have hne : r ≠ x := by
    have hn := h.nodup
    rw [htr] at hn
    rintro rfl
    exact (List.nodup_cons.mp (List.nodup_append.mp hn).2.1).1 hx
  omega

end Foundation.Overtaking
