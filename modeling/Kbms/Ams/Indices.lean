import Mathlib.Logic.Function.Iterate
import Kbms.Ams.Refresh

/-! # The two indices after any number of refreshes

The flag is never reset. Past the largest `int` it goes on from the smallest one, and from
then on one of the two remainders is negative: the test of `ParserData` only knows an upper
bound.
-/
namespace Kbms.Tables
variable {lib : JsonLib} {t t' : Tables} {rs : List Response} {k : ℕ}

/-- The tables after `k` accepted refreshes, each of which adds one to the flag. -/
def published (k : ℕ) : Tables := publish^[k] new

/-- Both indices are inside `server_vec_`, and they are not the same. -/
structure Apart (t : Tables) : Prop where
  active : t.active = 0 ∨ t.active = 1
  inactive : ∃ num, t.inactive = some num ∧ (num = 0 ∨ num = 1) ∧ num ≠ t.active

theorem flagNum_published (k : ℕ) : (published k).flagNum = (k : ℤ).bmod (2^32) := by
  induction k with
  | zero => rfl
  | succ k ih =>
    have hstep : published (k + 1) = (published k).publish := Function.iterate_succ_apply' publish k new
    rw [hstep, publish, ih]
    dsimp only
    rw [Int.bmod_add_bmod, Nat.cast_succ]

/-- One response adds one to the flag when it is accepted. -/
theorem reqSerList_flagNum {r : Response} {b : Bool} (h : 0 ≤ t.flagNum) (hint : t.flagNum < 2^31)
    (hs : t.reqSerList lib r = some (t',b)) :
    t'.flagNum = t.flagNum + ((decode lib r).toList.length : ℤ) ∧ t'.flagNum < 2^31 := by
  by_cases hlt : t.flagNum + 1 < 2^31
  · obtain ⟨u,hu,_,hflag⟩ := t.reqSerList_spec lib r h hlt
    rw [hu] at hs
    cases hs
    have hone : (decode lib r).toList.length ≤ 1 := by cases decode lib r <;> simp
    exact ⟨hflag,by omega⟩
  · by_cases hcode : r.code = scSuccess
    · rw [reqSerList_none hcode hlt] at hs
      cases hs
    · rw [reqSerList, if_pos hcode] at hs
      cases hs
      have hnone : decode lib r = none := by rw [decode, if_pos hcode]
      rw [hnone]
      exact ⟨(Int.add_zero _).symm,hint⟩

theorem refreshes_flagNum (h : 0 ≤ t.flagNum) (hint : t.flagNum < 2^31) (hs : t.refreshes lib rs = some t') :
    t'.flagNum = t.flagNum + ((rs.filterMap (decode lib)).length : ℤ) ∧ t'.flagNum < 2^31 := by
  induction rs generalizing t with
  | nil =>
    cases hs
    exact ⟨(Int.add_zero _).symm,hint⟩
  | cons r rs ih =>
    obtain ⟨⟨u,b⟩,hu,hrest⟩ := Option.bind_eq_some_iff.mp hs
    obtain ⟨hflag,hless⟩ := reqSerList_flagNum h hint hu
    obtain ⟨hrun,hlast⟩ := ih (reqSerList_nonneg h hu) hless hrest
    refine ⟨?_,hlast⟩
    rw [hrun, hflag, List.filterMap_cons]
    cases decode lib r with
    | none => simp
    | some entries =>
      rw [Option.toList_some, List.length_singleton, List.length_cons]
      omega

/-- Where a run of responses ends without an overflow, its flag is that of its accepted
ones. -/
theorem refreshes_published (hs : new.refreshes lib rs = some t) :
    t.flagNum = (published (rs.filterMap (decode lib)).length).flagNum := by
  have hzero : new.flagNum = 0 := rfl
  obtain ⟨hflag,hless⟩ := refreshes_flagNum (Int.le_of_eq hzero.symm) (by rw [hzero]; decide) hs
  rw [flagNum_published, Int.bmod_def]
  omega

theorem tmod_two_of_neg {n : ℤ} (h : n < 0) : n.tmod 2 = -(n % 2) := by
  have hpos := Int.tmod_eq_emod_of_nonneg (a := -n) (b := 2) (by omega)
  rw [Int.neg_tmod] at hpos
  omega

/-- The indices are right exactly when the flag has not wrapped and can still be increased. -/
theorem apart_iff_flagNum : Apart t ↔ 0 ≤ t.flagNum ∧ t.flagNum + 1 < 2^31 := by
  constructor
  · intro h
    obtain ⟨num,hnum,hindex,hne⟩ := h.inactive
    have hfits : t.flagNum + 1 < 2^31 := by
      by_contra hover
      rw [inactive_none hover] at hnum
      cases hnum
    rw [inactive, if_pos hfits] at hnum
    cases hnum
    refine ⟨?_,hfits⟩
    by_contra hneg
    -- Below zero the odd one of the two consecutive values has the remainder -1.
    have hactive := h.active
    rw [Tables.active, maxNum, tmod_two_of_neg (by omega)] at hactive
    rw [maxNum] at hindex
    by_cases hlast : t.flagNum = -1
    · rw [hlast] at hactive
      revert hactive
      decide
    · rw [tmod_two_of_neg (by omega)] at hindex
      omega
  · rintro ⟨hpos,hfits⟩
    refine ⟨?_,_,inactive_eq hpos hfits,?_,?_⟩
    · rw [active_eq hpos]
      omega
    · omega
    · rw [active_eq hpos]
      omega

/-- For every number of accepted refreshes, also those past which the flag has wrapped. -/
theorem indices_apart_iff (k : ℕ) : Apart (published k) ↔ k % 2^32 < 2^31 - 1 := by
  rw [apart_iff_flagNum, flagNum_published, Int.bmod_def]
  omega

/-- The last refresh before the wrap already overflows in the next `ParserData`, and two
refreshes later the search looks at the index -1. -/
theorem published_outside : (published (2^31 - 1)).inactive = none ∧ (published (2^31 + 1)).active = -1 ∧
    ¬ ∀ k, Apart (published k) := by
  have hlast : (published (2^31 - 1)).inactive = none := by
    apply inactive_none
    rw [flagNum_published]
    decide
  refine ⟨hlast,?_,fun h => ?_⟩
  · rw [active, flagNum_published]
    decide
  · obtain ⟨num,hnum,_⟩ := (h (2^31 - 1)).inactive
    rw [hlast] at hnum
    cases hnum

end Kbms.Tables
