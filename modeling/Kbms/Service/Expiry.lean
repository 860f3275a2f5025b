import Kbms.Service.Replies

/-! # The arithmetic of deadlines

The expiration is an unsigned number of milliseconds, and the deadline is kept in signed
nanoseconds. A setting for which the exact deadline does not fit comes back by a multiple of
`2^64`, so a request may be late as soon as it arrives.
-/
namespace Kbms
open Foundation

/-- The deadline without any conversion. -/
def exactDeadline (now : ℤ) (expiration : UInt64) : ℤ := now + expiration.toNat * 1000000

/-- A positive multiple of `2^64` takes the deadline for a task built at `t₀` back to a time
before `t₁`. -/
def WrapsBack (expiration : UInt64) (t₀ t₁ : ℤ) : Prop :=
  ∃ k : ℕ, 0 < k ∧ exactDeadline t₀ expiration - t₁ < k * 2^64 ∧ k * 2^64 ≤ exactDeadline t₀ expiration + 2^63

/-- Both are values of the clock, and the later one is not smaller. -/
structure ClockPair (t₀ t₁ : ℤ) : Prop where
  lower : -2^63 ≤ t₀
  le : t₀ ≤ t₁
  upper : t₁ < 2^63

section Arithmetic
variable {t₀ t₁ T : ℤ} {e e' : UInt64}

theorem deadline_eq (now : TimePoint) (e : UInt64) : deadline now e = int64 (exactDeadline now e) := by
  simp only [deadline, int64, exactDeadline, Int.add_bmod_bmod]
  rw [← Int.add_bmod_bmod, Int.bmod_mul_bmod, Int.add_bmod_bmod]

/-- A wrapped time is before `t₁` when some multiple of `2^64` takes it there. -/
theorem int64_lt_iff (hT : -2^63 ≤ T) (ht : t₁ < 2^63) :
    int64 T < t₁ ↔ ∃ k : ℕ, T - t₁ < k * 2^64 ∧ k * 2^64 ≤ T + 2^63 := by
  constructor
  · intro h
    have heq : int64 T = T - T.bdiv (2^64) * (2^64 : ℕ) := Int.bmod_eq_self_sub_bdiv_mul T (2^64)
    have hle : -((2^64 : ℕ) / 2 : ℤ) ≤ int64 T := Int.le_bmod (by omega)
    have hpos : 0 ≤ T.bdiv (2^64) := by omega
    exact ⟨(T.bdiv (2^64)).toNat,by omega,by omega⟩
  · rintro ⟨k,hlt,hle⟩
    have heq : int64 T = T - k * 2^64 := by
      refine (Int.bmod_eq_iff (by omega)).mpr ⟨by omega,by omega,-k,?_⟩
      omega
    omega

/-- The test against the deadline is exact unless the deadline wraps back. -/
theorem deadline_lt_iff (h : ClockPair t₀ t₁) :
    (deadline t₀ e < t₁ ↔ exactDeadline t₀ e < t₁) ↔ ¬ WrapsBack e t₀ t₁ := by
  have hT : -2^63 ≤ exactDeadline t₀ e := by
    have := h.lower
    rw [exactDeadline]
    omega
  rw [deadline_eq, int64_lt_iff hT h.upper]
  constructor
  · rintro hexact ⟨k,hpos,hlt,hle⟩
    have := hexact.mp ⟨k,hlt,hle⟩
    have := h.upper
    omega
  · intro hwrap
    constructor
    · rintro ⟨k,hlt,hle⟩
      rcases Nat.eq_zero_or_pos k with rfl | hpos
      · omega
      · exact absurd ⟨k,hpos,hlt,hle⟩ hwrap
    · intro hlt
      exact ⟨0,by omega,by omega⟩

/-- Settings whose deadlines fit are all right. -/
theorem not_wrapsBack_of_lt (h : exactDeadline t₀ e < 2^63) : ¬ WrapsBack e t₀ t₁ := by
  rintro ⟨k,hpos,-,hle⟩
  omega

theorem exactDeadline_mono (h : e ≤ e') : exactDeadline t₀ e ≤ exactDeadline t₀ e' := by
  have := UInt64.le_iff_toNat_le.mp h
  simp only [exactDeadline]
  omega

end Arithmetic

namespace Task
variable {F : Type*} {t₀ t₁ : ℤ} {e : UInt64}

/-- A worker that dequeues the task when the clock shows `now` marks it `TIMEDOUT`. -/
def TimesOut (t : Task F) (now : TimePoint) : Prop := ∃ u, t.mark now = some u ∧ u.state = .timedOut

theorem timesOut_iff {t : Task F} (hw : t.state = .waiting) : t.TimesOut t₁ ↔ t.Late t₁ := by
  rw [← expired_eq_true]
  simp only [TimesOut, mark, hw, if_true, Option.map_eq_some_iff]
  constructor
  · rintro ⟨_,⟨late,hlate,rfl⟩,hst⟩
    cases late with
    | true => exact hlate
    | false => cases hst
  · intro h
    exact ⟨_,⟨true,h,rfl⟩,rfl⟩

theorem timesOut_ofExpiration {taskFun : Option F} {expireFun : F} (he : 0 < e) :
    (ofExpiration taskFun (some expireFun) e t₀).TimesOut t₁ ↔ deadline t₀ e < t₁ := by
  have hne : e ≠ 0 := fun h => by simp [h] at he
  have htime : (ofExpiration taskFun (some expireFun) e t₀).expireTime = some (deadline t₀ e) := if_pos hne
  rw [timesOut_iff rfl, Late, htime]
  constructor
  · rintro ⟨-,d,hd,hlt⟩
    cases hd
    exact hlt
  · intro hlt
    exact ⟨by simp [ofExpiration,he],_,rfl,hlt⟩

/-- A task is marked late exactly when it is, unless its deadline wraps back. Among settings
that do not wrap, a larger one never makes a task late that a smaller one leaves in time. -/
theorem times_out_exactly_iff (taskFun : Option F) (expireFun : F) (h : ClockPair t₀ t₁) :
    (∀ e : UInt64, 0 < e →
      (((ofExpiration taskFun (some expireFun) e t₀).TimesOut t₁ ↔ (e.toNat : ℤ) * 1000000 < t₁ - t₀) ↔
        ¬ WrapsBack e t₀ t₁)) ∧
    ∀ e e' : UInt64, 0 < e → e ≤ e' → ¬ WrapsBack e t₀ t₁ → ¬ WrapsBack e' t₀ t₁ →
      (ofExpiration taskFun (some expireFun) e' t₀).TimesOut t₁ →
      (ofExpiration taskFun (some expireFun) e t₀).TimesOut t₁ := by
  constructor
  · intro e he
    have hexact : exactDeadline t₀ e < t₁ ↔ (e.toNat : ℤ) * 1000000 < t₁ - t₀ := by
      rw [exactDeadline]
      omega
    rw [timesOut_ofExpiration he, ← hexact]
    exact deadline_lt_iff h
  · intro e e' he hee hw hw' hlate
    have hlt := ((deadline_lt_iff h).mpr hw').mp ((timesOut_ofExpiration (UInt64.lt_of_lt_of_le he hee)).mp hlate)
    exact (timesOut_ofExpiration he).mpr (((deadline_lt_iff h).mpr hw).mpr (Int.lt_of_le_of_lt (exactDeadline_mono hee) hlt))

/-- Settings of one hour and of one and a half, and a request that has waited for two. -/
theorem times_out_exactly_hour : ClockPair 0 7200000000000 ∧
    ((ofExpiration (some ()) (some ()) 3600000 0).TimesOut 7200000000000 ↔
      ((3600000 : UInt64).toNat : ℤ) * 1000000 < 7200000000000 - 0) ∧
    (ofExpiration (some ()) (some ()) 3600000 0).TimesOut 7200000000000 := by
  have hclock : ClockPair 0 7200000000000 := ⟨by decide,by decide,by decide⟩
  have hw : ¬ WrapsBack 3600000 0 7200000000000 := not_wrapsBack_of_lt (by decide)
  have hw' : ¬ WrapsBack 5400000 0 7200000000000 := not_wrapsBack_of_lt (by decide)
  have hlate : (ofExpiration (some ()) (some ()) 5400000 0).TimesOut 7200000000000 :=
    (timesOut_ofExpiration (by decide)).mpr (by decide)
  exact ⟨hclock,((times_out_exactly_iff (some ()) () hclock).1 3600000 (by decide)).mpr hw,
    (times_out_exactly_iff (some ()) () hclock).2 3600000 5400000 (by decide) (by decide) hw hw' hlate⟩

/-- The largest setting is a deadline one millisecond before the task is built. -/
theorem largest_setting_times_out : ClockPair 0 0 ∧ (0 : UInt64) < 18446744073709551615 ∧
    (ofExpiration (some ()) (some ()) 18446744073709551615 0).TimesOut 0 ∧
    ¬ ((18446744073709551615 : UInt64).toNat : ℤ) * 1000000 < 0 - 0 := by
  refine ⟨⟨by decide,by decide,by decide⟩,by decide,?_,by decide⟩
  exact (timesOut_ofExpiration (by decide)).mpr (by decide)

end Task

namespace Service
variable {H : Type*} {setup : Setup H} {s : Service} {tr : List (Event H)} {r j : ℕ} {path : String}
  {t₀ t₁ : ℤ} {o : Option Callback}

/-- In every run of the service a request is given to the timeout handler exactly when it
has waited for longer than the setting, unless its deadline wraps back. -/
theorem request_times_out_iff (hr : (machine setup).Runs Machine.Any tr s) (hrec : .received r path t₀ ∈ tr)
    (hdeq : .pool (.dequeued j r t₁ o) ∈ tr) (he : 0 < setup.expiration) (h : ClockPair t₀ t₁) :
    (o = some .expireFun ↔ (setup.expiration.toNat : ℤ) * 1000000 < t₁ - t₀) ↔
      ¬ WrapsBack setup.expiration t₀ t₁ := by
  have hexact : exactDeadline t₀ setup.expiration < t₁ ↔ (setup.expiration.toNat : ℤ) * 1000000 < t₁ - t₀ := by
    rw [exactDeadline]
    omega
  have hlate : setup.late t₀ t₁ = true ↔ deadline t₀ setup.expiration < t₁ := by
    simp [Setup.late,he]
  rw [dequeued_choice hr hrec hdeq, ← hexact, ← deadline_lt_iff h, ← hlate]
  cases setup.late t₀ t₁ <;> simp [dueCallback]

end Service
end Kbms
