import Kbms.Network.IoThread

/-! # The IO thread makes progress

Every step of the IO thread leaves it less to do, and it can go on as long as a functor is
pending.
-/
namespace Kbms.IoThread
open Foundation
variable {Fn : Type*} {capacity : ℕ} {io t : IoThread Fn} {es : List (IoEvent Fn)}

def phaseLoad : IoPhase Fn → ℕ
  | .created => 1
  | .dispatching => 0
  | .received => 2
  | .draining rest => 2 * rest.length + 1
  | .running _ rest => 2 * rest.length + 2

def load (io : IoThread Fn) : ℕ := phaseLoad io.phase + 2 * io.taskFunctors.length + 3 * io.unread

theorem eventNotify_le (capacity unread : ℕ) : eventNotify capacity unread ≤ unread + 1 := by
  rw [eventNotify]
  split <;> omega

theorem submit_load (capacity : ℕ) (io : IoThread Fn) (f : Fn) : load (submit capacity io f).1 ≤ load io + 5 := by
  have hbyte := eventNotify_le capacity io.unread
  simp only [load, submit, List.length_append, List.length_singleton]
  omega

theorem step_load {a : Action Fn} (ha : ∀ f, a ≠ .submit f) (hs : step capacity io a = some (t,es)) :
    load t < load io := by
  cases a with
  | submit f => exact absurd rfl (ha f)
  | start =>
    simp only [step, start] at hs
    split at hs
    · rename_i hp
      cases hs
      simp only [load, hp, phaseLoad]
      omega
    · cases hs
  | recv n =>
    simp only [step, recv] at hs
    split at hs
    · rename_i hp
      split at hs
      · rename_i hn
        cases hs
        simp only [load, hp, phaseLoad]
        omega
      · cases hs
    · cases hs
  | swap =>
    simp only [step, swap] at hs
    split at hs
    · rename_i hp
      cases hs
      simp only [load, hp, phaseLoad, List.length_nil]
      omega
    · cases hs
  | call =>
    simp only [step, call] at hs
    split at hs
    · rename_i hp
      cases hs
      simp only [load, hp, phaseLoad]
      omega
    · rename_i f rest hp
      cases hs
      simp only [load, hp, phaseLoad, List.length_cons]
      omega
    · cases hs
  | ret =>
    simp only [step, ret] at hs
    split at hs
    · rename_i f rest hp
      cases hs
      simp only [load, hp, phaseLoad]
      omega
    · cases hs

/-- As long as a functor is pending the IO thread can go on. -/
theorem Noticed.exists_step (capacity : ℕ) (h : Noticed io) (hp : pending io ≠ []) :
    ∃ a, (∀ f, a ≠ .submit f) ∧ IoThread.step capacity io a ≠ none := by
  cases hphase : io.phase with
  | created => exact ⟨.start,by simp,by simp [IoThread.step,start,hphase]⟩
  | dispatching =>
    have hne : io.taskFunctors ≠ [] := by
      rw [pending, hphase] at hp
      exact hp
    have hbyte : 0 < io.unread := (h hne).resolve_right (by simp [hphase])
    exact ⟨.recv 1,by simp,by simp [IoThread.step,recv,hphase,bufSize,Nat.one_le_iff_ne_zero,Nat.pos_iff_ne_zero.mp hbyte]⟩
  | received => exact ⟨.swap,by simp,by simp [IoThread.step,swap,hphase]⟩
  | draining rest =>
    cases rest with
    | nil => exact ⟨.call,by simp,by simp [IoThread.step,call,hphase]⟩
    | cons f rest => exact ⟨.call,by simp,by simp [IoThread.step,call,hphase]⟩
  | running f rest => exact ⟨.ret,by simp,by simp [IoThread.step,ret,hphase]⟩

theorem noticed_of_runs {P : List (IoEvent Fn) → IoThread Fn → Action Fn → Prop} {tr : List (IoEvent Fn)}
    (hc : 0 < capacity) (hr : (machine Fn capacity).Runs P tr io) : Noticed io := by
  refine hr.stateInvariant (I := Noticed) ?_ (fun s a t es h hs => h.step hc hs)
  rintro _ rfl hne
  exact absurd rfl hne

end Kbms.IoThread
