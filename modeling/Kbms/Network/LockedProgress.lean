import Kbms.Foundation.Termination
import Kbms.Network.IoProgress
import Kbms.Network.LockedIoThread

/-! # The mailbox never locks up

The threads that submit and the IO thread wait for one mutex, and a functor may submit while
it runs. Each statement leaves its thread less to do and whoever holds the mutex can go on, so
left to themselves the threads stop, and only where every functor has been run.
-/
namespace Kbms
open Foundation
variable {Fn : Type*}

/-- What a `Submit` has still to do, with the work that it makes for the IO thread. -/
def SubmitPoint.load : SubmitPoint Fn → ℕ
  | .outside => 0
  | .lock _ => 11
  | .push _ => 10
  | .notify _ => 7
  | .unlock => 1

def IoPoint.load : IoPoint Fn → ℕ
  | .dispatching => 0
  | .created => 1
  | .lock => 4
  | .swap => 3
  | .unlock functors => 2 * functors.length + 2
  | .draining rest => 2 * rest.length + 1
  | .running _ rest a => 2 * rest.length + 2 + a.load

def Mailbox.load (m : Mailbox Fn) : ℕ := 2 * m.taskFunctors.length + 5 * m.unread

namespace LockedIoThread
variable {capacity n k i : ℕ} {s t : LockedIoThread Fn} {a b : SubmitPoint Fn} {m m' : Mailbox Fn} {who : IoHolder}
variable {es tr : List (SubmitEvent Fn)} {P : List (SubmitEvent Fn) → LockedIoThread Fn → Action Fn → Prop}

/-- The statements of the threads. That one of them calls `Submit` comes from outside. -/
def Action.own : Action Fn → Bool
  | .call _ _ | .callInside _ => false
  | _ => true

def Internal (_ : List (SubmitEvent Fn)) (_ : LockedIoThread Fn) (x : Action Fn) : Prop := x.own = true

def load (s : LockedIoThread Fn) : ℕ :=
  s.mailbox.load + s.io.load + (s.submitters.map SubmitPoint.load).sum

theorem submit_load (h : m.submit capacity who a = some (b,m',es)) : m'.load + b.load < m.load + a.load := by
  rcases submit_cases h with ⟨func,rfl,rfl,_,rfl,_⟩ | ⟨func,rfl,rfl,rfl,_⟩ | ⟨func,rfl,rfl,rfl,_⟩ | ⟨rfl,rfl,rfl,_⟩
  · simp only [Mailbox.load, SubmitPoint.load]
    omega
  · simp only [Mailbox.load, SubmitPoint.load, List.length_append, List.length_singleton]
    omega
  · have hbyte := IoThread.eventNotify_le capacity m.unread
    simp only [Mailbox.load, SubmitPoint.load]
    omega
  · simp only [Mailbox.load, SubmitPoint.load]
    omega

theorem execute_load (h : s.execute = some (t,es)) : load t < load s := by
  rw [execute] at h
  split at h
  · rename_i hio
    split at h
    · cases h
      simp only [load, Mailbox.load, hio, IoPoint.load]
      omega
    · cases h
  · rename_i hio
    cases h
    simp only [load, Mailbox.load, hio, IoPoint.load, List.length_nil]
    omega
  · rename_i hio
    cases h
    simp only [load, Mailbox.load, hio, IoPoint.load]
    omega
  · rename_i hio
    cases h
    simp only [load, hio, IoPoint.load, List.length_nil]
    omega
  · rename_i hio
    cases h
    simp only [load, hio, IoPoint.load, SubmitPoint.load, List.length_cons]
    omega
  · cases h

theorem step_load {x : Action Fn} (hx : x.own = true) (h : step capacity s x = some (t,es)) : load t < load s := by
  cases x with
  | call _ _ | callInside _ => cases hx
  | submitter i =>
    obtain ⟨a,ha,h⟩ := Option.bind_eq_some_iff.mp h
    obtain ⟨⟨b,m,es⟩,hm,h⟩ := Option.map_eq_some_iff.mp h
    cases h
    have hlt := submit_load hm
    have hsum := Roster.sum_map_set_add ha SubmitPoint.load b
    simp only [load]
    omega
  | inside =>
    simp only [step, inside] at h
    split at h
    · rename_i hio
      obtain ⟨⟨b,m,es⟩,hm,h⟩ := Option.map_eq_some_iff.mp h
      cases h
      have hlt := submit_load hm
      simp only [load, hio, IoPoint.load]
      omega
    · cases h
  | start =>
    simp only [step, start] at h
    split at h
    · rename_i hio
      cases h
      simp only [load, hio, IoPoint.load]
      omega
    · cases h
  | recv n =>
    simp only [step, recv] at h
    split at h
    · rename_i hio
      split at h
      · rename_i hn
        cases h
        simp only [load, Mailbox.load, hio, IoPoint.load]
        omega
      · cases h
    · cases h
  | execute => exact execute_load h
  | ret =>
    simp only [step, ret] at h
    split at h
    · rename_i hio
      cases h
      simp only [load, hio, IoPoint.load, SubmitPoint.load]
      omega
    · cases h

/-- A statement of the IO thread that is none of a functor. -/
theorem io_cases (h : step capacity s .start = some (t,es) ∨ (∃ n, step capacity s (.recv n) = some (t,es)) ∨
    step capacity s .execute = some (t,es) ∨ step capacity s .ret = some (t,es)) :
    t.submitters = s.submitters ∧ t.io.inner = .outside ∧ ∀ e ∈ es, ∃ f, e = .called f := by
  rcases h with h | ⟨n,h⟩ | h | h
  · rw [step, start] at h
    split at h
    · cases h
      exact ⟨rfl,rfl,by simp⟩
    · cases h
  · rw [step, recv] at h
    split at h
    · split at h
      · cases h
        exact ⟨rfl,rfl,by simp⟩
      · cases h
    · cases h
  · rw [step, execute] at h
    split at h
    · split at h
      · cases h
        exact ⟨rfl,rfl,by simp⟩
      · cases h
    · cases h
      exact ⟨rfl,rfl,by simp⟩
    · cases h
      exact ⟨rfl,rfl,by simp⟩
    · cases h
      exact ⟨rfl,rfl,by simp⟩
    · cases h
      exact ⟨rfl,rfl,by simp⟩
    · cases h
  · rw [step, ret] at h
    split at h
    · cases h
      exact ⟨rfl,rfl,by simp⟩
    · cases h

/-- As long as no functor submits, a statement is one of a thread in `Submit` or one of the IO
thread. -/
theorem own_cases {x : Action Fn} (hio : s.io.inner = .outside) (hx : x.own = true)
    (h : step capacity s x = some (t,es)) :
    (∃ j a b m, x = .submitter j ∧ s.submitters[j]? = some a ∧
      s.mailbox.submit capacity (.submitter j) a = some (b,m,es) ∧
      t = { s with mailbox := m, submitters := s.submitters.set j b }) ∨
    (t.submitters = s.submitters ∧ t.io.inner = .outside ∧ ∀ e ∈ es, ∃ f, e = .called f) := by
  cases x with
  | call _ _ | callInside _ => cases hx
  | submitter j =>
    obtain ⟨a,ha,h⟩ := Option.bind_eq_some_iff.mp h
    obtain ⟨⟨b,m,ses⟩,hm,h⟩ := Option.map_eq_some_iff.mp h
    cases h
    exact .inl ⟨j,a,b,m,rfl,ha,hm,rfl⟩
  | inside =>
    rw [step, LockedIoThread.inside] at h
    split at h
    · rename_i hrun
      rw [hrun] at hio
      obtain ⟨r,hm,_⟩ := Option.map_eq_some_iff.mp h
      cases hio
      cases hm
    · cases h
  | start => exact .inr (io_cases (.inl h))
  | recv n => exact .inr (io_cases (.inr (.inl ⟨n,h⟩)))
  | execute => exact .inr (io_cases (.inr (.inr (.inl h))))
  | ret => exact .inr (io_cases (.inr (.inr (.inr h))))

theorem submitters_length (hr : (machine Fn capacity n).Runs P tr s) : s.submitters.length = n := by
  refine hr.stateInvariant (I := fun s => s.submitters.length = n) ?_ (fun s a t es h hs => ?_)
  · rintro _ rfl
    exact List.length_replicate
  · cases step_stepped hs with
    | call _ | submitter _ _ => exact List.length_set.trans h
    | callInside _ | inside _ _ | start _ | recv _ _ | locks _ _ | swaps _ | unlocks _ | drained _ | calls _
      | returns _ => exact h

theorem descends (Fn : Type*) (capacity n : ℕ) :
    (machine Fn capacity n).Descends Machine.Any Internal (fun _ s => load s) where
  permitted _ _ _ _ := trivial
  step _ _ _ _ _ _ hx hs := step_load hx hs

section Stuck

/-- A thread in `Submit` waits for nothing but the mutex. -/
theorem submit_isSome (capacity : ℕ) (who : IoHolder) (ha : a ≠ .outside)
    (hlock : m.mutex = none ∨ a.holding = true) : (m.submit capacity who a).isSome = true := by
  cases a with
  | outside => exact absurd rfl ha
  | lock func =>
    have hfree : m.mutex = none := hlock.resolve_right (fun h => by cases h)
    rw [Mailbox.submit, if_pos hfree]
    rfl
  | push func | notify func | unlock => rfl

theorem not_stuck_submitter (ha : s.submitters[i]? = some a) (hout : a ≠ .outside)
    (hlock : s.mailbox.mutex = none ∨ a.holding = true) : step capacity s (.submitter i) ≠ none := by
  have hsome := submit_isSome capacity (.submitter i) hout hlock
  rw [step, submitter, ha, Option.bind_some, ne_eq, Option.map_eq_none_iff]
  exact Option.isSome_iff_ne_none.mp hsome

theorem not_stuck_inside {f : Fn} {rest : List Fn} (hio : s.io = .running f rest a) (hout : a ≠ .outside)
    (hlock : s.mailbox.mutex = none ∨ a.holding = true) : step capacity s .inside ≠ none := by
  have hsome := submit_isSome capacity .io hout hlock
  rw [step, inside, hio, ne_eq, Option.map_eq_none_iff]
  exact Option.isSome_iff_ne_none.mp hsome

variable (hr : (machine Fn capacity n).Runs P tr s) (hstuck : (machine Fn capacity n).Stuck Internal (tr,s))
include hr hstuck

theorem Stuck.free : s.mailbox.mutex = none := by
  have hex := excluded_of_runs hr
  by_contra hne
  obtain ⟨who,hwho⟩ := Option.ne_none_iff_exists'.mp hne
  cases who with
  | submitter i =>
    have howns := hex.owns
    rw [hwho] at howns
    obtain ⟨a,ha,hhold⟩ := howns.exists_point
    exact not_stuck_submitter ha (by rintro rfl; cases hhold) (.inr hhold) (hstuck (.submitter i) rfl)
  | io =>
    have hhold := hex.io.mpr hwho
    cases hio : s.io with
    | created | dispatching | lock | draining rest =>
      rw [hio] at hhold
      cases hhold
    | swap | unlock functors =>
      have hnone := hstuck .execute rfl
      simp [machine,step,execute,hio] at hnone
    | running f rest a =>
      rw [hio] at hhold
      exact not_stuck_inside hio (by rintro rfl; cases hhold) (.inr hhold) (hstuck .inside rfl)

theorem Stuck.outside : ∀ a ∈ s.submitters, a = .outside := by
  intro a ha
  by_contra hout
  obtain ⟨i,hi⟩ := List.getElem?_of_mem ha
  exact not_stuck_submitter hi hout (.inl (Stuck.free hr hstuck)) (hstuck (.submitter i) rfl)

theorem Stuck.dispatching (hc : 0 < capacity) : s.io = .dispatching ∧ s.mailbox.taskFunctors = [] := by
  have hfree := Stuck.free hr hstuck
  cases hio : s.io with
  | created =>
    have hnone := hstuck .start rfl
    simp [machine,step,start,hio] at hnone
  | lock =>
    have hnone := hstuck .execute rfl
    simp [machine,step,execute,hio,hfree] at hnone
  | swap | unlock functors =>
    have hnone := hstuck .execute rfl
    simp [machine,step,execute,hio] at hnone
  | draining rest =>
    have hnone := hstuck .execute rfl
    cases rest <;> simp [machine,step,execute,hio] at hnone
  | running f rest a =>
    by_cases hout : a = .outside
    · have hnone := hstuck .ret rfl
      simp [machine,step,ret,hio,hout] at hnone
    · exact absurd (hstuck .inside rfl) (not_stuck_inside hio hout (.inl hfree))
  | dispatching =>
    refine ⟨rfl,?_⟩
    have hannounced : s.announced = s.mailbox.taskFunctors := announced_eq (by rw [holder_free hfree]; rfl)
    by_contra hne
    -- a functor in the vector has a byte ahead of it
    have hnoticed := IoThread.noticed_of_runs hc (runs_ioThread hr)
    have hbyte : 0 < s.mailbox.unread := by
      refine (hnoticed ?_).resolve_right (by simp [mail,hio,IoPoint.phase])
      rw [mail, hannounced]
      exact hne
    have hnone := hstuck (.recv 1) rfl
    have hone : 0 < 1 ∧ 1 ≤ IoThread.bufSize ∧ 1 ≤ s.mailbox.unread := ⟨Nat.one_pos,by decide,hbyte⟩
    simp only [machine, step, recv, hio, if_pos hone] at hnone
    cases hnone

end Stuck

/-- The functor has got the mutex in a `Submit`, or a thread waits for it there. -/
def Asked (func : Fn) (c : List (SubmitEvent Fn) × LockedIoThread Fn) : Prop :=
  func ∈ lockOrder c.1 ∨ .lock func ∈ c.2.submitters ∨ c.2.io.inner = .lock func

theorem submit_asked {func : Fn} (h : m.submit capacity who a = some (b,m',es)) (ha : a = .lock func) :
    func ∈ lockOrder es := by
  subst ha
  rcases submit_cases h with ⟨_,hlock,_,_,_,rfl⟩ | ⟨_,hlock,_⟩ | ⟨_,hlock,_⟩ | ⟨hlock,_⟩
  · cases hlock
    exact List.mem_singleton.mpr rfl
  all_goals cases hlock

theorem Asked.step {func : Fn} (h : Asked func (tr,s)) (hs : Stepped capacity s t es) : Asked func (tr ++ es,t) := by
  rcases h with h | h | h
  · exact .inl (by rw [lockOrder_append]; exact List.mem_append_left _ h)
  · cases hs with
    | call ha =>
      obtain ⟨j,hj⟩ := List.getElem?_of_mem h
      refine .inr (.inl (List.mem_of_getElem? (i := j) ?_))
      rw [List.getElem?_set_ne ?_, hj]
      rintro rfl
      rw [ha] at hj
      cases hj
    | @submitter i a b m es ha hm =>
      obtain ⟨j,hj⟩ := List.getElem?_of_mem h
      by_cases hij : i = j
      · subst hij
        rw [ha] at hj
        refine .inl ?_
        rw [lockOrder_append]
        exact List.mem_append_right _ (submit_asked hm (Option.some.inj hj))
      · refine .inr (.inl (List.mem_of_getElem? (i := j) ?_))
        rw [List.getElem?_set_ne hij, hj]
    | callInside _ | inside _ _ | start _ | recv _ _ | locks _ _ | swaps _ | unlocks _ | drained _ | calls _
      | returns _ => exact .inr (.inl h)
  · cases hs with
    | call _ | submitter _ _ => exact .inr (.inr h)
    | inside ha hm =>
      refine .inl ?_
      rw [lockOrder_append]
      refine List.mem_append_right _ (submit_asked hm ?_)
      rw [← h, ha]
      rfl
    | callInside ha | start ha | recv ha _ | locks ha _ | swaps ha | unlocks ha | drained ha | calls ha | returns ha =>
      dsimp only at h
      rw [ha] at h
      cases h

/-- From every reachable state, whatever the scheduling: without further calls of `Submit` the
threads take at most `load s` more statements, and where none of them has one left the mutex is
free, nobody is inside `Submit`, the IO thread is back in its event loop, and it has run
every functor of every `Submit`, those that still waited for the mutex among them, in the order
in which `Submit` locked the mutex. -/
theorem never_locks_up (hc : 0 < capacity) (hr : (machine Fn capacity n).Runs P tr s) :
    (∀ k c, (machine Fn capacity n).Steps Internal k (tr,s) c → k ≤ load s) ∧
    (∃ k c, (machine Fn capacity n).Steps Internal k (tr,s) c ∧ (machine Fn capacity n).Stuck Internal c) ∧
    ∀ k tr' s', (machine Fn capacity n).Steps Internal k (tr,s) (tr',s') →
      (machine Fn capacity n).Stuck Internal (tr',s') →
      s'.mailbox.mutex = none ∧ (∀ a ∈ s'.submitters, a = .outside) ∧ s'.io = .dispatching ∧
      callOrder tr' = lockOrder tr' ∧ ∀ func, Asked func (tr,s) → func ∈ callOrder tr' := by
  refine ⟨fun k c h => ?_,(descends Fn capacity n).exists_stuck hr.any,fun k tr' s' h hstuck => ?_⟩
  · have hbound := (descends Fn capacity n).bound hr.any h
    dsimp only at hbound
    omega
  · have hr' := h.runs (fun _ _ _ _ => trivial) hr.any
    have hfree := Stuck.free hr' hstuck
    have hout := Stuck.outside hr' hstuck
    obtain ⟨hio,hempty⟩ := Stuck.dispatching hr' hstuck hc
    have horder : callOrder tr' = lockOrder tr' := by
      rw [(ordered_of_runs hr').locked, pushOrder_eq hr', hio, hempty, holder_free hfree]
      simp [IoPoint.phase,IoPhase.rest,SubmitPoint.inFlight]
    refine ⟨hfree,hout,hio,horder,fun func hasked => ?_⟩
    have hlast : Asked func (tr',s') :=
      h.invariant (fun _ _ _ _ _ ha _ hs => ha.step (step_stepped hs)) hasked
    rw [horder]
    rcases hlast with hlast | hlast | hlast
    · exact hlast
    · cases hout _ hlast
    · dsimp only at hlast
      rw [hio] at hlast
      cases hlast

/-- Functor 1 runs and waits for the mutex to submit 7, while another thread has it to submit 2. -/
theorem never_locks_up_inside : ∃ tr, ∃ s : LockedIoThread ℕ,
    (machine ℕ 1 2).Runs Machine.Any tr s ∧ s.io = .running 1 [] (.lock 7) ∧
    s.mailbox.mutex = some (.submitter 1) ∧ load s = 23 ∧
    (∀ k c, (machine ℕ 1 2).Steps Internal k (tr,s) c → k ≤ load s) ∧
    (∃ k c, (machine ℕ 1 2).Steps Internal k (tr,s) c ∧ (machine ℕ 1 2).Stuck Internal c) ∧
    ∀ k tr' s', (machine ℕ 1 2).Steps Internal k (tr,s) (tr',s') → (machine ℕ 1 2).Stuck Internal (tr',s') →
      s'.mailbox.mutex = none ∧ (∀ a ∈ s'.submitters, a = .outside) ∧ s'.io = .dispatching ∧
      callOrder tr' = lockOrder tr' ∧ ∀ func, Asked func (tr,s) → func ∈ callOrder tr' := by
  obtain ⟨c,hc,hio,hmutex,hload⟩ : ∃ c, (machine ℕ 1 2).replay (fun _ _ _ => true)
      [.start,.call 0 1,.submitter 0,.submitter 0,.submitter 0,.recv 1,.submitter 0,.execute,.execute,.execute,
        .execute,.call 1 2,.callInside 7,.submitter 1] ([],new ℕ 2) = some c ∧
      c.2.io = .running 1 [] (.lock 7) ∧ c.2.mailbox.mutex = some (.submitter 1) ∧ load c.2 = 23 :=
    ⟨_,rfl,rfl,rfl,rfl⟩
  have hr := Machine.replay_runs (P := Machine.Any) (fun _ _ _ _ => trivial) (.start rfl) hc
  exact ⟨_,_,hr,hio,hmutex,hload,never_locks_up (by decide) hr⟩

end LockedIoThread
end Kbms
