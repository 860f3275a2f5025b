import Kbms.Foundation.History
import Kbms.Concurrency.PoolStop

/-! # What `Stop` does before it raises

Once the state has been stored no worker takes a task, `Stop` waits for no thread, since none
is joinable, and it never returns. The exception is all that keeps it from a shutdown.
-/
namespace Kbms
open Foundation

/-- The worker has found the pool running and has not asked again since. -/
def Point.surviving : Point → Bool
  | .inner survival | .idleDown survival | .take survival => survival
  | _ => false

theorem Point.holding_of_surviving {a : Point} (h : a.surviving = true) : a.holding = true := by
  cases a with
  | inner survival | idleDown survival | take survival => rfl
  | _ => cases h

namespace LockedPool
variable {F : Type*} {s t : LockedPool F} {es tr : List LockEvent} {i : ℕ} {a b : Point} {now : TimePoint}

/-- No worker takes another task. -/
structure Quits (s : LockedPool F) : Prop where
  state : s.isSurvival = false
  threads : ∀ a ∈ s.threads, a.surviving = false

/-- What every step keeps once `Init` has returned. -/
structure Keeps (s t : LockedPool F) (es : List LockEvent) : Prop where
  initialised : t.initialised = true
  quits : s.Quits → t.Quits
  dequeues : s.Quits → ∀ j p, .dequeued j p ∉ es

theorem Keeps.of_threads (hinit : s.initialised = true) (hbegun : t.begun = s.begun)
    (hne : s.threads ≠ [] → t.threads ≠ [])
    (hthreads : ∀ b ∈ t.threads, b ∈ s.threads ∨ (b.born = true ∧ (s.Quits → b.surviving = false)))
    (hjoin : ∀ j ∈ t.joinable, j ∈ s.joinable ∨ j = false) (hstate : t.state = s.state ∨ t.state = .stop)
    (hes : s.Quits → ∀ j p, .dequeued j p ∉ es) : Keeps s t es := by
  obtain ⟨hbeg,hs,hborn,hj⟩ := initialised_iff.mp hinit
  refine ⟨initialised_iff.mpr ⟨hbegun.trans hbeg,hne hs,fun b hb => ?_,fun j hmem => ?_⟩,fun hq => ⟨?_,fun b hb => ?_⟩,hes⟩
  · exact (hthreads b hb).elim (hborn b) And.left
  · exact (hjoin j hmem).elim (hj j) id
  · rcases hstate with he | he
    · rw [isSurvival, he]
      exact hq.state
    · rw [isSurvival, he]
      rfl
  · exact (hthreads b hb).elim (hq.threads b) (fun h => h.2 hq)

/-- Only the locals of threads have moved. -/
theorem Keeps.of_same (hinit : s.initialised = true) (hbegun : t.begun = s.begun) (ht : t.threads = s.threads)
    (hj : ∀ j ∈ t.joinable, j ∈ s.joinable ∨ j = false) (hstate : t.state = s.state ∨ t.state = .stop)
    (hes : s.Quits → ∀ j p, .dequeued j p ∉ es) : Keeps s t es :=
  .of_threads hinit hbegun (fun hne => ht ▸ hne) (fun _ hb => .inl (ht ▸ hb)) hj hstate hes

/-- One thread moves. -/
theorem Keeps.of_set (hinit : s.initialised = true) (ht : t.threads = s.threads.set i b)
    (hb : b.born = true) (hquits : s.Quits → b.surviving = false) (hbegun : t.begun = s.begun)
    (hj : t.joinable = s.joinable) (hstate : t.state = s.state) (hes : s.Quits → ∀ j p, .dequeued j p ∉ es) :
    Keeps s t es := by
  refine .of_threads hinit hbegun (fun hne hnil => ?_) (fun c hc => ?_) (fun j hmem => .inl (hj ▸ hmem))
    (.inl hstate) hes
  · rw [ht] at hnil
    exact hne ((List.set_eq_nil_iff i b).mp hnil)
  · rw [ht] at hc
    rcases List.mem_or_eq_of_mem_set hc with hc | rfl
    · exact .inl hc
    · exact .inr ⟨hb,hquits⟩

theorem Keeps.lockTo {e : LockEvent} (hinit : s.initialised = true) (hb : b.born = true) (hq : b.surviving = false)
    (he : ∀ j p, e ≠ .dequeued j p) (hs : s.lockTo i b e = some (t,es)) : Keeps s t es := by
  rw [LockedPool.lockTo] at hs
  split at hs
  · cases hs
    exact .of_set hinit rfl hb (fun _ => hq) rfl rfl rfl
      (fun _ j p hmem => he j p (List.mem_singleton.mp hmem).symm)
  · cases hs

theorem Keeps.execute (hinit : s.initialised = true) (ha : s.threads[i]? = some a)
    (hs : s.execute i now a = some (t,es)) : Keeps s t es := by
  have hmem := List.mem_of_getElem? ha
  cases a with
  | unborn | waiting | inside p c | returned | terminated => cases hs
  | guard | relock | woken => exact .lockTo hinit rfl rfl (by simp) hs
  | outer survival =>
    cases survival with
    | true | false =>
      cases hs
      exact .of_set hinit rfl rfl (fun _ => rfl) rfl rfl rfl (by simp)
  | survey | resurvey =>
    cases hs
    exact .of_set hinit rfl rfl (fun hq => hq.state) rfl rfl rfl (by simp)
  | idleUp | wait | unguard =>
    cases hs
    exact .of_set hinit rfl rfl (fun _ => rfl) rfl rfl rfl (by simp)
  | inner survival =>
    cases hs
    refine .of_set hinit rfl (by split <;> rfl) (fun hq => ?_) rfl rfl rfl (fun _ j p => by split <;> simp)
    have hsurvival : survival = false := hq.threads _ hmem
    rw [hsurvival]
    rfl
  | idleDown survival =>
    cases hs
    exact .of_set hinit rfl rfl (fun hq => hq.threads (.idleDown survival) hmem) rfl rfl rfl (by simp)
  | take survival =>
    cases survival with
    | false =>
      cases hs
      exact .of_set hinit rfl rfl (fun _ => rfl) rfl rfl rfl (by simp)
    | true =>
      have hrun : s.Quits → False := fun hq => by cases hq.threads _ hmem
      have hs : s.takeTask i now = some (t,es) := hs
      rw [takeTask] at hs
      split at hs
      · cases hs
        exact .of_set hinit rfl rfl (fun _ => rfl) rfl rfl rfl (fun hq => (hrun hq).elim)
      · obtain ⟨u,-,hs⟩ := Option.map_eq_some_iff.mp hs
        cases hs
        exact .of_set hinit rfl rfl (fun _ => rfl) rfl rfl rfl (fun hq => (hrun hq).elim)
  | branch p =>
    obtain ⟨u,-,hs⟩ := Option.map_eq_some_iff.mp hs
    cases hs
    exact .of_set hinit rfl (by split <;> rfl) (fun _ => by split <;> rfl) rfl rfl rfl (by simp)
  | unlock p c =>
    cases hs
    exact .of_set hinit rfl rfl (fun _ => rfl) rfl rfl rfl (by simp)
  | call p c =>
    obtain ⟨u,-,hs⟩ := Option.map_eq_some_iff.mp hs
    split at hs
    · cases hs
      exact .of_set hinit rfl rfl (fun _ => rfl) rfl rfl rfl (by simp)
    · cases hs
      exact .of_set hinit rfl rfl (fun _ => rfl) rfl rfl rfl (by simp)

theorem Keeps.finish {o : Outcome} (hinit : s.initialised = true) (hs : s.finish i o = some (t,es)) :
    Keeps s t es := by
  obtain ⟨p,c,-,hend,⟨ht,rfl,-⟩ | ⟨ht,rfl,-⟩⟩ := finish_cases hs
  · exact .of_set hinit ht rfl (fun _ => rfl) hend.begun hend.joinable hend.state (by simp)
  · exact .of_set hinit ht rfl (fun _ => rfl) hend.begun hend.joinable hend.state (by simp)

theorem initialised_joinable (hinit : s.initialised = true) : s.joinable[i]? ≠ some true := by
  intro hi
  cases (initialised_iff.mp hinit).2.2.2 true (List.mem_of_getElem? hi)

theorem Keeps.executeAdd {k : ℕ} (hinit : s.initialised = true) (hs : s.executeAdd k s.adder = some (t,es)) :
    Keeps s t es := by
  have hadded := executeAdd_cases hs
  have hes : s.Quits → ∀ j p, .dequeued j p ∉ es := by simp [hadded.silent]
  rcases hadded.threads with ht | ⟨-,ht⟩
  · exact .of_same hinit hadded.begun ht (fun j hj => .inl (hadded.joinable ▸ hj)) (.inl hadded.state) hes
  · exact .of_set hinit ht rfl (fun _ => rfl) hadded.begun hadded.joinable hadded.state hes

theorem Keeps.executeStop (hinit : s.initialised = true) (hs : s.executeStop s.stop = some (t,es)) : Keeps s t es := by
  cases hp : s.stop with
  | idle =>
    rw [hp, LockedPool.executeStop, if_pos hinit] at hs
    cases hs
    exact .of_same hinit rfl rfl (fun _ => .inl) (.inl rfl) (by simp)
  | guard =>
    rw [hp, LockedPool.executeStop] at hs
    split at hs
    · cases hs
      exact .of_same hinit rfl rfl (fun _ => .inl) (.inl rfl) (by simp)
    · cases hs
  | store =>
    rw [hp] at hs
    cases hs
    exact .of_same hinit rfl rfl (fun _ => .inl) (.inr rfl) (by simp)
  | unguard | unwinding =>
    rw [hp] at hs
    cases hs
    exact .of_same hinit rfl rfl (fun _ => .inl) (.inl rfl) (by simp)
  | notify =>
    rw [hp] at hs
    cases hs
    refine .of_threads hinit rfl (fun hne hnil => hne (List.map_eq_nil_iff.mp hnil)) (fun b hb => ?_) (fun _ => .inl)
      (.inl rfl) (by simp)
    obtain ⟨a,ha,rfl⟩ := List.mem_map.mp hb
    cases a with
    | waiting => exact .inr ⟨rfl,fun _ => rfl⟩
    | _ => exact .inl ha
  | join k =>
    rw [hp, LockedPool.executeStop] at hs
    split at hs
    · cases hs
      exact .of_same hinit rfl rfl (fun _ => .inl) (.inl rfl) (by simp)
    · cases hs
      exact .of_same hinit rfl rfl (fun _ => .inl) (.inl rfl) (by simp)
    · rename_i hk
      exact absurd hk (initialised_joinable hinit)

theorem step_keeps {act : Action F} (hinit : s.initialised = true) (hs : s.step act = some (t,es)) :
    Keeps s t es := by
  cases act with
  | worker i now =>
    obtain ⟨a,ha,hs⟩ := Option.bind_eq_some_iff.mp hs
    exact .execute hinit ha hs
  | finish i o => exact .finish hinit hs
  | stop => exact .executeStop hinit hs
  | adder k => exact .executeAdd hinit hs
  | makeTask p f | makeExpiringTask p f e expiration now =>
    rw [step, construct] at hs
    split at hs
    · cases hs
      exact .of_same hinit rfl rfl (fun _ => .inl) (.inl rfl) (by simp)
    · cases hs
  | addTask p =>
    rw [step, addTask] at hs
    split at hs
    · cases hs
      exact .of_same hinit rfl rfl (fun _ => .inl) (.inl rfl) (by simp)
    · cases hs
  | init =>
    rw [step, init] at hs
    split at hs
    · rename_i hnil
      exact absurd hnil (initialised_iff.mp hinit).2.1
    · cases hs
  | initRun =>
    rw [step, initRun] at hs
    split at hs
    · rename_i hno
      have hbegun := (initialised_iff.mp hinit).1
      rw [hno.2] at hbegun
      cases hbegun
    · cases hs
  | spawn i =>
    rw [step, spawn] at hs
    split at hs
    · rename_i hi
      cases (initialised_iff.mp hinit).2.2.1 .unborn (List.mem_of_getElem? hi.2)
    · cases hs
  | detach i =>
    rw [step, detach] at hs
    split at hs
    · rename_i hi
      exact absurd hi (initialised_joinable hinit)
    · cases hs
  | spurious i =>
    rw [step] at hs
    split at hs
    · cases hs
      exact .of_set hinit rfl rfl (fun _ => rfl) rfl rfl rfl (by simp)
    · cases hs

/-- `Stop` gets no further than to its first join, and raises there. -/
structure Stopping (s : LockedPool F) : Prop where
  started : s.stop ≠ .idle → s.initialised = true
  first : ∀ k, s.stop = .join k → k = 0
  stays : s.stop ≠ .unguard

theorem Stopping.executeStop (h : Stopping s) (hsound : Sound s) (hs : s.executeStop s.stop = some (t,es)) :
    Stopping t ∧ .stopReturned ∉ es := by
  have hkeep : s.stop ≠ .idle → t.initialised = true := fun hne => (Keeps.executeStop (h.started hne) hs).initialised
  cases hp : s.stop with
  | idle =>
    rw [hp, LockedPool.executeStop] at hs
    split at hs
    · rename_i hinit
      cases hs
      exact ⟨⟨fun _ => hinit,by simp,by simp⟩,by simp⟩
    · cases hs
  | guard =>
    have hinit := hkeep (by simp [hp])
    rw [hp, LockedPool.executeStop] at hs
    split at hs
    · cases hs
      exact ⟨⟨fun _ => hinit,by simp,by simp⟩,by simp⟩
    · cases hs
  | store | unwinding =>
    have hinit := hkeep (by simp [hp])
    rw [hp] at hs
    cases hs
    exact ⟨⟨fun _ => hinit,by simp,by simp⟩,by simp⟩
  | notify =>
    have hinit := hkeep (by simp [hp])
    rw [hp] at hs
    cases hs
    exact ⟨⟨fun _ => hinit,fun k hk => (StopPoint.join.inj hk).symm,by simp⟩,by simp⟩
  | join k =>
    have hinit := h.started (by simp [hp])
    have hraises := hsound.joinable_zero hinit
    cases h.first k hp
    have hinit' := hkeep (by simp [hp])
    rw [hp, LockedPool.executeStop, hraises] at hs
    cases hs
    exact ⟨⟨fun _ => hinit',by simp,by simp⟩,by simp⟩
  | unguard => exact absurd hp h.stays

/-- The other threads do not move `Stop`. -/
theorem stop_of_step {act : Action F} (hact : act ≠ .stop) (hs : s.step act = some (t,es)) :
    t.stop = s.stop ∧ ∀ e ∈ es, ∃ i, e.thread = some i := by
  cases act with
  | worker i now =>
    obtain ⟨a,-,hs⟩ := Option.bind_eq_some_iff.mp hs
    obtain ⟨b,hmoved⟩ := execute_cases hs
    exact ⟨hmoved.stop,fun e he => ⟨i,hmoved.thread e he⟩⟩
  | finish i o =>
    obtain ⟨p,c,-,hend,⟨-,rfl,-⟩ | ⟨-,rfl,-⟩⟩ := finish_cases hs
    · exact ⟨hend.stop,by simp [LockEvent.thread]⟩
    · exact ⟨hend.stop,by simp [LockEvent.thread]⟩
  | stop => exact absurd rfl hact
  | adder k =>
    have hadded := executeAdd_cases hs
    exact ⟨hadded.stop,by simp [hadded.silent]⟩
  | makeTask _ _ | makeExpiringTask _ _ _ _ _ | addTask _ | init | initRun | spawn _ | detach _ | spurious _ =>
    simp only [step, construct, addTask, init, initRun, spawn, detach] at hs
    split at hs
    · cases hs
      exact ⟨rfl,by simp⟩
    · cases hs

theorem Stopping.step {act : Action F} (h : Stopping s) (hsound : Sound s) (hs : s.step act = some (t,es)) :
    Stopping t ∧ .stopReturned ∉ es := by
  by_cases hact : act = .stop
  · subst hact
    exact h.executeStop hsound hs
  · obtain ⟨hstop,hes⟩ := stop_of_step hact hs
    refine ⟨⟨fun hne => ?_,hstop ▸ h.first,hstop ▸ h.stays⟩,fun hmem => ?_⟩
    · exact (step_keeps (h.started (hstop ▸ hne)) hs).initialised
    · obtain ⟨i,hi⟩ := hes _ hmem
      cases hi

theorem stopping_of_runs {n : ThreadNum} (hr : (machine F n).Runs Machine.Any tr s) :
    Stopping s ∧ .stopReturned ∉ tr := by
  refine hr.invariant (I := fun tr s => Stopping s ∧ .stopReturned ∉ tr) ?_ ?_
  · rintro _ ⟨st,rfl⟩
    exact ⟨⟨by simp [LockedPool.new],by simp [LockedPool.new],by simp [LockedPool.new]⟩,by simp⟩
  · intro tr s act t es hr h _ hs
    obtain ⟨hstopping,hes⟩ := h.1.step (sound_of_runs hr) hs
    exact ⟨hstopping,by simp [h.2,hes]⟩

/-- `Stop` waits for no thread. -/
theorem not_deadlocked {n : ThreadNum} (hr : (machine F n).Runs Machine.Any tr s) : ¬ Deadlocked s := by
  rintro ⟨k,a,hk,hj,-⟩
  have hinit := (stopping_of_runs hr).1.started (by simp [hk])
  exact initialised_joinable hinit hj

/-- Where `Stop` stores the state, it has the mutex, so no worker is between its question and
the queue. -/
theorem Inv.quits_of_store (hi : Inv tr s) (hp : s.stop = .store) (hs : s.executeStop s.stop = some (t,es)) :
    Quits t := by
  have hm : s.mutex = some .stop := hi.stop.mp (by rw [hp]; rfl)
  rw [hp] at hs
  cases hs
  refine ⟨rfl,fun a ha => Bool.eq_false_iff.mpr (fun hsurviving => ?_)⟩
  obtain ⟨i,hat⟩ := List.mem_iff_getElem?.mp ha
  have hown := (hi.owns.at hat).mp (Point.holding_of_surviving hsurviving)
  rw [hm] at hown
  cases hown

/-- What follows from the store of the state. -/
structure Stored (tr : List LockEvent) (s : LockedPool F) : Prop where
  quits : .stopStored ∈ tr → s.initialised = true ∧ s.Quits
  dequeues : History.Each (fun pre e => .stopStored ∈ pre → ∀ i p, e ≠ .dequeued i p) tr

theorem stored_of_executeStop (hs : s.executeStop s.stop = some (t,es)) (hmem : .stopStored ∈ es) :
    s.stop = .store ∧ es = [.stopStored] := by
  cases hp : s.stop with
  | store =>
    rw [hp] at hs
    cases hs
    exact ⟨rfl,rfl⟩
  | idle | guard =>
    rw [hp, executeStop] at hs
    split at hs
    · cases hs
      simp at hmem
    · cases hs
  | notify | unguard | unwinding =>
    rw [hp] at hs
    cases hs
    simp at hmem
  | join k =>
    rw [hp, executeStop] at hs
    split at hs
    · cases hs
      cases hmem
    · cases hs
      cases hmem
    · split at hs
      · cases hs
        cases hmem
      · cases hs

theorem stored_of_mem {act : Action F} (hs : s.step act = some (t,es)) (hmem : .stopStored ∈ es) :
    s.stop = .store ∧ s.executeStop s.stop = some (t,es) ∧ es = [.stopStored] := by
  by_cases hact : act = .stop
  · subst hact
    obtain ⟨hp,hes⟩ := stored_of_executeStop hs hmem
    exact ⟨hp,hs,hes⟩
  · obtain ⟨i,hi⟩ := (stop_of_step hact hs).2 _ hmem
    cases hi

theorem Stored.step {act : Action F} (h : Stored tr s) (hi : Inv tr s) (hstopping : Stopping s)
    (hs : s.step act = some (t,es)) : Stored (tr ++ es) t := by
  refine ⟨fun hmem => ?_,h.dequeues.append (fun ys e zs heq hmem i p hd => ?_)⟩
  · rcases List.mem_append.mp hmem with hmem | hmem
    · obtain ⟨hinit,hq⟩ := h.quits hmem
      have hkeeps := step_keeps hinit hs
      exact ⟨hkeeps.initialised,hkeeps.quits hq⟩
    · obtain ⟨hp,hs',-⟩ := stored_of_mem hs hmem
      exact ⟨(step_keeps (hstopping.started (by simp [hp])) hs).initialised,hi.quits_of_store hp hs'⟩
  · subst hd
    rcases List.mem_append.mp hmem with hmem | hmem
    · obtain ⟨hinit,hq⟩ := h.quits hmem
      exact (step_keeps hinit hs).dequeues hq i p (heq ▸ List.mem_append_right ys List.mem_cons_self)
    · have hone := (stored_of_mem hs (heq ▸ List.mem_append_left _ hmem)).2.2
      rw [hone] at heq
      have hmem' : LockEvent.dequeued i p ∈ [LockEvent.stopStored] := heq ▸ List.mem_append_right ys List.mem_cons_self
      cases List.mem_singleton.mp hmem'

theorem stored_of_runs {n : ThreadNum} (hr : (machine F n).Runs Permitted tr s) : Stored tr s := by
  refine hr.invariant ?_ (fun tr s act t es hr h _ hs => ?_)
  · rintro _ ⟨st,rfl⟩
    exact ⟨fun h => (by cases h),History.each_nil⟩
  · exact h.step (inv_of_runs hr) (stopping_of_runs hr.any).1 hs

/-- Of what a shutdown is, the exception is all that `Stop` misses. -/
theorem shutsDown_iff {n : ThreadNum} (hr : (machine F n).Runs Permitted tr s) :
    ShutsDown tr s ↔ .stopRaised ∉ tr := by
  constructor
  · exact ShutsDown.raises
  · intro hraised
    refine ⟨fun pre post htr i p hmem => ?_,hraised,not_deadlocked hr.any,fun hret => ?_⟩
    · obtain ⟨ys,zs,rfl⟩ := List.append_of_mem hmem
      have hat := (stored_of_runs hr).dequeues (pre ++ .stopStored :: ys) (.dequeued i p) zs (by simp [htr])
      exact hat (by simp) i p rfl
    · exact absurd hret (stopping_of_runs hr.any).2

end LockedPool
end Kbms
