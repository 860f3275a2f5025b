import Kbms.Concurrency.WorkerLoop

/-! # The lock discipline of the workers

A worker has the mutex exactly at the statements where it should, in all runs. As long as no
expiry callback throws it comes back into its loop from every callback, and leaves it only when
`Stop` has stored its state. Nothing catches the exception of an expiry callback: the worker
does not lock the mutex again, and the process ends.
-/
namespace Kbms.LockedPool
open Foundation
variable {F : Type*} {s t : LockedPool F} {es tr : List LockEvent} {i j : ℕ} {a b : Point}

def ofThread (i : ℕ) (tr : List LockEvent) : List LockEvent := tr.filter (fun e => e.thread = some i)

/-- Event `e` of worker `i` comes next after `d`. -/
def Resumes (i : ℕ) (d e : LockEvent) : Prop := ∀ x ∈ d.next i, e = x

/-- `resumes`: after a callback a worker locks the mutex and begins the next round of its loop
before it does anything else. `live`: a worker that has been created lives, unless `Stop` has
stored its state and `operator()` has returned. -/
structure Disciplined (tr : List LockEvent) (s : LockedPool F) : Prop where
  clean : ∀ e ∈ tr, e.Clean
  resumes : ∀ i, (ofThread i tr).IsChain (Resumes i)
  live : ∀ (i : ℕ) a, s.threads[i]? = some a → a.born = true →
    a.live = true ∨ (.returned i ∈ tr ∧ .stopStored ∈ tr)

/-- No expiry callback throws. -/
def Permitted (_ : List LockEvent) (s : LockedPool F) : Action F → Prop
  | .finish i o => ∀ p, s.threads[i]? = some (.inside p .expireFun) → o = .returned
  | _ => True

section Owners

/-- Each thread knows whether it has the mutex. -/
structure Owned (s : LockedPool F) : Prop where
  owns : Mutex.Owns Point.holding Holder.worker s.threads s.mutex
  stop : s.stop.holding = true ↔ s.mutex = some .stop
  adder : s.adder.holding = true ↔ s.mutex = some .adder

theorem worker_injective : Function.Injective Holder.worker := fun _ _ h => Holder.worker.inj h

theorem Owned.holds_eq (h : Owned s) (ha : s.threads[i]? = some a) : s.holds i = a.holding := by
  rw [holds]
  cases hh : a.holding with
  | true => exact decide_eq_true ((h.owns.at ha).mp hh)
  | false =>
    refine decide_eq_false (fun hm => ?_)
    rw [(h.owns.at ha).mpr hm] at hh
    cases hh

/-- While a worker takes or gives the mutex, nobody else has it. -/
theorem Owned.others (h : Owned s) (hm : s.mutex = none ∨ s.mutex = some (.worker i)) :
    s.stop.holding = false ∧ s.adder.holding = false := by
  constructor
  all_goals
    refine Bool.eq_false_iff.mpr (fun hh => ?_)
  · have hown := h.stop.mp hh
    rcases hm with hm | hm <;> rw [hm] at hown <;> cases hown
  · have hown := h.adder.mp hh
    rcases hm with hm | hm <;> rw [hm] at hown <;> cases hown

theorem Owned.worker {now : TimePoint} (h : Owned s) (ha : s.threads[i]? = some a)
    (hs : s.execute i now a = some (t,es)) : Owned t := by
  obtain ⟨b,hmoved⟩ := execute_cases hs
  have hmutex : Mutex.Owns Point.holding Holder.worker (s.threads.set i b) t.mutex ∧
      (s.stop.holding = true ↔ t.mutex = some .stop) ∧ (s.adder.holding = true ↔ t.mutex = some .adder) := by
    have hshift := hmoved.shift
    have howns := h.owns
    generalize t.mutex = m at hshift
    cases hshift with
    | inner hb _ => exact ⟨howns.stay ha hb,h.stop,h.adder⟩
    | locks hfree hb _ _ =>
      rw [hfree] at howns
      obtain ⟨hstop,hadder⟩ := h.others (i := i) (.inl hfree)
      exact ⟨howns.lock worker_injective ha hb,by simp [hstop],by simp [hadder]⟩
    | unlocks hhold hb =>
      have hm := (howns.at ha).mp hhold
      rw [hm] at howns
      obtain ⟨hstop,hadder⟩ := h.others (.inr hm)
      refine ⟨howns.unlock worker_injective ?_,by simp [hstop],by simp [hadder]⟩
      rcases hb with rfl | ⟨p,c,rfl⟩ <;> rfl
    | returns hhold hb =>
      have hm := (howns.at ha).mp hhold
      rw [hm] at howns
      obtain ⟨hstop,hadder⟩ := h.others (.inr hm)
      subst hb
      exact ⟨howns.unlock worker_injective rfl,by simp [hstop],by simp [hadder]⟩
  rw [← hmoved.threads, ← hmoved.stop, ← hmoved.adder] at hmutex
  exact ⟨hmutex.1,hmutex.2.1,hmutex.2.2⟩

theorem Owned.finish {o : Outcome} (h : Owned s) (hs : s.finish i o = some (t,es)) : Owned t := by
  obtain ⟨p,c,ha,hend,hcases⟩ := finish_cases hs
  refine ⟨?_,by rw [hend.stop, hend.mutex]; exact h.stop,by rw [hend.adder, hend.mutex]; exact h.adder⟩
  rw [hend.mutex]
  rcases hcases with ⟨ht,-⟩ | ⟨ht,-⟩
  · rw [ht]
    exact h.owns.stay ha rfl
  · rw [ht]
    exact h.owns.stay ha rfl

/-- `AddTask` and `Stop` take the mutex from no worker. -/
theorem Handover.owners (hh : Handover s t) (h : Owned s) :
    (t.stop.holding = true ↔ t.mutex = some .stop) ∧ (t.adder.holding = true ↔ t.mutex = some .adder) ∧
      ∀ i, t.mutex = some (.worker i) ↔ s.mutex = some (.worker i) := by
  have hstop := h.stop
  have hadder := h.adder
  cases hh with
  | stays hm hs ha =>
    rw [hm, hs, ha]
    exact ⟨hstop,hadder,fun _ => Iff.rfl⟩
  | stopLocks hm hm' hs ha =>
    rw [hm] at hadder
    rw [hm', hs, ha, hm]
    exact ⟨by simp,by simpa using hadder,by simp⟩
  | stopUnlocks hheld hm' hs ha =>
    have hm := hstop.mp hheld
    rw [hm] at hadder
    rw [hm', hs, ha, hm]
    exact ⟨by simp,by simpa using hadder,by simp⟩
  | addLocks hm hm' ha hs =>
    rw [hm] at hstop
    rw [hm', ha, hs, hm]
    exact ⟨by simpa using hstop,by simp,by simp⟩
  | addUnlocks hheld hm' ha hs =>
    have hm := hadder.mp hheld
    rw [hm] at hstop
    rw [hm', ha, hs, hm]
    exact ⟨by simpa using hstop,by simp,by simp⟩

theorem Owned.quiet (h : Owned s) (hq : Quiet s t es) : Owned t := by
  obtain ⟨hstop,hadder,hworker⟩ := hq.handover.owners h
  refine ⟨h.owns.drift (fun i => ?_) hworker,hstop,hadder⟩
  rcases hq.drift i with hd | ⟨hx,hd⟩ | ⟨hx,hd⟩ | ⟨hx,hd⟩
  · rw [hd]
  all_goals
    rw [hx, hd]
    rfl

theorem Owned.step {act : Action F} (h : Owned s) (hs : s.step act = some (t,es)) : Owned t := by
  cases act with
  | worker i now =>
    obtain ⟨a,ha,hs⟩ := Option.bind_eq_some_iff.mp hs
    exact h.worker ha hs
  | finish i o => exact h.finish hs
  | makeTask _ _ | makeExpiringTask _ _ _ _ _ | addTask _ | adder _ | init | initRun | spawn _ | detach _
    | spurious _ | stop => exact h.quiet (quiet_cases (by simp) (by simp) hs)

theorem Owned.new (n : ThreadNum) (st : TPoolState) : Owned (new n st : LockedPool F) where
  owns := by simp [Mutex.Owns,LockedPool.new]
  stop := by simp [LockedPool.new,StopPoint.holding]
  adder := by simp [LockedPool.new,AddPoint.holding]

/-- The task of a call of `AddTask` has been built, and where it notifies it has found a waiter counted. -/
structure Adding (s : LockedPool F) : Prop where
  built : ∀ p ∈ s.adder.task, (s.tasks p).isSome = true
  counted : ∀ p, s.adder = .notify p → 0 < s.idleCount

theorem Adding.of_not_holding (h : s.adder.holding = false) : Adding s := by
  cases hp : s.adder with
  | outside => exact ⟨by simp [hp,AddPoint.task],by simp [hp]⟩
  | push _ | test _ | notify _ | unguard =>
    rw [hp] at h
    cases h

theorem Adding.of_same (h : Adding s) (hadder : t.adder = s.adder) (hidle : t.idleCount = s.idleCount)
    (htasks : ∀ p, (s.tasks p).isSome = true → (t.tasks p).isSome = true) : Adding t :=
  ⟨fun p hp => htasks p (h.built p (hadder ▸ hp)),fun p hp => hidle ▸ h.counted p (hadder ▸ hp)⟩

/-- While a call of `AddTask` has the mutex a worker touches neither the counter nor the tasks. -/
theorem Owned.execute_frame {now : TimePoint} (h : Owned s) (ha : s.threads[i]? = some a)
    (hs : s.execute i now a = some (t,es)) (hold : s.adder.holding = true) :
    t.idleCount = s.idleCount ∧ t.tasks = s.tasks := by
  have hm := h.adder.mp hold
  have hfree : a.holding ≠ true := by
    intro hh
    rw [(h.owns.at ha).mp hh] at hm
    cases hm
  cases a with
  | unborn | waiting | inside p c | returned | terminated => cases hs
  | guard | relock | woken =>
    simp only [execute, lockTo, hm] at hs
    cases hs
  | call p c =>
    obtain ⟨u,-,hs⟩ := Option.map_eq_some_iff.mp hs
    split at hs
    · cases hs
      exact ⟨rfl,rfl⟩
    · cases hs
      exact ⟨rfl,rfl⟩
  | outer _ | survey | inner _ | idleUp | wait | resurvey | idleDown _ | take _ | branch _ | unlock _ _ | unguard =>
    exact absurd rfl hfree

theorem Adding.worker {now : TimePoint} (h : Adding s) (ho : Owned s) (ha : s.threads[i]? = some a)
    (hs : s.execute i now a = some (t,es)) : Adding t := by
  obtain ⟨b,hmoved⟩ := execute_cases hs
  by_cases hold : s.adder.holding = true
  · obtain ⟨hidle,htasks⟩ := ho.execute_frame ha hs hold
    exact h.of_same hmoved.adder hidle (fun p hp => htasks ▸ hp)
  · rw [← hmoved.adder] at hold
    exact .of_not_holding (Bool.eq_false_iff.mpr hold)

theorem Adding.finish {o : Outcome} (h : Adding s) (hs : s.finish i o = some (t,es)) : Adding t := by
  obtain ⟨p,c,-,hend,-⟩ := finish_cases hs
  exact h.of_same hend.adder hend.idleCount hend.built

theorem Adding.executeAdd {k : ℕ} (h : Adding s) (hs : s.executeAdd k s.adder = some (t,es)) : Adding t := by
  have hbuilt := h.built
  cases hp : s.adder with
  | outside =>
    rw [hp] at hs
    cases hs
  | push p =>
    rw [hp] at hs hbuilt
    cases hs
    exact ⟨hbuilt,fun q hq => (by cases hq)⟩
  | test p =>
    rw [hp] at hs hbuilt
    cases hs
    split
    · rename_i hpos
      exact ⟨hbuilt,fun q _ => hpos⟩
    · exact ⟨fun q hq => (by cases hq),fun q hq => (by cases hq)⟩
  | notify p =>
    rw [hp] at hs
    obtain ⟨ts,-,hs⟩ := Option.map_eq_some_iff.mp hs
    cases hs
    exact ⟨fun q hq => (by cases hq),fun q hq => (by cases hq)⟩
  | unguard =>
    rw [hp] at hs
    cases hs
    exact ⟨fun q hq => (by cases hq),fun q hq => (by cases hq)⟩

theorem Adding.executeStop (h : Adding s) (hs : s.executeStop s.stop = some (t,es)) : Adding t := by
  cases hp : s.stop with
  | idle | guard =>
    rw [hp, LockedPool.executeStop] at hs
    split at hs
    · cases hs
      exact h.of_same rfl rfl (fun p hp => hp)
    · cases hs
  | store | notify | unguard | unwinding =>
    rw [hp] at hs
    cases hs
    exact h.of_same rfl rfl (fun p hp => hp)
  | join k =>
    rw [hp, LockedPool.executeStop] at hs
    split at hs
    · cases hs
      exact h.of_same rfl rfl (fun p hp => hp)
    · cases hs
      exact h.of_same rfl rfl (fun p hp => hp)
    · split at hs
      · cases hs
        exact h.of_same rfl rfl (fun p hp => hp)
      · cases hs

theorem Adding.step {act : Action F} (h : Adding s) (ho : Owned s) (hs : s.step act = some (t,es)) : Adding t := by
  cases act with
  | worker i now =>
    obtain ⟨a,ha,hs⟩ := Option.bind_eq_some_iff.mp hs
    exact h.worker ho ha hs
  | finish i o => exact h.finish hs
  | adder k => exact h.executeAdd hs
  | stop => exact h.executeStop hs
  | addTask p =>
    rw [LockedPool.step, addTask] at hs
    split at hs
    · rename_i hfree
      cases hs
      refine ⟨fun q hq => ?_,fun q hq => (by cases hq)⟩
      cases hq
      exact hfree.2
    · cases hs
  | makeTask _ _ | makeExpiringTask _ _ _ _ _ =>
    rw [LockedPool.step, construct] at hs
    split at hs
    · cases hs
      exact h.of_same rfl rfl (fun p hp => isSome_update hp)
    · cases hs
  | init | initRun | spawn _ | detach _ | spurious _ =>
    simp only [LockedPool.step, init, initRun, spawn, detach] at hs
    split at hs
    · cases hs
      exact h.of_same rfl rfl (fun p hp => hp)
    · cases hs

theorem Adding.new (n : ThreadNum) (st : TPoolState) : Adding (new n st : LockedPool F) := .of_not_holding rfl

end Owners

/-- `opened`, `begun` and `running`: the threads come after the store of the state in `Init`, which only
`Stop` overwrites. `pending`: a worker on its way from a callback into its loop owes the event. -/
structure Inv (tr : List LockEvent) (s : LockedPool F) : Prop extends Disciplined tr s, Owned s, Adding s where
  opened : s.begun = true → s.threads ≠ []
  begun : s.begun = false → ∀ (i : ℕ) a, s.threads[i]? = some a → a = .unborn
  running : s.begun = true → .stopStored ∉ tr → s.state = .run
  stopping : s.stop ≠ .idle → s.begun = true
  leaving : ∀ (i : ℕ) a, s.threads[i]? = some a → a.leaving = true → .stopStored ∈ tr
  pending : ∀ i, ∀ e ∈ (ofThread i tr).getLast?, ∀ x ∈ e.next i, ∃ a, s.threads[i]? = some a ∧ a.due i = some x

theorem ofThread_append (i : ℕ) (tr es : List LockEvent) : ofThread i (tr ++ es) = ofThread i tr ++ ofThread i es :=
  List.filter_append ..

theorem ofThread_self (h : ∀ e ∈ es, e.thread = some i) : ofThread i es = es := by
  refine List.filter_eq_self.mpr (fun e he => ?_)
  exact decide_eq_true (h e he)

theorem ofThread_other (h : ∀ e ∈ es, e.thread ≠ some i) : ofThread i es = [] := by
  refine List.filter_eq_nil_iff.mpr (fun e he hd => ?_)
  exact h e he (of_decide_eq_true hd)

theorem Inv.new (n : ThreadNum) (st : TPoolState) : Inv [] (new n st : LockedPool F) where
  toOwned := .new n st
  toAdding := .new n st
  clean := by simp
  resumes := fun _ => .nil
  live := by simp [LockedPool.new]
  opened := by simp [LockedPool.new]
  begun := by simp [LockedPool.new]
  running := by simp [LockedPool.new]
  stopping := by simp [LockedPool.new]
  leaving := by simp [LockedPool.new]
  pending := by simp [ofThread]

/-- The history of each worker goes on with the events of one of them. -/
theorem Inv.history (hi : Inv tr s) (ha : s.threads[i]? = some a) (ht : t.threads = s.threads.set i b)
    (hes : ∀ e ∈ es, e.thread = some i) (hchain : es.IsChain (Resumes i))
    (hdue : ∀ x, a.due i = some x → es = [x]) (hlast : ∀ e ∈ es.getLast?, ∀ x ∈ e.next i, b.due i = some x) :
    (∀ j, (ofThread j (tr ++ es)).IsChain (Resumes j)) ∧
    ∀ j, ∀ e ∈ (ofThread j (tr ++ es)).getLast?, ∀ x ∈ e.next j, ∃ c, t.threads[j]? = some c ∧ c.due j = some x := by
  have hlt : i < s.threads.length := (List.getElem?_eq_some_iff.mp ha).1
  have hpending : ∀ e ∈ (ofThread i tr).getLast?, ∀ x ∈ e.next i, es = [x] := by
    intro e he x hx
    obtain ⟨c,hc,hdue'⟩ := hi.pending i e he x hx
    rw [ha] at hc
    cases hc
    exact hdue x hdue'
  refine ⟨fun j => ?_,fun j e he x hx => ?_⟩
  · rw [ofThread_append]
    by_cases hj : j = i
    · subst hj
      rw [ofThread_self hes, List.isChain_append]
      refine ⟨hi.resumes j,hchain,fun d hd e he x hx => ?_⟩
      rw [hpending d hd x hx] at he
      exact (Option.some.inj he).symm
    · have hnil : ofThread j es = [] := ofThread_other (fun e he h => hj (Option.some.inj (h.symm.trans (hes e he))))
      rw [hnil, List.append_nil]
      exact hi.resumes j
  · rw [ofThread_append] at he
    by_cases hj : j = i
    · subst hj
      rw [ofThread_self hes, List.getLast?_append] at he
      refine ⟨b,by rw [ht, List.getElem?_set_self hlt],?_⟩
      cases hl : es.getLast? with
      | some d =>
        rw [hl] at he
        cases he
        exact hlast e hl x hx
      | none =>
        rw [hl] at he
        have hnil := List.getLast?_eq_none_iff.mp hl
        have hone := hpending e he x hx
        rw [hnil] at hone
        cases hone
    · have hnil : ofThread j es = [] := ofThread_other (fun e he h => hj (Option.some.inj (h.symm.trans (hes e he))))
      rw [hnil, List.append_nil] at he
      obtain ⟨c,hc,hdue'⟩ := hi.pending j e he x hx
      exact ⟨c,by rw [ht, List.getElem?_set_ne (Ne.symm hj), hc],hdue'⟩

theorem chain_of_next (h : ∀ e ∈ es, e.next i = none) : es.IsChain (Resumes i) := by
  refine (List.pairwise_of_forall_mem_list (fun d hd e _ x hx => ?_)).isChain
  rw [h d hd] at hx
  cases hx

theorem within_next {e : LockEvent} {held : Bool} (h : e.Within i a held) (j : ℕ) : e.next j = none := by
  cases e with
  | relocked _ | left _ _ _ _ => exact h.elim
  | _ => rfl

/-- What a statement leaves on record, when the worker has the mutex exactly where it should. -/
theorem Shift.record {m : Option Holder} (h : Shift s i a b m es) (hheld : s.holds i = a.holding) :
    (∀ e ∈ es, e.Clean) ∧ es.IsChain (Resumes i) ∧ ∀ e ∈ es.getLast?, ∀ x ∈ e.next i, b.due i = some x := by
  have hsilent : (∀ e ∈ es, e.next i = none) →
      es.IsChain (Resumes i) ∧ ∀ e ∈ es.getLast?, ∀ x ∈ e.next i, b.due i = some x := by
    refine fun hnone => ⟨chain_of_next hnone,fun e he x hx => ?_⟩
    rw [hnone e (List.mem_of_getLast? he)] at hx
    cases hx
  cases h with
  | inner hb hes =>
    refine ⟨fun e he => ?_,hsilent (fun e he => within_next (hes e he) i)⟩
    have hw := hes e he
    cases e with
    | accessed j held | entered j p c held =>
      obtain ⟨-,hhold,rfl⟩ := hw
      exact hheld.trans hhold
    | looped j | dequeued j p => trivial
    | locked _ | relocked _ | unlocked _ _ | left _ _ _ _ | returned _ | escaped _ | stopCalled | stopStored
      | stopRaised | stopReturned => exact hw.elim
  | locks hfree hb he hnext =>
    refine ⟨fun d hd => ?_,.singleton _,fun d hd => ?_⟩
    · rw [List.mem_singleton.mp hd]
      rcases he with rfl | rfl <;> trivial
    · cases hd
      exact hnext
  | unlocks ha hb =>
    refine ⟨fun e he => ?_,hsilent (by simp [LockEvent.next])⟩
    rw [List.mem_singleton.mp he]
    exact hheld.trans ha
  | returns ha hb =>
    refine ⟨fun e he => ?_,hsilent (by simp [LockEvent.next])⟩
    rcases List.mem_cons.mp he with rfl | he
    · exact hheld.trans ha
    · rw [List.mem_singleton.mp he]
      trivial

theorem Inv.clean_append (hi : Inv tr s) (hes : ∀ e ∈ es, e.Clean) : ∀ e ∈ tr ++ es, e.Clean := by
  intro e he
  exact (List.mem_append.mp he).elim (hi.clean e) (hes e)

/-- The other threads stay where they are. -/
theorem Inv.live_set (hi : Inv tr s) (ht : t.threads = s.threads.set i b)
    (hb : b.live = true ∨ (.returned i ∈ tr ++ es ∧ .stopStored ∈ tr ++ es)) :
    ∀ (j : ℕ) c, t.threads[j]? = some c → c.born = true →
      c.live = true ∨ (.returned j ∈ tr ++ es ∧ .stopStored ∈ tr ++ es) := by
  intro j c hj hborn
  rw [ht] at hj
  rcases Roster.getElem?_set_cases hj with ⟨rfl,rfl⟩ | ⟨-,hj⟩
  · exact hb
  · exact (hi.live j c hj hborn).imp id (.imp (List.mem_append_left es) (List.mem_append_left es))

theorem Inv.leaving_set (hi : Inv tr s) (ht : t.threads = s.threads.set i b)
    (hb : b.leaving = true → .stopStored ∈ tr) :
    ∀ (j : ℕ) c, t.threads[j]? = some c → c.leaving = true → .stopStored ∈ tr ++ es := by
  intro j c hj hleaving
  rw [ht] at hj
  rcases Roster.getElem?_set_cases hj with ⟨rfl,rfl⟩ | ⟨-,hj⟩
  · exact List.mem_append_left es (hb hleaving)
  · exact List.mem_append_left es (hi.leaving j c hj hleaving)

/-- A thread that has been created was created by `Init`, after its store. -/
theorem Inv.begun_of_born (hi : Inv tr s) (ha : s.threads[i]? = some a) (hborn : a.born = true) : s.begun = true := by
  by_contra hno
  rw [hi.begun (Bool.eq_false_iff.mpr hno) i a ha] at hborn
  cases hborn

theorem Inv.stored_of_isSurvival (hi : Inv tr s) (ha : s.threads[i]? = some a) (hborn : a.born = true)
    (hoff : s.isSurvival = false) : .stopStored ∈ tr := by
  by_contra hno
  exact of_decide_eq_false hoff (hi.running (hi.begun_of_born ha hborn) hno)

theorem execute_born {now : TimePoint} (hs : s.execute i now a = some (t,es)) : a.born = true := by
  cases a with
  | unborn => cases hs
  | _ => rfl

theorem leaving_of_not_live (hborn : b.born = true) (hlive : b.live ≠ true) : b.leaving = true := by
  cases b with
  | unborn => cases hborn
  | returned | terminated => rfl
  | _ => exact absurd rfl hlive

theorem Inv.worker {now : TimePoint} (hi : Inv tr s) (ha : s.threads[i]? = some a)
    (hs : s.execute i now a = some (t,es)) : Inv (tr ++ es) t := by
  obtain ⟨b,hmoved⟩ := execute_cases hs
  have ht := hmoved.threads
  have hborn := execute_born hs
  obtain ⟨hclean,hchain,hlast⟩ := hmoved.shift.record (hi.holds_eq ha)
  obtain ⟨hresumes,hpending⟩ := hi.history ha ht hmoved.thread hchain hmoved.due hlast
  have hleaving : b.leaving = true → .stopStored ∈ tr := fun hl =>
    (hmoved.leaving hl).elim (hi.leaving i a ha) (hi.stored_of_isSurvival ha hborn)
  have hlive : b.live = true ∨ (.returned i ∈ tr ++ es ∧ .stopStored ∈ tr ++ es) := by
    by_cases hb : b.live = true
    · exact .inl hb
    · have hret := hmoved.live.resolve_left hb
      have hstored := hleaving (leaving_of_not_live hmoved.born hb)
      exact .inr ⟨List.mem_append_right tr hret,List.mem_append_left es hstored⟩
  refine ⟨⟨hi.clean_append hclean,hresumes,hi.live_set ht hlive⟩,hi.toOwned.worker ha hs,
    hi.toAdding.worker hi.toOwned ha hs,fun hb hnil => ?_,
    fun hno => ?_,fun hb hstored => ?_,fun hne => ?_,hi.leaving_set ht hleaving,hpending⟩
  · rw [ht] at hnil
    exact hi.opened (hmoved.begun ▸ hb) ((List.set_eq_nil_iff i b).mp hnil)
  · rw [hmoved.begun, hi.begun_of_born ha hborn] at hno
    cases hno
  · rw [hmoved.state]
    exact hi.running (hmoved.begun ▸ hb) (fun hmem => hstored (List.mem_append_left es hmem))
  · exact hmoved.begun.trans (hi.stopping (hmoved.stop ▸ hne))

theorem Inv.finish {o : Outcome} (hi : Inv tr s) (hp : Permitted tr s (.finish i o))
    (hs : s.finish i o = some (t,es)) : Inv (tr ++ es) t := by
  have howned := hi.toOwned.finish hs
  obtain ⟨p,c,ha,hend,⟨ht,rfl,-⟩ | ⟨-,-,rfl,rfl⟩⟩ := finish_cases hs
  · have hthread : ∀ e ∈ [LockEvent.left i p c o], e.thread = some i := by simp [LockEvent.thread]
    obtain ⟨hresumes,hpending⟩ := hi.history ha ht hthread (.singleton _)
      (fun x hx => (by cases hx)) (fun e he x hx => (by cases he; exact hx))
    refine ⟨⟨hi.clean_append (by simp [LockEvent.Clean]),hresumes,hi.live_set ht (.inl rfl)⟩,howned,
      hi.toAdding.finish hs,fun hb hnil => ?_,fun hno => ?_,fun hb hstored => ?_,fun hne => ?_,
      hi.leaving_set ht (fun hl => (by cases hl)),hpending⟩
    · rw [ht] at hnil
      exact hi.opened (hend.begun ▸ hb) ((List.set_eq_nil_iff i _).mp hnil)
    · rw [hend.begun, hi.begun_of_born ha rfl] at hno
      cases hno
    · rw [hend.state]
      exact hi.running (hend.begun ▸ hb) (fun hmem => hstored (List.mem_append_left _ hmem))
    · exact hend.begun.trans (hi.stopping (hend.stop ▸ hne))
  · cases hp p ha

theorem Drift.point {x y : Option Point} (h : Drift x y) (hb : y = some b) :
    x = some b ∨ b = .woken ∨ b = .guard ∨ b = .unborn := by
  subst hb
  rcases h with h | ⟨-,h⟩ | ⟨-,h⟩ | ⟨-,h⟩
  · exact .inl h.symm
  · exact .inr (.inl (Option.some.inj h))
  · exact .inr (.inr (.inl (Option.some.inj h)))
  · exact .inr (.inr (.inr (Option.some.inj h)))

/-- A thread that owes an event is not moved by others. -/
theorem Drift.due_kept {x y : Option Point} {e : LockEvent} (h : Drift x y) (hx : x = some a)
    (hdue : a.due i = some e) : y = some a := by
  subst hx
  rcases h with h | ⟨h,-⟩ | ⟨h,-⟩ | ⟨h,-⟩
  · exact h
  · cases h
    cases hdue
  · cases h
    cases hdue
  · cases h

theorem Quiet.begun_of (hq : Quiet s t es) (hno : t.begun = false) : s.begun = false := by
  cases hq.restated with
  | same _ hb => exact hb ▸ hno
  | begins _ _ _ hb =>
    rw [hb] at hno
    cases hno
  | stops _ hb => exact hb ▸ hno

theorem Quiet.ne_nil (hq : Quiet s t es) (hne : s.threads ≠ []) : t.threads ≠ [] := by
  intro hnil
  have hd := hq.drift 0
  rw [hnil, List.getElem?_nil, List.getElem?_eq_getElem (List.length_pos_iff.mpr hne)] at hd
  rcases hd with h | ⟨-,h⟩ | ⟨-,h⟩ | ⟨-,h⟩ <;> cases h

theorem Inv.quiet (hi : Inv tr s) (hq : Quiet s t es) (hadding : Adding t) : Inv (tr ++ es) t := by
  have hnil : ∀ i, ofThread i es = [] := fun i => ofThread_other (fun e he hd => (by rw [hq.silent e he] at hd; cases hd))
  have hsame : ∀ i, ofThread i (tr ++ es) = ofThread i tr := by
    intro i
    rw [ofThread_append, hnil, List.append_nil]
  refine ⟨⟨hi.clean_append (fun e he => ?_),fun i => ?_,fun i c hc hborn => ?_⟩,hi.toOwned.quiet hq,hadding,
    fun hb => ?_,fun hno i c hc => ?_,fun hb hstored => ?_,fun hne => ?_,fun i c hc hl => ?_,fun i e he x hx => ?_⟩
  · have hsilent := hq.silent e he
    cases e with
    | stopCalled | stopStored | stopRaised | stopReturned => trivial
    | accessed _ _ | locked _ | relocked _ | looped _ | unlocked _ _ | dequeued _ _ | entered _ _ _ _
      | left _ _ _ _ | returned _ | escaped _ => cases hsilent
  · rw [hsame]
    exact hi.resumes i
  · rcases (hq.drift i).point hc with hold | rfl | rfl | rfl
    · exact (hi.live i c hold hborn).imp id (.imp (List.mem_append_left es) (List.mem_append_left es))
    · exact .inl rfl
    · exact .inl rfl
    · cases hborn
  · cases hq.restated with
    | same _ hbegun | stops _ hbegun => exact hq.ne_nil (hi.opened (hbegun ▸ hb))
    | begins hthreads hne _ _ => exact hthreads ▸ hne
  · have hs := hq.begun_of hno
    rcases hq.drift i with hd | ⟨hx,-⟩ | ⟨hx,hd⟩ | ⟨-,hd⟩
    · exact hi.begun hs i c (hd ▸ hc)
    · cases hi.begun hs i _ hx
    · rcases hq.spawned i hx with hkeep | hb
      · rw [hkeep, hx] at hc
        cases hc
        rfl
      · rw [hs] at hb
        cases hb
    · rw [hd] at hc
      cases hc
      rfl
  · have hno : .stopStored ∉ tr := fun hmem => hstored (List.mem_append_left es hmem)
    cases hq.restated with
    | same hstate hbegun =>
      rw [hstate]
      exact hi.running (hbegun ▸ hb) hno
    | begins _ _ hstate _ => exact hstate
    | stops hes _ => exact absurd (List.mem_append_right tr hes) hstored
  · have hb : s.begun = true := (hq.called hne).elim hi.stopping id
    cases hq.restated with
    | same _ hbegun | stops _ hbegun => exact hbegun.trans hb
    | begins _ _ _ hbegun => exact hbegun
  · rcases (hq.drift i).point hc with hold | rfl | rfl | rfl
    · exact List.mem_append_left es (hi.leaving i c hold hl)
    all_goals cases hl
  · rw [hsame] at he
    obtain ⟨c,hc,hdue⟩ := hi.pending i e he x hx
    exact ⟨c,(hq.drift i).due_kept hc hdue,hdue⟩

theorem Inv.step {act : Action F} (hi : Inv tr s) (hp : Permitted tr s act) (hs : s.step act = some (t,es)) :
    Inv (tr ++ es) t := by
  cases act with
  | worker i now =>
    obtain ⟨a,ha,hs⟩ := Option.bind_eq_some_iff.mp hs
    exact hi.worker ha hs
  | finish i o => exact hi.finish hp hs
  | makeTask _ _ | makeExpiringTask _ _ _ _ _ | addTask _ | adder _ | init | initRun | spawn _ | detach _
    | spurious _ | stop =>
    exact hi.quiet (quiet_cases (by simp) (by simp) hs) (hi.toAdding.step hi.toOwned hs)

theorem inv_of_runs {n : ThreadNum} (hr : (machine F n).Runs Permitted tr s) : Inv tr s := by
  refine hr.invariant ?_ (fun tr s a t es _ hi hp hs => hi.step hp hs)
  rintro _ ⟨st,rfl⟩
  exact .new n st

/-- In every run in which no expiry callback throws, whatever the other callbacks do. -/
theorem lock_discipline {n : ThreadNum} (hr : (machine F n).Runs Permitted tr s) : Disciplined tr s :=
  (inv_of_runs hr).toDisciplined

theorem runs_new {P : List LockEvent → LockedPool F → Action F → Prop} (n : ThreadNum) (st : TPoolState) :
    (machine F n).Runs P [] (new n st) := .start ⟨st,rfl⟩

def permits (_ : List LockEvent) (s : LockedPool Unit) : Action Unit → Bool
  | .finish i o =>
    match s.threads[i]? with
    | some (.inside _ .expireFun) => o = .returned
    | _ => true
  | _ => true

theorem permitted_of_permits (tr : List LockEvent) (s : LockedPool Unit) (act : Action Unit)
    (h : permits tr s act = true) : Permitted tr s act := by
  cases act with
  | finish i o =>
    intro p hp
    rw [permits, hp] at h
    exact of_decide_eq_true h
  | makeTask _ _ | makeExpiringTask _ _ _ _ _ | addTask _ | adder _ | init | initRun | spawn _ | detach _
    | spurious _ | stop | worker _ _ => trivial

/-- `Init` of a pool of two workers, up to its loop's last thread. -/
def opens : List (Action Unit) := [.init,.initRun,.spawn 0,.spawn 1]

/-- A whole call of `AddTask`, while nobody waits. -/
def adds (p : TaskPtr) : List (Action Unit) := [.addTask p,.adder 0,.adder 0,.adder 0]

/-- A worker that takes a task and enters its callback, when the clock shows `now`. -/
def enters (i : ℕ) (now : TimePoint) : List (Action Unit) := List.replicate 8 (.worker i now)

def entersEvents (c : Callback) : List LockEvent :=
  [.locked 0,.looped 0,.accessed 0 true,.accessed 0 true,.accessed 0 true,.dequeued 0 0,.accessed 0 true,
    .unlocked 0 true,.entered 0 0 c false]

/-- A throwing task, after which the worker goes on. -/
theorem lock_discipline_throwing_task : ∃ tr, ∃ s : LockedPool Unit,
    (machine Unit .two).Runs Permitted tr s ∧
    tr = entersEvents .taskFun ++ [.left 0 0 .taskFun .threw,.relocked 0,.looped 0] ∧ Disciplined tr s := by
  obtain ⟨c,hc,htr⟩ : ∃ c, (machine Unit .two).replay permits
      (opens ++ .makeTask 0 (some ()) :: adds 0 ++ enters 0 0 ++
        [.finish 0 .threw,.worker 0 0,.worker 0 0]) ([],new .two .unknowing) = some c ∧
      c.1 = entersEvents .taskFun ++ [.left 0 0 .taskFun .threw,.relocked 0,.looped 0] := ⟨_,rfl,rfl⟩
  have hr := Machine.replay_runs permitted_of_permits (runs_new .two .unknowing) hc
  exact ⟨_,_,hr,htr,lock_discipline hr⟩

/-- The exception of an expiry callback leaves `operator()`, and takes the process with it. -/
theorem throwing_expiry_escapes : ∃ tr, ∃ s : LockedPool Unit,
    (machine Unit .two).Runs Machine.Any tr s ∧
    tr = entersEvents .expireFun ++ [.left 0 0 .expireFun .threw,.escaped 0] ∧
    s.threads[0]? = some .terminated ∧ ¬ Disciplined tr s := by
  obtain ⟨c,hc,htr,ht⟩ : ∃ c, (machine Unit .two).replay (fun _ _ _ => true)
      (opens ++ .makeExpiringTask 0 (some ()) (some ()) 1 0 :: adds 0 ++ enters 0 2000000 ++
        [.finish 0 .threw]) ([],new .two .unknowing) = some c ∧
      c.1 = entersEvents .expireFun ++ [.left 0 0 .expireFun .threw,.escaped 0] ∧
      c.2.threads[0]? = some .terminated := ⟨_,rfl,rfl,rfl⟩
  have hr := Machine.replay_runs (P := Machine.Any) (fun _ _ _ _ => trivial) (runs_new .two .unknowing) hc
  refine ⟨_,_,hr,htr,ht,fun h => ?_⟩
  exact h.clean (.escaped 0) (by rw [htr]; simp)

end Kbms.LockedPool
