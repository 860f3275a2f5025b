import Kbms.Concurrency.LockDiscipline
import Kbms.Foundation.Owned

/-! # Destroying the components that have threads

The pool does not wait for its detached workers. `Interact` stops its thread after it has
released what the thread uses, and `ConfigLoader` does not stop its thread at all.
-/
namespace Kbms
open Foundation

namespace Interact

/-- `~Interact`: it deletes `impl_`, calls `Stop`, and destroys its members. -/
def destructor : List OwnerStatement := [.release,.stop,.join,.drop]

/-- A round sends the heartbeat and asks for the list. -/
def lastPiece : ℕ := 1

def ownedMachine : Machine Owned OwnedAction OwnedEvent := Owned.machine lastPiece destructor

/-- `impl_` is deleted outside of a round and no round begins after that, and the thread
has set its flag before the destructor clears it. -/
def Permitted (_ : List OwnedEvent) (s : Owned) : OwnedAction → Prop
  | .owner => s.destroying = true →
    (s.todo.head? = some .release → ∀ k, s.thread.phase ≠ .working k) ∧
    (s.todo.head? = some .stop → s.thread.phase ≠ .created)
  | .thread => s.released = true → s.thread.phase = .checking → s.thread.on = false
  | _ => True

/-- Where the destructor stands, and what the thread can do there. -/
inductive Stage (s : Owned) : Prop
  | before (h : s.Before)
  | entered (hd : s.destroying = true) (hr : s.released = false) (htodo : s.todo = destructor)
  | released (hd : s.destroying = true) (hr : s.released = true) (htodo : s.todo = [.stop,.join,.drop])
      (hrest : ∀ k, s.thread.phase ≠ .working k)
  | stopped (hd : s.destroying = true) (hr : s.released = true) (htodo : s.todo = [.join,.drop])
      (hrest : ∀ k, s.thread.phase ≠ .working k)
      (hoff : s.thread.joinable = true → s.thread.on = false ∧ s.thread.phase ≠ .created)
  | joined (hd : s.destroying = true) (hr : s.released = true) (htodo : s.todo = [.drop] ∨ s.todo = [])
      (habs : s.thread.phase = .absent)

variable {tr es : List OwnedEvent} {s t : Owned}

theorem stage_thread (h : Stage s) (hd : s.destroying = true) (hp : Permitted tr s .thread)
    (hs : s.step lastPiece destructor .thread = some (t,es)) : Stage t ∧ Owned.StepSafe s es t := by
  obtain ⟨v,hv,rfl,rfl⟩ := Owned.thread_cases hs
  cases h with
  | before h =>
    rw [h.destroying] at hd
    cases hd
  | entered hd hr htodo => exact ⟨.entered hd hr htodo,Owned.stepSafe_uses _ hr⟩
  | released hd hr htodo hrest =>
    rw [Owned.uses_eq_nil hrest]
    exact ⟨.released hd hr htodo (LoopThread.advance_rests hrest (hp hr) hv),Owned.stepSafe_nil rfl⟩
  | stopped hd hr htodo hrest hoff =>
    rw [Owned.uses_eq_nil hrest]
    refine ⟨.stopped hd hr htodo (LoopThread.advance_rests hrest (hp hr) hv) (fun _ => ?_),Owned.stepSafe_nil rfl⟩
    have hjoinable : s.thread.joinable = true := by
      refine decide_eq_true (fun habs => ?_)
      rw [LoopThread.advance, habs] at hv
      cases hv
    obtain ⟨hon,hcre⟩ := hoff hjoinable
    obtain ⟨hon',-,hcre'⟩ := LoopThread.advance_off hon hcre hv
    exact ⟨hon',hcre'⟩
  | joined hd hr htodo habs =>
    rw [LoopThread.advance, habs] at hv
    cases hv

theorem stage_owner (h : Stage s) (hd : s.destroying = true) (hp : Permitted tr s .owner)
    (hs : s.step lastPiece destructor .owner = some (t,es)) : Stage t ∧ Owned.StepSafe s es t := by
  obtain ⟨stmt,rest,htodo',hs⟩ := Owned.owner_cases hs
  cases h with
  | before h =>
    rw [h.destroying] at hd
    cases hd
  | entered hd hr htodo =>
    have hrest := (hp hd).1 (by rw [htodo]; rfl)
    rw [htodo', destructor] at htodo
    cases htodo
    cases hs
    exact ⟨.released hd rfl rfl hrest,by simp,fun _ => ⟨by simp,rfl⟩⟩
  | released hd hr htodo hrest =>
    have hcre := (hp hd).2 (by rw [htodo]; rfl)
    rw [htodo'] at htodo
    cases htodo
    cases hs
    exact ⟨.stopped hd hr rfl hrest (fun _ => ⟨rfl,hcre⟩),Owned.stepSafe_nil rfl⟩
  | stopped hd hr htodo hrest hoff =>
    rw [htodo'] at htodo
    cases htodo
    obtain ⟨rfl,ht,hr',hd',habs⟩ := Owned.join_cases hs
    exact ⟨.joined (hd'.trans hd) (hr'.trans hr) (.inl ht) habs,Owned.stepSafe_nil hr'⟩
  | joined hd hr htodo habs =>
    rw [htodo'] at htodo
    rcases htodo with h | h
    · cases h
      cases hs
      have hj : s.thread.joinable = false := decide_eq_false (not_not.mpr habs)
      refine ⟨.joined hd hr (.inr rfl) habs,?_,fun _ => ⟨by simp,hr⟩⟩
      rw [hj]
      simp
    · cases h

theorem stage_step {a : OwnedAction} (h : Stage s) (hp : Permitted tr s a)
    (hs : s.step lastPiece destructor a = some (t,es)) : Stage t ∧ Owned.StepSafe s es t := by
  by_cases hd : s.destroying = true
  · rcases Owned.destroying_cases hd hs with rfl | rfl
    · exact stage_owner h hd hp hs
    · exact stage_thread h hd hp hs
  · cases h with
    | entered hd' _ _ | released hd' _ _ _ | stopped hd' _ _ _ _ | joined hd' _ _ _ => exact absurd hd' hd
    | before h =>
      by_cases ha : a = .destroy
      · cases ha
        obtain ⟨rfl,rfl⟩ := Owned.destroy_cases hs
        exact ⟨.entered rfl h.released rfl,Owned.stepSafe_nil rfl⟩
      · obtain ⟨hbefore,hsafe⟩ := h.step ha hs
        exact ⟨.before hbefore,hsafe⟩

theorem finishes (h : Stage s) : Owned.Finishes lastPiece s := by
  intro hd hhead hj
  cases h with
  | before h =>
    rw [h.destroying] at hd
    cases hd
  | entered _ _ htodo | released _ _ htodo _ =>
    rw [htodo] at hhead
    cases hhead
  | stopped _ _ _ _ hoff =>
    obtain ⟨hon,hcre⟩ := hoff hj
    exact LoopThread.ends_iff.mpr (.inr ⟨hon,of_decide_eq_true hj,hcre⟩)
  | joined _ _ _ habs => exact absurd habs (of_decide_eq_true hj)

theorem owned_safe (hr : ownedMachine.Runs Permitted tr s) :
    Owned.Safe tr ∧ Owned.Finishes lastPiece s := by
  have hstart : ∀ s, ownedMachine.initial s → Stage s := by
    rintro s rfl
    exact .before Owned.before_new
  obtain ⟨hstage,hsafe⟩ := Owned.safe_of_runs Stage (fun s => s.released = true) hstart
    (fun tr s a t es hi hp hs => stage_step hi hp hs) hr
  exact ⟨hsafe,finishes hstage⟩

end Interact

namespace ConfigLoader

/-- `~ConfigLoader`: it deletes `config_` and `http_curl_`, and destroys its members. -/
def destructor : List OwnerStatement := [.release,.drop]

/-- A round fetches with `http_curl_` and swaps `config_`. -/
def lastPiece : ℕ := 1

def ownedMachine : Machine Owned OwnedAction OwnedEvent := Owned.machine lastPiece destructor

/-- The thread has been joined before. -/
def Permitted (_ : List OwnedEvent) (s : Owned) : OwnedAction → Prop
  | .destroy => s.thread.phase = .absent
  | _ => True

/-- In the destructor there is no thread. -/
inductive Stage (s : Owned) : Prop
  | before (h : s.Before)
  | destroying (hd : s.destroying = true) (hr : .release ∈ s.todo ∨ s.released = true)
      (htodo : s.todo = destructor ∨ s.todo = [.drop] ∨ s.todo = []) (habs : s.thread.phase = .absent)

variable {tr es : List OwnedEvent} {s t : Owned}

theorem stage_owner (h : Stage s) (hd : s.destroying = true)
    (hs : s.step lastPiece destructor .owner = some (t,es)) : Stage t ∧ Owned.StepSafe s es t := by
  obtain ⟨stmt,rest,htodo',hs⟩ := Owned.owner_cases hs
  cases h with
  | before h =>
    rw [h.destroying] at hd
    cases hd
  | destroying hd hr htodo habs =>
    rw [htodo'] at htodo hr
    rcases htodo with h | h | h
    · rw [destructor] at h
      cases h
      cases hs
      exact ⟨.destroying hd (.inr rfl) (.inr (.inl rfl)) habs,by simp,fun _ => ⟨by simp,rfl⟩⟩
    · cases h
      cases hs
      have hrel : s.released = true := by simpa using hr
      have hj : s.thread.joinable = false := decide_eq_false (not_not.mpr habs)
      refine ⟨.destroying hd (.inr hrel) (.inr (.inr rfl)) habs,?_,fun _ => ⟨by simp,hrel⟩⟩
      rw [hj]
      simp
    · cases h

theorem stage_step {a : OwnedAction} (h : Stage s) (hp : Permitted tr s a)
    (hs : s.step lastPiece destructor a = some (t,es)) : Stage t ∧ Owned.StepSafe s es t := by
  by_cases hd : s.destroying = true
  · rcases Owned.destroying_cases hd hs with rfl | rfl
    · exact stage_owner h hd hs
    · obtain ⟨v,hv,rfl,rfl⟩ := Owned.thread_cases hs
      cases h with
      | before h =>
        rw [h.destroying] at hd
        cases hd
      | destroying _ _ _ habs =>
        rw [LoopThread.advance, habs] at hv
        cases hv
  · cases h with
    | destroying hd' _ _ _ => exact absurd hd' hd
    | before h =>
      by_cases ha : a = .destroy
      · cases ha
        obtain ⟨rfl,rfl⟩ := Owned.destroy_cases hs
        exact ⟨.destroying rfl (.inl (by simp [destructor])) (.inl rfl) hp,Owned.stepSafe_nil rfl⟩
      · obtain ⟨hbefore,hsafe⟩ := h.step ha hs
        exact ⟨.before hbefore,hsafe⟩

theorem owned_safe (hr : ownedMachine.Runs Permitted tr s) :
    Owned.Safe tr ∧ Owned.Finishes lastPiece s := by
  have hstart : ∀ s, ownedMachine.initial s → Stage s := by
    rintro s rfl
    exact .before Owned.before_new
  obtain ⟨hstage,hsafe⟩ := Owned.safe_of_runs Stage (fun s => s.released = true) hstart
    (fun tr s a t es hi hp hs => stage_step hi hp hs) hr
  refine ⟨hsafe,fun hd _ hj => ?_⟩
  cases hstage with
  | before h =>
    rw [h.destroying] at hd
    cases hd
  | destroying _ _ _ habs => exact absurd habs (of_decide_eq_true hj)

end ConfigLoader

/-- The statement locks, unlocks or waits, or reads or writes a member of the pool. -/
def Point.uses : Point → Bool
  | .guard | .survey | .inner true | .idleUp | .wait | .woken | .resurvey | .idleDown _ | .take true | .unlock _ _
  | .relock | .unguard => true
  | _ => false

/-- How far `~ThreadPool` is. -/
inductive DestructorPoint
  | outside
  | entered
  | released
  | over
  deriving DecidableEq, Repr

structure OwnedPool (F : Type*) where
  pool : LockedPool F
  destructor : DestructorPoint

namespace OwnedPool
variable {F : Type*}

inductive Action (F : Type*)
  | pool (a : LockedPool.Action F)
  | destroy
  | release
  | complete

/-- The steps of the workers, which go on in the destructor and after it. -/
def ofWorker : LockedPool.Action F → Bool
  | .worker _ _ | .spurious _ | .finish _ _ => true
  | _ => false

/-- What a step of a worker uses of the pool. Inside of a callback it uses nothing. -/
def uses (s : LockedPool F) : LockedPool.Action F → List OwnedEvent
  | .worker i _ => if s.threads[i]?.any Point.uses then [.used] else []
  | .spurious _ => [.used]
  | _ => []

/-- `~ThreadPool` locks nothing and has an empty body. After `Init` has returned and outside of other
calls it destroys `m_threads`, then `monitor_`, whose condition variable waits until nobody waits on
it, and the mutex and the queue. -/
def step (s : OwnedPool F) : Action F → Option (OwnedPool F × List OwnedEvent)
  | .pool a =>
    if s.destructor ≠ .outside ∧ ofWorker a = false then none
    else (s.pool.step a).map (fun p => ({ s with pool := p.1 },uses s.pool a))
  | .destroy =>
    if s.destructor = .outside ∧ s.pool.initialised ∧ s.pool.stop = .idle ∧ s.pool.adder = .outside then
      some ({ s with destructor := .entered },[.dropped (s.pool.joinable.any id)])
    else none
  | .release => if s.destructor = .entered then some ({ s with destructor := .released },[.released]) else none
  | .complete =>
    if s.destructor = .released ∧ .waiting ∉ s.pool.threads then some ({ s with destructor := .over },[]) else none

def machine (F : Type*) (threadNum : ThreadNum) : Machine (OwnedPool F) (Action F) OwnedEvent where
  initial s := ∃ st, s = ⟨.new threadNum st,.outside⟩
  step := step

/-- Every worker has returned from `operator()`. -/
def Permitted (_ : List OwnedEvent) (s : OwnedPool F) : Action F → Prop
  | .destroy => ∀ a ∈ s.pool.threads, a = .returned
  | _ => True

/-- The destructor is not kept at its condition variable. -/
def Finishes (s : OwnedPool F) : Prop := s.destructor = .released → (s.step .complete).isSome = true

variable {n : ThreadNum} {tr es : List OwnedEvent} {s t : OwnedPool F}

/-- A worker that has returned takes no step. -/
theorem step_returned {pool pool' : LockedPool F} {a : LockedPool.Action F} {pes : List LockEvent}
    (h : ∀ b ∈ pool.threads, b = .returned) (ha : ofWorker a = true) : pool.step a ≠ some (pool',pes) := by
  have hget : ∀ {i : ℕ} {b : Point}, pool.threads[i]? = some b → b = .returned :=
    fun hb => h _ (List.mem_of_getElem? hb)
  intro hs
  cases a with
  | worker i now =>
    obtain ⟨b,hb,hs⟩ := Option.bind_eq_some_iff.mp hs
    obtain rfl := hget hb
    cases hs
  | spurious i =>
    rw [LockedPool.step] at hs
    split at hs
    · rename_i hb
      cases hget hb
    · cases hs
  | finish i o =>
    obtain ⟨p,c,hb,_⟩ := LockedPool.finish_cases hs
    cases hget hb
  | makeTask _ _ | makeExpiringTask _ _ _ _ _ | addTask _ | adder _ | init | initRun | spawn _ | detach _ | stop =>
    cases ha

/-- In the destructor every worker has returned. -/
def Over (s : OwnedPool F) : Prop := s.destructor ≠ .outside → ∀ a ∈ s.pool.threads, a = .returned

def wasReleased (s : OwnedPool F) : Prop := s.destructor = .released ∨ s.destructor = .over

theorem Over.step {a : Action F} (h : Over s) (hp : Permitted tr s a) (hs : s.step a = some (t,es)) :
    Over t ∧ .dropped true ∉ es ∧ (s.wasReleased ∨ .released ∈ es → .used ∉ es ∧ t.wasReleased) := by
  cases a with
  | pool a =>
    rw [OwnedPool.step] at hs
    split at hs
    · cases hs
    · rename_i hturn
      obtain ⟨⟨pool,pes⟩,hstep,he⟩ := Option.map_eq_some_iff.mp hs
      cases he
      have hout : s.destructor = .outside := by
        by_contra hin
        have ha : ofWorker a = true := by simpa [hin] using hturn
        exact step_returned (h hin) ha hstep
      refine ⟨fun hin => absurd hout hin,?_,fun hrel => ?_⟩
      · cases a <;> simp [uses]
      · rcases hrel with hrel | hrel
        · rcases hrel with hrel | hrel <;> rw [hout] at hrel <;> cases hrel
        · cases a <;> simp [uses] at hrel
  | destroy =>
    rw [OwnedPool.step] at hs
    split at hs
    · rename_i hopen
      cases hs
      have hdetached : s.pool.joinable.any id = false := by
        have hinit := hopen.2.1
        rw [LockedPool.initialised, Bool.and_eq_true] at hinit
        rw [List.any_eq_false]
        intro j hj
        have hj := List.all_eq_true.mp hinit.2 j hj
        simpa using hj
      refine ⟨fun _ => hp,by simp [hdetached],fun hrel => ?_⟩
      rcases hrel with hrel | hrel
      · rcases hrel with hrel | hrel <;> rw [hopen.1] at hrel <;> cases hrel
      · simp at hrel
    · cases hs
  | release =>
    rw [OwnedPool.step] at hs
    split at hs
    · rename_i hin
      cases hs
      exact ⟨fun _ => h (by simp [hin]),by simp,fun _ => ⟨by simp,.inl rfl⟩⟩
    · cases hs
  | complete =>
    rw [OwnedPool.step] at hs
    split at hs
    · rename_i hrel
      cases hs
      exact ⟨fun _ => h (by simp [hrel.1]),by simp,fun _ => ⟨by simp,.inr rfl⟩⟩
    · cases hs

theorem Over.finishes (h : Over s) : s.Finishes := by
  intro hrel
  have hno : .waiting ∉ s.pool.threads := fun hmem => by cases h (by simp [hrel]) _ hmem
  rw [OwnedPool.step, if_pos ⟨hrel,hno⟩]
  rfl

theorem owned_safe (hr : (machine F n).Runs Permitted tr s) : Owned.Safe tr ∧ s.Finishes := by
  have hstart : ∀ s, (machine F n).initial s → s.Over := by
    rintro s ⟨st,rfl⟩ hin
    exact absurd rfl hin
  obtain ⟨hover,hsafe⟩ := Owned.safe_of_runs Over wasReleased hstart
    (fun tr s a t es hi hp hs => hi.step hp hs) hr
  exact ⟨hsafe,hover.finishes⟩

end OwnedPool

namespace Teardown
variable {F : Type*} {n : ThreadNum}

/-- No part of a component's background work outlives it, in any run of permitted steps. -/
theorem ends_work_first {tr tr₁ tr₂ : List OwnedEvent} {pool : OwnedPool F} {interact loader : Owned}
    (hp : (OwnedPool.machine F n).Runs OwnedPool.Permitted tr pool)
    (hi : Interact.ownedMachine.Runs Interact.Permitted tr₁ interact)
    (hl : ConfigLoader.ownedMachine.Runs ConfigLoader.Permitted tr₂ loader) :
    (Owned.Safe tr ∧ pool.Finishes) ∧ (Owned.Safe tr₁ ∧ Owned.Finishes Interact.lastPiece interact) ∧
      Owned.Safe tr₂ ∧ Owned.Finishes ConfigLoader.lastPiece loader :=
  ⟨OwnedPool.owned_safe hp,Interact.owned_safe hi,ConfigLoader.owned_safe hl⟩

theorem pool_start (P : List OwnedEvent → OwnedPool F → OwnedPool.Action F → Prop) :
    (OwnedPool.machine F n).Runs P [] ⟨.new n .unknowing,.outside⟩ := .start ⟨.unknowing,rfl⟩

/-- The conditions on a step, as far as the runs below meet them by their states. -/
def poolPermits (_ : List OwnedEvent) (s : OwnedPool Unit) : OwnedPool.Action Unit → Bool
  | .destroy => s.pool.threads.all (· = .returned)
  | _ => true

def interactPermits (_ : List OwnedEvent) (s : Owned) : OwnedAction → Bool
  | .owner => [LoopPhase.sleeping,.ended,.absent].contains s.thread.phase
  | .thread => !s.released || !s.thread.on
  | _ => true

def loaderPermits (_ : List OwnedEvent) (s : Owned) : OwnedAction → Bool
  | .destroy => s.thread.phase = .absent
  | _ => true

theorem pool_permitted (tr : List OwnedEvent) (s : OwnedPool Unit) (a : OwnedPool.Action Unit)
    (h : poolPermits tr s a = true) : OwnedPool.Permitted tr s a := by
  cases a with
  | destroy => exact fun b hb => of_decide_eq_true (List.all_eq_true.mp h b hb)
  | pool _ | release | complete => trivial

/-- `Init` of two threads. -/
def starts : List (OwnedPool.Action Unit) :=
  [.pool .init,.pool .initRun,.pool (.spawn 0),.pool (.detach 0),.pool (.spawn 1),.pool (.detach 1)]

theorem interact_permitted (tr : List OwnedEvent) (s : Owned) (a : OwnedAction)
    (h : interactPermits tr s a = true) : Interact.Permitted tr s a := by
  cases a with
  | start | callStop | destroy => trivial
  | thread =>
    intro hr _
    rw [interactPermits, hr] at h
    simpa using h
  | owner =>
    intro _
    have hphase : s.thread.phase = .sleeping ∨ s.thread.phase = .ended ∨ s.thread.phase = .absent := by
      simpa [interactPermits] using h
    refine ⟨fun _ k => ?_,fun _ => ?_⟩
    all_goals rcases hphase with h | h | h <;> rw [h] <;> exact fun h => by cases h

theorem loader_permitted (tr : List OwnedEvent) (s : Owned) (a : OwnedAction)
    (h : loaderPermits tr s a = true) : ConfigLoader.Permitted tr s a := by
  cases a with
  | destroy =>
    have hphase : s.thread.phase = .absent := of_decide_eq_true h
    exact hphase
  | start | callStop | owner | thread => trivial

/-- The pool is destroyed after `Stop` has raised and its workers have returned, `Interact` while its
thread sleeps, and the loader after `Stop`. -/
theorem ends_work_first_quiet : ∃ tr pool tr₁ interact tr₂ loader,
    (OwnedPool.machine Unit .two).Runs OwnedPool.Permitted tr pool ∧
    Interact.ownedMachine.Runs Interact.Permitted tr₁ interact ∧
    ConfigLoader.ownedMachine.Runs ConfigLoader.Permitted tr₂ loader ∧
    (pool.destructor = .over ∧ .released ∈ tr₁ ∧ .released ∈ tr₂) ∧ Owned.Safe tr ∧ Owned.Safe tr₁ ∧ Owned.Safe tr₂ := by
  obtain ⟨c,hc,hover⟩ : ∃ c, (OwnedPool.machine Unit .two).replay poolPermits
      (starts ++ List.replicate 6 (.pool .stop) ++ List.replicate 7 (.pool (.worker 1 0)) ++
        List.replicate 7 (.pool (.worker 0 0)) ++ [.destroy,.release,.complete])
      ([],⟨.new .two .unknowing,.outside⟩) = some c ∧ c.2.destructor = .over := ⟨_,rfl,rfl⟩
  obtain ⟨d,hd,hrel₁⟩ : ∃ d, Interact.ownedMachine.replay interactPermits
      [.start,.thread,.thread,.thread,.thread,.destroy,.owner,.owner,.thread,.thread,.owner,.owner]
      ([],Owned.new) = some d ∧ .released ∈ d.1 := ⟨_,rfl,by simp⟩
  obtain ⟨e,he,hrel₂⟩ : ∃ e, ConfigLoader.ownedMachine.replay loaderPermits
      [.start,.thread,.callStop,.owner,.thread,.owner,.destroy,.owner,.owner]
      ([],Owned.new) = some e ∧ .released ∈ e.1 := ⟨_,rfl,by simp⟩
  have hp := Machine.replay_runs pool_permitted (pool_start _) hc
  have hi := Machine.replay_runs interact_permitted (.start rfl) hd
  have hl := Machine.replay_runs loader_permitted (.start rfl) he
  obtain ⟨⟨hsafe,-⟩,⟨hsafe₁,-⟩,hsafe₂,-⟩ := ends_work_first hp hi hl
  exact ⟨_,_,_,_,_,_,hp,hi,hl,⟨hover,hrel₁,hrel₂⟩,hsafe,hsafe₁,hsafe₂⟩

theorem not_safe_of_use {tr pre post : List OwnedEvent} (he : tr = pre ++ .released :: post)
    (hu : .used ∈ post) : ¬ Owned.Safe tr := fun h => h.1 pre post he hu

/-- A busy worker comes back from its task and locks the destroyed mutex, a heartbeat is sent with the
deleted `impl_`, and the loader's thread object is destroyed unjoined. -/
theorem work_outlives :
    (∃ tr, ∃ s : OwnedPool Unit, (OwnedPool.machine Unit .two).Runs Machine.Any tr s ∧ s.destructor = .over ∧
      ¬ Owned.Safe tr) ∧
    (∃ tr s, Interact.ownedMachine.Runs Machine.Any tr s ∧ ¬ Owned.Safe tr) ∧
    ∃ tr s, ConfigLoader.ownedMachine.Runs Machine.Any tr s ∧ ¬ Owned.Safe tr := by
  obtain ⟨c,hc,hover,htr⟩ : ∃ c, (OwnedPool.machine Unit .two).replay (fun _ _ _ => true)
      (starts ++ [.pool (.makeTask 0 (some ())),.pool (.addTask 0)] ++ List.replicate 3 (.pool (.adder 0)) ++
        List.replicate 8 (.pool (.worker 0 0)) ++
        [.destroy,.release,.complete,.pool (.finish 0 .returned),.pool (.worker 0 0)])
      ([],⟨.new .two .unknowing,.outside⟩) = some c ∧ c.2.destructor = .over ∧
      c.1 = [.used,.used,.used,.used,.used,.dropped false] ++ .released :: [.used] := ⟨_,rfl,rfl,rfl⟩
  obtain ⟨d,hd,htr₁⟩ : ∃ d, Interact.ownedMachine.replay (fun _ _ _ => true)
      [.start,.thread,.thread,.destroy,.owner,.thread] ([],Owned.new) = some d ∧
      d.1 = [] ++ .released :: [.used] := ⟨_,rfl,rfl⟩
  obtain ⟨e,he,htr₂⟩ : ∃ e, ConfigLoader.ownedMachine.replay (fun _ _ _ => true)
      [.start,.destroy,.owner,.owner] ([],Owned.new) = some e ∧
      e.1 = [.released,.dropped true] := ⟨_,rfl,rfl⟩
  have hp := Machine.replay_runs (P := Machine.Any) (fun _ _ _ _ => trivial) (pool_start _) hc
  have hi := Machine.replay_runs (P := Machine.Any) (fun _ _ _ _ => trivial) (.start rfl) hd
  have hl := Machine.replay_runs (P := Machine.Any) (fun _ _ _ _ => trivial) (.start rfl) he
  refine ⟨⟨_,_,hp,hover,not_safe_of_use htr (by simp)⟩,⟨_,_,hi,not_safe_of_use htr₁ (by simp)⟩,_,_,hl,fun h => ?_⟩
  rw [htr₂] at h
  exact h.2 (by simp)

end Teardown
end Kbms
