import Kbms.Foundation.LoopThread
import Kbms.Service.HttpServer

/-! # Stopping the server and its heartbeat

`Stop` ends the thread of the configuration and deregisters the instance. The thread of
the heartbeat is left as it is, so it goes on to its next round after the deregistration.
-/
namespace Kbms.Shutdown
open Foundation

inductive StopPhase
  | idle
  | joining
  | downing
  | deleting
  | returning
  deriving DecidableEq, Repr

/-- The requests for the instance, and the return from `Stop`. -/
inductive Event
  | registered (status : String)
  | heartbeat
  | listed
  | down
  | deleted
  | stopReturned
  deriving DecidableEq, Repr

/-- `heart` and `loader` are the threads of `interact_` and `cfl_`. -/
structure State where
  start : StartPhase
  stop : StopPhase
  heart : LoopThread
  loader : LoopThread

inductive Action
  | serve
  | heart
  | loader
  | stop
  | join
  | put
  | del
  | ret

namespace State

/-- The statements of `StartServer`, with both flags on. -/
def serve (s : State) : Option (State × List Event) :=
  match s.start with
  | .entered => some ({ s with start := .configured, loader := s.loader.start },[])
  | .configured => some ({ s with start := .ready },[.registered "STARTING"])
  | .ready => some ({ s with start := .serving },[])
  | .serving => some ({ s with start := .announced },[.registered "UP"])
  | .announced => some ({ s with start := .running, heart := s.heart.start },[])
  | .running => none

/-- The pieces of a round of `DoUpdating`: `KeepActive` and `ServerDisc`. -/
def request : LoopPhase → List Event
  | .working 0 => [.heartbeat]
  | .working _ => [.listed]
  | _ => []

def step (s : State) : Action → Option (State × List Event)
  | .serve => s.serve
  | .heart => (s.heart.advance 1).map (fun v => ({ s with heart := v },request s.heart.phase))
  | .loader => (s.loader.advance 1).map (fun v => ({ s with loader := v },[]))
  | .stop =>
    if s.stop = .idle then
      some ({ s with
        loader := s.loader.stop
        stop := if s.loader.joinable then .joining else .downing },[])
    else none
  | .join =>
    if s.stop = .joining then s.loader.join.map (fun v => ({ s with loader := v, stop := .downing },[]))
    else none
  | .put => if s.stop = .downing then some ({ s with stop := .deleting },[.down]) else none
  | .del => if s.stop = .deleting then some ({ s with stop := .returning },[.deleted]) else none
  | .ret => if s.stop = .returning then some ({ s with stop := .idle },[.stopReturned]) else none

end State

/-- `Stop`, called at any time and as often as one likes but by one thread at a time, in all
interleavings with `StartServer` and the threads. -/
def machine : Machine State Action Event where
  initial s := s = ⟨.entered,.idle,⟨.absent,false⟩,⟨.absent,false⟩⟩
  step := State.step

def Revives : Event → Prop
  | .registered _ | .heartbeat | .listed => True
  | _ => False

/-- After `Stop` nothing revives the instance, and after its deletion no heartbeat does. -/
def StaysDeregistered (tr : List Event) : Prop :=
  (∀ pre post, tr = pre ++ .stopReturned :: post → ∀ e ∈ post, ¬ Revives e) ∧
  ∀ pre post, tr = pre ++ .deleted :: post → .heartbeat ∉ post

section Heartbeat
variable {tr : List Event} {s t : State}

/-- Once `StartServer` is in its endless loop, the heartbeat goes on. -/
def Inv (s : State) : Prop := s.start = .running → s.heart.Loops

theorem inv_step {a : Action} {es : List Event} (hi : Inv s) (hs : s.step a = some (t,es)) : Inv t := by
  cases a with
  | serve =>
    obtain ⟨start,stop,heart,loader⟩ := s
    cases start with
    | announced =>
      cases hs
      exact fun _ => .inl rfl
    | running => cases hs
    | entered | configured | ready | serving =>
      cases hs
      exact fun h => by cases h
  | heart =>
    obtain ⟨v,hv,he⟩ := Option.map_eq_some_iff.mp hs
    cases he
    exact fun h => LoopThread.advance_loops (hi h) hv
  | loader =>
    obtain ⟨v,hv,he⟩ := Option.map_eq_some_iff.mp hs
    cases he
    exact hi
  | join =>
    rw [State.step] at hs
    split at hs
    · obtain ⟨v,hv,he⟩ := Option.map_eq_some_iff.mp hs
      cases he
      exact hi
    · cases hs
  | stop | put | del | ret =>
    rw [State.step] at hs
    split at hs
    · cases hs
      exact hi
    · cases hs

theorem runs_inv (hr : machine.Runs Machine.Any tr s) : Inv s := by
  refine hr.stateInvariant (fun s h => ?_) (fun s a t es hi hs => inv_step hi hs)
  subst h
  exact fun h => by cases h

theorem runs_heart (hr : machine.Runs Machine.Any tr s) {v : LoopThread} (h : s.heart.advance 1 = some v) :
    machine.Runs Machine.Any (tr ++ State.request s.heart.phase) { s with heart := v } := by
  have hs : machine.step s .heart = some ({ s with heart := v },State.request s.heart.phase) := by
    change (s.heart.advance 1).map _ = _
    rw [h]
    rfl
  exact .next hr trivial hs

theorem beats_working (hr : machine.Runs Machine.Any tr s) {k : ℕ} {on : Bool} (h : s.heart = ⟨.working k,on⟩)
    (hon : on = true) : machine.Continues Machine.Any tr .heartbeat := by
  cases k with
  | zero =>
    have hr' := runs_heart hr (v := ⟨.working 1,on⟩) (by rw [h]; rfl)
    rw [h] at hr'
    exact ⟨_,_,hr',List.mem_singleton.mpr rfl⟩
  | succ k =>
    -- the other piece of the round, the sleep and the check come before the next heartbeat
    have hr₁ := runs_heart hr (v := ⟨.sleeping,on⟩) (by rw [h]; rfl)
    have hr₂ := runs_heart hr₁ (v := ⟨.checking,on⟩) rfl
    have hr₃ := runs_heart hr₂ (v := ⟨.working 0,on⟩) (by rw [hon]; rfl)
    have hr₄ := runs_heart hr₃ (v := ⟨.working 1,on⟩) rfl
    exact .after (.after (.after ⟨_,_,hr₄,List.mem_singleton.mpr rfl⟩))

/-- A thread that loops comes to its next heartbeat. -/
theorem heart_beats (hr : machine.Runs Machine.Any tr s) (hl : s.heart.Loops) :
    machine.Continues Machine.Any tr .heartbeat := by
  obtain ⟨start,stop,⟨phase,on⟩,loader⟩ := s
  have hchecking : ∀ {tr}, machine.Runs Machine.Any tr ⟨start,stop,⟨.checking,true⟩,loader⟩ →
      machine.Continues Machine.Any tr .heartbeat := fun hr =>
    .after (beats_working (runs_heart hr (v := ⟨.working 0,true⟩) rfl) rfl rfl)
  rcases hl with h | ⟨hon,habs,hend⟩
  · cases h
    exact .after (hchecking (runs_heart hr (v := ⟨.checking,true⟩) rfl))
  · cases hon
    cases phase with
    | absent => exact absurd rfl habs
    | ended => exact absurd rfl hend
    | working k => exact beats_working hr rfl rfl
    | checking => exact hchecking hr
    | created | sleeping => exact .after (hchecking (runs_heart hr (v := ⟨.checking,true⟩) rfl))

theorem runs_serve (hr : machine.Runs Machine.Any tr s) {es : List Event} (hs : s.serve = some (t,es)) :
    machine.Runs Machine.Any (tr ++ es) t := by
  have hstep : machine.step s .serve = some (t,es) := hs
  exact .next hr trivial hstep

/-- `StartServer` comes to its endless loop, and then the heartbeat to its next round. -/
theorem beats (hr : machine.Runs Machine.Any tr s) : machine.Continues Machine.Any tr .heartbeat := by
  have hinv := runs_inv hr
  obtain ⟨start,stop,heart,loader⟩ := s
  have hannounced : ∀ {tr loader}, machine.Runs Machine.Any tr ⟨.announced,stop,heart,loader⟩ →
      machine.Continues Machine.Any tr .heartbeat := fun hr =>
    .after (heart_beats (runs_serve hr rfl) (.inl rfl))
  have hready : ∀ {tr loader}, machine.Runs Machine.Any tr ⟨.ready,stop,heart,loader⟩ →
      machine.Continues Machine.Any tr .heartbeat := fun hr =>
    .after (.after (hannounced (runs_serve (runs_serve hr rfl) rfl)))
  cases start with
  | running => exact heart_beats hr (hinv rfl)
  | announced => exact hannounced hr
  | serving => exact .after (hannounced (runs_serve hr rfl))
  | ready => exact hready hr
  | configured => exact .after (hready (runs_serve hr rfl))
  | entered => exact .after (.after (hready (runs_serve (runs_serve hr rfl) rfl)))

end Heartbeat

/-- Wherever `Stop` has returned, the run can go on with a heartbeat. -/
theorem never_stays_deregistered {tr : List Event} {s : State} (hr : machine.Runs Machine.Any tr s)
    (hret : .stopReturned ∈ tr) :
    ∃ post t, machine.Runs Machine.Any (tr ++ post) t ∧ ¬ StaysDeregistered (tr ++ post) := by
  obtain ⟨post,t,hr',he⟩ := beats hr
  refine ⟨post,t,hr',fun h => ?_⟩
  obtain ⟨pre,rest,rfl⟩ := List.append_of_mem hret
  exact h.1 pre (rest ++ post) (by simp) .heartbeat (List.mem_append_right rest he) trivial

/-- A run in which `Stop` is called after the start and returns, and the heartbeat then
goes on. -/
def stopActions : List Action :=
  [.serve,.loader,.serve,.serve,.serve,.serve,.stop,.loader,.join,.put,.del,.ret]

theorem never_stays_deregistered_run : ∃ tr s, machine.Runs Machine.Any tr s ∧
    tr = [.registered "STARTING",.registered "UP",.down,.deleted,.stopReturned] ∧
    ∃ post t, machine.Runs Machine.Any (tr ++ post) t ∧ ¬ StaysDeregistered (tr ++ post) := by
  obtain ⟨d,hd⟩ : ∃ d, machine.replay (fun _ _ _ => true) stopActions
      ([],⟨.entered,.idle,⟨.absent,false⟩,⟨.absent,false⟩⟩) = some d := ⟨_,rfl⟩
  have hr := Machine.replay_runs (P := Machine.Any) (fun _ _ _ _ => trivial) (.start rfl) hd
  have htr : d.1 = [.registered "STARTING",.registered "UP",.down,.deleted,.stopReturned] := by
    cases hd
    rfl
  refine ⟨d.1,d.2,hr,htr,never_stays_deregistered hr ?_⟩
  rw [htr]
  simp

/-- The heartbeat that follows the deletion. -/
theorem heartbeat_after_stop : ∃ s, machine.Runs Machine.Any
    [.registered "STARTING",.registered "UP",.down,.deleted,.stopReturned,.heartbeat] s ∧
    ¬ StaysDeregistered [.registered "STARTING",.registered "UP",.down,.deleted,.stopReturned,.heartbeat] := by
  obtain ⟨d,hd⟩ : ∃ d, machine.replay (fun _ _ _ => true) (stopActions ++ [.heart,.heart,.heart])
      ([],⟨.entered,.idle,⟨.absent,false⟩,⟨.absent,false⟩⟩) = some d := ⟨_,rfl⟩
  have hr := Machine.replay_runs (P := Machine.Any) (fun _ _ _ _ => trivial) (.start rfl) hd
  have htr : d.1 = [.registered "STARTING",.registered "UP",.down,.deleted,.stopReturned,.heartbeat] := by
    cases hd
    rfl
  refine ⟨d.2,htr ▸ hr,fun h => ?_⟩
  exact h.2 [.registered "STARTING",.registered "UP",.down] [.stopReturned,.heartbeat] rfl (by simp)

end Kbms.Shutdown
