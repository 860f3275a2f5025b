import Kbms.Foundation.Simulation
import Kbms.Service.Shutdown

/-! # What the registry hears of an instance

The abstract side of an instance is what it has announced, how far its two ways to withdraw are, and
whether its list is due. The main thread announces, the background thread sends a heartbeat and
fetches a list in turns, and `Stop` and the handler of SIGTERM withdraw; nothing else orders their
requests. The sequences of requests of the program are exactly those of this abstract instance.
-/
namespace Kbms.Shutdown
open Foundation

/-- `over`: the process has ended with the `exit` of the handler. `killed`: it has ended with a signal
that had no handler yet. -/
inductive HandlerPhase
  | idle
  | downing
  | deleting
  | exiting
  | over
  | killed
  deriving DecidableEq, Repr

/-- The instance, with the handler of SIGTERM. -/
structure Process where
  state : State
  handler : HandlerPhase

namespace Process

inductive Action
  | own (a : Shutdown.Action)
  | signal
  | put
  | del
  | exit

/-- `StartServer` has set the handler. -/
def registered (s : State) : Bool :=
  match s.start with
  | .entered | .configured => false
  | _ => true

def running (p : Process) : Bool :=
  match p.handler with
  | .over | .killed => false
  | _ => true

/-- The signal comes at most once. `SignalHandler` interrupts one of the threads that have nothing to do
with the registry, calls `Interrupt`, and exits. -/
def step (p : Process) : Action → Option (Process × List Event)
  | .own a => if p.running then (p.state.step a).map (fun r => ({ p with state := r.1 },r.2)) else none
  | .signal =>
    if p.handler = .idle then some ({ p with handler := if registered p.state then .downing else .killed },[])
    else none
  | .put => if p.handler = .downing then some ({ p with handler := .deleting },[.down]) else none
  | .del => if p.handler = .deleting then some ({ p with handler := .exiting },[.deleted]) else none
  | .exit => if p.handler = .exiting then some ({ p with handler := .over },[]) else none

def new : Process := ⟨⟨.entered,.idle,⟨.absent,false⟩,⟨.absent,false⟩⟩,.idle⟩

def machine : Machine Process Action Event where
  initial p := p = new
  step := step

end Process

inductive Announced
  | nothing
  | starting
  | up
  deriving DecidableEq, Repr

inductive Withdrawal
  | idle
  | down
  | deleted
  deriving DecidableEq, Repr

/-- `listing`: a heartbeat has been sent and the list after it has not been fetched. -/
structure Traffic where
  announced : Announced
  stop : Withdrawal
  handler : Withdrawal
  listing : Bool

namespace Traffic

/-- A request, by the handler of the signal or not. -/
inductive Action
  | own (e : Event)
  | handler (e : Event)

def Action.event : Action → Event
  | .own e | .handler e => e

def new : Traffic := ⟨.nothing,.idle,.idle,false⟩

/-- `Stop` withdraws at any time and any number of times, and the handler once and after the first
announcement. -/
def after (q : Traffic) : Action → Option Traffic
  | .own (.registered status) =>
    match q.announced with
    | .nothing => if status = "STARTING" then some { q with announced := .starting } else none
    | .starting => if status = "UP" then some { q with announced := .up } else none
    | .up => none
  | .own .heartbeat => if q.announced = .up ∧ q.listing = false then some { q with listing := true } else none
  | .own .listed => if q.listing = true then some { q with listing := false } else none
  | .own .down => if q.stop = .idle then some { q with stop := .down } else none
  | .own .deleted => if q.stop = .down then some { q with stop := .deleted } else none
  | .own .stopReturned => if q.stop = .deleted then some { q with stop := .idle } else none
  | .handler .down =>
    if q.announced ≠ .nothing ∧ q.handler = .idle then some { q with handler := .down } else none
  | .handler .deleted => if q.handler = .down then some { q with handler := .deleted } else none
  | .handler _ => none

end Traffic

section Abstraction
variable {tr es : List Event} {s t : State} {p p' : Process} {a : Action}

/-- The heartbeat begins after the announcement. -/
def Staged (s : State) : Prop := s.start ≠ .running → s.heart.phase = .absent

theorem Staged.serve (h : Staged s) (hs : s.serve = some (t,es)) : Staged t := by
  obtain ⟨start,stop,heart,loader⟩ := s
  cases start with
  | running => cases hs
  | announced =>
    cases hs
    exact fun hne => absurd rfl hne
  | entered | configured | ready | serving =>
    cases hs
    exact fun _ => h (by simp)

theorem Staged.step (h : Staged s) (hs : s.step a = some (t,es)) : Staged t := by
  cases a with
  | serve => exact h.serve hs
  | heart =>
    obtain ⟨v,hv,he⟩ := Option.map_eq_some_iff.mp hs
    cases he
    intro hne
    rw [LoopThread.advance, h hne] at hv
    cases hv
  | loader =>
    obtain ⟨v,_,he⟩ := Option.map_eq_some_iff.mp hs
    cases he
    exact h
  | join =>
    rw [State.step] at hs
    split at hs
    · obtain ⟨v,_,he⟩ := Option.map_eq_some_iff.mp hs
      cases he
      exact h
    · cases hs
  | stop | put | del | ret =>
    rw [State.step] at hs
    split at hs
    · cases hs
      exact h
    · cases hs

theorem serve_registered (hs : s.serve = some (t,es)) (h : Process.registered s = true) :
    Process.registered t = true := by
  obtain ⟨start,stop,heart,loader⟩ := s
  cases start with
  | entered | configured => cases h
  | running => cases hs
  | ready | serving | announced =>
    cases hs
    rfl

/-- The handler stays set. -/
theorem step_registered (hs : s.step a = some (t,es)) (h : Process.registered s = true) :
    Process.registered t = true := by
  cases a with
  | serve => exact serve_registered hs h
  | heart | loader =>
    obtain ⟨v,_,he⟩ := Option.map_eq_some_iff.mp hs
    cases he
    exact h
  | join =>
    rw [State.step] at hs
    split at hs
    · obtain ⟨v,_,he⟩ := Option.map_eq_some_iff.mp hs
      cases he
      exact h
    · cases hs
  | stop | put | del | ret =>
    rw [State.step] at hs
    split at hs
    · cases hs
      exact h
    · cases hs

/-- The handler of the signal runs only when it has been set. -/
structure Handled (p : Process) : Prop where
  staged : Staged p.state
  registered : p.handler = .downing → Process.registered p.state = true

theorem Handled.step {b : Process.Action} (h : Handled p) (hs : p.step b = some (p',es)) : Handled p' := by
  cases b with
  | own a =>
    rw [Process.step] at hs
    split at hs
    · obtain ⟨⟨t,tes⟩,ht,he⟩ := Option.map_eq_some_iff.mp hs
      cases he
      exact ⟨h.staged.step ht,fun hd => step_registered ht (h.registered hd)⟩
    · cases hs
  | signal =>
    rw [Process.step] at hs
    split at hs
    · cases hs
      refine ⟨h.staged,fun hd => ?_⟩
      dsimp only at hd
      split at hd
      · assumption
      · cases hd
    · cases hs
  | put | del | exit =>
    rw [Process.step] at hs
    split at hs
    · cases hs
      exact ⟨h.staged,fun hd => by cases hd⟩
    · cases hs

end Abstraction

section Realization
variable {q q' : Traffic} {loading : Bool}

structure Consistent (q : Traffic) (loading : Bool) : Prop where
  listing : q.listing = true → q.announced = .up
  handler : q.handler ≠ .idle → q.announced ≠ .nothing
  loading : loading = true → q.announced ≠ .nothing

/-- Whether the thread of the configuration is there after a request. -/
def loadingAfter (loading : Bool) : Traffic.Action → Bool
  | .own (.registered status) => loading || status = "STARTING"
  | .own .down => false
  | _ => loading

theorem Consistent.after {a : Traffic.Action} (h : Consistent q loading) (ha : q.after a = some q') :
    Consistent q' (loadingAfter loading a) := by
  obtain ⟨announced,stop,handler,listing⟩ := q
  obtain ⟨hlisting,hhandler,hloading⟩ := h
  rcases a with e | e
  · cases e with
    | registered status =>
      cases announced with
      | up => cases ha
      | nothing | starting =>
        simp only [Traffic.after] at ha
        split at ha
        · cases ha
          refine ⟨fun hl => ?_,by simp,by simp⟩
          cases hlisting hl
        · cases ha
    | heartbeat =>
      simp only [Traffic.after] at ha
      split at ha
      · rename_i hup
        cases ha
        exact ⟨fun _ => hup.1,hhandler,hloading⟩
      · cases ha
    | listed =>
      simp only [Traffic.after] at ha
      split at ha
      · cases ha
        exact ⟨fun hl => (by cases hl),hhandler,hloading⟩
      · cases ha
    | down =>
      simp only [Traffic.after] at ha
      split at ha
      · cases ha
        exact ⟨hlisting,hhandler,fun hl => (by cases hl)⟩
      · cases ha
    | deleted | stopReturned =>
      simp only [Traffic.after] at ha
      split at ha
      · cases ha
        exact ⟨hlisting,hhandler,hloading⟩
      · cases ha
  · cases e with
    | registered _ | heartbeat | listed | stopReturned => cases ha
    | down =>
      simp only [Traffic.after] at ha
      split at ha
      · rename_i hannounced
        cases ha
        exact ⟨hlisting,fun _ => hannounced.1,hloading⟩
      · cases ha
    | deleted =>
      simp only [Traffic.after] at ha
      split at ha
      · rename_i hdown
        cases ha
        exact ⟨hlisting,fun _ => hhandler (by simp [hdown]),hloading⟩
      · cases ha

end Realization

end Kbms.Shutdown
