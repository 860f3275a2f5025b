import Kbms.Service.Teardown

/-! # The stop request to a background thread

`Interact` and `ConfigLoader` start and stop their threads in the same way. The thread sets
the loop flag when it begins, so a request that is made before that is overwritten.
-/
namespace Kbms.StopRequest
open Foundation

/-- The loops of `Interact::DoUpdating` and of `ConfigLoader::StartUpdating`. -/
inductive Background
  | interact
  | configLoader
  deriving DecidableEq, Repr

def Background.lastPiece : Background → ℕ
  | .interact => Interact.lastPiece
  | .configLoader => ConfigLoader.lastPiece

/-- The calls of the owner: it starts the thread, then it stops it. -/
inductive Caller
  | idle
  | started
  | joining
  | stopped
  deriving DecidableEq, Repr

/-- `set` and `stored` are the two writes of the flag, by the thread and by the stop
request. `body`: the thread begins the body of its loop. -/
inductive Event
  | set
  | body
  | stored
  deriving DecidableEq, Repr

structure State where
  caller : Caller
  thread : LoopThread

inductive Action
  | caller
  | thread
  deriving DecidableEq, Repr

def events : LoopPhase → List Event
  | .created => [.set]
  | .working 0 => [.body]
  | _ => []

def State.step (last : ℕ) (s : State) : Action → Option (State × List Event)
  | .caller =>
    match s.caller with
    | .idle => some (⟨.started,s.thread.start⟩,[])
    | .started => some (⟨.joining,s.thread.stop⟩,[.stored])
    | .joining => s.thread.join.map (fun v => (⟨.stopped,v⟩,[]))
    | .stopped => none
  | .thread => (s.thread.advance last).map (fun v => (⟨s.caller,v⟩,events s.thread.phase))

/-- `Interact` does not initialise its flag. -/
def machine (last : ℕ) : Machine State Action Event where
  initial s := ∃ on, s = ⟨.idle,⟨.absent,on⟩⟩
  step := State.step last

/-- The request is not lost: after it the flag stays cleared, the body is begun at most once,
and the join is never one on a thread that goes on. -/
structure Kept (last : ℕ) (tr : List Event) (s : State) : Prop where
  cleared : ∀ pre post, tr = pre ++ .stored :: post → .set ∉ post ∧ post.count .body ≤ 1
  off : s.caller = .joining → s.thread.on = false
  ends : s.caller = .joining → s.thread.Ends last

/-- The request is made when the thread has set its flag. -/
def Permitted (_ : List Event) (s : State) (a : Action) : Prop :=
  a = .caller → s.caller = .started → s.thread.phase ≠ .created

section Runs
variable {last : ℕ} {tr es : List Event} {s t : State}

/-- The bodies that the thread can begin while its flag is cleared. -/
def pending : LoopPhase → ℕ
  | .working 0 => 1
  | _ => 0

/-- Where the run stands with respect to the request. -/
inductive Stage (tr : List Event) (s : State) : Prop
  | before (hc : s.caller = .idle ∨ s.caller = .started ∧ s.thread.phase ≠ .absent) (htr : .stored ∉ tr)
  | requested (hc : s.caller = .joining ∨ s.caller = .stopped) (hoff : s.thread.on = false)
      (habs : s.caller = .joining → s.thread.phase ≠ .absent) (hcre : s.thread.phase ≠ .created)
      (hpost : ∀ pre post, tr = pre ++ .stored :: post →
        .set ∉ post ∧ post.count .body + pending s.thread.phase ≤ 1)

theorem stored_not_mem_events (ph : LoopPhase) : .stored ∉ events ph := by
  unfold events
  split <;> simp

/-- A thread whose flag is cleared uses up the body that it may still begin. -/
theorem advance_pending {u v : LoopThread} (hoff : u.on = false) (hcre : u.phase ≠ .created)
    (hs : u.advance last = some v) :
    .set ∉ events u.phase ∧ (events u.phase).count .body + pending v.phase ≤ pending u.phase := by
  obtain ⟨phase,on⟩ := u
  cases phase with
  | absent | ended => cases hs
  | created => exact absurd rfl hcre
  | checking =>
    cases hoff
    cases hs
    simp [events,pending]
  | sleeping =>
    cases hs
    simp [events,pending]
  | working k =>
    cases hs
    cases k <;> dsimp only <;> split <;> simp [events,pending]

theorem Stage.thread (h : Stage tr s) (hs : s.step last .thread = some (t,es)) : Stage (tr ++ es) t := by
  obtain ⟨v,hv,hs⟩ := Option.map_eq_some_iff.mp hs
  cases hs
  have hmem := stored_not_mem_events s.thread.phase
  cases h with
  | before hc htr =>
    refine .before (hc.imp id (fun h => ⟨h.1,fun habs => ?_⟩)) (by simp [htr,hmem])
    have hne := LoopThread.advance_ne_absent hv
    exact hne habs
  | requested hc hoff habs hcre hpost =>
    obtain ⟨hoff',habs',hcre'⟩ := LoopThread.advance_off hoff hcre hv
    obtain ⟨hset,hcount⟩ := advance_pending hoff hcre hv
    refine .requested hc hoff' (fun _ => habs') hcre' (fun pre post he => ?_)
    rcases occurrence_append he with ⟨ys,hys⟩ | ⟨ys,-,hes⟩
    · obtain ⟨hset',hcount'⟩ := hpost pre ys hys
      have hpost' : ys ++ events s.thread.phase = post := by simpa [hys] using he
      rw [← hpost', List.count_append]
      exact ⟨by simp [hset',hset],by dsimp only; omega⟩
    · exact absurd (by simp [hes]) hmem

theorem Stage.caller (h : Stage tr s) (hp : Permitted tr s .caller) (hs : s.step last .caller = some (t,es)) :
    Stage (tr ++ es) t := by
  obtain ⟨caller,thread⟩ := s
  cases caller with
  | stopped => cases hs
  | idle =>
    cases hs
    cases h with
    | before _ htr => exact .before (.inr ⟨rfl,by simp [LoopThread.start]⟩) (by simpa using htr)
    | requested hc _ _ _ _ => simp at hc
  | started =>
    cases hs
    cases h with
    | before hc htr =>
      refine .requested (.inl rfl) rfl (fun _ => by simpa [LoopThread.stop] using hc) (hp rfl rfl) (fun pre post he => ?_)
      rcases occurrence_append he with ⟨ys,hys⟩ | ⟨ys,-,hes⟩
      · exact absurd (by simp [hys]) htr
      · cases ys with
        | nil =>
          cases hes
          refine ⟨by simp,?_⟩
          simp only [List.count_nil, pending]
          split <;> omega
        | cons d ys => simp at hes
    | requested hc _ _ _ _ => simp at hc
  | joining =>
    obtain ⟨v,hv,hs⟩ := Option.map_eq_some_iff.mp hs
    cases hs
    rw [LoopThread.join] at hv
    split at hv
    · cases hv
      cases h with
      | before hc _ => simp at hc
      | requested hc hoff habs hcre hpost =>
        refine .requested (.inr rfl) hoff (by simp) (by simp) (fun pre post he => ?_)
        obtain ⟨hset,hcount⟩ := hpost pre post (by simpa using he)
        exact ⟨hset,by simp only [pending]; omega⟩
    · cases hv

theorem stage_of_runs (hr : (machine last).Runs Permitted tr s) : Stage tr s := by
  refine hr.invariant ?_ (fun tr s a t es _ hi hp hs => ?_)
  · rintro _ ⟨on,rfl⟩
    exact .before (.inl rfl) (by simp)
  · cases a with
    | caller =>
      have hs : s.step last .caller = some (t,es) := hs
      exact hi.caller hp hs
    | thread =>
      have hs : s.step last .thread = some (t,es) := hs
      exact hi.thread hs

theorem kept (h : Stage tr s) : Kept last tr s := by
  cases h with
  | before hc htr =>
    have hne : s.caller ≠ .joining := by
      rcases hc with hc | ⟨hc,-⟩ <;> simp [hc]
    exact ⟨fun pre post he => absurd (by simp [he]) htr,fun h => absurd h hne,fun h => absurd h hne⟩
  | requested hc hoff habs hcre hpost =>
    refine ⟨fun pre post he => ?_,fun _ => hoff,fun hj => ?_⟩
    · obtain ⟨hset,hcount⟩ := hpost pre post he
      exact ⟨hset,by omega⟩
    · exact LoopThread.ends_iff.mpr (.inr ⟨hoff,habs hj,hcre⟩)

/-- In every run of either thread and its owner in which the request is made after the
thread has set its flag. -/
theorem stop_kept (w : Background) (hr : (machine w.lastPiece).Runs Permitted tr s) : Kept w.lastPiece tr s :=
  kept (stage_of_runs hr)

/-- A request that is made before the thread has set its flag can always be lost. -/
theorem lost_of_created (hr : (machine last).Runs Machine.Any tr s) (hc : s.caller = .started)
    (hcre : s.thread.phase = .created) :
    ∃ t, (machine last).Runs Machine.Any (tr ++ [.stored] ++ [.set]) t ∧ t.caller = .joining ∧ t.thread.on = true := by
  obtain ⟨caller,thread⟩ := s
  obtain ⟨phase,on⟩ := thread
  cases hc
  cases hcre
  exact ⟨⟨.joining,⟨.checking,true⟩⟩,(hr.next (a := .caller) trivial rfl).next (a := .thread) trivial rfl,rfl,rfl⟩

theorem runs_new {P : List Event → State → Action → Prop} (on : Bool) :
    (machine last).Runs P [] ⟨.idle,⟨.absent,on⟩⟩ := .start ⟨on,rfl⟩

def permits (_ : List Event) (s : State) (a : Action) : Bool :=
  a != .caller || s.caller != .started || s.thread.phase != .created

theorem permitted_of_permits (tr : List Event) (s : State) (a : Action) (h : permits tr s a = true) :
    Permitted tr s a := by
  rintro rfl hc
  simpa [permits,hc] using h

/-- A request that is made while the thread is about to begin its second round. -/
theorem stop_kept_second_round : ∃ tr s, (machine Background.interact.lastPiece).Runs Permitted tr s ∧
    tr = [.set,.body,.stored,.body] ∧ s.caller = .joining ∧ Kept Background.interact.lastPiece tr s := by
  obtain ⟨c,hc,htr,hj⟩ : ∃ c, (machine Background.interact.lastPiece).replay permits
      ([.caller] ++ List.replicate 6 .thread ++ [.caller,.thread]) ([],⟨.idle,⟨.absent,false⟩⟩) = some c ∧
      c.1 = [.set,.body,.stored,.body] ∧ c.2.caller = .joining := ⟨_,rfl,rfl,rfl⟩
  have hr := Machine.replay_runs permitted_of_permits (runs_new false) hc
  exact ⟨_,_,hr,htr,hj,stop_kept .interact hr⟩

theorem overwritten (last : ℕ) : ∃ tr s, (machine last).Runs Machine.Any tr s ∧
    tr = [.stored,.set] ∧ s.caller = .joining ∧ s.thread.on = true ∧ ¬ Kept last tr s := by
  have hnew : (machine last).Runs Machine.Any [] ⟨.idle,⟨.absent,false⟩⟩ := runs_new false
  obtain ⟨t,hr,hj,hon⟩ := lost_of_created (hnew.next (a := .caller) trivial rfl) rfl rfl
  refine ⟨_,t,hr,rfl,hj,hon,fun h => ?_⟩
  rw [h.off hj] at hon
  cases hon

/-- The thread begins after the request, and its owner waits for it in the join. -/
theorem request_overwritten :
    (∃ tr s, (machine Background.interact.lastPiece).Runs Machine.Any tr s ∧ tr = [.stored,.set] ∧
      s.caller = .joining ∧ s.thread.on = true ∧ ¬ Kept Background.interact.lastPiece tr s) ∧
    ∃ tr s, (machine Background.configLoader.lastPiece).Runs Machine.Any tr s ∧ tr = [.stored,.set] ∧
      s.caller = .joining ∧ s.thread.on = true ∧ ¬ Kept Background.configLoader.lastPiece tr s :=
  ⟨overwritten _,overwritten _⟩

end Runs
end Kbms.StopRequest
