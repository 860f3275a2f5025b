import Kbms.Foundation.LoopThread
import Kbms.Service.HttpServer
import Kbms.Utils.CurlHandle

/-! # The lifecycle of the server object

Which components exist depends on the overload of `Init`, its flags and the local
address, and only `StartServer` asks the flags before it uses them. `StartServer` does not
return, so it goes on beside the calls that come after it.
-/
namespace Kbms.Lifecycle
open Foundation

inductive Part
  | service
  | impl
  | interact
  | cfl
  deriving DecidableEq, Repr

inductive Status
  | absent
  | live
  | deleted
  deriving DecidableEq, Repr

/-- `infos`: the overload of `Init` takes a `RegistryInfo` and a `ConfigInfo`, with these
flags. `host`: `GetHost` succeeds. `timeout`: what is in the memory of the `timeout_` of `Interact`,
which initialises itself. `off`: where the ends of `GetConfig` and `ExecuteRequest` lead. -/
structure Setup where
  infos : Bool
  rtiFlag : Bool
  cfiFlag : Bool
  host : Bool
  timeout : UInt32
  off : FlowOff

/-- `requesting`: `UpdateStatus` waits for the registry. `interrupting`: `Interrupt` does. -/
inductive Caller
  | idle
  | requesting
  | joining
  | interrupting
  | destroying
  deriving DecidableEq, Repr

inductive Event
  | used (part : Part) (status : Status)
  | deleted (part : Part) (status : Status)
  deriving DecidableEq, Repr

/-- `loader` and `heart` are the threads of `cfl_` and `interact_`, and `ioThread` says
that the IO thread has been created. The process is `running` until it is aborted. -/
structure State where
  status : Part → Status
  flagOfMmserverOn : Bool
  flagOfConfigOn : Bool
  starters : List StartPhase
  caller : Caller
  loader : LoopThread
  heart : LoopThread
  ioThread : Bool
  running : Bool

/-- `respond`: the request of `UpdateStatus` is over. `waits`: a worker of the pool waits for a task. -/
inductive Action
  | registerFun
  | getConfig
  | updateStatus
  | respond
  | acqInstance
  | startServer
  | serve (i : ℕ)
  | stop
  | join
  | interrupt
  | destroy (waits : Bool)
  | loader
  | heart

/-- Where the caller has to be: a call begins when the one before has returned, and the
threads go on at any time. -/
def Action.caller : Action → Option Caller
  | .serve _ | .loader | .heart => none
  | .respond => some .requesting
  | .join => some .joining
  | .interrupt => some .interrupting
  | _ => some .idle

namespace Setup

def live (made : Bool) : Status := if made then .live else .absent

/-- The components after `Init`. -/
def status (u : Setup) : Part → Status
  | .service => .live
  | .impl => live u.infos
  | .interact => live (u.infos && u.rtiFlag && u.host)
  | .cfl => live (u.infos && u.cfiFlag)

def init (u : Setup) : State where
  status := u.status
  flagOfMmserverOn := u.infos && u.rtiFlag
  flagOfConfigOn := u.infos && u.cfiFlag
  starters := []
  caller := .idle
  loader := ⟨.absent,false⟩
  heart := ⟨.absent,false⟩
  ioThread := false
  running := true

end Setup

namespace State

/-- The use of components on the way to state `t`. Behaviour is undefined after the use of
one that is not live. -/
def use (s : State) (parts : List Part) (t : State) : State × List Event :=
  (if parts.all (fun p => s.status p = .live) then t else { t with running := false },
    parts.map (fun p => .used p (s.status p)))

def useIf (s : State) (flag : Bool) (parts : List Part) (t : State) : State × List Event :=
  if flag then s.use parts t else (t,[])

/-- The next statement of the `StartServer` that is called as number `i`. -/
def next (s : State) (i : ℕ) (ph : StartPhase) : State := { s with starters := s.starters.set i ph }

/-- `ConfigLoader::Start`. The assignment destroys a thread that is there, and a joinable
one aborts the process. -/
def startConfig (s : State) : State :=
  if s.loader.joinable then { s with running := false } else { s with loader := s.loader.start }

/-- `Interact::Run`. -/
def startInteract (s : State) : State :=
  if s.heart.joinable then { s with running := false } else { s with heart := s.heart.start }

/-- `IoThread::Start`. -/
def startIo (s : State) : State :=
  if s.ioThread then { s with running := false } else { s with ioThread := true }

/-- The statements of `StartServer` up to its endless loop. -/
def serve (s : State) (i : ℕ) : StartPhase → Option (State × List Event)
  | .entered =>
    some (s.useIf s.flagOfConfigOn [.impl,.cfl]
      (if s.flagOfConfigOn then (s.next i .configured).startConfig else s.next i .configured))
  | .configured => some (s.useIf s.flagOfMmserverOn [.impl,.interact] (s.next i .ready))
  | .ready => some (s.use [.service] (s.next i .serving).startIo)
  | .serving => some (s.useIf s.flagOfMmserverOn [.impl,.interact] (s.next i .announced))
  | .announced =>
    some (s.useIf s.flagOfMmserverOn [.impl,.interact]
      (if s.flagOfMmserverOn then (s.next i .running).startInteract else s.next i .running))
  | .running => none

/-- `HttpServer::Stop` up to the join of the loader's thread. -/
def stop (s : State) : State × List Event :=
  s.use [.impl,.cfl] { s with
    loader := s.loader.stop
    caller := if s.loader.joinable then .joining else .interrupting }

/-- The destructor, which does not return. The deletion of the service begins with the pool, whose
condition variable is kept by a worker that waits on it. Next is the IO thread, which aborts the
process when it is joinable. Otherwise `instance_` is deleted, which is this object: the inner
destructor finds `service_` as it was and deletes it once more. -/
def destroy (s : State) (waits : Bool) : State × List Event :=
  ({ s with
    running := s.running && waits
    caller := .destroying
    status := Function.update s.status .service .deleted },
    if waits || s.ioThread then [.deleted .service (s.status .service)]
    else [.deleted .service (s.status .service),.deleted .service .deleted])

def effect (s : State) : Action → Option (State × List Event)
  | .registerFun => some (s.use [.service] s)
  | .getConfig => some (s.use [.impl,.cfl] s)
  | .updateStatus => some (s.use [.impl,.interact] { s with caller := .requesting })
  | .respond => some ({ s with caller := .idle },[])
  | .acqInstance => some (s.use [.impl,.interact] s)
  | .startServer => some ({ s with starters := s.starters ++ [.entered] },[])
  | .stop => some s.stop
  | .join => s.loader.join.map (fun u => ({ s with loader := u, caller := .interrupting },[]))
  | .interrupt => some (s.use [.impl,.interact] { s with caller := .idle })
  | .destroy waits => some (s.destroy waits)
  | .serve i => s.starters[i]?.bind (s.serve i)
  | .loader => (s.loader.advance 1).map (fun u => ({ s with loader := u },[]))
  | .heart => (s.heart.advance 1).map (fun u => ({ s with heart := u },[]))

/-- The step comes to the end of `GetConfig` or of `ExecuteRequest`, neither of which has a return
statement. Every request does; of the loader's rounds it is the first piece. -/
def flowsOff (s : State) : Action → Bool
  | .getConfig | .respond | .interrupt => true
  | .serve i => s.flagOfMmserverOn && (s.starters[i]? = some .configured || s.starters[i]? = some .serving)
  | .loader => s.loader.phase = .working 0
  | .heart => s.heart.phase = .working 0 || s.heart.phase = .working 1
  | _ => false

def step (off : FlowOff) (s : State) (a : Action) : Option (State × List Event) :=
  if s.running && a.caller.all (fun c => c = s.caller) then
    (s.effect a).map (fun r =>
      match off with
      | .caller => r
      | .elsewhere => ({ r.1 with running := r.1.running && !s.flowsOff a },r.2))
  else none

end State

/-- All sequences of calls after `Init`, interleaved with the threads. -/
def machine (u : Setup) : Machine State Action Event where
  initial s := s = u.init
  step := State.step u.off

def deletedPart : Event → Option Part
  | .deleted part _ => some part
  | .used _ _ => none

/-- Components are live where they are used or deleted, and are deleted once. -/
def Valid (tr : List Event) : Prop :=
  (∀ part status, .used part status ∈ tr → status = .live) ∧
  (∀ part status, .deleted part status ∈ tr → status = .live) ∧
  ∀ part, (tr.filterMap deletedPart).count part ≤ 1

/-- The timeout of the requests that a call waits for, in milliseconds. Without one a request may
take forever. -/
def Caller.timeout (u : Setup) : Caller → Option ℕ
  | .requesting => some u.timeout.toNat
  | .interrupting => some 1000
  | _ => none

/-- A call that has not returned can do so: the process is not aborted, its requests come to an end
whatever the registry does, and a thread that the call waits for leaves its loop. -/
def Terminates (u : Setup) (s : State) : Prop :=
  s.caller ≠ .idle → s.running = true ∧ s.caller ≠ .destroying ∧ (∀ ms, s.caller.timeout u = some ms → 0 < ms) ∧
    (s.caller = .joining → s.loader.Ends 1)

/-- The next statement of a `StartServer` creates a thread in the place of another. -/
def Aborts (s : State) : StartPhase → Prop
  | .entered => s.flagOfConfigOn = true ∧ s.loader.joinable = true
  | .ready => s.ioThread = true
  | .announced => s.flagOfMmserverOn = true ∧ s.heart.joinable = true
  | _ => False

/-- The condition on a call and on a statement of `StartServer`. -/
def Allowed (u : Setup) (s : State) : Action → Prop
  | .getConfig => u.infos = true ∧ u.cfiFlag = true
  | .updateStatus => u.infos = true ∧ u.rtiFlag = true ∧ u.host = true ∧ 0 < u.timeout.toNat
  | .acqInstance => u.infos = true ∧ u.rtiFlag = true ∧ u.host = true
  | .stop => u.infos = true ∧ u.cfiFlag = true ∧ u.rtiFlag = true ∧ u.host = true ∧ s.loader.phase ≠ .created
  | .serve i => ∀ ph, s.starters[i]? = some ph →
    (ph = .configured ∨ ph = .serving ∨ ph = .announced → u.infos = true → u.rtiFlag = true → u.host = true) ∧
    (Aborts s ph → s.caller = .idle)
  | .destroy _ => False
  | _ => True

/-- The condition on a step, by the arguments of `Init`, what the memory holds and the state before
it. An end without a return statement comes back to its caller. -/
def Permitted (u : Setup) (_ : List Event) (s : State) (a : Action) : Prop :=
  Allowed u s a ∧ (s.flowsOff a = true → u.off = .caller)

variable {u : Setup} {s t : State} {a : Action} {tr es : List Event}

def Good (es : List Event) : Prop := ∀ e ∈ es, ∃ part, e = .used part .live

/-- The components stay as `Init` has made them, and a thread that is waited for has its
flag cleared and does not set it again. -/
structure Inv (u : Setup) (s : State) : Prop where
  status : s.status = u.status
  mmserver : s.flagOfMmserverOn = (u.infos && u.rtiFlag)
  config : s.flagOfConfigOn = (u.infos && u.cfiFlag)
  running : s.caller ≠ .idle → s.running = true
  alive : s.caller ≠ .destroying
  requesting : s.caller = .requesting → 0 < u.timeout.toNat
  stopping : s.caller ≠ .idle → u.infos = true ∧ u.rtiFlag = true ∧ u.host = true
  joining : s.caller = .joining →
    s.loader.on = false ∧ s.loader.phase ≠ .absent ∧ s.loader.phase ≠ .created

theorem live_impl (h : u.infos = true) : u.status .impl = .live := by rw [Setup.status, h]; rfl

theorem live_interact (hi : u.infos = true) (hr : u.rtiFlag = true) (hh : u.host = true) :
    u.status .interact = .live := by rw [Setup.status, hi, hr, hh]; rfl

theorem live_cfl (hi : u.infos = true) (hc : u.cfiFlag = true) : u.status .cfl = .live := by
  rw [Setup.status, hi, hc]
  rfl

theorem use_eq {parts : List Part} (h : ∀ p ∈ parts, s.status p = .live) (t : State) :
    s.use parts t = (t,parts.map (fun p => .used p .live)) := by
  have hall : parts.all (fun p => s.status p = .live) = true :=
    List.all_eq_true.mpr (fun p hp => decide_eq_true (h p hp))
  have hmap : parts.map (fun p => Event.used p (s.status p)) = parts.map (fun p => .used p .live) :=
    List.map_congr_left (fun p hp => by rw [h p hp])
  rw [State.use, if_pos hall, hmap]

theorem good_used (parts : List Part) : Good (parts.map (fun p => .used p .live)) := by
  intro e he
  obtain ⟨p,-,rfl⟩ := List.mem_map.mp he
  exact ⟨p,rfl⟩

theorem use_good {parts : List Part} (h : ∀ p ∈ parts, s.status p = .live) {t' : State}
    (he : s.use parts t = (t',es)) : t' = t ∧ Good es := by
  rw [use_eq h] at he
  cases he
  exact ⟨rfl,good_used parts⟩

theorem useIf_good {parts : List Part} {flag : Bool} (h : flag = true → ∀ p ∈ parts, s.status p = .live)
    {t' : State} (he : s.useIf flag parts t = (t',es)) : t' = t ∧ Good es := by
  cases flag with
  | true => exact use_good (h rfl) he
  | false =>
    cases he
    exact ⟨rfl,fun _ h => by cases h⟩

namespace Inv

theorem init (u : Setup) : Inv u u.init :=
  ⟨rfl,rfl,rfl,fun h => absurd rfl h,fun h => (by cases h),fun h => (by cases h),fun h => absurd rfl h,
    fun h => (by cases h)⟩

theorem next (hi : Inv u s) (i : ℕ) (ph : StartPhase) : Inv u (s.next i ph) :=
  ⟨hi.status,hi.mmserver,hi.config,hi.running,hi.alive,hi.requesting,hi.stopping,hi.joining⟩

/-- The call that was in progress is over. -/
theorem returned (hi : Inv u s) : Inv u { s with caller := .idle } :=
  ⟨hi.status,hi.mmserver,hi.config,fun h => absurd rfl h,fun h => (by cases h),fun h => (by cases h),
    fun h => absurd rfl h,fun h => (by cases h)⟩

theorem parts_config (hi : Inv u s) (h : s.flagOfConfigOn = true) : ∀ p ∈ [Part.impl,.cfl], s.status p = .live := by
  rw [hi.config, Bool.and_eq_true] at h
  rw [hi.status]
  simp [live_impl h.1,live_cfl h.1 h.2]

theorem parts_interact (hi : Inv u s) (h : u.infos = true) (hr : u.rtiFlag = true) (hh : u.host = true) :
    ∀ p ∈ [Part.impl,.interact], s.status p = .live := by
  rw [hi.status]
  simp [live_impl h,live_interact h hr hh]

/-- The threads that `StartServer` creates are not waited for. -/
theorem startConfig (hi : Inv u s) (h : s.loader.joinable = true → s.caller = .idle) : Inv u s.startConfig := by
  unfold State.startConfig
  split
  · rename_i hj
    exact ⟨hi.status,hi.mmserver,hi.config,fun hc => absurd (h hj) hc,hi.alive,hi.requesting,hi.stopping,hi.joining⟩
  · rename_i hj
    refine ⟨hi.status,hi.mmserver,hi.config,hi.running,hi.alive,hi.requesting,hi.stopping,fun hc => ?_⟩
    have habs : s.loader.phase ≠ .absent := (hi.joining hc).2.1
    exact absurd (decide_eq_true habs) hj

theorem startInteract (hi : Inv u s) (h : s.heart.joinable = true → s.caller = .idle) :
    Inv u s.startInteract := by
  unfold State.startInteract
  split
  · rename_i hj
    exact ⟨hi.status,hi.mmserver,hi.config,fun hc => absurd (h hj) hc,hi.alive,hi.requesting,hi.stopping,hi.joining⟩
  · exact ⟨hi.status,hi.mmserver,hi.config,hi.running,hi.alive,hi.requesting,hi.stopping,hi.joining⟩

theorem startIo (hi : Inv u s) (h : s.ioThread = true → s.caller = .idle) : Inv u s.startIo := by
  unfold State.startIo
  split
  · rename_i hj
    exact ⟨hi.status,hi.mmserver,hi.config,fun hc => absurd (h hj) hc,hi.alive,hi.requesting,hi.stopping,hi.joining⟩
  · exact ⟨hi.status,hi.mmserver,hi.config,hi.running,hi.alive,hi.requesting,hi.stopping,hi.joining⟩

theorem serve (hi : Inv u s) {i : ℕ} {ph : StartPhase}
    (hhost : ph = .configured ∨ ph = .serving ∨ ph = .announced → u.infos = true → u.rtiFlag = true → u.host = true)
    (habort : Aborts s ph → s.caller = .idle) (hs : s.serve i ph = some (t,es)) : Good es ∧ Inv u t := by
  have hparts : (ph = .configured ∨ ph = .serving ∨ ph = .announced) → s.flagOfMmserverOn = true →
      ∀ p ∈ [Part.impl,.interact], s.status p = .live := by
    intro hph hmm
    rw [hi.mmserver, Bool.and_eq_true] at hmm
    exact hi.parts_interact hmm.1 hmm.2 (hhost hph hmm.1 hmm.2)
  cases ph with
  | entered =>
    obtain ⟨rfl,hgood⟩ := useIf_good (fun h => hi.parts_config h) (Option.some.inj hs)
    refine ⟨hgood,?_⟩
    split
    · rename_i hflag
      exact (hi.next i .configured).startConfig (fun hj => habort ⟨hflag,hj⟩)
    · exact hi.next i .configured
  | configured =>
    obtain ⟨rfl,hgood⟩ := useIf_good (hparts (.inl rfl)) (Option.some.inj hs)
    exact ⟨hgood,hi.next i .ready⟩
  | ready =>
    have hlive : ∀ p ∈ [Part.service], s.status p = .live := by
      rw [hi.status]
      simp [Setup.status]
    obtain ⟨rfl,hgood⟩ := use_good hlive (Option.some.inj hs)
    exact ⟨hgood,(hi.next i .serving).startIo (fun hj => habort hj)⟩
  | serving =>
    obtain ⟨rfl,hgood⟩ := useIf_good (hparts (.inr (.inl rfl))) (Option.some.inj hs)
    exact ⟨hgood,hi.next i .announced⟩
  | announced =>
    obtain ⟨rfl,hgood⟩ := useIf_good (hparts (.inr (.inr rfl))) (Option.some.inj hs)
    refine ⟨hgood,?_⟩
    split
    · rename_i hflag
      exact (hi.next i .running).startInteract (fun hj => habort ⟨hflag,hj⟩)
    · exact hi.next i .running
  | running => cases hs

theorem stop (hi : Inv u s) (hinfos : u.infos = true) (hcfi : u.cfiFlag = true) (hrti : u.rtiFlag = true)
    (hhost : u.host = true) (hcreated : s.loader.phase ≠ .created) (hrun : s.running = true)
    (hs : s.stop = (t,es)) : Good es ∧ Inv u t := by
  have hlive : ∀ p ∈ [Part.impl,.cfl], s.status p = .live := by
    rw [hi.status]
    simp [live_impl hinfos,live_cfl hinfos hcfi]
  obtain ⟨rfl,hgood⟩ := use_good hlive hs
  have hnext : (if s.loader.joinable then Caller.joining else .interrupting) = .joining ∨
      (if s.loader.joinable then Caller.joining else .interrupting) = .interrupting := by
    split
    · exact .inl rfl
    · exact .inr rfl
  refine ⟨hgood,hi.status,hi.mmserver,hi.config,fun _ => hrun,?_,?_,fun _ => ⟨hinfos,hrti,hhost⟩,
    fun hc => ⟨rfl,?_,hcreated⟩⟩
  · rcases hnext with h | h <;> exact fun hc => by cases h.symm.trans hc
  · rcases hnext with h | h <;> exact fun hc => by cases h.symm.trans hc
  intro habs
  have hj : s.loader.joinable = false := decide_eq_false (not_not.mpr habs)
  rw [hj] at hc
  cases hc

/-- A thread that has begun and whose flag is cleared stays like this. -/
theorem loader (hi : Inv u s) (hrun : s.running = true) {v : LoopThread} (hs : s.loader.advance 1 = some v) :
    Inv u { s with loader := v } := by
  refine ⟨hi.status,hi.mmserver,hi.config,fun _ => hrun,hi.alive,hi.requesting,hi.stopping,fun hc => ?_⟩
  obtain ⟨hoff,habs,hcre⟩ := hi.joining hc
  exact LoopThread.advance_off hoff hcre hs

/-- What an allowed step does uses live components and keeps the invariant. -/
theorem effect (hi : Inv u s) (hp : Allowed u s a) (hrun : s.running = true)
    (hcaller : a.caller.all (fun c => c = s.caller) = true) (hs : s.effect a = some (t,es)) : Good es ∧ Inv u t := by
  have hnil : Good [] := fun _ h => by cases h
  cases a with
  | registerFun =>
    obtain ⟨rfl,hgood⟩ := use_good (by rw [hi.status]; simp [Setup.status]) (Option.some.inj hs)
    exact ⟨hgood,hi⟩
  | getConfig =>
    obtain ⟨rfl,hgood⟩ := use_good (hi.parts_config (by rw [hi.config, hp.1, hp.2]; rfl)) (Option.some.inj hs)
    exact ⟨hgood,hi⟩
  | updateStatus =>
    obtain ⟨hinfos,hrti,hhost,htimeout⟩ := hp
    obtain ⟨rfl,hgood⟩ := use_good (hi.parts_interact hinfos hrti hhost) (Option.some.inj hs)
    exact ⟨hgood,hi.status,hi.mmserver,hi.config,fun _ => hrun,fun hc => (by cases hc),fun _ => htimeout,
      fun _ => ⟨hinfos,hrti,hhost⟩,fun hc => (by cases hc)⟩
  | respond =>
    cases hs
    exact ⟨hnil,hi.returned⟩
  | acqInstance =>
    obtain ⟨rfl,hgood⟩ := use_good (hi.parts_interact hp.1 hp.2.1 hp.2.2) (Option.some.inj hs)
    exact ⟨hgood,hi⟩
  | startServer =>
    cases hs
    exact ⟨hnil,hi.status,hi.mmserver,hi.config,hi.running,hi.alive,hi.requesting,hi.stopping,hi.joining⟩
  | serve i =>
    obtain ⟨ph,hph,hs⟩ := Option.bind_eq_some_iff.mp hs
    obtain ⟨hhost,habort⟩ := hp ph hph
    exact hi.serve hhost habort hs
  | stop =>
    obtain ⟨hinfos,hcfi,hrti,hhost,hcreated⟩ := hp
    exact hi.stop hinfos hcfi hrti hhost hcreated hrun (Option.some.inj hs)
  | join =>
    obtain ⟨v,hv,he⟩ := Option.map_eq_some_iff.mp hs
    cases he
    have hbusy : s.caller ≠ .idle := by
      rw [← of_decide_eq_true hcaller]
      exact fun h => by cases h
    exact ⟨hnil,hi.status,hi.mmserver,hi.config,fun _ => hrun,fun hc => (by cases hc),fun hc => (by cases hc),
      fun _ => hi.stopping hbusy,fun hc => (by cases hc)⟩
  | interrupt =>
    have hbusy : s.caller ≠ .idle := by
      rw [← of_decide_eq_true hcaller]
      exact fun h => by cases h
    obtain ⟨hinfos,hrti,hhost⟩ := hi.stopping hbusy
    obtain ⟨rfl,hgood⟩ := use_good (hi.parts_interact hinfos hrti hhost) (Option.some.inj hs)
    exact ⟨hgood,hi.returned⟩
  | destroy _ => exact hp.elim
  | loader =>
    obtain ⟨v,hv,he⟩ := Option.map_eq_some_iff.mp hs
    cases he
    exact ⟨hnil,hi.loader hrun hv⟩
  | heart =>
    obtain ⟨v,hv,he⟩ := Option.map_eq_some_iff.mp hs
    cases he
    exact ⟨hnil,hi.status,hi.mmserver,hi.config,hi.running,hi.alive,hi.requesting,hi.stopping,hi.joining⟩

/-- A permitted step comes to no end that leads elsewhere. -/
theorem step_effect (hp : Permitted u tr s a) (hs : s.step u.off a = some (t,es)) :
    s.running = true ∧ a.caller.all (fun c => c = s.caller) = true ∧ s.effect a = some (t,es) := by
  rw [State.step] at hs
  split at hs
  · rename_i hturn
    rw [Bool.and_eq_true] at hturn
    refine ⟨hturn.1,hturn.2,?_⟩
    obtain ⟨⟨r,res⟩,hr,he⟩ := Option.map_eq_some_iff.mp hs
    cases hoff : u.off with
    | caller =>
      rw [hoff] at he
      exact hr.trans (congrArg some he)
    | elsewhere =>
      have hno : s.flowsOff a = false := by
        refine Bool.eq_false_iff.mpr (fun hflow => ?_)
        have hcaller := hp.2 hflow
        rw [hoff] at hcaller
        cases hcaller
      rw [hoff] at he
      dsimp only at he
      rw [hno, Bool.not_false, Bool.and_true] at he
      exact hr.trans (congrArg some he)
  · cases hs

/-- One permitted step uses live components and keeps the invariant. -/
theorem step (hi : Inv u s) (hp : Permitted u tr s a) (hs : s.step u.off a = some (t,es)) : Good es ∧ Inv u t := by
  obtain ⟨hrun,hcaller,heffect⟩ := step_effect hp hs
  exact hi.effect hp.1 hrun hcaller heffect

end Inv

theorem Good.valid (h : Good tr) : Valid tr := by
  have hdeleted : tr.filterMap deletedPart = [] := by
    rw [List.filterMap_eq_nil_iff]
    intro e he
    obtain ⟨part,rfl⟩ := h e he
    rfl
  refine ⟨fun part status hmem => ?_,fun part status hmem => ?_,fun part => ?_⟩
  · obtain ⟨_,he⟩ := h _ hmem
    cases he
    rfl
  · obtain ⟨_,he⟩ := h _ hmem
    cases he
  · rw [hdeleted]
    exact Nat.zero_le _

theorem runs_inv (hr : (machine u).Runs (Permitted u) tr s) : Good tr ∧ Inv u s := by
  refine hr.invariant (I := fun tr s => Good tr ∧ Inv u s) ?_ ?_
  · rintro s rfl
    exact ⟨fun _ h => (by cases h),Inv.init u⟩
  · intro tr s a t es _ hi hp hs
    obtain ⟨hgood,hinv⟩ := hi.2.step hp hs
    refine ⟨fun e he => ?_,hinv⟩
    rcases List.mem_append.mp he with he | he
    · exact hi.1 e he
    · exact hgood e he

/-- The destructor never returns, whatever there is and whoever waits. -/
theorem destroy_stays {waits : Bool} (hs : (machine u).step s (.destroy waits) = some (t,es)) :
    ¬ Terminates u t := by
  have hcaller : t.caller = .destroying := by
    change State.step u.off s (.destroy waits) = _ at hs
    rw [State.step] at hs
    split at hs
    · obtain ⟨r,hr,he⟩ := Option.map_eq_some_iff.mp hs
      cases hr
      cases hoff : u.off <;> rw [hoff] at he <;> cases he <;> rfl
    · cases hs
  exact fun h => (h (by rw [hcaller]; exact fun hc => by cases hc)).2.1 hcaller

def fullSetup : Setup := ⟨true,true,true,true,100,.caller⟩

/-- The condition on a step, as far as a run of the full setup meets it by its states. -/
def permits (_ : List Event) (s : State) : Action → Bool
  | .stop => s.loader.phase ≠ .created
  | .serve _ => s.caller = .idle
  | .destroy _ => false
  | _ => true

theorem permitted_of_permits (tr : List Event) (s : State) (a : Action) (h : permits tr s a = true) :
    Permitted fullSetup tr s a := by
  refine ⟨?_,fun _ => rfl⟩
  cases a with
  | stop => exact ⟨rfl,rfl,rfl,rfl,of_decide_eq_true h⟩
  | serve i => exact fun ph _ => ⟨fun _ _ _ => rfl,fun _ => of_decide_eq_true h⟩
  | destroy _ => cases h
  | getConfig => exact ⟨rfl,rfl⟩
  | updateStatus => exact ⟨rfl,rfl,rfl,by decide⟩
  | acqInstance => exact ⟨rfl,rfl,rfl⟩
  | registerFun | respond | startServer | join | interrupt | loader | heart => trivial

end Kbms.Lifecycle
