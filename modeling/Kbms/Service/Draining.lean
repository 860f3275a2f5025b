import Kbms.Foundation.Termination
import Kbms.Concurrency.PoolProgress
import Kbms.Network.IoProgress
import Kbms.Service.Ordering

/-! # The service comes to rest

Left to itself the service does what it has to do and stops. Each request has a bounded amount
of work ahead of it, which every step of a thread makes smaller, and no thread is stuck while
there is work: a worker that sleeps is woken for a task, and the mailbox has a byte or a swap
ahead of it. All requests whose handlers reply are therefore replied to, under any scheduling.
-/
namespace Kbms.Service
open Foundation
variable {H : Type*} {setup : Setup H} {s t : Service} {tr es : List (Event H)} {i p : ℕ} {c : Callback}
variable {P : List (Event H) → Service → Action → Prop}

/-- The handlers keep their contract, and the timeout handler does not throw. -/
def Orderly (tr : List (Event H)) (s : Service) (a : Action) : Prop :=
  HandlerContract tr s a ∧ ∀ i p, a = .finish i .threw → s.threadPool.workers[i]? ≠ some (.inside p .expireFun)

/-- A step of the threads of the service. Requests and spurious wakeups come from outside. -/
def Action.own : Action → Bool
  | .receive _ _ _ | .schedule (.spurious _) => false
  | _ => true

def Internal (tr : List (Event H)) (s : Service) (a : Action) : Prop := a.own = true ∧ Orderly tr s a

/-- The work that is left: that of the pool, of the mailbox, and of the requests that have not
been responded to. -/
def load (tr : List (Event H)) (s : Service) : ℕ :=
  s.threadPool.load + s.ioThread.load + 6 * (s.requests - (respondedTo tr).length)

theorem responded_le (hr : (machine setup).Runs HandlerContract tr s) : (respondedTo tr).length ≤ s.requests := by
  have hcrew := Overtaking.bounded_of_runs (runs_crew hr)
  have hsub : respondedTo tr ⊆ List.range s.requests := by
    intro r hmem
    have hlt := hcrew.done r hmem
    exact List.mem_range.mpr (hlt.trans_le (Nat.sub_le _ _))
  have hle := (hcrew.nodup.subperm hsub).length_le
  rwa [List.length_range] at hle

theorem alive_of_runs (hr : (machine setup).Runs Orderly tr s) : s.threadPool.Alive := by
  refine hr.invariant (I := fun _ s => s.threadPool.Alive) ?_ (fun tr s a t es _ h hp hs => ?_)
  · rintro _ ⟨st,rfl⟩
    exact ⟨fun hne => absurd rfl hne,fun w hw => (by cases hw)⟩
  · cases a with
    | receive path now k =>
      obtain ⟨built,pool,hbuild,hadd,_,_,rfl,_⟩ := coreHandleRequest_cases hs
      obtain ⟨_,_,rfl⟩ := ThreadPool.construct_cases hbuild
      have hbuilt : ThreadPool.Alive { s.threadPool with
        tasks := Function.update s.threadPool.tasks s.requests (some (newTask setup s.requests path now)) } :=
        ⟨h.running,h.here⟩
      exact hbuilt.step (a := .addTask s.requests k) (by simp) (by simp) hadd
    | schedule b =>
      obtain ⟨hb,pool,pes,hpool,rfl,_⟩ := schedule_cases hs
      refine h.step ?_ ?_ hpool
      · rintro rfl
        cases hb
      · rintro i p rfl
        cases hb
    | enter i =>
      obtain ⟨pool,pes,hpool,⟨_,_,_,_,rfl,_⟩ | ⟨_,rfl,_⟩⟩ := enter_cases hs
      · exact h.step (a := .enter i) (by simp) (by simp) hpool
      · exact h.step (a := .enter i) (by simp) (by simp) hpool
    | finish i o =>
      obtain ⟨_,pool,pes,hpool,rfl,_⟩ := finish_cases hs
      refine h.step (a := .finish i o) (by simp) (fun j p he => ?_) hpool
      cases he
      exact hp.2 i p rfl
    | respond thread k resBody =>
      obtain ⟨_,_,rfl,_⟩ := complete_cases hs
      exact h
    | io b evbufferNew =>
      obtain ⟨_,_,_,_,rfl,_⟩ := ioStep_cases hs
      exact h

theorem orderly_contract (hr : (machine setup).Runs Orderly tr s) : (machine setup).Runs HandlerContract tr s :=
  hr.mono (fun _ _ _ _ h => h.1)

theorem load_pool {pool : ThreadPool Closure} {es : List (Event H)} (hresp : respondedTo es = [])
    (hlt : pool.load < s.threadPool.load) (respcbs : List HttpContext) :
    load (tr ++ es) { s with threadPool := pool, respcbs := respcbs } < load tr s := by
  rw [load, load, respondedTo_append, hresp, List.append_nil]
  dsimp only
  omega

/-- Every step of a thread of the service leaves less work. -/
theorem descends (setup : Setup H) : (machine setup).Descends Orderly Internal load where
  permitted := fun _ _ _ h => h.2
  step := by
    intro tr s a t es hr hq hs
    have hnext := orderly_contract (hr.next hq.2 hs)
    cases a with
    | receive path now k => cases hq.1
    | schedule b =>
      obtain ⟨hb,pool,pes,hpool,rfl,rfl⟩ := schedule_cases hs
      have hown : b.own = true := by
        cases b with
        | init | spawn _ | acquire _ _ => rfl
        | spurious _ => cases hq.1
        | _ => cases hb
      exact load_pool (respondedTo_pool pes) (ThreadPool.step_load hown hpool) s.respcbs
    | enter i =>
      obtain ⟨pool,pes,hpool,⟨cl,h,_,_,rfl,rfl⟩ | ⟨_,rfl,rfl⟩⟩ := enter_cases hs
      · have hlt := ThreadPool.step_load (a := .enter i) rfl hpool
        refine load_pool ?_ hlt (s.respcbs ++ [cl.hct])
        rw [respondedTo_append, respondedTo_pool]
        rfl
      · exact load_pool (respondedTo_pool pes) (ThreadPool.step_load (a := .enter i) rfl hpool) s.respcbs
    | finish i o =>
      obtain ⟨_,pool,pes,hpool,rfl,rfl⟩ := finish_cases hs
      exact load_pool (respondedTo_pool pes) (ThreadPool.step_load (a := .finish i o) rfl hpool) s.respcbs
    | respond thread k resBody =>
      obtain ⟨ctx,_,rfl,rfl⟩ := complete_cases hs
      have hle := responded_le hnext
      have hsub := IoThread.submit_load setup.capacity s.ioThread (⟨ctx,resBody⟩ : Reply)
      have hone : respondedTo [.responded thread k ctx resBody,Event.io (H := H) (.submitted ⟨ctx,resBody⟩)] =
          [ctx.req] := rfl
      rw [respondedTo_append, hone, List.length_append, List.length_singleton] at hle
      rw [load, load, respondedTo_append, hone, List.length_append, List.length_singleton]
      dsimp only at hle ⊢
      omega
    | io b evbufferNew =>
      obtain ⟨io,ies,hio,hno,rfl,rfl⟩ := ioStep_cases hs
      have hb : ∀ f, b ≠ .submit f := by
        rintro f rfl
        cases hs
      have hlt := IoThread.step_load hb hio
      have hnone : respondedTo (ies.flatMap (ioEvents (H := H) setup.evbuffer evbufferNew)) = [] := by
        rw [respondedTo, responses, filterMap_ioEvents response (fun _ => rfl) (fun _ _ _ => rfl)]
        rfl
      rw [load, load, respondedTo_append, hnone, List.append_nil]
      dsimp only
      omega

/-- The closure that a worker is in, and the request it belongs to. -/
theorem inside_closure (hr : (machine setup).Runs P tr s) (hw : s.threadPool.workers[i]? = some (.inside p c)) :
    ∃ path arrived u cl, .received p path arrived ∈ tr ∧ s.threadPool.tasks p = some u ∧
      (newTask setup p path arrived).SameWork u ∧ u.callback c = some cl ∧ closureAt s.threadPool i = some cl := by
  have hpool := runs_pool hr
  have hadded : p ∈ ThreadPool.addedTasks (poolTrace tr) := by
    rw [ThreadPool.added_eq hpool]
    exact List.mem_append_left _ (ThreadPool.held_dequeued (ThreadPool.ledger_of_runs hpool)
      (List.mem_of_getElem? hw) rfl)
  obtain ⟨path,arrived,hrec⟩ := added_received hr hadded
  obtain ⟨u,hu,hsame⟩ := (ties_of_runs hr).built p path arrived hrec
  obtain ⟨cl,hcl⟩ : ∃ cl, u.callback c = some cl := by
    rw [hsame.callback]
    cases c <;> exact ⟨_,rfl⟩
  exact ⟨path,arrived,u,cl,hrec,hu,hsame,hcl,by rw [closureAt, hw]; dsimp only; rw [hu, Option.bind_some, hcl]⟩

theorem inside_entered (hr : (machine setup).Runs P tr s) (hw : s.threadPool.workers[i]? = some (.inside p c)) :
    0 < (poolTrace tr).countP (ThreadPool.enters p c) := by
  have hin := (ThreadPool.ledger_of_runs (runs_pool hr)).inside p c
  have hpos : 0 < s.threadPool.workers.countP (· = .inside p c) :=
    List.countP_pos_iff.mpr ⟨_,List.mem_of_getElem? hw,decide_eq_true rfl⟩
  omega

/-- A worker that is in a user handler has entered it, and one that is in none has not. -/
theorem inside_handler_iff (hr : (machine setup).Runs P tr s) (hw : s.threadPool.workers[i]? = some (.inside p c))
    {cl : Closure} (hcl : closureAt s.threadPool i = some cl) :
    p ∈ handlerEntries tr ↔ ∃ h, setup.handlers.call cl = .handler h := by
  obtain ⟨path,arrived,u,cl',hrec,hu,hsame,hc,hcl'⟩ := inside_closure hr hw
  obtain rfl : cl' = cl := Option.some.inj (hcl'.symm.trans hcl)
  have hent := inside_entered hr hw
  constructor
  · intro hp
    obtain ⟨j,h,he⟩ := mem_handlerEntries.mp hp
    obtain ⟨d,v,cl,hd,hv,hvc,hcall⟩ := (ties_of_runs hr).routed j p h he
    have hpos := ThreadPool.enters_pos (mem_poolTrace.mpr hd)
    have hone := ThreadPool.enters_le_one (runs_pool hr) p
    obtain rfl : d = c := by
      cases d <;> cases c <;> first | rfl | omega
    rw [hu] at hv
    cases hv
    rw [hc] at hvc
    cases hvc
    exact ⟨h,hcall⟩
  · rintro ⟨h,hcall⟩
    obtain ⟨e,he,henter⟩ := List.countP_pos_iff.mp hent
    cases e with
    | entered j q d =>
      simp only [ThreadPool.enters, decide_eq_true_eq] at henter
      obtain ⟨rfl,rfl⟩ := henter
      obtain ⟨k,now,hdeq⟩ := ThreadPool.entered_dequeued (runs_pool hr) he
      have hchoice := dequeued_choice hr hrec (mem_poolTrace.mp hdeq)
      obtain rfl := Option.some.inj hchoice
      exact entered_handler hr (mem_poolTrace.mp he) hrec ((call_handlerFor hsame hc).mp hcall)
    | _ => cases henter

theorem finish_possible (hr : (machine setup).Runs P tr s) (hw : s.threadPool.workers[i]? = some (.inside p c))
    {cl : Closure} (hcl : closureAt s.threadPool i = some cl) {o : Outcome}
    (ho : Call.ends (setup.handlers.call cl) o = true) : step setup s (.finish i o) ≠ none := by
  obtain ⟨_,_,u,cl',_,hu,_,hc,_⟩ := inside_closure hr hw
  rw [step, finish, hcl, if_pos (by simpa using ho), ThreadPool.finish, hw]
  dsimp only
  rw [hu, Option.bind_some]
  cases o with
  | returned => simp [hc]
  | threw => simp

/-- A worker in a closure can go on: a user handler responds and returns, and the other closures
end as they must. -/
theorem Stuck.not_inside (hr : (machine setup).Runs Orderly tr s) (hstuck : (machine setup).Stuck Internal (tr,s)) :
    s.threadPool.workers[i]? ≠ some (.inside p c) := by
  intro hw
  obtain ⟨path,arrived,u,cl,hrec,hu,hsame,hc,hcl⟩ := inside_closure hr hw
  have hiff := inside_handler_iff hr hw hcl
  have hcontract : ∀ o, (p ∈ handlerEntries tr → (p ∈ respondedTo tr ↔ o = .returned)) →
      HandlerContract tr s (.finish i o) := by
    intro o ho q d hq hmem
    rw [hw] at hq
    cases hq
    exact ho hmem
  have hreturns : (p ∈ handlerEntries tr → p ∈ respondedTo tr) → Call.ends (setup.handlers.call cl) .returned = true →
      False := by
    intro hresp hends
    refine finish_possible hr hw hcl hends (hstuck (.finish i .returned) ⟨rfl,?_,fun j q he => (by cases he)⟩)
    exact hcontract .returned (fun hmem => ⟨fun _ => rfl,fun _ => hresp hmem⟩)
  cases hcall : setup.handlers.call cl with
  | handler h =>
    have hmem := hiff.mpr ⟨h,hcall⟩
    by_cases hresp : p ∈ respondedTo tr
    · exact hreturns (fun _ => hresp) (by rw [hcall]; rfl)
    · rw [← (ties_of_runs hr).handed] at hmem
      obtain ⟨k,hk⟩ := List.getElem?_of_mem hmem
      rw [List.getElem?_map] at hk
      obtain ⟨ctx,hctx,rfl⟩ := Option.map_eq_some_iff.mp hk
      have hnone := hstuck (.respond (.worker i) k []) ⟨rfl,⟨i,ctx,c,rfl,hctx,hw,hresp⟩,fun j q he => (by cases he)⟩
      simp [machine,step,complete,hctx] at hnone
  | nothing =>
    refine hreturns (fun hmem => ?_) (by rw [hcall]; rfl)
    obtain ⟨h,hh⟩ := hiff.mp hmem
    rw [hcall] at hh
    cases hh
  | badFunctionCall =>
    have htask : c = .taskFun := by
      cases c with
      | taskFun => rfl
      | expireFun =>
        have hexp := (newTask_callback hsame hc).2
        dsimp only at hexp
        rw [hexp, Handlers.call] at hcall
        split at hcall <;> cases hcall
    subst htask
    refine finish_possible hr hw hcl (o := .threw) (by rw [hcall]; rfl) (hstuck (.finish i .threw) ⟨rfl,?_,?_⟩)
    · refine hcontract .threw (fun hmem => ?_)
      obtain ⟨h,hh⟩ := hiff.mp hmem
      rw [hcall] at hh
      cases hh
    · intro j q he
      cases he
      rw [hw]
      simp

theorem Stuck.pool (hr : (machine setup).Runs Orderly tr s) (hstuck : (machine setup).Stuck Internal (tr,s)) :
    s.threadPool.workers ≠ [] ∧
    ∀ w ∈ s.threadPool.workers, w ≠ .unborn ∧ ThreadPool.Worker.locking w = false ∧ w.work = none := by
  have hown : ∀ b : ThreadPool.Action Closure, own b = true → (Action.schedule b).own = true →
      s.threadPool.step b ≠ none → False := by
    intro b hb hbown hsome
    have hnone := hstuck (.schedule b) ⟨hbown,trivial,fun j q he => (by cases he)⟩
    simp only [machine, step, schedule, if_pos hb, Option.map_eq_none_iff] at hnone
    exact hsome hnone
  refine ⟨fun hnil => ?_,fun w hmem => ?_⟩
  · exact hown .init rfl rfl (by simp [ThreadPool.step,ThreadPool.init,hnil])
  · obtain ⟨i,hw⟩ := List.getElem?_of_mem hmem
    cases w with
    | unborn => exact (hown (.spawn i) rfl rfl (by simp [ThreadPool.step,ThreadPool.advance,hw])).elim
    | start | woken | relock =>
      exact (hown (.acquire i 0) rfl rfl (by simp [ThreadPool.step,ThreadPool.acquire,hw])).elim
    | selected p c =>
      obtain ⟨u,hu,_⟩ := (ThreadPool.freshInv_of_runs (runs_pool hr)).agrees _ hmem p c rfl
      have hnone := hstuck (.enter i) ⟨rfl,trivial,fun j q he => (by cases he)⟩
      simp [machine,step,enter,ThreadPool.enter,hw,hu] at hnone
    | inside p c => exact absurd hw (Stuck.not_inside hr hstuck)
    | waiting | exited | escaped | faulted => exact ⟨by simp,rfl,rfl⟩

/-- The service stops only where there is nothing left to do. -/
theorem Stuck.quiet (hcap : 0 < setup.capacity) (hr : (machine setup).Runs Orderly tr s)
    (hstuck : (machine setup).Stuck Internal (tr,s)) : Quiet s := by
  have hpool := runs_pool hr
  obtain ⟨hne,hidle⟩ := Stuck.pool hr hstuck
  refine ⟨?_,fun w hw => (hidle w hw).2.2,?_⟩
  · exact (alive_of_runs hr).queue_empty (ThreadPool.wakeupInv_of_runs hpool.any) (ThreadPool.notFaulted hpool) hne hidle
  · by_contra hpending
    obtain ⟨b,hb,hsome⟩ := (IoThread.noticed_of_runs hcap (runs_ioThread hr)).exists_step
      setup.capacity hpending
    have hnone := hstuck (.io b true) ⟨rfl,rfl,fun j q he => (by cases he)⟩
    cases b with
    | submit f => exact hb f rfl
    | start | recv _ | swap | call | ret =>
      simp only [machine, step, ioStep, Option.map_eq_none_iff] at hnone
      exact hsome hnone

/-- Left to itself the service stops after a bounded number of steps, in whatever order its
threads take them. Where it stops it is quiet, and every request that has a handler has been
replied to. -/
theorem comes_to_rest (hcap : 0 < setup.capacity) (hr : (machine setup).Runs Orderly tr s) :
    (∀ n c, (machine setup).Steps Internal n (tr,s) c → n ≤ load tr s) ∧
    (∃ n c, (machine setup).Steps Internal n (tr,s) c ∧ (machine setup).Stuck Internal c) ∧
    ∀ n tr' s', (machine setup).Steps Internal n (tr,s) (tr',s') → (machine setup).Stuck Internal (tr',s') →
      Quiet s' ∧ ∀ r path arrived, .received r path arrived ∈ tr' → Served setup tr' r path arrived →
        ∃ thread body, .sendReply thread r body ∈ tr' := by
  refine ⟨fun n c h => ?_,(descends setup).exists_stuck hr,fun n tr' s' h hstuck => ?_⟩
  · have hbound := (descends setup).bound hr h
    dsimp only at hbound
    omega
  · have hr' := h.runs (descends setup).permitted hr
    have hq := Stuck.quiet hcap hr' hstuck
    have hcontract := orderly_contract hr'
    refine ⟨hq,fun r path arrived hrec hserved => ?_⟩
    exact (quiet_replied_iff hcontract hq).mpr ((responded_iff_served hcontract hq hrec).mpr hserved)

def checkOrderly (tr : List (Event ℕ)) (s : Service) (a : Action) : Bool :=
  checkContract tr s a && match a with
    | .finish i .threw =>
      match s.threadPool.workers[i]? with
      | some (.inside _ .expireFun) => false
      | _ => true
    | _ => true

theorem checkOrderly_sound (tr : List (Event ℕ)) (s : Service) (a : Action) (h : checkOrderly tr s a = true) :
    Orderly tr s a := by
  obtain ⟨hcontract,hthrow⟩ := Bool.and_eq_true_iff.mp h
  refine ⟨checkContract_sound tr s a hcontract,?_⟩
  rintro i p rfl hw
  simp [hw] at hthrow

/-- A request that nobody has looked at yet. -/
theorem comes_to_rest_echo : ∃ tr, ∃ s : Service, (machine served).Runs Orderly tr s ∧
    s.threadPool.taskQueue = [0] ∧ load tr s = 12 ∧
    (∀ n c, (machine served).Steps Internal n (tr,s) c → n ≤ load tr s) ∧
    (∃ n c, (machine served).Steps Internal n (tr,s) c ∧ (machine served).Stuck Internal c) ∧
    ∀ n tr' s', (machine served).Steps Internal n (tr,s) (tr',s') → (machine served).Stuck Internal (tr',s') →
      Quiet s' ∧ ∀ r path arrived, .received r path arrived ∈ tr' → Served served tr' r path arrived →
        ∃ thread body, .sendReply thread r body ∈ tr' := by
  obtain ⟨c,hc,hqueue,hload⟩ : ∃ c, (machine served).replay checkOrderly
      [.schedule .init,.schedule (.spawn 0),.schedule (.spawn 1),.receive "/echo" 100 0]
      ([],new served .unknowing) = some c ∧ c.2.threadPool.taskQueue = [0] ∧ load c.1 c.2 = 12 := ⟨_,rfl,rfl,rfl⟩
  have hr := Machine.replay_runs checkOrderly_sound (runs_new served .unknowing) hc
  exact ⟨_,_,hr,hqueue,hload,comes_to_rest (by decide) hr⟩

end Kbms.Service
