import Kbms.Service.Draining
import Kbms.Service.LockedRefinement

/-! # The service comes to rest, one statement at a time

The workers wait for the mutex of the pool, and a worker in a handler for that of the mailbox as
well, which the IO thread needs too. No thread waits for one of them while it has the other, so
left to themselves all of them go on until there is nothing left to do. What has been replied to
by then is read off the service of sections.
-/
namespace Kbms.LockedService
open Foundation
variable {H : Type*} {setup : Setup H} {others : ℕ} {s t : LockedService} {s' : Service}
  {tr es : List (Event H)} {tr' : List (Kbms.Event H)} {i j p : ℕ} {c : Callback} {a : Action}

section Contract

def handlerEntry : Event H → Option ℕ
  | .handlerEntered _ req _ => some req
  | _ => none

def reply : Event H → Option (ℕ × Bytes)
  | .sendReply req body => some (req,body)
  | _ => none

def handlerEntries (tr : List (Event H)) : List ℕ := tr.filterMap handlerEntry
def replies (tr : List (Event H)) : List (ℕ × Bytes) := tr.filterMap reply
def respondedTo (tr : List (Event H)) : List ℕ := (responses tr).map (fun f => f.ctx.req)

/-- A handler calls its send-response callback once, while it runs, and returns, or it throws
before the call; the timeout handler does not throw; and `evbuffer_new` does not fail. -/
def Orderly (tr : List (Event H)) (s : LockedService) : Action → Prop
  | .respond j k _ => ∃ ctx c, s.respcbs[k]? = some ctx ∧
      s.threadPool.threads[j]? = some (.inside ctx.req c) ∧ ctx.req ∉ respondedTo tr
  | .finish i o => ∀ p c, s.threadPool.threads[i]? = some (.inside p c) → (c = .expireFun → o = .returned) ∧
      (p ∈ handlerEntries tr → (p ∈ respondedTo tr ↔ o = .returned))
  | .mailbox _ evbufferNew => evbufferNew = true
  | _ => True

/-- The statements of the threads. Requests and spurious wakeups come from outside. -/
def Action.own : Action → Bool
  | .receive _ _ _ | .schedule (.spurious _) => false
  | _ => true

def Internal (tr : List (Event H)) (s : LockedService) (a : Action) : Prop := a.own = true ∧ Orderly tr s a

theorem Orderly.permitted (h : Orderly tr s a) : Permitted tr s a := by
  cases a with
  | finish i o => exact fun p hp => (h p .expireFun hp).1 rfl
  | receive _ _ _ | schedule _ | worker _ _ | respond _ _ _ | mailbox _ _ => trivial

theorem runs_permitted (hr : (machine setup others).Runs Orderly tr s) : (machine setup others).Runs Permitted tr s :=
  hr.mono (fun _ _ _ _ h => h.permitted)

theorem respondedTo_append (xs ys : List (Event H)) : respondedTo (xs ++ ys) = respondedTo xs ++ respondedTo ys := by
  rw [respondedTo, responses_append, List.map_append, respondedTo, respondedTo]

theorem respondedTo_silent (h : responses es = []) : respondedTo (tr ++ es) = respondedTo tr := by
  rw [respondedTo_append, respondedTo, respondedTo, h, List.map_nil, List.append_nil]

/-- Only a call of `Complete` is a response. -/
theorem responses_step (hs : step setup s a = some (t,es)) (ha : ∀ j k body, a ≠ .respond j k body) :
    responses es = [] := by
  cases step_stepped hs with
  | receive _ _ _ => rfl
  | schedule _ _ | finish _ _ _ _ => exact responses_pool _
  | worker _ =>
    rw [responses_append, responses_pool]
    simp [responses,response,Function.comp_def]
  | respond _ _ _ => exact absurd rfl (ha _ _ _)
  | mailbox _ _ => exact responses_mailbox _ _ _

end Contract

section Seen

/-- What can be read off the visible events is the same in both traces. -/
theorem Explained.filterMap_eq {α : Type*} (h : Explained tr s tr' s') (f : Kbms.Event H → Option α)
    (hf : ∀ e, isVisible e = false → f e = none) :
    tr'.filterMap f = tr.filterMap (fun e => (visible e).bind f) := by
  have hfilter : (tr'.filter isVisible).filterMap f = tr'.filterMap f := by
    rw [List.filterMap_filter]
    congr 1
    funext e
    cases he : isVisible e with
    | true => rfl
    | false => exact (hf e he).symm
  rw [← hfilter, ← h.seen, List.filterMap_filterMap]

theorem Explained.mem_iff {d : Event H} {e : Kbms.Event H} (h : Explained tr s tr' s') (hd : visible d = some e)
    (hvis : isVisible e = true) (honly : ∀ x, visible x = some e → x = d) : e ∈ tr' ↔ d ∈ tr := by
  have hmem : e ∈ tr' ↔ e ∈ tr.filterMap visible := by
    rw [h.seen, List.mem_filter]
    exact (and_iff_left hvis).symm
  rw [hmem, List.mem_filterMap]
  constructor
  · rintro ⟨x,hx,he⟩
    exact honly x he ▸ hx
  · exact fun hmem => ⟨d,hmem,hd⟩

theorem Explained.handlerEntries (h : Explained tr s tr' s') : Service.handlerEntries tr' = handlerEntries tr := by
  refine (h.filterMap_eq Service.handlerEntry (fun e he => ?_)).trans ?_
  · cases e <;> first | rfl | cases he
  · refine congrArg (List.filterMap · tr) (funext (fun e => ?_))
    cases e with
    | pool e | mailbox e => cases e <;> rfl
    | _ => rfl

theorem Explained.replies (h : Explained tr s tr' s') : Service.replies tr' = replies tr := by
  refine (h.filterMap_eq Service.reply (fun e he => ?_)).trans ?_
  · cases e <;> first | rfl | cases he
  · refine congrArg (List.filterMap · tr) (funext (fun e => ?_))
    cases e with
    | pool e | mailbox e => cases e <;> rfl
    | _ => rfl

theorem Explained.mem_received {r : ℕ} {path : String} {now : TimePoint} (h : Explained tr s tr' s') :
    .received r path now ∈ tr' ↔ .received r path now ∈ tr := by
  refine h.mem_iff rfl rfl (fun x hx => ?_)
  cases x with
  | received _ _ _ =>
    cases hx
    rfl
  | pool e | mailbox e => cases e <;> cases hx
  | _ => cases hx

theorem Explained.mem_left {r : ℕ} {o : Outcome} (h : Explained tr s tr' s') :
    .pool (.left i r c o) ∈ tr' ↔ .pool (.left i r c o) ∈ tr := by
  refine h.mem_iff rfl rfl (fun x hx => ?_)
  cases x with
  | pool e =>
    cases e <;> cases hx
    rfl
  | mailbox e => cases e <;> cases hx
  | _ => cases hx

theorem mem_replied {r : ℕ} :
    r ∈ (Service.replies tr').map Prod.fst ↔ ∃ thread body, .sendReply thread r body ∈ tr' := by
  constructor
  · intro h
    obtain ⟨⟨_,body⟩,hm,rfl⟩ := List.mem_map.mp h
    obtain ⟨e,he,hrep⟩ := List.mem_filterMap.mp hm
    cases e with
    | sendReply thread _ _ =>
      cases hrep
      exact ⟨thread,body,he⟩
    | _ => cases hrep
  · rintro ⟨thread,body,h⟩
    exact List.mem_map_of_mem (Service.mem_replies h)

/-- The requests that have been responded to, before and after the notification. -/
theorem Explained.respondedTo (h : Explained tr s tr' s') :
    (respondedTo tr).Perm (Service.respondedTo tr' ++ (inFlight s).map (fun f => f.ctx.req)) := by
  have hperm := h.responses.map (fun f => f.ctx.req)
  rwa [List.map_append] at hperm

end Seen

section Kept

/-- The request of a worker's closure has been received. -/
theorem inside_lt (hr : (machine setup others).Runs Permitted tr s)
    (hj : s.threadPool.threads[j]? = some (.inside p c)) : p < s.requests := by
  obtain ⟨_,s',hr',⟨_,hm⟩,_,_⟩ := (refinement setup others).runs hr
  have hw := (hm.threadPool.inside_iff j p c).mp hj
  obtain ⟨path,arrived,_,_,hrec,_⟩ := Service.inside_closure hr' hw
  have hmem := Service.mem_arrivals.mpr ⟨path,arrived,hrec⟩
  rw [Service.arrivals_range hr', hm.requests] at hmem
  exact List.mem_range.mp hmem

/-- A worker that hands over a reply is inside of the handler of that request, and no request is
responded to twice. -/
structure Kept (tr : List (Event H)) (s : LockedService) : Prop where
  busy : ∀ (j : ℕ) a f, s.ioThread.submitters[j]? = some a → a.carried = some f →
    ∃ c, s.threadPool.threads[j]? = some (.inside f.ctx.req c)
  once : (respondedTo tr).Nodup
  early : ∀ r ∈ respondedTo tr, r < s.requests

/-- The pool moves, and no callback ends whose worker has a reply in its hands. -/
theorem Kept.pool {pool : LockedPool Closure} (h : Kept tr s) (hes : responses es = [])
    (hle : s.requests ≤ t.requests) (hio : t.ioThread = s.ioThread) (hpool : t.threadPool = pool)
    (hinside : ∀ (j : ℕ) p c a, s.ioThread.submitters[j]? = some a → a ≠ .outside →
      s.threadPool.threads[j]? = some (.inside p c) → pool.threads[j]? = some (.inside p c)) : Kept (tr ++ es) t where
  busy := by
    intro j a f ha hf
    rw [hio] at ha
    obtain ⟨c,hc⟩ := h.busy j a f ha hf
    refine ⟨c,hpool ▸ hinside j _ c a ha ?_ hc⟩
    rintro rfl
    cases hf
  once := by
    rw [respondedTo_silent hes]
    exact h.once
  early := by
    rw [respondedTo_silent hes]
    exact fun r hr => (h.early r hr).trans_le hle

theorem Kept.mailbox {x : LockedIoThread.Action Reply} {io : LockedIoThread Reply} {ses : List (SubmitEvent Reply)}
    (h : Kept tr s) (hes : responses es = []) (hinner : s.ioThread.io.inner = .outside) (hx : x.own = true)
    (hs : s.ioThread.step setup.capacity x = some (io,ses)) : Kept (tr ++ es) { s with ioThread := io } where
  busy := by
    intro k d f hd hf
    rcases LockedIoThread.own_cases hinner hx hs with ⟨j,a,b,m,rfl,ha,hm,rfl⟩ | ⟨hsame,_⟩
    · rcases Roster.getElem?_set_cases hd with ⟨rfl,rfl⟩ | ⟨_,hd⟩
      · rcases carried_cases hm with ⟨hab,_⟩ | ⟨_,_,rfl,_⟩
        · exact h.busy j a f ha (hab ▸ hf)
        · cases hf
      · exact h.busy k d f hd hf
    · exact h.busy k d f (hsame ▸ hd) hf
  once := by
    rw [respondedTo_silent hes]
    exact h.once
  early := by
    rw [respondedTo_silent hes]
    exact h.early

theorem Kept.respond {k : ℕ} {ctx : HttpContext} {resBody : Bytes} (h : Kept tr s)
    (hj : s.threadPool.threads[j]? = some (.inside ctx.req c)) (hlt : ctx.req < s.requests)
    (hnew : ctx.req ∉ respondedTo tr) : Kept (tr ++ [.responded j k ctx resBody]) { s with
      ioThread := { s.ioThread with submitters := s.ioThread.submitters.set j (.lock ⟨ctx,resBody⟩) } } where
  busy := by
    intro l d f hd hf
    rcases Roster.getElem?_set_cases hd with ⟨rfl,rfl⟩ | ⟨_,hd⟩
    · cases hf
      exact ⟨c,hj⟩
    · exact h.busy l d f hd hf
  once := by
    rw [respondedTo_append]
    refine List.nodup_append.mpr ⟨h.once,List.nodup_singleton _,fun r hr q hq => ?_⟩
    obtain rfl : q = ctx.req := List.mem_singleton.mp hq
    exact fun he => hnew (he ▸ hr)
  early := by
    intro r hr
    rw [respondedTo_append] at hr
    rcases List.mem_append.mp hr with hr | hr
    · exact h.early r hr
    · exact (List.mem_singleton.mp hr) ▸ hlt

theorem kept_of_runs (hr : (machine setup others).Runs Orderly tr s) : Kept tr s := by
  refine hr.invariant (I := Kept) ?_ (fun tr s a t es hr h hp hs => ?_)
  · rintro _ ⟨st,rfl⟩
    refine ⟨fun j a f ha hf => ?_,List.nodup_nil,by simp [respondedTo,responses]⟩
    rw [List.eq_of_mem_replicate (List.mem_of_getElem? ha)] at hf
    cases hf
  · have hsilent := responses_step hs
    cases step_stepped hs with
    | @receive path now k _ _ _ hbuild hadd =>
      refine h.pool rfl (Nat.le_succ _) rfl rfl (fun j p c a _ _ hj => ?_)
      have hbuild : s.threadPool.step (building setup s.requests path now) = some (_,[]) := hbuild
      exact LockedPool.wholeAdd_inside hadd (LockedPool.inside_persists hbuild hj (by simp [building]))
    | @schedule b _ _ hb hpool =>
      refine h.pool (hsilent (by simp)) le_rfl rfl rfl (fun j p c a _ _ hj => ?_)
      refine LockedPool.inside_persists hpool hj ?_
      rintro o rfl
      cases hb
    | worker hpool =>
      refine h.pool (hsilent (by simp)) le_rfl rfl rfl (fun j p c a _ _ hj => ?_)
      exact LockedPool.inside_persists hpool hj (by simp)
    | @finish i o _ _ _ hout _ _ hpool =>
      refine h.pool (hsilent (by simp)) le_rfl rfl rfl (fun j p c a ha hne hj => ?_)
      refine LockedPool.inside_persists hpool hj ?_
      rintro _ he
      cases he
      rw [hout] at ha
      exact hne (Option.some.inj ha).symm
    | @respond j k ctx resBody _ hk _ =>
      obtain ⟨ctx',c,hk',hj,hnew⟩ := hp
      rw [hk] at hk'
      cases hk'
      exact h.respond hj (inside_lt (runs_permitted hr) hj) hnew
    | mailbox ha hio => exact h.mailbox (hsilent (by simp)) (io_outside hr) ha hio

/-- While a worker is not inside `Submit`, no reply to the request of its closure is in flight. -/
theorem Kept.not_inFlight (hkept : Kept tr s) (hm : Matches s s' taken) (hr' : (Service.machine setup).Runs P tr' s')
    (hw : s'.threadPool.workers[i]? = some (.inside p c)) (hout : s.ioThread.submitters[i]? = some .outside) :
    p ∉ (inFlight s).map (fun f => f.ctx.req) := by
  intro hfly
  obtain ⟨f,hf,rfl⟩ := List.mem_map.mp hfly
  obtain ⟨d,hd,hcarried⟩ := List.mem_filterMap.mp hf
  obtain ⟨j,hj⟩ := List.getElem?_of_mem hd
  obtain ⟨e,he⟩ := hkept.busy j d f hj hcarried
  have hw' := (hm.threadPool.inside_iff j f.ctx.req e).mp he
  -- Two workers that hold one task are one worker.
  have hpool := Service.runs_pool hr'
  obtain rfl := ThreadPool.held_once (ThreadPool.ledger_of_runs hpool)
    (List.nodup_append.mp (ThreadPool.nodup_dequeued hpool)).1 hw hw' rfl rfl
  rw [hout] at hj
  cases hj
  cases hcarried

/-- The handlers keep their contract in the coarse service as well, though the response of a
handler comes later there. -/
theorem contract_kept {b : Service.Action} (hr : (machine setup others).Runs Orderly tr s) (hp : Orderly tr s a)
    (hs : step setup s a = some (t,es)) (hr' : (Service.machine setup).Runs Service.HandlerContract tr' s')
    (h : Explained tr s tr' s') (hb : Mirrors setup s a (some b)) : Service.HandlerContract tr' s' b := by
  have hkept := kept_of_runs hr
  obtain ⟨taken,hm⟩ := h.state
  cases hb with
  | receive | schedule | acquire | enter => trivial
  | io => exact hp
  | @finish i o =>
    intro p c hw hmem
    have hthread := (hm.threadPool.inside_iff i p c).mpr hw
    have hout : s.ioThread.submitters[i]? = some .outside := by
      cases step_stepped hs with
      | finish hout _ _ _ => exact hout
    have hiff := (hp p c hthread).2 (h.handlerEntries ▸ hmem)
    rw [← hiff, h.respondedTo.mem_iff, List.mem_append]
    exact (or_iff_left (hkept.not_inFlight hm hr' hw hout)).symm
  | @respond x evbufferNew j k f hat hk =>
    obtain ⟨c,hc⟩ := hkept.busy j _ f hat rfl
    have hw := (hm.threadPool.inside_iff j f.ctx.req c).mp hc
    have hlt : j < setup.threadNum.val := (List.getElem?_eq_some_iff.mp hw).1.trans_le (Service.workers_length_le hr')
    refine ⟨j,f.ctx,c,if_pos hlt,hm.respcbs ▸ hk,hw,fun hmem => ?_⟩
    have hnodup := h.respondedTo.nodup_iff.mp hkept.once
    have hfly : f.ctx.req ∈ (inFlight s).map (fun f => f.ctx.req) :=
      List.mem_map_of_mem (List.mem_filterMap.mpr ⟨_,List.mem_of_getElem? hat,rfl⟩)
    exact (List.nodup_append.mp hnodup).2.2 _ hmem _ hfly rfl

/-- The simulation, for runs in which the handlers keep their contract. -/
def contracted (setup : Setup H) (others : ℕ) :
    Simulation (machine setup others) Orderly (Service.machine setup) Service.HandlerContract where
  rel := Explained
  initial := (refinement setup others).initial
  step := by
    intro tr s a t es tr' s' hr hp hs hr' h
    obtain ⟨taken,hm⟩ := h.state
    obtain ⟨b,es',t',taken',hmirror,hb,hm',hv,hresp⟩ :=
      Answered.step (runs_permitted hr) hp.permitted hr'.any hm hs
    refine ⟨es',t',hr'.follow (fun c hc => ?_) hb,h.step hm' hv hresp⟩
    exact contract_kept hr hp hs hr' h (hc ▸ hmirror)

end Kept

section Measure

/-- The work that is left: that of the pool, that of the mailbox, and the requests that have not
been responded to. -/
def load (tr : List (Event H)) (s : LockedService) : ℕ :=
  s.threadPool.load + s.ioThread.load + 12 * (s.requests - (respondedTo tr).length)

theorem Kept.responded_le (h : Kept tr s) : (respondedTo tr).length ≤ s.requests := by
  have hsub : respondedTo tr ⊆ List.range s.requests := fun r hr => List.mem_range.mpr (h.early r hr)
  have hle := (h.once.subperm hsub).length_le
  rwa [List.length_range] at hle

theorem load_silent {pool : LockedPool Closure} {io : LockedIoThread Reply} (hes : responses es = [])
    (hlt : pool.load + io.load < s.threadPool.load + s.ioThread.load) (respcbs : List HttpContext) :
    load (tr ++ es) { s with threadPool := pool, ioThread := io, respcbs := respcbs } < load tr s := by
  rw [load, load, respondedTo_silent hes]
  dsimp only
  omega

/-- Every statement of a thread of the service leaves less work. -/
theorem descends (setup : Setup H) (others : ℕ) : (machine setup others).Descends Orderly Internal load where
  permitted := fun _ _ _ h => h.2
  step := by
    intro tr s a t es hr hq hs
    have hkept := kept_of_runs (hr.next hq.2 hs)
    have hpool := LockedPool.orderly_permitted (runs_pool (runs_permitted hr))
    have hsilent := responses_step hs
    cases step_stepped hs with
    | receive _ _ _ => cases hq.1
    | @schedule b _ _ hb hstep =>
      have hown : b.own = true := by
        cases b with
        | init | initRun | spawn _ | detach _ => rfl
        | spurious _ => cases hq.1
        | makeTask _ _ | makeExpiringTask _ _ _ _ _ | addTask _ | adder _ | worker _ _ | finish _ _ | stop => cases hb
      have hlt := LockedPool.step_load hpool hown (orderly_own hb) hstep
      exact load_silent (hsilent (by simp)) (Nat.add_lt_add_right hlt _) s.respcbs
    | @worker i now _ _ hstep =>
      have horderly : LockedPool.Orderly (poolTrace tr) s.threadPool (.worker i now) := ⟨trivial,by simp⟩
      have hlt := LockedPool.step_load hpool rfl horderly hstep
      exact load_silent (hsilent (by simp)) (Nat.add_lt_add_right hlt _) _
    | @finish i o _ _ _ _ _ _ hstep =>
      have hpermitted : LockedPool.Permitted (poolTrace tr) s.threadPool (.finish i o) := hq.2.permitted
      have hlt := LockedPool.step_load hpool rfl ⟨hpermitted,by simp⟩ hstep
      exact load_silent (hsilent (by simp)) (Nat.add_lt_add_right hlt _) s.respcbs
    | @respond j k ctx resBody _ _ hout =>
      have hle := hkept.responded_le
      have hsum := Roster.sum_map_set_add hout SubmitPoint.load (.lock (⟨ctx,resBody⟩ : Reply))
      have hone : respondedTo [Event.responded (H := H) j k ctx resBody] = [ctx.req] := rfl
      rw [respondedTo_append, hone, List.length_append, List.length_singleton] at hle
      rw [load, load, respondedTo_append, hone, List.length_append, List.length_singleton]
      simp only [LockedIoThread.load, SubmitPoint.load] at hsum ⊢
      dsimp only at hle
      omega
    | mailbox ha hio =>
      have hlt := LockedIoThread.step_load ha hio
      exact load_silent (hsilent (by simp)) (Nat.add_lt_add_left hlt _) s.respcbs

end Measure

/-- What a worker inside of a closure has in its hands. -/
theorem inside_closure (hr : (machine setup others).Runs Orderly tr s)
    (hthread : s.threadPool.threads[i]? = some (.inside p c)) :
    ∃ path arrived u cl, s.threadPool.tasks p = some u ∧ (Service.newTask setup p path arrived).SameWork u ∧
      u.callback c = some cl ∧ closureAt s.threadPool i = some cl ∧ i < setup.threadNum.val ∧
      (p ∈ handlerEntries tr ↔ ∃ f, setup.handlers.call cl = .handler f) ∧
      (p ∈ handlerEntries tr → ∃ (k : ℕ) (ctx : HttpContext), s.respcbs[k]? = some ctx ∧ ctx.req = p) := by
  obtain ⟨tr',s',hr',h⟩ := (contracted setup others).runs hr
  obtain ⟨taken,hm⟩ := h.state
  have hw := (hm.threadPool.inside_iff i p c).mp hthread
  obtain ⟨path,arrived,u,cl,_,hu,hsame,hc,hcl⟩ := Service.inside_closure hr' hw
  have htask := (hm.threadPool.tasks_eq (Service.runs_pool hr').any hw rfl).trans hu
  have hclosure := closureAt_eq (Service.runs_pool hr').any hm.threadPool (i := i)
  have hi := (List.getElem?_eq_some_iff.mp hw).1.trans_le (Service.workers_length_le hr')
  refine ⟨path,arrived,u,cl,htask,hsame,hc,hclosure.trans hcl,hi,?_,fun hmem => ?_⟩
  · rw [← h.handlerEntries]
    exact Service.inside_handler_iff hr' hw hcl
  · rw [← h.handlerEntries, ← (Service.ties_of_runs hr').handed, hm.respcbs] at hmem
    obtain ⟨k,hk⟩ := List.getElem?_of_mem hmem
    rw [List.getElem?_map] at hk
    obtain ⟨ctx,hctx,hreq⟩ := Option.map_eq_some_iff.mp hk
    exact ⟨k,ctx,hctx,hreq⟩

section Stuck
variable (hr : (machine setup others).Runs Orderly tr s) (hstuck : (machine setup others).Stuck Internal (tr,s))

include hstuck in
theorem Stuck.mailbox : (LockedIoThread.machine Reply setup.capacity (setup.threadNum.val + others)).Stuck
    LockedIoThread.Internal (mailboxTrace tr,s.ioThread) := by
  intro x hx
  have hown : x.own = true := hx
  have hnone : step setup s (.mailbox x true) = none := hstuck (.mailbox x true) ⟨rfl,rfl⟩
  rw [step, mailboxStep, if_pos hown] at hnone
  exact Option.map_eq_none_iff.mp hnone

include hr hstuck

theorem Stuck.outside : ∀ a ∈ s.ioThread.submitters, a = .outside :=
  LockedIoThread.Stuck.outside (runs_ioThread hr) (Stuck.mailbox hstuck)

/-- A worker in a closure is not inside `Submit`. -/
theorem Stuck.worker_outside (hi : i < setup.threadNum.val) : s.ioThread.submitters[i]? = some .outside := by
  obtain ⟨d,hd⟩ : ∃ d, s.ioThread.submitters[i]? = some d := by
    refine ⟨_,List.getElem?_eq_getElem ?_⟩
    rw [LockedIoThread.submitters_length (runs_ioThread hr)]
    omega
  rw [hd, Stuck.outside hr hstuck d (List.mem_of_getElem? hd)]

/-- No closure is at an end that the contract allows. -/
theorem Stuck.no_finish {cl : Closure} {u : Task Closure} {o : Outcome}
    (hthread : s.threadPool.threads[i]? = some (.inside p c)) (hi : i < setup.threadNum.val)
    (hu : s.threadPool.tasks p = some u) (hc : u.callback c = some cl) (hcl : closureAt s.threadPool i = some cl)
    (hends : Service.Call.ends (setup.handlers.call cl) o = true) (hexpire : c = .expireFun → o = .returned) :
    ¬(p ∈ handlerEntries tr → (p ∈ respondedTo tr ↔ o = .returned)) := by
  intro hcontract
  have hnone : step setup s (.finish i o) = none := by
    refine hstuck (.finish i o) ⟨rfl,fun q d hq => ?_⟩
    rw [hthread] at hq
    cases hq
    exact ⟨hexpire,hcontract⟩
  have hany : (closureAt s.threadPool i).any (fun cl => Service.Call.ends (setup.handlers.call cl) o) := by
    rw [hcl]
    exact hends
  rw [step, finish, if_pos ⟨Stuck.worker_outside hr hstuck hi,hany⟩, Option.map_eq_none_iff, LockedPool.step,
    LockedPool.finish, hthread] at hnone
  cases o <;> simp [hu,hc] at hnone

/-- A worker in a closure can go on: a user handler responds and returns, and the other closures
end as they must. -/
theorem Stuck.not_inside : s.threadPool.threads[i]? ≠ some (.inside p c) := by
  intro hthread
  obtain ⟨path,arrived,u,cl,hu,hsame,hc,hcl,hi,hiff,hmem⟩ := inside_closure hr hthread
  cases hcall : setup.handlers.call cl with
  | handler f =>
    have hentered := hiff.mpr ⟨f,hcall⟩
    by_cases hresp : p ∈ respondedTo tr
    · refine Stuck.no_finish hr hstuck (o := .returned) hthread hi hu hc hcl ?_ (fun _ => rfl) ?_
      · rw [hcall]
        rfl
      · exact fun _ => ⟨fun _ => rfl,fun _ => hresp⟩
    · obtain ⟨k,ctx,hctx,rfl⟩ := hmem hentered
      have hnone : step setup s (.respond i k []) = none := hstuck (.respond i k []) ⟨rfl,ctx,c,hctx,hthread,hresp⟩
      rw [step, complete, if_pos (.inr (by rw [hcl]; rfl)), hctx, Option.bind_some, LockedIoThread.call,
        Stuck.worker_outside hr hstuck hi] at hnone
      cases hnone
  | nothing =>
    refine Stuck.no_finish hr hstuck (o := .returned) hthread hi hu hc hcl ?_ (fun _ => rfl) (fun hentered => ?_)
    · rw [hcall]
      rfl
    · obtain ⟨f,hf⟩ := hiff.mp hentered
      rw [hcall] at hf
      cases hf
  | badFunctionCall =>
    refine Stuck.no_finish hr hstuck (o := .threw) hthread hi hu hc hcl ?_ ?_ (fun hentered => ?_)
    · rw [hcall]
      rfl
    · rintro rfl
      have hexp := (Service.newTask_callback hsame hc).2
      dsimp only at hexp
      rw [hexp, Handlers.call] at hcall
      split at hcall <;> cases hcall
    · obtain ⟨f,hf⟩ := hiff.mp hentered
      rw [hcall] at hf
      cases hf

theorem Stuck.pool : (LockedPool.machine Closure setup.threadNum).Stuck LockedPool.Internal
    (poolTrace tr,s.threadPool) := by
  rintro b ⟨hb,hpermitted,_⟩
  have hscheduled : own b = true → (Action.schedule b).own = true → s.threadPool.step b = none := by
    intro hown haction
    have hnone : step setup s (.schedule b) = none := hstuck (.schedule b) ⟨haction,trivial⟩
    rw [step, schedule, if_pos hown] at hnone
    exact Option.map_eq_none_iff.mp hnone
  cases b with
  | init | initRun | spawn _ | detach _ => exact hscheduled rfl rfl
  | adder k =>
    change s.threadPool.executeAdd k s.threadPool.adder = none
    rw [adder_outside hr]
    rfl
  | worker i now =>
    have hnone : step setup s (.worker i now) = none := hstuck (.worker i now) ⟨rfl,trivial⟩
    exact Option.map_eq_none_iff.mp hnone
  | finish i o =>
    refine Option.eq_none_iff_forall_ne_some.mpr (fun r hfinish => ?_)
    obtain ⟨p,c,hthread,_⟩ := LockedPool.finish_cases hfinish
    exact Stuck.not_inside hr hstuck hthread
  | makeTask _ _ | makeExpiringTask _ _ _ _ _ | addTask _ | spurious _ | stop => cases hb

end Stuck

/-- Both mutexes are free, every worker sleeps, nobody hands over a reply, the IO thread is in its
event loop, and nothing is queued. -/
structure AtRest (s : LockedService) : Prop where
  mutex : s.threadPool.mutex = none
  threads : s.threadPool.threads ≠ []
  waiting : ∀ a ∈ s.threadPool.threads, a = .waiting
  taskQueue : s.threadPool.taskQueue = []
  mailbox : s.ioThread.mailbox.mutex = none
  submitters : ∀ a ∈ s.ioThread.submitters, a = .outside
  io : s.ioThread.io = .dispatching
  taskFunctors : s.ioThread.mailbox.taskFunctors = []

theorem Stuck.atRest (hcap : 0 < setup.capacity) (hr : (machine setup others).Runs Orderly tr s)
    (hstuck : (machine setup others).Stuck Internal (tr,s)) : AtRest s := by
  have hpool := runs_pool (runs_permitted hr)
  have hmailbox := Stuck.mailbox hstuck
  have hfree := LockedPool.Stuck.free hpool (Stuck.pool hr hstuck)
  obtain ⟨hne,hall⟩ := LockedPool.Stuck.waiting hpool (Stuck.pool hr hstuck)
  obtain ⟨hio,hempty⟩ := LockedIoThread.Stuck.dispatching (runs_ioThread hr) hmailbox hcap
  obtain ⟨_,_,hrun,⟨_,habs,_⟩,_⟩ := (LockedPool.refinement setup.threadNum).runs (LockedPool.orderly_permitted hpool)
  obtain ⟨_,hasleep⟩ := (LockedPool.inv_of_runs (LockedPool.orderly_permitted hpool)).covered habs hfree
    (ThreadPool.wakeupInv_of_runs hrun)
  exact ⟨hfree,hne,hall,LockedPool.queue_of_all_waiting hasleep hne hall,
    LockedIoThread.Stuck.free (runs_ioThread hr) hmailbox,Stuck.outside hr hstuck,hio,hempty⟩

theorem AtRest.quiet (h : AtRest s) (hr : (machine setup others).Runs Permitted tr s) {taken : List TaskPtr}
    (hm : Matches s s' taken) : Service.Quiet s' := by
  have hinv := LockedPool.inv_of_runs (LockedPool.orderly_permitted (runs_pool hr))
  obtain ⟨⟨_,hqueue,_,_⟩,hall⟩ := hinv.free hm.threadPool h.mutex
  refine ⟨hqueue.symm.trans h.taskQueue,fun w hw => ?_,?_⟩
  · obtain ⟨i,hi⟩ := List.getElem?_of_mem hw
    obtain ⟨a,ha⟩ : ∃ a, s.threadPool.threads[i]? = some a := by
      have hlt := (List.getElem?_eq_some_iff.mp hi).1
      exact ⟨_,List.getElem?_eq_getElem (hm.threadPool.length ▸ hlt)⟩
    obtain rfl := h.waiting a (List.mem_of_getElem? ha)
    obtain ⟨v,hv,hpoint⟩ := hall i _ ha
    cases hv
    rw [hi] at hpoint
    cases hpoint
    rfl
  · have hannounced := LockedIoThread.announced_eq (s := s.ioThread)
      (by rw [LockedIoThread.holder_free h.mailbox]; rfl)
    rw [hm.ioThread, LockedIoThread.mail, IoThread.pending, hannounced, h.taskFunctors, h.io]
    rfl

/-- The requests that a service at rest has replied to, each of them once. -/
theorem AtRest.replied_iff (h : AtRest s) (hr : (machine setup others).Runs Orderly tr s) :
    ((replies tr).map Prod.fst).Nodup ∧ ∀ r path arrived, .received r path arrived ∈ tr →
      (r ∈ (replies tr).map Prod.fst ↔ r ∈ handlerEntries tr ∧ ∀ i c, .pool (.left i r c .threw) ∉ tr) ∧
      ((∀ late, Registration.handlerFor setup.registrations path late ≠ none) → r ∈ handlerEntries tr) := by
  obtain ⟨tr',s',hr',he⟩ := (contracted setup others).runs hr
  obtain ⟨taken,hm⟩ := he.state
  have hq := h.quiet (runs_permitted hr) hm
  have hcrew := Overtaking.bounded_of_runs (Service.runs_crew hr')
  refine ⟨?_,fun r path arrived hrec => ?_⟩
  · rw [← he.replies]
    exact hcrew.nodup.sublist (Service.replied_of_runs hr').sublist
  · have hrec' := he.mem_received.mpr hrec
    obtain ⟨i,j,k,now,c,o,hdeq,hent,hleft⟩ := Service.quiet_left hr' hq hrec'
    have hreplied : r ∈ (replies tr).map Prod.fst ↔ r ∈ Service.respondedTo tr' := by
      rw [← Service.quiet_replied_iff hr' hq, ← he.replies, mem_replied]
    refine ⟨?_,fun hall => ?_⟩
    · rw [hreplied, ← he.handlerEntries]
      constructor
      · intro hresp
        have hentry := Service.respondedTo_entered hr' hresp
        refine ⟨hentry,fun i c hthrew => ?_⟩
        cases (Service.ended_responded hr' (he.mem_left.mpr hthrew) hentry).mp hresp
      · rintro ⟨hentry,hno⟩
        refine (Service.ended_responded hr' hleft hentry).mpr ?_
        cases o with
        | returned => rfl
        | threw => exact absurd (he.mem_left.mp hleft) (hno k c)
    · have hchoice := Service.dequeued_choice hr' hrec' hdeq
      obtain rfl := Option.some.inj hchoice
      obtain ⟨f,hf⟩ := Option.ne_none_iff_exists'.mp (hall (setup.late arrived now))
      rw [← he.handlerEntries]
      exact Service.entered_handler hr' hent hrec' hf

/-- From every reachable state of a service whose handlers keep their contract, whatever the
scheduling: without further requests the threads execute at most `load tr s` more statements, and
where none of them has one left, both mutexes are free and nothing is queued or in flight. By
then the requests that have been replied to, each of them once, are those whose handler was entered
and did not throw, and a request that has a handler whether or not it is late has had it entered. -/
theorem statements_come_to_rest (hcap : 0 < setup.capacity) (hr : (machine setup others).Runs Orderly tr s) :
    (∀ n c, (machine setup others).Steps Internal n (tr,s) c → n ≤ load tr s) ∧
    (∃ n c, (machine setup others).Steps Internal n (tr,s) c ∧ (machine setup others).Stuck Internal c) ∧
    ∀ n post t, (machine setup others).Steps Internal n (tr,s) (post,t) →
      (machine setup others).Stuck Internal (post,t) →
      AtRest t ∧ ((replies post).map Prod.fst).Nodup ∧ ∀ r path arrived, .received r path arrived ∈ post →
        (r ∈ (replies post).map Prod.fst ↔
          r ∈ handlerEntries post ∧ ∀ i c, .pool (.left i r c .threw) ∉ post) ∧
        ((∀ late, Registration.handlerFor setup.registrations path late ≠ none) → r ∈ handlerEntries post) := by
  refine ⟨fun n c h => ?_,(descends setup others).exists_stuck hr,fun n post t h hstuck => ?_⟩
  · have hbound := (descends setup others).bound hr h
    dsimp only at hbound
    omega
  · have hr' := h.runs (descends setup others).permitted hr
    have hrest := Stuck.atRest hcap hr' hstuck
    exact ⟨hrest,hrest.replied_iff hr'⟩

def checkOrderly (tr : List (Event ℕ)) (s : LockedService) : Action → Bool
  | .respond j k _ =>
    match s.respcbs[k]?, s.threadPool.threads[j]? with
    | some ctx, some (.inside p _) => p = ctx.req && ctx.req ∉ respondedTo tr
    | _, _ => false
  | .finish i o =>
    match s.threadPool.threads[i]? with
    | some (.inside p c) => (c ≠ .expireFun || o = .returned) &&
        (p ∉ handlerEntries tr || (decide (p ∈ respondedTo tr) == decide (o = .returned)))
    | _ => true
  | .mailbox _ evbufferNew => evbufferNew
  | _ => true

theorem checkOrderly_sound (tr : List (Event ℕ)) (s : LockedService) (a : Action) (h : checkOrderly tr s a = true) :
    Orderly tr s a := by
  cases a with
  | respond j k resBody =>
    simp only [checkOrderly] at h
    split at h
    · rename_i ctx p c hk hj
      simp only [Bool.and_eq_true, decide_eq_true_eq] at h
      exact ⟨ctx,c,hk,h.1 ▸ hj,h.2⟩
    · cases h
  | finish i o =>
    intro p c hp
    simp only [checkOrderly, hp, Bool.and_eq_true, Bool.or_eq_true, decide_eq_true_eq] at h
    refine ⟨fun hc => h.1.resolve_left (fun hne => hne hc),fun hmem => ?_⟩
    have hsame := h.2.resolve_left (fun hno => hno hmem)
    simpa using hsame
  | mailbox x evbufferNew => exact h
  | receive _ _ _ | schedule _ | worker _ _ => trivial

/-- Worker 0 has the mutex of the mailbox in the middle of handing over a reply, and worker 1 that of
the pool, with the second request in its hands. -/
theorem statements_come_to_rest_midway : ∃ tr, ∃ s : LockedService, (machine Service.served 0).Runs Orderly tr s ∧
    s.ioThread.mailbox.mutex = some (.submitter 0) ∧ s.threadPool.mutex = some (.worker 1) ∧
    s.threadPool.threads = [.inside 0 .taskFun,.branch 1] ∧ load tr s = 43 ∧
    (∀ n c, (machine Service.served 0).Steps Internal n (tr,s) c → n ≤ load tr s) ∧
    (∃ n c, (machine Service.served 0).Steps Internal n (tr,s) c ∧ (machine Service.served 0).Stuck Internal c) ∧
    ∀ n post t, (machine Service.served 0).Steps Internal n (tr,s) (post,t) →
      (machine Service.served 0).Stuck Internal (post,t) →
      AtRest t ∧ ((replies post).map Prod.fst).Nodup ∧ ∀ r path arrived, .received r path arrived ∈ post →
        (r ∈ (replies post).map Prod.fst ↔
          r ∈ handlerEntries post ∧ ∀ i c, .pool (.left i r c .threw) ∉ post) ∧
        ((∀ late, Registration.handlerFor Service.served.registrations path late ≠ none) →
          r ∈ handlerEntries post) := by
  obtain ⟨c,hc,hmailbox,hpool,hthreads,hload⟩ : ∃ c, (machine Service.served 0).replay checkOrderly
      (opening ++ [.receive "/echo" 100 0,.respond 0 0 [104],.mailbox (.submitter 0) true] ++
        List.replicate 5 (.worker 1 200)) ([],new Service.served 0 .unknowing) = some c ∧
      c.2.ioThread.mailbox.mutex = some (.submitter 0) ∧ c.2.threadPool.mutex = some (.worker 1) ∧
      c.2.threadPool.threads = [.inside 0 .taskFun,.branch 1] ∧ load c.1 c.2 = 43 := ⟨_,rfl,rfl,rfl,rfl,rfl⟩
  have hr := Machine.replay_runs checkOrderly_sound (runs_new Service.served 0 .unknowing) hc
  exact ⟨_,_,hr,hmailbox,hpool,hthreads,hload,statements_come_to_rest (by decide) hr⟩

end Kbms.LockedService
