import Kbms.Service.Replies

/-! # Which requests are answered

`CoreHandleRequest` has paths that end without `Complete`: no route and no default
callback, an empty registered callback, a late request without a timeout callback, and
a handler that throws. For handlers that keep their part, a request is answered in the
end exactly when it is on none of these paths.
-/
namespace Kbms.Service
open Foundation Registration
variable {H : Type*} {setup : Setup H} {s t : Service} {tr es : List (Event H)} {i r : ℕ}
variable {P : List (Event H) → Service → Action → Prop} {path : String} {arrived now : TimePoint}

/-- A handler calls its send-response callback once, while it runs, and returns, or it
throws before the call; and `evbuffer_new` does not fail. -/
def HandlerContract (tr : List (Event H)) (s : Service) : Action → Prop
  | .respond thread k _ => ∃ i ctx c, thread = .worker i ∧ s.respcbs[k]? = some ctx ∧
      s.threadPool.workers[i]? = some (.inside ctx.req c) ∧ ctx.req ∉ respondedTo tr
  | .finish i o => ∀ p c, s.threadPool.workers[i]? = some (.inside p c) → p ∈ handlerEntries tr →
      (p ∈ respondedTo tr ↔ o = .returned)
  | .io _ evbufferNew => evbufferNew = true
  | _ => True

/-- The queue is empty, no worker is executing a task, and the IO thread has run all
functors. -/
structure Quiet (s : Service) : Prop where
  queue : s.threadPool.taskQueue = []
  workers : ∀ w ∈ s.threadPool.workers, w.work = none
  mailbox : s.ioThread.pending = []

theorem mem_handlerEntries : r ∈ handlerEntries tr ↔ ∃ i h, .handlerEntered i r h ∈ tr := by
  rw [handlerEntries, List.mem_filterMap]
  constructor
  · rintro ⟨e,he,hr⟩
    cases e with
    | handlerEntered i q h =>
      cases hr
      exact ⟨i,h,he⟩
    | _ => cases hr
  · rintro ⟨i,h,he⟩
    exact ⟨_,he,rfl⟩

theorem respondedTo_entered (hr : (machine setup).Runs P tr s) (h : r ∈ respondedTo tr) :
    r ∈ handlerEntries tr := by
  obtain ⟨f,hf,rfl⟩ := List.mem_map.mp h
  obtain ⟨thread,k,hresp⟩ := mem_responses hf
  have hk := (ties_of_runs hr).responded thread k f.ctx f.resBody hresp
  rw [← (ties_of_runs hr).handed]
  exact List.mem_map_of_mem (List.mem_of_getElem? hk)

section Replied

/-- Where no allocation fails, every functor that was called has sent its reply. -/
theorem replies_called_all (hr : (machine setup).Runs HandlerContract tr s) :
    replies tr = (IoThread.called (ioTrace tr)).map Reply.content := by
  refine hr.invariant (I := fun tr _ => replies tr = (IoThread.called (ioTrace tr)).map Reply.content)
    (fun _ _ => rfl) ?_
  intro tr s a t es _ ih hc hs
  have halloc : a.allocates = true := by
    cases a with
    | io b evbufferNew => exact hc
    | _ => rfl
  rw [replies_append, ih, (step_emits hs).2.2, if_pos halloc, ioTrace_append, IoThread.called_append,
    List.map_append]

theorem quiet_replied_iff (hr : (machine setup).Runs HandlerContract tr s) (hq : Quiet s) :
    (∃ thread body, .sendReply thread r body ∈ tr) ↔ r ∈ respondedTo tr := by
  have hfifo := IoThread.submitted_eq (runs_ioThread hr)
  rw [submitted_responses hr, hq.mailbox, List.append_nil] at hfifo
  have hall : replies tr = (responses tr).map Reply.content := by
    rw [hfifo]
    exact replies_called_all hr
  constructor
  · rintro ⟨thread,body,hm⟩
    have hmem := mem_replies hm
    rw [hall] at hmem
    obtain ⟨f,hf,hcontent⟩ := List.mem_map.mp hmem
    cases hcontent
    exact List.mem_map_of_mem hf
  · intro h
    obtain ⟨f,hf,rfl⟩ := List.mem_map.mp h
    have hmem : Reply.content f ∈ replies tr := hall ▸ List.mem_map_of_mem hf
    obtain ⟨e,he,hrep⟩ := List.mem_filterMap.mp hmem
    cases e with
    | sendReply thread req body =>
      cases hrep
      exact ⟨thread,_,he⟩
    | _ => cases hrep

end Replied

section Entered

/-- A closure that is due a user handler enters it. -/
theorem entered_handler (hr : (machine setup).Runs P tr s) {p : ℕ} {late : Bool} {h : H}
    (he : .pool (.entered i p (dueCallback late)) ∈ tr) (hrec : .received p path arrived ∈ tr)
    (hdue : handlerFor setup.registrations path late = some h) : p ∈ handlerEntries tr := by
  refine hr.invariant (I := fun tr _ => ∀ i p path arrived, .pool (.entered i p (dueCallback late)) ∈ tr →
    .received p path arrived ∈ tr → handlerFor setup.registrations path late = some h →
      p ∈ handlerEntries tr) (by simp) ?_ i p path arrived he hrec hdue
  intro tr s a t es hr ih _ hs i p path arrived he hrec hdue
  have hold : .pool (.entered i p (dueCallback late)) ∈ tr → .received p path arrived ∈ tr →
      p ∈ handlerEntries (tr ++ es) := by
    intro he hrec
    rw [handlerEntries_append]
    exact List.mem_append_left _ (ih i p path arrived he hrec hdue)
  have hties := ties_of_runs hr
  rcases step_cases hs with ⟨_,_,k,hreq⟩ | ⟨b,pool,pes,_,hp,_,hnone,rfl,rfl⟩ |
    ⟨j,pool,pes,cl,f,hp,hcl,_,rfl,rfl⟩ | ⟨thread,k,ctx,resBody,_,_,rfl,rfl⟩ |
    ⟨b,evbufferNew,io,ies,_,_,_,rfl,rfl⟩
  · obtain ⟨_,_,_,_,hfree,_,rfl,rfl⟩ := coreHandleRequest_cases hreq
    replace he : .pool (.entered i p (dueCallback late)) ∈ tr := by simpa using he
    rcases List.mem_append.mp hrec with hrec | hrec
    · exact hold he hrec
    · have hpool := runs_pool hr
      obtain ⟨u,hu⟩ := ThreadPool.added_built hpool (ThreadPool.entered_added hpool (mem_poolTrace.mpr he))
      simp only [List.mem_cons, Event.received.injEq, List.not_mem_nil, or_false, reduceCtorEq] at hrec
      rw [hrec.1, hfree] at hu
      cases hu
  · replace hrec : .received p path arrived ∈ tr := by simpa using hrec
    rcases List.mem_append.mp he with he | he
    · exact hold he hrec
    · have hpe : .entered i p (dueCallback late) ∈ pes := by simpa using he
      obtain ⟨rfl,hw,rfl⟩ := (ThreadPool.step_callbacks hp).1 i p _ hpe
      obtain ⟨u,hu,hsame⟩ := hties.built p path arrived hrec
      obtain ⟨cl,hc⟩ : ∃ cl, u.callback (dueCallback late) = some cl := by
        rw [hsame.callback]
        cases late <;> exact ⟨_,rfl⟩
      have hlt := (List.getElem?_eq_some_iff.mp hw).1
      exact absurd ((call_handlerFor hsame hc).mpr hdue)
        (hnone i cl h rfl (by simp [closureAt,hlt,hu,hc]))
  · obtain ⟨q,d,u,_,rfl,_,_,hu,hc⟩ := closureAt_enter hp hcl
    replace hrec : .received p path arrived ∈ tr := by simpa using hrec
    rcases List.mem_append.mp he with he | he
    · exact hold he hrec
    · simp only [List.map_cons, List.map_nil, List.cons_append, List.nil_append, List.mem_cons,
        Event.pool.injEq, PoolEvent.entered.injEq, List.not_mem_nil, or_false, reduceCtorEq] at he
      obtain ⟨rfl,rfl,rfl⟩ := he
      obtain ⟨v,hv,hsame⟩ := hties.built p path arrived hrec
      rw [hu] at hv
      cases hv
      rw [handlerEntries_append, List.mem_append]
      refine Or.inr (mem_handlerEntries.mpr ⟨i,f,?_⟩)
      simp [(newTask_callback hsame hc).1]
  · exact hold (by simpa using he) (by simpa using hrec)
  · refine hold ?_ ?_
    · rcases List.mem_append.mp he with he | he
      · exact he
      · rcases mem_ioEvents he with ⟨_,he⟩ | ⟨_,_,he⟩ <;> cases he
    · rcases List.mem_append.mp hrec with hrec | hrec
      · exact hrec
      · rcases mem_ioEvents hrec with ⟨_,he⟩ | ⟨_,_,he⟩ <;> cases he

end Entered

section Ended

/-- A handler that has ended has responded if it returned, and has not if it threw. -/
theorem ended_responded (hr : (machine setup).Runs HandlerContract tr s) {c : Callback} {o : Outcome}
    (hl : .pool (.left i r c o) ∈ tr) (he : r ∈ handlerEntries tr) :
    r ∈ respondedTo tr ↔ o = .returned := by
  refine hr.invariant (I := fun tr _ => ∀ i r c o, .pool (.left i r c o) ∈ tr → r ∈ handlerEntries tr →
    (r ∈ respondedTo tr ↔ o = .returned)) (by simp) ?_ i r c o hl he
  intro tr s a t es hr ih hc hs i r c o hl he
  have hr' : (machine setup).Runs Machine.Any (tr ++ es) t := hr.any.next (a := a) trivial hs
  have hquiet : responses es = [] → handlerEntries es = [] → .pool (.left i r c o) ∈ tr →
      (r ∈ respondedTo (tr ++ es) ↔ o = .returned) := by
    intro hresp hent hl
    rw [handlerEntries_append, hent, List.append_nil] at he
    rw [respondedTo, responses_append, hresp, List.append_nil]
    exact ih i r c o hl he
  rcases step_cases hs with ⟨_,_,k,hreq⟩ | ⟨b,pool,pes,_,hp,hfin,_,rfl,rfl⟩ |
    ⟨j,pool,pes,cl,f,hp,hcl,_,rfl,rfl⟩ | ⟨thread,k,ctx,resBody,rfl,hk,rfl,rfl⟩ |
    ⟨b,evbufferNew,io,ies,_,_,_,rfl,rfl⟩
  · obtain ⟨_,_,_,_,_,_,rfl,rfl⟩ := coreHandleRequest_cases hreq
    exact hquiet rfl rfl (by simpa using hl)
  · have hresp : responses (pes.map (Event.pool (H := H))) = [] := filterMap_pool _ (fun _ => rfl) pes
    have hent : handlerEntries (pes.map (Event.pool (H := H))) = [] := filterMap_pool _ (fun _ => rfl) pes
    rcases List.mem_append.mp hl with hl | hl
    · exact hquiet hresp hent hl
    · obtain ⟨hb,hw⟩ := (ThreadPool.step_callbacks hp).2.1 i r c o (by simpa using hl)
      obtain rfl := hfin i o hb
      rw [handlerEntries_append, hent, List.append_nil] at he
      rw [respondedTo, responses_append, hresp, List.append_nil]
      exact hc r c hw he
  · obtain ⟨q,d,u,hw,rfl,_,hinside,hu,hcl'⟩ := closureAt_enter hp hcl
    replace hl : .pool (.left i r c o) ∈ tr := by simpa using hl
    have hne : r ≠ cl.hct.req := by
      rw [(ties_of_runs hr).closure_req hr hw hu hcl']
      rintro rfl
      exact ThreadPool.left_not_inside (runs_pool hr')
        (mem_poolTrace.mpr (List.mem_append_left _ hl)) hinside
    have hiff := ih i r c o hl
      (by simpa [handlerEntries,handlerEntry,List.filterMap_cons,hne] using he)
    simpa [respondedTo,responses,response,List.filterMap_cons] using hiff
  · obtain ⟨j,_,d,_,hk',hw,_⟩ := hc
    rw [hk] at hk'
    cases hk'
    replace hl : .pool (.left i r c o) ∈ tr := by simpa using hl
    have hne : r ≠ ctx.req := by
      rintro rfl
      exact ThreadPool.left_not_inside (runs_pool hr) (mem_poolTrace.mpr hl) hw
    have hiff := ih i r c o hl (by simpa [handlerEntries,handlerEntry,List.filterMap_cons] using he)
    simpa [respondedTo,responses,response,List.filterMap_cons,hne] using hiff
  · refine hquiet (filterMap_ioEvents _ (fun _ => rfl) (fun _ _ _ => rfl) _ evbufferNew ies)
      (filterMap_ioEvents _ (fun _ => rfl) (fun _ _ _ => rfl) _ evbufferNew ies) ?_
    rcases List.mem_append.mp hl with hl | hl
    · exact hl
    · rcases mem_ioEvents hl with ⟨_,he⟩ | ⟨_,_,he⟩ <;> cases he

end Ended

section Answered

/-- In a quiet state the closure of every request was entered and left, once. -/
theorem quiet_left (hr : (machine setup).Runs P tr s) (hq : Quiet s)
    (hrec : .received r path arrived ∈ tr) : ∃ i j k now c o, .pool (.dequeued i r now (some c)) ∈ tr ∧
      .pool (.entered j r c) ∈ tr ∧ .pool (.left k r c o) ∈ tr := by
  have hpool := runs_pool hr
  have hadded : r ∈ ThreadPool.addedTasks (poolTrace tr) := by
    rw [added_arrivals hr]
    exact mem_arrivals.mpr ⟨path,arrived,hrec⟩
  rw [ThreadPool.added_eq hpool, hq.queue, List.append_nil] at hadded
  obtain ⟨j,k,c,o,he,hl⟩ := ThreadPool.dequeued_left hpool hadded hq.workers
  obtain ⟨i,now,hd⟩ := ThreadPool.entered_dequeued hpool he
  exact ⟨i,j,k,now,c,o,mem_poolTrace.mp hd,mem_poolTrace.mp he,mem_poolTrace.mp hl⟩

/-- A request has a handler: the one it is due, by its path or by its lateness when it
was dequeued, was registered, and none of its closures threw. -/
def Served (setup : Setup H) (tr : List (Event H)) (r : ℕ) (path : String) (arrived : TimePoint) : Prop :=
  (∃ i now c h, .pool (.dequeued i r now c) ∈ tr ∧
    handlerFor setup.registrations path (setup.late arrived now) = some h) ∧
  ∀ i c, .pool (.left i r c .threw) ∉ tr

theorem responded_iff_served (hr : (machine setup).Runs HandlerContract tr s) (hq : Quiet s)
    (hrec : .received r path arrived ∈ tr) : r ∈ respondedTo tr ↔ Served setup tr r path arrived := by
  constructor
  · intro hresp
    have hentry := respondedTo_entered hr hresp
    obtain ⟨i,h,he⟩ := mem_handlerEntries.mp hentry
    obtain ⟨j,now,hd,hdue⟩ := handlerEntered_due hr he hrec
    refine ⟨⟨j,now,_,h,hd,hdue⟩,fun k c hl => ?_⟩
    have hreturned := (ended_responded hr hl hentry).mp hresp
    cases hreturned
  · rintro ⟨⟨i,now,c,h,hd,hdue⟩,hno⟩
    obtain ⟨j,k,l,now',c',o,hd',he,hl⟩ := quiet_left hr hq hrec
    have hchoice := dequeued_choice hr hrec hd
    subst hchoice
    obtain rfl := ThreadPool.selected_unique (runs_pool hr) (mem_poolTrace.mpr hd) (mem_poolTrace.mpr hd')
    have hentry := entered_handler hr he hrec hdue
    have hreturned : o = .returned := by
      cases o with
      | returned => rfl
      | threw => exact absurd hl (hno l _)
    exact (ended_responded hr hl hentry).mpr hreturned

/-- For every run whose handlers keep their contract and every quiet state it reaches:
all requests are answered if and only if each of them was due a registered callback and
nothing threw on its way. -/
theorem all_answered_iff (hr : (machine setup).Runs HandlerContract tr s) (hq : Quiet s) :
    (∀ r path arrived, .received r path arrived ∈ tr → ∃ thread body, .sendReply thread r body ∈ tr) ↔
    ∀ r path arrived, .received r path arrived ∈ tr → Served setup tr r path arrived := by
  have heach : ∀ r path arrived, .received r path arrived ∈ tr →
      ((∃ thread body, .sendReply thread r body ∈ tr) ↔ Served setup tr r path arrived) := by
    intro r path arrived hrec
    exact (quiet_replied_iff hr hq).trans (responded_iff_served hr hq hrec)
  constructor
  · intro h r path arrived hrec
    exact (heach r path arrived hrec).mp (h r path arrived hrec)
  · intro h r path arrived hrec
    exact (heach r path arrived hrec).mpr (h r path arrived hrec)

def checkContract (tr : List (Event H)) (s : Service) : Action → Bool
  | .respond thread k _ =>
    match thread, s.respcbs[k]? with
    | .worker i, some ctx =>
      match s.threadPool.workers[i]? with
      | some (.inside p _) => p = ctx.req && ctx.req ∉ respondedTo tr
      | _ => false
    | _, _ => false
  | .finish i o =>
    match s.threadPool.workers[i]? with
    | some (.inside p _) => p ∉ handlerEntries tr || (decide (p ∈ respondedTo tr) == decide (o = .returned))
    | _ => true
  | .io _ evbufferNew => evbufferNew
  | _ => true

theorem checkContract_sound (tr : List (Event H)) (s : Service) (a : Action)
    (h : checkContract tr s a = true) : HandlerContract tr s a := by
  cases a with
  | respond thread k resBody =>
    simp only [checkContract] at h
    split at h
    · rename_i i ctx hk
      split at h
      · rename_i p c hw
        simp only [Bool.and_eq_true, decide_eq_true_eq] at h
        exact ⟨i,ctx,c,rfl,hk,h.1 ▸ hw,h.2⟩
      · cases h
    · cases h
  | finish i o =>
    intro p c hw hp
    simp only [checkContract, hw] at h
    simpa [hp] using h
  | io b evbufferNew => exact h
  | _ => trivial

def served : Setup ℕ where
  registrations := [.handler "/echo" (some 1)]
  threadNum := .two
  expiration := 0
  capacity := 1
  evbuffer := .copying

/-- The one request of a run is answered, because its path has a handler that returns. -/
theorem all_answered_iff_echo : ∃ tr, ∃ s : Service, (machine served).Runs HandlerContract tr s ∧
    Quiet s ∧ arrivals tr = [0] ∧ replies tr = [(0,[104,105])] ∧
    ((∀ r path arrived, .received r path arrived ∈ tr →
      ∃ thread body, .sendReply thread r body ∈ tr) ↔
    ∀ r path arrived, .received r path arrived ∈ tr → Served served tr r path arrived) := by
  have hrun : ∃ c, (machine served).replay checkContract
      [.schedule .init,.schedule (.spawn 0),.io .start true,.receive "/echo" 100 0,
        .schedule (.acquire 0 200),.enter 0,.respond (.worker 0) 0 [104,105],.finish 0 .returned,
        .schedule (.acquire 0 300),.io (.recv 1) true,.io .swap true,.io .call true,.io .ret true]
      ([],new served .unknowing) = some c ∧ c.2.threadPool.taskQueue = [] ∧
      c.2.threadPool.workers = [.waiting,.unborn] ∧ c.2.ioThread.pending = [] ∧
      arrivals c.1 = [0] ∧ replies c.1 = [(0,[104,105])] := ⟨_,rfl,rfl,rfl,rfl,rfl,rfl⟩
  obtain ⟨⟨tr,s⟩,hc,hqueue,hw,hbox,harr,hrep⟩ := hrun
  have hr := Machine.replay_runs checkContract_sound (runs_new served .unknowing) hc
  have hq : Quiet s := ⟨hqueue,by dsimp only at hw; simp [hw,Worker.work],hbox⟩
  exact ⟨tr,s,hr,hq,harr,hrep,all_answered_iff hr hq⟩

def silent : Setup ℕ where
  registrations := []
  threadNum := .two
  expiration := 0
  capacity := 1
  evbuffer := .copying

/-- Without a default callback a request for an unknown path is dropped: the closure
returns, everything is quiet, and no reply was sent. -/
theorem unknown_path_unanswered : ∃ tr, ∃ s : Service, (machine silent).Runs HandlerContract tr s ∧
    Quiet s ∧ .received 0 "/echo" 100 ∈ tr ∧ ∀ thread body, .sendReply thread 0 body ∉ tr := by
  have hrun : ∃ c, (machine silent).replay checkContract
      [.schedule .init,.schedule (.spawn 0),.io .start true,.receive "/echo" 100 0,
        .schedule (.acquire 0 200),.enter 0,.finish 0 .returned,.schedule (.acquire 0 300)]
      ([],new silent .unknowing) = some c ∧ c.2.threadPool.taskQueue = [] ∧
      c.2.threadPool.workers = [.waiting,.unborn] ∧ c.2.ioThread.pending = [] ∧
      c.1.head? = some (.received 0 "/echo" 100) ∧ replies c.1 = [] := ⟨_,rfl,rfl,rfl,rfl,rfl,rfl⟩
  obtain ⟨⟨tr,s⟩,hc,hqueue,hw,hbox,hrec,hrep⟩ := hrun
  have hr := Machine.replay_runs checkContract_sound (runs_new silent .unknowing) hc
  have hq : Quiet s := ⟨hqueue,by dsimp only at hw; simp [hw,Worker.work],hbox⟩
  refine ⟨tr,s,hr,hq,List.mem_of_mem_head? hrec,fun thread body hm => ?_⟩
  have hmem := mem_replies hm
  simp [hrep] at hmem

end Answered

end Kbms.Service
