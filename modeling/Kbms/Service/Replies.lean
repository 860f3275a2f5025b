import Kbms.Service.Service

/-! # One reply for each request, and the right one

Every step emits as many submissions as responses and no more replies than calls of
functors, so the replies are part of the responses by the channel laws of the pool and
the mailbox. That a request gets one handler, and so one callback, comes from the pool;
that its reply carries the bytes of that callback comes from the values that the
closures capture.
-/
namespace Kbms.Service
open Foundation Registration
variable {H : Type*} {setup : Setup H} {s t : Service} {tr es : List (Event H)} {i : ℕ}
variable {P : List (Event H) → Service → Action → Prop}

def arrival : Event H → Option ℕ
  | .received req _ _ => some req
  | _ => none

def handlerEntry : Event H → Option ℕ
  | .handlerEntered _ req _ => some req
  | _ => none

def response : Event H → Option Reply
  | .responded _ _ ctx resBody => some ⟨ctx,resBody⟩
  | _ => none

def reply : Event H → Option (ℕ × Bytes)
  | .sendReply _ req body => some (req,body)
  | _ => none

/-- The requests that `CoreHandleRequest` received. -/
def arrivals (tr : List (Event H)) : List ℕ := tr.filterMap arrival
/-- The requests for which a user handler was entered. -/
def handlerEntries (tr : List (Event H)) : List ℕ := tr.filterMap handlerEntry
def responses (tr : List (Event H)) : List Reply := tr.filterMap response
/-- The requests whose send-response callbacks were called. -/
def respondedTo (tr : List (Event H)) : List ℕ := (responses tr).map (fun f => f.ctx.req)
/-- The requests and bodies of the calls of `evhttp_send_reply`. -/
def replies (tr : List (Event H)) : List (ℕ × Bytes) := tr.filterMap reply

@[simp] theorem arrivals_append (xs ys : List (Event H)) :
    arrivals (xs ++ ys) = arrivals xs ++ arrivals ys := List.filterMap_append
@[simp] theorem handlerEntries_append (xs ys : List (Event H)) :
    handlerEntries (xs ++ ys) = handlerEntries xs ++ handlerEntries ys := List.filterMap_append
@[simp] theorem responses_append (xs ys : List (Event H)) :
    responses (xs ++ ys) = responses xs ++ responses ys := List.filterMap_append
@[simp] theorem replies_append (xs ys : List (Event H)) :
    replies (xs ++ ys) = replies xs ++ replies ys := List.filterMap_append

theorem filterMap_pool {α : Type*} (f : Event H → Option α) (hf : ∀ e, f (.pool e) = none)
    (pes : List PoolEvent) : (pes.map Event.pool).filterMap f = [] := by
  rw [List.filterMap_map]
  exact List.filterMap_eq_nil_iff.mpr (fun e _ => hf e)

theorem mem_ioEvents {buffer : Evbuffer} {evbufferNew : Bool} {ies : List (IoEvent Reply)} {e : Event H}
    (h : e ∈ ies.flatMap (ioEvents buffer evbufferNew)) :
    (∃ d, e = .io d) ∨ ∃ req body, e = .sendReply .io req body := by
  obtain ⟨d,_,hd⟩ := List.mem_flatMap.mp h
  cases d with
  | submitted g => exact Or.inl ⟨_,List.mem_singleton.mp hd⟩
  | called g =>
    rcases List.mem_cons.mp hd with rfl | hd
    · exact Or.inl ⟨_,rfl⟩
    · obtain ⟨m,_,rfl⟩ := List.mem_map.mp hd
      exact Or.inr ⟨_,_,rfl⟩

theorem filterMap_ioEvents {α : Type*} (f : Event H → Option α) (hio : ∀ e, f (.io e) = none)
    (hreply : ∀ thread req body, f (.sendReply thread req body) = none) (buffer : Evbuffer) (evbufferNew : Bool)
    (ies : List (IoEvent Reply)) : (ies.flatMap (ioEvents buffer evbufferNew)).filterMap f = [] := by
  refine List.filterMap_eq_nil_iff.mpr (fun e he => ?_)
  rcases mem_ioEvents he with ⟨d,rfl⟩ | ⟨req,body,rfl⟩
  · exact hio d
  · exact hreply _ req body

def Reply.content (f : Reply) : ℕ × Bytes := (f.ctx.req,f.resBody)

theorem replies_called (buffer : Evbuffer) (evbufferNew : Bool) (f : Reply) :
    replies (ioEvents (H := H) buffer evbufferNew (.called f)) =
      if evbufferNew then [Reply.content f] else [] := by
  cases evbufferNew <;> simp [replies,reply,ioEvents,Reply.run,Reply.content,List.filterMap_cons]

/-- The replies of the IO thread are those of the functors it called, except where
`evbuffer_new` failed. -/
theorem replies_ioEvents (buffer : Evbuffer) (evbufferNew : Bool) (ies : List (IoEvent Reply)) :
    replies (ies.flatMap (ioEvents (H := H) buffer evbufferNew)) =
      if evbufferNew then (IoThread.called ies).map Reply.content else [] := by
  induction ies with
  | nil => cases evbufferNew <;> rfl
  | cons e ies ih =>
    rw [List.flatMap_cons, replies_append, ih]
    cases e with
    | submitted f => cases evbufferNew <;> rfl
    | called f =>
      rw [replies_called]
      cases evbufferNew <;> rfl

def Action.allocates : Action → Bool
  | .io _ evbufferNew => evbufferNew
  | _ => true

theorem submitted_none {ies : List (IoEvent Reply)} (h : ∀ f, .submitted f ∉ ies) :
    IoThread.submitted ies = [] := by
  refine List.filterMap_eq_nil_iff.mpr (fun op hop => ?_)
  obtain ⟨e,he,heq⟩ := List.mem_filterMap.mp hop
  cases e with
  | submitted f => exact absurd he (h f)
  | called f =>
    cases heq
    rfl

/-- What every step emits: an arrival with each task that is added, a response with
each functor that is submitted, and a reply with each functor that is called, unless
`evbuffer_new` fails. -/
theorem step_emits {a : Action} (h : step setup s a = some (t,es)) :
    ThreadPool.addedTasks (poolTrace es) = arrivals es ∧
    IoThread.submitted (ioTrace es) = responses es ∧
    replies es = if a.allocates then (IoThread.called (ioTrace es)).map Reply.content else [] := by
  rcases step_cases h with ⟨path,now,k,hreq⟩ | ⟨b,pool,pes,hb,hp,_,_,_,rfl⟩ |
    ⟨i,pool,pes,cl,_,hp,_,_,_,rfl⟩ | ⟨thread,k,ctx,resBody,rfl,_,_,rfl⟩ |
    ⟨b,evbufferNew,io,ies,rfl,_,hno,_,rfl⟩
  · obtain ⟨_,_,_,_,_,_,_,rfl⟩ := coreHandleRequest_cases hreq
    exact ⟨rfl,rfl,by split <;> rfl⟩
  · rw [poolTrace_map, ioTrace_map, ThreadPool.step_added hp, hb]
    refine ⟨(filterMap_pool arrival (fun _ => rfl) pes).symm,
      (filterMap_pool response (fun _ => rfl) pes).symm,?_⟩
    rw [replies, filterMap_pool reply (fun _ => rfl) pes]
    split <;> rfl
  · have hadds := ThreadPool.step_added (a := .enter i) hp
    rw [poolTrace_append, poolTrace_map, ioTrace_append, ioTrace_map, arrivals_append,
      responses_append, replies_append, ThreadPool.addedTasks_append, hadds, arrivals, responses, replies,
      filterMap_pool arrival (fun _ => rfl), filterMap_pool response (fun _ => rfl),
      filterMap_pool reply (fun _ => rfl)]
    exact ⟨rfl,rfl,by split <;> rfl⟩
  · exact ⟨rfl,rfl,rfl⟩
  · rw [poolTrace_ioEvents, ioTrace_ioEvents, replies_ioEvents, submitted_none hno]
    exact ⟨(filterMap_ioEvents arrival (fun _ => rfl) (fun _ _ _ => rfl) _ evbufferNew ies).symm,
      (filterMap_ioEvents response (fun _ => rfl) (fun _ _ _ => rfl) _ evbufferNew ies).symm,rfl⟩

theorem added_arrivals (hr : (machine setup).Runs P tr s) :
    ThreadPool.addedTasks (poolTrace tr) = arrivals tr := by
  refine hr.invariant (I := fun tr _ => ThreadPool.addedTasks (poolTrace tr) = arrivals tr)
    (fun _ _ => rfl) ?_
  intro tr s a t es _ ih _ hs
  rw [poolTrace_append, ThreadPool.addedTasks_append, ih, (step_emits hs).1, arrivals_append]

theorem submitted_responses (hr : (machine setup).Runs P tr s) :
    IoThread.submitted (ioTrace tr) = responses tr := by
  refine hr.invariant (I := fun tr _ => IoThread.submitted (ioTrace tr) = responses tr)
    (fun _ _ => rfl) ?_
  intro tr s a t es _ ih _ hs
  rw [ioTrace_append, IoThread.submitted_append, ih, (step_emits hs).2.1, responses_append]

/-- The functors that the IO thread calls are those of the first responses, in their order. -/
theorem called_response (hr : (machine setup).Runs P tr s) {k : ℕ} {f : Reply}
    (hf : (IoThread.called (ioTrace tr))[k]? = some f) : (responses tr)[k]? = some f := by
  rw [← submitted_responses hr, IoThread.submitted_eq (runs_ioThread hr),
    List.getElem?_append_left (List.getElem?_eq_some_iff.mp hf).1, hf]

/-- The replies are among the responses, each at most as often. -/
theorem replies_sublist (hr : (machine setup).Runs P tr s) :
    (replies tr).Sublist ((responses tr).map Reply.content) := by
  have hcalled : (replies tr).Sublist ((IoThread.called (ioTrace tr)).map Reply.content) := by
    refine hr.invariant (I := fun tr _ => (replies tr).Sublist
      ((IoThread.called (ioTrace tr)).map Reply.content)) (fun _ _ => List.Sublist.slnil) ?_
    intro tr s a t es _ ih _ hs
    rw [replies_append, ioTrace_append, IoThread.called_append, List.map_append, (step_emits hs).2.2]
    refine ih.append ?_
    split
    · exact List.Sublist.refl _
    · exact List.nil_sublist _
  have hfifo := IoThread.submitted_eq (runs_ioThread hr)
  rw [submitted_responses hr] at hfifo
  rw [hfifo, List.map_append]
  exact hcalled.trans (List.sublist_append_left _ _)

theorem mem_arrivals {r : ℕ} : r ∈ arrivals tr ↔ ∃ path arrived, .received r path arrived ∈ tr := by
  rw [arrivals, List.mem_filterMap]
  constructor
  · rintro ⟨e,he,harr⟩
    cases e with
    | received q path arrived =>
      cases harr
      exact ⟨path,arrived,he⟩
    | _ => cases harr
  · rintro ⟨path,arrived,h⟩
    exact ⟨_,h,rfl⟩

theorem added_received (hr : (machine setup).Runs P tr s) {r : ℕ}
    (h : r ∈ ThreadPool.addedTasks (poolTrace tr)) : ∃ path arrived, .received r path arrived ∈ tr :=
  mem_arrivals.mp (added_arrivals hr ▸ h)

section Ties

/-- The task found at a request, as it was built from the request. -/
theorem newTask_callback {r : ℕ} {path : String} {now : TimePoint} {u : Task Closure} {c : Callback}
    {cl : Closure} (hu : (newTask setup r path now).SameWork u) (hc : u.callback c = some cl) :
    cl.hct = ⟨r,path⟩ ∧ cl = match c with
      | .taskFun => .taskFun path ⟨r,path⟩
      | .expireFun => .expireFun ⟨r,path⟩ := by
  rw [hu.callback] at hc
  cases c with
  | taskFun | expireFun =>
    cases hc
    exact ⟨rfl,rfl⟩

theorem closureAt_enter {pool pool' : ThreadPool Closure} {pes : List PoolEvent} {cl : Closure}
    (h : pool.enter i = some (pool',pes)) (hcl : closureAt pool' i = some cl) :
    ∃ p c u, pool.workers[i]? = some (.selected p c) ∧ pes = [.entered i p c] ∧
      pool'.tasks = pool.tasks ∧ pool'.workers[i]? = some (.inside p c) ∧ pool.tasks p = some u ∧
      u.callback c = some cl := by
  obtain ⟨p,c,u,hw,hu,⟨_,rfl,rfl⟩ | ⟨_,rfl,rfl⟩⟩ := ThreadPool.enter_cases h
  · have hset : (pool.workers.set i (.inside p c))[i]? = some (.inside p c) := by
      have hlt := (List.getElem?_eq_some_iff.mp hw).1
      simp [hlt]
    exact ⟨p,c,u,hw,rfl,rfl,hset,hu,by simpa [closureAt,hset,hu] using hcl⟩
  · have hset : (pool.workers.set i .relock)[i]? = some .relock := by
      have hlt := (List.getElem?_eq_some_iff.mp hw).1
      simp [hlt]
    simp [closureAt,hset] at hcl

/-- What ties the events of a request together: its task holds the closures made for
it; each send-response callback belongs to one entered handler; responses come from
callbacks that were handed out; and a user handler is what a closure of the request,
entered by the pool, came to. -/
structure Ties (setup : Setup H) (tr : List (Event H)) (s : Service) : Prop where
  built : ∀ r path now, .received r path now ∈ tr → ∃ u, s.threadPool.tasks r = some u ∧
    (newTask setup r path now).SameWork u
  handed : s.respcbs.map HttpContext.req = handlerEntries tr
  responded : ∀ thread k ctx b, .responded thread k ctx b ∈ tr → s.respcbs[k]? = some ctx
  routed : ∀ i r h, .handlerEntered i r h ∈ tr → ∃ c u cl, .pool (.entered i r c) ∈ tr ∧
    s.threadPool.tasks r = some u ∧ u.callback c = some cl ∧ setup.handlers.call cl = .handler h
  counted : ∀ r, (handlerEntries tr).count r ≤ (poolTrace tr).countP (ThreadPool.enters r .taskFun) +
    (poolTrace tr).countP (ThreadPool.enters r .expireFun)

/-- Steps without arrivals, responses and user handlers. -/
theorem Ties.frame (h : Ties setup tr s)
    (htasks : ThreadPool.Persists s.threadPool.tasks t.threadPool.tasks) (hcbs : t.respcbs = s.respcbs)
    (hes : ∀ e ∈ es, (∀ r path now, e ≠ .received r path now) ∧ (∀ i r h, e ≠ .handlerEntered i r h) ∧
      ∀ thread k ctx b, e ≠ .responded thread k ctx b) : Ties setup (tr ++ es) t := by
  have hentries : handlerEntries es = [] := by
    refine List.filterMap_eq_nil_iff.mpr (fun e he => ?_)
    cases e with
    | handlerEntered i r h => exact absurd rfl ((hes _ he).2.1 i r h)
    | _ => rfl
  refine ⟨?_,?_,?_,?_,?_⟩
  · intro r path now hm
    rcases List.mem_append.mp hm with hm | hm
    · obtain ⟨u,hu,hsame⟩ := h.built r path now hm
      obtain ⟨v,hv,huv⟩ := htasks r u hu
      exact ⟨v,hv,hsame.trans huv⟩
    · exact absurd rfl ((hes _ hm).1 r path now)
  · rw [hcbs, h.handed, handlerEntries_append, hentries, List.append_nil]
  · intro thread k ctx b hm
    rw [hcbs]
    rcases List.mem_append.mp hm with hm | hm
    · exact h.responded thread k ctx b hm
    · exact absurd rfl ((hes _ hm).2.2 thread k ctx b)
  · intro i r f hm
    rcases List.mem_append.mp hm with hm | hm
    · obtain ⟨c,u,cl,he,hu,hc,hcall⟩ := h.routed i r f hm
      obtain ⟨v,hv,huv⟩ := htasks r u hu
      exact ⟨c,v,cl,List.mem_append_left _ he,hv,by rw [huv.callback, hc],hcall⟩
    · exact absurd rfl ((hes _ hm).2.1 i r f)
  · intro r
    have hr := h.counted r
    rw [handlerEntries_append, hentries, List.append_nil, poolTrace_append, List.countP_append,
      List.countP_append]
    omega

/-- A request arrives, under a number that no task has yet. -/
theorem Ties.receive {path : String} {now : TimePoint} {k : ℕ} (h : Ties setup tr s)
    (hs : coreHandleRequest setup s path now k = some (t,es)) : Ties setup (tr ++ es) t := by
  obtain ⟨_,pool,_,_,hnone,htasks,rfl,rfl⟩ := coreHandleRequest_cases hs
  have hpersists : ThreadPool.Persists s.threadPool.tasks pool.tasks := by
    rw [htasks]
    exact ThreadPool.persists_fresh hnone _
  have hself : ∃ u, pool.tasks s.requests = some u ∧
      (newTask setup s.requests path now).SameWork u :=
    ⟨_,by rw [htasks, Function.update_self],.refl _⟩
  have hold : Ties setup (tr ++ [.pool (.added s.requests)])
      { s with threadPool := pool, requests := s.requests + 1 } := h.frame hpersists rfl (by simp)
  refine ⟨?_,?_,?_,?_,?_⟩
  · intro r p now' hm
    rcases List.mem_append.mp hm with hm | hm
    · exact hold.built r p now' (List.mem_append_left _ hm)
    · rcases List.mem_cons.mp hm with he | hm
      · cases he
        exact hself
      · simp at hm
  · simpa [handlerEntries,handlerEntry,List.filterMap_cons] using hold.handed
  · intro thread k ctx b hm
    exact hold.responded thread k ctx b (by simpa using hm)
  · intro i r f hm
    obtain ⟨c,u,cl,he,hrest⟩ := hold.routed i r f (by simpa using hm)
    exact ⟨c,u,cl,by simpa using he,hrest⟩
  · intro r
    simpa [handlerEntries,handlerEntry,poolTrace,poolEvent,List.filterMap_cons] using hold.counted r

/-- The closure of a task carries the context of its request. -/
theorem Ties.closure_req {p : ℕ} {c : Callback} {u : Task Closure} {cl : Closure}
    (hr : (machine setup).Runs P tr s) (h : Ties setup tr s)
    (hw : s.threadPool.workers[i]? = some (.selected p c)) (hu : s.threadPool.tasks p = some u)
    (hc : u.callback c = some cl) : cl.hct.req = p := by
  have hpool := runs_pool hr
  have hadded : p ∈ ThreadPool.addedTasks (poolTrace tr) := by
    rw [ThreadPool.added_eq hpool]
    have hl := ThreadPool.ledger_of_runs hpool
    exact List.mem_append_left _ (ThreadPool.held_dequeued hl (List.mem_of_getElem? hw) rfl)
  obtain ⟨path,arrived,hrec⟩ := added_received hr hadded
  obtain ⟨v,hv,hsame⟩ := h.built p path arrived hrec
  rw [hu] at hv
  cases hv
  rw [(newTask_callback hsame hc).1]

/-- A user handler is entered for the request whose task the worker holds. -/
theorem Ties.enter {pool : ThreadPool Closure} {pes : List PoolEvent} {cl : Closure} {f : H}
    (hr : (machine setup).Runs P tr s) (h : Ties setup tr s)
    (hp : s.threadPool.enter i = some (pool,pes)) (hcl : closureAt pool i = some cl)
    (hcall : setup.handlers.call cl = .handler f) :
    Ties setup (tr ++ (pes.map .pool ++ [.handlerEntered i cl.hct.req f]))
      { s with threadPool := pool, respcbs := s.respcbs ++ [cl.hct] } := by
  obtain ⟨p,c,u,hw,rfl,htasks,hinside,hu,hc⟩ := closureAt_enter hp hcl
  have hreq := h.closure_req hr hw hu hc
  rw [hreq]
  refine ⟨?_,?_,?_,?_,?_⟩
  · intro r path now hm
    rw [htasks]
    exact h.built r path now (by simpa using hm)
  · simp [handlerEntries,handlerEntry,List.filterMap_cons,h.handed,hreq]
  · intro thread k ctx b hm
    have hk := h.responded thread k ctx b (by simpa using hm)
    rw [List.getElem?_append_left (List.getElem?_eq_some_iff.mp hk).1, hk]
  · intro j r g hm
    rcases List.mem_append.mp hm with hm | hm
    · obtain ⟨d,v,dl,he,hv,hrest⟩ := h.routed j r g hm
      exact ⟨d,v,dl,List.mem_append_left _ he,by rw [htasks, hv],hrest⟩
    · simp only [List.map_cons, List.map_nil, List.cons_append, List.nil_append, List.mem_cons,
        List.not_mem_nil, or_false, reduceCtorEq, false_or, Event.handlerEntered.injEq] at hm
      obtain ⟨rfl,rfl,rfl⟩ := hm
      exact ⟨c,u,cl,by simp,by rw [htasks, hu],hc,hcall⟩
  · intro r
    have hold := h.counted r
    have hentries : handlerEntries ([.entered i p c].map .pool ++ [.handlerEntered i p f]) = [p] := rfl
    have hpes : poolTrace ([.entered i p c].map .pool ++ [.handlerEntered i p f]) = [.entered i p c] := rfl
    rw [handlerEntries_append, hentries, poolTrace_append, hpes, List.count_append, List.countP_append,
      List.countP_append]
    by_cases hrp : p = r
    · cases c <;> simp [ThreadPool.enters,hrp] <;> omega
    · simpa [hrp,ThreadPool.enters] using hold

theorem Ties.respond {thread : Thread} {k : ℕ} {ctx : HttpContext} {resBody : Bytes}
    (h : Ties setup tr s) (hk : s.respcbs[k]? = some ctx) (io : IoThread Reply) :
    Ties setup (tr ++ [.responded thread k ctx resBody,.io (.submitted ⟨ctx,resBody⟩)])
      { s with ioThread := io } := by
  refine ⟨?_,?_,?_,?_,?_⟩
  · intro r path now hm
    exact h.built r path now (by simpa using hm)
  · simpa [handlerEntries,handlerEntry,List.filterMap_cons] using h.handed
  · intro th j c b hm
    rcases List.mem_append.mp hm with hm | hm
    · exact h.responded th j c b hm
    · simp only [List.mem_cons, Event.responded.injEq, List.not_mem_nil, or_false, reduceCtorEq] at hm
      obtain ⟨rfl,rfl,rfl,rfl⟩ := hm
      exact hk
  · intro i r f hm
    obtain ⟨c,u,cl,he,hrest⟩ := h.routed i r f (by simpa using hm)
    exact ⟨c,u,cl,List.mem_append_left _ he,hrest⟩
  · intro r
    simpa [handlerEntries,handlerEntry,poolTrace,poolEvent,List.filterMap_cons] using h.counted r

theorem ties_of_runs (hr : (machine setup).Runs P tr s) : Ties setup tr s := by
  refine hr.invariant (I := fun tr s => Ties setup tr s) ?_ ?_
  · rintro _ ⟨st,rfl⟩
    exact ⟨by simp,rfl,by simp,by simp,by simp [handlerEntries]⟩
  · intro tr s a t es hr h _ hs
    rcases step_cases hs with ⟨path,now,k,hreq⟩ | ⟨b,pool,pes,_,hp,_,_,rfl,rfl⟩ |
      ⟨i,pool,pes,cl,f,hp,hcl,hcall,rfl,rfl⟩ | ⟨thread,k,ctx,resBody,_,hk,rfl,rfl⟩ |
      ⟨b,evbufferNew,io,ies,_,_,_,rfl,rfl⟩
    · exact h.receive hreq
    · refine h.frame (ThreadPool.step_persists hp) rfl (fun e he => ?_)
      obtain ⟨d,_,rfl⟩ := List.mem_map.mp he
      simp
    · exact h.enter hr hp hcl hcall
    · exact h.respond hk _
    · refine h.frame (.refl _) rfl (fun e he => ?_)
      rcases mem_ioEvents he with ⟨d,rfl⟩ | ⟨req,body,rfl⟩
      · simp
      · simp

end Ties

section Routing

theorem newTask_late {r : ℕ} {path : String} {arrived now : TimePoint} :
    (newTask setup r path arrived).Late now ↔ setup.late arrived now = true := by
  unfold Task.Late newTask Task.ofExpiration Setup.late
  simp only [Option.isSome_some, Bool.true_and, decide_eq_true_eq, gt_iff_lt, Bool.and_eq_true]
  constructor
  · rintro ⟨hpos,d,hd,hlt⟩
    refine ⟨hpos,?_⟩
    split at hd
    · cases hd
      exact hlt
    · cases hd
  · rintro ⟨hpos,hlt⟩
    have hne : setup.expiration ≠ 0 := by
      rintro h0
      simp [h0] at hpos
    exact ⟨hpos,_,by rw [if_pos hne],hlt⟩

/-- The choice at the dequeue of a request, and the handler that its closure comes to. -/
theorem dequeued_choice (hr : (machine setup).Runs P tr s) {r j : ℕ} {path : String}
    {arrived now : TimePoint} {o : Option Callback} (hrec : .received r path arrived ∈ tr)
    (hdeq : .pool (.dequeued j r now o) ∈ tr) :
    o = some (dueCallback (setup.late arrived now)) := by
  obtain ⟨u,hu,hsame⟩ := (ties_of_runs hr).built r path arrived hrec
  obtain ⟨v,c,hv,rfl,hc⟩ := (ThreadPool.freshInv_of_runs (runs_pool hr)).chosen j r now o
    (mem_poolTrace.mpr hdeq)
  rw [hu] at hv
  cases hv
  rw [hsame.late, newTask_late] at hc
  cases c with
  | taskFun => simpa [dueCallback] using hc
  | expireFun => simpa [dueCallback] using hc

theorem call_handlerFor {r : ℕ} {path : String} {late : Bool} {cl : Closure} {h : H}
    {arrived : TimePoint} {u : Task Closure} (hu : (newTask setup r path arrived).SameWork u)
    (hc : u.callback (dueCallback late) = some cl) :
    setup.handlers.call cl = .handler h ↔ handlerFor setup.registrations path late = some h := by
  have hcl := (newTask_callback hu hc).2
  cases late with
  | true =>
    rw [hcl]
    exact Handlers.call_expireFun path
  | false =>
    rw [hcl]
    exact Handlers.call_taskFun

/-- A user handler is entered only where it is due. -/
theorem handlerEntered_due (hr : (machine setup).Runs P tr s) {r : ℕ} {h : H} {path : String}
    {arrived : TimePoint} (he : .handlerEntered i r h ∈ tr) (hrec : .received r path arrived ∈ tr) :
    ∃ j now, .pool (.dequeued j r now (some (dueCallback (setup.late arrived now)))) ∈ tr ∧
      handlerFor setup.registrations path (setup.late arrived now) = some h := by
  have hties := ties_of_runs hr
  obtain ⟨c,u,cl,hent,hu,hc,hcall⟩ := hties.routed i r h he
  obtain ⟨j,now,hdeq⟩ := ThreadPool.entered_dequeued (runs_pool hr) (mem_poolTrace.mpr hent)
  obtain ⟨v,hv,hsame⟩ := hties.built r path arrived hrec
  rw [hu] at hv
  cases hv
  have hchoice := dequeued_choice hr hrec (mem_poolTrace.mp hdeq)
  rw [Option.some.injEq] at hchoice
  exact ⟨j,now,hchoice ▸ mem_poolTrace.mp hdeq,(call_handlerFor hsame (hchoice ▸ hc)).mp hcall⟩

theorem handlerEntered_received (hr : (machine setup).Runs P tr s) {r : ℕ} {h : H}
    (he : .handlerEntered i r h ∈ tr) : ∃ path arrived, .received r path arrived ∈ tr := by
  obtain ⟨c,u,cl,hent,_⟩ := (ties_of_runs hr).routed i r h he
  exact added_received hr (ThreadPool.entered_added (runs_pool hr) (mem_poolTrace.mpr hent))

end Routing

section Once

/-- Each send-response callback is called at most once, at any time from any thread. -/
def RespondsOnce (tr : List (Event H)) (_ : Service) (a : Action) : Prop :=
  ∀ thread k b, a = .respond thread k b → ∀ th ctx b', .responded th k ctx b' ∉ tr

theorem nodup_handlerEntries (hr : (machine setup).Runs P tr s) : (handlerEntries tr).Nodup := by
  refine List.nodup_iff_count_le_one.mpr (fun r => ?_)
  have hone := ThreadPool.enters_le_one (runs_pool hr) r
  exact ((ties_of_runs hr).counted r).trans hone

theorem mem_responses {f : Reply} (h : f ∈ responses tr) :
    ∃ thread k, .responded thread k f.ctx f.resBody ∈ tr := by
  obtain ⟨e,he,hf⟩ := List.mem_filterMap.mp h
  cases e with
  | responded thread k ctx b =>
    cases hf
    exact ⟨thread,k,he⟩
  | _ => cases hf

/-- Callbacks of one request are one callback. -/
theorem respcbs_inj (hr : (machine setup).Runs P tr s) {k j : ℕ} {ctx ctx' : HttpContext}
    (hk : s.respcbs[k]? = some ctx) (hj : s.respcbs[j]? = some ctx') (h : ctx.req = ctx'.req) :
    k = j := by
  have hn : (s.respcbs.map HttpContext.req).Nodup := by
    rw [(ties_of_runs hr).handed]
    exact nodup_handlerEntries hr
  have hlt : k < (s.respcbs.map HttpContext.req).length := by
    rw [List.length_map]
    exact (List.getElem?_eq_some_iff.mp hk).1
  refine (List.getElem?_inj hlt hn).mp ?_
  rw [List.getElem?_map, List.getElem?_map, hk, hj]
  exact congrArg some h

theorem nodup_respondedTo (hr : (machine setup).Runs RespondsOnce tr s) : (respondedTo tr).Nodup := by
  refine hr.invariant (I := fun tr _ => (respondedTo tr).Nodup) (fun _ _ => List.nodup_nil) ?_
  intro tr s a t es hr ih honce hs
  rw [respondedTo, responses_append, ← (step_emits hs).2.1]
  rcases step_cases hs with ⟨path,now,k,hreq⟩ | ⟨b,pool,pes,_,_,_,_,_,rfl⟩ |
    ⟨i,pool,pes,cl,_,_,_,_,_,rfl⟩ | ⟨thread,k,ctx,resBody,rfl,hk,_,rfl⟩ |
    ⟨b,evbufferNew,io,ies,_,_,hno,_,rfl⟩
  · obtain ⟨_,_,_,_,_,_,_,rfl⟩ := coreHandleRequest_cases hreq
    exact (List.append_nil _).symm ▸ ih
  · rw [ioTrace_map]
    exact (List.append_nil _).symm ▸ ih
  · rw [ioTrace_append, ioTrace_map]
    exact (List.append_nil _).symm ▸ ih
  · rw [List.map_append]
    refine List.nodup_append.mpr ⟨ih,List.nodup_singleton _,?_⟩
    intro r hr' r' hm heq
    obtain rfl : r' = ctx.req := List.mem_singleton.mp hm
    obtain ⟨f,hf,rfl⟩ := List.mem_map.mp hr'
    obtain ⟨th,j,hresp⟩ := mem_responses hf
    have hj := (ties_of_runs hr).responded th j f.ctx f.resBody hresp
    obtain rfl := respcbs_inj hr hk hj heq.symm
    exact honce thread k resBody rfl th f.ctx f.resBody hresp
  · rw [ioTrace_ioEvents, submitted_none hno]
    exact (List.append_nil _).symm ▸ ih

theorem mem_replies {r : ℕ} {body : Bytes} {thread : Thread} (h : .sendReply thread r body ∈ tr) :
    (r,body) ∈ replies tr := List.mem_filterMap.mpr ⟨_,h,rfl⟩

theorem sendReply_io (hr : (machine setup).Runs P tr s) {r : ℕ} {body : Bytes} {thread : Thread}
    (h : .sendReply thread r body ∈ tr) : thread = .io := by
  refine hr.invariant (I := fun tr _ => ∀ thread r body, .sendReply thread r body ∈ tr → thread = .io)
    (by simp) ?_ thread r body h
  intro tr s a t es _ ih _ hs thread r body hm
  rcases List.mem_append.mp hm with hm | hm
  · exact ih thread r body hm
  · rcases step_cases hs with ⟨path,now,k,hreq⟩ | ⟨b,pool,pes,_,_,_,_,_,rfl⟩ |
      ⟨i,pool,pes,cl,_,_,_,_,_,rfl⟩ | ⟨thread,k,ctx,resBody,_,_,_,rfl⟩ |
      ⟨b,evbufferNew,io,ies,_,_,_,_,rfl⟩
    · obtain ⟨_,_,_,_,_,_,_,rfl⟩ := coreHandleRequest_cases hreq
      simp at hm
    · simp at hm
    · simp at hm
    · simp at hm
    · rcases mem_ioEvents hm with ⟨d,he⟩ | ⟨req,body,he⟩
      · cases he
      · cases he
        rfl

/-- For every run in which each send-response callback is called at most once: a request
gets at most one reply, from the IO thread, whose body is what the callback of that
request was called with; and at most one user handler is entered for it, which is the
one due to its path and to whether it was late when it was dequeued. -/
theorem one_reply_for_each_request (hr : (machine setup).Runs RespondsOnce tr s) :
    (∀ r, ((replies tr).map Prod.fst).count r ≤ 1) ∧
    (∀ thread r body, .sendReply thread r body ∈ tr → thread = .io ∧
      ∃ th k ctx, .responded th k ctx body ∈ tr ∧ s.respcbs[k]? = some ctx ∧ ctx.req = r) ∧
    (∀ r, (handlerEntries tr).count r ≤ 1) ∧
    ∀ i r h, .handlerEntered i r h ∈ tr → ∃ path arrived j now, .received r path arrived ∈ tr ∧
      .pool (.dequeued j r now (some (dueCallback (setup.late arrived now)))) ∈ tr ∧
      handlerFor setup.registrations path (setup.late arrived now) = some h := by
  have hsub := replies_sublist hr
  refine ⟨fun r => ?_,fun thread r body hm => ⟨sendReply_io hr hm,?_⟩,fun r => ?_,fun i r h he => ?_⟩
  · have hn : ((replies tr).map Prod.fst).Nodup := by
      refine (hsub.map Prod.fst).nodup ?_
      rw [List.map_map]
      exact nodup_respondedTo hr
    exact List.nodup_iff_count_le_one.mp hn r
  · obtain ⟨f,hf,hcontent⟩ := List.mem_map.mp (hsub.subset (mem_replies hm))
    cases hcontent
    obtain ⟨th,k,hresp⟩ := mem_responses hf
    exact ⟨th,k,f.ctx,hresp,(ties_of_runs hr).responded th k f.ctx f.resBody hresp,rfl⟩
  · exact List.nodup_iff_count_le_one.mp (nodup_handlerEntries hr) r
  · obtain ⟨path,arrived,hrec⟩ := handlerEntered_received hr he
    obtain ⟨j,now,hdue⟩ := handlerEntered_due hr he hrec
    exact ⟨path,arrived,j,now,hrec,hdue⟩

def unused (k : ℕ) : Event H → Bool
  | .responded _ j _ _ => j ≠ k
  | _ => true

def checkOnce (tr : List (Event H)) (_ : Service) : Action → Bool
  | .respond _ k _ => tr.all (unused k)
  | _ => true

theorem checkOnce_sound (tr : List (Event H)) (s : Service) (a : Action)
    (h : checkOnce tr s a = true) : RespondsOnce tr s a := by
  rintro thread k b rfl th ctx b' hm
  have hk := List.all_eq_true.mp h _ hm
  simp [unused] at hk

def echoSetup : Setup ℕ where
  registrations := [.handler "/echo" (some 1),.default (some 2),.timeout (some 3),.handler "/echo" (some 4)]
  threadNum := .two
  expiration := 5
  capacity := 1
  evbuffer := .copying

/-- Two requests are answered out of order by two workers, one of them later by another
thread, while a third request is found late. -/
theorem one_reply_for_each_request_echo : ∃ tr, ∃ s : Service,
    (machine echoSetup).Runs RespondsOnce tr s ∧ handlerEntries tr = [1,0,2] ∧
    replies tr = [(0,[104,0,105]),(1,[42])] ∧
    (∀ r, ((replies tr).map Prod.fst).count r ≤ 1) ∧ ∀ r, (handlerEntries tr).count r ≤ 1 := by
  have hrun : ∃ c, (machine echoSetup).replay checkOnce
      [.schedule .init,.schedule (.spawn 0),.schedule (.spawn 1),.io .start true,
        .receive "/echo" 100 0,.receive "/x" 100 0,.receive "/late" 100 0,
        .schedule (.acquire 0 200),.schedule (.acquire 1 200),.enter 1,.enter 0,
        .respond (.worker 0) 1 [104,0,105],.finish 0 .returned,.schedule (.acquire 0 5000101),.enter 0,
        .finish 1 .returned,.respond (.other 7) 0 [42],
        .io (.recv 1) true,.io .swap true,.io .call true,.io .ret true,.io .call true]
      ([],new echoSetup .unknowing) = some c ∧ handlerEntries c.1 = [1,0,2] ∧
      replies c.1 = [(0,[104,0,105]),(1,[42])] := ⟨_,rfl,rfl,rfl⟩
  obtain ⟨⟨tr,s⟩,hc,he,hrep⟩ := hrun
  have hr := Machine.replay_runs checkOnce_sound (runs_new echoSetup .unknowing) hc
  obtain ⟨hone,_,hentry,_⟩ := one_reply_for_each_request hr
  exact ⟨tr,s,hr,he,hrep,hone,hentry⟩

end Once

end Kbms.Service
