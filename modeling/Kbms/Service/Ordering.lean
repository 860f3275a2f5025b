import Mathlib.Data.List.Range
import Kbms.Foundation.Overtaking
import Kbms.Concurrency.PoolHands
import Kbms.Concurrency.PoolWakeup
import Kbms.Service.Unanswered

/-! # How far replies may be out of order

Requests are queued in the order of their arrival, and a worker answers one of them at a time.
The service is therefore a crew whose servers are the workers: a reply overtakes less earlier
requests than there are workers.
-/
namespace Kbms.Service
open Foundation
variable {H : Type*} {setup : Setup H} {s t : Service} {tr es : List (Event H)} {i : ℕ}
variable {P : List (Event H) → Service → Action → Prop}

/-- Requests are numbered in the order of their arrival. -/
theorem arrivals_range (hr : (machine setup).Runs P tr s) : arrivals tr = List.range s.requests := by
  refine hr.invariant (I := fun tr s => arrivals tr = List.range s.requests) ?_ ?_
  · rintro _ ⟨st,rfl⟩
    rfl
  · intro tr s a t es _ ih _ hs
    rw [arrivals_append, ih, ← (step_emits hs).1]
    rcases step_cases hs with ⟨_,_,_,hreq⟩ | ⟨b,_,pes,hb,hp,_,_,rfl,rfl⟩ | ⟨_,_,pes,_,_,hp,_,_,rfl,rfl⟩ |
      ⟨_,_,_,_,_,_,rfl,rfl⟩ | ⟨_,_,_,_,_,_,_,rfl,rfl⟩
    · obtain ⟨_,_,_,_,_,_,rfl,rfl⟩ := coreHandleRequest_cases hreq
      exact List.range_succ.symm
    · rw [poolTrace_map, ThreadPool.step_added hp, hb, List.append_nil]
    · have hadds := ThreadPool.step_added (a := .enter _) hp
      rw [poolTrace_append, poolTrace_map, ThreadPool.addedTasks_append, hadds]
      exact List.append_nil _
    · exact List.append_nil _
    · rw [poolTrace_ioEvents]
      exact List.append_nil _

/-- The requests that have left the queue of the pool. -/
def taken (s : Service) : ℕ := s.requests - s.threadPool.taskQueue.length

theorem dequeued_range (hr : (machine setup).Runs P tr s) :
    List.range s.requests = ThreadPool.dequeuedTasks (poolTrace tr) ++ s.threadPool.taskQueue := by
  rw [← arrivals_range hr, ← added_arrivals hr, ThreadPool.added_eq (runs_pool hr)]

/-- The next request of the queue is the first one that has not been taken. -/
theorem queue_head (hr : (machine setup).Runs P tr s) {p : ℕ} {queue : List ℕ}
    (hq : s.threadPool.taskQueue = p :: queue) : p = taken s ∧ queue.length + 1 ≤ s.requests := by
  have hrange := dequeued_range hr
  rw [hq] at hrange
  have hlen := congrArg List.length hrange
  rw [List.length_range, List.length_append, List.length_cons] at hlen
  have hget : (List.range s.requests)[(ThreadPool.dequeuedTasks (poolTrace tr)).length]? = some p := by
    rw [hrange, List.getElem?_append_right (Nat.le_refl _), Nat.sub_self]
    rfl
  have hp := (List.getElem?_eq_some_iff.mp hget).2
  rw [List.getElem_range] at hp
  refine ⟨?_,by omega⟩
  rw [taken, hq, List.length_cons]
  omega

theorem workers_length_le (hr : (machine setup).Runs P tr s) :
    s.threadPool.workers.length ≤ setup.threadNum.val := by
  rcases (ThreadPool.wakeupInv_of_runs (runs_pool hr).any).threads with hw | hw
  · rw [hw]
    exact Nat.zero_le _
  · rw [hw, ThreadPool.threadNum_of_runs (runs_pool hr)]

def completion : Event H → Option ℕ
  | .responded _ _ ctx _ => some ctx.req
  | _ => none

theorem respondedTo_append (xs ys : List (Event H)) : respondedTo (xs ++ ys) = respondedTo xs ++ respondedTo ys := by
  rw [respondedTo, responses_append, List.map_append, respondedTo, respondedTo]

theorem respondedTo_pool (pes : List PoolEvent) : respondedTo (pes.map (Event.pool (H := H))) = [] := by
  rw [respondedTo, responses, filterMap_pool response (fun _ => rfl)]
  rfl

theorem completions_eq (tr : List (Event H)) : tr.filterMap completion = respondedTo tr := by
  rw [respondedTo, responses, List.map_filterMap]
  congr 1
  funext e
  cases e <;> rfl

def toState (s : Service) : Overtaking.Crew := ⟨taken s,ThreadPool.heldTasks s.threadPool⟩

/-- A step of the pool is one of the crew, or none. -/
theorem crew_follows {pool' : ThreadPool Closure} {ctr : List ℕ} (hr : (machine setup).Runs P tr s)
    (h : ThreadPool.Handover s.threadPool pool')
    (hc : (Overtaking.crew setup.threadNum.val).Runs Overtaking.Once ctr (toState s)) :
    (Overtaking.crew setup.threadNum.val).Runs Overtaking.Once ctr (toState { s with threadPool := pool' }) := by
  cases h with
  | keep hqueue hheld =>
    rw [toState, taken] at hc ⊢
    dsimp only
    rw [hqueue, hheld]
    exact hc
  | take p hqueue hfree hheld =>
    obtain ⟨hp,hle⟩ := queue_head hr hqueue
    have hlen : s.threadPool.workers.length ≤ setup.threadNum.val := workers_length_le hr
    have hstep : (Overtaking.crew setup.threadNum.val).step (toState s) .take =
        some (⟨taken s + 1,insert (taken s) (ThreadPool.heldTasks s.threadPool)⟩,[]) :=
      if_pos (hfree.trans_le hlen)
    have hnext := hc.next (a := Overtaking.Act.take) trivial hstep
    rw [List.append_nil] at hnext
    have htaken : s.requests - pool'.taskQueue.length = taken s + 1 := by
      rw [taken, hqueue, List.length_cons]
      omega
    rw [toState, taken]
    dsimp only
    rw [htaken, hheld, hp]
    exact hnext
  | release p hqueue hheld =>
    have hnext := hc.next (a := Overtaking.Act.release p) trivial rfl
    rw [List.append_nil] at hnext
    rw [toState, taken]
    dsimp only
    rw [hqueue, hheld]
    exact hnext

/-- The service as a crew, as long as the handlers keep their contract. -/
def toCrew (setup : Setup H) : Machine.Projection (machine setup) HandlerContract
    (Overtaking.crew setup.threadNum.val) Overtaking.Once where
  state := toState
  event := completion
  initial := by
    rintro _ ⟨st,rfl⟩
    rfl
  step := by
    intro tr s a t es hr hp hs hc
    rw [completions_eq, completions_eq] at *
    rcases step_cases hs with ⟨_,_,_,hreq⟩ | ⟨b,pool,pes,hb,hpool,_,_,rfl,rfl⟩ | ⟨j,pool,pes,_,_,hpool,_,_,rfl,rfl⟩ |
      ⟨thread,k,ctx,resBody,rfl,hk,rfl,rfl⟩ | ⟨_,evbufferNew,_,ies,_,_,_,rfl,rfl⟩
    · obtain ⟨built,pool,hbuild,hadd,_,_,rfl,rfl⟩ := coreHandleRequest_cases hreq
      obtain ⟨_,_,rfl⟩ := ThreadPool.construct_cases hbuild
      obtain ⟨hqueue,hheld⟩ := ThreadPool.heldTasks_addTask hadd
      have hsame : toState { s with threadPool := pool, requests := s.requests + 1 } = toState s := by
        rw [toState, toState, taken, taken]
        dsimp only
        rw [hqueue, hheld, List.length_append, List.length_singleton, Nat.add_sub_add_right]
        rfl
      rw [hsame]
      exact (List.append_nil _).symm ▸ hc
    · have hnext := crew_follows hr (ThreadPool.step_handover (runs_pool hr) hb hpool) hc
      rw [respondedTo_pool, List.append_nil]
      exact hnext
    · have hnext := crew_follows hr (ThreadPool.step_handover (a := .enter j) (runs_pool hr) rfl hpool) hc
      rw [respondedTo_append, respondedTo_pool, List.nil_append]
      exact (List.append_nil _).symm ▸ hnext
    · obtain ⟨i,ctx',c,_,hk',hw,hnew⟩ := hp
      rw [hk] at hk'
      cases hk'
      have hheld : ctx.req ∈ (toState s).held := ThreadPool.mem_heldTasks hw rfl
      exact hc.next (a := Overtaking.Act.complete ctx.req) hnew (if_pos hheld)
    · have hnone : respondedTo (ies.flatMap (ioEvents (H := H) setup.evbuffer evbufferNew)) = [] := by
        rw [respondedTo, responses, filterMap_ioEvents response (fun _ => rfl) (fun _ _ _ => rfl)]
        rfl
      rw [hnone, List.append_nil]
      exact hc

theorem runs_crew (hr : (machine setup).Runs HandlerContract tr s) :
    (Overtaking.crew setup.threadNum.val).Runs Overtaking.Once (respondedTo tr) (toState s) := by
  rw [← completions_eq]
  exact (toCrew setup).runs hr

/-- The replies are sent in the order in which the callbacks were called. -/
theorem replied_of_runs (hr : (machine setup).Runs HandlerContract tr s) :
    (replies tr).map Prod.fst <+: respondedTo tr := by
  have hfifo := IoThread.submitted_eq (runs_ioThread hr)
  rw [submitted_responses hr] at hfifo
  rw [replies_called_all hr, respondedTo, hfifo, List.map_append, List.map_map]
  exact List.prefix_append _ _

/-- Whatever the scheduling, a request is replied to before less earlier requests than the pool
has workers. -/
theorem reply_overtakes_lt (hr : (machine setup).Runs HandlerContract tr s) {pre post : List ℕ} {r : ℕ}
    (h : (replies tr).map Prod.fst = pre ++ r :: post) : (post.filter (· < r)).length < setup.threadNum.val := by
  obtain ⟨rest,hrest⟩ := replied_of_runs hr
  have hcrew := runs_crew hr
  rw [← hrest, h, List.append_assoc, List.cons_append] at hcrew
  have hlt := Overtaking.overtaken_lt hcrew
  rw [List.filter_append, List.length_append] at hlt
  exact (Nat.le_add_right _ _).trans_lt hlt

/-- The second of two requests is answered first, and overtakes as much as it can. -/
theorem reply_overtakes_lt_two_workers : ∃ tr, ∃ s : Service, (machine served).Runs HandlerContract tr s ∧
    (replies tr).map Prod.fst = [1,0] ∧ ([0].filter (· < 1)).length + 1 = served.threadNum.val ∧
    ([0].filter (· < 1)).length < served.threadNum.val := by
  obtain ⟨c,hc,hrep⟩ : ∃ c, (machine served).replay checkContract
      [.schedule .init,.schedule (.spawn 0),.schedule (.spawn 1),.io .start true,.receive "/echo" 100 0,
        .receive "/echo" 100 0,.schedule (.acquire 0 200),.schedule (.acquire 1 200),.enter 0,.enter 1,
        .respond (.worker 1) 1 [1],.respond (.worker 0) 0 [0],.io (.recv 1) true,.io .swap true,.io .call true,
        .io .ret true,.io .call true]
      ([],new served .unknowing) = some c ∧ (replies c.1).map Prod.fst = [1,0] := ⟨_,rfl,rfl⟩
  have hr := Machine.replay_runs checkContract_sound (runs_new served .unknowing) hc
  exact ⟨_,_,hr,hrep,rfl,reply_overtakes_lt hr (show _ = [] ++ 1 :: [0] from hrep)⟩

/-- With one worker the replies come in the order of the requests. -/
theorem replies_in_order (hone : setup.threadNum.val = 1) (hr : (machine setup).Runs HandlerContract tr s) :
    ((replies tr).map Prod.fst).Pairwise (· < ·) := by
  have hcrew := runs_crew hr
  rw [hone] at hcrew
  exact (Overtaking.in_order hcrew).sublist (replied_of_runs hr).sublist

end Kbms.Service
