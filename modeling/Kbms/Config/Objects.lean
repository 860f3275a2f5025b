import Kbms.Foundation.Exchange
import Kbms.Config.ConfigLoader

/-! # The `Config` objects of the loader

`HandsOnUpdate` may be called by any thread, also while the background thread updates. Here the
statements of `DoUpdating` are apart, and `std::swap` reads `config_` and then writes it. Each
object is deleted just once if nobody swaps in between, and only then.
-/
namespace Kbms.Objects
open Foundation

/-- The address of a `Config` object. -/
abbrev ConfigPtr := ℕ

/-- Where an updater stands in `DoUpdating`: outside; with an accepted body before the test of
`config_`, before it loads the pointer and before it reads the object for the comparison, and before
the `new`; before `std::swap` reads `config_` and before it writes it; and with the old pointer
before the `delete`. -/
inductive Point
  | outside
  | testing (body : List UInt8)
  | loading (body : List UInt8)
  | comparing (body : List UInt8) (p : ConfigPtr)
  | building (body : List UInt8)
  | swapping (configNew : ConfigPtr)
  | writing (configNew : ConfigPtr) (old : Option ConfigPtr)
  | waiting (old : Option ConfigPtr)
  deriving DecidableEq, Repr

/-- `swapped p prior seen`: `config_` was `prior` and is `p` from now on; it had been read as `seen`. -/
inductive Event
  | swapped (configNew : ConfigPtr) (prior seen : Option ConfigPtr)
  | returned (i : ℕ) (ok : Bool)
  deriving DecidableEq, Repr

/-- `configs` are all objects that have been built, by their addresses. -/
structure State where
  configs : List Config
  deleted : List ConfigPtr
  config : Option ConfigPtr
  updaters : List Point

inductive Action
  | fetch (i : ℕ) (r : HttpResponse)
  | advance (i : ℕ) (garbage : List UInt8)

namespace State

def setUpdater (s : State) (i : ℕ) (w : Point) : State := { s with updaters := s.updaters.set i w }

/-- `DoUpdating` up to the test of the response `r`. -/
def fetch (s : State) (i : ℕ) (r : HttpResponse) : Option (State × List Event) :=
  match s.updaters[i]? with
  | some .outside =>
    if r.code ≠ scSuccess ∨ r.body.length = 0 then some (s,[.returned i false])
    else some (s.setUpdater i (.testing r.body),[])
  | _ => none

/-- What is read from an object, which is anything when the object is deleted. Another updater may
have deleted it since the pointer was loaded. -/
def data (s : State) (p : ConfigPtr) (garbage : List UInt8) : List UInt8 :=
  if p ∈ s.deleted then garbage else (s.configs[p]?.map Config.data).getD garbage

/-- The next statement of `DoUpdating`. -/
def advance (s : State) (i : ℕ) (garbage : List UInt8) : Option (State × List Event) :=
  match s.updaters[i]? with
  | some (.testing body) => some (s.setUpdater i (if s.config.isNone then .building body else .loading body),[])
  | some (.loading body) => s.config.map (fun p => (s.setUpdater i (.comparing body p),[]))
  | some (.comparing body p) =>
    some (if body ≠ s.data p garbage then (s.setUpdater i (.building body),[])
    else (s.setUpdater i .outside,[.returned i true]))
  | some (.building body) =>
    some ({ s with
      configs := s.configs ++ [⟨body⟩]
      updaters := s.updaters.set i (.swapping s.configs.length) },[])
  | some (.swapping p) => some (s.setUpdater i (.writing p s.config),[])
  | some (.writing p old) =>
    some ({ s with config := some p, updaters := s.updaters.set i (.waiting old) },[.swapped p s.config old])
  | some (.waiting old) =>
    some ({ s with deleted := s.deleted ++ old.toList, updaters := s.updaters.set i .outside },[.returned i true])
  | _ => none

def step (s : State) : Action → Option (State × List Event)
  | .fetch i r => s.fetch i r
  | .advance i garbage => s.advance i garbage

/-- `~ConfigLoader`. -/
def destroy (s : State) : State := { s with deleted := s.deleted ++ s.config.toList, config := none }

end State

/-- The updating thread and callers of `HandsOnUpdate`, together `n` updaters. -/
def machine (n : ℕ) : Machine State Action Event where
  initial s := s = ⟨[],[],none,List.replicate n .outside⟩
  step := State.step

namespace Point

/-- The object that only this updater has. -/
def object : Point → Option ConfigPtr
  | .swapping p | .writing p _ => some p
  | .waiting old => old
  | _ => none

def isWriting : Point → Bool
  | .writing _ _ => true
  | _ => false

def hand : Point → Exchange.Hand ConfigPtr
  | .outside | .testing _ | .loading _ | .comparing _ _ | .building _ => .empty
  | .swapping p => .offering p
  | .writing p old => .storing p old
  | .waiting old => .keeping old

end Point

/-- The number of places where the object at `p` is. -/
def State.places (s : State) (p : ConfigPtr) : ℕ :=
  (if s.config = some p then 1 else 0) + s.updaters.countP (fun w => w.object = some p) + s.deleted.count p

/-- Every object that has been built is the current one, or some updater's, or deleted once. -/
def EachOnce (s : State) : Prop := ∀ p < s.configs.length, s.places p = 1

/-- The pointer that is overwritten is the one that was read. -/
def Matched : Event → Prop
  | .swapped _ prior seen => seen = prior
  | _ => True

/-- No `std::swap` begins while another one is in the middle. -/
def Alone (_ : List Event) (s : State) (a : Action) : Prop :=
  ∀ i garbage p, a = .advance i garbage → s.updaters[i]? = some (.swapping p) → ∀ w ∈ s.updaters, w.isWriting = false

section Exchange
variable {n : ℕ} {s t : State} {a : Action} {tr es : List Event} {P : List Event → State → Action → Prop}

def exchange (s : State) : Exchange.State ConfigPtr :=
  ⟨List.range s.configs.length,s.deleted,s.config,s.updaters.map Point.hand⟩

def exchanged : Event → Option (Exchange.Event ConfigPtr)
  | .swapped p prior seen => some ⟨p,prior,seen⟩
  | _ => none

/-- A statement that does not count, or one of the exchange. -/
def Exchanges (s : State) (a : Action) (t : State) (es : List Event) : Prop :=
  (exchange t = exchange s ∧ es.filterMap exchanged = []) ∨
    ∃ b, Exchange.step (exchange s) b = some (exchange t,es.filterMap exchanged) ∧
      ∀ i, b = .read i → ∃ garbage p, a = .advance i garbage ∧ s.updaters[i]? = some (.swapping p)

theorem map_hand_set {i : ℕ} {w : Point} (hi : s.updaters[i]? = some w) (v : Point) :
    (s.updaters.set i v).map Point.hand = (s.updaters.map Point.hand).set i v.hand ∧
    (s.updaters.map Point.hand)[i]? = some w.hand := by
  rw [List.map_set, List.getElem?_map, hi]
  exact ⟨rfl,rfl⟩

theorem exchange_setUpdater {i : ℕ} {w v : Point} (hi : s.updaters[i]? = some w) (hv : v.hand = w.hand) :
    exchange (s.setUpdater i v) = exchange s := by
  obtain ⟨hset,hget⟩ := map_hand_set hi v
  obtain ⟨hlt,hw⟩ := List.getElem?_eq_some_iff.mp hget
  have hsame : (s.updaters.set i v).map Point.hand = s.updaters.map Point.hand := by
    rw [hset, hv, ← hw, List.set_getElem_self]
  rw [exchange, State.setUpdater, hsame]
  rfl

theorem exchanges_fetch {i : ℕ} {r : HttpResponse} (hs : s.fetch i r = some (t,es)) :
    Exchanges s (.fetch i r) t es := by
  simp only [State.fetch] at hs
  split at hs
  · rename_i hi
    split at hs
    · cases hs
      exact .inl ⟨rfl,rfl⟩
    · cases hs
      exact .inl ⟨exchange_setUpdater hi rfl,rfl⟩
  · cases hs

theorem exchanges_advance {i : ℕ} {garbage : List UInt8} (hs : s.advance i garbage = some (t,es)) :
    Exchanges s (.advance i garbage) t es := by
  simp only [State.advance] at hs
  split at hs
  · rename_i body hi
    cases hs
    refine .inl ⟨exchange_setUpdater hi ?_,rfl⟩
    split <;> rfl
  · rename_i body hi
    obtain ⟨p,_,hs⟩ := Option.map_eq_some_iff.mp hs
    cases hs
    exact .inl ⟨exchange_setUpdater hi rfl,rfl⟩
  · rename_i body p hi
    split at hs
    · cases hs
      exact .inl ⟨exchange_setUpdater hi rfl,rfl⟩
    · cases hs
      exact .inl ⟨exchange_setUpdater hi rfl,rfl⟩
  · rename_i body hi
    cases hs
    obtain ⟨hset,hget⟩ := map_hand_set hi (.swapping s.configs.length)
    refine .inr ⟨.make i s.configs.length,?_,fun j he => by cases he⟩
    have hnew : s.configs.length ∉ (exchange s).made := by simp [exchange]
    rw [Exchange.step_make hget hnew, exchange, exchange, hset, List.length_append, List.length_singleton,
      List.range_succ]
    rfl
  · rename_i p hi
    cases hs
    obtain ⟨hset,hget⟩ := map_hand_set hi (.writing p s.config)
    refine .inr ⟨.read i,?_,fun j he => ?_⟩
    · rw [Exchange.step_read hget, exchange, exchange, State.setUpdater, hset]
      rfl
    · cases he
      exact ⟨garbage,p,rfl,hi⟩
  · rename_i p old hi
    cases hs
    obtain ⟨hset,hget⟩ := map_hand_set hi (.waiting old)
    refine .inr ⟨.store i,?_,fun j he => by cases he⟩
    rw [Exchange.step_store hget, exchange, exchange, hset]
    rfl
  · rename_i old hi
    cases hs
    obtain ⟨hset,hget⟩ := map_hand_set hi .outside
    refine .inr ⟨.drop i,?_,fun j he => by cases he⟩
    rw [Exchange.step_drop hget, exchange, exchange, hset]
    rfl
  · cases hs

theorem exchanges (hs : s.step a = some (t,es)) : Exchanges s a t es := by
  cases a with
  | fetch i r => exact exchanges_fetch hs
  | advance i garbage => exact exchanges_advance hs

theorem exchange_initial : exchange ⟨[],[],none,List.replicate n .outside⟩ = ⟨[],[],none,List.replicate n .empty⟩ := by
  rw [exchange, List.map_replicate]
  rfl

/-- The statements of `DoUpdating` are an exchange of the objects through `config_`. -/
def toExchange (n : ℕ) : Machine.Projection (machine n) Machine.Any (Exchange.machine ConfigPtr n) Machine.Any where
  state := exchange
  event := exchanged
  initial := by
    rintro _ rfl
    exact exchange_initial
  step := by
    intro tr s a t es _ _ hs hr
    rcases exchanges hs with ⟨heq,hes⟩ | ⟨b,hb,_⟩
    · rwa [heq, hes, List.append_nil]
    · exact hr.next trivial hb

/-- Swaps one at a time are storings one at a time. -/
def toExchangeAlone (n : ℕ) : Machine.Projection (machine n) Alone (Exchange.machine ConfigPtr n) Exchange.Alone where
  state := exchange
  event := exchanged
  initial := by
    rintro _ rfl
    exact exchange_initial
  step := by
    intro tr s a t es _ hp hs hr
    rcases exchanges hs with ⟨heq,hes⟩ | ⟨b,hb,hread⟩
    · rwa [heq, hes, List.append_nil]
    · refine hr.next (fun i he h hmem => ?_) hb
      obtain ⟨garbage,p,rfl,hi⟩ := hread i he
      obtain ⟨w,hw,rfl⟩ := List.mem_map.mp hmem
      have halone := hp i garbage p rfl hi w hw
      cases w <;> first | rfl | exact halone

theorem uses_exchange (s : State) (p : ConfigPtr) : (exchange s).uses p = s.places p := by
  have htoken : ∀ w : Point, w.hand.token = w.object := fun w => by cases w <;> rfl
  simp only [Exchange.State.uses, exchange, State.places, List.countP_map, Function.comp_def, htoken]
  rfl

theorem matched_exchanged (tr : List Event) : Exchange.Matched (tr.filterMap exchanged) ↔ ∀ e ∈ tr, Matched e := by
  constructor
  · intro h e he
    cases e with
    | swapped p prior seen => exact h ⟨p,prior,seen⟩ (List.mem_filterMap.mpr ⟨_,he,rfl⟩)
    | returned i ok => trivial
  · intro h e he
    obtain ⟨d,hd,hde⟩ := List.mem_filterMap.mp he
    have hmatched := h d hd
    cases d with
    | swapped p prior seen =>
      cases hde
      exact hmatched
    | returned i ok => cases hde

/-- In every run, whoever updates and whenever: each object that was built is in one place, so
that none is deleted twice, deleted while it is current, or lost, just when every `std::swap`
overwrote the pointer that it had read. -/
theorem each_once_iff (hr : (machine n).Runs P tr s) : EachOnce s ↔ ∀ e ∈ tr, Matched e := by
  rw [← matched_exchanged]
  refine Iff.trans (forall_congr' (fun p => ?_)) (Exchange.balanced_iff ((toExchange n).runs hr.any))
  change (p < s.configs.length → _) ↔ (p ∈ List.range s.configs.length → (exchange s).uses p = 1)
  rw [uses_exchange, List.mem_range]

/-- When one updater swaps at a time, `config_` never points to a deleted object, and when the loader is
destroyed after all updates, it has deleted every object just once. -/
theorem deleted_once (hr : (machine n).Runs Alone tr s) :
    (∀ p, s.config = some p → p ∉ s.deleted) ∧
    ((∀ w ∈ s.updaters, w = .outside) → s.destroy.deleted.Perm (List.range s.configs.length)) := by
  have hplaces : ∀ p, s.places p = (List.range s.configs.length).count p := by
    intro p
    rw [← uses_exchange]
    exact Exchange.uses_of_alone ((toExchangeAlone n).runs hr) p
  constructor
  · intro p hconfig hdeleted
    have hp := hplaces p
    have honce := List.nodup_iff_count_le_one.mp (List.nodup_range (n := s.configs.length)) p
    have hpos := List.count_pos_iff.mpr hdeleted
    rw [State.places, if_pos hconfig] at hp
    omega
  · intro houtside
    refine List.perm_iff_count.mpr (fun p => ?_)
    have hp := hplaces p
    have hzero : s.updaters.countP (fun w => w.object = some p) = 0 := by
      refine List.countP_eq_zero.mpr (fun w hw => ?_)
      simp [houtside w hw,Point.object]
    have hcurrent : s.config.toList.count p = if s.config = some p then 1 else 0 := by
      cases s.config <;> simp [List.count_singleton]
    rw [State.places, hzero] at hp
    rw [State.destroy, List.count_append, hcurrent, ← hp]
    omega

end Exchange

section Example

def fetched (data : UInt8) : HttpResponse := ⟨scSuccess,[data],.empty⟩

/-- An updater fetches a new body and executes five statements: all of `DoUpdating` if there is no
object yet, and else those up to the reading of `config_` in `std::swap`. -/
def begin (i : ℕ) (data : UInt8) : List Action := .fetch i (fetched data) :: List.replicate 5 (.advance i [])

theorem runs_new {P : List Event → State → Action → Prop} (n : ℕ) :
    (machine n).Runs P [] ⟨[],[],none,List.replicate n .outside⟩ := .start rfl

/-- Two updaters read the same old pointer: they both delete it, and one of their objects is lost. -/
theorem each_once_iff_two_updaters : ∃ tr, ∃ s : State, (machine 2).Runs Machine.Any tr s ∧
    s.deleted = [0,0] ∧ s.config = some 2 ∧ (EachOnce s ↔ ∀ e ∈ tr, Matched e) := by
  obtain ⟨c,hc,hdeleted,hconfig⟩ : ∃ c, (machine 2).replay (fun _ _ _ => true)
      (begin 0 1 ++ begin 0 2 ++ begin 1 3 ++ [.advance 0 [],.advance 1 [],.advance 0 [],.advance 1 []])
      ([],⟨[],[],none,List.replicate 2 .outside⟩) = some c ∧ c.2.deleted = [0,0] ∧ c.2.config = some 2 :=
    ⟨_,rfl,rfl,rfl⟩
  have hr := Machine.replay_runs (P := Machine.Any) (fun _ _ _ _ => trivial) (runs_new 2) hc
  exact ⟨_,_,hr,hdeleted,hconfig,each_once_iff hr⟩

def permits (_ : List Event) (s : State) : Action → Bool
  | .fetch _ _ => true
  | .advance i _ =>
    match s.updaters[i]? with
    | some (.swapping _) => s.updaters.all (fun w => !w.isWriting)
    | _ => true

theorem alone_of_permits (tr : List Event) (s : State) (a : Action) (h : permits tr s a = true) : Alone tr s a := by
  rintro i garbage p rfl hi w hw
  rw [permits, hi] at h
  simpa using List.all_eq_true.mp h w hw

/-- The second update begins before the first one has deleted, and its object is the last. -/
theorem deleted_once_two_updaters : ∃ tr, ∃ s : State, (machine 2).Runs Alone tr s ∧ s.destroy.deleted = [0,1,2] ∧
    (∀ p, s.config = some p → p ∉ s.deleted) ∧ s.destroy.deleted.Perm (List.range s.configs.length) := by
  obtain ⟨c,hc,hdeleted,houtside⟩ : ∃ c, (machine 2).replay permits
      (begin 0 1 ++ begin 0 2 ++ [.advance 0 []] ++ begin 1 3 ++ [.advance 1 [],.advance 0 [],.advance 1 []])
      ([],⟨[],[],none,List.replicate 2 .outside⟩) = some c ∧ c.2.destroy.deleted = [0,1,2] ∧
      c.2.updaters = [.outside,.outside] := ⟨_,rfl,rfl,rfl⟩
  have hr := Machine.replay_runs alone_of_permits (runs_new 2) hc
  have honce := deleted_once hr
  refine ⟨_,_,hr,hdeleted,honce.1,honce.2 (fun w hw => ?_)⟩
  rw [houtside] at hw
  simpa using hw

end Example
end Kbms.Objects
