import Mathlib.Logic.Function.Basic
import Kbms.Foundation.History
import Kbms.Config.ConfigLoader

/-! # Readers of the configuration beside the updating thread

`GetConfig` reads the pointer and copies from the object in separate steps, and `DoUpdating`
deletes an object that it has swapped out, after a fixed delay and with no regard to the
readers. A reader that has the old pointer at that moment copies from a deleted object.
-/
namespace Kbms.Readers
open Foundation History

/-- The address of a `Config` object. -/
abbrev ConfigPtr := ℕ

/-- Where the thread stands in `DoUpdating`: outside; with an accepted response before the
swap; in the sleep; and before the `delete` of the object that it has swapped out. -/
inductive Update
  | idle
  | swapping (r : HttpResponse)
  | waiting (old : Option ConfigPtr)
  | deleting (old : Option ConfigPtr)

/-- Where a reader stands in `GetConfig`: outside; before the test of the pointer; after it;
and with the pointer that it copies from. -/
inductive Reader
  | idle
  | called
  | checked
  | pointing (p : ConfigPtr)
  deriving DecidableEq, Repr

/-- `accepted`: `config_` has the body of the response from now on. -/
inductive Event
  | accepted (r : HttpResponse)
  | deleted (p : ConfigPtr)
  | called (i : ℕ)
  | copied (i : ℕ) (p : ConfigPtr)
  | returned (i : ℕ) (v : List UInt8)

/-- `configs` are all objects that have been built, by their addresses. -/
structure State where
  configs : List Config
  deleted : List ConfigPtr
  config : Option ConfigPtr
  update : Update
  readers : ℕ → Reader

inductive Action
  | fetch (r : HttpResponse)
  | update
  | call (i : ℕ)
  | read (i : ℕ) (garbage : List UInt8)

namespace State

def new : State := ⟨[],[],none,.idle,fun _ => .idle⟩

def data (s : State) : Option (List UInt8) := s.config.bind (fun p => s.configs[p]?.map Config.data)

/-- `DoUpdating` up to the swap, when the request gets the response `r`. -/
def fetch (s : State) (r : HttpResponse) : Option (State × List Event) :=
  match s.update with
  | .idle =>
    if r.code ≠ scSuccess ∨ r.body.length = 0 then some (s,[])
    else if s.data.all (fun data => r.body ≠ data) then some ({ s with update := .swapping r },[])
    else some (s,[.accepted r])
  | _ => none

def swap (s : State) (r : HttpResponse) : State :=
  { s with
    configs := s.configs ++ [⟨r.body⟩]
    config := some s.configs.length
    update := .waiting s.config }

/-- The rest of `DoUpdating`. -/
def advance (s : State) : Option (State × List Event) :=
  match s.update with
  | .idle => none
  | .swapping r => some (s.swap r,[.accepted r])
  | .waiting old => some ({ s with update := .deleting old },[])
  | .deleting none => some ({ s with update := .idle },[])
  | .deleting (some p) => some ({ s with update := .idle, deleted := p :: s.deleted },[.deleted p])

def setReader (s : State) (i : ℕ) (r : Reader) : State := { s with readers := Function.update s.readers i r }

/-- What is copied from an object, which is anything when the object is deleted. -/
def copy (s : State) (p : ConfigPtr) (garbage : List UInt8) : List UInt8 :=
  if p ∈ s.deleted then garbage else (s.configs[p]?.map Config.data).getD garbage

/-- The statements of `GetConfig`. -/
def read (s : State) (i : ℕ) (garbage : List UInt8) : Option (State × List Event) :=
  match s.readers i with
  | .idle => none
  | .called => some (if s.config.isNone then (s.setReader i .idle,[.returned i []]) else (s.setReader i .checked,[]))
  | .checked => s.config.map (fun p => (s.setReader i (.pointing p),[]))
  | .pointing p => some (s.setReader i .idle,[.copied i p,.returned i (s.copy p garbage)])

def step (s : State) : Action → Option (State × List Event)
  | .fetch r => s.fetch r
  | .update => s.advance
  | .call i => if s.readers i = .idle then some (s.setReader i .called,[.called i]) else none
  | .read i garbage => s.read i garbage

end State

def machine : Machine State Action Event where
  initial s := s = .new
  step := State.step

def acceptedOf : Event → Option HttpResponse
  | .accepted r => some r
  | _ => none

/-- The fetch that is the current one after a history. -/
def current (tr : List Event) : Option HttpResponse := (tr.filterMap acceptedOf).getLast?

/-- `v` is the body of a fetch that was the current one at an instant since the call. -/
def Shown (i : ℕ) (before during : List Event) (v : List UInt8) : Prop :=
  ∃ d₁ d₂ r, during = d₁ ++ d₂ ∧ current (before ++ .called i :: d₁) = some r ∧ ConfigLoader.Accepted r ∧ v = r.body

/-- Reader `i` may return `v` now. -/
def Explained (tr : List Event) (i : ℕ) (v : List UInt8) : Prop :=
  ∃ before during, Since (.called i) tr before during ∧
    ((v = [] ∧ ∀ r, .accepted r ∉ before) ∨ Shown i before during v)

/-- No object is copied from after its deletion, and each answer is explained. -/
def Sees (tr : List Event) : Event → Prop
  | .copied _ p => .deleted p ∉ tr
  | .returned i v => Explained tr i v
  | _ => True

/-- An object is deleted only when no reader has its address. -/
def Permitted (_ : List Event) (s : State) (a : Action) : Prop :=
  a = .update → ∀ p, s.update = .deleting (some p) → ∀ i, s.readers i ≠ .pointing p

section Safety
variable {tr es : List Event} {s t : State} {i : ℕ} {a : Reader} {r : HttpResponse} {v garbage : List UInt8}
  {before during : List Event}

/-- What a reader relies on: the object at its address is there, and was shown since its call. -/
def ReaderOk (tr : List Event) (s : State) (i : ℕ) : Reader → Prop
  | .idle => True
  | .called => ∃ before during, Since (.called i) tr before during
  | .checked => (∃ before during, Since (.called i) tr before during) ∧ s.config ≠ none
  | .pointing p => p ∉ s.deleted ∧ ∃ c, s.configs[p]? = some c ∧
      ∃ before during, Since (.called i) tr before during ∧ Shown i before during c.data

structure Inv (tr : List Event) (s : State) : Prop where
  sees : Each Sees tr
  accepted : ∀ r, .accepted r ∈ tr → ConfigLoader.Accepted r
  null : s.config = none → ∀ r, .accepted r ∉ tr
  shown : ∀ p, s.config = some p → p ∉ s.deleted ∧ ∃ c r, s.configs[p]? = some c ∧ current tr = some r ∧ c.data = r.body
  swapping : ∀ r, s.update = .swapping r → ConfigLoader.Accepted r
  old : ∀ p, s.update = .waiting (some p) ∨ s.update = .deleting (some p) →
    s.config ≠ some p ∧ p < s.configs.length
  gone : ∀ p, .deleted p ∈ tr → p ∈ s.deleted
  dead : ∀ p ∈ s.deleted, p < s.configs.length
  readers : ∀ i, ReaderOk tr s i (s.readers i)

theorem Shown.append (h : Shown i before during v) (es : List Event) : Shown i before (during ++ es) v := by
  obtain ⟨d₁,d₂,r,rfl,hcur,hr,hv⟩ := h
  exact ⟨d₁,d₂ ++ es,r,List.append_assoc ..,hcur,hr,hv⟩

theorem mem_of_current (h : current tr = some r) : .accepted r ∈ tr := by
  obtain ⟨e,he,hr⟩ := List.mem_filterMap.mp (List.mem_of_getLast? h)
  cases e with
  | accepted q =>
    cases hr
    exact he
  | deleted _ | called _ | copied _ _ | returned _ _ => cases hr

theorem current_accepted (tr : List Event) (r : HttpResponse) : current (tr ++ [.accepted r]) = some r := by
  simp [current,acceptedOf]

theorem current_append (hes : ∀ e ∈ es, acceptedOf e = none) : current (tr ++ es) = current tr := by
  rw [current, List.filterMap_append, List.filterMap_eq_nil_iff.mpr hes, List.append_nil]
  rfl

/-- A reader keeps what it relies on while other threads go on. -/
theorem ReaderOk.frame (h : ReaderOk tr s i a) (hes : .called i ∉ es) (hnull : s.config ≠ none → t.config ≠ none)
    (hconfigs : ∀ (p : ConfigPtr) c, s.configs[p]? = some c → t.configs[p]? = some c)
    (hdeleted : ∀ p, a = .pointing p → p ∉ s.deleted → p ∉ t.deleted) : ReaderOk (tr ++ es) t i a := by
  cases a with
  | idle => trivial
  | called =>
    obtain ⟨before,during,h⟩ := h
    exact ⟨before,_,h.append hes⟩
  | checked =>
    obtain ⟨⟨before,during,h⟩,hc⟩ := h
    exact ⟨⟨before,_,h.append hes⟩,hnull hc⟩
  | pointing p =>
    obtain ⟨hp,c,hc,before,during,h,hshown⟩ := h
    exact ⟨hdeleted p rfl hp,c,hconfigs p c hc,before,_,h.append hes,hshown.append es⟩

theorem Inv.new : Inv [] .new where
  sees := each_nil
  accepted := by simp
  null := by simp
  shown := by simp [State.new]
  swapping := by simp [State.new]
  old := by simp [State.new]
  gone := by simp
  dead := by simp [State.new]
  readers := fun _ => trivial

/-- The updating thread goes on without an event. -/
theorem Inv.silent {u : Update} (h : Inv tr s) (hswap : ∀ r, u = .swapping r → ConfigLoader.Accepted r)
    (hold : ∀ p, u = .waiting (some p) ∨ u = .deleting (some p) → s.config ≠ some p ∧ p < s.configs.length) :
    Inv (tr ++ []) { s with update := u } := by
  rw [List.append_nil]
  exact ⟨h.sees,h.accepted,h.null,h.shown,hswap,hold,h.gone,h.dead,h.readers⟩

theorem Inv.accept (h : Inv tr s) (hr : ConfigLoader.Accepted r) (q : HttpResponse)
    (hq : .accepted q ∈ tr ++ [.accepted r]) : ConfigLoader.Accepted q := by
  rcases List.mem_append.mp hq with hq | hq
  · exact h.accepted q hq
  · cases List.mem_singleton.mp hq
    exact hr

/-- The response that is fetched has the body that is there. -/
theorem Inv.same (h : Inv tr s) (hr : ConfigLoader.Accepted r) (hdata : s.data = some r.body) :
    Inv (tr ++ [.accepted r]) s := by
  obtain ⟨p,hp,hdata⟩ := Option.bind_eq_some_iff.mp hdata
  obtain ⟨c,hc,hbody⟩ := Option.map_eq_some_iff.mp hdata
  refine ⟨h.sees.snoc trivial,h.accept hr,fun hnull => ?_,fun q hq => ?_,h.swapping,h.old,fun q hq => ?_,h.dead,
    fun i => (h.readers i).frame (by simp) id (fun _ _ => id) (fun _ _ => id)⟩
  · rw [hp] at hnull
    cases hnull
  · rw [hp] at hq
    cases hq
    exact ⟨(h.shown p hp).1,c,r,hc,current_accepted tr r,hbody⟩
  · apply h.gone
    simpa using hq

theorem Inv.swap (h : Inv tr s) (hr : ConfigLoader.Accepted r) : Inv (tr ++ [.accepted r]) (s.swap r) := by
  have hkeep : ∀ (p : ConfigPtr) c, s.configs[p]? = some c → (s.configs ++ [⟨r.body⟩])[p]? = some c := fun p c hc => by
    rw [List.getElem?_append_left (List.getElem?_eq_some_iff.mp hc).1]
    exact hc
  refine ⟨h.sees.snoc trivial,h.accept hr,fun hnull => (by cases hnull),fun q hq => ?_,fun q hq => (by cases hq),
    fun q hq => ?_,fun q hq => ?_,fun q hq => ?_,
    fun i => (h.readers i).frame (by simp) (fun _ => by simp [State.swap]) hkeep (fun _ _ => id)⟩
  · cases hq
    exact ⟨fun hdead => absurd (h.dead _ hdead) (Nat.lt_irrefl _),⟨r.body⟩,r,by simp [State.swap],
      current_accepted tr r,rfl⟩
  · have hconfig : s.config = some q := by
      rcases hq with hq | hq
      · exact Update.waiting.inj hq
      · cases hq
    obtain ⟨-,c,-,hc,-,-⟩ := h.shown q hconfig
    have hlt := (List.getElem?_eq_some_iff.mp hc).1
    refine ⟨fun heq => ?_,Nat.lt_of_lt_of_le hlt (by simp [State.swap])⟩
    cases heq
    exact absurd hlt (Nat.lt_irrefl _)
  · apply h.gone
    simpa using hq
  · exact Nat.lt_of_lt_of_le (h.dead q hq) (by simp [State.swap])

theorem Inv.delete {p : ConfigPtr} (h : Inv tr s) (hp : s.update = .deleting (some p))
    (hfree : ∀ i, s.readers i ≠ .pointing p) :
    Inv (tr ++ [.deleted p]) { s with update := .idle, deleted := p :: s.deleted } := by
  obtain ⟨hne,hlt⟩ := h.old p (.inr hp)
  refine ⟨h.sees.snoc trivial,fun r hr => h.accepted r (by simpa using hr),
    fun hnull r hr => h.null hnull r (by simpa using hr),fun q hq => ?_,fun q hq => (by cases hq),
    fun q hq => (by simp at hq),fun q hq => ?_,fun q hq => ?_,
    fun i => (h.readers i).frame (by simp) id (fun _ _ => id) (fun q hq hdel => ?_)⟩
  · obtain ⟨hdel,c,r,hc,hcur,hdata⟩ := h.shown q hq
    refine ⟨?_,c,r,hc,?_,hdata⟩
    · rw [List.mem_cons, not_or]
      refine ⟨fun heq => hne ?_,hdel⟩
      rw [← heq]
      exact hq
    · rw [current_append (by simp [acceptedOf])]
      exact hcur
  · rcases List.mem_append.mp hq with hq | hq
    · exact List.mem_cons_of_mem p (h.gone q hq)
    · cases List.mem_singleton.mp hq
      exact List.mem_cons_self
  · rcases List.mem_cons.mp hq with rfl | hq
    · exact hlt
    · exact h.dead q hq
  · rw [List.mem_cons, not_or]
    refine ⟨fun heq => hfree i ?_,hdel⟩
    rw [hq, heq]

theorem inv_fetch (h : Inv tr s) (hs : s.fetch r = some (t,es)) : Inv (tr ++ es) t := by
  rw [State.fetch] at hs
  split at hs
  · rename_i hidle
    split at hs
    · cases hs
      rw [List.append_nil]
      exact h
    · rename_i hgood
      rw [not_or] at hgood
      have hr : ConfigLoader.Accepted r := ⟨not_not.mp hgood.1,fun hnil => hgood.2 (by rw [hnil]; rfl)⟩
      split at hs
      · cases hs
        apply h.silent
        · intro q hq
          cases hq
          exact hr
        · intro p hp
          rcases hp with hp | hp <;> cases hp
      · rename_i hsame
        cases hs
        apply h.same hr
        cases hdata : s.data with
        | none => simp [hdata] at hsame
        | some data =>
          rw [hdata] at hsame
          simpa using (Eq.symm (by simpa using hsame : r.body = data))
  · cases hs

theorem inv_advance (h : Inv tr s) (hp : Permitted tr s .update) (hs : s.advance = some (t,es)) :
    Inv (tr ++ es) t := by
  rw [State.advance] at hs
  split at hs
  · cases hs
  · rename_i q hq
    cases hs
    exact h.swap (h.swapping q hq)
  · rename_i old hold
    cases hs
    apply h.silent
    · intro q hq
      cases hq
    · rintro p (hp' | hp')
      · cases hp'
      · cases hp'
        exact h.old p (.inl hold)
  · cases hs
    apply h.silent
    · intro q hq
      cases hq
    · rintro p (hp' | hp') <;> cases hp'
  · rename_i p hdel
    cases hs
    exact h.delete hdel (hp rfl p hdel)

/-- The events of reader `i`. -/
def Own (i : ℕ) : Event → Prop
  | .called j | .copied j _ | .returned j _ => j = i
  | _ => False

theorem Inv.reader (h : Inv tr s) (hown : ∀ e ∈ es, Own i e) (hsees : Each Sees (tr ++ es))
    (ha : ReaderOk (tr ++ es) s i a) : Inv (tr ++ es) (s.setReader i a) := by
  have hacc : ∀ q, .accepted q ∈ tr ++ es → .accepted q ∈ tr := fun q hq =>
    (List.mem_append.mp hq).resolve_right (fun hq => hown _ hq)
  refine ⟨hsees,fun q hq => h.accepted q (hacc q hq),fun hnull q hq => h.null hnull q (hacc q hq),fun p hp => ?_,
    h.swapping,h.old,fun p hp => ?_,h.dead,fun j => ?_⟩
  · obtain ⟨hdel,c,r,hc,hcur,hdata⟩ := h.shown p hp
    refine ⟨hdel,c,r,hc,?_,hdata⟩
    rw [current_append (fun e he => ?_)]
    · exact hcur
    · have := hown e he
      cases e with
      | accepted q => exact this.elim
      | deleted _ | called _ | copied _ _ | returned _ _ => rfl
  · exact h.gone p ((List.mem_append.mp hp).resolve_right (fun hp => hown _ hp))
  · simp only [State.setReader, Function.update_apply]
    split
    · rename_i hj
      subst hj
      exact ha
    · rename_i hj
      exact (h.readers j).frame (fun hm => hj (hown _ hm)) id (fun _ _ => id) (fun _ _ => id)

theorem inv_call (h : Inv tr s) : Inv (tr ++ [.called i]) (s.setReader i .called) := by
  apply h.reader
  · simp [Own]
  · exact h.sees.snoc trivial
  · exact ⟨tr,[],since_now _ tr⟩

theorem inv_read (h : Inv tr s) (hs : s.read i garbage = some (t,es)) : Inv (tr ++ es) t := by
  have hok := h.readers i
  rw [State.read] at hs
  cases ha : s.readers i with
  | idle =>
    rw [ha] at hs
    cases hs
  | called =>
    rw [ha] at hs hok
    obtain ⟨before,during,hsince⟩ := hok
    dsimp only at hs
    split at hs
    · rename_i hnull
      cases hs
      apply h.reader
      · simp [Own]
      · refine h.sees.snoc ⟨before,during,hsince,.inl ⟨rfl,fun q hq => ?_⟩⟩
        apply h.null (Option.isNone_iff_eq_none.mp hnull) q
        rw [hsince.eq]
        exact List.mem_append_left _ hq
      · trivial
    · rename_i hnull
      cases hs
      apply h.reader
      · simp
      · rw [List.append_nil]
        exact h.sees
      · rw [List.append_nil]
        exact ⟨⟨before,during,hsince⟩,by simpa using hnull⟩
  | checked =>
    rw [ha] at hs hok
    obtain ⟨⟨before,during,hsince⟩,-⟩ := hok
    obtain ⟨p,hp,hs⟩ := Option.map_eq_some_iff.mp hs
    cases hs
    obtain ⟨hdel,c,r,hc,hcur,hdata⟩ := h.shown p hp
    apply h.reader
    · simp
    · rw [List.append_nil]
      exact h.sees
    · rw [List.append_nil]
      refine ⟨hdel,c,hc,before,during,hsince,during,[],r,(List.append_nil _).symm,?_,?_,hdata⟩
      · rw [← hsince.eq]
        exact hcur
      · exact h.accepted r (mem_of_current hcur)
  | pointing p =>
    rw [ha] at hs hok
    obtain ⟨hdel,c,hc,before,during,hsince,hshown⟩ := hok
    cases hs
    have hcopy : s.copy p garbage = c.data := by
      rw [State.copy, if_neg hdel, hc]
      rfl
    apply h.reader
    · simp [Own]
    · have hcopied : Each Sees (tr ++ [.copied i p]) := h.sees.snoc (fun hm => hdel (h.gone p hm))
      rw [List.append_cons]
      apply hcopied.snoc
      rw [hcopy]
      exact ⟨before,_,hsince.append (by simp),.inr (hshown.append _)⟩
    · trivial

theorem inv_of_runs (hr : machine.Runs Permitted tr s) : Inv tr s := by
  refine hr.invariant ?_ (fun tr s act t es _ hi hp hs => ?_)
  · rintro _ rfl
    exact .new
  · cases act with
    | fetch r => exact inv_fetch hi hs
    | update => exact inv_advance hi hp hs
    | call i =>
      have hs : (if s.readers i = .idle then some (s.setReader i .called,[Event.called i]) else none) =
        some (t,es) := hs
      split at hs
      · cases hs
        exact inv_call hi
      · cases hs
    | read i garbage => exact inv_read hi hs

/-- In every run in which no object is deleted under a reader that has its address, whatever
the fetches get and however long the readers and the updating thread wait. -/
theorem readers_see_current (hr : machine.Runs Permitted tr s) : Each Sees tr := (inv_of_runs hr).sees

/-- A deletion under a reader can always be followed by a copy from the deleted object. -/
theorem copied_of_pointing {p : ConfigPtr} (hr : machine.Runs Machine.Any tr s) (hi : s.readers i = .pointing p)
    (hp : s.update = .deleting (some p)) (garbage : List UInt8) :
    ∃ t, machine.Runs Machine.Any (tr ++ [.deleted p] ++ [.copied i p,.returned i garbage]) t := by
  have hdel : machine.step s .update = some ({ s with update := .idle, deleted := p :: s.deleted },[.deleted p]) := by
    change s.advance = _
    rw [State.advance, hp]
  have hcopy : machine.step { s with update := .idle, deleted := p :: s.deleted } (.read i garbage) =
      some (State.setReader { s with update := .idle, deleted := p :: s.deleted } i .idle,
        [.copied i p,.returned i garbage]) := by
    change State.read _ i garbage = _
    rw [State.read]
    simp [hi,State.copy]
  exact ⟨_,(hr.next trivial hdel).next trivial hcopy⟩

end Safety

section Loader
variable {s t : State} {es : List Event} {r : HttpResponse} {l : ConfigLoader}

def Shows (s : State) (l : ConfigLoader) : Prop := s.data = l.config.map Config.data

theorem data_swap (s : State) (r : HttpResponse) : (s.swap r).data = some r.body := by
  simp [State.data,State.swap]

/-- With the swap right after the fetch, the thread does what `DoUpdating` does as a whole. -/
theorem doUpdating_shows (h : Shows s l) (hidle : s.update = .idle) (hs : s.fetch r = some (t,es)) :
    (t.update = .idle ∧ Shows t (l.doUpdating r).1) ∨
      (t.update = .swapping r ∧ Shows (t.swap r) (l.doUpdating r).1) := by
  have hall : s.data.all (fun data => r.body ≠ data) = l.config.all (fun config => r.body ≠ config.data) := by
    rw [h, Option.all_map]
  rw [State.fetch, hidle] at hs
  dsimp only at hs
  rw [ConfigLoader.doUpdating]
  split at hs
  · rename_i hbad
    cases hs
    rw [if_pos hbad]
    exact .inl ⟨hidle,h⟩
  · rename_i hgood
    rw [if_neg hgood]
    split at hs
    · rename_i hnew
      cases hs
      rw [if_pos (hall ▸ hnew)]
      exact .inr ⟨rfl,data_swap _ r⟩
    · rename_i hsame
      cases hs
      rw [if_neg (hall ▸ hsame)]
      exact .inl ⟨hidle,h⟩

end Loader

section Examples

def found (body : List UInt8) : HttpResponse := ⟨scSuccess,body,.empty⟩

def permits (_ : List Event) (s : State) (a : Action) : Bool :=
  match a, s.update with
  | .update, .deleting (some _) => false
  | _, _ => true

theorem permitted_of_permits (tr : List Event) (s : State) (a : Action) (h : permits tr s a = true) :
    Permitted tr s a := by
  rintro rfl p hp
  simp [permits,hp] at h

/-- A reader has the address of the first object, and copies from it after the second fetch. -/
def slowReader : List Action :=
  [.fetch (found [1]),.update,.update,.update,.call 0,.read 0 [],.read 0 [],.fetch (found [2]),.update]

def slowReaderEvents : List Event := [.accepted (found [1]),.called 0,.accepted (found [2])]

/-- The reader has returned when the first object is deleted. -/
theorem readers_see_current_two_fetches : ∃ tr s, machine.Runs Permitted tr s ∧
    tr = slowReaderEvents ++ [.copied 0 0,.returned 0 [1]] ++ [.deleted 0] ∧ Each Sees tr := by
  obtain ⟨c,hc,htr,hdel,hidle⟩ : ∃ c, machine.replay permits (slowReader ++ [.read 0 [],.update]) ([],.new) = some c ∧
      c.1 = slowReaderEvents ++ [.copied 0 0,.returned 0 [1]] ∧ c.2.update = .deleting (some 0) ∧
      ∀ i, c.2.readers i = .idle := ⟨_,rfl,rfl,rfl,fun i => by cases i <;> rfl⟩
  have hr := Machine.replay_runs permitted_of_permits (.start rfl) hc
  have hlast : machine.step c.2 .update =
      some ({ c.2 with update := .idle, deleted := 0 :: c.2.deleted },[.deleted 0]) := by
    change c.2.advance = _
    rw [State.advance, hdel]
  have hp : Permitted c.1 c.2 .update := fun _ p _ i => by simp [hidle]
  exact ⟨_,_,hr.next hp hlast,by rw [htr],readers_see_current (hr.next hp hlast)⟩

/-- The reader waits for longer than the updating thread sleeps. -/
theorem copies_from_deleted : ∃ tr s, machine.Runs Machine.Any tr s ∧
    tr = slowReaderEvents ++ [.deleted 0,.copied 0 0,.returned 0 []] ∧ ¬ Each Sees tr := by
  obtain ⟨c,hc,htr⟩ : ∃ c, machine.replay (fun _ _ _ => true) (slowReader ++ [.update,.update,.read 0 []]) ([],.new) =
      some c ∧ c.1 = slowReaderEvents ++ [.deleted 0,.copied 0 0,.returned 0 []] := ⟨_,rfl,rfl⟩
  have hr := Machine.replay_runs (P := Machine.Any) (fun _ _ _ _ => trivial) (.start rfl) hc
  refine ⟨_,_,hr,htr,fun h => ?_⟩
  have hcopied := h (slowReaderEvents ++ [.deleted 0]) (.copied 0 0) [.returned 0 []] (by rw [htr]; rfl)
  exact hcopied (by simp)

end Examples
end Kbms.Readers
