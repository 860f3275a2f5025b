import Kbms.Foundation.History
import Kbms.Foundation.LoopThread
import Kbms.Foundation.Roster
import Kbms.Config.ConfigLoader

/-! # Manual updates beside the updating thread

`HandsOnUpdate` goes on when the flag of the status is set, which the thread sets around its
own `DoUpdating`, so the test is the wrong way round. It sets no flag itself, and the
constructor leaves the flag as it is.
-/
namespace Kbms.HandsOn
open Foundation History

inductive Party
  | background
  | manual (i : ℕ)
  deriving DecidableEq, Repr

/-- Where a caller stands in `HandsOnUpdate`: outside; before the test of the flag; before
`DoUpdating`; and in it. -/
inductive Manual
  | idle
  | called
  | decided
  | inside
  deriving DecidableEq, Repr

/-- `entered` and `left` are those of `DoUpdating`, with the response it got and its result. -/
inductive Event
  | called (i : ℕ)
  | decided (i : ℕ) (goesOn : Bool)
  | entered (w : Party)
  | left (w : Party) (r : HttpResponse) (ok : Bool)
  | returned (i : ℕ) (ok : Bool)

/-- `status` is `flag_of_updating_status_`. A round of the thread stores `true`, enters and
leaves `DoUpdating`, and stores `false`. -/
structure State where
  loader : ConfigLoader
  status : Bool
  thread : LoopThread
  manuals : List Manual

def lastPiece : ℕ := 3

inductive Action
  | start
  | stop
  | join
  | thread (r : HttpResponse)
  | call (i : ℕ)
  | decide (i : ℕ)
  | enter (i : ℕ)
  | leave (i : ℕ) (r : HttpResponse)

namespace State

/-- A step of the thread, with the response of the request if it is in `DoUpdating`. -/
def advance (s : State) (r : HttpResponse) : Option (State × List Event) :=
  (s.thread.advance lastPiece).map (fun v =>
    match s.thread.phase with
    | .working 0 => ({ s with thread := v, status := true },[])
    | .working 1 => ({ s with thread := v },[.entered .background])
    | .working 2 =>
      ({ s with thread := v, loader := (s.loader.doUpdating r).1 },[.left .background r (s.loader.doUpdating r).2])
    | .working _ => ({ s with thread := v, status := false },[])
    | _ => ({ s with thread := v },[]))

def setManual (s : State) (i : ℕ) (m : Manual) : State := { s with manuals := s.manuals.set i m }

/-- The test of the flag, and the return where it is clear. -/
def decide (s : State) (i : ℕ) : State × List Event :=
  if s.status then (s.setManual i .decided,[.decided i true])
  else (s.setManual i .idle,[.decided i false,.returned i false])

def step (s : State) : Action → Option (State × List Event)
  | .start => if s.thread.joinable then none else some ({ s with thread := s.thread.start },[])
  | .stop => some ({ s with thread := s.thread.stop },[])
  | .join => s.thread.join.map (fun v => ({ s with thread := v },[]))
  | .thread r => s.advance r
  | .call i => if s.manuals[i]? = some .idle then some (s.setManual i .called,[.called i]) else none
  | .decide i => if s.manuals[i]? = some .called then some (s.decide i) else none
  | .enter i =>
    if s.manuals[i]? = some .decided then some (s.setManual i .inside,[.entered (.manual i)]) else none
  | .leave i r =>
    if s.manuals[i]? = some .inside then
      some ({ s.setManual i .idle with loader := (s.loader.doUpdating r).1 },
        [.left (.manual i) r (s.loader.doUpdating r).2,.returned i (s.loader.doUpdating r).2])
    else none

end State

/-- `n` callers, each of which calls `HandsOnUpdate` any number of times. -/
def machine (n : ℕ) : Machine State Action Event where
  initial s := ∃ url status, s = ⟨.new url,status,⟨.absent,false⟩,List.replicate n .idle⟩
  step := State.step

def track (ws : List Party) : Event → List Party
  | .entered w => w :: ws
  | .left w _ _ => ws.erase w
  | _ => ws

/-- Those that are in `DoUpdating` after a history. -/
def progress (tr : List Event) : List Party := tr.foldl track []

/-- What caller `i` may return now: `false` without having entered `DoUpdating`, or the result
of the fetch that it has made. -/
def Result (tr : List Event) (i : ℕ) (ok : Bool) : Prop :=
  ∃ before during, Since (.called i) tr before during ∧
    ((ok = false ∧ .decided i false ∈ during ∧ .entered (.manual i) ∉ during) ∨
      (.decided i true ∈ during ∧ ∃ r, .left (.manual i) r ok ∈ during ∧ ok = Decidable.decide (ConfigLoader.Accepted r)))

/-- `DoUpdating` is entered only when nobody is in it, `HandsOnUpdate` gives up exactly when
somebody is, and it returns what it should. -/
def Excludes (tr : List Event) : Event → Prop
  | .entered _ => progress tr = []
  | .decided _ goesOn => goesOn = false ↔ progress tr ≠ []
  | .returned i ok => Result tr i ok
  | _ => True

def Inside (s : State) : Party → Prop
  | .background => s.thread.phase = .working 2
  | .manual i => s.manuals[i]? = some .inside

/-- The step does not break the exclusion. -/
def Apart (s : State) : Action → Prop
  | .decide _ => (s.status = true → ∀ w, ¬ Inside s w) ∧ (s.status = false → .inside ∈ s.manuals)
  | .enter _ => ∀ w, ¬ Inside s w
  | .thread _ => s.thread.phase = .working 1 → ∀ w, ¬ Inside s w
  | _ => True

/-- The caller has tested the flag and not returned since. -/
def Manual.tested : Manual → Bool
  | .decided | .inside => true
  | .idle | .called => false

/-- `HandsOnUpdate`, from its test on, and the rounds of the thread, between its two stores, come one
at a time, and the test finds the flag set. -/
def Permitted (_ : List Event) (s : State) : Action → Prop
  | .decide _ => s.status = true ∧ (∀ k, s.thread.phase ≠ .working (k + 1)) ∧ ∀ m ∈ s.manuals, m.tested = false
  | .thread _ => s.thread.phase = .working 0 → ∀ m ∈ s.manuals, m.tested = false
  | _ => True

section Progress
variable {tr es : List Event} {s t : State} {w : Party} {r : HttpResponse} {i : ℕ} {b : Manual}

theorem progress_append (tr es : List Event) : progress (tr ++ es) = es.foldl track (progress tr) := List.foldl_append

/-- What the history says of `DoUpdating` agrees with where the parties stand, and the flag is
set while the thread is between its two stores. -/
structure Tracked (tr : List Event) (s : State) : Prop where
  nodup : (progress tr).Nodup
  mem : ∀ w, w ∈ progress tr ↔ Inside s w
  flag : ∀ k, s.thread.phase = .working (k + 1) → s.status = true

/-- Nobody enters or leaves `DoUpdating`. -/
theorem Tracked.frame (h : Tracked tr s) (hprogress : progress (tr ++ es) = progress tr)
    (hinside : ∀ w, Inside t w ↔ Inside s w) (hflag : ∀ k, t.thread.phase = .working (k + 1) → t.status = true) :
    Tracked (tr ++ es) t := by
  refine ⟨hprogress ▸ h.nodup,fun w => ?_,hflag⟩
  rw [hprogress, hinside]
  exact h.mem w

theorem Tracked.enter (h : Tracked tr s) (hprogress : progress (tr ++ es) = w :: progress tr) (hw : ¬ Inside s w)
    (hinside : ∀ u, Inside t u ↔ u = w ∨ Inside s u) (hflag : ∀ k, t.thread.phase = .working (k + 1) → t.status = true) :
    Tracked (tr ++ es) t := by
  refine ⟨?_,fun u => ?_,hflag⟩
  · rw [hprogress, List.nodup_cons]
    exact ⟨fun hmem => hw ((h.mem w).mp hmem),h.nodup⟩
  · rw [hprogress, List.mem_cons, hinside, h.mem]

theorem Tracked.leave (h : Tracked tr s) (hprogress : progress (tr ++ es) = (progress tr).erase w)
    (hinside : ∀ u, Inside t u ↔ u ≠ w ∧ Inside s u) (hflag : ∀ k, t.thread.phase = .working (k + 1) → t.status = true) :
    Tracked (tr ++ es) t := by
  refine ⟨?_,fun u => ?_,hflag⟩
  · rw [hprogress]
    exact h.nodup.erase w
  · rw [hprogress, h.nodup.mem_erase_iff, hinside, h.mem]

/-- The thread moves between two points outside `DoUpdating`. -/
theorem inside_thread {v : LoopThread} {status : Bool} (hs : s.thread.phase ≠ .working 2) (hv : v.phase ≠ .working 2)
    (u : Party) : Inside { s with thread := v, status := status } u ↔ Inside s u := by
  cases u with
  | background => exact ⟨fun h => absurd h hv,fun h => absurd h hs⟩
  | manual i => exact Iff.rfl

theorem inside_setManual (hi : i < s.manuals.length) (u : Party) :
    Inside (s.setManual i b) u ↔ if u = .manual i then b = .inside else Inside s u := by
  cases u with
  | background => simp [Inside,State.setManual]
  | manual j =>
    simp only [Inside, State.setManual, List.getElem?_set, Party.manual.injEq]
    by_cases hj : i = j
    · subst hj
      simp [hi]
    · rw [if_neg hj, if_neg (Ne.symm hj)]

/-- A caller moves between two points outside `DoUpdating`. -/
theorem Tracked.manual {a : Manual} (h : Tracked tr s) (hprogress : progress (tr ++ es) = progress tr)
    (hi : s.manuals[i]? = some a) (ha : a ≠ .inside) (hb : b ≠ .inside) : Tracked (tr ++ es) (s.setManual i b) := by
  apply h.frame hprogress
  · intro u
    rw [inside_setManual (List.getElem?_eq_some_iff.mp hi).1]
    split
    · rename_i hu
      subst hu
      rw [Inside, hi]
      simp [ha,hb]
    · rfl
  · exact h.flag

theorem Tracked.thread (h : Tracked tr s) (hs : s.advance r = some (t,es)) : Tracked (tr ++ es) t := by
  obtain ⟨loader,status,⟨phase,on⟩,manuals⟩ := s
  obtain ⟨v,hv,hs⟩ := Option.map_eq_some_iff.mp hs
  cases phase with
  | absent | ended => cases hv
  | created | checking | sleeping =>
    cases hv
    cases hs
    apply h.frame
    · rw [List.append_nil]
    · apply inside_thread
      · simp
      · cases on <;> simp
    · intro k hk
      cases on <;> cases hk
  | working k =>
    match k with
    | 0 =>
      cases hv
      cases hs
      apply h.frame
      · rw [List.append_nil]
      · apply inside_thread <;> simp [lastPiece]
      · exact fun _ _ => rfl
    | 1 =>
      cases hv
      cases hs
      apply h.enter (w := .background)
      · exact progress_append ..
      · simp [Inside]
      · intro u
        cases u with
        | background => simp [Inside,lastPiece]
        | manual j => simp [Inside]
      · exact fun _ _ => h.flag 0 rfl
    | 2 =>
      cases hv
      cases hs
      apply h.leave (w := .background)
      · exact progress_append ..
      · intro u
        cases u with
        | background => simp [Inside,lastPiece]
        | manual j => simp [Inside]
      · exact fun _ _ => h.flag 1 rfl
    | k + 3 =>
      cases hv
      cases hs
      apply h.frame
      · rw [List.append_nil]
      · apply inside_thread <;> simp [lastPiece]
      · simp [lastPiece]

theorem Tracked.step {act : Action} (h : Tracked tr s) (hs : s.step act = some (t,es)) : Tracked (tr ++ es) t := by
  cases act with
  | thread r => exact h.thread hs
  | start =>
    rw [State.step] at hs
    split at hs
    · cases hs
    · rename_i hj
      cases hs
      apply h.frame
      · rw [List.append_nil]
      · apply inside_thread
        · have habs : s.thread.phase = .absent := by simpa [LoopThread.joinable] using hj
          simp [habs]
        · simp [LoopThread.start]
      · intro k hk
        cases hk
  | stop =>
    cases hs
    apply h.frame
    · rw [List.append_nil]
    · intro u
      cases u <;> exact Iff.rfl
    · exact h.flag
  | join =>
    obtain ⟨v,hv,hs⟩ := Option.map_eq_some_iff.mp hs
    cases hs
    rw [LoopThread.join] at hv
    split at hv
    · rename_i hend
      cases hv
      apply h.frame
      · rw [List.append_nil]
      · apply inside_thread
        · simp [hend]
        · simp
      · intro k hk
        cases hk
    · cases hv
  | call i =>
    rw [State.step] at hs
    split at hs
    · rename_i hi
      cases hs
      exact h.manual (progress_append ..) hi (by simp) (by simp)
    · cases hs
  | decide i =>
    rw [State.step] at hs
    split at hs
    · rename_i hi
      rw [State.decide] at hs
      split at hs <;> cases hs
      · exact h.manual (progress_append ..) hi (by simp) (by simp)
      · exact h.manual (progress_append ..) hi (by simp) (by simp)
    · cases hs
  | enter i =>
    rw [State.step] at hs
    split at hs
    · rename_i hi
      cases hs
      apply h.enter (w := .manual i)
      · exact progress_append ..
      · simp [Inside,hi]
      · intro u
        rw [inside_setManual (List.getElem?_eq_some_iff.mp hi).1]
        by_cases hu : u = .manual i <;> simp [hu]
      · exact h.flag
    · cases hs
  | leave i r =>
    rw [State.step] at hs
    split at hs
    · rename_i hi
      cases hs
      apply h.leave (w := .manual i)
      · exact progress_append ..
      · intro u
        have hset := inside_setManual (b := .idle) (List.getElem?_eq_some_iff.mp hi).1 u
        change Inside (s.setManual i .idle) u ↔ _
        rw [hset]
        by_cases hu : u = .manual i <;> simp [hu]
      · exact h.flag
    · cases hs

theorem tracked_of_runs {n : ℕ} (hr : (machine n).Runs Machine.Any tr s) : Tracked tr s := by
  refine hr.invariant ?_ (fun tr s act t es _ hi _ hs => hi.step hs)
  rintro _ ⟨url,status,rfl⟩
  refine ⟨List.nodup_nil,fun w => ?_,fun k hk => (by cases hk)⟩
  cases w with
  | background => simp [progress,Inside]
  | manual i => simp [progress,Inside,List.getElem?_replicate]

/-- Where `DoUpdating` is entered only when nobody is in it, nobody shares it. -/
theorem progress_length (h : Each Excludes tr) : (progress tr).length ≤ 1 := by
  induction tr using List.reverseRecOn with
  | nil => simp [progress]
  | append_singleton tr e ih =>
    have hlen := ih h.of_append
    rw [progress_append, List.foldl_cons, List.foldl_nil]
    cases e with
    | entered w =>
      have hnil : progress tr = [] := h.last
      simp [track,hnil]
    | left w r ok =>
      have := List.length_erase_le (a := w) (l := progress tr)
      simp only [track]
      omega
    | called _ | decided _ _ | returned _ _ => exact hlen

theorem Tracked.unique {w w' : Party} (h : Tracked tr s) (hlen : (progress tr).length ≤ 1) (hw : Inside s w)
    (hw' : Inside s w') : w = w' := by
  have hmem := (h.mem w).mpr hw
  have hmem' := (h.mem w').mpr hw'
  cases hp : progress tr with
  | nil => simp [hp] at hmem
  | cons u ws =>
    rw [hp, List.length_cons] at hlen
    have hnil : ws = [] := List.length_eq_zero_iff.mp (by omega)
    subst hnil
    rw [hp] at hmem hmem'
    exact (List.mem_singleton.mp hmem).trans (List.mem_singleton.mp hmem').symm

theorem Tracked.progress_eq_nil (h : Tracked tr s) : progress tr = [] ↔ ∀ w, ¬ Inside s w := by
  rw [List.eq_nil_iff_forall_not_mem]
  simp only [h.mem]

end Progress

section Exclusion
variable {n : ℕ} {tr es : List Event} {s t : State} {r : HttpResponse} {i j : ℕ} {b m : Manual}

/-- What the history says of a caller. -/
def ManualOk (tr : List Event) (i : ℕ) : Manual → Prop
  | .idle => True
  | .called => ∃ before during, Since (.called i) tr before during ∧ .entered (.manual i) ∉ during
  | .decided | .inside => ∃ before during, Since (.called i) tr before during ∧ .decided i true ∈ during

structure Inv (tr : List Event) (s : State) : Prop extends Tracked tr s where
  excludes : Each Excludes tr
  manuals : ∀ (i : ℕ) m, s.manuals[i]? = some m → ManualOk tr i m

theorem ManualOk.append (h : ManualOk tr i m) (hcalled : .called i ∉ es) (hentered : .entered (.manual i) ∉ es) :
    ManualOk (tr ++ es) i m := by
  cases m with
  | idle => trivial
  | called =>
    obtain ⟨before,during,hsince,hin⟩ := h
    exact ⟨before,_,hsince.append hcalled,by simp [hin,hentered]⟩
  | decided | inside =>
    obtain ⟨before,during,hsince,hdec⟩ := h
    exact ⟨before,_,hsince.append hcalled,List.mem_append_left es hdec⟩

/-- Caller `i` goes on to `b`, and the others stay. -/
theorem Inv.manual_set (h : Inv tr s) (hcalled : ∀ j, j ≠ i → .called j ∉ es)
    (hentered : ∀ j, j ≠ i → .entered (.manual j) ∉ es) (hb : ManualOk (tr ++ es) i b) (j : ℕ) (m : Manual)
    (hj : (s.manuals.set i b)[j]? = some m) : ManualOk (tr ++ es) j m := by
  rcases Roster.getElem?_set_cases hj with ⟨rfl,rfl⟩ | ⟨hne,hj⟩
  · exact hb
  · exact (h.manuals j m hj).append (hcalled j (Ne.symm hne)) (hentered j (Ne.symm hne))

theorem Inv.keep (h : Inv tr s) (hcalled : ∀ j, .called j ∉ es) (hentered : ∀ j, .entered (.manual j) ∉ es)
    (j : ℕ) (m : Manual) (hj : s.manuals[j]? = some m) : ManualOk (tr ++ es) j m :=
  (h.manuals j m hj).append (hcalled j) (hentered j)

/-- No caller moves, and nothing is put on record. -/
theorem Inv.silent (h : Inv tr s) (htracked : Tracked (tr ++ []) t) (hmanuals : t.manuals = s.manuals) :
    Inv (tr ++ []) t := by
  rw [List.append_nil] at *
  refine ⟨htracked,h.excludes,?_⟩
  rw [hmanuals]
  exact h.manuals

theorem Inv.thread (h : Inv tr s) (hp : Apart s (.thread r)) (hs : s.advance r = some (t,es)) :
    Inv (tr ++ es) t := by
  have htracked := h.toTracked.thread hs
  obtain ⟨v,hv,hs⟩ := Option.map_eq_some_iff.mp hs
  split at hs
  · cases hs
    exact h.silent htracked rfl
  · rename_i hphase
    cases hs
    refine ⟨htracked,h.excludes.snoc ?_,h.keep (by simp) (by simp)⟩
    exact h.toTracked.progress_eq_nil.mpr (hp hphase)
  · cases hs
    exact ⟨htracked,h.excludes.snoc trivial,h.keep (by simp) (by simp)⟩
  · cases hs
    exact h.silent htracked rfl
  · cases hs
    exact h.silent htracked rfl

theorem Inv.decide (h : Inv tr s) (hp : Apart s (.decide i)) (hi : s.manuals[i]? = some .called)
    (hs : s.step (.decide i) = some (t,es)) : Inv (tr ++ es) t := by
  have htracked := h.toTracked.step hs
  obtain ⟨before,during,hsince,hin⟩ := h.manuals i .called hi
  rw [State.step, if_pos hi, State.decide] at hs
  split at hs
  · rename_i hflag
    cases hs
    have hnil := h.toTracked.progress_eq_nil.mpr (hp.1 hflag)
    refine ⟨htracked,h.excludes.snoc ?_,h.manual_set (by simp) (by simp) ?_⟩
    · simp [Excludes,hnil]
    · exact ⟨before,_,hsince.append (by simp),by simp⟩
  · rename_i hflag
    cases hs
    have hbusy : progress tr ≠ [] := by
      intro hnil
      obtain ⟨k,hk⟩ := List.mem_iff_getElem?.mp (hp.2 (by simpa using hflag))
      exact h.toTracked.progress_eq_nil.mp hnil (.manual k) hk
    refine ⟨htracked,?_,h.manual_set (by simp) (by simp) trivial⟩
    have hdecided : Each Excludes (tr ++ [.decided i false]) := h.excludes.snoc (by simp [Excludes,hbusy])
    rw [List.append_cons]
    apply hdecided.snoc
    exact ⟨before,_,hsince.append (by simp),.inl ⟨rfl,by simp,by simp [hin]⟩⟩

theorem Inv.leave (h : Inv tr s) (hi : s.manuals[i]? = some .inside) (hs : s.step (.leave i r) = some (t,es)) :
    Inv (tr ++ es) t := by
  have htracked := h.toTracked.step hs
  obtain ⟨before,during,hsince,hdec⟩ := h.manuals i .inside hi
  rw [State.step, if_pos hi] at hs
  cases hs
  refine ⟨htracked,?_,h.manual_set (by simp) (by simp) trivial⟩
  have hleft : Each Excludes (tr ++ [.left (.manual i) r (s.loader.doUpdating r).2]) := h.excludes.snoc trivial
  rw [List.append_cons]
  apply hleft.snoc
  refine ⟨before,_,hsince.append (by simp),.inr ⟨by simp [hdec],r,by simp,?_⟩⟩
  exact (ConfigLoader.doUpdating_spec s.loader r).1

theorem Inv.step {act : Action} (h : Inv tr s) (hp : Apart s act) (hs : s.step act = some (t,es)) :
    Inv (tr ++ es) t := by
  have htracked := h.toTracked.step hs
  cases act with
  | thread r => exact h.thread hp hs
  | start =>
    rw [State.step] at hs
    split at hs
    · cases hs
    · cases hs
      exact h.silent htracked rfl
  | stop =>
    cases hs
    exact h.silent htracked rfl
  | join =>
    obtain ⟨v,hv,hs⟩ := Option.map_eq_some_iff.mp hs
    cases hs
    exact h.silent htracked rfl
  | call i =>
    rw [State.step] at hs
    split at hs
    · cases hs
      refine ⟨htracked,h.excludes.snoc trivial,h.manual_set (fun j hj => by simp [hj]) (by simp) ?_⟩
      exact ⟨tr,[],since_now _ tr,by simp⟩
    · cases hs
  | decide i =>
    by_cases hi : s.manuals[i]? = some .called
    · exact h.decide hp hi hs
    · rw [State.step, if_neg hi] at hs
      cases hs
  | enter i =>
    rw [State.step] at hs
    split at hs
    · rename_i hi
      cases hs
      obtain ⟨before,during,hsince,hdec⟩ := h.manuals i .decided hi
      refine ⟨htracked,h.excludes.snoc ?_,h.manual_set (by simp) (fun j hj => by simp [hj]) ?_⟩
      · exact h.toTracked.progress_eq_nil.mpr hp
      · exact ⟨before,_,hsince.append (by simp),by simp [hdec]⟩
    · cases hs
  | leave i r =>
    by_cases hi : s.manuals[i]? = some .inside
    · exact h.leave hi hs
    · rw [State.step, if_neg hi] at hs
      cases hs

/-- No round is in progress beside a call that has made its test, and no second such call. -/
structure Serial (s : State) : Prop where
  rounds : ∀ k, s.thread.phase = .working (k + 1) → ∀ m ∈ s.manuals, m.tested = false
  calls : ∀ (i j : ℕ) m m', s.manuals[i]? = some m → s.manuals[j]? = some m' → m.tested = true → m'.tested = true →
    i = j

theorem Manual.not_inside {ms : List Manual} (h : ∀ m ∈ ms, m.tested = false) : .inside ∉ ms :=
  fun hmem => by cases h _ hmem

/-- In a serial state a permitted step does not break the exclusion. -/
theorem Serial.apart {act : Action} (h : Serial s) (hp : Permitted tr s act) (hs : s.step act = some (t,es)) :
    Apart s act := by
  have hnobody : s.thread.phase ≠ .working 2 → .inside ∉ s.manuals → ∀ w, ¬ Inside s w := by
    intro hphase hno w hw
    cases w with
    | background => exact hphase hw
    | manual j => exact hno (List.mem_of_getElem? hw)
  cases act with
  | start | stop | join | call _ | leave _ _ => trivial
  | thread r =>
    intro hphase
    exact hnobody (by simp [hphase]) (Manual.not_inside (h.rounds 0 hphase))
  | decide i =>
    obtain ⟨hset,hround,hcalls⟩ := hp
    refine ⟨fun _ => hnobody (hround 1) (Manual.not_inside hcalls),fun hclear => ?_⟩
    rw [hset] at hclear
    cases hclear
  | enter i =>
    rw [State.step] at hs
    split at hs
    · rename_i hi
      refine hnobody (fun hphase => ?_) (fun hmem => ?_)
      · cases h.rounds 1 hphase _ (List.mem_of_getElem? hi)
      · obtain ⟨j,hj⟩ := List.mem_iff_getElem?.mp hmem
        obtain rfl := h.calls i j _ _ hi hj rfl rfl
        rw [hi] at hj
        cases hj
    · cases hs

/-- Caller `i` moves, and has made its test only if it had or if all is quiet. -/
theorem Serial.setManual (h : Serial s) (hi : s.manuals[i]? = some m)
    (hb : b.tested = true → m.tested = true ∨
      (∀ k, s.thread.phase ≠ .working (k + 1)) ∧ ∀ m ∈ s.manuals, m.tested = false) : Serial (s.setManual i b) := by
  have hother : ∀ (j : ℕ) m', i ≠ j → s.manuals[j]? = some m' → b.tested = true → m'.tested = false := by
    intro j m' hne hj htested
    rcases hb htested with hm | ⟨-,hquiet⟩
    · refine Bool.eq_false_iff.mpr (fun hm' => hne ?_)
      exact h.calls i j m m' hi hj hm hm'
    · exact hquiet m' (List.mem_of_getElem? hj)
  constructor
  · intro k hk m' hm'
    obtain ⟨j,hj⟩ := List.mem_iff_getElem?.mp hm'
    rcases Roster.getElem?_set_cases hj with ⟨-,rfl⟩ | ⟨-,hj⟩
    · refine Bool.eq_false_iff.mpr (fun htested => ?_)
      rcases hb htested with hm | ⟨hround,-⟩
      · rw [h.rounds k hk m (List.mem_of_getElem? hi)] at hm
        cases hm
      · exact hround k hk
    · exact h.rounds k hk m' (List.mem_of_getElem? hj)
  · intro j j' m₁ m₂ hj hj' hm₁ hm₂
    rcases Roster.getElem?_set_cases hj with ⟨hij,rfl⟩ | ⟨hne,hold⟩ <;>
      rcases Roster.getElem?_set_cases hj' with ⟨hij',rfl⟩ | ⟨hne',hold'⟩
    · exact hij.symm.trans hij'
    · rw [hother j' m₂ hne' hold' hm₁] at hm₂
      cases hm₂
    · rw [hother j m₁ hne hold hm₂] at hm₁
      cases hm₁
    · exact h.calls j j' m₁ m₂ hold hold' hm₁ hm₂

theorem Serial.advance (h : Serial s) (hp : Permitted tr s (.thread r)) (hs : s.advance r = some (t,es)) :
    Serial t := by
  obtain ⟨loader,status,⟨phase,on⟩,manuals⟩ := s
  obtain ⟨v,hv,hs⟩ := Option.map_eq_some_iff.mp hs
  cases phase with
  | absent | ended => cases hv
  | created | checking | sleeping =>
    cases hv
    cases hs
    refine ⟨fun k hk => ?_,h.calls⟩
    cases on <;> cases hk
  | working k =>
    match k with
    | 0 =>
      cases hv
      cases hs
      exact ⟨fun _ _ => hp rfl,h.calls⟩
    | k + 1 =>
      have hquiet := h.rounds k rfl
      cases hv
      split at hs <;> cases hs <;> exact ⟨fun _ _ => hquiet,h.calls⟩

theorem Serial.step {act : Action} (h : Serial s) (hp : Permitted tr s act) (hs : s.step act = some (t,es)) :
    Serial t := by
  cases act with
  | thread r => exact h.advance hp hs
  | start =>
    rw [State.step] at hs
    split at hs
    · cases hs
    · cases hs
      exact ⟨fun k hk => (by cases hk),h.calls⟩
  | stop =>
    cases hs
    exact ⟨h.rounds,h.calls⟩
  | join =>
    obtain ⟨v,hv,hs⟩ := Option.map_eq_some_iff.mp hs
    cases hs
    rw [LoopThread.join] at hv
    split at hv
    · cases hv
      exact ⟨fun k hk => (by cases hk),h.calls⟩
    · cases hv
  | call i =>
    rw [State.step] at hs
    split at hs
    · rename_i hi
      cases hs
      exact h.setManual hi (fun hb => by cases hb)
    · cases hs
  | decide i =>
    rw [State.step] at hs
    split at hs
    · rename_i hi
      rw [State.decide] at hs
      split at hs <;> cases hs <;> exact h.setManual hi (fun _ => .inr hp.2)
    · cases hs
  | enter i =>
    rw [State.step] at hs
    split at hs
    · rename_i hi
      cases hs
      exact h.setManual hi (fun _ => .inl rfl)
    · cases hs
  | leave i r =>
    rw [State.step] at hs
    split at hs
    · rename_i hi
      cases hs
      have hmove := h.setManual (b := .idle) hi (fun hb => by cases hb)
      exact ⟨hmove.rounds,hmove.calls⟩
    · cases hs

theorem inv_of_runs (hr : (machine n).Runs Permitted tr s) : Inv tr s ∧ Serial s := by
  refine hr.invariant (I := fun tr s => Inv tr s ∧ Serial s) ?_
    (fun tr s act t es _ h hp hs => ⟨h.1.step (h.2.apart hp hs) hs,h.2.step hp hs⟩)
  rintro _ ⟨url,status,rfl⟩
  refine ⟨⟨tracked_of_runs (n := n) (.start ⟨url,status,rfl⟩),each_nil,fun i m hm => ?_⟩,
    fun k hk => (by cases hk),fun i j m m' hi _ hm => ?_⟩
  · obtain rfl := List.eq_of_mem_replicate (List.mem_of_getElem? hm)
    trivial
  · obtain rfl := List.eq_of_mem_replicate (List.mem_of_getElem? hi)
    cases hm

/-- In every run whose calls and rounds come one at a time and whose tests find the flag set, with any
number of callers and the thread started or not. -/
theorem updates_exclude (hr : (machine n).Runs Permitted tr s) :
    Each Excludes tr ∧ ∀ w w', Inside s w → Inside s w' → w = w' := by
  obtain ⟨hi,-⟩ := inv_of_runs hr
  exact ⟨hi.excludes,fun _ _ => hi.toTracked.unique (progress_length hi.excludes)⟩

/-- Wherever a step does not keep apart, the exclusion is broken at once. -/
theorem not_excludes_of_not_apart {act : Action} (hr : (machine n).Runs Machine.Any tr s)
    (hs : s.step act = some (t,es)) (hp : ¬ Apart s act) : ¬ Each Excludes (tr ++ es) := by
  have htracked := tracked_of_runs hr
  intro h
  apply hp
  cases act with
  | start | stop | join | call i | leave i r => trivial
  | thread r =>
    intro hphase
    obtain ⟨v,hv,hs⟩ := Option.map_eq_some_iff.mp hs
    rw [hphase] at hs
    cases hs
    exact htracked.progress_eq_nil.mp h.last
  | enter i =>
    rw [State.step] at hs
    split at hs
    · cases hs
      exact htracked.progress_eq_nil.mp h.last
    · cases hs
  | decide i =>
    rw [State.step] at hs
    split at hs
    · rw [State.decide] at hs
      split at hs
      · rename_i hflag
        cases hs
        refine ⟨fun _ => htracked.progress_eq_nil.mp ?_,fun hoff => ?_⟩
        · simpa [Excludes] using h.last
        · rw [hflag] at hoff
          cases hoff
      · rename_i hflag
        cases hs
        refine ⟨fun hon => absurd hon hflag,fun _ => ?_⟩
        rw [List.append_cons] at h
        have hbusy : progress tr ≠ [] := by simpa [Excludes] using h.of_append.last
        obtain ⟨w,hw⟩ := List.exists_mem_of_ne_nil _ hbusy
        have hin := (htracked.mem w).mp hw
        cases w with
        | background => exact absurd (htracked.flag 1 hin) hflag
        | manual k => exact List.mem_of_getElem? hin
    · cases hs

end Exclusion

section Examples

def permits (_ : List Event) (s : State) : Action → Bool
  | .decide _ => s.status && (match s.thread.phase with
      | .working (_ + 1) => false
      | _ => true) && s.manuals.all (fun m => !m.tested)
  | .thread _ => s.thread.phase != .working 0 || s.manuals.all (fun m => !m.tested)
  | _ => true

theorem permitted_of_permits (tr : List Event) (s : State) (a : Action) (h : permits tr s a = true) :
    Permitted tr s a := by
  have hquiet : s.manuals.all (fun m => !m.tested) = true → ∀ m ∈ s.manuals, m.tested = false := by
    intro hall m hm
    simpa using List.all_eq_true.mp hall m hm
  cases a with
  | decide i =>
    rw [permits, Bool.and_eq_true, Bool.and_eq_true] at h
    refine ⟨h.1.1,fun k hk => ?_,hquiet h.2⟩
    have hphase := h.1.2
    rw [hk] at hphase
    cases hphase
  | thread r =>
    intro hphase
    exact hquiet (by simpa [permits,hphase] using h)
  | start | stop | join | call _ | enter _ | leave _ _ => trivial

theorem runs_new {P : List Event → State → Action → Prop} (n : ℕ) (status : Bool) :
    (machine n).Runs P [] ⟨.new "u",status,⟨.absent,false⟩,List.replicate n .idle⟩ := .start ⟨"u",status,rfl⟩

def fetched : HttpResponse := ⟨scSuccess,[1],.empty⟩

/-- The thread begins a round and is in `DoUpdating`. -/
def round : List Action := .start :: List.replicate 4 (.thread fetched)

/-- The flag is constructed set. Two callers come, one of them is faster, and then the thread has its
first round. -/
theorem updates_exclude_two_callers : ∃ tr s, (machine 2).Runs Permitted tr s ∧
    tr = [.called 0,.called 1,.decided 1 true,.entered (.manual 1),.left (.manual 1) fetched true,.returned 1 true,
      .decided 0 true,.entered (.manual 0),.left (.manual 0) fetched true,.returned 0 true,.entered .background] ∧
    Each Excludes tr ∧ ∀ w w', Inside s w → Inside s w' → w = w' := by
  obtain ⟨c,hc,htr⟩ : ∃ c, (machine 2).replay permits
      ([.call 0,.call 1,.decide 1,.enter 1,.leave 1 fetched,.decide 0,.enter 0,.leave 0 fetched] ++ round)
      ([],⟨.new "u",true,⟨.absent,false⟩,List.replicate 2 .idle⟩) = some c ∧
      c.1 = [.called 0,.called 1,.decided 1 true,.entered (.manual 1),.left (.manual 1) fetched true,.returned 1 true,
        .decided 0 true,.entered (.manual 0),.left (.manual 0) fetched true,.returned 0 true,.entered .background] :=
    ⟨_,rfl,rfl⟩
  have hr := Machine.replay_runs permitted_of_permits (runs_new 2 true) hc
  exact ⟨_,_,hr,htr,updates_exclude hr⟩

/-- A caller enters beside the thread, and another one is turned away when nobody is there. -/
theorem updates_overlap : (∃ tr s, (machine 1).Runs Machine.Any tr s ∧
      tr = [.entered .background,.called 0,.decided 0 true,.entered (.manual 0)] ∧
      Inside s .background ∧ Inside s (.manual 0) ∧ ¬ Each Excludes tr) ∧
    ∃ tr s, (machine 1).Runs Machine.Any tr s ∧ tr = [.called 0,.decided 0 false,.returned 0 false] ∧ ¬ Each Excludes tr := by
  constructor
  · obtain ⟨c,hc,htr,hb,hm⟩ : ∃ c, (machine 1).replay (fun _ _ _ => true) (round ++ [.call 0,.decide 0,.enter 0])
        ([],⟨.new "u",false,⟨.absent,false⟩,List.replicate 1 .idle⟩) = some c ∧
        c.1 = [.entered .background,.called 0,.decided 0 true,.entered (.manual 0)] ∧
        c.2.thread.phase = .working 2 ∧ c.2.manuals[0]? = some .inside := ⟨_,rfl,rfl,rfl,rfl⟩
    have hr := Machine.replay_runs (P := Machine.Any) (fun _ _ _ _ => trivial) (runs_new 1 false) hc
    refine ⟨_,_,hr,htr,hb,hm,fun h => ?_⟩
    have hentered := h [.entered .background,.called 0,.decided 0 true] (.entered (.manual 0)) [] htr
    simp [Excludes,progress,track] at hentered
  · obtain ⟨c,hc,htr⟩ : ∃ c, (machine 1).replay (fun _ _ _ => true) [.call 0,.decide 0]
        ([],⟨.new "u",false,⟨.absent,false⟩,List.replicate 1 .idle⟩) = some c ∧
        c.1 = [.called 0,.decided 0 false,.returned 0 false] := ⟨_,rfl,rfl⟩
    have hr := Machine.replay_runs (P := Machine.Any) (fun _ _ _ _ => trivial) (runs_new 1 false) hc
    refine ⟨_,_,hr,htr,fun h => ?_⟩
    have hdecided := h [.called 0] (.decided 0 false) [.returned 0 false] htr
    simp [Excludes,progress,track] at hdecided

end Examples
end Kbms.HandsOn
