import Kbms.Foundation.Machine
import Kbms.Ams.Refresh

/-! # Readers beside the refresher

`AcqInstance` loads the index, looks the name up and copies the list in separate steps,
and the refresher clears, fills and publishes maps meanwhile. A reader that has loaded an
index is safe as long as the map is not cleared, and nothing in the code prevents that:
the second refresh after the load clears it.
-/
namespace Kbms
open Foundation

/-- Where the refreshing thread stands: between two refreshes; after the clearing of map
`num`; before the application at the head of `idxs`; and after a signed overflow or the
use of an index outside `server_vec_`. -/
inductive Refresher
  | idle
  | cleared (num : ℤ) (body : String)
  | filling (num : ℤ) (applications : JsonDoc) (idxs : List ℕ)
  | undefined

/-- The map that the refresher is clearing or filling. -/
def Refresher.num : Refresher → Option ℤ
  | .cleared num _ | .filling num _ _ => some num
  | _ => none

/-- Where a thread stands in `AcqInstance`: outside; before the load; with the index; with
an iterator into a map; with an iterator whose entry was erased; and after the use of
such an iterator or of an index outside `server_vec_`. -/
inductive Reader
  | idle
  | called (name : String)
  | loaded (name : String) (num : ℤ)
  | found (name : String) (num : ℤ)
  | dangling (name : String) (num : ℤ)
  | undefined
  deriving DecidableEq, Repr

/-- The index that a reader has loaded and not yet finished with. -/
def Reader.index : Reader → Option ℤ
  | .loaded _ num | .found _ num | .dangling _ num => some num
  | _ => none

/-- `read i num busy`: reader `i` looks into map `num`, and `busy` tells whether the
refresher is clearing or filling it. -/
inductive TableEvent
  | called (i : ℕ) (name : String)
  | read (i : ℕ) (num : ℤ) (busy : Bool)
  | answered (i : ℕ) (name : String) (result : Option String)
  | published (map : ServerMap)
  | refreshed (ok : Bool)

structure Sharing where
  tables : Tables
  refresher : Refresher
  readers : ℕ → Reader

namespace Sharing

def new : Sharing := ⟨.new,.idle,fun _ => .idle⟩

def setReader (s : Sharing) (i : ℕ) (r : Reader) : Sharing :=
  { s with readers := Function.update s.readers i r }

/-- `clear()` erases the entries that iterators into the map point at. -/
def invalidate (num : ℤ) : Reader → Reader
  | .found name n => if n = num then .dangling name n else .found name n
  | r => r

/-- `ReqSerList` gets its response and `ParserData` clears the other map. -/
def begin (s : Sharing) (response : Response) : Option (Sharing × List TableEvent) :=
  match s.refresher with
  | .idle =>
    if response.code ≠ scSuccess then some (s,[.refreshed false])
    else match s.tables.inactive with
      | some num =>
        if num > 1 then some (s,[.refreshed false])
        else if Tables.valid num then
          some (⟨s.tables.setMap num .empty,.cleared num response.body,
            fun i => invalidate num (s.readers i)⟩,[])
        else some ({ s with refresher := .undefined },[])
      | none => some ({ s with refresher := .undefined },[])
  | _ => none

/-- The next step of `ParserData`: the parsing, one application, or the publication. -/
def advance (lib : JsonLib) (s : Sharing) : Option (Sharing × List TableEvent) :=
  match s.refresher with
  | .idle | .undefined => none
  | .cleared num body =>
    match (strToJson lib body).bind applicationJson with
    | some applications =>
      some ({ s with refresher := .filling num applications (List.range applications.size) },[])
    | none => some ({ s with refresher := .idle },[.refreshed false])
  | .filling num applications (idx :: rest) =>
    match readApplication applications idx with
    | some entry =>
      some ({ s with
        tables := s.tables.setMap num (insertApplication (s.tables.serverVec num) entry)
        refresher := .filling num applications rest },[])
    | none => some ({ s with refresher := .idle },[.refreshed false])
  | .filling num _ [] =>
    some ({ s with tables := s.tables.publish, refresher := .idle },
      [.published (s.tables.serverVec num),.refreshed true])

def call (s : Sharing) (i : ℕ) (name : String) : Option (Sharing × List TableEvent) :=
  match s.readers i with
  | .idle => some (s.setReader i (.called name),[.called i name])
  | _ => none

/-- The load of `flag_num_`. -/
def load (s : Sharing) (i : ℕ) : Option (Sharing × List TableEvent) :=
  match s.readers i with
  | .called name => some (s.setReader i (.loaded name s.tables.active),[])
  | _ => none

def busy (s : Sharing) (num : ℤ) : Bool := s.refresher.num = some num

/-- `find`, and the return when the name is not there. -/
def find (s : Sharing) (i : ℕ) : Option (Sharing × List TableEvent) :=
  match s.readers i with
  | .loaded name num =>
    if Tables.valid num then
      match s.tables.serverVec num name with
      | some _ => some (s.setReader i (.found name num),[.read i num (s.busy num)])
      | none => some (s.setReader i .idle,[.read i num (s.busy num),.answered i name none])
    else some (s.setReader i .undefined,[])
  | _ => none

/-- The copy of the list and the choice of an instance, where `rand()` gives `r`. -/
def copy (s : Sharing) (i r : ℕ) : Option (Sharing × List TableEvent) :=
  match s.readers i with
  | .found name num =>
    match s.tables.serverVec num name with
    | some hostList =>
      some (s.setReader i .idle,[.read i num (s.busy num),
        .answered i name (if hostList.length < 1 then none else Tables.randSample hostList r)])
    | none => some (s.setReader i .undefined,[])
  | .dangling _ num => some (s.setReader i .undefined,[.read i num (s.busy num)])
  | _ => none

inductive Action
  | begin (response : Response)
  | advance
  | call (i : ℕ) (name : String)
  | load (i : ℕ)
  | find (i : ℕ)
  | copy (i r : ℕ)

def step (lib : JsonLib) (s : Sharing) : Action → Option (Sharing × List TableEvent)
  | .begin response => begin s response
  | .advance => advance lib s
  | .call i name => call s i name
  | .load i => load s i
  | .find i => find s i
  | .copy i r => copy s i r

/-- All runs of one refreshing thread and any number of readers. -/
def machine (lib : JsonLib) : Machine Sharing Action TableEvent where
  initial s := s = new
  step := step lib

section Windows

/-- The visible table, and the tables that were visible at some instant since reader `i`
called last. -/
def track (i : ℕ) (c : ServerMap × List ServerMap) : TableEvent → ServerMap × List ServerMap
  | .published map => (map,c.2 ++ [map])
  | .called j _ => if j = i then (c.1,[c.1]) else c
  | _ => c

def observe (i : ℕ) (tr : List TableEvent) : ServerMap × List ServerMap := tr.foldl (track i) (.empty,[])

def window (i : ℕ) (tr : List TableEvent) : List ServerMap := (observe i tr).2

theorem observe_append (i : ℕ) (tr es : List TableEvent) :
    observe i (tr ++ es) = es.foldl (track i) (observe i tr) := List.foldl_append

/-- A table accounts for an answer. -/
def Explains (map : ServerMap) (name : String) : Option String → Prop
  | none => map name = none
  | some url => ∃ hostList, map name = some hostList ∧ ∃ ss ∈ hostList, url = Args.getUrlOf ss.host ss.port

/-- Every answer is accounted for by a table that was visible between the call and the
return. -/
def Explained (tr : List TableEvent) : Prop :=
  ∀ tr₁ tr₂ i name result, tr = tr₁ ++ .answered i name result :: tr₂ →
    ∃ map ∈ window i tr₁, Explains map name result

theorem Explained.append {tr es : List TableEvent} (h : Explained tr)
    (hes : ∀ e ∈ es, ∀ i name result, e ≠ .answered i name result) : Explained (tr ++ es) := by
  intro tr₁ tr₂ i name result heq
  rcases occurrence_append heq with ⟨ys,hys⟩ | ⟨ys,_,hes'⟩
  · exact h tr₁ ys i name result hys
  · exact absurd rfl (hes (.answered i name result) (by rw [hes']; simp) i name result)

theorem Explained.answer {tr : List TableEvent} {i : ℕ} {name : String} {result : Option String}
    {map : ServerMap} (h : Explained tr) (hm : map ∈ window i tr) (he : Explains map name result) :
    Explained (tr ++ [.answered i name result]) := by
  intro tr₁ tr₂ j n res heq
  rcases occurrence_append heq with ⟨ys,hys⟩ | ⟨ys,hys,hes⟩
  · exact h tr₁ ys j n res hys
  · cases ys with
    | nil =>
      cases hes
      rw [List.append_nil] at hys
      exact ⟨map,hys ▸ hm,he⟩
    | cons e ys => simp at hes

end Windows

section Safety
variable {lib : JsonLib} {s t : Sharing} {tr es : List TableEvent} {i : ℕ} {num : ℤ} {map : ServerMap}

/-- A refresh clears a map only when no reader has loaded its index and not returned, and
while `flag_num_` can be incremented. -/
def Grace (_ : List TableEvent) (s : Sharing) : Action → Prop
  | .begin response => response.code = scSuccess → s.tables.flagNum + 1 < 2^31 ∧
      ∀ i num, (s.readers i).index = some num → s.tables.inactive ≠ some num
  | _ => True

/-- What a reader relies on: the map of its index was visible since its call, and the
entry that it has found is there. -/
def ReaderOk (tr : List TableEvent) (tables : Tables) (i : ℕ) : Reader → Prop
  | .idle => True
  | .called _ => tables.visible ∈ window i tr
  | .loaded _ num => Tables.valid num = true ∧ tables.serverVec num ∈ window i tr
  | .found name num => Tables.valid num = true ∧ tables.serverVec num ∈ window i tr ∧
      (tables.serverVec num name).isSome = true
  | .dangling _ _ => False
  | .undefined => False

/-- The invariant of runs with grace. The map under construction is the invisible one,
and no reader has its index. -/
structure Inv (tr : List TableEvent) (s : Sharing) : Prop where
  defined : s.refresher ≠ .undefined
  flag : 0 ≤ s.tables.flagNum
  visible : ∀ i, (observe i tr).1 = s.tables.visible
  filled : ∀ num name hostList, s.tables.serverVec num name = some hostList → hostList ≠ []
  apart : ∀ num, s.refresher.num = some num → num = (s.tables.flagNum + 1) % 2 ∧
    s.tables.flagNum + 1 < 2^31 ∧ ∀ i, (s.readers i).index ≠ some num
  readers : ∀ i, ReaderOk tr s.tables i (s.readers i)
  quiet : ∀ i num, .read i num true ∉ tr
  explained : Explained tr

theorem observe_refreshed (hes : ∀ e ∈ es, ∃ ok, e = .refreshed ok) (i : ℕ) (tr : List TableEvent) :
    observe i (tr ++ es) = observe i tr := by
  rw [observe_append]
  induction es generalizing tr with
  | nil => rfl
  | cons e es ih =>
    obtain ⟨ok,rfl⟩ := hes e List.mem_cons_self
    exact ih (fun d hd => hes d (List.mem_cons_of_mem _ hd)) tr

theorem ReaderOk.window_eq {tr' : List TableEvent} {r : Reader} {tables : Tables}
    (hw : window i tr' = window i tr) (h : ReaderOk tr tables i r) : ReaderOk tr' tables i r := by
  cases r with
  | idle => trivial
  | called name => exact (hw.symm ▸ h : tables.visible ∈ window i tr')
  | loaded name num => exact ⟨h.1,hw.symm ▸ h.2⟩
  | found name num => exact ⟨h.1,hw.symm ▸ h.2.1,h.2.2⟩
  | dangling name num | undefined => exact h

theorem Inv.tick (h : Inv tr s) (hes : ∀ e ∈ es, ∃ ok, e = .refreshed ok) : Inv (tr ++ es) s := by
  have hobserve := observe_refreshed hes
  refine ⟨h.defined,h.flag,?_,h.filled,h.apart,?_,?_,?_⟩
  · intro i
    rw [hobserve, h.visible]
  · intro i
    exact ReaderOk.window_eq (congrArg Prod.snd (hobserve i tr)) (h.readers i)
  · intro i n hm
    rcases List.mem_append.mp hm with hm | hm
    · exact h.quiet i n hm
    · obtain ⟨ok,he⟩ := hes _ hm
      cases he
  · refine h.explained.append (fun e he i name result heq => ?_)
    obtain ⟨ok,rfl⟩ := hes e he
    cases heq

/-- The refresher changes a map that is neither visible nor read by anyone. -/
theorem Inv.refill (h : Inv tr s) {r : Refresher} (hdef : r ≠ .undefined) (map : ServerMap)
    (hnum : num = (s.tables.flagNum + 1) % 2) (hlt : s.tables.flagNum + 1 < 2^31)
    (hidx : ∀ i, (s.readers i).index ≠ some num)
    (hmap : ∀ name hostList, map name = some hostList → hostList ≠ [])
    (hr : ∀ n, r.num = some n → n = num) : Inv tr ⟨s.tables.setMap num map,r,s.readers⟩ := by
  have hactive : num ≠ s.tables.active := by
    have := Tables.active_eq h.flag
    omega
  have hvisible := Tables.visible_setMap hactive map
  have hother : ∀ n, n ≠ num → (s.tables.setMap num map).serverVec n = s.tables.serverVec n :=
    fun n hn => Tables.serverVec_setMap_of_ne hn map
  refine ⟨hdef,h.flag,fun i => (h.visible i).trans hvisible.symm,?_,?_,?_,h.quiet,h.explained⟩
  · intro n name hostList he
    dsimp only at he
    by_cases hn : n = num
    · subst hn
      rw [Tables.serverVec_setMap] at he
      exact hmap name hostList he
    · rw [hother n hn] at he
      exact h.filled n name hostList he
  · intro n hn
    obtain rfl := hr n hn
    exact ⟨hnum,hlt,hidx⟩
  · intro i
    have hok := h.readers i
    have hne := hidx i
    cases hreader : s.readers i with
    | idle => trivial
    | called name =>
      rw [hreader] at hok
      exact (hvisible.symm ▸ hok : (s.tables.setMap num map).visible ∈ window i tr)
    | loaded name n =>
      rw [hreader] at hok hne
      have hn : n ≠ num := fun he => hne (he ▸ rfl)
      exact ⟨hok.1,(hother n hn).symm ▸ hok.2⟩
    | found name n =>
      rw [hreader] at hok hne
      have hn : n ≠ num := fun he => hne (he ▸ rfl)
      exact ⟨hok.1,(hother n hn).symm ▸ hok.2.1,(hother n hn).symm ▸ hok.2.2⟩
    | dangling name n | undefined =>
      rw [hreader] at hok
      exact hok

/-- The finished map becomes the visible one, and is added to all windows. -/
theorem Inv.publish (h : Inv tr s) (hnum : s.refresher.num = some num) :
    Inv (tr ++ [.published (s.tables.serverVec num),.refreshed true])
      ⟨s.tables.publish,.idle,s.readers⟩ := by
  obtain ⟨he,hlt,_⟩ := h.apart num hnum
  have hvisible : s.tables.publish.visible = s.tables.serverVec num := by
    have hpub := Tables.visible_publish_setMap h.flag hlt (s.tables.serverVec num)
    rwa [← he, Tables.setMap_self] at hpub
  have hobserve : ∀ i, observe i (tr ++ [.published (s.tables.serverVec num),.refreshed true]) =
      (s.tables.serverVec num,window i tr ++ [s.tables.serverVec num]) := by
    intro i
    rw [observe_append]
    rfl
  have hwindow : ∀ i m, m ∈ window i tr →
      m ∈ window i (tr ++ [.published (s.tables.serverVec num),.refreshed true]) := by
    intro i m hm
    rw [window, hobserve]
    exact List.mem_append_left _ hm
  refine ⟨by simp,?_,?_,h.filled,by simp [Refresher.num],?_,?_,?_⟩
  · dsimp only
    rw [Tables.publish_flagNum h.flag hlt]
    have := h.flag
    omega
  · intro i
    rw [hobserve, hvisible]
  · intro i
    have hok := h.readers i
    cases hreader : s.readers i with
    | idle => trivial
    | called name =>
      change s.tables.publish.visible ∈ _
      rw [hvisible, window, hobserve]
      simp
    | loaded name n =>
      rw [hreader] at hok
      exact ⟨hok.1,hwindow i _ hok.2⟩
    | found name n =>
      rw [hreader] at hok
      exact ⟨hok.1,hwindow i _ hok.2.1,hok.2.2⟩
    | dangling name n | undefined =>
      rw [hreader] at hok
      exact hok
  · intro i n hm
    rcases List.mem_append.mp hm with hm | hm
    · exact h.quiet i n hm
    · simp at hm
  · exact h.explained.append (by simp)

/-- The events that reader `i` may emit. -/
def Own (i : ℕ) : TableEvent → Prop
  | .called j _ => j = i
  | .read _ _ busy => busy = false
  | .answered _ _ _ => True
  | _ => False

theorem observe_own (hes : ∀ e ∈ es, Own i e) (j : ℕ) (tr : List TableEvent) :
    (observe j (tr ++ es)).1 = (observe j tr).1 ∧ (j ≠ i → window j (tr ++ es) = window j tr) := by
  unfold window
  rw [observe_append]
  induction es generalizing tr with
  | nil => exact ⟨rfl,fun _ => rfl⟩
  | cons e es ih =>
    have he := hes e List.mem_cons_self
    obtain ⟨hnow,hseen⟩ := ih (fun d hd => hes d (List.mem_cons_of_mem _ hd)) (tr ++ [e])
    rw [observe_append] at hnow hseen
    simp only [List.foldl_cons, List.foldl_nil] at hnow hseen ⊢
    cases e with
    | called k name =>
      obtain rfl : k = i := he
      refine ⟨hnow.trans ?_,fun hj => (hseen hj).trans ?_⟩
      · by_cases hk : k = j <;> simp [track,hk]
      · simp [track,Ne.symm hj]
    | published map | refreshed ok => cases he
    | _ => exact ⟨hnow,hseen⟩

/-- One reader moves, and everything else stays. -/
theorem Inv.reader {r : Reader} (h : Inv tr s) (hes : ∀ e ∈ es, Own i e)
    (hr : ReaderOk (tr ++ es) s.tables i r) (hidx : ∀ num, r.index = some num → s.refresher.num ≠ some num)
    (hexp : Explained (tr ++ es)) : Inv (tr ++ es) (s.setReader i r) := by
  have hobserve := fun j => observe_own hes j tr
  refine ⟨h.defined,h.flag,fun j => (hobserve j).1.trans (h.visible j),h.filled,?_,?_,?_,hexp⟩
  · intro num hnum
    obtain ⟨he,hlt,hall⟩ := h.apart num hnum
    refine ⟨he,hlt,fun j => ?_⟩
    by_cases hj : j = i
    · subst hj
      simp only [setReader, Function.update_self]
      exact fun hn => hidx num hn hnum
    · simp only [setReader, Function.update_of_ne hj]
      exact hall j
  · intro j
    by_cases hj : j = i
    · subst hj
      simpa [setReader] using hr
    · simp only [setReader, Function.update_of_ne hj]
      exact ReaderOk.window_eq ((hobserve j).2 hj) (h.readers j)
  · intro j num hm
    rcases List.mem_append.mp hm with hm | hm
    · exact h.quiet j num hm
    · cases hes _ hm

theorem Inv.not_busy (h : Inv tr s) (hi : (s.readers i).index = some num) : s.busy num = false := by
  refine decide_eq_false (fun hbusy => ?_)
  exact (h.apart num hbusy).2.2 i hi

theorem inv_call {name : String} (h : Inv tr s) (hs : call s i name = some (t,es)) : Inv (tr ++ es) t := by
  unfold call at hs
  split at hs
  · cases hs
    refine h.reader (by simp [Own]) ?_ (by simp [Reader.index]) (h.explained.append (by simp))
    have hvisible := h.visible i
    simp [ReaderOk,window,observe_append,track,hvisible]
  · cases hs

theorem inv_load (h : Inv tr s) (hs : load s i = some (t,es)) : Inv (tr ++ es) t := by
  unfold load at hs
  split at hs
  · rename_i name hreader
    cases hs
    have hok := h.readers i
    rw [hreader] at hok
    refine h.reader (by simp) ?_ ?_ (h.explained.append (by simp))
    · rw [List.append_nil]
      refine ⟨?_,hok⟩
      rw [Tables.active_eq h.flag]
      exact Tables.valid_mod _
    · rintro num ⟨⟩ hnum
      have hactive := Tables.active_eq h.flag
      have hnext := (h.apart _ hnum).1
      omega
  · cases hs

theorem inv_find (h : Inv tr s) (hs : find s i = some (t,es)) : Inv (tr ++ es) t := by
  unfold find at hs
  split at hs
  · rename_i name num hreader
    have hok := h.readers i
    have hbusy : s.busy num = false := h.not_busy (i := i) (by rw [hreader]; rfl)
    rw [hreader] at hok
    obtain ⟨hvalid,hwindow⟩ := hok
    rw [if_pos hvalid] at hs
    have hread : window i (tr ++ [.read i num false]) = window i tr := by
      rw [window, observe_append]
      rfl
    rw [hbusy] at hs
    cases hentry : s.tables.serverVec num name with
    | some hostList =>
      rw [hentry] at hs
      cases hs
      refine h.reader (by simp [Own]) ?_ ?_ (h.explained.append (by simp))
      · exact ⟨hvalid,hread ▸ hwindow,by rw [hentry]; rfl⟩
      · rintro n ⟨⟩ hn
        exact (h.apart num hn).2.2 i (by rw [hreader]; rfl)
    | none =>
      rw [hentry] at hs
      cases hs
      refine h.reader (by simp [Own]) trivial (by simp [Reader.index]) ?_
      have hold : Explained (tr ++ [.read i num false]) := h.explained.append (by simp)
      have hexp : Explained (tr ++ [.read i num false] ++ [.answered i name none]) :=
        hold.answer (hread ▸ hwindow) hentry
      simpa using hexp
  · cases hs

theorem explains_randSample {name : String} {hostList : List ServerStatus} (r : ℕ)
    (hm : map name = some hostList) (hne : hostList ≠ []) :
    Explains map name (if hostList.length < 1 then none else Tables.randSample hostList r) := by
  have hpos : 0 < hostList.length := List.length_pos_iff.mpr hne
  have hlt := Nat.mod_lt r hpos
  rw [if_neg (by omega), Tables.randSample, List.getElem?_eq_getElem hlt, Option.map_some]
  exact ⟨hostList,hm,_,List.getElem_mem hlt,rfl⟩

theorem inv_copy {r : ℕ} (h : Inv tr s) (hs : copy s i r = some (t,es)) : Inv (tr ++ es) t := by
  unfold copy at hs
  split at hs
  · rename_i name num hreader
    have hok := h.readers i
    have hbusy : s.busy num = false := h.not_busy (i := i) (by rw [hreader]; rfl)
    rw [hreader] at hok
    obtain ⟨hvalid,hwindow,hentry⟩ := hok
    obtain ⟨hostList,hlist⟩ := Option.isSome_iff_exists.mp hentry
    rw [hlist, hbusy] at hs
    cases hs
    have hread : window i (tr ++ [.read i num false]) = window i tr := by
      rw [window, observe_append]
      rfl
    refine h.reader (by simp [Own]) trivial (by simp [Reader.index]) ?_
    have hold : Explained (tr ++ [.read i num false]) := h.explained.append (by simp)
    have hexp := hold.answer (hread ▸ hwindow) (explains_randSample r hlist (h.filled num name _ hlist))
    simpa using hexp
  · rename_i name num hreader
    have hok := h.readers i
    rw [hreader] at hok
    exact hok.elim
  · cases hs

theorem filled_insertApplication {entry : String × List ServerStatus}
    (h : ∀ name hostList, map name = some hostList → hostList ≠ []) (name : String)
    (hostList : List ServerStatus) (he : insertApplication map entry name = some hostList) :
    hostList ≠ [] := by
  rw [insertApplication_apply] at he
  rcases Option.or_eq_some_iff.mp he with hm | ⟨_,ht⟩
  · exact h name hostList hm
  · obtain ⟨e,hf,rfl⟩ := Option.map_eq_some_iff.mp ht
    have hsel := List.find?_some hf
    simp only [Bool.and_eq_true, Bool.not_eq_eq_eq_not, Bool.not_true, List.isEmpty_eq_false_iff] at hsel
    exact hsel.2

theorem inv_begin {response : Response} (h : Inv tr s) (hgrace : Grace tr s (.begin response))
    (hs : begin s response = some (t,es)) : Inv (tr ++ es) t := by
  have hkeep : Inv (tr ++ [.refreshed false]) s := h.tick (by simp)
  unfold begin at hs
  split at hs
  · rename_i hidle
    split at hs
    · cases hs
      exact hkeep
    · rename_i hcode
      obtain ⟨hlt,hfree⟩ := hgrace (not_not.mp hcode)
      have hnum := Tables.inactive_eq h.flag hlt
      rw [hnum] at hs
      dsimp only at hs
      split at hs
      · cases hs
        exact hkeep
      · rw [if_pos (Tables.valid_mod _)] at hs
        cases hs
        have hidx : ∀ i, (s.readers i).index ≠ some ((s.tables.flagNum + 1) % 2) := by
          intro i hi
          exact hfree i _ hi hnum
        have hreaders : (fun i => invalidate ((s.tables.flagNum + 1) % 2) (s.readers i)) = s.readers := by
          funext i
          have hne := hidx i
          cases hreader : s.readers i with
          | found name n =>
            rw [hreader] at hne
            have hn : n ≠ (s.tables.flagNum + 1) % 2 := fun he => hne (he ▸ rfl)
            simp [invalidate,hn]
          | _ => rfl
        rw [hreaders, List.append_nil]
        refine h.refill (by simp) .empty rfl hlt hidx (by simp [ServerMap.empty]) ?_
        rintro n ⟨⟩
        rfl
  · cases hs

/-- The refresher goes on with the same map, or stops. -/
theorem Inv.proceed {r : Refresher} (h : Inv tr s) (hnum : s.refresher.num = some num)
    (hdef : r ≠ .undefined) (hr : ∀ n, r.num = some n → n = num)
    (hmap : ∀ name hostList, map name = some hostList → hostList ≠ []) :
    Inv tr ⟨s.tables.setMap num map,r,s.readers⟩ := by
  obtain ⟨he,hlt,hidx⟩ := h.apart num hnum
  exact h.refill hdef map he hlt hidx hmap hr

theorem Inv.stop (h : Inv tr s) (hnum : s.refresher.num = some num) :
    Inv (tr ++ [.refreshed false]) { s with refresher := .idle } := by
  have hidle : Inv tr ⟨s.tables.setMap num (s.tables.serverVec num),.idle,s.readers⟩ :=
    h.proceed hnum (by simp) (by simp [Refresher.num]) (h.filled num)
  rw [Tables.setMap_self] at hidle
  exact hidle.tick (by simp)

theorem inv_advance (h : Inv tr s) (hs : advance lib s = some (t,es)) : Inv (tr ++ es) t := by
  unfold advance at hs
  split at hs
  · cases hs
  · cases hs
  · rename_i num body hphase
    have hnum : s.refresher.num = some num := by rw [hphase]; rfl
    split at hs
    · rename_i applications _
      cases hs
      have hfill : Inv tr ⟨s.tables.setMap num (s.tables.serverVec num),
          .filling num applications (List.range applications.size),s.readers⟩ :=
        h.proceed hnum (by simp) (by simp [Refresher.num]) (h.filled num)
      rw [Tables.setMap_self] at hfill
      rw [List.append_nil]
      exact hfill
    · cases hs
      exact h.stop hnum
  · rename_i num applications idx rest hphase
    have hnum : s.refresher.num = some num := by rw [hphase]; rfl
    split at hs
    · rename_i entry _
      cases hs
      rw [List.append_nil]
      exact h.proceed hnum (by simp) (by simp [Refresher.num]) (filled_insertApplication (h.filled num))
    · cases hs
      exact h.stop hnum
  · rename_i num _ hphase
    cases hs
    exact h.publish (by rw [hphase]; rfl)

theorem inv_of_runs (hr : (machine lib).Runs Grace tr s) : Inv tr s := by
  refine hr.invariant (I := fun tr s => Inv tr s) ?_ ?_
  · rintro _ rfl
    refine ⟨by simp [new],by decide,fun _ => rfl,by simp [new,Tables.new,ServerMap.empty],
      by simp [new,Refresher.num],fun _ => trivial,by simp,?_⟩
    intro tr₁ tr₂ i name result heq
    simp at heq
  · intro tr s a t es _ h hgrace hs
    cases a with
    | begin response => exact inv_begin h hgrace hs
    | advance => exact inv_advance h hs
    | call i name => exact inv_call h hs
    | load i => exact inv_load h hs
    | find i => exact inv_find h hs
    | copy i r => exact inv_copy h hs

/-- In every run in which no map is cleared under a reader that has its index: every
answer comes from a table that was visible between the call and the return; no reader
looks into a map that is being cleared or filled; and no thread comes to undefined
behaviour. -/
theorem answers_explained (hr : (machine lib).Runs Grace tr s) :
    Explained tr ∧ (∀ i num, .read i num true ∉ tr) ∧ s.refresher ≠ .undefined ∧
      ∀ i, s.readers i ≠ .undefined := by
  have h := inv_of_runs hr
  refine ⟨h.explained,h.quiet,h.defined,fun i hi => ?_⟩
  have hok := h.readers i
  rw [hi] at hok
  exact hok

/-- One refresh, and a reader that gets the address of it. -/
theorem answers_explained_one_reader : ∃ tr, ∃ s : Sharing, (machine Tables.listLib).Runs Grace tr s ∧
    .answered 0 "a" (some "http:://h:80") ∈ tr ∧ Explained tr ∧ (∀ i num, .read i num true ∉ tr) ∧
    s.refresher ≠ .undefined ∧ ∀ i, s.readers i ≠ .undefined := by
  have hstart : (machine Tables.listLib).Runs Grace [] new := .start rfl
  have hgrace : Grace [] new (.begin ⟨200,Tables.listText⟩) := by
    refine fun _ => ⟨by decide,fun i num hi => ?_⟩
    cases hi
  have hbegin : (machine Tables.listLib).step new (.begin ⟨200,Tables.listText⟩) =
      some (⟨new.tables.setMap 1 .empty,.cleared 1 Tables.listText,fun _ => .idle⟩,[]) := rfl
  have hrun : ∃ c, (machine Tables.listLib).replay
      (fun _ _ a => match a with | .begin _ => false | _ => true)
      [.advance,.advance,.advance,.call 0 "a",.load 0,.find 0,.copy 0 7]
      ([],⟨new.tables.setMap 1 .empty,.cleared 1 Tables.listText,fun _ => .idle⟩) = some c ∧
      c.1.getLast? = some (.answered 0 "a" (some "http:://h:80")) := ⟨_,rfl,rfl⟩
  obtain ⟨⟨tr,s⟩,hc,hlast⟩ := hrun
  have hr := Machine.replay_runs (P := Grace) (by
    intro tr s a ha
    cases a with
    | begin response => cases ha
    | advance | call i name | load i | find i | copy i r => trivial) (hstart.next hgrace hbegin) hc
  exact ⟨tr,s,hr,List.mem_of_getLast? hlast,answers_explained hr⟩

/-- A reader that has loaded the index before a publication is overtaken by the next two
refreshes: `a` has been there all the time, and the reader does not find it. -/
theorem stale_index_unexplained : ∃ tr, ∃ s : Sharing, (machine Tables.listLib).Runs Machine.Any tr s ∧
    ¬ Explained tr ∧ .read 0 0 true ∈ tr := by
  have hrun : ∃ c, (machine Tables.listLib).replay (fun _ _ _ => true)
      [.begin ⟨200,Tables.listText⟩,.advance,.advance,.advance,
        .begin ⟨200,Tables.listText⟩,.advance,.advance,.advance,.call 0 "a",.load 0,
        .begin ⟨200,Tables.listText⟩,.advance,.advance,.advance,
        .begin ⟨200,Tables.listText⟩,.find 0] ([],new) = some c ∧
      c.1 = c.1.dropLast ++ [.answered 0 "a" none] ∧ c.1[7]? = some (.read 0 0 true) ∧
      (window 0 c.1.dropLast).map (fun map => (map "a").isSome) = [true,true] := ⟨_,rfl,rfl,rfl,rfl⟩
  obtain ⟨⟨tr,s⟩,hc,hanswered,hread,hwindow⟩ := hrun
  have hr := Machine.replay_runs (P := Machine.Any) (fun _ _ _ _ => trivial) (.start rfl) hc
  refine ⟨tr,s,hr,fun h => ?_,List.mem_of_getElem? hread⟩
  obtain ⟨map,hm,hnone⟩ := h _ _ 0 "a" none hanswered
  have hsome : (map "a").isSome ∈ (window 0 tr.dropLast).map (fun map => (map "a").isSome) :=
    List.mem_map_of_mem hm
  dsimp only at hwindow
  rw [hwindow] at hsome
  have htrue : (map "a").isSome = true := by simpa using hsome
  rw [(hnone : map "a" = none)] at htrue
  cases htrue

/-- The condition cannot be relaxed: when a map is cleared under a reader that has its
index, the next step of that reader looks into the map being rebuilt. -/
theorem clear_under_reader {response : Response} (hcode : response.code = scSuccess)
    (hnum : s.tables.inactive = some num) (hvalid : Tables.valid num = true)
    (hi : (s.readers i).index = some num) (hs : begin s response = some (t,es)) :
    ∃ a u es', step lib t a = some (u,es') ∧ .read i num true ∈ es' := by
  have hle : ¬ num > 1 := by
    have hlt : 0 ≤ num ∧ num < maxNum := of_decide_eq_true hvalid
    unfold maxNum at hlt
    omega
  unfold begin at hs
  split at hs
  · rw [if_neg (not_not.mpr hcode), hnum] at hs
    dsimp only at hs
    rw [if_neg hle, if_pos hvalid] at hs
    cases hs
    cases hreader : s.readers i with
    | loaded name n =>
      rw [hreader] at hi
      cases hi
      refine ⟨.find i,?_⟩
      simp only [step, find, hreader, invalidate, hvalid, if_true, Tables.serverVec_setMap]
      exact ⟨_,_,rfl,by simp [busy,Refresher.num]⟩
    | found name n =>
      rw [hreader] at hi
      cases hi
      refine ⟨.copy i 0,?_⟩
      simp only [step, copy, hreader, invalidate, if_true]
      exact ⟨_,_,rfl,by simp [busy,Refresher.num]⟩
    | dangling name n =>
      rw [hreader] at hi
      cases hi
      refine ⟨.copy i 0,?_⟩
      simp only [step, copy, hreader, invalidate]
      exact ⟨_,_,rfl,by simp [busy,Refresher.num]⟩
    | idle | called name | undefined =>
      rw [hreader] at hi
      cases hi
  · cases hs

end Safety

section Alone
variable {lib : JsonLib} {s t : Sharing} {tr es : List TableEvent} {num : ℤ}

theorem runs_advance (hr : (machine lib).Runs Machine.Any tr s) (hs : advance lib s = some (t,es)) :
    (machine lib).Runs Machine.Any (tr ++ es) t := by
  have hstep : (machine lib).step s .advance = some (t,es) := hs
  exact hr.next trivial hstep

/-- The rest of the loop of `ParserData`, when no other thread takes a step. -/
theorem fill_alone {applications : JsonDoc} {idxs : List ℕ} (hr : (machine lib).Runs Machine.Any tr s)
    (hphase : s.refresher = .filling num applications idxs) :
    ∃ es u, (machine lib).Runs Machine.Any (tr ++ es) u ∧ u.refresher = .idle ∧
      .refreshed (insertApplications applications idxs (s.tables.serverVec num)).2 ∈ es ∧
      u.tables = if (insertApplications applications idxs (s.tables.serverVec num)).2 then
          (s.tables.setMap num (insertApplications applications idxs (s.tables.serverVec num)).1).publish
        else s.tables.setMap num (insertApplications applications idxs (s.tables.serverVec num)).1 := by
  induction idxs generalizing tr s with
  | nil =>
    have hs : advance lib s = some ({ s with tables := s.tables.publish, refresher := .idle },
        [.published (s.tables.serverVec num),.refreshed true]) := by
      rw [advance, hphase]
    exact ⟨_,_,runs_advance hr hs,rfl,by simp [insertApplications],by simp [insertApplications]⟩
  | cons idx rest ih =>
    cases hread : readApplication applications idx with
    | none =>
      have hs : advance lib s = some ({ s with refresher := .idle },[.refreshed false]) := by
        simp only [advance, hphase, hread]
      exact ⟨_,_,runs_advance hr hs,rfl,by simp [insertApplications,hread],
        by simp [insertApplications,hread]⟩
    | some entry =>
      have hs : advance lib s = some ({ s with
          tables := s.tables.setMap num (insertApplication (s.tables.serverVec num) entry)
          refresher := .filling num applications rest },[]) := by
        simp only [advance, hphase, hread]
      obtain ⟨es,u,hu,hidle,hev,htables⟩ := ih (runs_advance hr hs) rfl
      refine ⟨es,u,?_,hidle,?_,?_⟩
      · rwa [List.append_nil] at hu
      · simpa [insertApplications,hread] using hev
      · simpa [insertApplications,hread] using htables

theorem parse_alone {body : String} (hr : (machine lib).Runs Machine.Any tr s)
    (hphase : s.refresher = .cleared num body) (hempty : s.tables.serverVec num = .empty) :
    ∃ es u, (machine lib).Runs Machine.Any (tr ++ es) u ∧ u.refresher = .idle ∧
      u.tables = (Tables.parse lib s.tables num body).1 ∧
      .refreshed (Tables.parse lib s.tables num body).2 ∈ es := by
  cases hdata : (strToJson lib body).bind applicationJson with
  | none =>
    have hs : advance lib s = some ({ s with refresher := .idle },[.refreshed false]) := by
      simp only [advance, hphase, hdata]
    have hparse : Tables.parse lib s.tables num body = (s.tables,false) := by
      unfold Tables.parse
      cases hjson : strToJson lib body with
      | none => rfl
      | some dataJson =>
        rw [hjson, Option.bind_some] at hdata
        simp only [hdata]
    exact ⟨_,_,runs_advance hr hs,rfl,by rw [hparse],by simp [hparse]⟩
  | some applications =>
    have hs : advance lib s = some
        ({ s with refresher := .filling num applications (List.range applications.size) },[]) := by
      simp only [advance, hphase, hdata]
    have hfilling := runs_advance hr hs
    rw [List.append_nil] at hfilling
    obtain ⟨es,u,hu,hidle,hev,htables⟩ := fill_alone hfilling rfl
    dsimp only at hev htables
    rw [hempty] at hev htables
    have hparse : Tables.parse lib s.tables num body = (u.tables,
        (insertApplications applications (List.range applications.size) .empty).2) := by
      rw [htables]
      unfold Tables.parse
      obtain ⟨dataJson,hjson,happ⟩ := Option.bind_eq_some_iff.mp hdata
      rw [hjson]
      simp only [happ]
      cases hins : insertApplications applications (List.range applications.size) .empty with
      | mk map ok => cases ok <;> rfl
    exact ⟨es,u,hu,hidle,by rw [hparse],by rw [hparse]; exact hev⟩

/-- A refresh whose steps are taken without a break is `ReqSerList`. -/
theorem refresh_alone {response : Response} {tables : Tables} {ok : Bool}
    (hr : (machine lib).Runs Machine.Any tr s) (hidle : s.refresher = .idle)
    (h : s.tables.reqSerList lib response = some (tables,ok)) :
    ∃ es u, (machine lib).Runs Machine.Any (tr ++ es) u ∧ u.refresher = .idle ∧ u.tables = tables ∧
      .refreshed ok ∈ es := by
  have hbegin : ∀ {t es}, begin s response = some (t,es) →
      (machine lib).Runs Machine.Any (tr ++ es) t := by
    intro t es hs
    have hstep : (machine lib).step s (.begin response) = some (t,es) := hs
    exact hr.next trivial hstep
  unfold Tables.reqSerList at h
  split at h
  · rename_i hcode
    cases h
    have hs : begin s response = some (s,[.refreshed false]) := by
      simp only [begin, hidle, if_pos hcode]
    exact ⟨_,_,hbegin hs,hidle,rfl,by simp⟩
  · rename_i hcode
    unfold Tables.parserData at h
    cases hnum : s.tables.inactive with
    | none => rw [hnum] at h; cases h
    | some num =>
      rw [hnum, Option.bind_some] at h
      split at h
      · rename_i hgt
        cases h
        have hs : begin s response = some (s,[.refreshed false]) := by
          simp only [begin, hidle, if_neg hcode, hnum, if_pos hgt]
        exact ⟨_,_,hbegin hs,hidle,rfl,by simp⟩
      · rename_i hgt
        split at h
        · rename_i hvalid
          have hs : begin s response = some (⟨s.tables.setMap num .empty,.cleared num response.body,
              fun i => invalidate num (s.readers i)⟩,[]) := by
            simp only [begin, hidle, if_neg hcode, hnum, if_neg hgt, if_pos hvalid]
          have hcleared := hbegin hs
          rw [List.append_nil] at hcleared
          have hparse := Option.some.inj h
          obtain ⟨es,u,hu,hend,htables,hev⟩ := parse_alone hcleared rfl (Tables.serverVec_setMap _)
          rw [hparse] at htables hev
          exact ⟨es,u,hu,hend,htables,hev⟩
        · cases h

theorem load_alone {i : ℕ} (hr : (machine lib).Runs Machine.Any tr s) (hi : s.readers i = .idle)
    (name : String) : ∃ es u, (machine lib).Runs Machine.Any (tr ++ es) u ∧
      u.readers i = .loaded name s.tables.active ∧ u.tables = s.tables := by
  have hcall : (machine lib).step s (.call i name) = some (s.setReader i (.called name),[.called i name]) := by
    simp only [machine, step, call, hi]
  have hload : (machine lib).step (s.setReader i (.called name)) (.load i) =
      some ((s.setReader i (.called name)).setReader i (.loaded name s.tables.active),[]) := by
    simp [machine,step,load,setReader]
  have hloaded := (hr.next trivial hcall).next (P := Machine.Any) trivial hload
  rw [List.append_nil] at hloaded
  exact ⟨_,_,hloaded,by simp [setReader],rfl⟩

/-- The steps of a reader, taken without a break, are `AcqInstance`. -/
theorem acquire_alone {name : String} {i r : ℕ} {result : Option String}
    (hr : (machine lib).Runs Machine.Any tr s) (hi : s.readers i = .idle)
    (h : s.tables.acqInstance name r = some result) :
    ∃ es u, (machine lib).Runs Machine.Any (tr ++ es) u ∧ u.tables = s.tables ∧
      .answered i name result ∈ es := by
  obtain ⟨es,u,hu,hreader,htables⟩ := load_alone hr hi name
  unfold Tables.acqInstance at h
  split at h
  · rename_i hvalid
    cases hentry : s.tables.visible name with
    | none =>
      rw [hentry] at h
      cases h
      have hread : u.tables.serverVec s.tables.active name = none := htables ▸ hentry
      have hfind : (machine lib).step u (.find i) = some (u.setReader i .idle,
          [.read i s.tables.active (u.busy s.tables.active),.answered i name none]) := by
        simp only [machine, step, find, hreader, if_pos hvalid, hread]
      have hdone := hu.next trivial hfind
      rw [List.append_assoc] at hdone
      exact ⟨_,_,hdone,htables,by simp⟩
    | some hostList =>
      rw [hentry] at h
      have hread : u.tables.serverVec s.tables.active name = some hostList := htables ▸ hentry
      have hfind : (machine lib).step u (.find i) = some (u.setReader i (.found name s.tables.active),
          [.read i s.tables.active (u.busy s.tables.active)]) := by
        simp only [machine, step, find, hreader, if_pos hvalid, hread]
      have hcopy : (machine lib).step (u.setReader i (.found name s.tables.active)) (.copy i r) =
          some ((u.setReader i (.found name s.tables.active)).setReader i .idle,
            [.read i s.tables.active (u.busy s.tables.active),.answered i name result]) := by
        have hresult : (if hostList.length < 1 then none else Tables.randSample hostList r) = result := by
          dsimp only at h
          split at h
          · rename_i hshort
            rw [if_pos hshort]
            exact Option.some.inj h
          · rename_i hshort
            rw [if_neg hshort]
            exact Option.some.inj h
        subst hresult
        simp [machine,step,copy,setReader,hread,busy]
      have hdone := (hu.next trivial hfind).next (P := Machine.Any) trivial hcopy
      rw [List.append_assoc, List.append_assoc] at hdone
      exact ⟨_,_,hdone,htables,by simp⟩
  · cases h

end Alone

end Sharing
end Kbms
