import Kbms.Ams.Refresh

/-! # The heartbeat loop and the exceptions that can end it

`ParserData` catches what the accessors throw, but it parses the text before its try
block, and nothing between there and the start function of the thread catches either.
-/
namespace Kbms

/-- How a call ends. -/
inductive Completion
  | returned (ok : Bool)
  | threw
  deriving DecidableEq

/-- The reader of the library with its exceptions. Where it returns, `none` is false. -/
structure CharReader where
  parse : String → Except String (Option JsonDoc)

/-- The thread of `Interact`; an exception that leaves its start function ends the
process. -/
inductive Updater
  | updating (tables : Tables)
  | terminated

namespace CharReader
variable {reader : CharReader} {t t' : Tables} {r : Response}

def strToJson (reader : CharReader) (str : String) : Except String (Option JsonDoc) :=
  if str.isEmpty then .ok none else reader.parse str

/-- The reader that returns false where this one throws. -/
def lib (reader : CharReader) : JsonLib where
  parse s :=
    match reader.parse s with
    | .ok d => d
    | .error _ => none
  write _ := ""

/-- `ParserData` after it has cleared map `num`. -/
def parseCleared (reader : CharReader) (cleared : Tables) (num : ℤ) (data : String) : Tables × Completion :=
  match reader.strToJson data with
  | .error _ => (cleared,.threw)
  | .ok _ =>
    -- from here on the accessors are inside the try block
    match Tables.parse reader.lib cleared num data with
    | (t,ok) => (t,.returned ok)

def parserData (reader : CharReader) (t : Tables) (data : String) : Option (Tables × Completion) :=
  t.inactive.bind (fun num =>
    if num > 1 then some (t,.returned false)
    else if Tables.valid num then some (parseCleared reader (t.setMap num .empty) num data)
    else none)

def reqSerList (reader : CharReader) (t : Tables) (response : Response) : Option (Tables × Completion) :=
  if response.code ≠ scSuccess then some (t,.returned false) else reader.parserData t response.body

/-- A round of `DoUpdating` with the responses to its two requests. The first one, for
the heartbeat, is only logged. -/
def round (reader : CharReader) : Updater → Response × Response → Option Updater
  | .terminated, _ => some .terminated
  | .updating t, (_,response) =>
    (reader.reqSerList t response).map (fun p =>
      match p.2 with
      | .returned _ => .updating p.1
      | .threw => .terminated)

/-- `DoUpdating`, round after round. -/
def doUpdating (reader : CharReader) (u : Updater) (rounds : List (Response × Response)) : Option Updater :=
  rounds.foldlM reader.round u

def Returns (reader : CharReader) (text : String) : Prop :=
  text = "" ∨ ∃ d, reader.parse text = .ok d

/-- What a response has to be for `ReqSerList` to return. -/
def Harmless (reader : CharReader) (t : Tables) (r : Response) : Prop :=
  r.code = scSuccess → t.flagNum + 1 < 2^31 ∧ reader.Returns r.body

theorem returns_iff (text : String) : reader.Returns text ↔ ∃ d, reader.strToJson text = .ok d := by
  unfold Returns strToJson
  by_cases h : text = ""
  · simp [h]
  · simp [h]

/-- Where the reader returns, the refresh is that of the reader without exceptions. -/
theorem reqSerList_eq (h : r.code = scSuccess → reader.Returns r.body) :
    reader.reqSerList t r = (t.reqSerList reader.lib r).map (fun p => (p.1,.returned p.2)) := by
  unfold reqSerList Tables.reqSerList
  split
  · rfl
  · rename_i hcode
    obtain ⟨d,hd⟩ := (returns_iff _).mp (h (not_not.mp hcode))
    unfold parserData Tables.parserData
    cases t.inactive with
    | none => rfl
    | some num =>
      rw [Option.bind_some, Option.bind_some, parseCleared, hd]
      split
      · rfl
      · split <;> rfl

/-- On any other text the exception leaves `ReqSerList`. -/
theorem reqSerList_threw (h : 0 ≤ t.flagNum) (hlt : t.flagNum + 1 < 2^31) (hcode : r.code = scSuccess)
    (hthrow : ¬ reader.Returns r.body) : ∃ t', reader.reqSerList t r = some (t',.threw) := by
  have hle : ¬ (t.flagNum + 1) % 2 > 1 := by omega
  rw [reqSerList, if_neg (not_not.mpr hcode), parserData, Tables.inactive_eq h hlt, Option.bind_some,
    if_neg hle, if_pos (Tables.valid_mod _), parseCleared]
  cases hs : reader.strToJson r.body with
  | ok d => exact absurd ((returns_iff _).mpr ⟨d,hs⟩) hthrow
  | error e => exact ⟨_,rfl⟩

theorem reqSerList_none (hcode : r.code = scSuccess) (hlt : ¬ t.flagNum + 1 < 2^31) :
    reader.reqSerList t r = none := by
  rw [reqSerList, if_neg (not_not.mpr hcode), parserData, Tables.inactive_none hlt]
  rfl

/-- One refresh returns exactly on the harmless responses. -/
theorem reqSerList_returns_iff (h : 0 ≤ t.flagNum) :
    (∃ t' ok, reader.reqSerList t r = some (t',.returned ok)) ↔ reader.Harmless t r := by
  constructor
  · rintro ⟨t',ok,hs⟩ hcode
    by_cases hlt : t.flagNum + 1 < 2^31
    · refine ⟨hlt,?_⟩
      by_contra hthrow
      obtain ⟨u,hu⟩ := reqSerList_threw h hlt hcode hthrow
      rw [hu] at hs
      cases hs
    · rw [reqSerList_none hcode hlt] at hs
      cases hs
  · intro hr
    rw [reqSerList_eq (fun hcode => (hr hcode).2)]
    by_cases hcode : r.code = scSuccess
    · obtain ⟨t',ht',-⟩ := t.reqSerList_spec reader.lib r h (hr hcode).1
      rw [ht']
      exact ⟨t',_,rfl⟩
    · rw [Tables.reqSerList, if_pos hcode]
      exact ⟨t,false,rfl⟩

theorem reqSerList_returned {ok : Bool} (h : 0 ≤ t.flagNum)
    (hs : reader.reqSerList t r = some (t',.returned ok)) : t.reqSerList reader.lib r = some (t',ok) := by
  have hr : reader.Harmless t r := (reqSerList_returns_iff h).mp ⟨t',ok,hs⟩
  rw [reqSerList_eq (fun hcode => (hr hcode).2)] at hs
  obtain ⟨p,hp,he⟩ := Option.map_eq_some_iff.mp hs
  cases he
  exact hp

theorem doUpdating_append (u : Updater) (ps qs : List (Response × Response)) :
    reader.doUpdating u (ps ++ qs) = (reader.doUpdating u ps).bind (fun v => reader.doUpdating v qs) :=
  List.foldlM_append

theorem doUpdating_terminated (rounds : List (Response × Response)) :
    reader.doUpdating .terminated rounds = some .terminated := by
  induction rounds with
  | nil => rfl
  | cons p rounds ih => exact ih

theorem doUpdating_singleton (u : Updater) (p : Response × Response) :
    reader.doUpdating u [p] = reader.round u p := by
  rw [doUpdating, List.foldlM_cons]
  cases reader.round u p <;> rfl

/-- A round after which the thread goes on is a refresh that returned. -/
theorem round_updating {u : Updater} {p : Response × Response} :
    reader.round u p = some (.updating t') ↔
      ∃ t ok, u = .updating t ∧ reader.reqSerList t p.2 = some (t',.returned ok) := by
  cases u with
  | terminated => simp [round]
  | updating t =>
    rw [round]
    constructor
    · intro h
      obtain ⟨⟨t'',c⟩,hs,he⟩ := Option.map_eq_some_iff.mp h
      cases c with
      | returned ok =>
        cases he
        exact ⟨t,ok,rfl,hs⟩
      | threw => cases he
    · rintro ⟨t₀,ok,hu,hs⟩
      cases hu
      rw [hs]
      rfl

/-- While the thread goes on, its tables are those of the refreshes so far. -/
theorem doUpdating_refreshes {rounds : List (Response × Response)} (h : 0 ≤ t.flagNum)
    (hs : reader.doUpdating (.updating t) rounds = some (.updating t')) :
    t.refreshes reader.lib (rounds.map Prod.snd) = some t' := by
  induction rounds using List.reverseRecOn generalizing t' with
  | nil =>
    cases hs
    rfl
  | append_singleton ps p ih =>
    rw [doUpdating_append] at hs
    obtain ⟨u,hu,hs⟩ := Option.bind_eq_some_iff.mp hs
    rw [doUpdating_singleton] at hs
    obtain ⟨t₀,ok,rfl,hret⟩ := round_updating.mp hs
    have hpre := ih hu
    have hone := reqSerList_returned (Tables.refreshes_nonneg h hpre) hret
    rw [List.map_append, Tables.refreshes_append, hpre, Option.bind_some, List.map_singleton, Tables.refreshes,
      hone]
    rfl

/-- The thread goes on to its next heartbeat after all rounds exactly when each response
is harmless in the state in which it arrives: an accepted code comes with a text on which
the reader does not throw, while the flag can be increased. -/
theorem keeps_updating_iff (reader : CharReader) (rounds : List (Response × Response)) :
    (∃ t, reader.doUpdating (.updating .new) rounds = some (.updating t)) ↔
      ∀ pre p post, rounds = pre ++ p :: post →
        ∀ t, reader.doUpdating (.updating .new) pre = some (.updating t) → reader.Harmless t p.2 := by
  have hpos : ∀ {pre t}, reader.doUpdating (.updating .new) pre = some (.updating t) → 0 ≤ t.flagNum :=
    fun hs => Tables.refreshes_nonneg (Int.le_refl 0) (doUpdating_refreshes (Int.le_refl 0) hs)
  constructor
  · rintro ⟨t,ht⟩ pre p post rfl t₀ ht₀
    rw [doUpdating_append, ht₀, Option.bind_some, ← List.singleton_append, doUpdating_append] at ht
    obtain ⟨u,hu,ht⟩ := Option.bind_eq_some_iff.mp ht
    rw [doUpdating_singleton] at hu
    cases u with
    | terminated =>
      rw [doUpdating_terminated] at ht
      cases ht
    | updating t₁ =>
      obtain ⟨t₂,ok,hu₂,hret⟩ := round_updating.mp hu
      cases hu₂
      exact (reqSerList_returns_iff (hpos ht₀)).mp ⟨t₁,ok,hret⟩
  · intro h
    induction rounds using List.reverseRecOn with
    | nil => exact ⟨.new,rfl⟩
    | append_singleton ps p ih =>
      obtain ⟨t,ht⟩ := ih (fun pre q post he => h pre q (post ++ [p]) (by rw [he]; simp))
      obtain ⟨t',ok,hs⟩ := (reqSerList_returns_iff (hpos ht)).mpr (h ps p [] rfl t ht)
      refine ⟨t',?_⟩
      rw [doUpdating_append, ht, Option.bind_some, doUpdating_singleton]
      exact round_updating.mpr ⟨t,ok,rfl,hs⟩

/-- How many values are being read at once at most, in a text of arrays: the open arrays and, after
a bracket that is not closed at once, the first value in it. -/
def depth : List Char → ℕ → ℕ
  | [], _ => 0
  | c :: rest, open_ =>
    if c = '[' then max (if rest.head? = some ']' then open_ + 1 else open_ + 2) (depth rest (open_ + 1))
    else if c = ']' then depth rest (open_ - 1)
    else depth rest open_

/-- The default of the setting `stackLimit`. -/
def stackLimit : ℕ := 1000

/-- A reader that knows the limit, for arrays, and no document but the list. -/
def limitedReader : CharReader where
  parse s :=
    if stackLimit < depth s.toList 0 then .error "Exceeded stackLimit in readValue()."
    else .ok (Tables.listLib.parse s)

theorem lt_depth_replicate (n k : ℕ) : n + k + 1 ≤ depth (List.replicate (n + 1) '[') k := by
  induction n generalizing k with
  | zero =>
    rw [List.replicate_one, depth, if_pos rfl]
    exact Nat.le_trans (by split <;> omega) (Nat.le_max_left _ _)
  | succ n ih =>
    have h := ih (k + 1)
    rw [List.replicate_succ, depth, if_pos rfl]
    exact Nat.le_trans (by omega) (Nat.le_max_right _ _)

def deepText : String := String.ofList (List.replicate (stackLimit + 1) '[')

theorem deepText_throws : ¬ limitedReader.Returns deepText := by
  have hlist : deepText.toList = List.replicate (stackLimit + 1) '[' := String.toList_ofList
  rintro (h | ⟨d,h⟩)
  · rw [h] at hlist
    cases hlist
  · have hdepth := lt_depth_replicate stackLimit 0
    rw [limitedReader] at h
    dsimp only at h
    rw [hlist, if_pos (by omega)] at h
    cases h

/-- More open brackets than the limit allows end the process. -/
theorem deep_reply_terminates :
    limitedReader.doUpdating (.updating .new) [(⟨200,""⟩,⟨200,deepText⟩)] = some .terminated := by
  obtain ⟨t',ht'⟩ := reqSerList_threw (t := .new) (r := ⟨200,deepText⟩) (Int.le_refl 0) (by decide) rfl deepText_throws
  rw [doUpdating_singleton, round, ht']
  rfl

end CharReader
end Kbms
