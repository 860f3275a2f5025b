import Mathlib.Data.List.Induction
import Kbms.Ams.Interact

/-! # What a sequence of refreshes shows

The abstract table of a document is built from all of its applications or not at all.
The code inserts them one by one and may stop in the middle, but always into the map
that is not visible and that it has cleared before, so only complete tables are seen.
-/
namespace Kbms
variable {lib : JsonLib} {t t' : Tables} {num : ℤ}

/-- All applications of a response, when it is accepted. -/
def decode (lib : JsonLib) (r : Response) : Option (List (String × List ServerStatus)) :=
  if r.code ≠ scSuccess then none
  else (strToJson lib r.body).bind (fun dataJson => (applicationJson dataJson).bind (fun applications =>
    (List.range applications.size).mapM (readApplication applications)))

/-- The servers of a service are those of the first application of its name that has
any. -/
def table (entries : List (String × List ServerStatus)) : ServerMap :=
  fun name => (entries.find? (fun e => e.1 = name && !e.2.isEmpty)).map Prod.snd

/-- The table of the last accepted response. -/
def lastTable (lib : JsonLib) (rs : List Response) : ServerMap :=
  ((rs.filterMap (decode lib)).getLast?.map table).getD .empty

theorem insertApplication_apply (map : ServerMap) (e : String × List ServerStatus) (name : String) :
    insertApplication map e name = (map name).or (table [e] name) := by
  unfold insertApplication table
  by_cases he : e.2.isEmpty = true
  · simp [he]
  · rw [if_neg he, ServerMap.insert]
    by_cases hn : e.1 = name
    · subst hn
      cases hm : map e.1 <;> simp [hm,he]
    · split
      · cases map name <;> simp [hn]
      · rw [Function.update_of_ne (Ne.symm hn)]
        cases map name <;> simp [hn]

theorem table_cons (e : String × List ServerStatus) (entries : List (String × List ServerStatus))
    (name : String) : table (e :: entries) name = (table [e] name).or (table entries name) := by
  unfold table
  rw [List.find?_cons, List.find?_cons]
  cases (decide (e.1 = name) && !e.2.isEmpty) <;> rfl

/-- The outer loop ends normally exactly when all applications can be read, and then it
has added their table to the map. -/
theorem insertApplications_spec (applications : JsonDoc) (idxs : List ℕ) (map : ServerMap) :
    (insertApplications applications idxs map).2 = (idxs.mapM (readApplication applications)).isSome ∧
    ∀ entries, idxs.mapM (readApplication applications) = some entries →
      ∀ name, (insertApplications applications idxs map).1 name = (map name).or (table entries name) := by
  induction idxs generalizing map with
  | nil =>
    refine ⟨rfl,fun entries he name => ?_⟩
    cases he
    exact (Option.or_none).symm
  | cons idx rest ih =>
    cases hread : readApplication applications idx with
    | none => simp [insertApplications,hread]
    | some e =>
      obtain ⟨hok,hmap⟩ := ih (insertApplication map e)
      simp only [insertApplications, hread, List.mapM_cons]
      refine ⟨?_,fun entries he name => ?_⟩
      · rw [hok]
        cases rest.mapM (readApplication applications) <;> rfl
      · cases hrest : rest.mapM (readApplication applications) with
        | none => simp [hrest] at he
        | some es =>
          simp only [hrest] at he
          cases he
          rw [hmap es hrest name, insertApplication_apply, Option.or_assoc, ← table_cons]

namespace Tables

theorem active_eq (h : 0 ≤ t.flagNum) : t.active = t.flagNum % 2 :=
  Int.tmod_eq_emod_of_nonneg h

theorem inactive_eq (h : 0 ≤ t.flagNum) (hlt : t.flagNum + 1 < 2^31) :
    t.inactive = some ((t.flagNum + 1) % 2) := by
  rw [inactive, if_pos hlt, maxNum, Int.tmod_eq_emod_of_nonneg (by omega)]

theorem valid_mod (n : ℤ) : valid (n % 2) = true := by
  have h : 0 ≤ n % 2 ∧ n % 2 < maxNum := by
    unfold maxNum
    omega
  exact decide_eq_true h

theorem publish_flagNum (h : 0 ≤ t.flagNum) (hlt : t.flagNum + 1 < 2^31) :
    t.publish.flagNum = t.flagNum + 1 := by
  rw [publish]
  dsimp only
  rw [Int.bmod_def]
  omega

@[simp] theorem setMap_flagNum (map : ServerMap) : (t.setMap num map).flagNum = t.flagNum := rfl

@[simp] theorem setMap_setMap (map map' : ServerMap) :
    (t.setMap num map).setMap num map' = t.setMap num map' := by simp [setMap]

@[simp] theorem serverVec_setMap (map : ServerMap) : (t.setMap num map).serverVec num = map := by
  simp [setMap]

theorem serverVec_setMap_of_ne {n : ℤ} (h : n ≠ num) (map : ServerMap) :
    (t.setMap num map).serverVec n = t.serverVec n := by simp [setMap,h]

@[simp] theorem setMap_self : t.setMap num (t.serverVec num) = t := by simp [setMap]

/-- A change of the other map is invisible until it is published. -/
theorem visible_setMap (h : num ≠ t.active) (map : ServerMap) : (t.setMap num map).visible = t.visible :=
  serverVec_setMap_of_ne (Ne.symm h) map

theorem visible_publish_setMap (h : 0 ≤ t.flagNum) (hlt : t.flagNum + 1 < 2^31) (map : ServerMap) :
    (t.setMap ((t.flagNum + 1) % 2) map).publish.visible = map := by
  have hflag : (t.setMap ((t.flagNum + 1) % 2) map).publish.flagNum = t.flagNum + 1 :=
    publish_flagNum h hlt
  have hactive : (t.setMap ((t.flagNum + 1) % 2) map).publish.active = (t.flagNum + 1) % 2 := by
    rw [active_eq (by omega), hflag]
  rw [visible, hactive]
  exact serverVec_setMap map

/-- One refresh: it succeeds exactly when the response is accepted, and then shows the
table of the response and otherwise what was visible before. -/
theorem reqSerList_spec (lib : JsonLib) (r : Response) (h : 0 ≤ t.flagNum) (hlt : t.flagNum + 1 < 2^31) :
    ∃ t', t.reqSerList lib r = some (t',(decode lib r).isSome) ∧
      t'.visible = ((decode lib r).map table).getD t.visible ∧
      t'.flagNum = t.flagNum + ((decode lib r).toList.length : ℤ) := by
  unfold reqSerList decode
  split
  · exact ⟨t,rfl,rfl,by simp⟩
  · have hne : (t.flagNum + 1) % 2 ≠ t.active := by
      have hactive := active_eq h
      omega
    have hle : ¬ (t.flagNum + 1) % 2 > 1 := by omega
    rw [parserData, inactive_eq h hlt, Option.bind_some, if_neg hle, if_pos (valid_mod _), parse]
    have hcleared := visible_setMap hne .empty
    cases strToJson lib r.body with
    | none => exact ⟨_,rfl,hcleared,by simp [setMap]⟩
    | some dataJson =>
      dsimp only [Option.bind_some]
      cases applicationJson dataJson with
      | none => exact ⟨_,rfl,hcleared,by simp [setMap]⟩
      | some applications =>
        dsimp only [Option.bind_some]
        obtain ⟨hok,hmap⟩ := insertApplications_spec applications (List.range applications.size) .empty
        cases hins : insertApplications applications (List.range applications.size) .empty with
        | mk map ok =>
          rw [hins] at hok hmap
          cases hdec : (List.range applications.size).mapM (readApplication applications) with
          | none =>
            rw [hdec] at hok
            cases hok
            exact ⟨_,rfl,by rw [setMap_setMap, visible_setMap hne]; rfl,by simp⟩
          | some entries =>
            rw [hdec] at hok
            cases hok
            have hmap : map = table entries := by
              funext name
              exact hmap entries hdec name
            refine ⟨_,rfl,?_,?_⟩
            · rw [setMap_setMap, visible_publish_setMap h hlt, hmap]
              rfl
            · rw [setMap_setMap, publish_flagNum (t := t.setMap ((t.flagNum + 1) % 2) map) h hlt]
              rfl

theorem inactive_none (hlt : ¬ t.flagNum + 1 < 2^31) : t.inactive = none := if_neg hlt

/-- The signed overflow of the flag. -/
theorem reqSerList_none {r : Response} (hcode : r.code = scSuccess) (hlt : ¬ t.flagNum + 1 < 2^31) :
    t.reqSerList lib r = none := by
  rw [reqSerList, if_neg (not_not.mpr hcode), parserData, inactive_none hlt]
  rfl

theorem reqSerList_nonneg {r : Response} {b : Bool} (h : 0 ≤ t.flagNum)
    (hs : t.reqSerList lib r = some (t',b)) : 0 ≤ t'.flagNum := by
  by_cases hlt : t.flagNum + 1 < 2^31
  · obtain ⟨u,hu,_,hflag⟩ := t.reqSerList_spec lib r h hlt
    rw [hu] at hs
    cases hs
    omega
  · by_cases hcode : r.code = scSuccess
    · rw [reqSerList_none hcode hlt] at hs
      cases hs
    · rw [reqSerList, if_pos hcode] at hs
      cases hs
      exact h

/-- Refreshes one after another. -/
def refreshes (lib : JsonLib) (t : Tables) : List Response → Option Tables
  | [] => some t
  | r :: rs => (t.reqSerList lib r).bind (fun p => refreshes lib p.1 rs)

theorem refreshes_append (rs qs : List Response) :
    t.refreshes lib (rs ++ qs) = (t.refreshes lib rs).bind (fun t' => t'.refreshes lib qs) := by
  induction rs generalizing t with
  | nil => rfl
  | cons r rs ih =>
    rw [List.cons_append, refreshes, refreshes, Option.bind_assoc]
    congr 1
    funext p
    exact ih

theorem refreshes_nonneg {rs : List Response} (h : 0 ≤ t.flagNum) (hs : t.refreshes lib rs = some t') :
    0 ≤ t'.flagNum := by
  induction rs generalizing t with
  | nil =>
    cases hs
    exact h
  | cons r rs ih =>
    obtain ⟨p,hp,hrest⟩ := Option.bind_eq_some_iff.mp hs
    exact ih (reqSerList_nonneg h hp) hrest

/-- After any responses the flag counts the accepted ones and the visible table is that
of the last of them. -/
theorem refreshes_spec (lib : JsonLib) (rs : List Response) (h : (rs.filterMap (decode lib)).length < 2^31 - 1) :
    ∃ t, new.refreshes lib rs = some t ∧ t.flagNum = (rs.filterMap (decode lib)).length ∧
      t.visible = lastTable lib rs := by
  induction rs using List.reverseRecOn with
  | nil => exact ⟨new,rfl,rfl,rfl⟩
  | append_singleton rs r ih =>
    rw [List.filterMap_append, List.length_append] at h
    obtain ⟨t,ht,hflag,hvis⟩ := ih (by omega)
    obtain ⟨t',ht',hvis',hflag'⟩ := t.reqSerList_spec lib r (by omega) (by omega)
    have hone : [r].filterMap (decode lib) = (decode lib r).toList := by
      cases hd : decode lib r <;> simp [hd]
    refine ⟨t',?_,?_,?_⟩
    · rw [refreshes_append, ht, Option.bind_some, refreshes, ht']
      rfl
    · rw [hflag', hflag, List.filterMap_append, List.length_append, hone]
      simp
    · rw [hvis', hvis, lastTable, lastTable, List.filterMap_append, hone]
      cases decode lib r with
      | none => simp
      | some entries => simp

/-- For every sequence of responses with fewer than 2^31 - 1 accepted ones, and one more
response: the refresh succeeds exactly when the response is accepted; before and after
it the visible table is the complete table of the last accepted response, or the empty
one; and a rejected response leaves it as it was. -/
theorem failed_refresh_invisible (lib : JsonLib) (rs : List Response) (r : Response)
    (h : ((rs ++ [r]).filterMap (decode lib)).length < 2^31 - 1) :
    ∃ t t', new.refreshes lib rs = some t ∧ t.reqSerList lib r = some (t',(decode lib r).isSome) ∧
      t.visible = lastTable lib rs ∧ t'.visible = lastTable lib (rs ++ [r]) ∧
      (decode lib r = none → t'.visible = t.visible) := by
  obtain ⟨t',ht',_,hvis'⟩ := refreshes_spec lib (rs ++ [r]) h
  rw [List.filterMap_append, List.length_append] at h
  obtain ⟨t,ht,hflag,hvis⟩ := refreshes_spec lib rs (by omega)
  obtain ⟨u,hu,huvis,_⟩ := t.reqSerList_spec lib r (by omega) (by omega)
  have hut : u = t' := by
    rw [refreshes_append, ht, Option.bind_some, refreshes, hu] at ht'
    exact Option.some.inj ht'
  subst hut
  refine ⟨t,u,ht,hu,hvis,hvis',fun hnone => ?_⟩
  rw [huvis, hnone]
  rfl

def listText : String :=
  "\x7b\"application\":\x7b\"application\":[\x7b\"instance\":[\x7b\"ipAddr\":\"h\",\"port\":\x7b\"$\":80\x7d,\"status\":\"UP\"\x7d],\"name\":\"a\"\x7d]\x7d\x7d"

def brokenText : String :=
  "\x7b\"application\":\x7b\"application\":[\x7b\"instance\":[\x7b\"ipAddr\":\"h\",\"port\":\x7b\"$\":81\x7d,\"status\":\"UP\"\x7d],\"name\":\"a\"\x7d,7]\x7d\x7d"

def listEntry (port : ℤ) : JsonDoc :=
  .object [("instance",.array [.object [("ipAddr",.string "h"),("port",.object [("$",.int port)]),
    ("status",.string "UP")]]),("name",.string "a")]

def listLib : JsonLib where
  parse s :=
    if s = listText then some (.object [("application",.object [("application",.array [listEntry 80])])])
    else if s = brokenText then
      some (.object [("application",.object [("application",.array [listEntry 81,.int 7])])])
    else none
  write _ := ""

/-- A document that breaks after its first application changes nothing that is seen. -/
theorem failed_refresh_invisible_broken : ∃ t t', new.refreshes listLib [⟨200,listText⟩] = some t ∧
    t.reqSerList listLib ⟨200,brokenText⟩ = some (t',false) ∧ t'.visible = t.visible ∧
    t'.visible "a" = some [⟨"h","80","UP"⟩] := by
  have hbroken : decode listLib ⟨200,brokenText⟩ = none := rfl
  have htable : lastTable listLib [⟨200,listText⟩,⟨200,brokenText⟩] "a" = some [⟨"h","80","UP"⟩] := rfl
  obtain ⟨t,t',ht,ht',_,hvis,hsame⟩ :=
    failed_refresh_invisible listLib [⟨200,listText⟩] ⟨200,brokenText⟩ (by decide)
  rw [hbroken] at ht'
  exact ⟨t,t',ht,ht',hsame hbroken,hvis ▸ htable⟩

end Tables
end Kbms
