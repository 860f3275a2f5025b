import Mathlib.Data.List.TakeDrop
import Kbms.Foundation.Trim
import Kbms.Utils.Callbacks

/-! # The header lines of a request and of a response

`ExecuteRequest` formats a header as `key:value`, and `HeaderCallback` splits a line at its
first colon and trims both parts. A line without a colon is recorded as present, unless it is
blank.
-/
namespace Kbms
open Foundation Trim

/-- A line of the header list that `ExecuteRequest` builds. -/
def formatHeader (key value : String) : String := key ++ ":" ++ value

/-- `HeaderCallback` with its buffer: the headers after it and what it returns. -/
def headerFunction (data : String) (size nmemb : ℕ) (headers : HeaderFields) : HeaderFields × ℕ :=
  (Transfer.headerCallback headers (String.ofList (data.toList.take (sizeMul size nmemb))),sizeMul size nmemb)

/-- The lines of a header block: the line of a field with `pad` after the colon, a line of
whitespace, and a line without a colon. -/
inductive HeaderLine
  | field (key value : String) (pad : List Char)
  | blank (cs : List Char)
  | status (cs : List Char)

namespace HeaderLine

def text : HeaderLine → String
  | .field key value pad => formatHeader key (String.ofList pad ++ value) ++ "\r\n"
  | .blank cs | .status cs => String.ofList cs

/-- What the line puts into the headers. -/
def entry : HeaderLine → Option (String × String)
  | .field key value _ => some (key,value)
  | .blank _ => none
  | .status cs => some (Transfer.trim cs,"present")

def fieldOf : HeaderLine → Option (String × String)
  | .field key value _ => some (key,value)
  | _ => none

def statusOf : HeaderLine → Option (String × String)
  | .status cs => some (Transfer.trim cs,"present")
  | _ => none

end HeaderLine

/-- Keys without a colon, and neither keys nor values with whitespace at their ends. -/
structure Plain (m : HeaderFields) : Prop where
  key : ∀ e ∈ m.entries, Edged Transfer.isSpace e.1.toList
  colon : ∀ e ∈ m.entries, ':' ∉ e.1.toList
  value : ∀ e ∈ m.entries, Edged Transfer.isSpace e.2.toList

/-- A line that may come with the lines of the fields of `m`. -/
def HeaderLine.Valid (m : HeaderFields) : HeaderLine → Prop
  | .field key value pad => (key,value) ∈ m.entries ∧ ∀ c ∈ pad, c = ' ' ∨ c = '\t'
  | .blank cs => ∀ c ∈ cs, Transfer.isSpace c = true
  | .status cs => ':' ∉ cs ∧ Transfer.trim cs ≠ "" ∧ m.find (Transfer.trim cs) = none

/-- A line in the buffer in which curl hands it over. -/
structure Delivered extends Buffer where
  line : HeaderLine
  full : line.text.toList.length = size * nmemb

def receive (headers : HeaderFields) (ds : List Delivered) : HeaderFields :=
  ds.foldl (fun headers d => (headerFunction d.line.text d.size d.nmemb headers).1) headers

section Lines
variable {m headers : HeaderFields} {l : HeaderLine} {d : Delivered} {ds : List Delivered}

/-- `trim` of the source: from the end first. -/
theorem trim_eq (cs : List Char) : Transfer.trim cs = String.ofList (ltrim Transfer.isSpace (rtrim Transfer.isSpace cs)) := by
  rw [← trim_comm]
  rfl

theorem trim_padded_text (pre post : List Char) {v : List Char} (hv : Edged Transfer.isSpace v)
    (hpre : ∀ c ∈ pre, Transfer.isSpace c = true) (hpost : ∀ c ∈ post, Transfer.isSpace c = true) :
    Transfer.trim (pre ++ v ++ post) = String.ofList v :=
  congrArg String.ofList (trim_padded pre post hv hpre hpost)

theorem headerCallback_colon {key value : List Char} (hkey : ':' ∉ key) :
    Transfer.headerCallback headers (String.ofList (key ++ ':' :: value)) =
      headers.set (Transfer.trim key) (Transfer.trim value) := by
  have hspan : (key ++ ':' :: value).span (fun c => c ≠ ':') = (key,':' :: value) := by
    have hall : ∀ c ∈ key, decide (c ≠ ':') = true := fun c hc => decide_eq_true (fun h => hkey (h ▸ hc))
    rw [List.span_eq_takeWhile_dropWhile, List.takeWhile_append_of_pos hall, List.dropWhile_append_of_pos hall]
    simp
  rw [Transfer.headerCallback, String.toList_ofList, hspan]

theorem headerCallback_plain {cs : List Char} (hcs : ':' ∉ cs) :
    Transfer.headerCallback headers (String.ofList cs) =
      if (Transfer.trim cs).length = 0 then headers else headers.set (Transfer.trim cs) "present" := by
  have hspan : cs.span (fun c => c ≠ ':') = (cs,[]) := by
    have hall : ∀ c ∈ cs, decide (c ≠ ':') = true := fun c hc => decide_eq_true (fun h => hcs (h ▸ hc))
    rw [List.span_eq_takeWhile_dropWhile, List.takeWhile_eq_self_iff.mpr hall, List.dropWhile_eq_nil_iff.mpr hall]
  rw [Transfer.headerCallback, String.toList_ofList, hspan]

theorem isSpace_of_pad {pad : List Char} (h : ∀ c ∈ pad, c = ' ' ∨ c = '\t') : ∀ c ∈ pad, Transfer.isSpace c = true := by
  intro c hc
  rcases h c hc with rfl | rfl <;> rfl

/-- Each line puts its entry into the headers. -/
theorem headerCallback_line (hm : Plain m) (hl : l.Valid m) :
    Transfer.headerCallback headers l.text = (l.entry.map (fun e => headers.set e.1 e.2)).getD headers := by
  cases l with
  | field key value pad =>
    obtain ⟨hmem,hpad⟩ := hl
    have htext : (HeaderLine.field key value pad).text =
        String.ofList (key.toList ++ ':' :: (pad ++ value.toList ++ ['\r','\n'])) := by
      apply String.toList_inj.mp
      simp [HeaderLine.text,formatHeader]
    have hkey : Transfer.trim key.toList = key := by
      have h := trim_padded_text [] [] (hm.key _ hmem) (by simp) (by simp)
      simpa using h
    have hvalue : Transfer.trim (pad ++ value.toList ++ ['\r','\n']) = value := by
      have h := trim_padded_text pad ['\r','\n'] (hm.value _ hmem) (isSpace_of_pad hpad) (by simp [Transfer.isSpace])
      simpa using h
    rw [htext, headerCallback_colon (hm.colon _ hmem), hkey, hvalue]
    rfl
  | blank cs =>
    have hcolon : ':' ∉ cs := fun h => absurd (hl _ h) (by decide)
    have hnil : Transfer.trim cs = "" := by
      rw [trim_eq, rtrim_eq_nil hl]
      rfl
    rw [HeaderLine.text, headerCallback_plain hcolon, hnil]
    rfl
  | status cs =>
    obtain ⟨hcolon,hne,-⟩ := hl
    rw [HeaderLine.text, headerCallback_plain hcolon, if_neg]
    · rfl
    · intro hlen
      exact hne (String.length_eq_zero_iff.mp hlen)

theorem headerFunction_delivered (d : Delivered) (headers : HeaderFields) :
    headerFunction d.line.text d.size d.nmemb headers = (Transfer.headerCallback headers d.line.text,d.size * d.nmemb) := by
  have hsize : sizeMul d.size d.nmemb = d.size * d.nmemb := Nat.mod_eq_of_lt d.fits
  rw [headerFunction, hsize, ← d.full, List.take_length, String.ofList_toList]

theorem receive_eq (hm : Plain m) (hds : ∀ d ∈ ds, d.line.Valid m) (headers : HeaderFields) :
    receive headers ds = headers.setAll (ds.filterMap (fun d => d.line.entry)) := by
  induction ds generalizing headers with
  | nil => rfl
  | cons d ds ih =>
    have hstep : receive headers (d :: ds) = receive (Transfer.headerCallback headers d.line.text) ds := by
      rw [receive, List.foldl_cons, headerFunction_delivered]
      rfl
    rw [hstep, headerCallback_line hm (hds d List.mem_cons_self), ih (fun e he => hds e (List.mem_cons_of_mem d he)),
      List.filterMap_cons]
    cases d.line.entry <;> rfl

def entries (ds : List Delivered) : List (String × String) := ds.filterMap (fun d => d.line.entry)
def fields (ds : List Delivered) : List (String × String) := ds.filterMap (fun d => d.line.fieldOf)
def statuses (ds : List Delivered) : List (String × String) := ds.filterMap (fun d => d.line.statusOf)

theorem mem_entries_iff {e : String × String} : e ∈ entries ds ↔ e ∈ fields ds ∨ e ∈ statuses ds := by
  simp only [entries, fields, statuses, List.mem_filterMap, ← exists_or, ← and_or_left]
  refine exists_congr (fun d => and_congr_right (fun _ => ?_))
  cases d.line <;> simp [HeaderLine.entry,HeaderLine.fieldOf,HeaderLine.statusOf]

theorem statuses_value {e : String × String} (he : e ∈ statuses ds) : e.2 = "present" := by
  obtain ⟨d,-,hd⟩ := List.mem_filterMap.mp he
  cases hl : d.line with
  | field _ _ _ | blank _ =>
    rw [hl] at hd
    cases hd
  | status cs =>
    rw [hl] at hd
    cases hd
    rfl

theorem statuses_new {e : String × String} (hds : ∀ d ∈ ds, d.line.Valid m) (he : e ∈ statuses ds) :
    m.find e.1 = none := by
  obtain ⟨d,hmem,hd⟩ := List.mem_filterMap.mp he
  have hvalid := hds d hmem
  cases hl : d.line with
  | field _ _ _ | blank _ =>
    rw [hl] at hd
    cases hd
  | status cs =>
    rw [hl] at hd hvalid
    cases hd
    exact hvalid.2.2

theorem find_statuses (m : HeaderFields) (ds : List Delivered) (k : String) :
    (m.setAll (statuses ds)).find k = if k ∈ (statuses ds).map Prod.fst then some "present" else m.find k :=
  m.find_setAll (g := fun _ => some "present") (fun _ he => congrArg some (statuses_value he).symm) k

/-- The lines of the fields of `m`, in any order and with any padding, blank lines and status
lines among them, rebuild `m` with the status lines as present. -/
theorem headers_rebuilt (hm : Plain m) (hds : ∀ d ∈ ds, d.line.Valid m) (hperm : (fields ds).Perm m.entries) :
    receive .empty ds = m.setAll (statuses ds) ∧
    (statuses ds = [] → receive .empty ds = m) ∧
    ∀ d ∈ ds, ∀ headers, (headerFunction d.line.text d.size d.nmemb headers).2 = d.size * d.nmemb := by
  have hagree : ∀ e ∈ entries ds, (m.setAll (statuses ds)).find e.1 = some e.2 := by
    intro e he
    rw [find_statuses]
    rcases mem_entries_iff.mp he with hf | hs
    · have hfind := SortedMap.find_of_mem (hperm.mem_iff.mp hf)
      rw [if_neg, hfind]
      intro hmem
      obtain ⟨e',he',hkey⟩ := List.mem_map.mp hmem
      have hnone := statuses_new hds he'
      rw [hkey, hfind] at hnone
      cases hnone
    · rw [if_pos (List.mem_map_of_mem hs), statuses_value hs]
  have hreceive : receive .empty ds = m.setAll (statuses ds) := by
    apply SortedMap.ext_find
    intro k
    rw [receive_eq hm hds, ← entries, SortedMap.find_setAll _ hagree, SortedMap.find_empty]
    split
    · rfl
    · rename_i hk
      rw [find_statuses, if_neg]
      · cases hfind : m.find k with
        | none => rfl
        | some v =>
          have hf := hperm.mem_iff.mpr (SortedMap.mem_of_find hfind)
          exact absurd (List.mem_map_of_mem (mem_entries_iff.mpr (.inl hf))) hk
      · intro hmem
        obtain ⟨e,he,rfl⟩ := List.mem_map.mp hmem
        exact hk (List.mem_map_of_mem (mem_entries_iff.mpr (.inr he)))
  refine ⟨hreceive,fun hnil => ?_,fun d _ headers => ?_⟩
  · rw [hreceive, hnil]
    rfl
  · rw [headerFunction_delivered]

end Lines

def twoFields : HeaderFields := ⟨[("a",""),("b","x:y")],by decide⟩

theorem plain_twoFields : Plain twoFields where
  key := by simp [twoFields,edged_iff,Transfer.isSpace]
  colon := by simp [twoFields]
  value := by simp [twoFields,edged_iff,Transfer.isSpace]

def twoFieldLines : List Delivered :=
  [⟨⟨1,4,by decide⟩,.status ['O','K','\r','\n'],rfl⟩,⟨⟨2,4,by decide⟩,.field "b" "x:y" [' '],rfl⟩,
    ⟨⟨1,2,by decide⟩,.blank ['\r','\n'],rfl⟩,⟨⟨1,4,by decide⟩,.field "a" "" [],rfl⟩]

/-- Two fields in the other order, one of them empty and one with a colon in its value. -/
theorem headers_rebuilt_two_fields : receive .empty twoFieldLines = twoFields.setAll [("OK","present")] := by
  have htrim : Transfer.trim ['O','K','\r','\n'] = "OK" := rfl
  have hnew : twoFields.find "OK" = none := rfl
  have hvalid : ∀ d ∈ twoFieldLines, d.line.Valid twoFields := by
    simp only [twoFieldLines, List.forall_mem_cons, HeaderLine.Valid, htrim, hnew]
    simp [twoFields,Transfer.isSpace]
  have hperm : (fields twoFieldLines).Perm twoFields.entries := List.Perm.swap ..
  exact (headers_rebuilt plain_twoFields hvalid hperm).1

end Kbms
