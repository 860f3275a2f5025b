import Mathlib.Data.List.Basic
import Mathlib.Order.Lattice

/-! # Maps as sorted lists

A finite map keeps its entries in the strict order of their keys. Of the two ways to put
an entry into it, one keeps the value that is there and the other one replaces it.
-/
namespace Foundation

structure SortedMap (α β : Type*) [LinearOrder α] where
  entries : List (α × β)
  sorted : entries.Pairwise (fun e f => e.1 < f.1)

namespace SortedMap
variable {α β : Type*} [LinearOrder α]

/-- The entries with one for `k`, where `f` is applied to a value that is there. -/
def put (f : β → β) (k : α) (v : β) : List (α × β) → List (α × β)
  | [] => [(k,v)]
  | (k',v') :: rest =>
    if k < k' then (k,v) :: (k',v') :: rest
    else if k = k' then (k',f v') :: rest
    else (k',v') :: put f k v rest

theorem mem_put {f : β → β} {k : α} {v : β} {es : List (α × β)} {e : α × β} (h : e ∈ put f k v es) :
    e.1 = k ∨ ∃ e' ∈ es, e'.1 = e.1 := by
  induction es with
  | nil => exact .inl (List.mem_singleton.mp h ▸ rfl)
  | cons d rest ih =>
    obtain ⟨k',v'⟩ := d
    rw [put] at h
    split at h
    · rcases List.mem_cons.mp h with rfl | h
      · exact .inl rfl
      · exact .inr ⟨e,h,rfl⟩
    · split at h
      · rcases List.mem_cons.mp h with rfl | h
        · exact .inr ⟨_,List.mem_cons_self,rfl⟩
        · exact .inr ⟨e,List.mem_cons_of_mem _ h,rfl⟩
      · rcases List.mem_cons.mp h with rfl | h
        · exact .inr ⟨_,List.mem_cons_self,rfl⟩
        · rcases ih h with hk | ⟨e',he',hk⟩
          · exact .inl hk
          · exact .inr ⟨e',List.mem_cons_of_mem _ he',hk⟩

theorem sorted_put (f : β → β) (k : α) (v : β) {es : List (α × β)}
    (h : es.Pairwise (fun e f => e.1 < f.1)) : (put f k v es).Pairwise (fun e f => e.1 < f.1) := by
  induction es with
  | nil => exact List.pairwise_singleton _ _
  | cons d rest ih =>
    obtain ⟨k',v'⟩ := d
    obtain ⟨hhead,hrest⟩ := List.pairwise_cons.mp h
    rw [put]
    split
    · rename_i hlt
      refine List.pairwise_cons.mpr ⟨fun e he => ?_,h⟩
      rcases List.mem_cons.mp he with rfl | he
      · exact hlt
      · exact lt_trans hlt (hhead e he)
    · rename_i hnlt
      split
      · exact List.pairwise_cons.mpr ⟨hhead,hrest⟩
      · rename_i hne
        refine List.pairwise_cons.mpr ⟨fun e he => ?_,ih hrest⟩
        rcases mem_put he with hk | ⟨e',he',hk⟩
        · exact hk ▸ lt_of_le_of_ne (not_lt.mp hnlt) (Ne.symm hne)
        · exact hk ▸ hhead e' he'

theorem lookup_cons (k j : α) (v : β) (es : List (α × β)) :
    ((k,v) :: es).lookup j = if j = k then some v else es.lookup j := by
  by_cases h : j = k
  · simp [h]
  · rw [List.lookup_cons, beq_false_of_ne h, if_neg h]

theorem lookup_eq_none {es : List (α × β)} {k : α} (h : ∀ e ∈ es, k < e.1) : es.lookup k = none := by
  rw [List.lookup_eq_none_iff]
  intro e he
  exact bne_iff_ne.mpr (ne_of_lt (h e he))

theorem lookup_put (f : β → β) (k : α) (v : β) {es : List (α × β)}
    (h : es.Pairwise (fun e f => e.1 < f.1)) (j : α) :
    (put f k v es).lookup j = if j = k then some (((es.lookup k).map f).getD v) else es.lookup j := by
  induction es with
  | nil => exact lookup_cons k j v []
  | cons d rest ih =>
    obtain ⟨k',v'⟩ := d
    obtain ⟨hhead,hrest⟩ := List.pairwise_cons.mp h
    rw [put]
    split
    · rename_i hlt
      have hnone : ((k',v') :: rest).lookup k = none := by
        refine lookup_eq_none (fun e he => ?_)
        rcases List.mem_cons.mp he with rfl | he
        · exact hlt
        · exact lt_trans hlt (hhead e he)
      rw [hnone, lookup_cons]
      rfl
    · split
      · rename_i hk
        subst hk
        rw [lookup_cons, lookup_cons, lookup_cons, if_pos rfl]
        by_cases hj : j = k <;> simp [hj]
      · rename_i hne
        rw [lookup_cons, lookup_cons, lookup_cons, if_neg hne, ih hrest]
        by_cases hj : j = k'
        · rw [if_pos hj, if_pos hj, if_neg (hj ▸ Ne.symm hne)]
        · rw [if_neg hj, if_neg hj]

def empty : SortedMap α β := ⟨[],.nil⟩

def find (m : SortedMap α β) (k : α) : Option β := m.entries.lookup k

/-- Puts an entry unless there is one. -/
def insert (m : SortedMap α β) (k : α) (v : β) : SortedMap α β :=
  ⟨put id k v m.entries,sorted_put id k v m.sorted⟩

/-- Puts an entry in any case. -/
def set (m : SortedMap α β) (k : α) (v : β) : SortedMap α β :=
  ⟨put (fun _ => v) k v m.entries,sorted_put _ k v m.sorted⟩

def insertAll (m : SortedMap α β) (es : List (α × β)) : SortedMap α β :=
  es.foldl (fun m e => m.insert e.1 e.2) m

@[simp] theorem find_empty (k : α) : (empty : SortedMap α β).find k = none := rfl

theorem find_insert (m : SortedMap α β) (k : α) (v : β) (j : α) :
    (m.insert k v).find j = if j = k then some ((m.find k).getD v) else m.find j := by
  have h := lookup_put id k v m.sorted j
  rwa [Option.map_id] at h

theorem find_set (m : SortedMap α β) (k : α) (v : β) (j : α) :
    (m.set k v).find j = if j = k then some v else m.find j := by
  have h := lookup_put (fun _ => v) k v m.sorted j
  rw [set, find, h, find]
  split
  · cases m.entries.lookup k <;> rfl
  · rfl

/-- The first value that was inserted stays. -/
theorem find_insertAll (m : SortedMap α β) (es : List (α × β)) (k : α) :
    (m.insertAll es).find k = (m.find k).or (es.lookup k) := by
  induction es generalizing m with
  | nil => exact Option.or_none.symm
  | cons e es ih =>
    have hstep : m.insertAll (e :: es) = (m.insert e.1 e.2).insertAll es := rfl
    rw [hstep, ih, find_insert, lookup_cons]
    by_cases hk : k = e.1
    · subst hk
      cases m.find e.1 <;> simp
    · rw [if_neg hk, if_neg hk]

theorem lookup_of_mem {es : List (α × β)} (h : es.Pairwise (fun e f => e.1 < f.1)) {e : α × β} (he : e ∈ es) :
    es.lookup e.1 = some e.2 := by
  induction es with
  | nil => cases he
  | cons d es ih =>
    obtain ⟨hhead,hrest⟩ := List.pairwise_cons.mp h
    rw [lookup_cons]
    rcases List.mem_cons.mp he with rfl | he
    · rw [if_pos rfl]
    · rw [if_neg (ne_of_gt (hhead e he)), ih hrest he]

theorem find_of_mem {m : SortedMap α β} {e : α × β} (he : e ∈ m.entries) : m.find e.1 = some e.2 :=
  lookup_of_mem m.sorted he

theorem mem_of_find {m : SortedMap α β} {k : α} {v : β} (h : m.find k = some v) : (k,v) ∈ m.entries := by
  obtain ⟨pre,post,heq,-⟩ := List.lookup_eq_some_iff.mp h
  rw [heq]
  simp

theorem entries_eq {es fs : List (α × β)} (hes : es.Pairwise (fun e f => e.1 < f.1))
    (hfs : fs.Pairwise (fun e f => e.1 < f.1)) (h : ∀ k, es.lookup k = fs.lookup k) : es = fs := by
  induction es generalizing fs with
  | nil =>
    cases fs with
    | nil => rfl
    | cons f fs =>
      have hf := h f.1
      rw [lookup_of_mem hfs List.mem_cons_self] at hf
      cases hf
  | cons e es ih =>
    obtain ⟨hhead,hrest⟩ := List.pairwise_cons.mp hes
    have he := h e.1
    rw [lookup_of_mem hes List.mem_cons_self] at he
    cases fs with
    | nil => cases he
    | cons f fs =>
      obtain ⟨hhead',hrest'⟩ := List.pairwise_cons.mp hfs
      -- The smaller of two different heads would be missing from the other list.
      have hkey : e.1 = f.1 := by
        rcases lt_trichotomy e.1 f.1 with hlt | heq | hlt
        · have hnone : (f :: fs).lookup e.1 = none := by
            refine lookup_eq_none (fun d hd => ?_)
            rcases List.mem_cons.mp hd with rfl | hd
            · exact hlt
            · exact lt_trans hlt (hhead' d hd)
          rw [hnone] at he
          cases he
        · exact heq
        · have hnone : (e :: es).lookup f.1 = none := by
            refine lookup_eq_none (fun d hd => ?_)
            rcases List.mem_cons.mp hd with rfl | hd
            · exact hlt
            · exact lt_trans hlt (hhead d hd)
          rw [h, lookup_of_mem hfs List.mem_cons_self] at hnone
          cases hnone
      have hvalue : e.2 = f.2 := by
        rw [hkey, lookup_of_mem hfs List.mem_cons_self] at he
        exact Option.some.inj he
      have hhd : e = f := Prod.ext hkey hvalue
      subst hhd
      refine congrArg (e :: ·) (ih hrest hrest' (fun k => ?_))
      have hk := h k
      rw [lookup_cons, lookup_cons] at hk
      by_cases hke : k = e.1
      · rw [hke, lookup_eq_none hhead, lookup_eq_none hhead']
      · rwa [if_neg hke, if_neg hke] at hk

/-- A map is determined by what is found in it. -/
theorem ext_find {m n : SortedMap α β} (h : ∀ k, m.find k = n.find k) : m = n := by
  have hentries := entries_eq m.sorted n.sorted h
  cases m
  cases n
  cases hentries
  rfl

def setAll (m : SortedMap α β) (es : List (α × β)) : SortedMap α β := es.foldl (fun m e => m.set e.1 e.2) m

/-- Entries that agree with a function `g` make the map equal to `g` at their keys, in any
order and however often they come. -/
theorem find_setAll {g : α → Option β} (m : SortedMap α β) {es : List (α × β)} (h : ∀ e ∈ es, g e.1 = some e.2)
    (k : α) : (m.setAll es).find k = if k ∈ es.map Prod.fst then g k else m.find k := by
  induction es generalizing m with
  | nil => rfl
  | cons e es ih =>
    have hstep : m.setAll (e :: es) = (m.set e.1 e.2).setAll es := rfl
    rw [hstep, ih _ (fun d hd => h d (List.mem_cons_of_mem e hd)), find_set]
    by_cases hmem : k ∈ es.map Prod.fst
    · rw [if_pos hmem, if_pos (by simp [hmem])]
    · rw [if_neg hmem]
      by_cases hk : k = e.1
      · rw [if_pos hk, if_pos (by simp [hk]), hk, h e List.mem_cons_self]
      · rw [if_neg hk, if_neg (by simp [hk,hmem])]

end SortedMap
end Foundation
