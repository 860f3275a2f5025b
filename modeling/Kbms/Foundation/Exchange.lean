import Mathlib.Data.List.ReduceOption
import Kbms.Foundation.History
import Kbms.Foundation.Machine
import Kbms.Foundation.Roster

/-! # Tokens that are exchanged through a cell

A process makes a token, reads what is in a cell, stores its token there, and in the end drops
what it has read. If another process stores between the reading and the storing, then one token
is overwritten that nobody keeps, and another is kept by both. The ledger of a run says which
tokens are where, and it balances just when every storing overwrites what has been read.
-/
namespace Foundation.Exchange
open History
variable {τ : Type*}

/-- Where a process stands: without a token; with its own before the reading; with its own and
what it has read; and with what it has read. -/
inductive Hand (τ : Type*)
  | empty
  | offering (x : τ)
  | storing (x : τ) (seen : Option τ)
  | keeping (seen : Option τ)

/-- The token that has been made and not been stored. -/
def Hand.offer : Hand τ → Option τ
  | .offering x | .storing x _ => some x
  | _ => none

/-- The token that the process has to store or to drop. -/
def Hand.token : Hand τ → Option τ
  | .offering x | .storing x _ => some x
  | .keeping seen => seen
  | .empty => none

def Hand.isStoring : Hand τ → Bool
  | .storing _ _ => true
  | _ => false

structure State (τ : Type*) where
  made : List τ
  dropped : List τ
  cell : Option τ
  hands : List (Hand τ)

/-- One storing, with what it overwrites and what the process has read before. -/
structure Event (τ : Type*) where
  stored : τ
  prior : Option τ
  seen : Option τ

inductive Action (τ : Type*)
  | make (i : ℕ) (x : τ)
  | read (i : ℕ)
  | store (i : ℕ)
  | drop (i : ℕ)

variable [DecidableEq τ]

def step (s : State τ) : Action τ → Option (State τ × List (Event τ))
  | .make i x =>
    match s.hands[i]? with
    | some .empty =>
      if x ∈ s.made then none
      else some ({ s with made := s.made ++ [x], hands := s.hands.set i (.offering x) },[])
    | _ => none
  | .read i =>
    match s.hands[i]? with
    | some (.offering x) => some ({ s with hands := s.hands.set i (.storing x s.cell) },[])
    | _ => none
  | .store i =>
    match s.hands[i]? with
    | some (.storing x seen) =>
      some ({ s with cell := some x, hands := s.hands.set i (.keeping seen) },[⟨x,s.cell,seen⟩])
    | _ => none
  | .drop i =>
    match s.hands[i]? with
    | some (.keeping seen) =>
      some ({ s with dropped := s.dropped ++ seen.toList, hands := s.hands.set i .empty },[])
    | _ => none

/-- All runs of `n` processes from the empty cell. -/
def machine (τ : Type*) [DecidableEq τ] (n : ℕ) : Machine (State τ) (Action τ) (Event τ) where
  initial s := s = ⟨[],[],none,List.replicate n .empty⟩
  step := step

variable {n : ℕ} {s t : State τ} {a : Action τ} {tr es : List (Event τ)} {x : τ}
  {P : List (Event τ) → State τ → Action τ → Prop}

section Steps
variable {i : ℕ} {seen : Option τ}

theorem step_make (hi : s.hands[i]? = some .empty) (hx : x ∉ s.made) : step s (.make i x) =
    some ({ s with made := s.made ++ [x], hands := s.hands.set i (.offering x) },[]) := by
  simp only [step, hi, if_neg hx]

theorem step_read (hi : s.hands[i]? = some (.offering x)) : step s (.read i) =
    some ({ s with hands := s.hands.set i (.storing x s.cell) },[]) := by
  simp only [step, hi]

theorem step_store (hi : s.hands[i]? = some (.storing x seen)) : step s (.store i) =
    some ({ s with cell := some x, hands := s.hands.set i (.keeping seen) },[⟨x,s.cell,seen⟩]) := by
  simp only [step, hi]

theorem step_drop (hi : s.hands[i]? = some (.keeping seen)) : step s (.drop i) =
    some ({ s with dropped := s.dropped ++ seen.toList, hands := s.hands.set i .empty },[]) := by
  simp only [step, hi]

end Steps

theorem step_cases (h : step s a = some (t,es)) :
    (∃ i x, a = .make i x ∧ s.hands[i]? = some .empty ∧ x ∉ s.made ∧ es = [] ∧
      t = { s with made := s.made ++ [x], hands := s.hands.set i (.offering x) }) ∨
    (∃ i x, a = .read i ∧ s.hands[i]? = some (.offering x) ∧ es = [] ∧
      t = { s with hands := s.hands.set i (.storing x s.cell) }) ∨
    (∃ i x seen, a = .store i ∧ s.hands[i]? = some (.storing x seen) ∧ es = [⟨x,s.cell,seen⟩] ∧
      t = { s with cell := some x, hands := s.hands.set i (.keeping seen) }) ∨
    (∃ i seen, a = .drop i ∧ s.hands[i]? = some (.keeping seen) ∧ es = [] ∧
      t = { s with dropped := s.dropped ++ seen.toList, hands := s.hands.set i .empty }) := by
  cases a with
  | make i x =>
    simp only [step] at h
    split at h
    · rename_i hi
      split at h
      · cases h
      · rename_i hx
        cases h
        exact .inl ⟨i,x,rfl,hi,hx,rfl,rfl⟩
    · cases h
  | read i =>
    simp only [step] at h
    split at h
    · rename_i x hi
      cases h
      exact .inr (.inl ⟨i,x,rfl,hi,rfl,rfl⟩)
    · cases h
  | store i =>
    simp only [step] at h
    split at h
    · rename_i x seen hi
      cases h
      exact .inr (.inr (.inl ⟨i,x,seen,rfl,hi,rfl,rfl⟩))
    · cases h
  | drop i =>
    simp only [step] at h
    split at h
    · rename_i seen hi
      cases h
      exact .inr (.inr (.inr ⟨i,seen,rfl,hi,rfl,rfl⟩))
    · cases h

section Books

def stores (tr : List (Event τ)) : List τ := tr.map Event.stored
def priors (tr : List (Event τ)) : List (Option τ) := tr.map Event.prior
def seens (tr : List (Event τ)) : List (Option τ) := tr.map Event.seen

/-- The number of places where a token is. -/
def State.uses (s : State τ) (x : τ) : ℕ :=
  (if s.cell = some x then 1 else 0) + s.hands.countP (fun h => h.token = some x) + s.dropped.count x

def State.offers (s : State τ) (x : τ) : ℕ := s.hands.countP (fun h => h.offer = some x)

/-- Every token is in one place. -/
def Balanced (s : State τ) : Prop := ∀ x ∈ s.made, s.uses x = 1

structure Ledger (tr : List (Event τ)) (s : State τ) : Prop where
  nodup : s.made.Nodup
  balance : ∀ x, s.uses x + (priors tr).count (some x) = s.made.count x + (seens tr).count (some x)
  origin : ∀ x, (stores tr).count x + s.offers x = s.made.count x
  chain : none :: (stores tr).map some = priors tr ++ [s.cell]
  reading : ∀ (i : ℕ) x seen, s.hands[i]? = some (.storing x seen) → seen ∈ none :: (stores tr).map some
  past : Each (fun pre e => e.seen ∈ priors pre ++ [e.prior]) tr

theorem count_token {i : ℕ} {a : Hand τ} (hi : s.hands[i]? = some a) (b : Hand τ) (x : τ) :
    (s.hands.set i b).countP (fun h => h.token = some x) + (if a.token = some x then 1 else 0) =
      s.hands.countP (fun h => h.token = some x) + (if b.token = some x then 1 else 0) := by
  simpa using Roster.countP_set_add hi (fun h => decide (h.token = some x)) b

theorem count_offer {i : ℕ} {a : Hand τ} (hi : s.hands[i]? = some a) (b : Hand τ) (x : τ) :
    (s.hands.set i b).countP (fun h => h.offer = some x) + (if a.offer = some x then 1 else 0) =
      s.hands.countP (fun h => h.offer = some x) + (if b.offer = some x then 1 else 0) := by
  simpa using Roster.countP_set_add hi (fun h => decide (h.offer = some x)) b

theorem Ledger.reading_set {i : ℕ} {b : Hand τ} {values : List (Option τ)} (h : Ledger tr s)
    (hvalues : none :: (stores tr).map some ⊆ values) (hb : ∀ x seen, b = .storing x seen → seen ∈ values)
    (j : ℕ) (y : τ) (seen : Option τ) (hj : (s.hands.set i b)[j]? = some (.storing y seen)) : seen ∈ values := by
  rcases Roster.getElem?_set_cases hj with ⟨-,he⟩ | ⟨-,hj⟩
  · exact hb y seen he.symm
  · exact hvalues (h.reading j y seen hj)

theorem Ledger.make {i : ℕ} (h : Ledger tr s) (hi : s.hands[i]? = some .empty) (hx : x ∉ s.made) :
    Ledger tr { s with made := s.made ++ [x], hands := s.hands.set i (.offering x) } where
  nodup := by
    rw [← List.concat_eq_append]
    exact h.nodup.concat hx
  balance y := by
    have htoken := count_token hi (.offering x) y
    have hbalance := h.balance y
    simp only [State.uses, Hand.token, List.count_append, List.count_singleton] at htoken hbalance ⊢
    grind
  origin y := by
    have hoffer := count_offer hi (.offering x) y
    have horigin := h.origin y
    simp only [State.offers, Hand.offer, List.count_append, List.count_singleton] at hoffer horigin ⊢
    grind
  chain := h.chain
  reading := h.reading_set (fun _ h => h) (fun _ _ he => by cases he)
  past := h.past

theorem Ledger.read {i : ℕ} (h : Ledger tr s) (hi : s.hands[i]? = some (.offering x)) :
    Ledger tr { s with hands := s.hands.set i (.storing x s.cell) } where
  nodup := h.nodup
  balance y := by
    have htoken := count_token hi (.storing x s.cell) y
    have hbalance := h.balance y
    simp only [State.uses, Hand.token] at htoken hbalance ⊢
    grind
  origin y := by
    have hoffer := count_offer hi (.storing x s.cell) y
    have horigin := h.origin y
    simp only [State.offers, Hand.offer] at hoffer horigin ⊢
    grind
  chain := h.chain
  reading := by
    refine h.reading_set (fun _ h => h) (fun y seen he => ?_)
    cases he
    rw [h.chain]
    exact List.mem_append_right _ (List.mem_singleton.mpr rfl)
  past := h.past

theorem Ledger.drop {i : ℕ} {seen : Option τ} (h : Ledger tr s) (hi : s.hands[i]? = some (.keeping seen)) :
    Ledger tr { s with dropped := s.dropped ++ seen.toList, hands := s.hands.set i .empty } where
  nodup := h.nodup
  balance y := by
    have htoken := count_token hi .empty y
    have hbalance := h.balance y
    have hdropped : seen.toList.count y = if seen = some y then 1 else 0 := by
      cases seen <;> simp [List.count_singleton]
    simp only [State.uses, Hand.token, List.count_append, hdropped] at htoken hbalance ⊢
    grind
  origin y := by
    have hoffer := count_offer hi .empty y
    have horigin := h.origin y
    simp only [State.offers, Hand.offer] at hoffer horigin ⊢
    grind
  chain := h.chain
  reading := h.reading_set (fun _ h => h) (fun _ _ he => by cases he)
  past := h.past

theorem Ledger.store {i : ℕ} {seen : Option τ} (h : Ledger tr s) (hi : s.hands[i]? = some (.storing x seen)) :
    Ledger (tr ++ [⟨x,s.cell,seen⟩]) { s with cell := some x, hands := s.hands.set i (.keeping seen) } where
  nodup := h.nodup
  balance y := by
    have htoken := count_token hi (.keeping seen) y
    have hbalance := h.balance y
    simp only [State.uses, Hand.token, priors, seens, List.map_append, List.count_append, List.map_cons,
      List.map_nil, List.count_singleton] at htoken hbalance ⊢
    grind
  origin y := by
    have hoffer := count_offer hi (.keeping seen) y
    have horigin := h.origin y
    simp only [State.offers, Hand.offer, stores, List.map_append, List.count_append, List.map_cons,
      List.map_nil, List.count_singleton] at hoffer horigin ⊢
    grind
  chain := by
    have hchain := h.chain
    simp only [stores, priors, List.map_append, List.map_cons, List.map_nil] at hchain ⊢
    rw [← List.cons_append, hchain]
  reading := by
    refine h.reading_set (fun y hy => ?_) (fun _ _ he => by cases he)
    simp only [stores, List.map_append, List.mem_cons, List.mem_append] at hy ⊢
    exact hy.imp_right .inl
  past := by
    refine h.past.snoc ?_
    rw [← h.chain]
    exact h.reading i x seen hi

theorem Ledger.step (h : Ledger tr s) (hs : step s a = some (t,es)) : Ledger (tr ++ es) t := by
  rcases step_cases hs with ⟨i,x,-,hi,hx,rfl,rfl⟩ | ⟨i,x,-,hi,rfl,rfl⟩ | ⟨i,x,seen,-,hi,rfl,rfl⟩ |
    ⟨i,seen,-,hi,rfl,rfl⟩
  · rw [List.append_nil]
    exact h.make hi hx
  · rw [List.append_nil]
    exact h.read hi
  · exact h.store hi
  · rw [List.append_nil]
    exact h.drop hi

theorem ledger_of_runs (hr : (machine τ n).Runs P tr s) : Ledger tr s := by
  refine hr.invariant (I := Ledger) ?_ (fun tr s a t es _ h _ hs => h.step hs)
  rintro _ rfl
  refine ⟨List.nodup_nil,fun x => ?_,fun x => ?_,rfl,fun i x seen hi => ?_,each_nil⟩
  · simp [State.uses,priors,seens,List.countP_replicate,Hand.token]
  · simp [State.offers,stores,List.countP_replicate,Hand.offer]
  · cases List.eq_of_mem_replicate (List.mem_of_getElem? hi)

end Books

section Balance

/-- Every storing overwrites what its process has read. -/
def Matched (tr : List (Event τ)) : Prop := ∀ e ∈ tr, e.seen = e.prior

theorem Ledger.stores_nodup (h : Ledger tr s) : (stores tr).Nodup := by
  refine List.nodup_iff_count_le_one.mpr (fun x => ?_)
  have horigin := h.origin x
  have hmade := List.nodup_iff_count_le_one.mp h.nodup x
  omega

/-- No token is overwritten twice, and the empty cell is overwritten once. -/
theorem Ledger.priors_nodup (h : Ledger tr s) : (priors tr).Nodup := by
  have hcell : (priors tr ++ [s.cell]).Nodup := by
    rw [← h.chain]
    refine List.nodup_cons.mpr ⟨by simp,h.stores_nodup.map (Option.some_injective τ)⟩
  exact hcell.of_append_left

theorem Ledger.seens_subset (h : Ledger tr s) : seens tr ⊆ priors tr := by
  intro v hv
  obtain ⟨e,he,rfl⟩ := List.mem_map.mp hv
  obtain ⟨pre,post,rfl⟩ := List.append_of_mem he
  have hpast := h.past pre e post rfl
  rw [priors, List.map_append, List.map_cons]
  rcases List.mem_append.mp hpast with hpre | hlast
  · exact List.mem_append_left _ hpre
  · rw [List.mem_singleton.mp hlast]
    exact List.mem_append_right _ List.mem_cons_self

theorem count_reduceOption (vs : List (Option τ)) (x : τ) : vs.reduceOption.count x = vs.count (some x) := by
  induction vs with
  | nil => rfl
  | cons v vs ih => cases v <;> simp [List.count_cons,ih]

theorem count_none (vs : List (Option τ)) : vs.count none = (vs.filter Option.isNone).length := by
  rw [List.count, List.countP_eq_length_filter]
  congr 2
  funext v
  cases v <;> rfl

theorem count_eq {vs ws : List (Option τ)} (hlen : vs.length = ws.length)
    (h : ∀ x, vs.count (some x) = ws.count (some x)) (v : Option τ) : vs.count v = ws.count v := by
  cases v with
  | some x => exact h x
  | none =>
    have hperm : vs.reduceOption.Perm ws.reduceOption := by
      refine List.perm_iff_count.mpr (fun x => ?_)
      rw [count_reduceOption, count_reduceOption, h]
    have hv := List.length_eq_reduceOption_length_add_filter_none (l := vs)
    have hw := List.length_eq_reduceOption_length_add_filter_none (l := ws)
    have hsize := hperm.length_eq
    rw [count_none, count_none]
    omega

/-- The values that are read and those that are overwritten are the same, one by one. -/
theorem Ledger.count_seens (h : Ledger tr s) (hb : Balanced s) (v : Option τ) :
    (seens tr).count v = (priors tr).count v := by
  refine count_eq (by simp [seens,priors]) (fun x => ?_) v
  have hbalance := h.balance x
  by_cases hx : x ∈ s.made
  · rw [hb x hx, List.count_eq_one_of_mem h.nodup hx] at hbalance
    omega
  · have horigin := h.origin x
    rw [List.count_eq_zero_of_not_mem hx] at horigin
    have hprior : some x ∉ priors tr := by
      intro hmem
      have hchain : some x ∈ none :: (stores tr).map some := by
        rw [h.chain]
        exact List.mem_append_left _ hmem
      have hpos : 0 < (stores tr).count x := List.count_pos_iff.mpr (by simpa using hchain)
      omega
    rw [List.count_eq_zero_of_not_mem hprior, List.count_eq_zero_of_not_mem (fun hmem => hprior (h.seens_subset hmem))]

theorem Ledger.matched (h : Ledger tr s) (hb : Balanced s) : Matched tr := by
  suffices hpre : ∀ pre post, tr = pre ++ post → Matched pre from hpre tr [] (List.append_nil tr).symm
  intro pre
  induction pre using List.reverseRecOn with
  | nil =>
    rintro - - e he
    cases he
  | append_singleton pre e ih =>
    intro post htr
    rw [List.append_assoc] at htr
    have hpre := ih _ htr
    have hlast : e.seen = e.prior := by
      rcases List.mem_append.mp (h.past pre e post htr) with hmem | hmem
      · -- what has been overwritten before was read then, and nothing is overwritten twice
        have hsame : seens pre = priors pre := List.map_congr_left hpre
        have hpos : 0 < (seens pre).count e.seen := by
          rw [hsame]
          exact List.count_pos_iff.mpr hmem
        have honce := List.nodup_iff_count_le_one.mp h.priors_nodup e.seen
        rw [← h.count_seens hb, htr] at honce
        simp only [seens, List.map_append, List.map_cons, List.map_nil, List.count_append,
          List.count_cons_self] at honce hpos
        omega
      · exact List.mem_singleton.mp hmem
    intro d hd
    rcases List.mem_append.mp hd with hd | hd
    · exact hpre d hd
    · rw [List.mem_singleton.mp hd]
      exact hlast

theorem Ledger.uses_eq (h : Ledger tr s) (hm : Matched tr) (x : τ) : s.uses x = s.made.count x := by
  have hseens : seens tr = priors tr := List.map_congr_left hm
  have hbalance := h.balance x
  rw [hseens] at hbalance
  omega

theorem Ledger.balanced (h : Ledger tr s) (hm : Matched tr) : Balanced s := by
  intro x hx
  rw [h.uses_eq hm, List.count_eq_one_of_mem h.nodup hx]

/-- The tokens are all in one place if every storing matches, and only then. -/
theorem balanced_iff (hr : (machine τ n).Runs P tr s) : Balanced s ↔ Matched tr :=
  ⟨(ledger_of_runs hr).matched,(ledger_of_runs hr).balanced⟩

end Balance

section Alone

/-- Nobody reads while another process is about to store. -/
def Alone (_ : List (Event τ)) (s : State τ) (a : Action τ) : Prop :=
  ∀ i, a = .read i → ∀ h ∈ s.hands, h.isStoring = false

/-- Who is about to store is the only one, and the cell is as it has been read. -/
structure Serial (tr : List (Event τ)) (s : State τ) : Prop where
  seen : ∀ (i : ℕ) x seen, s.hands[i]? = some (.storing x seen) → seen = s.cell
  alone : s.hands.countP Hand.isStoring ≤ 1
  matched : Matched tr

omit [DecidableEq τ] in
/-- A process moves on without reading or storing. -/
theorem Serial.move {i : ℕ} {b c : Hand τ} (h : Serial tr s) (hcell : t.cell = s.cell)
    (hhands : t.hands = s.hands.set i c) (hi : s.hands[i]? = some b) (hb : b.isStoring = false)
    (hc : c.isStoring = false) : Serial tr t where
  seen j x seen hj := by
    rw [hhands] at hj
    rw [hcell]
    rcases Roster.getElem?_set_cases hj with ⟨-,rfl⟩ | ⟨-,hj⟩
    · cases hc
    · exact h.seen j x seen hj
  alone := by
    rw [hhands, Roster.countP_set_of_eq hi (hc.trans hb.symm)]
    exact h.alone
  matched := h.matched

theorem Serial.step (h : Serial tr s) (hp : Alone tr s a) (hs : Exchange.step s a = some (t,es)) :
    Serial (tr ++ es) t := by
  rcases step_cases hs with ⟨i,x,-,hi,-,rfl,rfl⟩ | ⟨i,x,rfl,hi,rfl,rfl⟩ | ⟨i,x,seen,-,hi,rfl,rfl⟩ |
    ⟨i,seen,-,hi,rfl,rfl⟩
  · rw [List.append_nil]
    exact h.move rfl rfl hi rfl rfl
  · have hnobody := hp i rfl
    have hcount := Roster.countP_set_add hi Hand.isStoring (.storing x s.cell)
    have hzero : s.hands.countP Hand.isStoring = 0 := List.countP_eq_zero.mpr (by simpa using hnobody)
    rw [List.append_nil]
    refine ⟨fun j y seen hj => ?_,?_,h.matched⟩
    · rcases Roster.getElem?_set_cases hj with ⟨-,he⟩ | ⟨-,hj⟩
      · cases he
        rfl
      · cases hnobody _ (List.mem_of_getElem? hj)
    · simp only [Hand.isStoring] at hcount
      grind
  · have hcount := Roster.countP_set_add hi Hand.isStoring (.keeping seen)
    have halone := h.alone
    have hseen := h.seen i x seen hi
    refine ⟨fun j y v hj => ?_,?_,?_⟩
    · rcases Roster.getElem?_set_cases hj with ⟨-,he⟩ | ⟨hij,hj⟩
      · cases he
      · have htwo := Roster.two_le_countP hij hi hj (p := Hand.isStoring) rfl rfl
        omega
    · simp only [Hand.isStoring] at hcount
      grind
    · intro e he
      rcases List.mem_append.mp he with he | he
      · exact h.matched e he
      · rw [List.mem_singleton.mp he]
        exact hseen
  · rw [List.append_nil]
    exact h.move rfl rfl hi rfl rfl

theorem serial_of_runs (hr : (machine τ n).Runs Alone tr s) : Serial tr s := by
  refine hr.invariant (I := Serial) ?_ (fun tr s a t es _ h hp hs => h.step hp hs)
  rintro _ rfl
  refine ⟨fun i x seen hi => ?_,by simp [List.countP_replicate,Hand.isStoring],fun e he => ?_⟩
  · cases List.eq_of_mem_replicate (List.mem_of_getElem? hi)
  · cases he

theorem uses_of_alone (hr : (machine τ n).Runs Alone tr s) (x : τ) : s.uses x = s.made.count x :=
  (ledger_of_runs hr).uses_eq (serial_of_runs hr).matched x

end Alone
end Foundation.Exchange
