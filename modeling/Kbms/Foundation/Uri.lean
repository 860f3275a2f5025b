import Mathlib.Data.List.TakeWhile

/-! # Generic URI syntax

A text splits into a scheme, an authority, a path, a query and a fragment, from left to
right and each part up to the first delimiter that ends it. Splitting loses nothing, so
a text is determined by its parts.
-/
namespace Foundation

structure Uri where
  scheme : Option (List Char)
  authority : Option (List Char)
  path : List Char
  query : Option (List Char)
  fragment : Option (List Char)
  deriving DecidableEq, Repr

namespace Uri

def inScheme (c : Char) : Bool := c ∉ [':','/','?','#']
def inAuthority (c : Char) : Bool := c ∉ ['/','?','#']
def inPath (c : Char) : Bool := c ∉ ['?','#']
def inQuery (c : Char) : Bool := c ≠ '#'

/-- The scheme is what stands before the first colon, unless it is empty or another
delimiter comes first. -/
def splitScheme (s : List Char) : Option (List Char) × List Char :=
  match s.takeWhile inScheme, s.dropWhile inScheme with
  | c :: cs, ':' :: rest => (some (c :: cs),rest)
  | _, _ => (none,s)

def splitAuthority : List Char → Option (List Char) × List Char
  | '/' :: '/' :: rest => (some (rest.takeWhile inAuthority),rest.dropWhile inAuthority)
  | rest => (none,rest)

def splitQuery : List Char → Option (List Char) × List Char
  | '?' :: rest => (some (rest.takeWhile inQuery),rest.dropWhile inQuery)
  | rest => (none,rest)

def splitFragment : List Char → Option (List Char)
  | '#' :: rest => some rest
  | _ => none

def split (s : List Char) : Uri :=
  let rest := (splitAuthority (splitScheme s).2).2
  let tail := splitQuery (rest.dropWhile inPath)
  ⟨(splitScheme s).1,(splitAuthority (splitScheme s).2).1,rest.takeWhile inPath,tail.1,
    splitFragment tail.2⟩

def renderScheme : Option (List Char) → List Char
  | some scheme => scheme ++ [':']
  | none => []

def renderAuthority : Option (List Char) → List Char
  | some authority => '/' :: '/' :: authority
  | none => []

def renderQuery : Option (List Char) → List Char
  | some query => '?' :: query
  | none => []

def renderFragment : Option (List Char) → List Char
  | some fragment => '#' :: fragment
  | none => []

/-- The recomposition of a text from its parts. -/
def render (u : Uri) : List Char :=
  renderScheme u.scheme ++ (renderAuthority u.authority ++ (u.path ++ (renderQuery u.query ++
    renderFragment u.fragment)))

theorem renderScheme_split (s : List Char) :
    renderScheme (splitScheme s).1 ++ (splitScheme s).2 = s := by
  unfold splitScheme
  split
  · rename_i c cs rest hpre hrest
    have hs := List.takeWhile_append_dropWhile (p := inScheme) (l := s)
    rw [hpre, hrest] at hs
    simpa [renderScheme] using hs
  · rfl

theorem renderAuthority_split (s : List Char) :
    renderAuthority (splitAuthority s).1 ++ (splitAuthority s).2 = s := by
  unfold splitAuthority
  split
  · simp [renderAuthority]
  · rfl

theorem renderQuery_split (s : List Char) : renderQuery (splitQuery s).1 ++ (splitQuery s).2 = s := by
  unfold splitQuery
  split
  · simp [renderQuery]
  · rfl

theorem dropWhile_head {p : Char → Bool} {s rest : List Char} {c : Char}
    (h : s.dropWhile p = c :: rest) : p c = false := by
  have hne : s.dropWhile p ≠ [] := by simp [h]
  have hhead := List.head_dropWhile_not p hne
  simpa [h] using hhead

/-- What a query leaves over is empty or starts a fragment. -/
theorem splitQuery_rest {s : List Char} (c : Char) (rest : List Char)
    (h : (splitQuery (s.dropWhile inPath)).2 = c :: rest) : c = '#' := by
  cases hs : s.dropWhile inPath with
  | nil => simp [hs,splitQuery] at h
  | cons d tail =>
    have hd := dropWhile_head hs
    by_cases hq : d = '?'
    · subst hq
      rw [hs] at h
      simpa [inQuery] using dropWhile_head h
    · have hrest : splitQuery (d :: tail) = (none,d :: tail) := by
        unfold splitQuery
        split
        · rename_i heq
          cases heq
          exact absurd rfl hq
        · rfl
      rw [hs, hrest] at h
      cases h
      simpa [inPath,hq] using hd

theorem renderFragment_split {s : List Char} (h : ∀ c rest, s = c :: rest → c = '#') :
    renderFragment (splitFragment s) = s := by
  cases s with
  | nil => rfl
  | cons c rest =>
    rw [h c rest rfl]
    rfl

/-- Splitting loses nothing. -/
theorem render_split (s : List Char) : render (split s) = s := by
  have hfragment := renderFragment_split
    (splitQuery_rest (s := (splitAuthority (splitScheme s).2).2))
  have hquery := renderQuery_split ((splitAuthority (splitScheme s).2).2.dropWhile inPath)
  have hpath := List.takeWhile_append_dropWhile (p := inPath) (l := (splitAuthority (splitScheme s).2).2)
  have hauthority := renderAuthority_split (splitScheme s).2
  have hscheme := renderScheme_split s
  calc render (split s)
      = renderScheme (splitScheme s).1 ++ (renderAuthority (splitAuthority (splitScheme s).2).1 ++
          ((splitAuthority (splitScheme s).2).2.takeWhile inPath ++
            (splitAuthority (splitScheme s).2).2.dropWhile inPath)) := by
        simp only [render, split, hfragment, hquery]
    _ = s := by rw [hpath, hauthority, hscheme]

theorem takeWhile_append_cons {p : Char → Bool} {xs : List Char} {c : Char} (h : ∀ x ∈ xs, p x = true)
    (hc : p c = false) (ys : List Char) :
    (xs ++ c :: ys).takeWhile p = xs ∧ (xs ++ c :: ys).dropWhile p = c :: ys := by
  induction xs with
  | nil => simp [hc]
  | cons x xs ih =>
    obtain ⟨htake,hdrop⟩ := ih (fun y hy => h y (List.mem_cons_of_mem x hy))
    have hx := h x List.mem_cons_self
    simp [hx,htake,hdrop]

/-- The first separator of a text tells where its first part ends. -/
theorem append_cons_inj {p : Char → Bool} {xs ys xs' ys' : List Char} {c : Char}
    (h : ∀ x ∈ xs, p x = true) (h' : ∀ x ∈ xs', p x = true) (hc : p c = false)
    (he : xs ++ c :: ys = xs' ++ c :: ys') : xs = xs' ∧ ys = ys' := by
  obtain ⟨htake,hdrop⟩ := takeWhile_append_cons h hc ys
  obtain ⟨htake',hdrop'⟩ := takeWhile_append_cons h' hc ys'
  rw [he] at htake hdrop
  exact ⟨htake.symm.trans htake',(List.cons_eq_cons.mp (hdrop.symm.trans hdrop')).2⟩

end Uri
end Foundation
