import Mathlib.Data.List.Induction
import Mathlib.Logic.Function.Basic
import Mathlib.Tactic.Common

/-! # Registered handlers and the closures of a request

`CoreHandleRequest` wraps a request into two closures, and which user callback they
reach is decided when they run, from what was registered. The abstract answer is
`handlerFor`: the last registration that applies, looked up in the list of
registrations itself.
-/
namespace Kbms

/-- What `HttpContext` keeps for the reply: the request, by its number in the order of
arrival, and its path. -/
structure HttpContext where
  req : ℕ
  uri : String
  deriving DecidableEq, Repr

/-- The lambdas of `CoreHandleRequest` with the values they capture. -/
inductive Closure
  | taskFun (url : String) (hct : HttpContext)
  | expireFun (hct : HttpContext)
  deriving DecidableEq, Repr

def Closure.hct : Closure → HttpContext
  | .taskFun _ hct | .expireFun hct => hct

/-- The members of `Service` that hold user callbacks. `H` stands for the callables
and `none` in the place of one is an empty `std::function`. -/
structure Handlers (H : Type*) where
  callbacksMap : String → Option (Option H)
  defaultCb : Option H
  timeoutCb : Option H

inductive Registration (H : Type*)
  | handler (uri : String) (callback : Option H)
  | default (callback : Option H)
  | timeout (callback : Option H)

/-- What a closure comes to: a user callback, no call at all, or the exception that
the call of an empty `std::function` throws. -/
inductive Call (H : Type*)
  | handler (h : H)
  | nothing
  | badFunctionCall

namespace Handlers
variable {H : Type*}

def new : Handlers H := ⟨fun _ => none,none,none⟩

def registerHandler (hs : Handlers H) (uri : String) (callback : Option H) : Handlers H :=
  { hs with callbacksMap := Function.update hs.callbacksMap uri (some callback) }

def registerDefaultHandler (hs : Handlers H) (callback : Option H) : Handlers H :=
  { hs with defaultCb := callback }

def registerTimeoutHandler (hs : Handlers H) (callback : Option H) : Handlers H :=
  { hs with timeoutCb := callback }

def register (hs : Handlers H) : Registration H → Handlers H
  | .handler uri callback => hs.registerHandler uri callback
  | .default callback => hs.registerDefaultHandler callback
  | .timeout callback => hs.registerTimeoutHandler callback

def registerAll (ops : List (Registration H)) : Handlers H := ops.foldl register new

/-- The bodies of the lambdas. -/
def call (hs : Handlers H) : Closure → Call H
  | .taskFun url _ =>
    match hs.callbacksMap url with
    | some (some h) => .handler h
    | some none => .badFunctionCall
    | none =>
      match hs.defaultCb with
      | some h => .handler h
      | none => .nothing
  | .expireFun _ =>
    match hs.timeoutCb with
    | some h => .handler h
    | none => .nothing

end Handlers

namespace Registration
variable {H : Type*}

def forPath (path : String) : Registration H → Option (Option H)
  | .handler uri callback => if uri = path then some callback else none
  | _ => none

def forDefault : Registration H → Option (Option H)
  | .default callback => some callback
  | _ => none

def forTimeout : Registration H → Option (Option H)
  | .timeout callback => some callback
  | _ => none

/-- The last registration of a kind. -/
def last (kind : Registration H → Option (Option H)) (ops : List (Registration H)) :
    Option (Option H) := ops.reverse.findSome? kind

/-- The handler that a request for `path` is due: the timeout handler when it is late,
and otherwise the one for exactly this path, and the default one where there is none. -/
def handlerFor (ops : List (Registration H)) (path : String) (late : Bool) : Option H :=
  if late then (last forTimeout ops).getD none
  else (last (forPath path) ops).getD ((last forDefault ops).getD none)

theorem last_append (kind : Registration H → Option (Option H)) (ops : List (Registration H))
    (op : Registration H) : last kind (ops ++ [op]) = (kind op).or (last kind ops) := by
  unfold last
  rw [List.reverse_append, List.reverse_singleton, List.singleton_append, List.findSome?_cons]
  cases kind op <;> rfl

end Registration

namespace Handlers
open Registration
variable {H : Type*}

/-- The three members hold the last registration of their kind. -/
theorem registerAll_last (ops : List (Registration H)) :
    (∀ path, (registerAll ops).callbacksMap path = last (forPath path) ops) ∧
    (registerAll ops).defaultCb = (last forDefault ops).getD none ∧
    (registerAll ops).timeoutCb = (last forTimeout ops).getD none := by
  induction ops using List.reverseRecOn with
  | nil => exact ⟨fun _ => rfl,rfl,rfl⟩
  | append_singleton ops op ih =>
    obtain ⟨hpath,hdefault,htimeout⟩ := ih
    have hfold : registerAll (ops ++ [op]) = (registerAll ops).register op := by
      rw [registerAll, List.foldl_append]
      rfl
    rw [hfold]
    refine ⟨fun path => ?_,?_,?_⟩
    · rw [last_append, ← hpath]
      cases op with
      | handler uri callback =>
        by_cases h : uri = path
        · simp [register,registerHandler,forPath,h]
        · simp [register,registerHandler,forPath,h,Function.update_of_ne (Ne.symm h)]
      | _ => rfl
    · rw [last_append]
      cases op with
      | default callback => rfl
      | _ => exact hdefault
    · rw [last_append]
      cases op with
      | timeout callback => rfl
      | _ => exact htimeout

/-- A closure reaches a user callback exactly when one is due. -/
theorem call_taskFun {ops : List (Registration H)} {path : String} {hct : HttpContext} {h : H} :
    (registerAll ops).call (.taskFun path hct) = .handler h ↔ handlerFor ops path false = some h := by
  obtain ⟨hpath,hdefault,_⟩ := registerAll_last ops
  rw [call, hpath, hdefault]
  cases hl : last (forPath path) ops with
  | some callback => cases callback <;> simp [handlerFor,hl]
  | none => cases hd : (last forDefault ops).getD none <;> simp [handlerFor,hl,hd]

theorem call_expireFun {ops : List (Registration H)} (path : String) {hct : HttpContext} {h : H} :
    (registerAll ops).call (.expireFun hct) = .handler h ↔ handlerFor ops path true = some h := by
  obtain ⟨_,_,htimeout⟩ := registerAll_last ops
  rw [call, htimeout]
  cases hl : (last forTimeout ops).getD none <;> simp [handlerFor,hl]

end Handlers
end Kbms
