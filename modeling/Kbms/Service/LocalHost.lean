import Kbms.Service.Impl

/-! # The host of the registry client

`GetLocalIp` reports that it found nothing by not writing, and `GetHost` looks at the
pointer it has allocated itself. Without a usable interface the host is what the
allocated memory held before.
-/
namespace Kbms

/-- `struct in_addr`, in the order of its bytes. -/
structure InAddr where
  a : UInt8
  b : UInt8
  c : UInt8
  d : UInt8
  deriving DecidableEq, Repr

def digits (n : UInt8) : List Char := Nat.toDigits 10 n.toNat

/-- `inet_ntoa`. -/
def inetNtoa (addr : InAddr) : List Char :=
  digits addr.a ++ '.' :: (digits addr.b ++ '.' :: (digits addr.c ++ '.' :: digits addr.d))

/-- A `struct ifreq`: its address, and its flags after `SIOCGIFFLAGS`. -/
structure Ifreq where
  addr : InAddr
  flags : UInt16
  deriving DecidableEq, Repr

def iffUp : UInt16 := 1
def iffLoopback : UInt16 := 8

/-- The test of the search loop. -/
def Ifreq.usable (ifr : Ifreq) : Bool := ifr.flags &&& iffLoopback = 0 && ifr.flags &&& iffUp ≠ 0

/-- `BUFSIZ / sizeof(struct ifreq)`. -/
def maxRecords : ℕ := 8192 / 40

/-- The outcomes of the calls of `GetLocalIp`: whether `socket` and `SIOCGIFCONF` succeed,
the interfaces there are, and what the buffer on the stack holds before the calls. -/
structure NetCalls where
  socket : Bool
  ifconf : Bool
  interfaces : List Ifreq
  stack : Fin maxRecords → Ifreq

namespace NetCalls

def called (calls : NetCalls) : Bool := calls.socket && calls.ifconf

/-- The records that the loop goes through. A failed call leaves `ifc_len` and the buffer
as they were, and a successful one stores as many interfaces as fit. -/
def records (calls : NetCalls) : List Ifreq :=
  if calls.called then calls.interfaces.take maxRecords else List.ofFn calls.stack

end NetCalls

def ipSize : ℕ := 16

def nul : Char := Char.ofNat 0

/-- The memory that `malloc(IP_SIZE)` returns. Its content is not determined. -/
structure Block where
  chars : List Char
  length_eq : chars.length = ipSize

namespace Block

/-- `strcpy`; `none` is a write past the end. -/
def strcpy (b : Block) (s : List Char) : Option Block :=
  if h : s.length < ipSize then
    some ⟨s ++ nul :: b.chars.drop (s.length + 1),by
      have hb := b.length_eq
      rw [List.length_append, List.length_cons, List.length_drop]
      omega⟩
  else none

/-- The assignment of a `char *` to a `std::string`; `none` is a read past the end. -/
def cString (b : Block) : Option String :=
  if nul ∈ b.chars then some (String.ofList (b.chars.takeWhile (· ≠ nul))) else none

theorem cString_strcpy {b : Block} {s : List Char} (hs : s.length < ipSize) (hnul : nul ∉ s) :
    (b.strcpy s).bind cString = some (String.ofList s) := by
  have hall : ∀ c ∈ s, decide (c ≠ nul) = true := by
    intro c hc
    have hne : c ≠ nul := fun he => hnul (he ▸ hc)
    exact decide_eq_true hne
  rw [strcpy, dif_pos hs, Option.bind_some, cString, if_pos (by simp)]
  rw [List.takeWhile_append_of_pos hall, List.takeWhile_cons_of_neg (by simp), List.append_nil]

end Block

/-- `GetLocalIp`; `none` is a write through a null pointer or past the end. -/
def getLocalIp (calls : NetCalls) (ip : Option Block) : Option (Option Block) :=
  match calls.records.find? Ifreq.usable with
  | some ifr => ip.bind (fun b => (b.strcpy (inetNtoa ifr.addr)).map some)
  | none => some ip

theorem digits_length (n : UInt8) : (digits n).length ≤ 3 := by
  apply (Nat.length_toDigits_le_iff (by omega) (by omega)).mpr
  have hlt := n.toNat_lt
  omega

theorem nul_not_mem_digits (n : UInt8) : nul ∉ digits n := by
  intro h
  have hdigit := Nat.isDigit_of_mem_toDigits (by omega) (by omega) h
  revert hdigit
  decide

/-- `IP_SIZE` is enough for every address. -/
theorem inetNtoa_length (addr : InAddr) : (inetNtoa addr).length < ipSize := by
  have ha := digits_length addr.a
  have hb := digits_length addr.b
  have hc := digits_length addr.c
  have hd := digits_length addr.d
  rw [inetNtoa, List.length_append, List.length_cons, List.length_append, List.length_cons,
    List.length_append, List.length_cons, ipSize]
  omega

theorem nul_not_mem_inetNtoa (addr : InAddr) : nul ∉ inetNtoa addr := by
  have hdot : nul ≠ '.' := by decide
  simp [inetNtoa,nul_not_mem_digits,hdot]

namespace HttpServer

/-- `GetHost`, where `malloc` returned `block`. The pointer is tested when it has been
used. -/
def getHost (calls : NetCalls) (block : Option Block) : Option (Option String) :=
  (getLocalIp calls block).bind (fun ip =>
    match ip with
    | none => some none
    | some b => b.cString.map some)

/-- `InitInteractObj`; `none` is undefined. -/
def Impl.initInteract (calls : NetCalls) (block : Option Block) (port : UInt32) (rti : RegistrySettings)
    (memory : UInt32) : Option (Option Interact) :=
  if !rti.flagOfMmserverOn then some none
  else (getHost calls block).map (fun host => initInteractObj port rti host memory)

/-- The dotted address of the first interface that is up and not loopback, of those that
the calls report. -/
def expectedHost (calls : NetCalls) : Option String :=
  ((if calls.called then calls.interfaces else []).find? Ifreq.usable).map
    (fun ifr => String.ofList (inetNtoa ifr.addr))

/-- `GetHost` gives the expected host or reports that there is none, and no client is made
with another one. -/
structure HostReported (calls : NetCalls) (block : Option Block) : Prop where
  answer : getHost calls block = some (expectedHost calls)
  client : ∀ port rti memory, Impl.initInteract calls block port rti memory =
    some (Impl.initInteractObj port rti (expectedHost calls) memory)

theorem hostReported_iff_getHost {calls : NetCalls} {block : Option Block} :
    HostReported calls block ↔ getHost calls block = some (expectedHost calls) := by
  constructor
  · exact HostReported.answer
  · intro h
    refine ⟨h,fun port rti memory => ?_⟩
    rw [Impl.initInteract, h]
    split
    · rename_i hoff
      rw [Impl.initInteractObj, if_pos hoff]
    · rfl

theorem getHost_found {calls : NetCalls} {ifr : Ifreq} (h : calls.records.find? Ifreq.usable = some ifr)
    (b : Block) : getHost calls (some b) = some (some (String.ofList (inetNtoa ifr.addr))) := by
  have hread := Block.cString_strcpy (b := b) (inetNtoa_length ifr.addr) (nul_not_mem_inetNtoa ifr.addr)
  rw [getHost, getLocalIp, h]
  cases hcopy : b.strcpy (inetNtoa ifr.addr) with
  | none => simp [hcopy] at hread
  | some b' =>
    rw [hcopy, Option.bind_some] at hread
    simp [hcopy,hread]

/-- Where nothing is found the host is the old content of the memory. -/
theorem getHost_unwritten {calls : NetCalls} (h : calls.records.find? Ifreq.usable = none) (b : Block) :
    getHost calls (some b) = b.cString.map some := by
  rw [getHost, getLocalIp, h]
  rfl

/-- A successful allocation is never reported as a failure. -/
theorem getHost_ne_false (calls : NetCalls) (b : Block) : getHost calls (some b) ≠ some none := by
  cases h : calls.records.find? Ifreq.usable with
  | some ifr =>
    rw [getHost_found h]
    simp
  | none =>
    rw [getHost_unwritten h]
    cases b.cString <;> simp

def zeroed : Block := ⟨List.replicate ipSize nul,List.length_replicate⟩

theorem expectedHost_eq_none {calls : NetCalls} : expectedHost calls = none ↔
    (calls.called = true → ∀ ifr ∈ calls.interfaces, ifr.usable = false) := by
  rw [expectedHost, Option.map_eq_none_iff, List.find?_eq_none]
  cases calls.called <;> simp

/-- An empty host is not the address of an interface. -/
theorem expectedHost_ne_empty (calls : NetCalls) : expectedHost calls ≠ some "" := by
  intro h
  obtain ⟨ifr,_,hempty⟩ := Option.map_eq_some_iff.mp h
  simp [inetNtoa] at hempty

theorem hostReported_of_usable {calls : NetCalls} {ifr : Ifreq} (hcalled : calls.called = true)
    (hifr : ifr ∈ calls.interfaces.take maxRecords) (husable : ifr.usable = true) (b : Block) :
    HostReported calls (some b) := by
  apply hostReported_iff_getHost.mpr
  have hrecords : calls.records = calls.interfaces.take maxRecords := if_pos hcalled
  cases hfind : (calls.interfaces.take maxRecords).find? Ifreq.usable with
  | none => exact absurd husable (List.find?_eq_none.mp hfind ifr hifr)
  | some first =>
    have hwhole := (List.take_prefix maxRecords calls.interfaces).find?_eq_some hfind
    rw [getHost_found (hrecords ▸ hfind), expectedHost, if_pos hcalled, hwhole]
    rfl

/-- With zeroed memory the host is the empty one where no interface is found. -/
theorem usable_of_zeroed {calls : NetCalls} (h : HostReported calls (some zeroed)) :
    calls.called = true ∧ ∃ ifr ∈ calls.interfaces.take maxRecords, ifr.usable = true := by
  have hanswer := h.answer
  cases hcalled : calls.called with
  | false =>
    rw [expectedHost, hcalled] at hanswer
    exact absurd hanswer (getHost_ne_false calls zeroed)
  | true =>
    refine ⟨rfl,?_⟩
    by_contra hno
    have hnone : calls.records.find? Ifreq.usable = none := by
      rw [NetCalls.records, if_pos hcalled, List.find?_eq_none]
      exact fun ifr hifr husable => hno ⟨ifr,hifr,husable⟩
    have hempty : zeroed.cString = some "" := rfl
    rw [getHost_unwritten hnone, hempty] at hanswer
    exact expectedHost_ne_empty calls (Option.some.inj hanswer).symm

/-- Without memory there is a failure to report unless something would be written. -/
theorem getHost_null (calls : NetCalls) :
    getHost calls none = if ∀ ifr ∈ calls.records, ifr.usable = false then some none else none := by
  cases hfind : calls.records.find? Ifreq.usable with
  | some ifr =>
    have hfound : ¬ ∀ ifr ∈ calls.records, ifr.usable = false := by
      intro hno
      have husable := List.find?_some hfind
      rw [hno ifr (List.mem_of_find?_eq_some hfind)] at husable
      cases husable
    rw [if_neg hfound, getHost, getLocalIp, hfind]
    rfl
  | none =>
    have hno := List.find?_eq_none.mp hfind
    rw [if_pos (fun ifr hifr => Bool.eq_false_iff.mpr (hno ifr hifr)), getHost, getLocalIp, hfind]
    rfl

/-- Whatever memory `malloc` returns, the host is reported rightly exactly when the calls
succeed and a usable interface is among those that fit into the buffer. Without memory it
is exactly when there is no usable interface, nor anything in the records that looks like
one. -/
theorem host_reported_iff (calls : NetCalls) :
    ((∀ b, HostReported calls (some b)) ↔
      calls.called = true ∧ ∃ ifr ∈ calls.interfaces.take maxRecords, ifr.usable = true) ∧
    (HostReported calls none ↔ (∀ ifr ∈ calls.records, ifr.usable = false) ∧
      (calls.called = true → ∀ ifr ∈ calls.interfaces, ifr.usable = false)) := by
  constructor
  · constructor
    · exact fun hall => usable_of_zeroed (hall zeroed)
    · rintro ⟨hcalled,ifr,hifr,husable⟩
      exact hostReported_of_usable hcalled hifr husable
  · rw [hostReported_iff_getHost, getHost_null, ← expectedHost_eq_none]
    split
    · rename_i hno
      constructor
      · intro h
        exact ⟨hno,(Option.some.inj h).symm⟩
      · rintro ⟨_,h⟩
        rw [h]
    · rename_i hfound
      constructor
      · intro h
        cases h
      · rintro ⟨hno,_⟩
        exact absurd hno hfound

/-- A host with only its loopback interface. -/
def loopbackOnly : NetCalls where
  socket := true
  ifconf := true
  interfaces := [⟨⟨127,0,0,1⟩,9⟩]
  stack := fun _ => ⟨⟨0,0,0,0⟩,0⟩

def leftover : Block := ⟨List.replicate 3 'x' ++ List.replicate 13 nul,rfl⟩

/-- Neither with the loopback interface alone nor when `socket` fails is there a host, and
a client is made with what the memory held before. -/
theorem undetermined_host :
    expectedHost loopbackOnly = none ∧ getHost loopbackOnly (some leftover) = some (some "xxx") ∧
    (∃ client, Impl.initInteract loopbackOnly (some leftover) 80 defaultRegistry 0 = some (some client) ∧
      client.registrant.host = "xxx") ∧
    expectedHost { loopbackOnly with socket := false } = none ∧
    getHost { loopbackOnly with socket := false } (some leftover) = some (some "xxx") ∧
    ¬ ∀ calls block, HostReported calls block := by
  have hlo : expectedHost loopbackOnly = none := rfl
  have hleft : getHost loopbackOnly (some leftover) = some (some "xxx") := by decide
  have hfail : { loopbackOnly with socket := false }.records.find? Ifreq.usable = none := by
    apply List.find?_eq_none.mpr
    intro ifr hifr
    obtain ⟨j,rfl⟩ := List.mem_ofFn.mp hifr
    have hdown : Ifreq.usable ⟨⟨0,0,0,0⟩,0⟩ ≠ true := by decide
    exact hdown
  refine ⟨hlo,hleft,?_,rfl,?_,fun hall => ?_⟩
  · rw [Impl.initInteract, hleft]
    exact ⟨_,rfl,rfl⟩
  · rw [getHost_unwritten hfail]
    decide
  · have hanswer := (hall loopbackOnly (some leftover)).answer
    rw [hleft, hlo] at hanswer
    cases hanswer

end HttpServer
end Kbms
