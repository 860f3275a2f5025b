import Mathlib.Algebra.GroupWithZero.Nat
import Mathlib.Tactic.Common
import Kbms.Utils.HttpCurl

/-! # The callbacks of a transfer

curl takes the body of an upload in pieces from `ReadCallback`, and hands the body of the
response in pieces to `WriteCallback`. The sizes of the pieces are chosen by curl.
-/
namespace Kbms

/-- The content of a `std::string`. Its size is at most `max_size()`. -/
structure StdString where
  bytes : List UInt8
  size_lt : bytes.length < 2^63

def StdString.empty : StdString := ⟨[],by decide⟩

/-- The product of two values of `size_t`. -/
def sizeMul (size nmemb : ℕ) : ℕ := size * nmemb % 2^64

/-- `PutDataStruct`: `data` points into `buffer`, and `length` bytes are left from there. -/
structure PutDataStruct where
  buffer : List UInt8
  data : ℕ
  length : ℕ
  inside : data + length ≤ buffer.length

namespace PutDataStruct

/-- The region that `data` and `length` describe. -/
def rest (u : PutDataStruct) : List UInt8 := (u.buffer.drop u.data).take u.length

/-- The number of bytes that `ReadCallback` copies. -/
def copySize (u : PutDataStruct) (curlSize : ℕ) : ℕ := if u.length < curlSize then u.length else curlSize

theorem copySize_eq (u : PutDataStruct) (curlSize : ℕ) : u.copySize curlSize = min u.length curlSize := by
  rw [copySize]
  split <;> omega

/-- The struct that `Put` initialises: `c_str()` is the content with a terminating NUL. -/
def put (data : StdString) : PutDataStruct where
  buffer := data.bytes ++ [0]
  data := 0
  length := data.bytes.length
  inside := by simp

/-- `CURLOPT_INFILESIZE`: the length as an `int64_t`. -/
def infileSize (u : PutDataStruct) : ℤ := Int.bmod u.length (2^64)

end PutDataStruct

/-- What `ReadCallback` has copied, what it returns, and the struct after it. -/
structure ReadResult where
  copied : List UInt8
  returned : ℕ
  after : PutDataStruct

def readCallback (size nmemb : ℕ) (u : PutDataStruct) : ReadResult where
  copied := (u.buffer.drop u.data).take (u.copySize (sizeMul size nmemb))
  returned := u.copySize (sizeMul size nmemb)
  after :=
    { buffer := u.buffer
      data := u.data + u.copySize (sizeMul size nmemb)
      length := u.length - u.copySize (sizeMul size nmemb)
      inside := by
        have := u.inside
        rw [PutDataStruct.copySize_eq]
        omega }

/-- A call of a callback with a buffer of `size * nmemb` bytes. -/
structure Buffer where
  size : ℕ
  nmemb : ℕ
  fits : size * nmemb < 2^64

namespace Buffer

def capacity (b : Buffer) : ℕ := b.size * b.nmemb

theorem sizeMul_eq (b : Buffer) : sizeMul b.size b.nmemb = b.capacity := Nat.mod_eq_of_lt b.fits

end Buffer

/-- A sequence of calls of `ReadCallback`: what each of them has copied, and the struct. -/
def readAll : PutDataStruct → List Buffer → List (List UInt8) × PutDataStruct
  | u, [] => ([],u)
  | u, b :: bs =>
    let r := readCallback b.size b.nmemb u
    (r.copied :: (readAll r.after bs).1,(readAll r.after bs).2)

/-- `WriteCallback`: the response after it and what it returns. -/
def writeCallback (data : List UInt8) (size nmemb : ℕ) (r : HttpResponse) : HttpResponse × ℕ :=
  ({ r with body := r.body ++ data.take (sizeMul size nmemb) },sizeMul size nmemb)

/-- A piece of a body in a buffer that it fills. -/
structure Piece extends Buffer where
  bytes : List UInt8
  full : bytes.length = size * nmemb

def writeAll (r : HttpResponse) (ps : List Piece) : HttpResponse :=
  ps.foldl (fun r p => (writeCallback p.bytes p.size p.nmemb r).1) r

section Reading
variable {u : PutDataStruct} {b : Buffer} {bs : List Buffer} {data : StdString}

theorem copySize_buffer (u : PutDataStruct) (b : Buffer) :
    u.copySize (sizeMul b.size b.nmemb) = min u.length b.capacity := by
  rw [PutDataStruct.copySize_eq, b.sizeMul_eq]

theorem readCallback_returned (u : PutDataStruct) (b : Buffer) :
    (readCallback b.size b.nmemb u).returned = min u.length b.capacity := copySize_buffer u b

theorem readCallback_length (u : PutDataStruct) (b : Buffer) :
    (readCallback b.size b.nmemb u).after.length = u.length - min u.length b.capacity :=
  congrArg (u.length - ·) (copySize_buffer u b)

theorem rest_length (u : PutDataStruct) : u.rest.length = u.length := by
  have := u.inside
  rw [PutDataStruct.rest, List.length_take, List.length_drop]
  omega

theorem copied_length (u : PutDataStruct) (b : Buffer) :
    (readCallback b.size b.nmemb u).copied.length = (readCallback b.size b.nmemb u).returned := by
  have := u.inside
  simp only [readCallback, List.length_take, List.length_drop, PutDataStruct.copySize_eq]
  omega

/-- The pointer and the length move in step. -/
theorem copied_append_rest (u : PutDataStruct) (b : Buffer) :
    (readCallback b.size b.nmemb u).copied ++ (readCallback b.size b.nmemb u).after.rest = u.rest := by
  have hle : u.copySize (sizeMul b.size b.nmemb) ≤ u.length := by
    rw [PutDataStruct.copySize_eq]
    omega
  generalize hn : u.copySize (sizeMul b.size b.nmemb) = n at hle
  simp only [readCallback, PutDataStruct.rest, hn]
  rw [← List.drop_drop, ← List.take_add, Nat.add_sub_cancel' hle]

theorem put_rest (data : StdString) : (PutDataStruct.put data).rest = data.bytes := by
  simp [PutDataStruct.put,PutDataStruct.rest]

/-- What has been handed out and what is left are the whole, after any calls. -/
theorem readAll_append_rest (u : PutDataStruct) (bs : List Buffer) :
    (readAll u bs).1.flatten ++ (readAll u bs).2.rest = u.rest := by
  induction bs generalizing u with
  | nil => rfl
  | cons b bs ih =>
    rw [readAll, List.flatten_cons, List.append_assoc, ih]
    exact copied_append_rest u b

theorem readAll_length (u : PutDataStruct) (bs : List Buffer) :
    (readAll u bs).2.length = u.length - (bs.map Buffer.capacity).sum := by
  induction bs generalizing u with
  | nil => simp [readAll]
  | cons b bs ih =>
    rw [readAll, ih, readCallback_length, List.map_cons, List.sum_cons]
    omega

theorem put_infileSize (data : StdString) : (PutDataStruct.put data).infileSize = data.bytes.length := by
  have := data.size_lt
  exact Int.bmod_eq_of_le (by omega) (by change (data.bytes.length : ℤ) < _; omega)

/-- A call with buffer `b` after `sent` has been handed out. -/
structure ReadOk (data : StdString) (sent : List UInt8) (u : PutDataStruct) (b : Buffer) (r : ReadResult) : Prop where
  returned : r.returned = r.copied.length
  le_capacity : r.returned ≤ b.capacity
  le_rest : r.returned ≤ u.length
  ends : 0 < b.capacity → (r.returned = 0 ↔ sent = data.bytes)

/-- The upload of `data` in the calls `bs`, and any further call. -/
structure Uploads (data : StdString) (bs : List Buffer) (sent : List UInt8) (u : PutDataStruct) : Prop where
  split : sent ++ u.rest = data.bytes
  call : ∀ b, ReadOk data sent u b (readCallback b.size b.nmemb u)
  whole : data.bytes.length ≤ (bs.map Buffer.capacity).sum →
    sent = data.bytes ∧ (sent.length : ℤ) = (PutDataStruct.put data).infileSize

theorem sent_eq_iff {sent : List UInt8} (h : sent ++ u.rest = data.bytes) : sent = data.bytes ↔ u.length = 0 := by
  rw [← rest_length, List.length_eq_zero_iff, ← h]
  exact List.self_eq_append_right

theorem uploads (data : StdString) (bs : List Buffer) :
    Uploads data bs (readAll (.put data) bs).1.flatten (readAll (.put data) bs).2 := by
  have hsplit := (readAll_append_rest (.put data) bs).trans (put_rest data)
  refine ⟨hsplit,fun b => ?_,fun hcap => ?_⟩
  · have hret := readCallback_returned (readAll (.put data) bs).2 b
    refine ⟨(copied_length _ b).symm,by omega,by omega,fun hpos => ?_⟩
    rw [sent_eq_iff hsplit]
    omega
  · have hlen := readAll_length (.put data) bs
    have hsent : (readAll (.put data) bs).1.flatten = data.bytes := by
      rw [sent_eq_iff hsplit, hlen]
      change data.bytes.length - _ = 0
      omega
    exact ⟨hsent,by rw [hsent, put_infileSize]⟩

end Reading

section Writing
variable {r : HttpResponse}

theorem writeCallback_piece (r : HttpResponse) (p : Piece) :
    writeCallback p.bytes p.size p.nmemb r = ({ r with body := r.body ++ p.bytes },p.bytes.length) := by
  have hsize : sizeMul p.size p.nmemb = p.bytes.length := (Nat.mod_eq_of_lt p.fits).trans p.full.symm
  rw [writeCallback, hsize, List.take_length]

theorem writeAll_body (r : HttpResponse) (ps : List Piece) :
    (writeAll r ps).body = r.body ++ (ps.map Piece.bytes).flatten := by
  induction ps generalizing r with
  | nil => simp [writeAll]
  | cons p ps ih =>
    rw [writeAll, List.foldl_cons, writeCallback_piece]
    exact (ih _).trans (by simp)

/-- Both directions, for all bodies and all ways in which curl cuts them. -/
theorem callbacks_keep_stream (data : StdString) :
    (∀ bs, Uploads data bs (readAll (.put data) bs).1.flatten (readAll (.put data) bs).2) ∧
    ∀ r : HttpResponse, r.body = [] → ∀ ps : List Piece, (ps.map Piece.bytes).flatten = data.bytes →
      (writeAll r ps).body = data.bytes ∧
      ∀ p ∈ ps, ∀ r, (writeCallback p.bytes p.size p.nmemb r).2 = p.bytes.length := by
  refine ⟨uploads data,fun r hr ps hps => ⟨?_,fun p _ r => ?_⟩⟩
  · rw [writeAll_body, hr, List.nil_append, hps]
  · rw [writeCallback_piece]

end Writing

/-- Four bytes through buffers of three and of two. -/
example : readAll (.put ⟨[1,2,3,4],by decide⟩) [⟨1,3,by decide⟩,⟨1,2,by decide⟩] =
    ([[1,2,3],[4]],⟨[1,2,3,4,0],4,0,by decide⟩) := by
  rfl

end Kbms
