import Mathlib.Data.UInt
import Mathlib.Data.List.Basic

/-!
# The hash of the service

The 160-bit QuickXorHash, as it is computed while the bytes of an object pass through: every byte
is xored into the digest eleven bits further on than the one before, around the end of it, and the
length is xored into its last eight bytes.
-/

namespace HydrationAPI.Graph

/-- The digest so far, of twenty bytes, and how many bytes have passed. -/
structure QuickXorWriter where
  digest : List UInt8
  length : ℕ
  deriving DecidableEq

namespace QuickXorWriter

def new : QuickXorWriter := ⟨List.replicate 20 0, 0⟩

/-- One byte passes. -/
def push (w : QuickXorWriter) (byte : UInt8) : QuickXorWriter :=
  let shift := w.length % 160 * 11 % 160
  let value := byte.toNat * 2 ^ (shift % 8)
  let cell := shift / 8
  let next := (cell + 1) % 20
  let digest := w.digest.set cell (w.digest.getD cell 0 ^^^ UInt8.ofNat (value % 256))
  ⟨digest.set next (digest.getD next 0 ^^^ UInt8.ofNat (value / 256)), w.length + 1⟩

def write (w : QuickXorWriter) (bytes : List UInt8) : QuickXorWriter := bytes.foldl push w

/-- **It does not matter how the bytes are cut up.** -/
theorem foldl_write (w : QuickXorWriter) (pieces : List (List UInt8)) :
    pieces.foldl write w = w.write pieces.flatten := by
  rw [write, List.foldl_flatten]
  rfl

end QuickXorWriter

/-- `to_le_bytes` of a `u64`. -/
def leBytes (n : ℕ) : List UInt8 :=
  (List.range 8).map fun i ↦ UInt8.ofNat (n / 256 ^ i % 256)

def base64Alphabet : List Char :=
  "ABCDEFGHIJKLMNOPQRSTUVWXYZabcdefghijklmnopqrstuvwxyz0123456789+/".toList

def base64Char (value : ℕ) : Char := base64Alphabet.getD (value % 64) '='

/-- Three bytes at a time, padded. -/
def base64 : List UInt8 → List Char
  | a :: b :: c :: rest =>
    let value := a.toNat * 65536 + b.toNat * 256 + c.toNat
    base64Char (value / 262144) :: base64Char (value / 4096) :: base64Char (value / 64)
      :: base64Char value :: base64 rest
  | [a, b] =>
    let value := a.toNat * 65536 + b.toNat * 256
    [base64Char (value / 262144), base64Char (value / 4096), base64Char (value / 64), '=']
  | [a] =>
    let value := a.toNat * 65536
    [base64Char (value / 262144), base64Char (value / 4096), '=', '=']
  | [] => []

namespace QuickXorWriter

/-- The hash of what has passed, in the form the service reports it. -/
def hash (w : QuickXorWriter) : String :=
  String.ofList (base64 (w.digest.take 12
    ++ List.zipWith (· ^^^ ·) (w.digest.drop 12) (leBytes w.length)))

end QuickXorWriter

/-- QuickXorHash of a whole buffer, in the form the service reports it. -/
def quickxorOf (bytes : List UInt8) : String := (QuickXorWriter.new.write bytes).hash

theorem base64_ne_nil {bytes : List UInt8} (h : bytes ≠ []) : base64 bytes ≠ [] := by
  match bytes with
  | [_] | [_, _] | _ :: _ :: _ :: _ => exact List.cons_ne_nil _ _

namespace QuickXorWriter

theorem length_digest_write (w : QuickXorWriter) (bytes : List UInt8) :
    (w.write bytes).digest.length = w.digest.length := by
  induction bytes generalizing w with
  | nil => rfl
  | cons byte bytes ih =>
    refine (ih (w.push byte)).trans ?_
    rw [push, List.length_set, List.length_set]

end QuickXorWriter

/-- There is always a hash. -/
theorem quickxorOf_ne_empty (bytes : List UInt8) : quickxorOf bytes ≠ "" := by
  intro h
  have hlength := QuickXorWriter.length_digest_write .new bytes
  rw [quickxorOf, QuickXorWriter.hash] at h
  refine base64_ne_nil (fun hnil ↦ ?_) (String.ofList_injective h)
  have htake := congrArg List.length (List.append_eq_nil_iff.mp hnil).1
  rw [List.length_take, hlength] at htake
  cases htake

/-- The hash of nothing is all zeros. -/
example : quickxorOf [] = "AAAAAAAAAAAAAAAAAAAAAAAAAAA=" := by decide

end HydrationAPI.Graph
