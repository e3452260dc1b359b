import Mathlib.Data.List.Basic
import Mathlib.Data.Nat.Bitwise
import Mathlib.Data.UInt

/-!
# The bits of a row of bytes

The bits are counted from the lowest of the first byte on, so that a row of bytes is a bit vector,
the first byte lowest. Xoring a byte into one of the row touches the bits of that byte. Read the
other way, the first byte highest, a row of bytes is a number.

A number of fixed width lies in memory in the byte order of the machine. Nothing here depends on
which of the two that is, so it is a parameter.
-/

namespace Bytes

def bit (bytes : List UInt8) (j : ℕ) : Bool := (bytes.getD (j / 8) 0).toNat.testBit (j % 8)

/-- The bytes of a bit vector, the lowest first. -/
def ofBits {w : ℕ} (n : ℕ) (v : BitVec w) : List UInt8 :=
  (List.range n).map fun i ↦ UInt8.ofNat (v.toNat / 256 ^ i % 256)

/-- The number whose digits the bytes are, the highest first. -/
def number : List UInt8 → ℕ
  | [] => 0
  | b :: bytes => b.toNat * 256 ^ bytes.length + number bytes

theorem testBit_ge (b : UInt8) {k : ℕ} (hk : 8 ≤ k) : b.toNat.testBit k = false :=
  Nat.testBit_lt_two_pow (b.toNat_lt.trans_le (Nat.pow_le_pow_right Nat.zero_lt_two hk))

/-- One byte of a number. -/
theorem testBit_ofNat (n : ℕ) {k : ℕ} (hk : k < 8) (i : ℕ) :
    (UInt8.ofNat (n / 256 ^ i % 256)).toNat.testBit k = n.testBit (8 * i + k) := by
  have hbyte : (UInt8.ofNat (n / 256 ^ i % 256)).toNat = n / 2 ^ (8 * i) % 2 ^ 8 := by
    rw [UInt8.toNat_ofNat', Nat.pow_mul]
    exact Nat.mod_mod _ _
  rw [hbyte, Nat.testBit_mod_two_pow, Nat.testBit_div_two_pow, decide_eq_true hk, Bool.true_and,
    Nat.add_comm]

theorem length_ofBits {w : ℕ} (n : ℕ) (v : BitVec w) : (ofBits n v).length = n := by
  rw [ofBits, List.length_map, List.length_range]

theorem bit_ofBits {w n j : ℕ} (v : BitVec w) (hj : j < 8 * n) :
    bit (ofBits n v) j = v.getLsbD j := by
  have hlt : j / 8 < n := by omega
  have hbyte : (ofBits n v).getD (j / 8) 0 = UInt8.ofNat (v.toNat / 256 ^ (j / 8) % 256) := by
    rw [ofBits, List.getD_eq_getElem?_getD, List.getElem?_map, List.getElem?_range hlt]
    rfl
  rw [bit, hbyte, testBit_ofNat _ (Nat.mod_lt _ (by decide)), Nat.div_add_mod]
  rfl

/-- Rows of the same length with the same bits are the same. -/
theorem eq_of_bit {a b : List UInt8} (hlength : a.length = b.length)
    (h : ∀ j < 8 * a.length, bit a j = bit b j) : a = b := by
  refine List.ext_getElem hlength fun i ha hb ↦ ?_
  refine UInt8.toNat_inj.mp (Nat.eq_of_testBit_eq fun k ↦ ?_)
  by_cases hk : k < 8
  · have hbit := h (8 * i + k) (by omega)
    have hcell : (8 * i + k) / 8 = i := by omega
    have hplace : (8 * i + k) % 8 = k := by omega
    rw [bit, bit, hcell, hplace, List.getD_eq_getElem _ _ ha, List.getD_eq_getElem _ _ hb] at hbit
    exact hbit
  · rw [testBit_ge _ (Nat.not_lt.mp hk), testBit_ge _ (Nat.not_lt.mp hk)]

/-- Xoring a byte into one of the row touches its bits. -/
theorem bit_set_xor {bytes : List UInt8} {i : ℕ} (hi : i < bytes.length) (b : UInt8) (j : ℕ) :
    bit (bytes.set i (bytes.getD i 0 ^^^ b)) j
      = (bit bytes j ^^ (decide (j / 8 = i) && b.toNat.testBit (j % 8))) := by
  rw [bit, bit, List.getD_eq_getElem?_getD, List.getElem?_set]
  by_cases hj : i = j / 8
  · rw [if_pos hj, if_pos hi, decide_eq_true hj.symm, Bool.true_and, ← hj, Option.getD_some,
      UInt8.toNat_xor, Nat.testBit_xor]
  · rw [if_neg hj, decide_eq_false fun h ↦ hj h.symm, Bool.false_and, Bool.xor_false,
      List.getD_eq_getElem?_getD]

theorem number_lt (bytes : List UInt8) : number bytes < 256 ^ bytes.length := by
  induction bytes with
  | nil => exact Nat.one_pos
  | cons b bytes ih =>
    have hb : b.toNat + 1 ≤ 256 := b.toNat_lt
    calc number (b :: bytes) < b.toNat * 256 ^ bytes.length + 256 ^ bytes.length :=
          Nat.add_lt_add_left ih _
      _ = (b.toNat + 1) * 256 ^ bytes.length := (Nat.succ_mul _ _).symm
      _ ≤ 256 * 256 ^ bytes.length := Nat.mul_le_mul_right _ hb
      _ = 256 ^ (b :: bytes).length := (Nat.pow_succ').symm

/-! ## Numbers of a fixed width -/

/-- The bytes of a number, the highest first. -/
def ofNumber : ℕ → ℕ → List UInt8
  | 0, _ => []
  | w + 1, n => UInt8.ofNat (n / 256 ^ w % 256) :: ofNumber w n

theorem length_ofNumber (w n : ℕ) : (ofNumber w n).length = w := by
  induction w with
  | zero => rfl
  | succ w ih => rw [ofNumber, List.length_cons, ih]

theorem number_ofNumber (w n : ℕ) : number (ofNumber w n) = n % 256 ^ w := by
  induction w with
  | zero => exact (Nat.mod_one n).symm
  | succ w ih =>
    have hbyte : (UInt8.ofNat (n / 256 ^ w % 256)).toNat = n / 256 ^ w % 256 := by
      rw [UInt8.toNat_ofNat']
      exact Nat.mod_mod _ _
    rw [ofNumber, number, hbyte, length_ofNumber, ih, Nat.pow_succ, Nat.mod_mul, Nat.mul_comm,
      Nat.add_comm]

/-- Which byte of a number lies first in memory. -/
inductive Endian where
  | little
  | big

namespace Endian

variable (e : Endian)

def number (bytes : List UInt8) : ℕ :=
  match e with
  | little => Bytes.number bytes.reverse
  | big => Bytes.number bytes

def ofNumber (w n : ℕ) : List UInt8 :=
  match e with
  | little => (Bytes.ofNumber w n).reverse
  | big => Bytes.ofNumber w n

@[simp] theorem length_ofNumber (w n : ℕ) : (e.ofNumber w n).length = w := by
  cases e with
  | little => exact (List.length_reverse).trans (Bytes.length_ofNumber w n)
  | big => exact Bytes.length_ofNumber w n

theorem number_ofNumber (w n : ℕ) : e.number (e.ofNumber w n) = n % 256 ^ w := by
  cases e with
  | little => rw [ofNumber, number, List.reverse_reverse, Bytes.number_ofNumber]
  | big => exact Bytes.number_ofNumber w n

/-! `from_ne_bytes` and `to_ne_bytes`, for the types that are read here. -/

def u16 (bytes : List UInt8) : UInt16 := UInt16.ofNat (e.number bytes)
def u32 (bytes : List UInt8) : UInt32 := UInt32.ofNat (e.number bytes)
def u64 (bytes : List UInt8) : UInt64 := UInt64.ofNat (e.number bytes)
def i32 (bytes : List UInt8) : Int32 := (e.u32 bytes).toInt32

def ofU16 (n : UInt16) : List UInt8 := e.ofNumber 2 n.toNat
def ofU32 (n : UInt32) : List UInt8 := e.ofNumber 4 n.toNat
def ofU64 (n : UInt64) : List UInt8 := e.ofNumber 8 n.toNat
def ofI32 (n : Int32) : List UInt8 := e.ofU32 n.toUInt32

@[simp] theorem length_ofU16 (n : UInt16) : (e.ofU16 n).length = 2 := e.length_ofNumber 2 _
@[simp] theorem length_ofU32 (n : UInt32) : (e.ofU32 n).length = 4 := e.length_ofNumber 4 _
@[simp] theorem length_ofU64 (n : UInt64) : (e.ofU64 n).length = 8 := e.length_ofNumber 8 _
@[simp] theorem length_ofI32 (n : Int32) : (e.ofI32 n).length = 4 := e.length_ofU32 _

@[simp] theorem u16_ofU16 (n : UInt16) : e.u16 (e.ofU16 n) = n := by
  have hlt : n.toNat < 256 ^ 2 := n.toNat_lt
  rw [u16, ofU16, number_ofNumber, Nat.mod_eq_of_lt hlt, UInt16.ofNat_toNat]

@[simp] theorem u32_ofU32 (n : UInt32) : e.u32 (e.ofU32 n) = n := by
  have hlt : n.toNat < 256 ^ 4 := n.toNat_lt
  rw [u32, ofU32, number_ofNumber, Nat.mod_eq_of_lt hlt, UInt32.ofNat_toNat]

@[simp] theorem u64_ofU64 (n : UInt64) : e.u64 (e.ofU64 n) = n := by
  have hlt : n.toNat < 256 ^ 8 := n.toNat_lt
  rw [u64, ofU64, number_ofNumber, Nat.mod_eq_of_lt hlt, UInt64.ofNat_toNat]

@[simp] theorem i32_ofI32 (n : Int32) : e.i32 (e.ofI32 n) = n := by
  rw [i32, ofI32, u32_ofU32]
  rfl

end Endian

/-! ## A stretch of a row -/

/-- The `n` bytes from `start` on. -/
def slice (bytes : List UInt8) (start n : ℕ) : List UInt8 := (bytes.drop start).take n

@[simp] theorem slice_cons_succ (b : UInt8) (bytes : List UInt8) (start n : ℕ) :
    slice (b :: bytes) (start + 1) n = slice bytes start n := rfl

@[simp] theorem slice_cons_zero (b : UInt8) (bytes : List UInt8) (n : ℕ) :
    slice (b :: bytes) 0 (n + 1) = b :: slice bytes 0 n := rfl

/-- What begins behind the first part is in the second. -/
theorem slice_append_of_le {a : List UInt8} {start : ℕ} (h : a.length ≤ start) (b : List UInt8)
    (n : ℕ) : slice (a ++ b) start n = slice b (start - a.length) n := by
  rw [slice, slice, List.drop_append, List.drop_of_length_le h, List.nil_append]

theorem slice_append_of_length {a : List UInt8} {n : ℕ} (h : a.length = n) (b : List UInt8) :
    slice (a ++ b) 0 n = a := by
  rw [slice, List.drop_zero, List.take_left' h]

theorem slice_of_length {a : List UInt8} {n : ℕ} (h : a.length = n) : slice a 0 n = a := by
  rw [slice, List.drop_zero, List.take_of_length_le h.le]

/-- A stretch of a stretch. -/
theorem slice_of_slice {bytes b : List UInt8} {start n i k : ℕ} (h : slice bytes start n = b)
    (hk : i + k ≤ n) : slice bytes (start + i) k = slice b i k := by
  rw [← h, slice, slice, slice, List.drop_take, List.drop_drop, List.take_take,
    Nat.min_eq_left (Nat.le_sub_of_add_le' hk)]

end Bytes
