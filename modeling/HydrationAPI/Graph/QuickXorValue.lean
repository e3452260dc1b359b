import HydrationAPI.Graph.Access
import HydrationAPI.Lib.Bytes
import Mathlib.Tactic.Ring

/-!
# The hash by its definition

The hash of the service as a value of 160 bits: every byte turned to its place and xored in, the
length xored into the highest eight bytes, and the text that is the value in base 64. The writer
that keeps twenty bytes and a count while the bytes pass arrives at the same, whatever the writer
behind it takes of each write.
-/

namespace HydrationAPI.Graph

/-! ## The definition -/

/-- A byte at the place that its number gives it. -/
def placed (byte : UInt8) (i : ℕ) : BitVec 160 :=
  (byte.toBitVec.setWidth 160).rotateLeft (11 * i % 160)

/-- All bytes, each at its place. -/
def xored (bytes : List UInt8) : BitVec 160 :=
  bytes.zipIdx.foldl (fun v b ↦ v ^^^ placed b.1 b.2) 0

/-- The 160-bit value: the length goes into the last eight bytes. -/
def quickXorValue (bytes : List UInt8) : BitVec 160 :=
  xored bytes ^^^ (BitVec.ofNat 64 bytes.length).setWidth 160 <<< 96

/-- Twenty bytes in base 64: the 160 bits and two more are twenty-seven digits, and a filler. -/
def textOf (bytes : List UInt8) : String :=
  String.ofList ((List.range 27).map (fun i ↦ base64Char (4 * Bytes.number bytes / 64 ^ (26 - i)))
    ++ ['='])

/-- The hash of these bytes. -/
def quickXor (bytes : List UInt8) : String := textOf (Bytes.ofBits 20 (quickXorValue bytes))

/-! ## The writer -/

/-- A writer that another one writes through to: it reports no more than it was given. -/
structure InnerWriter (σ : Type*) where
  write : σ → List UInt8 → Except IoError ℕ × σ
  reports : ∀ s buf n, (write s buf).1 = .ok n → n ≤ buf.length

namespace QuickXorWriter

variable {σ : Type*}

/-- `write`: what the inner writer has taken passes. -/
def writeThrough (inner : InnerWriter σ) (w : QuickXorWriter × σ) (buf : List UInt8) :
    Except IoError ℕ × QuickXorWriter × σ :=
  match inner.write w.2 buf with
  | (.ok written, s) => (.ok written, w.1.write (buf.take written), s)
  | (.error e, s) => (.error e, w.1, s)

/-- One write after the other, whatever becomes of each. -/
def stream (inner : InnerWriter σ) (w : QuickXorWriter × σ) (bufs : List (List UInt8)) :
    QuickXorWriter × σ :=
  bufs.foldl (fun w buf ↦ (writeThrough inner w buf).2) w

/-- `verify`. -/
def verify (w : QuickXorWriter) (expected : String) : Except IoError Unit :=
  if w.hash = expected then .ok ()
  else .error (invalidData "Graph content did not match its QuickXorHash")

end QuickXorWriter

/-- What the inner writer takes of one write after the other. -/
def InnerWriter.accepted {σ : Type*} (inner : InnerWriter σ) : σ → List (List UInt8) →
    List (List UInt8)
  | _, [] => []
  | s, buf :: bufs =>
    match inner.write s buf with
    | (.ok written, s) => buf.take written :: inner.accepted s bufs
    | (.error _, s) => inner.accepted s bufs

/-! ## A byte at its place -/

theorem xored_concat (bytes : List UInt8) (byte : UInt8) :
    xored (bytes ++ [byte]) = xored bytes ^^^ placed byte bytes.length := by
  rw [xored, List.zipIdx_append, List.foldl_append, Nat.zero_add]
  rfl

theorem getLsbD_byte (byte : UInt8) {k : ℕ} (hk : k < 160) :
    (byte.toBitVec.setWidth 160).getLsbD k = byte.toNat.testBit k := by
  rw [BitVec.getLsbD_setWidth, decide_eq_true hk, Bool.true_and]
  rfl

/-- A byte that is turned touches two cells, the second around the end where need be. -/
theorem getLsbD_rotated (byte : UInt8) {shift j : ℕ} (hshift : shift < 160) (hj : j < 160) :
    ((byte.toBitVec.setWidth 160).rotateLeft shift).getLsbD j
      = ((decide (j / 8 = shift / 8)
          && (byte.toNat * 2 ^ (shift % 8)).testBit (j % 8))
        ^^ (decide (j / 8 = (shift / 8 + 1) % 20)
          && (byte.toNat * 2 ^ (shift % 8)).testBit (j % 8 + 8))) := by
  rw [BitVec.getLsbD_rotateLeft_of_le hshift, Nat.testBit_mul_two_pow, Nat.testBit_mul_two_pow]
  by_cases hbelow : j < shift
  · -- turned around the end
    have hfirst : ¬ (j / 8 = shift / 8 ∧ shift % 8 ≤ j % 8) := by omega
    have hnone : (decide (j / 8 = shift / 8)
        && (decide (shift % 8 ≤ j % 8) && byte.toNat.testBit (j % 8 - shift % 8))) = false := by
      rw [← Bool.and_assoc, ← Bool.decide_and, decide_eq_false hfirst, Bool.false_and]
    have hreach : shift % 8 ≤ j % 8 + 8 := by omega
    rw [hnone, Bool.false_xor, decide_eq_true hbelow, cond_true, decide_eq_true hreach,
      Bool.true_and]
    by_cases hnext : j / 8 = (shift / 8 + 1) % 20
    · have hplace : 160 - shift + j = j % 8 + 8 - shift % 8 := by omega
      rw [decide_eq_true hnext, Bool.true_and, hplace]
      exact getLsbD_byte byte (by omega)
    · have hfar : 8 ≤ 160 - shift + j := by omega
      rw [decide_eq_false hnext, Bool.false_and, getLsbD_byte byte (by omega)]
      exact Bytes.testBit_ge byte hfar
  · rw [decide_eq_false hbelow, cond_false, decide_eq_true hj, Bool.true_and,
      getLsbD_byte byte (by omega)]
    by_cases hcell : j / 8 = shift / 8
    · have hplace : shift % 8 ≤ j % 8 := by omega
      have hother : j / 8 ≠ (shift / 8 + 1) % 20 := by omega
      have hbit : j - shift = j % 8 - shift % 8 := by omega
      rw [decide_eq_true hcell, decide_eq_true hplace, decide_eq_false hother, Bool.true_and,
        Bool.true_and, Bool.false_and, Bool.xor_false, hbit]
    · rw [decide_eq_false hcell, Bool.false_and, Bool.false_xor]
      by_cases hnext : j / 8 = (shift / 8 + 1) % 20
      · have hreach : shift % 8 ≤ j % 8 + 8 := by omega
        have hbit : j - shift = j % 8 + 8 - shift % 8 := by omega
        rw [decide_eq_true hnext, decide_eq_true hreach, Bool.true_and, Bool.true_and, hbit]
      · have hfar : 8 ≤ j - shift := by omega
        rw [decide_eq_false hnext, Bool.false_and]
        exact Bytes.testBit_ge byte hfar

namespace QuickXorWriter

/-- What the writer keeps of the bytes that have passed: their value, and how many they are. -/
structure Holds (w : QuickXorWriter) (bytes : List UInt8) : Prop where
  cells : w.digest.length = 20
  bits : ∀ j < 160, Bytes.bit w.digest j = (xored bytes).getLsbD j
  count : w.length = bytes.length

theorem holds_new : new.Holds [] where
  cells := rfl
  bits j _ := by
    have hzero : QuickXorWriter.new.digest.getD (j / 8) 0 = 0 := by
      rw [QuickXorWriter.new, List.getD_eq_getElem?_getD, List.getElem?_replicate]
      split <;> rfl
    rw [Bytes.bit, hzero, xored]
    exact (Nat.zero_testBit _).trans (BitVec.getLsbD_zero).symm
  count := rfl

theorem Holds.push {w : QuickXorWriter} {bytes : List UInt8} (h : w.Holds bytes) (byte : UInt8) :
    (w.push byte).Holds (bytes ++ [byte]) := by
  have hshift : w.length % 160 * 11 % 160 = 11 * bytes.length % 160 := by
    rw [h.count]
    omega
  have hlt : 11 * bytes.length % 160 < 160 := Nat.mod_lt _ (by decide)
  rw [QuickXorWriter.push, hshift]
  constructor
  case cells => rw [List.length_set, List.length_set, h.cells]
  case bits =>
    intro j hj
    rw [xored_concat, BitVec.getLsbD_xor, placed, getLsbD_rotated byte hlt hj, ← h.bits j hj]
    generalize 11 * bytes.length % 160 = shift at hlt
    generalize byte.toNat * 2 ^ (shift % 8) = value
    have hcell : shift / 8 < w.digest.length := by
      rw [h.cells]
      omega
    have hnext : (shift / 8 + 1) % 20 < (w.digest.set (shift / 8)
        (w.digest.getD (shift / 8) 0 ^^^ UInt8.ofNat (value % 256))).length := by
      rw [List.length_set, h.cells]
      exact Nat.mod_lt _ (by decide)
    have hplace : j % 8 < 8 := Nat.mod_lt _ (by decide)
    have hlow : (UInt8.ofNat (value % 256)).toNat.testBit (j % 8) = value.testBit (j % 8) := by
      have hbyte := Bytes.testBit_ofNat value hplace 0
      rwa [Nat.pow_zero, Nat.div_one, Nat.mul_zero, Nat.zero_add] at hbyte
    have hhigh : (UInt8.ofNat (value / 256)).toNat.testBit (j % 8)
        = value.testBit (j % 8 + 8) := by
      have hbyte := Bytes.testBit_ofNat value hplace 1
      rw [Nat.pow_one, Nat.mul_one, Nat.add_comm] at hbyte
      rw [← hbyte, UInt8.toNat_ofNat', UInt8.toNat_ofNat', Nat.mod_mod]
    rw [Bytes.bit_set_xor hnext, Bytes.bit_set_xor hcell, hlow, hhigh, Bool.xor_assoc]
  case count => rw [List.length_append, h.count, List.length_singleton]

theorem Holds.write {w : QuickXorWriter} {bytes : List UInt8} (h : w.Holds bytes)
    (more : List UInt8) : (w.write more).Holds (bytes ++ more) := by
  induction more generalizing w bytes with
  | nil => rwa [List.append_nil]
  | cons byte more ih =>
    rw [List.append_cons]
    exact ih (h.push byte)

/-- With the length xored in, the cells are the bytes of the value. -/
theorem Holds.bytes_eq {w : QuickXorWriter} {bytes : List UInt8} (h : w.Holds bytes) :
    w.digest.take 12 ++ List.zipWith (· ^^^ ·) (w.digest.drop 12) (leBytes w.length)
      = Bytes.ofBits 20 (quickXorValue bytes) := by
  have hle : (leBytes w.length).length = 8 := by rw [leBytes, List.length_map, List.length_range]
  have htake : (w.digest.take 12).length = 12 := by rw [List.length_take, h.cells]; rfl
  have hdrop : (w.digest.drop 12).length = 8 := by rw [List.length_drop, h.cells]
  have hzip : (List.zipWith (· ^^^ ·) (w.digest.drop 12) (leBytes w.length)).length = 8 := by
    rw [List.length_zipWith, hdrop, hle]
    rfl
  have hlength : (w.digest.take 12
      ++ List.zipWith (· ^^^ ·) (w.digest.drop 12) (leBytes w.length)).length = 20 := by
    rw [List.length_append, htake, hzip]
  refine Bytes.eq_of_bit (hlength.trans (Bytes.length_ofBits _ _).symm) fun j hj ↦ ?_
  rw [hlength] at hj
  rw [Bytes.bit_ofBits _ hj, quickXorValue, BitVec.getLsbD_xor, ← h.bits j hj,
    BitVec.getLsbD_shiftLeft, decide_eq_true (show j < 160 from hj), Bool.true_and]
  rw [Bytes.bit, Bytes.bit, List.getD_eq_getElem?_getD, List.getD_eq_getElem?_getD]
  by_cases hlow : j < 96
  · have hcell : j / 8 < 12 := by omega
    rw [List.getElem?_append_left (by rwa [htake]), List.getElem?_take_of_lt hcell,
      decide_eq_true hlow, Bool.not_true, Bool.false_and, Bool.xor_false]
  · have hcell : 12 ≤ j / 8 := by omega
    have hplace : j / 8 - 12 < 8 := by omega
    have hback : 12 + (j / 8 - 12) = j / 8 := by omega
    have hbit : 8 * (j / 8 - 12) + j % 8 = j - 96 := by omega
    have hcells : j / 8 < w.digest.length := by
      rw [h.cells]
      omega
    have hbyte : (leBytes w.length)[j / 8 - 12]?
        = some (UInt8.ofNat (w.length / 256 ^ (j / 8 - 12) % 256)) := by
      rw [leBytes, List.getElem?_map, List.getElem?_range hplace]
      rfl
    have hcount : ((BitVec.ofNat 64 bytes.length).setWidth 160).getLsbD (j - 96)
        = w.length.testBit (j - 96) := by
      rw [BitVec.getLsbD_setWidth, BitVec.getLsbD_ofNat, h.count,
        decide_eq_true (show j - 96 < 160 by omega), decide_eq_true (show j - 96 < 64 by omega),
        Bool.true_and, Bool.true_and]
    rw [List.getElem?_append_right (by rwa [htake]), htake, List.getElem?_zipWith,
      List.getElem?_drop, hback, hbyte, List.getElem?_eq_getElem hcells, decide_eq_false hlow,
      Bool.not_false, Bool.true_and, hcount]
    dsimp only [Option.getD_some]
    rw [UInt8.toNat_xor, Nat.testBit_xor, Bytes.testBit_ofNat _ (Nat.mod_lt _ (by decide)), hbit]

end QuickXorWriter

/-! ## The text -/

theorem four_mul_number (v r k : ℕ) :
    4 * (v * 256 ^ (3 * k + 2) + r) = 4 * r + v * 64 ^ (4 * k + 3) := by
  have hbytes : (256 : ℕ) ^ (3 * k + 2) = 2 ^ (8 * (3 * k + 2)) := by rw [Nat.pow_mul]
  have hdigits : (64 : ℕ) ^ (4 * k + 3) = 2 ^ (8 * (3 * k + 2)) * 4 := by
    have hexponent : 6 * (4 * k + 3) = 8 * (3 * k + 2) + 2 := by omega
    rw [show (64 : ℕ) = 2 ^ 6 by decide, ← Nat.pow_mul, hexponent, Nat.pow_add]
  rw [hbytes, hdigits]
  ring

/-- The four digits of the first three bytes. -/
theorem digit_first {v r k i : ℕ} (hr : 4 * r < 64 ^ (4 * k + 3)) (hi : i < 4) :
    4 * (v * 256 ^ (3 * k + 2) + r) / 64 ^ (4 * (k + 1) + 2 - i) = v / 64 ^ (3 - i) := by
  have hexponent : 4 * (k + 1) + 2 - i = 4 * k + 3 + (3 - i) := by omega
  rw [four_mul_number, hexponent, Nat.pow_add 64 (4 * k + 3), ← Nat.div_div_eq_div_mul,
    Nat.add_mul_div_right _ _ (Nat.pow_pos (by decide)), Nat.div_eq_of_lt hr, Nat.zero_add]

/-- The digits of the others. -/
theorem digit_rest {v r k i : ℕ} (hi : i < 4 * k + 3) :
    4 * (v * 256 ^ (3 * k + 2) + r) / 64 ^ (4 * k + 2 - i) % 64
      = 4 * r / 64 ^ (4 * k + 2 - i) % 64 := by
  have hexponent : 4 * k + 3 = (4 * k + 2 - i) + (i + 1) := by omega
  have hpow : v * 64 ^ (4 * k + 3) = v * 64 ^ i * 64 * 64 ^ (4 * k + 2 - i) := by
    rw [hexponent, Nat.pow_add, Nat.pow_succ]
    ring
  rw [four_mul_number, hpow, Nat.add_mul_div_right _ _ (Nat.pow_pos (by decide)),
    Nat.add_mul_mod_self_right]

theorem base64Char_congr {m n : ℕ} (h : m % 64 = n % 64) : base64Char m = base64Char n := by
  rw [base64Char, base64Char, h]

/-- **Three bytes at a time** come to the digits of the whole number. -/
theorem base64_eq (k : ℕ) (bytes : List UInt8) (h : bytes.length = 3 * k + 2) : base64 bytes
    = (List.range (4 * k + 3)).map
        (fun i ↦ base64Char (4 * Bytes.number bytes / 64 ^ (4 * k + 2 - i))) ++ ['='] := by
  induction k generalizing bytes with
  | zero =>
    obtain ⟨a, b, rfl⟩ := List.length_eq_two.mp h
    have hnumber : Bytes.number [a, b] = a.toNat * 256 + b.toNat := by
      simp [Bytes.number]
    have hrange : List.range (4 * 0 + 3) = [0, 1, 2] := rfl
    have hfirst : (a.toNat * 65536 + b.toNat * 256) / 262144
        = 4 * (a.toNat * 256 + b.toNat) / 64 ^ 2 := by omega
    have hsecond : (a.toNat * 65536 + b.toNat * 256) / 4096
        = 4 * (a.toNat * 256 + b.toNat) / 64 ^ 1 := by omega
    have hthird : (a.toNat * 65536 + b.toNat * 256) / 64
        = 4 * (a.toNat * 256 + b.toNat) / 64 ^ 0 := by omega
    rw [base64, hnumber, hrange, hfirst, hsecond, hthird]
    rfl
  | succ k ih =>
    obtain ⟨a, b, c, rest, rfl⟩ : ∃ a b c rest, bytes = a :: b :: c :: rest := by
      rcases bytes with _ | ⟨a, _ | ⟨b, _ | ⟨c, rest⟩⟩⟩
      · simp at h
      · simp at h
      · exact absurd h (by simp only [List.length_cons, List.length_nil]; omega)
      · exact ⟨a, b, c, rest, rfl⟩
    have hrest : rest.length = 3 * k + 2 := by
      simp only [List.length_cons] at h
      omega
    have hnumber : Bytes.number (a :: b :: c :: rest)
        = (a.toNat * 65536 + b.toNat * 256 + c.toNat) * 256 ^ (3 * k + 2)
          + Bytes.number rest := by
      rw [Bytes.number, Bytes.number, Bytes.number, List.length_cons, List.length_cons, hrest]
      ring
    have hsmall : 4 * Bytes.number rest < 64 ^ (4 * k + 3) := by
      have hlt := Bytes.number_lt rest
      have hpow := four_mul_number 1 0 k
      rw [hrest] at hlt
      omega
    have hrange : List.range (4 * (k + 1) + 3)
        = [0, 1, 2, 3] ++ (List.range (4 * k + 3)).map (4 + ·) := by
      have hsum : 4 * (k + 1) + 3 = 4 + (4 * k + 3) := by omega
      rw [hsum, List.range_add]
      rfl
    rw [base64, hnumber, hrange, List.map_append, List.map_map, List.append_assoc, ih rest hrest]
    generalize a.toNat * 65536 + b.toNat * 256 + c.toNat = value
    have hfour : ∀ i < 4, base64Char (4 * (value * 256 ^ (3 * k + 2) + Bytes.number rest)
        / 64 ^ (4 * (k + 1) + 2 - i)) = base64Char (value / 64 ^ (3 - i)) := fun i hi ↦ by
      rw [digit_first hsmall hi]
    have hothers : (List.range (4 * k + 3)).map
        ((fun i ↦ base64Char (4 * (value * 256 ^ (3 * k + 2) + Bytes.number rest)
          / 64 ^ (4 * (k + 1) + 2 - i))) ∘ (4 + ·))
        = (List.range (4 * k + 3)).map
          (fun i ↦ base64Char (4 * Bytes.number rest / 64 ^ (4 * k + 2 - i))) := by
      refine List.map_congr_left fun i hi ↦ base64Char_congr ?_
      have hexponent : 4 * (k + 1) + 2 - (4 + i) = 4 * k + 2 - i := by omega
      rw [hexponent]
      exact digit_rest (List.mem_range.mp hi)
    rw [hothers]
    simp only [List.map_cons, List.map_nil, List.cons_append, List.nil_append]
    have hlast : value / 64 ^ (3 - 3) = value := Nat.div_one value
    rw [hfour 0 (by decide), hfour 1 (by decide), hfour 2 (by decide), hfour 3 (by decide), hlast]
    rfl

namespace QuickXorWriter

/-- The text of the value. -/
theorem Holds.hash_eq {w : QuickXorWriter} {bytes : List UInt8} (h : w.Holds bytes) :
    w.hash = quickXor bytes := by
  have hbase64 := base64_eq 6 _ (Bytes.length_ofBits 20 (quickXorValue bytes))
  rw [QuickXorWriter.hash, h.bytes_eq, hbase64]
  rfl

/-! ## What passes the writer -/

variable {σ : Type*}

/-- No more passes than the inner writer takes. -/
theorem stream_eq (inner : InnerWriter σ) (w : QuickXorWriter) (s : σ)
    (bufs : List (List UInt8)) :
    (stream inner (w, s) bufs).1 = (inner.accepted s bufs).foldl QuickXorWriter.write w := by
  induction bufs generalizing w s with
  | nil => rfl
  | cons buf bufs ih =>
    rw [stream, List.foldl_cons, writeThrough, InnerWriter.accepted]
    dsimp only
    cases inner.write s buf with
    | mk result s' =>
      cases result with
      | ok written => exact ih (w.write (buf.take written)) s'
      | error e => exact ih w s'

end QuickXorWriter

theorem quickxorOf_eq (bytes : List UInt8) : quickxorOf bytes = quickXor bytes :=
  (QuickXorWriter.holds_new.write bytes).hash_eq

/-- **The streamed hash is the hash by its definition**, of what the inner writer has taken of any
row of writes, and is all that is accepted for it. -/
theorem stream_quickXor {σ : Type*} (inner : InnerWriter σ) (s : σ) (bufs : List (List UInt8)) :
    let w := (QuickXorWriter.stream inner (.new, s) bufs).1
    let bytes := (inner.accepted s bufs).flatten
    w.hash = quickxorOf bytes ∧ quickxorOf bytes = quickXor bytes
      ∧ ∀ expected, w.verify expected = .ok () ↔ expected = quickXor bytes := by
  have hhash : (QuickXorWriter.stream inner (.new, s) bufs).1.hash
      = quickxorOf (inner.accepted s bufs).flatten := by
    rw [QuickXorWriter.stream_eq, QuickXorWriter.foldl_write]
    rfl
  refine ⟨hhash, quickxorOf_eq _, fun expected ↦ ?_⟩
  rw [QuickXorWriter.verify, hhash, quickxorOf_eq]
  split
  · rename_i heq
    exact iff_of_true rfl heq.symm
  · rename_i hne
    exact iff_of_false nofun fun heq ↦ hne heq.symm

end HydrationAPI.Graph
