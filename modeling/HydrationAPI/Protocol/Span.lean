import Mathlib.Order.MinMax
import Mathlib.Order.Lattice
import Mathlib.Tactic.Ring

/-!
# Spans

The slice of an object that a transfer is responsible for, as both halves of the framework pass it
around: an offset and a length, with `u64` arithmetic that saturates where the source saturates.
-/

namespace HydrationAPI

/-- The largest `u64`. -/
def u64Max : ℕ := 2 ^ 64 - 1

/-- The largest object either half takes. -/
def maxObject : ℕ := 2 ^ 40

/-- `u64::saturating_add`. -/
def saturatingAdd (a b : ℕ) : ℕ := min (a + b) u64Max

theorem saturatingAdd_of_le {a b : ℕ} (h : a + b ≤ u64Max) : saturatingAdd a b = a + b :=
  min_eq_left h

/-- The slice of an object a transfer is responsible for. -/
structure Span where
  offset : ℕ
  len : ℕ
  deriving DecidableEq, Repr

namespace Span

/-- The span covering an entire object. -/
def whole (size : ℕ) : Span := ⟨0, size⟩

/-- One past the last byte. -/
def end' (s : Span) : ℕ := saturatingAdd s.offset s.len

def isEmpty (s : Span) : Bool := s.len == 0

/-- Whether this span is the whole of an object of `size` bytes. -/
def isWhole (s : Span) (size : ℕ) : Bool := s.offset == 0 && s.len == size

/-- Cut the span down to what actually exists. -/
def clampedTo (s : Span) (size : ℕ) : Span :=
  let offset := min s.offset size
  ⟨offset, min s.end' size - offset⟩

/-- The part of this span that is also in `other`, or `none` if they do not overlap. -/
def intersect (s other : Span) : Option Span :=
  let offset := max s.offset other.offset
  let stop := min s.end' other.end'
  if offset < stop then some ⟨offset, stop - offset⟩ else none

/-- The byte at position `x` belongs to the span. -/
def Mem (s : Span) (x : ℕ) : Prop := s.offset ≤ x ∧ x < s.end'

instance (s : Span) (x : ℕ) : Decidable (s.Mem x) := inferInstanceAs (Decidable (_ ∧ _))

/-! ## Spans inside an object

A span whose end does not exceed the size of an object has an exact end: the saturation in `end'`
is out of reach. -/

/-- The span lies inside an object of `size` bytes. -/
def Within (s : Span) (size : ℕ) : Prop := s.offset + s.len ≤ size

theorem Within.end'_eq {s : Span} {size : ℕ} (h : s.Within size) (hsize : size ≤ u64Max) :
    s.end' = s.offset + s.len :=
  saturatingAdd_of_le (le_trans h hsize)

theorem Within.end'_le {s : Span} {size : ℕ} (h : s.Within size) : s.end' ≤ size :=
  le_trans (min_le_left _ _) h

theorem within_of_end'_eq {a b size : ℕ} (hab : a ≤ b) (hb : b ≤ size) :
    (⟨a, b - a⟩ : Span).Within size := by
  rw [Within]
  dsimp only
  omega

theorem end'_mk_sub {a b : ℕ} (hab : a ≤ b) (hb : b ≤ u64Max) :
    (⟨a, b - a⟩ : Span).end' = b := by
  have hsum : a + (b - a) = b := Nat.add_sub_cancel' hab
  rw [end', saturatingAdd_of_le (by rw [hsum]; exact hb), hsum]

theorem within_clampedTo (s : Span) (size : ℕ) : (s.clampedTo size).Within size := by
  rw [Within, clampedTo]
  dsimp only
  omega

theorem mem_whole {x size : ℕ} (hsize : size ≤ u64Max) : (whole size).Mem x ↔ x < size := by
  simp [Mem, whole, end', saturatingAdd, hsize]

/-- Clamping keeps exactly the bytes that exist. -/
theorem mem_clampedTo {s : Span} {x size : ℕ} (hsize : size ≤ u64Max) :
    (s.clampedTo size).Mem x ↔ s.Mem x ∧ x < size := by
  have hend : (s.clampedTo size).end' = max (min s.offset size) (min s.end' size) := by
    rw [(within_clampedTo s size).end'_eq hsize, clampedTo]
    dsimp only
    omega
  rw [Mem, hend, Mem, clampedTo]
  dsimp only
  omega

theorem mem_of_intersect {s other only : Span} {x : ℕ} (h : s.intersect other = some only)
    (hx : only.Mem x) : s.Mem x ∧ other.Mem x := by
  rw [intersect] at h
  split at h
  · rw [Option.some_inj] at h
    subst h
    obtain ⟨h1, h2⟩ := hx
    have hle : (⟨max s.offset other.offset, min s.end' other.end' - max s.offset other.offset⟩ :
        Span).end' ≤ min s.end' other.end' := by
      rw [end', saturatingAdd]
      dsimp only
      omega
    dsimp only at h1
    exact ⟨⟨by omega, by omega⟩, ⟨by omega, by omega⟩⟩
  · simp at h

theorem mem_intersect_iff {s other only : Span} {x : ℕ} (h : s.intersect other = some only) :
    only.Mem x ↔ s.Mem x ∧ other.Mem x := by
  refine ⟨mem_of_intersect h, fun ⟨⟨h1, h2⟩, ⟨h3, h4⟩⟩ ↦ ?_⟩
  rw [intersect] at h
  split at h
  · rw [Option.some_inj] at h
    have hs : s.end' ≤ u64Max := min_le_right _ _
    rw [← h, Mem, end'_mk_sub (by omega) (by omega)]
    dsimp only
    omega
  · simp at h

theorem bounds_of_intersect {s other only : Span} (h : s.intersect other = some only) :
    s.offset ≤ only.offset ∧ 0 < only.len ∧ only.end' = only.offset + only.len := by
  rw [intersect] at h
  split at h
  · rename_i hlt
    rw [Option.some_inj] at h
    have hs : s.end' ≤ u64Max := min_le_right _ _
    have hend := end'_mk_sub hlt.le ((min_le_left s.end' other.end').trans hs)
    rw [← h]
    refine ⟨le_max_left _ _, Nat.sub_pos_of_lt hlt, ?_⟩
    rw [hend]
    dsimp only
    omega
  · simp at h

/-- A span inside another one is its intersection with it. -/
theorem intersect_eq_self {s other : Span} (hlen : 0 < s.len) (hend : s.end' = s.offset + s.len)
    (hoff : other.offset ≤ s.offset) (hstop : s.end' ≤ other.end') :
    s.intersect other = some s := by
  rw [intersect, max_eq_left hoff, min_eq_left hstop, if_pos (by omega), hend,
    Nat.add_sub_cancel_left]

/-- Two spans with a common byte have an intersection. -/
theorem not_mem_of_intersect_eq_none {s other : Span} {x : ℕ} (h : s.intersect other = none)
    (hs : s.Mem x) : ¬other.Mem x := by
  rintro ⟨h3, h4⟩
  obtain ⟨h1, h2⟩ := hs
  rw [intersect] at h
  split at h
  · simp at h
  · omega

theorem within_of_intersect {s other only : Span} {size : ℕ} (h : s.intersect other = some only)
    (hs : s.Within size) : only.Within size := by
  rw [intersect] at h
  split at h
  · rw [Option.some_inj] at h
    subst h
    have hle := hs.end'_le
    rw [Within]
    dsimp only
    omega
  · simp at h

end Span

end HydrationAPI
