import HydrationAPI.Lib.IntervalList
import HydrationAPI.Protocol.Span
import Mathlib.Data.List.AList
import Mathlib.Data.List.MinMax
import Mathlib.Algebra.BigOperators.Group.List.Basic

/-!
# What the worker has put into a placeholder that is not finished yet

The worker's memory of partly filled placeholders: a set of byte ranges for each file, kept sorted
and coalesced, and beside it the state of the file when the ranges were recorded. A record is
believed only while the file still looks the way it was left.

`Ranges` carries its invariant: the spans are separated, so whether a span is present is one
lookup and not a question about the union.
-/

namespace HydrationAPI

/-- Identifies a file without naming it. -/
structure FileId where
  fsid : ℕ
  ino : ℕ
  deriving DecidableEq, Repr

/-- Enough of a file's state to notice that somebody else changed it. -/
structure Witness where
  mtime : ℤ
  mtimeNsec : ℤ
  size : ℕ
  deriving DecidableEq, Repr

/-- A set of byte ranges `[start, end)`, sorted by start, no two touching. -/
structure Ranges where
  spans : List (ℕ × ℕ)
  separated : IntervalList.Separated spans

namespace Ranges

theorem ext {r q : Ranges} (h : r.spans = q.spans) : r = q := by
  cases r; cases q; cases h; rfl

instance : DecidableEq Ranges := fun r q ↦
  decidable_of_iff (r.spans = q.spans) ⟨ext, congrArg _⟩

/-- `Ranges::default`. -/
def empty : Ranges := ⟨[], IntervalList.separated_nil⟩

/-- The byte at `x` is in the set. -/
def Mem (r : Ranges) (x : ℕ) : Prop := IntervalList.Mem x r.spans

instance (r : Ranges) (x : ℕ) : Decidable (r.Mem x) :=
  inferInstanceAs (Decidable (IntervalList.Mem _ _))

theorem offset_le_end' {span : Span} (hoff : span.offset ≤ u64Max) :
    span.offset ≤ span.end' := by
  rw [Span.end', saturatingAdd]
  omega

/-- Insert the span where it belongs and merge once over the whole set. An offset above the range
of the type does not occur in the source and leaves the set alone. -/
def add (r : Ranges) (span : Span) : Ranges :=
  if h : span.isEmpty = false ∧ span.offset ≤ u64Max then
    ⟨IntervalList.insert span.offset span.end' r.spans,
      IntervalList.separated_insert (offset_le_end' h.2) r.separated⟩
  else r

/-- Whether every byte of `span` is already here. -/
def covers (r : Ranges) (span : Span) : Bool :=
  span.isEmpty || r.spans.any fun p ↦ decide (p.1 ≤ span.offset) && decide (span.end' ≤ p.2)

/-- The parts of `span` that are not here yet, in order. -/
def missing (r : Ranges) (span : Span) : List Span :=
  (IntervalList.gaps span.offset span.end' r.spans).map fun p ↦ ⟨p.1, p.2 - p.1⟩

/-- Total bytes held, for the log. -/
def total (r : Ranges) : ℕ := (r.spans.map fun p ↦ p.2 - p.1).sum

def isEmpty (r : Ranges) : Bool := r.spans.isEmpty

@[simp] theorem not_mem_empty (x : ℕ) : ¬empty.Mem x := by simp [Mem, empty]

/-- **Adding a span adds its bytes.** -/
theorem mem_add {r : Ranges} {span : Span} {x : ℕ} (hoff : span.offset ≤ u64Max) :
    (r.add span).Mem x ↔ span.Mem x ∨ r.Mem x := by
  rw [add]
  split
  · exact IntervalList.mem_insert r.separated
  · rename_i h
    have hlen : span.len = 0 := by simpa [hoff, Span.isEmpty] using h
    have hnone : ¬span.Mem x := by
      rw [Span.Mem, Span.end', saturatingAdd, hlen]
      omega
    simp [hnone]

/-- A span that is covered has all its bytes in the set. -/
theorem mem_of_covers {r : Ranges} {span : Span} (h : r.covers span = true) {x : ℕ}
    (hx : span.Mem x) : r.Mem x := by
  obtain ⟨h1, h2⟩ := hx
  rw [covers, Bool.or_eq_true] at h
  rcases h with h | h
  · have hlen : span.len = 0 := by simpa [Span.isEmpty] using h
    rw [Span.end', saturatingAdd, hlen] at h2
    omega
  · obtain ⟨p, hp, hcov⟩ := List.any_eq_true.mp h
    rw [Bool.and_eq_true, decide_eq_true_iff, decide_eq_true_iff] at hcov
    exact ⟨p, hp, hcov.1.trans h1, h2.trans_le hcov.2⟩

/-- A span of the type's range all of whose bytes are in the set is covered. -/
theorem covers_of_forall_mem {r : Ranges} {span : Span} (hend : span.offset + span.len ≤ u64Max)
    (h : ∀ x, span.Mem x → r.Mem x) : r.covers span = true := by
  have hend' : span.end' = span.offset + span.len := saturatingAdd_of_le hend
  rw [covers, Bool.or_eq_true]
  rcases Nat.eq_zero_or_pos span.len with hlen | hlen
  · exact Or.inl (by simp [Span.isEmpty, hlen])
  · obtain ⟨p, hp, h1, h2⟩ := IntervalList.exists_cover_of_forall_mem r.separated
      (show span.offset < span.end' by omega) fun x hx1 hx2 ↦ h x ⟨hx1, hx2⟩
    exact Or.inr (List.any_eq_true.mpr ⟨p, hp, by simp [h1, h2]⟩)

/-- Every missing part has a byte, lies inside the span asked about, and has an exact end. -/
theorem bounds_of_mem_missing {r : Ranges} {span s : Span} (h : s ∈ r.missing span) :
    span.offset ≤ s.offset ∧ 0 < s.len ∧ s.offset + s.len ≤ span.end'
      ∧ s.end' = s.offset + s.len := by
  obtain ⟨p, hp, rfl⟩ := List.mem_map.mp h
  obtain ⟨h1, h2, h3⟩ := IntervalList.bounds_of_mem_gaps p hp
  have hmax : span.end' ≤ u64Max := min_le_right _ _
  refine ⟨h1, by dsimp only; omega, by dsimp only; omega, ?_⟩
  exact saturatingAdd_of_le (by dsimp only; omega)

private theorem mem_missing_span {r : Ranges} {span : Span} {x : ℕ} :
    (∃ s ∈ r.missing span, s.Mem x)
      ↔ IntervalList.Mem x (IntervalList.gaps span.offset span.end' r.spans) := by
  constructor
  · rintro ⟨s, hs, hx1, hx2⟩
    have hend := (bounds_of_mem_missing hs).2.2.2
    obtain ⟨p, hp, rfl⟩ := List.mem_map.mp hs
    obtain ⟨-, h2, -⟩ := IntervalList.bounds_of_mem_gaps p hp
    refine ⟨p, hp, hx1, ?_⟩
    rw [hend] at hx2
    dsimp only at hx2
    omega
  · rintro ⟨p, hp, h1, h2⟩
    have hs : (⟨p.1, p.2 - p.1⟩ : Span) ∈ r.missing span := List.mem_map.mpr ⟨p, hp, rfl⟩
    refine ⟨_, hs, h1, ?_⟩
    rw [(bounds_of_mem_missing hs).2.2.2]
    dsimp only
    omega

/-- **What is missing from a span is what the set does not hold of it.** -/
theorem mem_missing {r : Ranges} {span : Span} {x : ℕ} :
    (∃ s ∈ r.missing span, s.Mem x) ↔ span.Mem x ∧ ¬r.Mem x := by
  rw [mem_missing_span, IntervalList.mem_gaps r.separated, Span.Mem, Mem, and_assoc]

theorem not_mem_of_mem_missing {r : Ranges} {span s : Span} (hs : s ∈ r.missing span) {x : ℕ}
    (hx : s.Mem x) : ¬r.Mem x :=
  (mem_missing.mp ⟨s, hs, hx⟩).2

/-- The missing parts stand in order. -/
theorem pairwise_missing (r : Ranges) (span : Span) :
    (r.missing span).Pairwise fun s t ↦ s.end' ≤ t.offset := by
  rw [missing, List.pairwise_map]
  refine (IntervalList.pairwise_gaps r.separated).imp_of_mem ?_
  intro p q hp _ hpq
  have hmem : (⟨p.1, p.2 - p.1⟩ : Span) ∈ r.missing span := List.mem_map.mpr ⟨p, hp, rfl⟩
  have hend := (bounds_of_mem_missing hmem).2.2.2
  obtain ⟨-, h2, -⟩ := IntervalList.bounds_of_mem_gaps p hp
  rw [hend]
  dsimp only
  omega

theorem missing_eq_nil_iff {r : Ranges} {span : Span} :
    r.missing span = [] ↔ ∀ x, span.Mem x → r.Mem x := by
  constructor
  · intro h x hx
    by_contra hr
    obtain ⟨s, hs, -⟩ := mem_missing.mpr ⟨hx, hr⟩
    simp [h] at hs
  · intro h
    by_contra hne
    obtain ⟨s, hs⟩ := List.exists_mem_of_ne_nil _ hne
    obtain ⟨-, hlen, -, hend⟩ := bounds_of_mem_missing hs
    have hx : s.Mem s.offset := ⟨le_rfl, by omega⟩
    obtain ⟨hin, hout⟩ := mem_missing.mp ⟨s, hs, hx⟩
    exact hout (h _ hin)

end Ranges

/-! ## The memory of part-filled files -/

/-- What is known about a placeholder's current contents. -/
inductive Standing where
  /-- Nothing on disk here is ours. -/
  | unknown
  /-- These ranges are ours, and the file has not been touched since they were written. -/
  | ours (r : Ranges)
  deriving DecidableEq

structure Held where
  witness : Witness
  have' : Ranges
  used : ℕ

/-- Every placeholder the worker is part way through. -/
structure Partial where
  held : AList fun _ : FileId ↦ Held
  /-- Monotonic, so the oldest record is the one evicted when the cap is hit. -/
  tick : ℕ
  cap : ℕ

/-- How many part-filled placeholders are remembered at once. -/
def remembered : ℕ := 512

namespace Partial

def new (cap : ℕ) : Partial := ⟨∅, 0, cap⟩

/-- The record kept for a file. -/
def get (p : Partial) (file : FileId) : Option Held := p.held.lookup file

/-- What is on disk for this file, as far as the worker is entitled to believe. A record that no
longer matches the file is dropped. -/
def standing (p : Partial) (file : FileId) (now : Witness) : Standing × Partial :=
  let tick := p.tick + 1
  match p.get file with
  | some h =>
    if h.witness = now then
      (.ours h.have', { p with held := p.held.insert file { h with used := tick }, tick })
    else (.unknown, { p with held := p.held.erase file, tick })
  | none => (.unknown, { p with tick })

/-- Stop tracking a file. -/
def forget (p : Partial) (file : FileId) : Partial := { p with held := p.held.erase file }

/-- The least recently used record. -/
def oldest (entries : List (Sigma fun _ : FileId ↦ Held)) : Option FileId :=
  (List.argmin (fun e ↦ e.2.used) entries).map Sigma.fst

/-- Replace what is known about a file, dropping the oldest record when the cap is exceeded. -/
def record (p : Partial) (file : FileId) (witness : Witness) (have' : Ranges) : Partial :=
  let tick := p.tick + 1
  if have'.isEmpty then { p with held := p.held.erase file, tick }
  else
    let held := p.held.insert file ⟨witness, have', tick⟩
    if p.cap < held.entries.length then
      match oldest held.entries with
      | some f => { p with held := held.erase f, tick }
      | none => { p with held, tick }
    else { p with held, tick }

/-! One lemma for each operation: what it leaves on record for a file. -/

/-- The record of `file` in `q` is one that `p` had, up to when it was last used. -/
def KeepsFrom (q p : Partial) (file : FileId) : Prop :=
  ∀ h, q.get file = some h →
    ∃ h₀, p.get file = some h₀ ∧ h.witness = h₀.witness ∧ h.have' = h₀.have'

theorem KeepsFrom.refl (p : Partial) (file : FileId) : p.KeepsFrom p file :=
  fun h hh ↦ ⟨h, hh, rfl, rfl⟩

theorem KeepsFrom.trans {p q r : Partial} {file : FileId} (h₁ : r.KeepsFrom q file)
    (h₂ : q.KeepsFrom p file) : r.KeepsFrom p file := by
  intro h hh
  obtain ⟨h', hh', hw', hr'⟩ := h₁ h hh
  obtain ⟨h'', hh'', hw'', hr''⟩ := h₂ h' hh'
  exact ⟨h'', hh'', hw'.trans hw'', hr'.trans hr''⟩

theorem keepsFrom_of_lookup {p q : Partial} {file : FileId}
    (h : q.get file = none ∨ q.get file = p.get file) : q.KeepsFrom p file := by
  intro k hk
  rcases h with h | h
  · simp [h] at hk
  · exact ⟨k, h ▸ hk, rfl, rfl⟩

theorem get_erase_ne {p : Partial} {f g : FileId} (hne : g ≠ f) {t : ℕ} :
    ({ p with held := p.held.erase f, tick := t } : Partial).get g = p.get g :=
  AList.lookup_erase_ne hne

@[simp] theorem get_erase_self {p : Partial} {f : FileId} {t : ℕ} :
    ({ p with held := p.held.erase f, tick := t } : Partial).get f = none :=
  AList.lookup_erase f p.held

@[simp] theorem get_forget_self (p : Partial) (f : FileId) : (p.forget f).get f = none :=
  AList.lookup_erase f p.held

/-- `standing` never invents a record. -/
theorem standing_keepsFrom (p : Partial) (file : FileId) (now : Witness) (g : FileId) :
    (p.standing file now).2.KeepsFrom p g := by
  rw [standing]
  split
  · rename_i h hh
    split
    · intro k hk
      rcases eq_or_ne g file with rfl | hne
      · rw [get, AList.lookup_insert, Option.some_inj] at hk
        exact ⟨h, hh, by rw [← hk], by rw [← hk]⟩
      · exact ⟨k, by rwa [get, AList.lookup_insert_ne hne] at hk, rfl, rfl⟩
    · refine keepsFrom_of_lookup ?_
      rcases eq_or_ne g file with rfl | hne
      · exact Or.inl get_erase_self
      · exact Or.inr (get_erase_ne hne)
  · exact KeepsFrom.refl _ _

/-- **When the worker believes its record**, the record is there and was taken of the file as it
looks now; and it is still there afterwards. -/
theorem standing_ours {p : Partial} {file : FileId} {now : Witness} {r : Ranges}
    (h : (p.standing file now).1 = .ours r) :
    (∃ k, p.get file = some k ∧ k.witness = now ∧ k.have' = r)
      ∧ ∃ k, (p.standing file now).2.get file = some k ∧ k.witness = now ∧ k.have' = r := by
  rw [standing] at h ⊢
  split at h
  · rename_i k hk
    split at h
    · rename_i hw
      cases h
      refine ⟨⟨k, hk, hw, rfl⟩, ⟨{ k with used := p.tick + 1 }, ?_, hw, rfl⟩⟩
      rw [if_pos hw]
      exact AList.lookup_insert _
    · cases h
  · cases h

/-- **When it does not**, no record is left. -/
theorem standing_unknown {p : Partial} {file : FileId} {now : Witness}
    (h : (p.standing file now).1 = .unknown) :
    (p.standing file now).2.get file = none
      ∧ ∀ k, p.get file = some k → k.witness ≠ now := by
  rw [standing] at h ⊢
  split at h
  · rename_i k hk
    split at h
    · cases h
    · rename_i hw
      rw [if_neg hw]
      refine ⟨get_erase_self, fun k' hk' ↦ ?_⟩
      rw [hk, Option.some_inj] at hk'
      rwa [← hk']
  · rename_i hnone
    exact ⟨hnone, by simp [hnone]⟩

theorem forget_keepsFrom (p : Partial) (file g : FileId) : (p.forget file).KeepsFrom p g := by
  refine keepsFrom_of_lookup ?_
  rcases eq_or_ne g file with rfl | hne
  · exact Or.inl (get_forget_self p g)
  · exact Or.inr (AList.lookup_erase_ne hne)

private theorem get_record (p : Partial) (file : FileId) (w : Witness) (r : Ranges) (g : FileId) :
    (p.record file w r).get g = none
      ∨ (g ≠ file ∧ (p.record file w r).get g = p.get g)
      ∨ (g = file ∧ (p.record file w r).get g = some ⟨w, r, p.tick + 1⟩) := by
  have hins : ∀ q : Partial, q.held = p.held.insert file ⟨w, r, p.tick + 1⟩ →
      (g ≠ file ∧ q.get g = p.get g) ∨ (g = file ∧ q.get g = some ⟨w, r, p.tick + 1⟩) := by
    intro q hq
    rcases eq_or_ne g file with rfl | hne
    · exact Or.inr ⟨rfl, by rw [get, hq]; exact AList.lookup_insert _⟩
    · exact Or.inl ⟨hne, by rw [get, hq]; exact AList.lookup_insert_ne hne⟩
  rw [record]
  dsimp only
  split
  · rcases eq_or_ne g file with rfl | hne
    · exact Or.inl get_erase_self
    · exact Or.inr (Or.inl ⟨hne, get_erase_ne hne⟩)
  · split
    · split
      · rename_i f _
        rcases eq_or_ne g f with rfl | hne
        · exact Or.inl (AList.lookup_erase _ _)
        · refine Or.inr ?_
          rw [get, AList.lookup_erase_ne hne]
          exact hins ⟨_, p.tick + 1, p.cap⟩ rfl
      · exact Or.inr (hins _ rfl)
    · exact Or.inr (hins _ rfl)

/-- What `record` leaves for the file itself: the new record, or nothing. -/
theorem get_record_self {p : Partial} {file : FileId} {w : Witness} {r : Ranges} {k : Held}
    (h : (p.record file w r).get file = some k) : k.witness = w ∧ k.have' = r := by
  rcases get_record p file w r file with h' | ⟨hne, -⟩ | ⟨-, h'⟩
  · simp [h'] at h
  · exact absurd rfl hne
  · rw [h', Option.some_inj] at h
    rw [← h]
    exact ⟨rfl, rfl⟩

/-- For any other file `record` invents nothing. -/
theorem record_keepsFrom {p : Partial} {file : FileId} {w : Witness} {r : Ranges} {g : FileId}
    (hne : g ≠ file) : (p.record file w r).KeepsFrom p g := by
  refine keepsFrom_of_lookup ?_
  rcases get_record p file w r g with h | ⟨-, h⟩ | ⟨heq, -⟩
  · exact Or.inl h
  · exact Or.inr h
  · exact absurd heq hne

end Partial

end HydrationAPI
