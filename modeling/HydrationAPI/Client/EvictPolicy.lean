import HydrationAPI.Lib.ShortestPrefix
import HydrationAPI.Protocol.Span

/-!
# What to evict

Files are turned back into placeholders when the disk runs full: once the free space has fallen
below the low mark, those that were fetched longest ago, until it would reach the high mark. A file
that was just fetched is left alone, and one sweep gives back no more than its cap, unless its first
file does so alone. What is chosen here is only chosen; whether it may be evicted is asked again
when it is.

The sizes are `u64`, and their sums saturate. The marks are products that wrap around.
-/

namespace HydrationAPI.Client.EvictPolicy


/-- When to run, how far to go, and the guards against thrashing. -/
structure EvictionConfig where
  /-- Run when free space falls below the smaller of the two. -/
  lowPct : ℕ
  lowAbs : ℕ
  /-- Evict until free space would reach the smaller of the two. -/
  highPct : ℕ
  highAbs : ℕ
  /-- Never evict a file acquired within this many seconds. -/
  graceSecs : ℕ
  /-- Never give back more than this many bytes in one sweep. -/
  sweepCap : ℕ

/-- The low and the high mark of a disk of this size. -/
def EvictionConfig.marks (cfg : EvictionConfig) (total : ℕ) : ℕ × ℕ :=
  (min (total / 100 * cfg.lowPct % 2 ^ 64) cfg.lowAbs,
    min (total / 100 * cfg.highPct % 2 ^ 64) cfg.highAbs)

def gib : ℕ := 1024 * 1024 * 1024

/-- What is shipped, for when the user turns it on. -/
def EvictionConfig.defaultPressure : EvictionConfig where
  lowPct := 10
  lowAbs := 10 * gib
  highPct := 15
  highAbs := 15 * gib
  graceSecs := 4 * 60 * 60
  sweepCap := 8 * gib

/-- The band is one on every disk. -/
theorem EvictionConfig.marks_defaultPressure {total : ℕ} (h : total ≤ u64Max) :
    (defaultPressure.marks total).1 ≤ (defaultPressure.marks total).2 := by
  unfold u64Max at h
  have hfits : total / 100 * 15 < 2 ^ 64 := by omega
  simp only [marks, defaultPressure, gib]
  rw [Nat.mod_eq_of_lt hfits, Nat.mod_eq_of_lt (by omega)]
  omega

/-- One resident file that may be evicted. -/
structure Candidate where
  rel : String
  /-- What comes back on disk. -/
  reclaimable : ℕ
  /-- When it was acquired. -/
  recency : ℕ
  deriving DecidableEq

/-- The one acquired longest ago comes first, and the larger of two acquired at one time. -/
def Older (a b : Candidate) : Prop :=
  a.recency < b.recency ∨ a.recency = b.recency ∧ b.reclaimable ≤ a.reclaimable

instance : DecidableRel Older := fun _ _ ↦ inferInstanceAs (Decidable (_ ∨ _))

instance : Std.Total Older := ⟨fun a b ↦ by unfold Older; omega⟩

instance : IsTrans Candidate Older := ⟨fun a b c ↦ by unfold Older; omega⟩

/-- The file was acquired too short a time ago. -/
def Fresh (cfg : EvictionConfig) (now : ℕ) (c : Candidate) : Prop :=
  now - c.recency < cfg.graceSecs

instance (cfg : EvictionConfig) (now : ℕ) : DecidablePred (Fresh cfg now) :=
  fun _ ↦ inferInstanceAs (Decidable (_ < _))

/-- Go through the candidates, with what has been selected and what it gives back. -/
def sweep (cfg : EvictionConfig) (available high now : ℕ) :
    List Candidate → List String → ℕ → List String
  | [], selected, _ => selected
  | c :: candidates, selected, freed =>
    if high ≤ saturatingAdd available freed then selected
    else if Fresh cfg now c then sweep cfg available high now candidates selected freed
    -- the first is always let through: one large file still makes progress
    else if selected ≠ [] ∧ cfg.sweepCap < saturatingAdd freed c.reclaimable then selected
    else sweep cfg available high now candidates (selected ++ [c.rel])
      (saturatingAdd freed c.reclaimable)

/-- Choose what to evict, to lift the free space to the high mark; nothing if there is no
pressure. -/
def plan (candidates : List Candidate) (available total : ℕ) (cfg : EvictionConfig) (now : ℕ) :
    List String :=
  let (low, high) := cfg.marks total
  if low ≤ available then []
  else sweep cfg available high now (candidates.insertionSort Older) [] 0

/-! ## What is asked for -/

/-- The candidates outside their grace period, in the order in which they go. -/
def eligible (candidates : List Candidate) (cfg : EvictionConfig) (now : ℕ) : List Candidate :=
  (candidates.filter (¬ Fresh cfg now ·)).insertionSort Older

/-- What the files give back. -/
def freedBy (cs : List Candidate) : ℕ := (cs.map Candidate.reclaimable).sum

/-- The free space comes to the mark. -/
def Reaches (available high : ℕ) (cs : List Candidate) : Prop := high ≤ available + freedBy cs

/-- Something is selected, and one more would exceed the cap, as far as a `u64` tells. -/
def Full (cap : ℕ) (whole cs : List Candidate) : Prop :=
  cs ≠ [] ∧ ∃ c, cs ++ [c] <+: whole ∧ cap < min (freedBy (cs ++ [c])) u64Max

section Greedy

variable {cfg : EvictionConfig} {available high total now freed : ℕ}
  {candidates taken whole selected : List Candidate} {c : Candidate} {names : List String}

@[simp] theorem freedBy_nil : freedBy [] = 0 := rfl

@[simp] theorem freedBy_append (cs ds : List Candidate) :
    freedBy (cs ++ ds) = freedBy cs + freedBy ds := by
  simp [freedBy]

@[simp] theorem freedBy_singleton (c : Candidate) : freedBy [c] = c.reclaimable := by
  simp [freedBy]

/-- Saturated sums are sums as far as a `u64` tells. -/
theorem saturatingAdd_min (a b : ℕ) :
    saturatingAdd (min a u64Max) b = min (a + b) u64Max := by
  unfold saturatingAdd
  omega

/-- A mark is one that a `u64` can reach. -/
theorem le_saturatingAdd_iff {a b : ℕ} (h : high ≤ u64Max) :
    high ≤ saturatingAdd a (min b u64Max) ↔ high ≤ a + b := by
  unfold saturatingAdd
  omega

theorem high_le_u64Max (cfg : EvictionConfig) (total : ℕ) : (cfg.marks total).2 ≤ u64Max := by
  have hmod : total / 100 * cfg.highPct % 2 ^ 64 < 2 ^ 64 := Nat.mod_lt _ (Nat.two_pow_pos 64)
  exact (min_le_left _ _).trans (Nat.le_sub_one_of_lt hmod)

/-- What is fresh is passed over. -/
theorem sweep_filter (candidates : List Candidate) (names : List String) (freed : ℕ) :
    sweep cfg available high now (candidates.filter (¬ Fresh cfg now ·)) names freed
      = sweep cfg available high now candidates names freed := by
  induction candidates generalizing names freed with
  | nil => rfl
  | cons c candidates ih =>
    rw [List.filter_cons]
    by_cases hreached : high ≤ saturatingAdd available freed
    · rw [sweep, if_pos hreached]
      split
      · rw [sweep, if_pos hreached]
      · rw [ih]
        rcases candidates with _ | ⟨d, candidates⟩
        · rfl
        · rw [sweep, if_pos hreached]
    · by_cases hfresh : Fresh cfg now c
      · rw [if_neg (by simpa using hfresh), ih, sweep, if_neg hreached, if_pos hfresh]
      · rw [if_pos (by simpa using hfresh), sweep, sweep, if_neg hreached, if_neg hreached,
          if_neg hfresh, if_neg hfresh, ih]

/-- The files that go, in the order in which they go. -/
theorem sweep_eligible (candidates : List Candidate) (names : List String) (freed : ℕ) :
    sweep cfg available high now (candidates.insertionSort Older) names freed
      = sweep cfg available high now (eligible candidates cfg now) names freed := by
  rw [eligible, ← filter_insertionSort, sweep_filter]

/-- **What a sweep selects** beyond what it has taken. -/
theorem exists_sweep (hhigh : high ≤ u64Max) (hfresh : ∀ c ∈ candidates, ¬ Fresh cfg now c)
    (hwhole : ShortestPrefix (fun cs ↦ Reaches available high (taken ++ cs)) candidates whole) :
    ∃ selected, ShortestPrefix (fun cs ↦ taken ++ cs ≠ []
        ∧ ∃ c, cs ++ [c] <+: whole ∧ cfg.sweepCap < min (freedBy (taken ++ cs ++ [c])) u64Max)
        whole selected
      ∧ sweep cfg available high now candidates (taken.map Candidate.rel)
          (min (freedBy taken) u64Max) = (taken ++ selected).map Candidate.rel := by
  induction candidates generalizing taken whole with
  | nil =>
    have hnil : whole = [] := List.prefix_nil.mp hwhole.isPrefix
    subst hnil
    exact ⟨[], .nil, by rw [sweep, List.append_nil]⟩
  | cons c candidates ih =>
    rw [sweep, if_neg (hfresh c List.mem_cons_self)]
    have hnow : high ≤ saturatingAdd available (min (freedBy taken) u64Max)
        ↔ Reaches available high (taken ++ []) := by
      rw [le_saturatingAdd_iff hhigh, List.append_nil, Reaches]
    by_cases hreached : Reaches available high (taken ++ [])
    · rw [if_pos (hnow.mpr hreached)]
      have hnil : whole = [] := hwhole.unique (.of_nil hreached)
      subst hnil
      exact ⟨[], .nil, by rw [List.append_nil]⟩
    rw [if_neg (mt hnow.mp hreached)]
    obtain ⟨rest, rfl, hrest⟩ := hwhole.of_cons hreached
    rw [saturatingAdd_min]
    have hfreed : freedBy taken + c.reclaimable = freedBy (taken ++ [c]) := by simp
    rw [hfreed]
    by_cases hfull : taken ≠ [] ∧ cfg.sweepCap < min (freedBy (taken ++ [c])) u64Max
    · rw [if_pos ⟨by simpa using hfull.1, hfull.2⟩]
      refine ⟨[], .of_nil ⟨by simpa using hfull.1, c, ?_, ?_⟩, by rw [List.append_nil]⟩
      · exact List.cons_prefix_cons.mpr ⟨rfl, List.nil_prefix⟩
      · rw [List.append_nil]
        exact hfull.2
    · rw [if_neg (by simpa using hfull)]
      have hlater : ShortestPrefix (fun cs ↦ Reaches available high (taken ++ [c] ++ cs)) candidates
          rest := hrest.congr fun cs ↦ by rw [List.append_assoc, List.singleton_append]
      obtain ⟨selected, hselected, hsweep⟩ :=
        ih (fun d hd ↦ hfresh d (List.mem_cons_of_mem c hd)) hlater
      refine ⟨c :: selected, .cons ?_ (hselected.congr fun cs ↦ ?_), ?_⟩
      · rintro ⟨htaken, d, hd, hover⟩
        obtain ⟨rfl, -⟩ := List.cons_prefix_cons.mp hd
        rw [List.append_nil] at htaken hover
        exact hfull ⟨htaken, hover⟩
      · simp only [List.append_assoc, List.cons_append, List.cons_prefix_cons, true_and]
        simp
      · rw [List.map_append, List.map_singleton] at hsweep
        rw [hsweep, List.append_assoc, List.singleton_append]

/-- The order in which the files go: none is fresh, and each was acquired before the next, or at the
same time and is no smaller. -/
theorem pairwise_eligible (candidates : List Candidate) (cfg : EvictionConfig) (now : ℕ) :
    (eligible candidates cfg now).Pairwise Older := List.pairwise_insertionSort _ _

theorem eligible_perm (candidates : List Candidate) (cfg : EvictionConfig) (now : ℕ) :
    (eligible candidates cfg now).Perm (candidates.filter (¬ Fresh cfg now ·)) :=
  List.perm_insertionSort _ _

theorem not_fresh_of_mem (h : c ∈ eligible candidates cfg now) : ¬ Fresh cfg now c := by
  have hmem := (eligible_perm candidates cfg now).mem_iff.mp h
  exact of_decide_eq_true (List.mem_filter.mp hmem).2

/-- Nothing is chosen where there is no pressure. -/
theorem plan_of_le (h : (cfg.marks total).1 ≤ available) :
    plan candidates available total cfg now = [] := if_pos h

/-- **A plan is what is asked for**: nothing, if the free space is at the low mark or above it; and
otherwise, of the candidates outside their grace period in their order, the shortest prefix that
brings the free space to the high mark, cut where the next of them would exceed the cap, but for the
first. Where that has brought the free space to the high mark, and this is no lower than the low
one, nothing is chosen any more. -/
theorem plan_greedy (candidates : List Candidate) (available total : ℕ) (cfg : EvictionConfig)
    (now : ℕ) :
    ((cfg.marks total).1 ≤ available → plan candidates available total cfg now = [])
    ∧ (available < (cfg.marks total).1 → ∃ whole selected,
      ShortestPrefix (Reaches available (cfg.marks total).2) (eligible candidates cfg now) whole
      ∧ ShortestPrefix (Full cfg.sweepCap whole) whole selected
      ∧ plan candidates available total cfg now = selected.map Candidate.rel
      ∧ ((cfg.marks total).1 ≤ (cfg.marks total).2 →
        Reaches available (cfg.marks total).2 selected → ∀ candidates' now',
        plan candidates' (available + freedBy selected) total cfg now' = [])) := by
  refine ⟨plan_of_le, fun hlow ↦ ?_⟩
  obtain ⟨whole, hwhole⟩ := ShortestPrefix.exists_prefix
    (Reaches available (cfg.marks total).2) (eligible candidates cfg now)
  have hstart : ShortestPrefix (fun cs ↦ Reaches available (cfg.marks total).2 ([] ++ cs))
      (eligible candidates cfg now) whole := hwhole
  obtain ⟨selected, hselected, hsweep⟩ :=
    exists_sweep (high_le_u64Max cfg total) (fun c hc ↦ not_fresh_of_mem hc) hstart
  refine ⟨whole, selected, hwhole, hselected, ?_, fun hmarks hreached candidates' now' ↦ ?_⟩
  · rw [plan]
    dsimp only
    rw [if_neg (not_le.mpr hlow), sweep_eligible]
    exact hsweep
  · exact plan_of_le (hmarks.trans hreached)

end Greedy

/-- A band from 100 to 300 bytes. -/
def sampleConfig : EvictionConfig := ⟨100, 100, 100, 300, 10, 250⟩

example : plan [⟨"new", 100, 500⟩, ⟨"old", 100, 100⟩, ⟨"large", 200, 500⟩, ⟨"fresh", 100, 995⟩] 40
    10000 sampleConfig 1000 = ["old"] := by
  decide

end HydrationAPI.Client.EvictPolicy
