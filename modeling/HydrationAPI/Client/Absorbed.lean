import HydrationAPI.Client.LineageFile

/-!
# What a scan leaves of the lineage

A scan that absorbs what it saw leaves each object recorded where it is, and nowhere else: objects
may have moved, have swapped their paths, or be gone. Once it is absorbed, the same scan has nothing
to add.
-/

namespace HydrationAPI.Client.LineageFile

/-- Each object is recorded at one path at most. -/
def Single (m : SortedMap String Record) : Prop :=
  ∀ p q r s, m.get p = some r → m.get q = some s → r.cloudId = s.cloudId → p = q

/-- The object of a record is seen at some path. -/
def Claimed (seen : SortedMap String Record) (r : Record) : Prop :=
  ∃ q s, seen.get q = some s ∧ s.cloudId = r.cloudId

/-- What makes an older record survive: its path is still there, and has no record that was just
seen, and no path claims its object. -/
def Survives (seen : SortedMap String Record) (live : List String) (p : String) (r : Record) :
    Prop :=
  seen.get p = none ∧ ¬ Claimed seen r ∧ p ∈ live

variable {l : LineageFile} {seen : SortedMap String Record} {live : List String} {p : String}
  {r : Record}

theorem byPath_absorb : (l.absorb seen live).byPath
    = .ofList ((l.byPath.entries.filter fun e ↦ (seen.get e.1).isNone
      ∧ (∀ s ∈ seen.entries, s.2.cloudId ≠ e.2.cloudId) ∧ e.1 ∈ live) ++ seen.entries) := by
  rw [absorb]
  split
  · rfl
  · rename_i heq
    exact SortedMap.ext (not_not.mp heq).symm

theorem absorb_of_eq (h : (l.absorb seen live).byPath = l.byPath) : l.absorb seen live = l := by
  rw [byPath_absorb] at h
  rw [absorb]
  exact if_neg (not_not.mpr (congrArg SortedMap.entries h))

theorem not_claimed_iff :
    (∀ s ∈ seen.entries, s.2.cloudId ≠ r.cloudId) ↔ ¬ Claimed seen r := by
  constructor
  · rintro h ⟨q, s, hs, hid⟩
    exact h (q, s) (SortedMap.mem_of_get hs) hid
  · rintro h ⟨q, s⟩ hs hid
    exact h ⟨q, s, SortedMap.get_of_mem hs, hid⟩

/-- **What is recorded afterwards**: what was seen, and what survives of what was recorded. -/
theorem get_absorb : (l.absorb seen live).byPath.get p = some r
    ↔ seen.get p = some r ∨ l.byPath.get p = some r ∧ Survives seen live p r := by
  have hkept : ∀ P : String × Record → Bool,
      (SortedMap.ofList (l.byPath.entries.filter P)).get p = some r
        ↔ l.byPath.get p = some r ∧ P (p, r) := by
    intro P
    have hkeys : ((l.byPath.entries.filter P).map Prod.fst).Nodup :=
      (List.filter_sublist.map Prod.fst).nodup l.byPath.nodup_keys
    constructor
    · intro h
      obtain ⟨hmem, hP⟩ := List.mem_filter.mp (SortedMap.mem_of_get_ofList h)
      exact ⟨SortedMap.get_of_mem hmem, hP⟩
    · rintro ⟨h, hP⟩
      exact SortedMap.get_ofList_of_mem hkeys (List.mem_filter.mpr ⟨SortedMap.mem_of_get h, hP⟩)
  rw [byPath_absorb, SortedMap.get_ofList_append, SortedMap.ofList_entries, Option.or_eq_some_iff,
    hkept, decide_eq_true_iff, Option.isNone_iff_eq_none, not_claimed_iff, Survives]
  constructor
  · rintro (h | ⟨-, h⟩)
    · exact Or.inl h
    · exact Or.inr h
  · rintro (h | ⟨h, hs⟩)
    · exact Or.inl h
    · exact Or.inr ⟨hs.1, h, hs⟩

/-- **Objects stay single.** -/
theorem single_absorb (hl : Single l.byPath) (hseen : Single seen) :
    Single (l.absorb seen live).byPath := by
  intro p q r s hp hq hid
  rcases get_absorb.mp hp with hp | ⟨hp, hsurvives⟩
  · rcases get_absorb.mp hq with hq | ⟨-, hsurvives⟩
    · exact hseen p q r s hp hq hid
    · exact absurd ⟨p, r, hp, hid⟩ hsurvives.2.1
  · rcases get_absorb.mp hq with hq | ⟨hq, -⟩
    · exact absurd ⟨q, s, hq, hid.symm⟩ hsurvives.2.1
    · exact hl p q r s hp hq hid

/-- **A scan that is absorbed has nothing to add**, whether it was written in between or not. -/
theorem absorb_absorb (dirty : Bool) :
    absorb { l.absorb seen live with dirty := dirty } seen live
      = { l.absorb seen live with dirty := dirty } := by
  refine absorb_of_eq (SortedMap.ext_get fun p ↦ Option.ext fun r ↦ ?_)
  rw [get_absorb, get_absorb]
  constructor
  · rintro (h | ⟨h, -⟩)
    · exact Or.inl h
    · exact h
  · rintro (h | h)
    · exact Or.inl h
    · exact Or.inr ⟨Or.inr h, h.2⟩

/-- **What a scan leaves of the lineage.** Each object is again recorded at one path at most; every
record that was seen is at the path it was seen at; an older one is still there exactly if it
survives, and nothing else is recorded; and the same scan once more changes nothing, and is not
reason to write. -/
theorem absorb_keeps_single (l : LineageFile) (seen : SortedMap String Record) (live : List String)
    (hl : Single l.byPath) (hseen : Single seen) :
    Single (l.absorb seen live).byPath
      ∧ (∀ p r, seen.get p = some r → (l.absorb seen live).byPath.get p = some r)
      ∧ (∀ p r, seen.get p ≠ some r → ((l.absorb seen live).byPath.get p = some r
          ↔ l.byPath.get p = some r ∧ Survives seen live p r))
      ∧ ∀ dirty : Bool, absorb { l.absorb seen live with dirty := dirty } seen live
          = { l.absorb seen live with dirty := dirty } :=
  ⟨single_absorb hl hseen, fun _ _ h ↦ get_absorb.mpr (Or.inl h),
    fun _ _ h ↦ get_absorb.trans (or_iff_right h), absorb_absorb⟩

theorem single_of_one (e : String × Record) : Single (.ofList [e]) := by
  intro p q r s hp hq _
  have hp := List.mem_singleton.mp (SortedMap.mem_of_get_ofList hp)
  have hq := List.mem_singleton.mp (SortedMap.mem_of_get_ofList hq)
  exact (congrArg Prod.fst hp).trans (congrArg Prod.fst hq).symm

/-- An object that is seen at another path, its old one still there, is recorded at the new one
only. -/
theorem absorb_keeps_single_moved :
    let old : LineageFile := ⟨.ofList [("a", ⟨"id", none⟩)], false⟩
    let seen : SortedMap String Record := .ofList [("b", ⟨"id", some "tag"⟩)]
    (old.absorb seen ["a", "b"]).byPath.get "b" = some ⟨"id", some "tag"⟩
      ∧ Single (old.absorb seen ["a", "b"]).byPath := by
  have h := absorb_keeps_single ⟨.ofList [("a", ⟨"id", none⟩)], false⟩
    (.ofList [("b", ⟨"id", some "tag"⟩)]) ["a", "b"] (single_of_one _) (single_of_one _)
  exact ⟨h.2.1 "b" _ (SortedMap.get_insert_self _ _ _), h.1⟩

end HydrationAPI.Client.LineageFile
