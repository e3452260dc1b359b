import HydrationAPI.Client.Store
import Mathlib.Data.List.Nodup

/-!
# Whether two files resolve to one object

A file is resolved to what its own attribute says, and one that has lost its attributes to what was
recorded for its path. A scan drops the record of a path whose object it meets elsewhere. It only
looks for the object among the files that hold content, and a placeholder that was moved carries it
too.
-/

namespace HydrationAPI.Client

/-- Each object is recorded for one path, and each path has one record. -/
structure Lineage.Distinct (l : Lineage) : Prop where
  paths : l.paths.Nodup
  objects : (l.entries.map fun e ↦ e.2.cloudId).Nodup

/-- No two files carry the same cloud id. -/
def Disk.DistinctIds (d : Disk) : Prop :=
  ∀ p q i j c, d.fileAt p = some i → d.fileAt q = some j → i.id.string = some c →
    j.id.string = some c → i.stat.file = j.stat.file

/-- Whether the file at a path is this one, among those that are indexed. -/
def isFile (d : Disk) (file : FileId) (p : RelPath) : Bool :=
  (indexable d p).any fun i ↦ i.stat.file = file

/-- The last path at which a walk meets a file. -/
def lastPath (d : Disk) (file : FileId) : Option RelPath :=
  (d.paths.filter (isFile d file)).getLast?

/-- No two files that are indexed resolve to one object. -/
def Store.Injective (s : Store) (d : Disk) : Prop :=
  ∀ f g e e' c, s.lookup d f = some e → s.lookup d g = some e' → e.cloudId = some c →
    e'.cloudId = some c → f = g

/-- A file with content that has no id of its own is at a path that was recorded for an object, and
another file carries the id of that object, but none that holds content and is synced does. -/
structure Inherits (ignore : IgnoreSet) (l : Lineage) (d : Disk) (p q : RelPath) (i j : Inode)
    (r : Record) : Prop where
  bare : lastPath d i.stat.file = some p ∧ indexable d p = some i ∧ i.id.string = none
  live : isLive ignore d p = true
  recorded : l.get p = some r
  carrier : lastPath d j.stat.file = some q ∧ indexable d q = some j
    ∧ j.id.string = some r.cloudId
  unseen : ∀ p', isLive ignore d p' = true → ∀ r', recordOf d p' = some r' → r'.cloudId ≠ r.cloudId

/-! ## The index -/

section

variable {d : Disk} {file : FileId} {p : RelPath} {i : Inode}

theorem isFile_iff : isFile d file p = true ↔ ∃ i, indexable d p = some i ∧ i.stat.file = file := by
  rw [isFile, Option.any_eq_true]
  simp only [decide_eq_true_eq]

/-- **Of a file that the walk meets at several paths the last one counts.** -/
theorem lookup_foldl_meet (met : List RelPath) (index : AList fun _ : FileId ↦ RelPath) :
    (met.foldl (Store.meet d) index).lookup file
      = (met.filter (isFile d file)).getLast?.or (index.lookup file) := by
  induction met generalizing index with
  | nil => rfl
  | cons q met ih =>
    rw [List.foldl_cons, ih, List.filter_cons]
    have hmeet : (Store.meet d index q).lookup file
        = if isFile d file q then some q else index.lookup file := by
      rw [Store.meet, isFile]
      split
      · rename_i i hi
        rw [hi, Option.any_some]
        by_cases hfile : i.stat.file = file
        · rw [if_pos (decide_eq_true hfile), ← hfile, AList.lookup_insert]
        · rw [if_neg (by simpa using hfile), AList.lookup_insert_ne (Ne.symm hfile)]
      · rename_i hnone
        rw [hnone]
        rfl
    rw [hmeet]
    by_cases hq : isFile d file q = true
    · rw [if_pos hq, if_pos hq, List.getLast?_cons]
      cases (met.filter (isFile d file)).getLast? with
      | some _ | none => rfl
    · rw [if_neg hq, if_neg hq]

theorem lookup_scan_index (s : Store) (config : Config) :
    (s.scan config d none).index.lookup file = lastPath d file := by
  have hempty : (∅ : AList fun _ : FileId ↦ RelPath).lookup file = none := rfl
  change (d.paths.foldl (Store.meet d) ∅).lookup file = _
  rw [lookup_foldl_meet, hempty, Option.or_none]
  rfl

theorem lastPath_spec (h : lastPath d file = some p) :
    ∃ i, indexable d p = some i ∧ i.stat.file = file := by
  have hmem := List.mem_of_getLast? h
  exact isFile_iff.mp (List.mem_filter.mp hmem).2

end

/-! ## What the record keeps -/

section

variable {old : Lineage} {seen : PathMap String Record} {live : List RelPath} {p : RelPath}
  {r : Record}

/-- An older record is kept of a path that is there, and whose object is not seen anywhere. -/
theorem get_absorb (h : old.Distinct) (hp : p ∉ seen.paths) : (old.absorb seen live).get p = some r
    ↔ old.get p = some r ∧ (∀ s ∈ seen.entries, s.2.cloudId ≠ r.cloudId) ∧ p ∈ live := by
  have hnone : PathMap.get ⟨seen.entries⟩ p = none := by
    rw [Option.eq_none_iff_forall_ne_some]
    exact fun v hv ↦ hp (PathMap.mem_paths.mpr ⟨v, hv⟩)
  have hnodup : ∀ P : RelPath × Record → Bool,
      (PathMap.paths ⟨old.entries.filter P⟩).Nodup := fun P ↦
    (List.Sublist.map Prod.fst List.filter_sublist).nodup h.paths
  rw [Lineage.absorb, PathMap.get_append, hnone, Option.none_or,
    PathMap.get_eq_some_iff_mem (hnodup _), PathMap.get_eq_some_iff_mem h.paths, List.mem_filter,
    decide_eq_true_eq]
  exact and_congr_right fun _ ↦ and_iff_right hp

theorem eq_of_cloudId {p q : RelPath} {r r' : Record} (h : old.Distinct) (hp : old.get p = some r)
    (hq : old.get q = some r') (hid : r.cloudId = r'.cloudId) : p = q := by
  have hpair := List.inj_on_of_nodup_map h.objects (PathMap.mem_of_get hp) (PathMap.mem_of_get hq)
    hid
  exact congrArg Prod.fst hpair

end

/-! ## What a file resolves to -/

section

variable {s : Store} {config : Config} {d : Disk} {file : FileId} {p q : RelPath} {i j : Inode}
  {e : StoreEntry} {r : Record} {c : String}

theorem Store.entryAt_cloudId : (s.entryAt p i).cloudId = some c
    ↔ i.id.string = some c ∨ i.id.string = none ∧ ∃ r, s.remembered p = some r ∧ r.cloudId = c := by
  rw [entryAt]
  split
  · rename_i r hid hr
    rw [hid, hr]
    constructor
    · exact fun h ↦ Or.inr ⟨rfl, r, rfl, Option.some_inj.mp h⟩
    · rintro (h | ⟨-, r', hr', hc⟩)
      · cases h
      · rw [Option.some_inj.mp hr', hc]
  · rename_i hneither
    refine ⟨Or.inl, ?_⟩
    rintro (h | ⟨hid, r, hr, -⟩)
    · exact h
    · exact (hneither r hid hr).elim

theorem isLive_mem (h : isLive config.ignore d p = true) : p ∈ d.paths := by
  obtain ⟨i, hi, -⟩ := (Option.any_eq_true ..).mp h
  exact PathMap.mem_paths.mpr ⟨i, ((d.fileAt_eq_some).mp (Store.indexable_eq_some.mp hi).1).1⟩

/-- What a scan saw of a path is what the file says that is there. -/
theorem mem_seen : (p, r) ∈ (d.paths.filter (isLive config.ignore d)).filterMap
      (fun p ↦ (recordOf d p).map (p, ·))
    ↔ isLive config.ignore d p = true ∧ recordOf d p = some r := by
  simp only [List.mem_filterMap, List.mem_filter, Option.map_eq_some_iff, Prod.mk.injEq]
  constructor
  · rintro ⟨p', ⟨-, hlive⟩, r', hr, rfl, rfl⟩
    exact ⟨hlive, hr⟩
  · rintro ⟨hlive, hr⟩
    exact ⟨p, ⟨isLive_mem hlive, hlive⟩, r, hr, rfl, rfl⟩

theorem remembered_scan (hold : config.lineage.Distinct) (hi : indexable d p = some i)
    (hid : i.id.string = none) : (s.scan config d none).remembered p = some r
      ↔ s.lineage.isSome = true ∧ config.lineage.get p = some r ∧ isLive config.ignore d p = true
        ∧ ∀ p', isLive config.ignore d p' = true → ∀ r', recordOf d p' = some r' →
          r'.cloudId ≠ r.cloudId := by
  have hbare : recordOf d p = none := by rw [recordOf, hi, Option.bind_some, hid, Option.map_none]
  have hunseen : p ∉ PathMap.paths ⟨(d.paths.filter (isLive config.ignore d)).filterMap
      fun p ↦ (recordOf d p).map (p, ·)⟩ := by
    intro hmem
    obtain ⟨⟨_, r'⟩, hseen, rfl⟩ := List.mem_map.mp hmem
    exact Option.some_ne_none r' ((mem_seen.mp hseen).2.symm.trans hbare)
  have habsorb : (config.lineage.absorb
        ⟨(d.paths.filter (isLive config.ignore d)).filterMap fun p ↦ (recordOf d p).map (p, ·)⟩
        (d.paths.filter (isLive config.ignore d))).get p = some r ↔ _ := get_absorb hold hunseen
  have hclaimed : (∀ e ∈ (d.paths.filter (isLive config.ignore d)).filterMap
        (fun p ↦ (recordOf d p).map (p, ·)), e.2.cloudId ≠ r.cloudId)
      ↔ ∀ p', isLive config.ignore d p' = true → ∀ r', recordOf d p' = some r' →
        r'.cloudId ≠ r.cloudId :=
    ⟨fun h p' hlive r' hr' ↦ h (p', r') (mem_seen.mpr ⟨hlive, hr'⟩),
      fun h e he ↦ h e.1 (mem_seen.mp he).1 e.2 (mem_seen.mp he).2⟩
  have hlive : p ∈ d.paths.filter (isLive config.ignore d) ↔ isLive config.ignore d p = true :=
    ⟨fun h ↦ (List.mem_filter.mp h).2, fun h ↦ List.mem_filter.mpr ⟨isLive_mem h, h⟩⟩
  rw [hclaimed, hlive] at habsorb
  cases hkept : s.lineage with
  | none =>
    refine ⟨fun h ↦ ?_, fun h ↦ by cases h.1⟩
    simp [Store.remembered, Store.scan, hkept] at h
  | some kept =>
    have hscan : (s.scan config d none).remembered p = (config.lineage.absorb
        ⟨(d.paths.filter (isLive config.ignore d)).filterMap fun p ↦ (recordOf d p).map (p, ·)⟩
        (d.paths.filter (isLive config.ignore d))).get p := by
      simp [Store.remembered, Store.scan, hkept]
    rw [hscan, habsorb]
    constructor
    · rintro ⟨h, hfree, hl⟩
      exact ⟨rfl, h, hl, hfree⟩
    · rintro ⟨-, h, hl, hfree⟩
      exact ⟨h, hfree, hl⟩

theorem lookup_scan : (s.scan config d none).lookup d file = some e ↔ ∃ p i,
    lastPath d file = some p ∧ indexable d p = some i ∧ i.stat.file = file
      ∧ (s.scan config d none).entryAt p i = e := by
  rw [Store.lookup_eq_some]
  simp only [lookup_scan_index]
  constructor
  · rintro ⟨p, i, hp, hi, hfile, he⟩
    obtain ⟨i', hi', -⟩ := lastPath_spec hp
    have hget := ((d.fileAt_eq_some).mp (Store.indexable_eq_some.mp hi').1).1
    cases hget.symm.trans hi
    exact ⟨p, i, hp, hi', hfile, he⟩
  · rintro ⟨p, i, hp, hi, hfile, he⟩
    exact ⟨p, i, hp, ((d.fileAt_eq_some).mp (Store.indexable_eq_some.mp hi).1).1, hfile, he⟩

/-- **Identity resolution is injective after a scan unless a file without an id inherits, from the
record of its path, an object that only placeholders or ignored files carry.** -/
theorem scan_injective_iff (s : Store) (config : Config) (d : Disk) (hids : d.DistinctIds)
    (hold : config.lineage.Distinct) : (s.scan config d none).Injective d
      ↔ ¬ (s.lineage.isSome = true
        ∧ ∃ p q i j r, Inherits config.ignore config.lineage d p q i j r) := by
  have hinherits : ∀ {p q i j f g c}, lastPath d f = some p → indexable d p = some i →
      i.stat.file = f → lastPath d g = some q → indexable d q = some j → j.stat.file = g →
      j.id.string = some c → i.id.string = none →
      (∃ r, (s.scan config d none).remembered p = some r ∧ r.cloudId = c) →
      s.lineage.isSome = true ∧ ∃ p q i j r, Inherits config.ignore config.lineage d p q i j r := by
    rintro p q i j _ _ c hp hi rfl hq hj rfl hjid hid ⟨r, hr, rfl⟩
    obtain ⟨hkeeps, hget, hlive, hfree⟩ := (remembered_scan hold hi hid).mp hr
    exact ⟨hkeeps, p, q, i, j, r, ⟨hp, hi, hid⟩, hlive, hget, ⟨hq, hj, hjid⟩, hfree⟩
  constructor
  · rintro hinj ⟨hkeeps, p, q, i, j, r, h⟩
    obtain ⟨hp, hi, hid⟩ := h.bare
    obtain ⟨hq, hj, hjid⟩ := h.carrier
    have hr := (remembered_scan (s := s) hold hi hid).mpr ⟨hkeeps, h.recorded, h.live, h.unseen⟩
    have hsame := hinj _ _ _ _ r.cloudId (lookup_scan.mpr ⟨p, i, hp, hi, rfl, rfl⟩)
      (lookup_scan.mpr ⟨q, j, hq, hj, rfl, rfl⟩)
      (Store.entryAt_cloudId.mpr (Or.inr ⟨hid, r, hr, rfl⟩))
      (Store.entryAt_cloudId.mpr (Or.inl hjid))
    rw [hsame] at hp
    cases hp.symm.trans hq
    cases hi.symm.trans hj
    exact Option.some_ne_none _ (hjid.symm.trans hid)
  · intro hnone f g e e' c he he' hc hc'
    obtain ⟨p, i, hp, hi, hf, rfl⟩ := lookup_scan.mp he
    obtain ⟨q, j, hq, hj, hg, rfl⟩ := lookup_scan.mp he'
    rcases Store.entryAt_cloudId.mp hc with hid | ⟨hid, hr⟩
    · rcases Store.entryAt_cloudId.mp hc' with hjd | ⟨hjd, hr'⟩
      · have hsame := hids p q i j c (Store.indexable_eq_some.mp hi).1
          (Store.indexable_eq_some.mp hj).1 hid hjd
        exact hf.symm.trans (hsame.trans hg)
      · exact (hnone (hinherits hq hj hg hp hi hf hid hjd hr')).elim
    · rcases Store.entryAt_cloudId.mp hc' with hjd | ⟨hjd, hr'⟩
      · exact (hnone (hinherits hp hi hf hq hj hg hjd hid hr)).elim
      · obtain ⟨r, hr, hrc⟩ := hr
        obtain ⟨r', hr', hrc'⟩ := hr'
        have hpq := eq_of_cloudId hold ((remembered_scan hold hi hid).mp hr).2.1
          ((remembered_scan hold hj hjd).mp hr').2.1 (hrc.trans hrc'.symm)
        subst hpq
        cases hi.symm.trans hj
        exact hf.symm.trans hg

end

/-! ## A name that is used again -/

private def contentAt (ino : ℕ) (id dehydrated : Attr) : Inode :=
  ⟨⟨⟨1, ino⟩, 1, 0, 0⟩, false, id, .absent, .absent, dehydrated, true⟩

/-- A store that keeps the record. -/
private def keeping : Store := ⟨∅, false, some ⟨[]⟩, ⟨[], []⟩⟩

private def recorded : Config := ⟨⟨[], []⟩, ⟨[(["a"], ⟨"A", none⟩)]⟩⟩

private theorem recorded_distinct : recorded.lineage.Distinct := ⟨by decide, by decide⟩

private theorem get_pair {p : RelPath} {i a b : Inode}
    (h : Disk.fileAt ⟨[(["a"], a), (["b"], b)]⟩ p = some i) :
    p = ["a"] ∧ i = a ∨ p = ["b"] ∧ i = b := by
  have hget := ((Disk.fileAt_eq_some _).mp h).1
  have hmem := PathMap.mem_of_get hget
  simpa using hmem

private theorem distinctIds_pair {a b : Inode}
    (h : a.id.string ≠ b.id.string ∨ a.id.string = none) :
    Disk.DistinctIds ⟨[(["a"], a), (["b"], b)]⟩ := by
  intro p q i j c hi hj hid hjd
  have hne : a.id.string = some c → b.id.string = some c → False := by
    intro ha hb
    exact h.elim (fun h ↦ h (ha.trans hb.symm)) fun h ↦ Option.some_ne_none c (ha.symm.trans h)
  rcases get_pair hi with ⟨-, rfl⟩ | ⟨-, rfl⟩ <;> rcases get_pair hj with ⟨-, rfl⟩ | ⟨-, rfl⟩
  · rfl
  · exact (hne hid hjd).elim
  · exact (hne hjd hid).elim
  · rfl

/-- A save that lost the attributes of one file, beside another object. -/
private def savedOver : Disk :=
  ⟨[(["a"], contentAt 1 .absent .absent), (["b"], contentAt 2 (.text "B") .absent)]⟩

theorem scan_injective_saved : (keeping.scan recorded savedOver none).Injective savedOver := by
  refine (scan_injective_iff keeping recorded savedOver (distinctIds_pair (Or.inr rfl))
    recorded_distinct).mpr ?_
  rintro ⟨-, p, q, i, j, r, h⟩
  have hr := PathMap.mem_of_get h.recorded
  obtain ⟨-, rfl⟩ : p = ["a"] ∧ r = ⟨"A", none⟩ := by simpa [recorded] using hr
  have hcarrier := h.carrier.2.2
  rcases get_pair (Store.indexable_eq_some.mp h.carrier.2.1).1 with ⟨-, rfl⟩ | ⟨-, rfl⟩
  · cases hcarrier
  · exact absurd hcarrier (by decide)

/-- An object whose file was evicted and moved, and a new file under its old name. -/
private def namedAgain : Disk :=
  ⟨[(["a"], contentAt 1 .absent .absent), (["b"], contentAt 2 (.text "A") (.text "1"))]⟩

/-- The new file resolves to the object of the placeholder. -/
theorem scan_not_injective : ¬ ∀ (s : Store) (config : Config) (d : Disk), d.DistinctIds →
    config.lineage.Distinct → (s.scan config d none).Injective d := by
  intro hall
  have hinj := hall keeping recorded namedAgain (distinctIds_pair (Or.inr rfl)) recorded_distinct
  have hnew : (keeping.scan recorded namedAgain none).lookup namedAgain ⟨1, 1⟩
      = some ⟨["a"], some "A", none, 1⟩ := by decide
  have hmoved : (keeping.scan recorded namedAgain none).lookup namedAgain ⟨1, 2⟩
      = some ⟨["b"], some "A", none, 1⟩ := by decide
  exact absurd (hinj _ _ _ _ "A" hnew hmoved rfl rfl) (by decide)

end HydrationAPI.Client
