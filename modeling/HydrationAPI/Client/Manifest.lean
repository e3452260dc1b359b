import HydrationAPI.Client.Store
import HydrationAPI.Lib.Lines
import HydrationAPI.Lib.SortedMap
import Mathlib.Data.String.Basic

/-!
# The manifest

What a backup would miss, one file a line, in the sync root: a path, the id of its object, a size
and a tag, with tabs between them. Lines that begin with `#` are for a person who reads it. The
pass that looks for what was deleted while the daemon was not running reads the lines back.

Neither side treats a character of a name in any way. So a path is lost that begins with the mark of
a comment, one with a tab or a line feed is read as another, and what follows a line feed in the
name of a file that cannot be restored can be read as a line of its own.
-/

namespace HydrationAPI.Client

/-- What a backup is missing for one file. -/
structure Manifest.Entry where
  /-- Relative to the sync root. -/
  path : String
  cloudId : String
  size : ℕ
  etag : Option String
  deriving DecidableEq, Repr

/-- What the user is told, and what a restore can act on. -/
structure Manifest where
  entries : List Manifest.Entry
  /-- Dehydrated, but with no cloud object to fetch. -/
  unrecoverable : List String
  deriving DecidableEq, Repr

/-- What is recorded of a path: the id of its object and a tag. -/
abbrev Noted := String × Option String

/-! ## Written -/

/-- A file at a path that has no content here, and is synced. -/
def dehydratedAt (ignore : IgnoreSet) (d : Disk) (p : RelPath) : Option Inode :=
  (indexable d p).filter fun i ↦ ¬ ignore.ignores p ∧ i.dehydrated.string.isSome

/-- What the manifest says of a file. -/
def entryOf (ignore : IgnoreSet) (d : Disk) (p : RelPath) : Option Manifest.Entry :=
  (dehydratedAt ignore d p).bind fun i ↦ i.id.string.map fun cloudId ↦
    ⟨p.display, cloudId, i.stat.size, i.etag.string⟩

/-- The path of a file that has no object. -/
def unrecoverableOf (ignore : IgnoreSet) (d : Disk) (p : RelPath) : Option String :=
  ((dehydratedAt ignore d p).filter fun i ↦ i.id.string.isNone).map fun _ ↦ p.display

namespace Manifest

/-- Everything in the sync directory that has no local content. -/
def build (ignore : IgnoreSet) (d : Disk) : Manifest where
  entries := (d.paths.dedup.filterMap (entryOf ignore d)).mergeSort fun a b ↦ a.path ≤ b.path
  unrecoverable := (d.paths.dedup.filterMap (unrecoverableOf ignore d)).mergeSort fun a b ↦ a ≤ b

end Manifest

def Manifest.Entry.line (e : Manifest.Entry) : String :=
  Text.tabbed [e.path, e.cloudId, e.size.repr, e.etag.getD "-"]

namespace Manifest

def header (m : Manifest) : List String :=
  ["# Files in this directory that were stored in the cloud and are NOT in your backup.",
    "# Their metadata was backed up; their content was not. Sign in and re-sync to get it.",
    "#",
    "# path\tcloud-id\tsize\tetag",
    "# " ++ (m.entries.length.repr ++ " file(s)")]

def warning (m : Manifest) : List String :=
  if m.unrecoverable.isEmpty then []
  else
    ["#",
      "# WARNING: " ++ (m.unrecoverable.length.repr
        ++ " file(s) below have no content locally AND no cloud object."),
      "# Nothing can restore them. This should not happen; please report it."]
    ++ m.unrecoverable.map ("# UNRECOVERABLE\t" ++ ·)

def render (m : Manifest) : String :=
  Text.unlines (m.header ++ (m.entries.map Manifest.Entry.line ++ m.warning))

/-! ## Read -/

/-- What one line says. -/
def readLine (line : String) : Option (String × Noted) :=
  if line.toList.head? = some '#' ∨ line = "" then none
  else match Text.split '\t' line with
    | p :: id :: _ :: tag :: _ =>
      if p ≠ "" ∧ id ≠ "" then some (p, id, if tag ≠ "-" then some tag else none) else none
    | _ => none

/-- Read the manifest back. One that is missing or cannot be read has no entries. -/
def entriesOf : Option String → SortedMap String Noted
  | none => .empty
  | some raw => .ofList ((Text.lines raw).filterMap readLine)

end Manifest

def Manifest.Entry.noted (e : Manifest.Entry) : String × Noted := (e.path, e.cloudId, e.etag)

/-- What the manifest records of each path. -/
def Manifest.recorded (m : Manifest) : SortedMap String Noted :=
  .ofList (m.entries.map Manifest.Entry.noted)

/-! ## What can be read back -/

/-- A line can say this. -/
structure Noted.Sayable (p : String) (r : Noted) : Prop where
  path : Text.Plain p ∧ p ≠ "" ∧ p.toList.head? ≠ some '#'
  id : Text.Plain r.1 ∧ r.1 ≠ ""
  tag : ∀ t, r.2 = some t → Text.Plain t ∧ t ≠ "-"

namespace Manifest

/-- What is read of the parts of the paths of files without an object that follow a line feed. -/
def strays (m : Manifest) : List (String × Noted) :=
  m.unrecoverable.flatMap fun p ↦ (Text.broken p).tail.filterMap readLine

/-- Every entry can be said by a line, and its tag does not end with a carriage return. Of what is
read of other lines, nothing is about a path that is not listed, and the last about one that is says
the same. -/
structure Legible (m : Manifest) : Prop where
  sayable : ∀ e ∈ m.entries, Noted.Sayable e.path (e.cloudId, e.etag)
  known : ∀ s ∈ m.strays, ∃ e ∈ m.entries, e.path = s.1
  kept : ∀ e ∈ m.entries, match (SortedMap.ofList m.strays).get e.path with
    | some r => r = (e.cloudId, e.etag)
    | none => ∀ t, e.etag = some t → t.toList.getLast? ≠ some '\r'

end Manifest

/-- The root is not an entry of a directory, and no name contains a separator. -/
structure Disk.WellNamed (d : Disk) : Prop where
  root : d.get [] = none
  names : ∀ p ∈ d.paths, ∀ c ∈ p, '/' ∉ c.toList

theorem Disk.WellNamed.split_display {d : Disk} {p : RelPath} (hd : d.WellNamed)
    (h : d.exists' p = true) : Text.split '/' p.display = p := by
  obtain ⟨i, hi⟩ := Option.isSome_iff_exists.mp h
  refine RelPath.split_display ?_ (hd.names p (PathMap.mem_paths.mpr ⟨i, hi⟩))
  rintro rfl
  exact absurd (hd.root.symm.trans hi) nofun

/-! ## Lines -/

namespace Manifest

variable {l p : String} {r : Noted}

/-- **Whatever a line is read as, a line can say it.** -/
theorem readLine_sayable (hl : '\n' ∉ l.toList) (h : readLine l = some (p, r)) :
    Noted.Sayable p r := by
  rw [readLine] at h
  split at h
  · cases h
  · rename_i hhead
    split at h
    · rename_i p' id' size tag rest hsplit
      split at h
      · rename_i hne
        obtain ⟨rfl, rfl⟩ := Prod.mk.inj (Option.some_inj.mp h)
        have hplain : ∀ s ∈ Text.split '\t' l, Text.Plain s := fun s hs ↦
          ⟨Text.not_mem_of_mem_split hs, fun hmem ↦ hl (Text.mem_of_mem_split hs hmem)⟩
        have hmem : p' ∈ Text.split '\t' l ∧ id' ∈ Text.split '\t' l ∧ tag ∈ Text.split '\t' l := by
          simp [hsplit]
        refine ⟨⟨hplain _ hmem.1, hne.1, fun hmark ↦ hhead (Or.inl ?_)⟩,
          ⟨hplain _ hmem.2.1, hne.2⟩, fun t ht ↦ ?_⟩
        · obtain ⟨cs, hcs⟩ := List.head?_eq_some_iff.mp hmark
          obtain ⟨more, hmore⟩ := Text.prefix_of_split hsplit
          rw [← hmore, hcs]
          rfl
        · dsimp only at ht
          split at ht
          · rename_i htag
            cases ht
            exact ⟨hplain _ hmem.2.2, htag⟩
          · cases ht
      · cases h
    · cases h

/-- A line that begins with the mark of a comment is not read. -/
theorem readLine_comment (h : l.toList.head? = some '#') : readLine l = none := if_pos (Or.inl h)

/-- Of a comment only what follows a line feed can be read. -/
theorem filterMap_broken_comment (h : l.toList.head? = some '#') :
    (Text.broken l).filterMap readLine = (Text.broken l).tail.filterMap readLine := by
  obtain ⟨first, others, hbroken, hfirst⟩ := Text.head_broken h (by decide) (by decide)
  rw [hbroken, List.filterMap_cons_none (readLine_comment hfirst), List.tail_cons]

theorem filterMap_broken_plain (h : l.toList.head? = some '#') (hl : '\n' ∉ l.toList) :
    (Text.broken l).filterMap readLine = [] := by
  rw [filterMap_broken_comment h, Text.broken_of_not_mem hl, List.tail_cons, List.filterMap_nil]

end Manifest

/-- The tag that is read of a line that says one. -/
def heardTag (tag : Option String) : Option String :=
  let heard := Text.stripReturn (tag.getD "-")
  if heard ≠ "-" then some heard else none

theorem heardTag_of_ne {tag : Option String} (htag : ∀ t, tag = some t → t ≠ "-")
    (h : ∀ t, tag = some t → t.toList.getLast? ≠ some '\r') : heardTag tag = tag := by
  match tag with
  | none => decide
  | some t =>
    rw [heardTag, Option.getD_some, Text.stripReturn_of_ne (h t rfl)]
    exact if_pos (htag t rfl)

/-- A tag that ends with a carriage return is not heard. -/
theorem heardTag_ne {t : String} (h : t.toList.getLast? = some '\r') :
    heardTag (some t) ≠ some t := by
  rw [heardTag, Option.getD_some]
  split
  · exact fun heq ↦ Text.stripReturn_ne h (Option.some_inj.mp heq)
  · exact (Option.some_ne_none t).symm

namespace Manifest.Entry

variable {e : Manifest.Entry}

theorem plain_tag (h : Noted.Sayable e.path (e.cloudId, e.etag)) :
    Text.Plain (e.etag.getD "-") := by
  match hetag : e.etag with
  | none => exact ⟨by decide, by decide⟩
  | some t => exact (h.tag t hetag).1

/-- **The line of an entry that can be said is read as the entry**, but for its tag. -/
theorem filterMap_broken_line (h : Noted.Sayable e.path (e.cloudId, e.etag)) :
    (Text.broken e.line).filterMap Manifest.readLine = [(e.path, e.cloudId, heardTag e.etag)] := by
  have htag := plain_tag h
  have hfields : ∀ f ∈ [e.path, e.cloudId, e.size.repr], Text.Plain f := by
    simp only [List.forall_mem_cons]
    exact ⟨h.path.1, h.id.1, Text.plain_repr e.size, List.forall_mem_nil _⟩
  obtain ⟨l, hbroken, hsplit, hhead⟩ := Text.fields_broken_tabbed h.path.2.1 hfields htag
  have hcomment : ¬ (l.toList.head? = some '#' ∨ l = "") := by
    rw [hhead, not_or]
    refine ⟨h.path.2.2, fun hempty ↦ ?_⟩
    have hpath : e.path.toList.head? = none := by rw [← hhead, hempty]; rfl
    exact h.path.2.1 (String.toList_inj.mp (List.head?_eq_none_iff.mp hpath))
  have hread : Manifest.readLine l = some (e.path, e.cloudId, heardTag e.etag) := by
    rw [Manifest.readLine, if_neg hcomment, hsplit]
    exact if_pos ⟨h.path.2.1, h.id.2⟩
  rw [line]
  refine (congrArg (List.filterMap Manifest.readLine) hbroken).trans ?_
  rw [List.filterMap_cons_some hread, List.filterMap_nil]

end Manifest.Entry

/-! ## The whole text -/

namespace Manifest

variable {m : Manifest}

theorem header_spec {l : String} (h : l ∈ m.header) :
    l.toList.head? = some '#' ∧ '\n' ∉ l.toList := by
  have hcount : '\n' ∉ ("# " ++ (m.entries.length.repr ++ " file(s)")).toList := by
    simp only [String.toList_append, List.mem_append, not_or]
    exact ⟨by decide, (Text.plain_repr _).2, by decide⟩
  simp only [header, List.mem_cons, List.not_mem_nil, or_false] at h
  rcases h with rfl | rfl | rfl | rfl | rfl
  · exact ⟨by decide, by decide +kernel⟩
  · exact ⟨by decide, by decide +kernel⟩
  · exact ⟨by decide, by decide⟩
  · exact ⟨by decide, by decide⟩
  · exact ⟨by rw [String.toList_append]; rfl, hcount⟩

theorem filterMap_header : (m.header.flatMap Text.broken).filterMap readLine = [] := by
  rw [List.filterMap_flatMap]
  refine List.flatMap_eq_nil_iff.mpr fun l hl ↦ ?_
  exact filterMap_broken_plain (header_spec hl).1 (header_spec hl).2

/-- Of the warning, what follows the line feeds in the paths it names is read. -/
theorem filterMap_warning : (m.warning.flatMap Text.broken).filterMap readLine = m.strays := by
  rw [warning]
  split
  · rename_i hnone
    rw [strays, List.isEmpty_iff.mp hnone]
    rfl
  · have hcount : '\n' ∉ ("# WARNING: " ++ (m.unrecoverable.length.repr
        ++ " file(s) below have no content locally AND no cloud object.")).toList := by
      simp only [String.toList_append, List.mem_append, not_or]
      exact ⟨by decide, (Text.plain_repr _).2, by decide +kernel⟩
    have hnamed : ∀ p : String, (Text.broken ("# UNRECOVERABLE\t" ++ p)).filterMap readLine
        = (Text.broken p).tail.filterMap readLine := by
      intro p
      have hmark : ("# UNRECOVERABLE\t" ++ p).toList.head? = some '#' := by
        rw [String.toList_append]
        rfl
      rw [filterMap_broken_comment hmark, Text.tail_broken_append (by decide)]
    rw [List.flatMap_append, List.filterMap_append, strays]
    have hfirst : (List.flatMap Text.broken ["#", "# WARNING: " ++ (m.unrecoverable.length.repr
        ++ " file(s) below have no content locally AND no cloud object."),
        "# Nothing can restore them. This should not happen; please report it."]).filterMap readLine
        = [] := by
      rw [List.filterMap_flatMap]
      refine List.flatMap_eq_nil_iff.mpr fun l hl ↦ ?_
      simp only [List.mem_cons, List.not_mem_nil, or_false] at hl
      rcases hl with rfl | rfl | rfl
      · exact filterMap_broken_plain (by decide) (by decide)
      · exact filterMap_broken_plain (by rw [String.toList_append]; rfl) hcount
      · exact filterMap_broken_plain (by decide) (by decide +kernel)
    rw [hfirst, List.nil_append, List.filterMap_flatMap, List.flatMap_map]
    exact congrArg (List.flatMap · m.unrecoverable) (funext hnamed)

theorem read_render : (Text.lines m.render).filterMap readLine
    = m.entries.flatMap (fun e ↦ (Text.broken e.line).filterMap readLine) ++ m.strays := by
  rw [render, Text.lines_unlines, List.flatMap_append, List.flatMap_append, List.filterMap_append,
    List.filterMap_append, filterMap_header, filterMap_warning, List.nil_append, List.flatMap_map,
    List.filterMap_flatMap]

/-- What is read can be said. -/
theorem sayable_of_get {raw : Option String} {p : String} {r : Noted}
    (h : (entriesOf raw).get p = some r) : Noted.Sayable p r := by
  match raw with
  | none => exact absurd h nofun
  | some raw =>
    obtain ⟨l, hl, hread⟩ := List.mem_filterMap.mp (SortedMap.mem_of_get_ofList h)
    refine readLine_sayable (Text.not_mem_of_mem_lines hl) hread

/-- Where every entry can be said, the entries are read first and then the strays. -/
theorem read_render_of_sayable (h : ∀ e ∈ m.entries, Noted.Sayable e.path (e.cloudId, e.etag)) :
    (Text.lines m.render).filterMap readLine
      = m.entries.map (fun e ↦ (e.path, e.cloudId, heardTag e.etag)) ++ m.strays := by
  rw [read_render, List.map_eq_flatMap]
  refine congrArg (· ++ m.strays) (List.flatMap_congr fun e he ↦ ?_)
  exact Manifest.Entry.filterMap_broken_line (h e he)

/-- **The entries of a text are what it was written from exactly where the text is legible.** -/
theorem entriesOf_render_iff (hpaths : (m.entries.map Manifest.Entry.path).Nodup) :
    entriesOf (some m.render) = m.recorded ↔ m.Legible := by
  have hkeys : (m.entries.map Manifest.Entry.noted).map Prod.fst = m.entries.map Manifest.Entry.path := by
    rw [List.map_map]
    rfl
  have hget : ∀ e ∈ m.entries, m.recorded.get e.path = some (e.cloudId, e.etag) := fun e he ↦
    SortedMap.get_ofList_of_mem (hkeys ▸ hpaths) (List.mem_map.mpr ⟨e, he, rfl⟩)
  have hfound : ∀ p r, m.recorded.get p = some r → ∃ e ∈ m.entries, e.path = p := by
    intro p r hr
    obtain ⟨e, he, heq⟩ := List.mem_map.mp (SortedMap.mem_of_get_ofList hr)
    exact ⟨e, he, congrArg Prod.fst heq⟩
  -- what is read is known as soon as every entry can be said
  have hread : (∀ e ∈ m.entries, Noted.Sayable e.path (e.cloudId, e.etag)) → ∀ p,
      (entriesOf (some m.render)).get p = ((SortedMap.ofList m.strays).get p).or
        ((SortedMap.ofList (m.entries.map fun e ↦ (e.path, e.cloudId, heardTag e.etag))).get p) :=
    fun hsay p ↦ by rw [entriesOf, read_render_of_sayable hsay, SortedMap.get_ofList_append]
  have hheard : ∀ e ∈ m.entries, (SortedMap.ofList
      (m.entries.map fun e ↦ (e.path, e.cloudId, heardTag e.etag))).get e.path
        = some (e.cloudId, heardTag e.etag) := fun e he ↦ by
    refine SortedMap.get_ofList_of_mem ?_ (List.mem_map.mpr ⟨e, he, rfl⟩)
    rw [List.map_map]
    exact hpaths
  constructor
  · intro heq
    have hsay : ∀ e ∈ m.entries, Noted.Sayable e.path (e.cloudId, e.etag) := fun e he ↦
      sayable_of_get ((congrArg (SortedMap.get · e.path) heq).trans (hget e he))
    have hall := fun p ↦ (congrArg (SortedMap.get · p) heq).symm.trans (hread hsay p)
    refine ⟨hsay, fun s hs ↦ ?_, fun e he ↦ ?_⟩
    · obtain ⟨r, hr⟩ := SortedMap.exists_get_ofList_of_mem hs
      have hs' := hall s.1
      rw [hr, Option.some_or] at hs'
      exact hfound s.1 r hs'
    · have he' := hall e.path
      rw [hheard e he] at he'
      replace he' := (hget e he).symm.trans he'
      match hstray : (SortedMap.ofList m.strays).get e.path with
      | some r =>
        rw [hstray, Option.some_or] at he'
        exact (Option.some_inj.mp he').symm
      | none =>
        rw [hstray, Option.none_or] at he'
        intro t ht hreturn
        have htag : e.etag = heardTag e.etag := (Prod.mk.inj (Option.some_inj.mp he')).2
        rw [ht] at htag
        exact heardTag_ne hreturn htag.symm
  · intro h
    refine SortedMap.ext_get fun p ↦ ?_
    rw [hread h.sayable]
    by_cases hp : ∃ e ∈ m.entries, e.path = p
    · obtain ⟨e, he, rfl⟩ := hp
      have hkept := h.kept e he
      rw [hget e he, hheard e he]
      match hstray : (SortedMap.ofList m.strays).get e.path with
      | some r =>
        rw [hstray] at hkept
        rw [Option.some_or, hkept]
      | none =>
        rw [hstray] at hkept
        rw [Option.none_or, heardTag_of_ne (fun t ht ↦ ((h.sayable e he).tag t ht).2) hkept]
    · have hnone : ∀ es : List (String × Noted), (∀ s ∈ es, ∃ e ∈ m.entries, e.path = s.1) →
          (SortedMap.ofList es).get p = none := by
        intro es hes
        rw [Option.eq_none_iff_forall_ne_some]
        exact fun r hr ↦ hp (hes _ (SortedMap.mem_of_get_ofList hr))
      rw [hnone _ h.known, Option.none_or]
      refine (hnone _ fun s hs ↦ ?_).trans (hnone _ fun s hs ↦ ?_).symm
      · obtain ⟨e, he, rfl⟩ := List.mem_map.mp hs
        exact ⟨e, he, rfl⟩
      · obtain ⟨e, he, rfl⟩ := List.mem_map.mp hs
        exact ⟨e, he, rfl⟩

/-- Nothing about other lines need be asked where no path without an object has a line feed. -/
theorem legible_of_sayable (h : ∀ e ∈ m.entries, Noted.Sayable e.path (e.cloudId, e.etag))
    (hreturn : ∀ e ∈ m.entries, ∀ t, e.etag = some t → t.toList.getLast? ≠ some '\r')
    (hlines : ∀ p ∈ m.unrecoverable, '\n' ∉ p.toList) : m.Legible := by
  have hstrays : m.strays = [] := by
    refine List.flatMap_eq_nil_iff.mpr fun p hp ↦ ?_
    rw [Text.broken_of_not_mem (hlines p hp)]
    rfl
  refine ⟨h, fun s hs ↦ ?_, fun e he ↦ ?_⟩
  · rw [hstrays] at hs
    exact absurd hs List.not_mem_nil
  · rw [hstrays]
    exact hreturn e he

/-! ## A manifest of a directory -/

section

variable {ignore : IgnoreSet} {d : Disk} {p : RelPath} {e : Manifest.Entry}

theorem entryOf_path (h : entryOf ignore d p = some e) :
    e.path = p.display ∧ d.exists' p = true := by
  obtain ⟨i, hi, hentry⟩ := Option.bind_eq_some_iff.mp h
  obtain ⟨cloudId, -, rfl⟩ := Option.map_eq_some_iff.mp hentry
  have hindexed := (Option.filter_eq_some_iff.mp hi).1
  have hget := (d.fileAt_eq_some.mp (Store.indexable_eq_some.mp hindexed).1).1
  exact ⟨rfl, Option.isSome_iff_exists.mpr ⟨i, hget⟩⟩

/-- Each path is listed once. -/
theorem nodup_build (ignore : IgnoreSet) (hd : d.WellNamed) :
    ((build ignore d).entries.map Manifest.Entry.path).Nodup := by
  have hperm := (List.mergeSort_perm (d.paths.dedup.filterMap (entryOf ignore d))
    fun a b ↦ a.path ≤ b.path).map Manifest.Entry.path
  refine hperm.nodup_iff.mpr ?_
  rw [List.map_filterMap]
  refine d.paths.nodup_dedup.filterMap fun p q path hp hq ↦ ?_
  obtain ⟨e, he, rfl⟩ := Option.map_eq_some_iff.mp hp
  obtain ⟨f, hf, hpath⟩ := Option.map_eq_some_iff.mp hq
  obtain ⟨hp, hpath'⟩ := entryOf_path he
  obtain ⟨hq, hqpath⟩ := entryOf_path hf
  rw [← hd.split_display hpath', ← hd.split_display hqpath, ← hp, ← hq, hpath]

/-- **The manifest of a directory is read back as it was written exactly where it is legible.** -/
theorem entriesOf_build_iff (ignore : IgnoreSet) (d : Disk) (hd : d.WellNamed) :
    entriesOf (some (build ignore d).render) = (build ignore d).recorded
      ↔ (build ignore d).Legible := entriesOf_render_iff (nodup_build ignore hd)

end

/-- A placeholder for an object. -/
private def placeholderFor (id : String) : Inode :=
  ⟨⟨⟨1, 1⟩, 7, 0, 0⟩, false, .text id, .text "c:1", .absent, .text "1", false⟩

private theorem wellNamed_one {name : String} (h : '/' ∉ name.toList) (i : Inode) :
    Disk.WellNamed ⟨[([name], i)]⟩ := by
  refine ⟨rfl, fun p hp c hc ↦ ?_⟩
  rw [List.mem_singleton.mp hp] at hc
  rw [List.mem_singleton.mp hc]
  exact h

private theorem legible_one :
    (build ⟨[], []⟩ ⟨[(["a"], placeholderFor "A")]⟩).Legible := by
  have hbuild : build ⟨[], []⟩ ⟨[(["a"], placeholderFor "A")]⟩
      = ⟨[⟨"a", "A", 7, some "c:1"⟩], []⟩ := by decide +kernel
  rw [hbuild]
  refine legible_of_sayable (fun e he ↦ ?_) (fun e he t ht ↦ ?_) nofun
  · cases List.mem_singleton.mp he
    refine ⟨⟨⟨by decide, by decide⟩, by decide, by decide⟩, ⟨⟨by decide, by decide⟩, by decide⟩, ?_⟩
    rintro t ht
    cases ht
    exact ⟨⟨by decide, by decide⟩, by decide⟩
  · cases List.mem_singleton.mp he
    cases ht
    decide

theorem entriesOf_build_one :
    entriesOf (some (build ⟨[], []⟩ ⟨[(["a"], placeholderFor "A")]⟩).render)
      = (build ⟨[], []⟩ ⟨[(["a"], placeholderFor "A")]⟩).recorded :=
  (entriesOf_build_iff ⟨[], []⟩ ⟨[(["a"], placeholderFor "A")]⟩
    (wellNamed_one (by decide) _)).mpr legible_one

/-- The line of a file whose name begins with the mark of a comment is read as a comment. -/
theorem comment_mark_lost : ¬ ∀ (ignore : IgnoreSet) (d : Disk), d.WellNamed →
    entriesOf (some (build ignore d).render) = (build ignore d).recorded := by
  intro hall
  have heq := hall ⟨[], []⟩ ⟨[(["#notes.txt"], placeholderFor "A")]⟩ (wellNamed_one (by decide) _)
  have hlisted : (build ⟨[], []⟩ ⟨[(["#notes.txt"], placeholderFor "A")]⟩).recorded.get "#notes.txt"
      = some ("A", some "c:1") := by decide +kernel
  rw [← heq] at hlisted
  exact (sayable_of_get hlisted).path.2.2 (by decide)

end Manifest

end HydrationAPI.Client
