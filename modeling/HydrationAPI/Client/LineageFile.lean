import HydrationAPI.Client.Manifest
import HydrationAPI.Protocol.Errors

/-!
# The lineage as it is kept

The record by path of what each file's attributes said, as the daemon holds it and as it lies in the
sync root: a path, the id of its object and a tag, one record a line with tabs between them. A scan
replaces what is remembered, and it is only written when that says something new.

A path is written as it is. One that begins with the mark of a comment is not read back, and one
with a tab or a line feed in it is read as another.
-/

namespace HydrationAPI.Client

/-- Paths, as they are written, to what was last known about the object at each of them. -/
structure LineageFile where
  byPath : SortedMap String Record
  /-- Whether anything has changed since it was written. -/
  dirty : Bool

namespace LineageFile

/-! ## Read and written -/

/-- What one line records. -/
def readLine (line : String) : Option (String × Record) :=
  if line = "" ∨ line.toList.head? = some '#' then none
  else match Text.split '\t' line with
    | path :: cloudId :: rest =>
      if path = "" ∨ cloudId = "" then none
      else some (path, ⟨cloudId, rest.head?.filter (· ≠ "")⟩)
    | _ => none

/-- Read what is on disk, or start empty. -/
def load : Option String → LineageFile
  | none => ⟨.empty, false⟩
  | some raw => ⟨.ofList ((Text.lines raw).filterMap readLine), false⟩

def header : List String :=
  ["# What each file's extended attributes said, the last time they were there.",
    "# Written by the hydration framework so that a save which replaces a file",
    "# — git, and most editors — does not lose which cloud object the file is,",
    "# or which version of it the edit is based on. Not a backup, and not",
    "# authoritative: the file's own attributes win whenever it still has them.",
    "#",
    "# path\tcloud-id\tetag"]

def line (e : String × Record) : String :=
  Text.tabbed [e.1, e.2.cloudId, e.2.tag.getD ""]

def text (l : LineageFile) : String := Text.unlines (header ++ l.byPath.entries.map line)

/-- Write it out beside the file and rename it, and only when it says something new. One of the two
can fail, and then the file says what it said. -/
def write (l : LineageFile) (file : Option String) :
    Except IoError Unit → Except IoError Unit × LineageFile × Option String
  | .error e => if l.dirty then (.error e, l, file) else (.ok (), l, file)
  | .ok () => (.ok (), { l with dirty := false }, if l.dirty then some l.text else file)

/-! ## What a scan leaves of it -/

/-- Replace what is remembered with what a scan just saw, keeping only the records that survived
it. -/
def absorb (l : LineageFile) (seen : SortedMap String Record) (live : List String) : LineageFile :=
  let kept := l.byPath.entries.filter fun e ↦ (seen.get e.1).isNone
    ∧ (∀ s ∈ seen.entries, s.2.cloudId ≠ e.2.cloudId) ∧ e.1 ∈ live
  let next : SortedMap String Record := .ofList (kept ++ seen.entries)
  if next.entries ≠ l.byPath.entries then ⟨next, true⟩ else l

/-- What a scan of a directory does to the record. -/
def scanned (ignore : IgnoreSet) (d : Disk) (l : LineageFile) : LineageFile :=
  let live := d.paths.filter (isLive ignore d)
  l.absorb (.ofList (live.filterMap fun p ↦ (recordOf d p).map (p.display, ·)))
    (live.map RelPath.display)

/-! ## What can be read back -/

/-- A line can say this, and is read as saying it. -/
structure Sayable (e : String × Record) : Prop where
  path : Text.Plain e.1 ∧ e.1 ≠ "" ∧ e.1.toList.head? ≠ some '#'
  id : Text.Plain e.2.cloudId ∧ e.2.cloudId ≠ ""
  tag : ∀ t, e.2.tag = some t → Text.Plain t ∧ t ≠ "" ∧ t.toList.getLast? ≠ some '\r'

/-! ## Lines -/

section

variable {l p : String} {r : Record} {e : String × Record}

/-- Whatever a line is read as, it says the path, the id and the tag in plain fields. -/
theorem readLine_spec (hl : '\n' ∉ l.toList) (h : readLine l = some (p, r)) :
    (Text.Plain p ∧ p ≠ "" ∧ p.toList.head? ≠ some '#') ∧ (Text.Plain r.cloudId ∧ r.cloudId ≠ "")
      ∧ ∀ t, r.tag = some t → Text.Plain t ∧ t ≠ "" := by
  rw [readLine] at h
  split at h
  · exact absurd h nofun
  · rename_i hhead
    split at h
    · rename_i path cloudId rest hsplit
      split at h
      · exact absurd h nofun
      · rename_i hne
        obtain ⟨rfl, rfl⟩ := Prod.mk.inj (Option.some_inj.mp h)
        rw [not_or] at hne
        have hplain : ∀ s ∈ path :: cloudId :: rest, Text.Plain s := fun s hs ↦ by
          rw [← hsplit] at hs
          exact ⟨Text.not_mem_of_mem_split hs, fun hmem ↦ hl (Text.mem_of_mem_split hs hmem)⟩
        refine ⟨⟨hplain path List.mem_cons_self, hne.1, fun hmark ↦ hhead (Or.inr ?_)⟩,
          ⟨hplain cloudId (by simp), hne.2⟩, fun t ht ↦ ?_⟩
        · obtain ⟨cs, hcs⟩ := List.head?_eq_some_iff.mp hmark
          obtain ⟨more, hmore⟩ := Text.prefix_of_split hsplit
          rw [← hmore, hcs]
          rfl
        · obtain ⟨hhead', hfilled⟩ := Option.filter_eq_some_iff.mp ht
          have hrest := List.mem_of_mem_head? hhead'
          exact ⟨hplain t (by simp [hrest]), by simpa using hfilled⟩
    · exact absurd h nofun

/-- The tag that is read of a line that says one. -/
def heardTag (tag : Option String) : Option String :=
  (some (Text.stripReturn (tag.getD ""))).filter (· ≠ "")

theorem heardTag_of_ne {tag : Option String} (h : ∀ t, tag = some t → t ≠ "" ∧
    t.toList.getLast? ≠ some '\r') : heardTag tag = tag := by
  match tag with
  | none => decide
  | some t =>
    rw [heardTag, Option.getD_some, Text.stripReturn_of_ne (h t rfl).2]
    exact Option.filter_eq_some_iff.mpr ⟨rfl, by simpa using (h t rfl).1⟩

/-- A tag that ends with a carriage return is not heard. -/
theorem heardTag_ne {t : String} (h : t.toList.getLast? = some '\r') :
    heardTag (some t) ≠ some t := by
  intro heq
  have hheard := (Option.filter_eq_some_iff.mp heq).1
  exact Text.stripReturn_ne h (Option.some_inj.mp hheard)

/-- **The line of a record is read as the record**, but for its tag. -/
theorem filterMap_broken_line (hpath : Text.Plain e.1 ∧ e.1 ≠ "" ∧ e.1.toList.head? ≠ some '#')
    (hid : Text.Plain e.2.cloudId ∧ e.2.cloudId ≠ "")
    (htag : ∀ t, e.2.tag = some t → Text.Plain t) :
    (Text.broken (line e)).filterMap readLine = [(e.1, ⟨e.2.cloudId, heardTag e.2.tag⟩)] := by
  have hlast : Text.Plain (e.2.tag.getD "") := by
    cases hetag : e.2.tag with
    | none => exact ⟨by decide, by decide⟩
    | some t => exact htag t hetag
  have hfields : ∀ f ∈ [e.1, e.2.cloudId], Text.Plain f := by
    simp only [List.forall_mem_cons]
    exact ⟨hpath.1, hid.1, List.forall_mem_nil _⟩
  obtain ⟨l, hbroken, hsplit, hhead⟩ := Text.fields_broken_tabbed hpath.2.1 hfields hlast
  have hcomment : ¬ (l = "" ∨ l.toList.head? = some '#') := by
    rw [hhead, not_or]
    refine ⟨fun hempty ↦ ?_, hpath.2.2⟩
    have hnone : e.1.toList.head? = none := by rw [← hhead, hempty]; rfl
    exact hpath.2.1 (String.toList_inj.mp (List.head?_eq_none_iff.mp hnone))
  have hread : readLine l = some (e.1, ⟨e.2.cloudId, heardTag e.2.tag⟩) := by
    rw [readLine, if_neg hcomment, hsplit]
    exact if_neg (not_or.mpr ⟨hpath.2.1, hid.2⟩)
  rw [line]
  refine (congrArg (List.filterMap readLine) hbroken).trans ?_
  rw [List.filterMap_cons_some hread, List.filterMap_nil]

theorem filterMap_header : (header.flatMap Text.broken).filterMap readLine = [] := by
  have hcomment : ∀ l ∈ header, l.toList.head? = some '#' ∧ '\n' ∉ l.toList := by
    simp only [header, List.forall_mem_cons]
    exact ⟨⟨by decide, by decide +kernel⟩, ⟨by decide, by decide +kernel⟩,
      ⟨by decide, by decide +kernel⟩, ⟨by decide, by decide +kernel⟩,
      ⟨by decide, by decide +kernel⟩, ⟨by decide, by decide⟩, ⟨by decide, by decide⟩,
      List.forall_mem_nil _⟩
  rw [List.filterMap_flatMap]
  refine List.flatMap_eq_nil_iff.mpr fun l hl ↦ ?_
  obtain ⟨hmark, hline⟩ := hcomment l hl
  obtain ⟨first, others, hbroken, hfirst⟩ := Text.head_broken hmark (by decide) (by decide)
  have hone := hbroken.symm.trans (Text.broken_of_not_mem hline)
  have hread : readLine first = none := if_pos (Or.inr hfirst)
  rw [hbroken, (List.cons.inj hone).2, List.filterMap_cons_none hread, List.filterMap_nil]

end

/-! ## The whole text -/

variable {l : LineageFile}

theorem read_text : (Text.lines l.text).filterMap readLine
    = l.byPath.entries.flatMap fun e ↦ (Text.broken (line e)).filterMap readLine := by
  rw [text, Text.lines_unlines, List.flatMap_append, List.filterMap_append, filterMap_header,
    List.nil_append, List.flatMap_map, List.filterMap_flatMap]

/-- What is loaded says the path, the id and the tag in plain fields. -/
theorem spec_of_get {raw : Option String} {p : String} {r : Record}
    (h : (load raw).byPath.get p = some r) :
    (Text.Plain p ∧ p ≠ "" ∧ p.toList.head? ≠ some '#') ∧ (Text.Plain r.cloudId ∧ r.cloudId ≠ "")
      ∧ ∀ t, r.tag = some t → Text.Plain t ∧ t ≠ "" := by
  match raw with
  | none => exact absurd h nofun
  | some raw =>
    obtain ⟨l, hl, hread⟩ := List.mem_filterMap.mp (SortedMap.mem_of_get_ofList h)
    exact readLine_spec (Text.not_mem_of_mem_lines hl) hread

/-- **What was written is loaded exactly where every record of it can be said.** -/
theorem load_write_iff (l : LineageFile) (file : Option String) (hdirty : l.dirty = true) :
    (load (l.write file (.ok ())).2.2).byPath = l.byPath
      ↔ ∀ e ∈ l.byPath.entries, Sayable e := by
  have hwritten : (l.write file (.ok ())).2.2 = some l.text := if_pos hdirty
  have hread : (∀ e ∈ l.byPath.entries, (Text.Plain e.1 ∧ e.1 ≠ "" ∧ e.1.toList.head? ≠ some '#')
      ∧ (Text.Plain e.2.cloudId ∧ e.2.cloudId ≠ "") ∧ ∀ t, e.2.tag = some t → Text.Plain t) →
      (load (some l.text)).byPath
        = .ofList (l.byPath.entries.map fun e ↦ (e.1, ⟨e.2.cloudId, heardTag e.2.tag⟩)) := by
    intro h
    rw [load, read_text, List.map_eq_flatMap]
    refine congrArg SortedMap.ofList (List.flatMap_congr fun e he ↦ ?_)
    exact filterMap_broken_line (h e he).1 (h e he).2.1 (h e he).2.2
  rw [hwritten]
  constructor
  · intro heq e he
    have hspec : ∀ e ∈ l.byPath.entries, _ := fun e he ↦ spec_of_get (r := e.2)
      ((congrArg (SortedMap.get · e.1) heq).trans (SortedMap.get_of_mem he))
    have hall := hread fun e he ↦ ⟨(hspec e he).1, (hspec e he).2.1,
      fun t ht ↦ ((hspec e he).2.2 t ht).1⟩
    obtain ⟨hpath, hid, htag⟩ := hspec e he
    refine ⟨hpath, hid, fun t ht ↦ ⟨(htag t ht).1, (htag t ht).2, fun hreturn ↦ ?_⟩⟩
    have hself : l.byPath.get e.1 = some ⟨e.2.cloudId, heardTag e.2.tag⟩ := by
      rw [← heq, hall]
      refine SortedMap.get_ofList_of_mem ?_ (List.mem_map.mpr ⟨e, he, rfl⟩)
      rw [List.map_map]
      exact l.byPath.nodup_keys
    have hrecord := Option.some_inj.mp ((SortedMap.get_of_mem he).symm.trans hself)
    have htags : e.2.tag = heardTag e.2.tag := congrArg Record.tag hrecord
    rw [ht] at htags
    exact heardTag_ne hreturn htags.symm
  · intro h
    rw [hread fun e he ↦ ⟨(h e he).path, (h e he).id, fun t ht ↦ ((h e he).tag t ht).1⟩]
    have hsame : l.byPath.entries.map (fun e ↦ (e.1, (⟨e.2.cloudId, heardTag e.2.tag⟩ : Record)))
        = l.byPath.entries := by
      refine (List.map_congr_left fun e he ↦ ?_).trans (List.map_id _)
      rw [heardTag_of_ne fun t ht ↦ ((h e he).tag t ht).2]
      rfl
    rw [hsame, SortedMap.ofList_entries]

/-! ## What a scan records -/

private def heldFile (id : String) : Inode :=
  ⟨⟨⟨1, 1⟩, 7, 0, 0⟩, false, .text id, .text "c:1", .absent, .absent, true⟩

/-- What a first scan records of a directory with one file. -/
private def scannedOne (name : String) : LineageFile :=
  scanned ⟨[], []⟩ ⟨[([name], heldFile "A")]⟩ (load none)

theorem load_write_one :
    (load ((scannedOne "a").write none (.ok ())).2.2).byPath = (scannedOne "a").byPath := by
  refine (load_write_iff (scannedOne "a") none (by decide +kernel)).mpr ?_
  have hentries : (scannedOne "a").byPath.entries = [("a", ⟨"A", some "c:1"⟩)] := by decide +kernel
  rw [hentries]
  intro e he
  rw [List.mem_singleton.mp he]
  refine ⟨⟨⟨by decide, by decide⟩, by decide, by decide⟩, ⟨⟨by decide, by decide⟩, by decide⟩, ?_⟩
  rintro t ht
  cases ht
  exact ⟨⟨by decide, by decide⟩, by decide, by decide⟩

/-- A record of a file whose name begins with the mark of a comment is not loaded again. -/
theorem comment_mark_dropped : ¬ ∀ (ignore : IgnoreSet) (d : Disk) (file : Option String),
    let l := scanned ignore d (load file)
    l.dirty = true → (load (l.write file (.ok ())).2.2).byPath = l.byPath := by
  intro hall
  have heq := hall ⟨[], []⟩ ⟨[(["#notes.txt"], heldFile "A")]⟩ none (by decide +kernel)
  have hrecorded : (scannedOne "#notes.txt").byPath.get "#notes.txt" = some ⟨"A", some "c:1"⟩ := by
    decide +kernel
  rw [scannedOne, ← heq] at hrecorded
  exact (spec_of_get hrecorded).1.2.2 (by decide)

end LineageFile

end HydrationAPI.Client
