import HydrationAPI.Client.Delta
import HydrationAPI.Lib.Lines
import HydrationAPI.Lib.Utf8
import HydrationAPI.Lib.Whitespace
import Mathlib.Data.Finset.Order
import Mathlib.Data.Fintype.EquivFin

/-!
# Ignore rules and the spellings of a path

`.hydration-ignore` is read line by line: a line without a slash names a component, at any depth,
and a line with one a path below the root. A path is held against the rules as it is written, and
its file is where its components lead. Rules for components see every spelling of a path; a rule for
a path sees the spellings that begin with its own.
-/

namespace HydrationAPI.Client

/-! ## The rules -/

/-- Take up a line. -/
def IgnoreSet.addLine (set : IgnoreSet) (raw : String) : IgnoreSet :=
  let line := Text.trimEnd raw
  let line := (Text.stripPrefix "\ufeff" line).getD line
  if line = "" ∨ line.toList.head? = some '#' then set
  -- a rule that reasons about escaping the root is dropped
  else if ".." ∈ Text.split '/' line then set
  else if '/' ∈ line.toList then
    let p := Text.trimMatches '/' line
    if p = "" then set else { set with anchored := set.anchored ++ [p] }
  else { set with component := set.component ++ [line] }

/-- `from_config`. -/
def IgnoreSet.fromConfig (contents : String) : IgnoreSet :=
  (Text.lines contents).foldl IgnoreSet.addLine ⟨[".git"], []⟩

namespace IgnoreSet

/-- No rule goes up, or begins at the root of the system. -/
structure Clean (set : IgnoreSet) : Prop where
  component : ∀ n ∈ set.component, n ≠ ".."
  anchored : ∀ p ∈ set.anchored, p ≠ "" ∧ p.toList.head? ≠ some '/'

theorem Clean.addLine {set : IgnoreSet} (h : set.Clean) (raw : String) :
    (set.addLine raw).Clean := by
  rw [IgnoreSet.addLine]
  dsimp only
  generalize (Text.stripPrefix "\ufeff" (Text.trimEnd raw)).getD (Text.trimEnd raw) = line
  split
  · exact h
  · split
    · exact h
    · rename_i hup
      split
      · split
        · exact h
        · rename_i hne
          refine ⟨h.component, fun p hp ↦ ?_⟩
          rcases List.mem_append.mp hp with hp | hp
          · exact h.anchored p hp
          · rw [List.mem_singleton.mp hp]
            exact ⟨hne, Text.head_trimMatches '/' line⟩
      · rename_i hslash
        refine ⟨fun n hn ↦ ?_, h.anchored⟩
        rcases List.mem_append.mp hn with hn | hn
        · exact h.component n hn
        · rw [List.mem_singleton.mp hn]
          rintro rfl
          exact hup (Text.split_of_not_mem hslash ▸ List.mem_singleton_self _)

theorem clean_fromConfig (contents : String) : (fromConfig contents).Clean := by
  rw [fromConfig]
  refine List.foldlRecOn (motive := Clean) (Text.lines contents) addLine ?_ fun set hset raw _ ↦
    hset.addLine raw
  exact ⟨by decide, by simp⟩

end IgnoreSet

/-! ## Spellings -/

/-- The components of a path, however it is written. -/
def spelled (rel : String) : List String := (Text.split '/' rel).filter fun c ↦ c ≠ "" ∧ c ≠ "."

/-- A path as the system has it. -/
abbrev OsPath := List UInt8

namespace OsPath

def parts (raw : OsPath) : List (List UInt8) := (raw.splitOn 47).filter fun c ↦ c ≠ [] ∧ c ≠ [46]

/-- The path does not begin at the root of the system. -/
def Relative (raw : OsPath) : Prop := raw.head? ≠ some 47

end OsPath

theorem parts_encode (rel : String) :
    OsPath.parts (Utf8.encode rel) = (spelled rel).map Utf8.encode := by
  have hsplit : (Utf8.encode rel).splitOn 47 = (Text.split '/' rel).map Utf8.encode :=
    Utf8.splitOn_encode (c := '/') (by decide) rel
  have hempty : ∀ c, Utf8.encode c = [] ↔ c = "" := fun c ↦ Utf8.encode_injective.eq_iff' rfl
  have hdot : ∀ c, Utf8.encode c = [46] ↔ c = "." := fun c ↦
    Utf8.encode_injective.eq_iff' (by decide)
  rw [OsPath.parts, hsplit, List.filter_map, spelled]
  refine congrArg _ (List.filter_congr fun c _ ↦ ?_)
  simp only [Function.comp_apply, ne_eq, hempty, hdot]

theorem relative_encode {rel : String} :
    OsPath.Relative (Utf8.encode rel) ↔ rel.toList.head? ≠ some '/' :=
  not_congr (Utf8.head_encode (c := '/') (by decide))

theorem components_eq_some {rel : String} {names : RelPath} (h : components rel = some names) :
    spelled rel = names ∧ ".." ∉ names ∧ (Text.split '/' rel).head? ≠ some "." := by
  rw [components] at h
  split at h
  · cases h
  · rename_i hfirst
    dsimp only at h
    split at h
    · cases h
    · rename_i hup
      rw [Option.some_inj] at h
      refine ⟨h, h ▸ hup, fun hhead ↦ ?_⟩
      obtain ⟨rest, hrest⟩ := List.head?_eq_some_iff.mp hhead
      exact hfirst rest hrest

/-- **A path that can be joined** leads to where its components are, strictly below the root. -/
theorem safeJoin_eq_some {rel : String} {names : RelPath} (h : safeJoin rel = some names) :
    spelled rel = names ∧ names ≠ [] ∧ ∀ n ∈ names,
      n ≠ "" ∧ n ≠ "." ∧ n ≠ ".." ∧ '/' ∉ n.toList ∧ Names.isInternal n = false := by
  rw [safeJoin] at h
  split at h
  · cases h
  · rename_i hrel
    split at h
    · cases h
    · rename_i hhead
      split at h
      · cases h
      · rename_i names' hnames
        split at h
        · cases h
        · rename_i hinternal
          obtain rfl := Option.some.inj h
          obtain ⟨hspelled, hup, hdot⟩ := components_eq_some hnames
          refine ⟨hspelled, ?_, fun n hn ↦ ?_⟩
          · -- the first piece is a name
            obtain ⟨c, cs, hcs⟩ := List.exists_cons_of_ne_nil fun hnil ↦
              hrel (String.toList_eq_nil_iff.mp hnil)
            have hc : c ≠ '/' := fun hc ↦ hhead (by rw [hcs, hc, List.head?_cons])
            obtain ⟨first, others, hsplit, hfirst⟩ := Text.head_split (by rw [hcs]; rfl) hc
            have hmem : first ∈ spelled rel := by
              refine List.mem_filter.mpr ⟨hsplit ▸ List.mem_cons_self, decide_eq_true ⟨?_, ?_⟩⟩
              · rintro rfl
                cases hfirst
              · rintro rfl
                exact hdot (by rw [hsplit, List.head?_cons])
            exact hspelled ▸ List.ne_nil_of_mem hmem
          · obtain ⟨hpiece, hne⟩ := List.mem_filter.mp (hspelled ▸ hn)
            obtain ⟨hempty, hdot⟩ := of_decide_eq_true hne
            refine ⟨hempty, hdot, fun h ↦ hup (h ▸ hn), Text.not_mem_of_mem_split hpiece, ?_⟩
            rw [Bool.not_eq_true, List.any_eq_false] at hinternal
            exact Bool.eq_false_iff.mpr (hinternal n hn)

namespace IgnoreSet

variable {set : IgnoreSet} {rel : String} {raw : OsPath} {names : RelPath}

/-- `is_ignored`. A path that is not UTF-8 is not held against the rules for paths. -/
def isIgnoredOs (set : IgnoreSet) (raw : OsPath) : Bool :=
  raw.parts.any (fun c ↦ c ≠ [46, 46] ∧ (Utf8.decode c).any (· ∈ set.component))
    || (Utf8.decode raw).any fun rs ↦
      set.anchored.any fun p ↦ rs = p ∨ (Text.stripPrefix (p ++ "/") rs).isSome

theorem isIgnored_iff : set.isIgnored rel = true ↔
    (∃ n ∈ spelled rel, n ≠ ".." ∧ n ∈ set.component)
      ∨ ∃ p ∈ set.anchored, Text.split '/' p <+: Text.split '/' rel := by
  rw [isIgnored, Bool.or_eq_true, List.any_eq_true, List.any_eq_true]
  refine or_congr ?_ ?_
  · simp [spelled, and_assoc]
  · simp only [decide_eq_true_eq, Text.slash_prefix_iff]

theorem isIgnoredOs_iff : set.isIgnoredOs raw = true ↔
    (∃ n ∈ set.component, n ≠ ".." ∧ Utf8.encode n ∈ raw.parts)
      ∨ ∃ rel, raw = Utf8.encode rel
        ∧ ∃ p ∈ set.anchored, Text.split '/' p <+: Text.split '/' rel := by
  have hup : ∀ n, Utf8.encode n = [46, 46] ↔ n = ".." := fun n ↦
    Utf8.encode_injective.eq_iff' (by decide)
  rw [isIgnoredOs, Bool.or_eq_true, List.any_eq_true, Option.any_eq_true]
  refine or_congr ?_ ?_
  · constructor
    · rintro ⟨c, hc, h⟩
      obtain ⟨hne, h⟩ := of_decide_eq_true h
      obtain ⟨n, hn, hrule⟩ := (Option.any_eq_true _ _).mp h
      obtain rfl := Utf8.decode_eq_some.mp hn
      exact ⟨n, of_decide_eq_true hrule, fun h ↦ hne ((hup n).mpr h), hc⟩
    · rintro ⟨n, hn, hne, hc⟩
      have hread : Utf8.decode (Utf8.encode n) = some n := Utf8.decode_eq_some.mpr rfl
      refine ⟨_, hc, decide_eq_true ⟨fun h ↦ hne ((hup n).mp h), ?_⟩⟩
      exact (Option.any_eq_true _ _).mpr ⟨n, hread, decide_eq_true hn⟩
  · constructor
    · rintro ⟨rs, hrs, h⟩
      obtain ⟨p, hp, h⟩ := List.any_eq_true.mp h
      exact ⟨rs, Utf8.decode_eq_some.mp hrs, p, hp, Text.slash_prefix_iff.mpr (of_decide_eq_true h)⟩
    · rintro ⟨rs, hrs, p, hp, h⟩
      refine ⟨rs, Utf8.decode_eq_some.mpr hrs, ?_⟩
      exact List.any_eq_true.mpr ⟨p, hp, decide_eq_true (Text.slash_prefix_iff.mp h)⟩

/-- A path that is text is held against the rules as the text is. -/
theorem isIgnoredOs_encode (set : IgnoreSet) (rel : String) :
    set.isIgnoredOs (Utf8.encode rel) = set.isIgnored rel := by
  rw [Bool.eq_iff_iff, isIgnoredOs_iff, isIgnored_iff, parts_encode]
  simp only [List.mem_map, Utf8.encode_injective.eq_iff, exists_eq_right, exists_eq_left']
  refine or_congr_left ?_
  constructor
  · rintro ⟨n, hn, hne, hmem⟩
    exact ⟨n, hmem, hne, hn⟩
  · rintro ⟨n, hmem, hne, hn⟩
    exact ⟨n, hn, hne, hmem⟩

/-! ## What escapes -/

/-- The file at a path lies under a rule. -/
def Covers (set : IgnoreSet) (names : RelPath) : Prop :=
  (∃ n ∈ names, n ∈ set.component) ∨ ∃ p ∈ set.anchored, spelled p <+: names

/-- No spelling of a path escapes the rules. -/
structure NoEscape (set : IgnoreSet) : Prop where
  same : ∀ a b : OsPath, a.Relative → b.Relative → a.parts = b.parts →
    set.isIgnoredOs a = set.isIgnoredOs b
  beneath : ∀ a b : OsPath, a.Relative → b.Relative → a.parts <+: b.parts →
    set.isIgnoredOs a = true → set.isIgnoredOs b = true
  skipped : ∀ (ctx : Delta.Ctx) (n : ℕ) (s : Delta.Pass) (c : Change) (rel : String)
    (names : RelPath), ctx.ignore = set → Delta.declared c = some rel →
    safeJoin rel = some names → set.Covers names →
      Delta.applyChange ctx n s c = (s.ignored, .next)

/-- Every rule for a path names a component that is ignored anyway. -/
def ByComponent (set : IgnoreSet) : Prop := ∀ p ∈ set.anchored, ∃ n ∈ spelled p, n ∈ set.component

/-- Then the components of a path decide alone. -/
theorem ByComponent.isIgnoredOs_iff (h : set.ByComponent) (hclean : set.Clean) :
    set.isIgnoredOs raw = true ↔ ∃ n ∈ set.component, Utf8.encode n ∈ raw.parts := by
  rw [IgnoreSet.isIgnoredOs_iff]
  constructor
  · rintro (⟨n, hn, -, hmem⟩ | ⟨rel, rfl, p, hp, hbegins⟩)
    · exact ⟨n, hn, hmem⟩
    · obtain ⟨n, hmem, hn⟩ := h p hp
      refine ⟨n, hn, parts_encode rel ▸ List.mem_map_of_mem ?_⟩
      exact (hbegins.filter _).subset hmem
  · rintro ⟨n, hn, hmem⟩
    exact Or.inl ⟨n, hn, hclean.component n hn, hmem⟩

theorem ByComponent.noEscape (h : set.ByComponent) (hclean : set.Clean) : set.NoEscape where
  same a b _ _ hparts := by
    rw [Bool.eq_iff_iff, h.isIgnoredOs_iff hclean, h.isIgnoredOs_iff hclean, hparts]
  beneath a b _ _ hparts ha := by
    rw [h.isIgnoredOs_iff hclean] at ha ⊢
    obtain ⟨n, hn, hmem⟩ := ha
    exact ⟨n, hn, hparts.subset hmem⟩
  skipped ctx n s c rel names hctx hdeclared hjoin hcovers := by
    have hignored : set.isIgnoredOs (Utf8.encode rel) = true := by
      rw [h.isIgnoredOs_iff hclean, parts_encode, (safeJoin_eq_some hjoin).1]
      rcases hcovers with ⟨n, hmem, hn⟩ | ⟨p, hp, hbegins⟩
      · exact ⟨n, hn, List.mem_map_of_mem hmem⟩
      · obtain ⟨n, hmem, hn⟩ := h p hp
        exact ⟨n, hn, List.mem_map_of_mem (hbegins.subset hmem)⟩
    rw [isIgnoredOs_encode, ← hctx] at hignored
    rw [Delta.applyChange.eq_def, hdeclared]
    exact if_pos hignored

/-! ### Spellings that tell -/

/-- There is a name that is not in a list. -/
theorem exists_name (l : List String) :
    ∃ b : String, b ∉ l ∧ b ≠ "" ∧ b ≠ "." ∧ '/' ∉ b.toList := by
  obtain ⟨m, hm⟩ := (l.map fun n ↦ n.toList.length).toFinset.exists_le
  have hchars : (String.ofList (List.replicate (m + 1) 'a')).toList = List.replicate (m + 1) 'a' :=
    String.toList_ofList
  refine ⟨String.ofList (List.replicate (m + 1) 'a'), fun hmem ↦ ?_, fun h ↦ ?_, fun h ↦ ?_, ?_⟩
  · have hlength := hm _ (List.mem_toFinset.mpr (List.mem_map_of_mem hmem))
    rw [hchars, List.length_replicate] at hlength
    omega
  · rw [h] at hchars
    exact absurd hchars (by simp)
  · rw [h] at hchars
    exact absurd (List.cons.inj hchars).1 (by decide)
  · rw [hchars]
    exact fun h ↦ absurd (List.eq_of_mem_replicate h) (by decide)

/-- A path is written with as many dots and slashes before it as one likes. -/
theorem exists_spelling (p : String) (n : ℕ) : ∃ q : String, q.toList.head? = some '.'
    ∧ Text.split '/' q = "." :: (List.replicate n "" ++ Text.split '/' p) := by
  refine ⟨"/".intercalate ("." :: (List.replicate n "" ++ Text.split '/' p)), ?_, ?_⟩
  · rw [String.intercalate_cons_of_ne_nil (by simp [Text.split_ne_nil])]
    simp
  · refine Text.split_intercalate (List.cons_ne_nil _ _) fun c hc ↦ ?_
    rcases List.mem_cons.mp hc with rfl | hc
    · decide
    · rcases List.mem_append.mp hc with hc | hc
      · rw [List.eq_of_mem_replicate hc]
        simp
      · exact Text.not_mem_of_mem_split hc

/-- **A rule for a path that does something of its own is escaped by a spelling.** -/
theorem byComponent_of_same (hclean : set.Clean)
    (h : ∀ a b : String, a.toList.head? ≠ some '/' → b.toList.head? ≠ some '/' →
      spelled a = spelled b → set.isIgnored a = set.isIgnored b) : set.ByComponent := by
  intro p hp
  by_contra hnone
  push Not at hnone
  by_cases hdots : ∃ q ∈ set.anchored, spelled q = []
  · -- a rule of dots: any name is ignored where it is written below them
    obtain ⟨q, hq, hqparts⟩ := hdots
    obtain ⟨b, hb, hne, hdot, hslash⟩ := exists_name (set.component ++ set.anchored)
    rw [List.mem_append, not_or] at hb
    have hsplit : Text.split '/' (q ++ ("/" ++ b)) = Text.split '/' q ++ [b] := by
      rw [show "/" = String.singleton '/' from rfl, Text.split_append, Text.split_of_not_mem hslash]
    have hspelled : spelled b = [b] := by
      rw [spelled, Text.split_of_not_mem hslash]
      simp [hne, hdot]
    have hbelow : set.isIgnored (q ++ ("/" ++ b)) = true :=
      isIgnored_iff.mpr (Or.inr ⟨q, hq, hsplit ▸ List.prefix_append _ _⟩)
    have halone : ¬ set.isIgnored b = true := by
      rw [isIgnored_iff, hspelled, Text.split_of_not_mem hslash]
      rintro (⟨n, hn, -, hrule⟩ | ⟨r, hr, hbegins⟩)
      · exact hb.1 (List.mem_singleton.mp hn ▸ hrule)
      · -- the rule would be the name itself
        have hlength := List.length_pos_iff.mpr (Text.split_ne_nil '/' r)
        have hwhole := hbegins.eq_of_length_le (by rw [List.length_singleton]; omega)
        have heq := Text.intercalate_split '/' r
        rw [hwhole, String.intercalate_singleton] at heq
        exact hb.2 (heq ▸ hr)
    rw [h (q ++ ("/" ++ b)) b] at hbelow
    · exact halone hbelow
    · have hq' := hclean.anchored q hq
      rw [String.toList_append,
        List.head?_append_of_ne_nil _ (String.toList_eq_nil_iff.not.mpr hq'.1)]
      exact hq'.2
    · intro hhead
      exact hslash (List.mem_of_mem_head? hhead)
    · have hb' := hspelled
      rw [spelled, Text.split_of_not_mem hslash] at hb'
      rw [spelled, hsplit, List.filter_append, ← spelled, hqparts, hb', hspelled, List.nil_append]
  · -- more slashes than any rule has
    obtain ⟨m, hm⟩ := (set.anchored.map fun q ↦ (Text.split '/' q).length).toFinset.exists_le
    obtain ⟨b, hhead, hsplit⟩ := exists_spelling p m
    have hspelled : spelled b = spelled p := by
      rw [spelled, hsplit, List.filter_cons_of_neg (by decide), List.filter_append,
        List.filter_eq_nil_iff.mpr fun c hc ↦ by simp [List.eq_of_mem_replicate hc]]
      rfl
    have hplain : set.isIgnored p = true := isIgnored_iff.mpr (Or.inr ⟨p, hp, List.prefix_rfl⟩)
    rw [h p b (hclean.anchored p hp).2 (by rw [hhead]; decide) hspelled.symm, isIgnored_iff,
      hspelled, hsplit] at hplain
    rcases hplain with ⟨n, hn, -, hrule⟩ | ⟨r, hr, hbegins⟩
    · exact hnone n hn hrule
    · have hlength := hm _ (List.mem_toFinset.mpr (List.mem_map_of_mem hr))
      have hdotted : Text.split '/' r <+: "." :: List.replicate m "" := by
        refine List.prefix_of_prefix_length_le hbegins ?_ (by simpa using Nat.le_succ_of_le hlength)
        exact List.prefix_append (_ :: _) _
      refine hdots ⟨r, hr, List.filter_eq_nil_iff.mpr fun c hc ↦ ?_⟩
      rcases List.mem_cons.mp (hdotted.subset hc) with rfl | hc
      · decide
      · rw [List.eq_of_mem_replicate hc]
        decide

/-- What is written plainly, without repeated slashes or dots, is ignored where its file lies under
a rule, if the rules are written plainly too. -/
theorem isIgnored_iff_covers (hclean : set.Clean)
    (hrules : ∀ p ∈ set.anchored, Text.split '/' p = spelled p)
    (hrel : Text.split '/' rel = spelled rel) :
    set.isIgnored rel = true ↔ set.Covers (spelled rel) := by
  rw [isIgnored_iff, Covers, hrel]
  refine or_congr ?_ ?_
  · constructor
    · rintro ⟨n, hmem, -, hn⟩
      exact ⟨n, hmem, hn⟩
    · rintro ⟨n, hmem, hn⟩
      exact ⟨n, hmem, hclean.component n hn, hn⟩
  · exact exists_congr fun p ↦ and_congr_right fun hp ↦ by rw [hrules p hp]

end IgnoreSet

/-- **No spelling of a path escapes the rules** if and only if every rule for a path names a
component that is ignored anyway. Of the paths that are written plainly none escapes rules that are
written plainly; and whatever can be joined lies strictly below the root, with no name of the
framework's own. -/
theorem noEscape_iff (contents : String) :
    (∀ rel names, safeJoin rel = some names → names ≠ [] ∧ ∀ n ∈ names,
        n ≠ "" ∧ n ≠ "." ∧ n ≠ ".." ∧ '/' ∉ n.toList ∧ Names.isInternal n = false)
      ∧ ((IgnoreSet.fromConfig contents).NoEscape ↔ (IgnoreSet.fromConfig contents).ByComponent)
      ∧ ∀ rel names, safeJoin rel = some names →
        (∀ p ∈ (IgnoreSet.fromConfig contents).anchored, Text.split '/' p = spelled p) →
        Text.split '/' rel = spelled rel →
          ((IgnoreSet.fromConfig contents).isIgnored rel = true
            ↔ (IgnoreSet.fromConfig contents).Covers names) := by
  have hclean := IgnoreSet.clean_fromConfig contents
  refine ⟨fun rel names h ↦ (safeJoin_eq_some h).2, ⟨fun h ↦ ?_, fun h ↦ h.noEscape hclean⟩, ?_⟩
  · refine IgnoreSet.byComponent_of_same hclean fun a b ha hb hspelled ↦ ?_
    have hsame := h.same (Utf8.encode a) (Utf8.encode b) (relative_encode.mpr ha)
      (relative_encode.mpr hb) (by rw [parts_encode, parts_encode, hspelled])
    rwa [IgnoreSet.isIgnoredOs_encode, IgnoreSet.isIgnoredOs_encode] at hsame
  · intro rel names hjoin hrules hrel
    rw [← (safeJoin_eq_some hjoin).1]
    exact IgnoreSet.isIgnored_iff_covers hclean hrules hrel

/-- A slash that is written twice takes a file past the rule for its directory. -/
theorem doubled_slash_escapes :
    (IgnoreSet.fromConfig "build/out\n").anchored = ["build/out"]
      ∧ safeJoin "build/out/x" = safeJoin "build//out/x"
      ∧ safeJoin "build//out/x" = some ["build", "out", "x"]
      ∧ (IgnoreSet.fromConfig "build/out\n").isIgnored "build/out/x" = true
      ∧ (IgnoreSet.fromConfig "build/out\n").isIgnored "build//out/x" = false
      ∧ ¬ (IgnoreSet.fromConfig "build/out\n").NoEscape := by
  have hplain : (IgnoreSet.fromConfig "build/out\n").isIgnored "build/out/x" = true := by
    decide
  have hdoubled : (IgnoreSet.fromConfig "build/out\n").isIgnored "build//out/x" = false := by
    decide
  refine ⟨by decide, by decide, by decide, hplain, hdoubled, fun h ↦ ?_⟩
  have hsame := h.same (Utf8.encode "build/out/x") (Utf8.encode "build//out/x")
    (relative_encode.mpr (by decide)) (relative_encode.mpr (by decide))
    (by rw [parts_encode, parts_encode]; decide)
  rw [IgnoreSet.isIgnoredOs_encode, IgnoreSet.isIgnoredOs_encode, hplain, hdoubled] at hsame
  exact absurd hsame (by decide)

end HydrationAPI.Client
