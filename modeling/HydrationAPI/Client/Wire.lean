import HydrationAPI.Lib.Whitespace

/-!
# The watch line

A watcher is told the state of the daemon in one line of `key=value` tokens. The last value is the
list of the paths being uploaded, each escaped and all joined by spaces, and a reader gets the list
back by cutting the line at white space. The escape knows the space, the line feed and the carriage
return; other white space goes on the line as it is.
-/

namespace HydrationAPI.Client.Wire

/-! ## The escape -/

def encodeChar : Char → List Char
  | '\\' => ['\\', '\\']
  | ' ' => ['\\', 's']
  | '=' => ['\\', 'e']
  | '\n' => ['\\', 'n']
  | '\r' => ['\\', 'r']
  | c => [c]

/-- Encode one path for the watch line. -/
def encodePath (path : String) : String := String.ofList (path.toList.flatMap encodeChar)

/-- What a backslash and the character after it stand for. -/
def unescaped : Char → List Char
  | '\\' => ['\\']
  | 's' => [' ']
  | 'e' => ['=']
  | 'n' => ['\n']
  | 'r' => ['\r']
  -- not one of ours: both are kept
  | other => ['\\', other]

def decodeChars : List Char → List Char
  | [] => []
  | ['\\'] => ['\\']
  | '\\' :: c :: cs => unescaped c ++ decodeChars cs
  | c :: cs => c :: decodeChars cs

/-- Decode one path token from the watch line. -/
def decodePath (token : String) : String := String.ofList (decodeChars token.toList)

/-- The characters that are escaped, each with what stands for it after a backslash. -/
def escapes : List (Char × Char) :=
  [('\\', '\\'), (' ', 's'), ('=', 'e'), ('\n', 'n'), ('\r', 'r')]

/-- A character stands for itself, or it is escaped. -/
theorem encodeChar_cases (c : Char) : encodeChar c = [c] ∧ c ∉ escapes.map Prod.fst
    ∨ ∃ d, (c, d) ∈ escapes ∧ encodeChar c = ['\\', d] ∧ unescaped d = [c] := by
  rw [encodeChar.eq_def]
  split
  · exact Or.inr ⟨'\\', by decide, rfl, rfl⟩
  · exact Or.inr ⟨'s', by decide, rfl, rfl⟩
  · exact Or.inr ⟨'e', by decide, rfl, rfl⟩
  · exact Or.inr ⟨'n', by decide, rfl, rfl⟩
  · exact Or.inr ⟨'r', by decide, rfl, rfl⟩
  · rename_i hback hspace heq hfeed hreturn
    refine Or.inl ⟨rfl, ?_⟩
    simp only [escapes, List.map_cons, List.map_nil, List.mem_cons, List.not_mem_nil, or_false,
      not_or]
    exact ⟨hback, hspace, heq, hfeed, hreturn⟩

theorem decodeChars_append (c : Char) (cs : List Char) :
    decodeChars (encodeChar c ++ cs) = c :: decodeChars cs := by
  rcases encodeChar_cases c with ⟨hc, hplain⟩ | ⟨d, -, hc, hd⟩
  · have hback : c ≠ '\\' := fun h ↦ hplain (h ▸ by decide)
    rw [hc, List.singleton_append, decodeChars.eq_4]
    · exact fun h _ ↦ hback h
    · exact fun _ _ h _ ↦ hback h
  · rw [hc, List.cons_append, List.singleton_append, decodeChars, hd, List.singleton_append]

/-- **A path is read back from its token.** -/
theorem decodePath_encodePath (path : String) : decodePath (encodePath path) = path := by
  have hchars : ∀ cs : List Char, decodeChars (cs.flatMap encodeChar) = cs := by
    intro cs
    induction cs with
    | nil => rfl
    | cons c cs ih => rw [List.flatMap_cons, decodeChars_append, ih]
  rw [decodePath, encodePath, String.toList_ofList, hchars, String.ofList_toList]

/-- The characters of a token. -/
theorem mem_encodePath {path : String} {x : Char} : x ∈ (encodePath path).toList
    ↔ ∃ c ∈ path.toList, x ∈ encodeChar c := by
  rw [encodePath, String.toList_ofList, List.mem_flatMap]

theorem encodePath_eq_empty {path : String} : encodePath path = "" ↔ path = "" := by
  constructor
  · intro h
    rw [← decodePath_encodePath path, h]
    rfl
  · rintro rfl
    rfl

theorem decodePath_eq_empty {token : String} : decodePath token = "" ↔ token = "" := by
  have hchars : ∀ cs, decodeChars cs = [] ↔ cs = [] := by
    intro cs
    refine ⟨fun h ↦ ?_, fun h ↦ by rw [h, decodeChars]⟩
    rw [decodeChars.eq_def] at h
    split at h
    · rfl
    · exact absurd h (List.cons_ne_nil _ _)
    · rename_i c cs
      have hne : unescaped c ≠ [] := by
        rw [unescaped.eq_def]
        split <;> exact List.cons_ne_nil _ _
      exact absurd (List.append_eq_nil_iff.mp h).1 hne
    · exact absurd h (List.cons_ne_nil _ _)
  rw [decodePath, ← String.toList_eq_nil_iff, String.toList_ofList, hchars,
    String.toList_eq_nil_iff]

/-- No equals sign is left, and no white space that is escaped. -/
theorem not_mem_encodePath {path : String} {x : Char} (hx : x ∈ ['=', ' ', '\n', '\r']) :
    x ∉ (encodePath path).toList := by
  intro h
  obtain ⟨c, -, hmem⟩ := mem_encodePath.mp h
  rcases encodeChar_cases c with ⟨hself, hplain⟩ | ⟨d, hd, hcode, -⟩
  · rw [hself, List.mem_singleton] at hmem
    exact hplain (hmem ▸ (by decide : ['=', ' ', '\n', '\r'] ⊆ escapes.map Prod.fst) hx)
  · have hcodes : ∀ y ∈ escapes.flatMap fun p ↦ ['\\', p.2], y ∉ ['=', ' ', '\n', '\r'] :=
      List.forall_iff_forall_mem.mp (by decide)
    exact hcodes x (List.mem_flatMap.mpr ⟨_, hd, hcode ▸ hmem⟩) hx

/-- **A token has no white space** if and only if the path has none but what is escaped. -/
theorem solid_encodePath_iff {path : String} : Text.Solid (encodePath path)
    ↔ ∀ c ∈ path.toList, Text.isWhitespace c = true → c ∈ [' ', '\n', '\r'] := by
  constructor
  · intro h c hc hwhite
    rcases encodeChar_cases c with ⟨hself, -⟩ | ⟨d, hd, -⟩
    · have hsolid := h c (mem_encodePath.mpr ⟨c, hc, hself ▸ List.mem_singleton_self c⟩)
      exact absurd hwhite (by rw [hsolid]; decide)
    · have hwhites : ∀ p ∈ escapes, Text.isWhitespace p.1 = true → p.1 ∈ [' ', '\n', '\r'] := by
        decide
      exact hwhites _ hd hwhite
  · intro h x hx
    obtain ⟨c, hc, hmem⟩ := mem_encodePath.mp hx
    rcases encodeChar_cases c with ⟨hself, hplain⟩ | ⟨d, hd, hcode, -⟩
    · rw [hself, List.mem_singleton] at hmem
      subst hmem
      by_contra hwhite
      rw [Bool.not_eq_false] at hwhite
      exact hplain ((by decide : [' ', '\n', '\r'] ⊆ escapes.map Prod.fst) (h x hc hwhite))
    · have hcodes : ∀ y ∈ escapes.flatMap fun p ↦ ['\\', p.2], Text.isWhitespace y = false :=
        List.forall_iff_forall_mem.mp (by decide)
      exact hcodes x (List.mem_flatMap.mpr ⟨_, hd, hcode ▸ hmem⟩)

/-! ## The line -/

/-- One `watch` line's worth of state. -/
structure WatchState where
  unsent : ℕ
  excluded : ℕ
  exposures : ℕ
  downloading : ℕ
  scanning : Bool
  uploading : List String
  deriving DecidableEq

/-- The tokens of the numbers. -/
def WatchState.numbers (s : WatchState) : List String :=
  ["unsent=" ++ s.unsent.repr, "excluded=" ++ s.excluded.repr, "exposures=" ++ s.exposures.repr,
    "downloading=" ++ s.downloading.repr, "scanning=" ++ s.scanning.toNat.repr]

/-- The wire form, without the trailing newline. -/
def WatchState.line (s : WatchState) : String :=
  let uploading := " ".intercalate (s.uploading.map encodePath)
  " ".intercalate (s.numbers ++ ["uploading=" ++ uploading])

example : (WatchState.mk 1 0 0 0 true ["a b", "c"]).line
    = "unsent=1 excluded=0 exposures=0 downloading=0 scanning=1 uploading=a\\sb c" := by decide

/-- What a reader takes for the paths: the value of the last key, with the tokens after it. -/
def readUploading (line : String) : Option (List String) :=
  match (Text.splitWhitespace line).dropWhile fun t ↦ (Text.stripPrefix "uploading=" t).isNone with
  | [] => none
  | t :: ts =>
    some ((((Text.stripPrefix "uploading=" t).toList ++ ts).filter (· ≠ "")).map decodePath)

/-- The keys on a line. -/
def keys (line : String) : List String :=
  (Text.splitWhitespace line).filterMap fun t ↦ (Text.splitOnce '=' t).map Prod.fst

/-! ## What a reader gets -/

namespace WatchState

variable (s : WatchState)

/-- The tokens of the paths. -/
def paths : List String :=
  match s.uploading.map encodePath with
  | [] => ["uploading="]
  | t :: ts => ("uploading=" ++ t) :: ts

theorem paths_ne_nil : s.paths ≠ [] := by
  rw [paths]
  split <;> exact List.cons_ne_nil _ _

theorem intercalate_paths : " ".intercalate s.paths
    = "uploading=" ++ " ".intercalate (s.uploading.map encodePath) := by
  rw [paths]
  cases s.uploading.map encodePath with
  | nil => rfl
  | cons t ts => exact String.intercalate_cons_append

/-- The line is its tokens, joined by spaces. -/
theorem line_eq : s.line = " ".intercalate (s.numbers ++ s.paths) := by
  have hnumbers : s.numbers ≠ [] := List.cons_ne_nil _ _
  rw [line, String.intercalate_append_of_ne_nil hnumbers (List.cons_ne_nil _ _),
    String.intercalate_append_of_ne_nil hnumbers s.paths_ne_nil, intercalate_paths,
    String.intercalate_singleton]

/-- A reader that cuts the line at white space is told what there is to tell. -/
structure Faithful : Prop where
  tokens : ∀ p ∈ s.uploading, Text.Solid (encodePath p) ∧ '=' ∉ (encodePath p).toList
  read : readUploading s.line = some s.uploading
  keys : keys s.line = ["unsent", "excluded", "exposures", "downloading", "scanning", "uploading"]

/-- No path is empty, and none has white space in it that is not escaped. -/
def Quiet : Prop :=
  ∀ p ∈ s.uploading, p ≠ "" ∧ ∀ c ∈ p.toList, Text.isWhitespace c = true → c ∈ [' ', '\n', '\r']

variable {s}

theorem append_ne_empty {a b : String} (ha : a ≠ "") : a ++ b ≠ "" := by
  rw [Ne, ← String.toList_eq_nil_iff, String.toList_append, List.append_eq_nil_iff]
  exact fun h ↦ ha (String.toList_eq_nil_iff.mp h.1)

theorem solid_numbers {t : String} (h : t ∈ s.numbers) : Text.Solid t ∧ t ≠ "" := by
  have hkeys : ∀ key ∈ ["unsent=", "excluded=", "exposures=", "downloading=", "scanning="],
      Text.Solid key ∧ key ≠ "" := by decide
  have hnumber : ∀ key ∈ ["unsent=", "excluded=", "exposures=", "downloading=", "scanning="],
      ∀ n : ℕ, Text.Solid (key ++ n.repr) ∧ key ++ n.repr ≠ "" := by
    intro key hkey n
    obtain ⟨hsolid, hne⟩ := hkeys key hkey
    exact ⟨hsolid.append (Text.solid_repr n), append_ne_empty hne⟩
  simp only [numbers, List.mem_cons, List.not_mem_nil, or_false] at h
  rcases h with rfl | rfl | rfl | rfl | rfl <;> exact hnumber _ (by decide) _

/-- The tokens of the paths: those of the encoded paths, the first after the key. -/
theorem paths_cases : s.uploading = [] ∧ s.paths = ["uploading="]
    ∨ ∃ p ps, s.uploading = p :: ps
      ∧ s.paths = ("uploading=" ++ encodePath p) :: ps.map encodePath := by
  rw [paths]
  cases s.uploading with
  | nil => exact Or.inl ⟨rfl, rfl⟩
  | cons p ps => exact Or.inr ⟨p, ps, rfl, rfl⟩

theorem Quiet.solid_encodePath (h : s.Quiet) {p : String} (hp : p ∈ s.uploading) :
    Text.Solid (encodePath p) ∧ encodePath p ≠ "" :=
  ⟨solid_encodePath_iff.mpr (h p hp).2, encodePath_eq_empty.not.mpr (h p hp).1⟩

theorem Quiet.solid_paths (h : s.Quiet) {t : String} (ht : t ∈ s.paths) :
    Text.Solid t ∧ t ≠ "" := by
  have hkey : Text.Solid "uploading=" ∧ "uploading=" ≠ "" := by decide
  rcases paths_cases with ⟨-, hpaths⟩ | ⟨p, ps, huploading, hpaths⟩
  · rw [hpaths, List.mem_singleton] at ht
    exact ht ▸ hkey
  · rw [hpaths, List.mem_cons] at ht
    rcases ht with rfl | ht
    · have hp := h.solid_encodePath (huploading ▸ List.mem_cons_self)
      exact ⟨hkey.1.append hp.1, append_ne_empty hkey.2⟩
    · obtain ⟨q, hq, rfl⟩ := List.mem_map.mp ht
      exact h.solid_encodePath (huploading ▸ List.mem_cons_of_mem p hq)

/-- **A reader that cuts the line at white space gets its tokens.** -/
theorem Quiet.splitWhitespace_line (h : s.Quiet) :
    Text.splitWhitespace s.line = s.numbers ++ s.paths := by
  rw [line_eq]
  refine Text.splitWhitespace_intercalate (c := ' ') (by decide) fun t ht ↦ ?_
  rcases List.mem_append.mp ht with ht | ht
  · exact solid_numbers ht
  · exact h.solid_paths ht

theorem stripPrefix_numbers {t : String} (h : t ∈ s.numbers) :
    Text.stripPrefix "uploading=" t = none := by
  simp only [numbers, List.mem_cons, List.not_mem_nil, or_false] at h
  rw [← Option.not_isSome_iff_eq_none, Text.isSome_stripPrefix]
  rcases h with rfl | rfl | rfl | rfl | rfl <;> simp [String.toList_append]

theorem Quiet.readUploading_line (h : s.Quiet) : readUploading s.line = some s.uploading := by
  have hnumbers : s.numbers.all (fun t ↦ (Text.stripPrefix "uploading=" t).isNone) = true :=
    List.all_eq_true.mpr fun t ht ↦ by rw [stripPrefix_numbers ht, Option.isNone_none]
  have hread : ∀ v, Text.stripPrefix "uploading=" ("uploading=" ++ v) = some v :=
    Text.stripPrefix_append "uploading="
  rw [readUploading, h.splitWhitespace_line,
    List.dropWhile_append_of_pos (List.all_eq_true.mp hnumbers)]
  rcases paths_cases with ⟨huploading, hpaths⟩ | ⟨p, ps, huploading, hpaths⟩
  · have hempty : Text.stripPrefix "uploading=" "uploading=" = some "" := hread ""
    rw [hpaths, List.dropWhile_cons_of_neg (by rw [hempty]; decide)]
    dsimp only
    rw [hempty, huploading]
    rfl
  · have hwords : ((p :: ps).map encodePath).filter (· ≠ "") = (p :: ps).map encodePath := by
      refine List.filter_eq_self.mpr fun t ht ↦ ?_
      obtain ⟨q, hq, rfl⟩ := List.mem_map.mp ht
      exact decide_eq_true (h.solid_encodePath (huploading ▸ hq)).2
    rw [hpaths, List.dropWhile_cons_of_neg (by rw [hread]; exact Bool.false_ne_true)]
    dsimp only
    rw [hread, huploading, Option.toList_some, List.singleton_append, ← List.map_cons, hwords,
      List.map_map]
    exact congrArg some (List.map_id'' decodePath_encodePath _)

theorem Quiet.keys_line (h : s.Quiet) : keys s.line
    = ["unsent", "excluded", "exposures", "downloading", "scanning", "uploading"] := by
  have hkey : ∀ key ∈ ["unsent", "excluded", "exposures", "downloading", "scanning", "uploading"],
      ∀ v, (Text.splitOnce '=' (key ++ "=" ++ v)).map Prod.fst = some key := by
    intro key hkey v
    have hnot : ∀ key ∈ ["unsent", "excluded", "exposures", "downloading", "scanning", "uploading"],
        '=' ∉ key.toList := by decide
    rw [String.append_assoc]
    exact congrArg (Option.map Prod.fst) (Text.splitOnce_join (hnot key hkey))
  have hnumbers : s.numbers.filterMap (fun t ↦ (Text.splitOnce '=' t).map Prod.fst)
      = ["unsent", "excluded", "exposures", "downloading", "scanning"] := by
    have hlist : s.numbers = ([("unsent", s.unsent), ("excluded", s.excluded),
        ("exposures", s.exposures), ("downloading", s.downloading),
        ("scanning", s.scanning.toNat)] : List (String × ℕ)).map
          fun p ↦ p.1 ++ "=" ++ p.2.repr := rfl
    simp only [hlist, List.map_cons, List.map_nil, List.filterMap_cons, List.filterMap_nil,
      hkey "unsent" (by decide), hkey "excluded" (by decide), hkey "exposures" (by decide),
      hkey "downloading" (by decide), hkey "scanning" (by decide)]
  have hfirst : ∀ v, (Text.splitOnce '=' ("uploading=" ++ v)).map Prod.fst = some "uploading" :=
    hkey "uploading" (by decide)
  have hpaths : s.paths.filterMap (fun t ↦ (Text.splitOnce '=' t).map Prod.fst)
      = ["uploading"] := by
    rcases paths_cases with ⟨-, hpaths⟩ | ⟨p, ps, -, hpaths⟩
    · rw [hpaths]
      exact congrArg Option.toList (hfirst "")
    · have hrest : (ps.map encodePath).filterMap (fun t ↦ (Text.splitOnce '=' t).map Prod.fst)
          = [] := by
        refine List.filterMap_eq_nil_iff.mpr fun t ht ↦ ?_
        obtain ⟨q, -, rfl⟩ := List.mem_map.mp ht
        rw [Text.splitOnce_of_not_mem (not_mem_encodePath (by decide))]
        rfl
      rw [hpaths, List.filterMap_cons, hfirst, hrest]
  rw [keys, h.splitWhitespace_line, List.filterMap_append, hnumbers, hpaths]
  rfl

theorem Quiet.faithful (h : s.Quiet) : s.Faithful where
  tokens p hp := ⟨(h.solid_encodePath hp).1, not_mem_encodePath (by decide)⟩
  read := h.readUploading_line
  keys := h.keys_line

/-- A reader is never told of an empty path. -/
theorem ne_empty_of_readUploading {line : String} {ps : List String}
    (h : readUploading line = some ps) {p : String} (hp : p ∈ ps) : p ≠ "" := by
  rw [readUploading] at h
  split at h
  · exact absurd h nofun
  · obtain rfl := Option.some.inj h
    obtain ⟨t, ht, rfl⟩ := List.mem_map.mp hp
    have hne := of_decide_eq_true (List.mem_filter.mp ht).2
    exact decodePath_eq_empty.not.mpr hne

theorem Faithful.quiet (h : s.Faithful) : s.Quiet := fun p hp ↦
  ⟨ne_empty_of_readUploading h.read hp, solid_encodePath_iff.mp (h.tokens p hp).1⟩

end WatchState

/-- **A path is read back from its token, and the line is read back** if and only if no path has
white space in it that is not escaped, and none is empty. -/
theorem watch_faithful_iff (s : WatchState) :
    (∀ path, decodePath (encodePath path) = path) ∧ (s.Faithful ↔ s.Quiet) :=
  ⟨decodePath_encodePath, WatchState.Faithful.quiet, WatchState.Quiet.faithful⟩

/-- A tab in a name makes one path two. -/
theorem tab_splits : readUploading (WatchState.mk 0 0 0 0 false ["a\tb"]).line = some ["a", "b"]
    ∧ '\t' ∈ (encodePath "a\tb").toList ∧ ¬ (WatchState.mk 0 0 0 0 false ["a\tb"]).Faithful := by
  have hread : readUploading (WatchState.mk 0 0 0 0 false ["a\tb"]).line = some ["a", "b"] := by
    decide
  refine ⟨hread, by decide, fun h ↦ ?_⟩
  have hback := hread.symm.trans h.read
  exact absurd hback (by decide)

end HydrationAPI.Client.Wire
