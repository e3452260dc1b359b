import HydrationAPI.Lib.Text
import Mathlib.Data.List.DropRight

/-!
# White space

The characters that count as white space, and what the standard library does at them: a text is
trimmed, and cut into its words.
-/

namespace Text

/-- `char::is_whitespace`. -/
def isWhitespace (c : Char) : Bool :=
  (0x9 ≤ c.toNat && c.toNat ≤ 0xd) || (0x2000 ≤ c.toNat && c.toNat ≤ 0x200a)
    || c.toNat ∈ [0x20, 0x85, 0xa0, 0x1680, 0x2028, 0x2029, 0x202f, 0x205f, 0x3000]

/-- `str::trim_end`. -/
def trimEnd (s : String) : String := String.ofList (s.toList.rdropWhile isWhitespace)

/-- `str::trim_matches`, of one character. -/
def trimMatches (c : Char) (s : String) : String :=
  String.ofList ((s.toList.dropWhile (· = c)).rdropWhile (· = c))

/-- What is trimmed does not begin with the character. -/
theorem head_trimMatches (c : Char) (s : String) : (trimMatches c s).toList.head? ≠ some c := by
  rw [trimMatches, String.toList_ofList]
  intro hhead
  obtain ⟨rest, hrest⟩ := List.rdropWhile_prefix (p := (· = c)) (s.toList.dropWhile (· = c))
  have hfirst := List.head?_dropWhile_not (fun d ↦ decide (d = c)) s.toList
  obtain ⟨cs, hcs⟩ := List.head?_eq_some_iff.mp hhead
  rw [← hrest, hcs, List.cons_append, List.head?_cons] at hfirst
  exact absurd hfirst (by simp)

/-! ## Words -/

/-- No character of the text is white space. -/
def Solid (s : String) : Prop := ∀ c ∈ s.toList, isWhitespace c = false

instance (s : String) : Decidable (Solid s) :=
  decidable_of_iff (s.toList.all fun c ↦ !isWhitespace c) (by simp [Solid])

/-- `str::split_whitespace`. -/
def splitWhitespace (s : String) : List String :=
  ((s.toList.splitOnP isWhitespace).filter (· ≠ [])).map String.ofList

theorem Solid.append {s t : String} (hs : Solid s) (ht : Solid t) : Solid (s ++ t) := by
  intro c hc
  rw [String.toList_append] at hc
  exact (List.mem_append.mp hc).elim (hs c) (ht c)

theorem isWhitespace_of_isDigit {c : Char} (h : c.isDigit = true) : isWhitespace c = false := by
  have hdigit : 48 ≤ c.toNat ∧ c.toNat ≤ 57 := by
    rw [Char.isDigit, Bool.and_eq_true, decide_eq_true_eq, decide_eq_true_eq] at h
    exact ⟨UInt32.le_iff_toNat_le.mp h.1, UInt32.le_iff_toNat_le.mp h.2⟩
  simp only [isWhitespace, List.mem_cons, List.not_mem_nil, or_false, Bool.or_eq_false_iff,
    Bool.and_eq_false_iff, decide_eq_false_iff_not]
  omega

theorem solid_repr (n : ℕ) : Solid n.repr := by
  intro c hc
  by_contra hwhite
  refine not_mem_repr ?_ n hc
  by_contra hdigit
  exact hwhite (isWhitespace_of_isDigit (Bool.not_eq_false _ ▸ hdigit))

theorem splitWhitespace_append {c : Char} (hc : isWhitespace c = true) (a b : String) :
    splitWhitespace (a ++ (String.singleton c ++ b)) = splitWhitespace a ++ splitWhitespace b := by
  have hlist : (a ++ (String.singleton c ++ b)).toList = a.toList ++ c :: b.toList := by simp
  rw [splitWhitespace, hlist, List.splitOnP_append_cons _ _ hc, List.filter_append, List.map_append]
  rfl

theorem Solid.splitWhitespace {s : String} (h : Solid s) (hne : s ≠ "") :
    splitWhitespace s = [s] := by
  have hlist : s.toList ≠ [] := String.toList_eq_nil_iff.not.mpr hne
  rw [Text.splitWhitespace, List.splitOnP_eq_singleton h,
    List.filter_cons_of_pos (by simpa using hlist), List.filter_nil, List.map_singleton,
    String.ofList_toList]

/-- **Words that were joined are cut back.** -/
theorem splitWhitespace_intercalate {c : Char} (hc : isWhitespace c = true) {words : List String}
    (h : ∀ w ∈ words, Solid w ∧ w ≠ "") :
    splitWhitespace ((String.singleton c).intercalate words) = words := by
  induction words with
  | nil => rfl
  | cons w words ih =>
    obtain ⟨⟨hw, hne⟩, hwords⟩ := List.forall_mem_cons.mp h
    by_cases hrest : words = []
    · rw [hrest, String.intercalate_singleton, hw.splitWhitespace hne]
    · rw [String.intercalate_cons_of_ne_nil hrest, String.append_assoc, splitWhitespace_append hc,
        hw.splitWhitespace hne, ih hwords, List.singleton_append]

end Text
