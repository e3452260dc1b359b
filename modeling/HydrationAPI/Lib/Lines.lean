import HydrationAPI.Lib.Text

/-!
# Lines of a text

`str::lines` and a text that is written line by line. What is read back of such a text are the lines
it was written from, each of them cut where it contains a line feed itself, and each without a
carriage return at its end. A line of fields with tabs between them is cut back into these.
-/

namespace Text

/-- A line that a line feed ended, without the carriage return before it. -/
def stripReturn (s : String) : String :=
  if s.toList.getLast? = some '\r' then String.ofList s.toList.dropLast else s

/-- `str::lines`. What follows the last line feed is a line unless it is empty. -/
def lines (s : String) : List String :=
  let ps := split '\n' s
  ps.dropLast.map stripReturn ++ (ps.getLast?.filter (· ≠ "")).toList

/-- `writeln!` of one line after the other. -/
def unlines (ls : List String) : String := ls.foldr (fun l rest ↦ l ++ ("\n" ++ rest)) ""

/-- What a line comes to that is written with `writeln!`. -/
def broken (l : String) : List String := (split '\n' l).map stripReturn

private theorem getLast?_append_of_ne {α : Type*} {a b : List α} (hb : b ≠ []) :
    (a ++ b).getLast? = b.getLast? := by
  rw [List.getLast?_append, List.getLast?_eq_some_getLast hb, Option.some_or]

theorem lines_empty : lines "" = [] := by decide

theorem lines_cons (l rest : String) : lines (l ++ ("\n" ++ rest)) = broken l ++ lines rest := by
  have hsplit : split '\n' (l ++ ("\n" ++ rest)) = split '\n' l ++ split '\n' rest :=
    split_append '\n' l rest
  have hne := split_ne_nil '\n' rest
  rw [lines, hsplit, List.dropLast_append_of_ne_nil hne, getLast?_append_of_ne hne,
    List.map_append, List.append_assoc]
  rfl

/-- **What is read of a text that was written line by line.** -/
theorem lines_unlines (ls : List String) : lines (unlines ls) = ls.flatMap broken := by
  induction ls with
  | nil => exact lines_empty
  | cons l ls ih =>
    rw [List.flatMap_cons, ← ih]
    exact lines_cons l (unlines ls)

/-- A line without a line feed is read back but for a carriage return. -/
theorem broken_of_not_mem {l : String} (h : '\n' ∉ l.toList) : broken l = [stripReturn l] := by
  rw [broken, split_of_not_mem h, List.map_singleton]

theorem prefix_stripReturn (s : String) : (stripReturn s).toList <+: s.toList := by
  rw [stripReturn]
  split
  · rw [String.toList_ofList]
    exact List.dropLast_prefix _
  · exact List.prefix_rfl

theorem stripReturn_of_ne {s : String} (h : s.toList.getLast? ≠ some '\r') : stripReturn s = s :=
  if_neg h

theorem stripReturn_ne {s : String} (h : s.toList.getLast? = some '\r') : stripReturn s ≠ s := by
  rw [stripReturn, if_pos h]
  intro heq
  have hne : s.toList ≠ [] := by
    intro hnil
    rw [hnil] at h
    exact absurd h nofun
  have hlength := congrArg (fun t : String ↦ t.toList.length) heq
  rw [String.toList_ofList, List.length_dropLast] at hlength
  have hpos := List.length_pos_iff.mpr hne
  omega

/-- Only the end of a line is looked at. -/
theorem stripReturn_append {a b : String} (h : b ≠ "") :
    stripReturn (a ++ b) = a ++ stripReturn b := by
  have hb : b.toList ≠ [] := fun hnil ↦ h (String.toList_inj.mp hnil)
  have hlast : (a ++ b).toList.getLast? = b.toList.getLast? := by
    rw [String.toList_append, getLast?_append_of_ne hb]
  rw [stripReturn, hlast, stripReturn]
  split
  · apply String.toList_inj.mp
    rw [String.toList_ofList, String.toList_append, String.toList_append, String.toList_ofList,
      List.dropLast_append_of_ne_nil hb]
  · rfl

/-- A carriage return is taken from the last field of a line only. -/
theorem stripReturn_field (a : String) {sep : Char} (hsep : sep ≠ '\r') (b : String) :
    stripReturn (a ++ (String.singleton sep ++ b))
      = a ++ (String.singleton sep ++ stripReturn b) := by
  have hne : String.singleton sep ++ b ≠ "" := fun h ↦ by
    have hlist := congrArg String.toList h
    rw [String.toList_append, String.toList_singleton] at hlist
    exact absurd hlist (List.cons_ne_nil _ _)
  rw [stripReturn_append hne]
  by_cases hb : b = ""
  · subst hb
    have hlast : (String.singleton sep ++ "").toList.getLast? ≠ some '\r' := by simpa using hsep
    rw [stripReturn_of_ne hlast]
    rfl
  · rw [stripReturn_append hb]

theorem not_mem_of_mem_lines {s l : String} (h : l ∈ lines s) : '\n' ∉ l.toList := by
  have hpiece : ∀ p ∈ split '\n' s, '\n' ∉ p.toList := fun p hp ↦ not_mem_of_mem_split hp
  rcases List.mem_append.mp h with h | h
  · obtain ⟨p, hp, rfl⟩ := List.mem_map.mp h
    exact fun hmem ↦ hpiece p (List.dropLast_subset _ hp) ((prefix_stripReturn p).subset hmem)
  · obtain ⟨hlast, -⟩ := Option.filter_eq_some_iff.mp (Option.mem_toList.mp h)
    exact hpiece l (List.mem_of_getLast? hlast)

/-- The first part of a line that begins with a mark begins with it too. -/
theorem head_broken {c : Char} {l : String} (h : l.toList.head? = some c) (hc : c ≠ '\n')
    (hreturn : c ≠ '\r') :
    ∃ first others, broken l = first :: others ∧ first.toList.head? = some c := by
  obtain ⟨first, others, hsplit, hfirst⟩ := head_split h hc
  refine ⟨stripReturn first, others.map stripReturn, by rw [broken, hsplit, List.map_cons], ?_⟩
  obtain ⟨cs, hcs⟩ := List.head?_eq_some_iff.mp hfirst
  rw [stripReturn]
  split
  · rename_i hlast
    match cs with
    | [] =>
      rw [hcs] at hlast
      exact absurd (Option.some_inj.mp hlast) hreturn
    | d :: cs =>
      rw [String.toList_ofList, hcs]
      rfl
  · exact hfirst

/-- What follows the first part of a line does not depend on how the line begins. -/
theorem tail_broken_append {a : String} (ha : '\n' ∉ a.toList) (s : String) :
    (broken (a ++ s)).tail = (broken s).tail := by
  rw [broken, broken, ← List.map_tail, ← List.map_tail, tail_split_append ha]

/-! ## Fields -/

/-- Fields of one line. -/
def tabbed (fields : List String) : String := "\t".intercalate fields

/-- Neither separator is in a text. -/
def Plain (s : String) : Prop := '\t' ∉ s.toList ∧ '\n' ∉ s.toList

theorem plain_repr (n : ℕ) : Plain n.repr :=
  ⟨not_mem_repr (by decide) n, not_mem_repr (by decide) n⟩

theorem plain_stripReturn {s : String} (h : Plain s) : Plain (stripReturn s) :=
  ⟨fun hmem ↦ h.1 ((prefix_stripReturn s).subset hmem),
    fun hmem ↦ h.2 ((prefix_stripReturn s).subset hmem)⟩

theorem tabbed_cons (f : String) {fs : List String} (h : fs ≠ []) :
    tabbed (f :: fs) = f ++ ("\t" ++ tabbed fs) := by
  rw [tabbed, String.intercalate_cons_of_ne_nil h, String.append_assoc]
  rfl

theorem split_tabbed {fs : List String} (hfs : fs ≠ []) (h : ∀ f ∈ fs, Plain f) :
    split '\t' (tabbed fs) = fs := split_intercalate hfs fun f hf ↦ (h f hf).1

private theorem broken_tabbed {fs : List String} {last : String} (h : ∀ f ∈ fs, Plain f)
    (hlast : Plain last) :
    broken (tabbed (fs ++ [last])) = [tabbed (fs ++ [stripReturn last])] := by
  have hplain : '\n' ∉ (tabbed (fs ++ [last])).toList
      ∧ stripReturn (tabbed (fs ++ [last])) = tabbed (fs ++ [stripReturn last]) := by
    induction fs with
    | nil =>
      rw [List.nil_append, List.nil_append, tabbed, tabbed, String.intercalate_singleton,
        String.intercalate_singleton]
      exact ⟨hlast.2, rfl⟩
    | cons f fs ih =>
      obtain ⟨hrest, hstrip⟩ := ih fun g hg ↦ h g (List.mem_cons_of_mem f hg)
      have hne : ∀ g : String, fs ++ [g] ≠ [] := fun g ↦ List.append_ne_nil_of_right_ne_nil _ nofun
      rw [List.cons_append, List.cons_append, tabbed_cons f (hne _), tabbed_cons f (hne _),
        ← hstrip]
      constructor
      · rw [String.toList_append, String.toList_append, List.mem_append, List.mem_append]
        exact fun hmem ↦ hmem.elim (h f List.mem_cons_self).2 fun hmem ↦
          hmem.elim (by decide) hrest
      · have htab : '\t' ≠ '\r' := by decide
        exact stripReturn_field f htab _
  rw [broken_of_not_mem hplain.1, hplain.2]

/-- A line begins as its first field does, unless that is empty. -/
theorem head_tabbed {f : String} (hf : f ≠ "") (fs : List String) :
    (tabbed (f :: fs)).toList.head? = f.toList.head? := by
  by_cases hfs : fs = []
  · rw [hfs, tabbed, String.intercalate_singleton]
  · have hne : f.toList ≠ [] := fun hnil ↦ hf (String.toList_inj.mp hnil)
    rw [tabbed_cons f hfs, String.toList_append, List.head?_append_of_ne_nil _ hne]

/-- **A line of plain fields is cut back into them**, but for a carriage return at the end of the
last. It begins as the first of them does. -/
theorem fields_broken_tabbed {f last : String} {fs : List String} (hf : f ≠ "")
    (h : ∀ g ∈ f :: fs, Plain g) (hlast : Plain last) :
    ∃ l, broken (tabbed (f :: fs ++ [last])) = [l] ∧ split '\t' l = f :: fs ++ [stripReturn last]
      ∧ l.toList.head? = f.toList.head? := by
  refine ⟨tabbed (f :: fs ++ [stripReturn last]), broken_tabbed h hlast, ?_, head_tabbed hf _⟩
  refine split_tabbed (List.cons_ne_nil _ _) fun g hg ↦ ?_
  rcases List.mem_append.mp hg with hg | hg
  · exact h g hg
  · exact List.mem_singleton.mp hg ▸ plain_stripReturn hlast

end Text
