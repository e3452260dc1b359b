import Mathlib.Data.List.Basic
import Mathlib.Data.List.TakeWhile

/-!
# Cutting text

`split`, `split_once`, `rsplit_once`, `strip_prefix` and the decimal reader of the standard
library, on the characters of a string. A text that was joined with a separator its first half does
not contain is cut back into its halves.
-/

namespace Text

/-- Cut at the first `sep`. -/
def splitOnce (sep : Char) (s : String) : Option (String × String) :=
  match s.toList.dropWhile (· ≠ sep) with
  | [] => none
  | _ :: rest => some (String.ofList (s.toList.takeWhile (· ≠ sep)), String.ofList rest)

def stripPrefix (start s : String) : Option String :=
  if start.toList.isPrefixOf s.toList then some (String.ofList (s.toList.drop start.toList.length))
  else none

private def rsplit (sep : List Char) : List Char → Option (List Char × List Char)
  | [] => none
  | c :: cs =>
    match rsplit sep cs with
    | some (a, b) => some (c :: a, b)
    | none => if sep.isPrefixOf (c :: cs) then some ([], (c :: cs).drop sep.length) else none

/-- Cut at the last `sep`, which is not empty. -/
def rsplitOnce (sep s : String) : Option (String × String) :=
  (rsplit sep.toList s.toList).map fun (a, b) ↦ (String.ofList a, String.ofList b)

private def pieces (sep : Char) : List Char → List (List Char)
  | [] => [[]]
  | c :: cs =>
    if c = sep then [] :: pieces sep cs
    else match pieces sep cs with
      | [] => [[c]]
      | first :: others => (c :: first) :: others

private def cut (sep : List Char) : List Char → Option (List Char × List Char)
  | [] => if sep.isEmpty then some ([], []) else none
  | c :: cs =>
    if sep.isPrefixOf (c :: cs) then some ([], (c :: cs).drop sep.length)
    else (cut sep cs).map fun (a, b) ↦ (c :: a, b)

/-- Cut at the first `sep`. -/
def splitOnceOn (sep s : String) : Option (String × String) :=
  (cut sep.toList s.toList).map fun (a, b) ↦ (String.ofList a, String.ofList b)

/-- The pieces between the `sep`s. -/
def split (sep : Char) (s : String) : List String := (pieces sep s.toList).map String.ofList

/-- The value of a row of decimal digits, if that is what it is. -/
def digits : ℕ → List Char → Option ℕ
  | n, [] => some n
  | n, c :: cs => if c.isDigit then digits (10 * n + (c.toNat - '0'.toNat)) cs else none

/-- A decimal number up to `max`, with or without a plus sign. -/
def parseUnsigned (max : ℕ) (s : String) : Option ℕ :=
  let cs := match s.toList with
    | '+' :: cs => cs
    | cs => cs
  if cs.isEmpty then none
  else (digits 0 cs).filter (· ≤ max)

/-- **What was joined is cut back**, where the first half does not contain the separator. -/
theorem splitOnce_join {sep : Char} {a b : String} (ha : sep ∉ a.toList) :
    splitOnce sep (a ++ (String.singleton sep ++ b)) = some (a, b) := by
  have hlist : (a ++ (String.singleton sep ++ b)).toList = a.toList ++ sep :: b.toList := by
    simp
  have hall : ∀ c ∈ a.toList, decide (c ≠ sep) = true := by
    intro c hc
    exact decide_eq_true fun h ↦ ha (h ▸ hc)
  rw [splitOnce, hlist, List.dropWhile_append_of_pos hall, List.takeWhile_append_of_pos hall]
  simp

theorem splitOnce_of_not_mem {sep : Char} {s : String} (h : sep ∉ s.toList) :
    splitOnce sep s = none := by
  have hall : ∀ c ∈ s.toList, decide (c ≠ sep) = true := fun c hc ↦
    decide_eq_true fun heq ↦ h (heq ▸ hc)
  rw [splitOnce, List.dropWhile_eq_nil_iff.mpr hall]

/-- What is cut joins again. -/
theorem join_of_splitOnce {sep : Char} {s a b : String} (h : splitOnce sep s = some (a, b)) :
    s = a ++ (String.singleton sep ++ b) := by
  rw [splitOnce] at h
  cases hrest : s.toList.dropWhile (· ≠ sep) with
  | nil =>
    rw [hrest] at h
    cases h
  | cons c rest =>
    have hc : c = sep := by
      have hhead := List.head?_dropWhile_not (fun c ↦ decide (c ≠ sep)) s.toList
      rw [hrest] at hhead
      simpa using hhead
    rw [hrest] at h
    obtain ⟨rfl, rfl⟩ := Prod.mk.inj (Option.some.inj h)
    have hwhole := List.takeWhile_append_dropWhile (p := fun c ↦ decide (c ≠ sep)) (l := s.toList)
    rw [hrest, hc] at hwhole
    rw [← String.toList_inj, String.toList_append, String.toList_append, String.toList_ofList,
      String.toList_ofList, String.toList_singleton]
    exact hwhole.symm

theorem stripPrefix_append (start s : String) : stripPrefix start (start ++ s) = some s := by
  rw [stripPrefix, String.toList_append, if_pos]
  · simp
  · simp

/-- What begins differently does not have the prefix. -/
theorem isSome_stripPrefix {start s : String} :
    (stripPrefix start s).isSome = true ↔ start.toList <+: s.toList := by
  rw [stripPrefix, ← List.isPrefixOf_iff_prefix]
  by_cases h : start.toList.isPrefixOf s.toList = true <;> simp [h]

theorem stripPrefix_of_head {start s : String} (hstart : start.toList ≠ [])
    (h : s.toList.head? ≠ start.toList.head?) : stripPrefix start s = none := by
  rw [stripPrefix, if_neg]
  intro hstarts
  obtain ⟨rest, hrest⟩ := List.isPrefixOf_iff_prefix.mp hstarts
  rw [← hrest, List.head?_append_of_ne_nil _ hstart] at h
  exact h rfl

private theorem cut_eq_some {sep a b : List Char} {cs : List Char} (h : cut sep cs = some (a, b)) :
    cs = a ++ (sep ++ b) := by
  induction cs generalizing a with
  | nil =>
    rw [cut] at h
    split at h
    · rename_i hsep
      cases h
      rw [List.isEmpty_iff.mp hsep]
      rfl
    · exact absurd h nofun
  | cons c cs ih =>
    rw [cut] at h
    split at h
    · rename_i hstarts
      obtain ⟨rest, hrest⟩ := List.isPrefixOf_iff_prefix.mp hstarts
      cases h
      rw [← hrest, List.drop_left, List.nil_append]
    · obtain ⟨⟨a', b'⟩, hcut, hab⟩ := Option.map_eq_some_iff.mp h
      cases hab
      rw [ih hcut, List.cons_append]

theorem toList_of_splitOnceOn {sep s a b : String} (h : splitOnceOn sep s = some (a, b)) :
    s.toList = a.toList ++ (sep.toList ++ b.toList) := by
  obtain ⟨⟨a', b'⟩, hcut, hab⟩ := Option.map_eq_some_iff.mp h
  cases hab
  rw [String.toList_ofList, String.toList_ofList]
  exact cut_eq_some hcut

private theorem cut_append {c : Char} {sep a : List Char} (ha : c ∉ a) (b : List Char) :
    cut (c :: sep) (a ++ (c :: sep ++ b)) = some (a, b) := by
  induction a with
  | nil =>
    rw [List.nil_append, List.cons_append, cut, if_pos]
    · rw [← List.cons_append, List.drop_left]
    · rw [← List.cons_append]
      exact List.isPrefixOf_iff_prefix.mpr (List.prefix_append _ _)
  | cons d a ih =>
    rw [List.mem_cons, not_or] at ha
    have hstarts : ¬(c :: sep).isPrefixOf (d :: (a ++ (c :: sep ++ b))) = true := by
      rw [List.isPrefixOf_iff_prefix, List.cons_prefix_cons]
      exact fun h ↦ ha.1 h.1
    rw [List.cons_append, cut, if_neg hstarts, ih ha.2]
    rfl

/-- What the first character of the separator does not stand in is cut off before it. -/
theorem splitOnceOn_append {c : Char} {sep a : String} (hsep : sep.toList.head? = some c)
    (ha : c ∉ a.toList) (b : String) : splitOnceOn sep (a ++ sep ++ b) = some (a, b) := by
  obtain ⟨rest, hrest⟩ := List.head?_eq_some_iff.mp hsep
  rw [splitOnceOn, String.toList_append, String.toList_append, hrest, List.append_assoc,
    cut_append ha, Option.map_some]
  dsimp only
  rw [String.ofList_toList, String.ofList_toList]

private theorem rsplit_singleton (c : Char) (cs : List Char) :
    match rsplit [c] cs with
    | some (a, b) => cs = a ++ c :: b ∧ c ∉ b
    | none => c ∉ cs := by
  induction cs with
  | nil => exact List.not_mem_nil
  | cons d cs ih =>
    rw [rsplit]
    match hrest : rsplit [c] cs with
    | some (a, b) =>
      rw [hrest] at ih
      exact ⟨congrArg (d :: ·) ih.1, ih.2⟩
    | none =>
      rw [hrest] at ih
      by_cases hd : c = d
      · subst hd
        simpa using ih
      · simpa [hd] using ih

/-- What is cut off at the last separator does not contain it. -/
theorem toList_of_rsplitOnce {c : Char} {s a b : String}
    (h : rsplitOnce (String.singleton c) s = some (a, b)) :
    s.toList = a.toList ++ c :: b.toList ∧ c ∉ b.toList := by
  obtain ⟨⟨a', b'⟩, hcut, hab⟩ := Option.map_eq_some_iff.mp h
  have hsplit := rsplit_singleton c s.toList
  rw [String.toList_singleton] at hcut
  rw [hcut] at hsplit
  cases hab
  rw [String.toList_ofList, String.toList_ofList]
  exact hsplit

theorem rsplitOnce_of_not_mem {c : Char} {s : String} (h : c ∉ s.toList) :
    rsplitOnce (String.singleton c) s = none := by
  refine Option.eq_none_iff_forall_not_mem.mpr ?_
  rintro ⟨a, b⟩ hab
  refine h ?_
  rw [(toList_of_rsplitOnce hab).1]
  exact List.mem_append_cons_self

/-- What is in small letters stays as it is. -/
theorem toLower_toLower (c : Char) : c.toLower.toLower = c.toLower := by
  refine dif_neg fun h ↦ ?_
  unfold Char.toLower at h
  split at h
  · rename_i hupper
    have hZ : 'Z'.val.toNat = 90 := by decide
    have hoffset : ('a'.val - 'A'.val).toNat = 32 := by decide
    simp only [UInt32.le_iff_toNat_le] at h hupper
    have hbound := hupper.2
    have hlow : (c.val + ('a'.val - 'A'.val)).toNat = c.val.toNat + 32 := by
      rw [UInt32.toNat_add, hoffset]
      omega
    have hA : 'A'.val.toNat = 65 := by decide
    omega
  · contradiction

/-- Two cuts at the last separator are one. -/
theorem append_cons_inj {α : Type*} {a a' b b' : List α} {c : α} (hb : c ∉ b) (hb' : c ∉ b')
    (h : a ++ c :: b = a' ++ c :: b') : a = a' ∧ b = b' := by
  rcases List.append_eq_append_iff.mp h with ⟨as, ha, hrest⟩ | ⟨as, ha, hrest⟩
  · match as with
    | [] =>
      cases hrest
      exact ⟨by rw [ha, List.append_nil], rfl⟩
    | x :: as =>
      refine absurd ?_ hb
      rw [(List.cons.inj hrest).2]
      exact List.mem_append_cons_self
  · match as with
    | [] =>
      cases hrest
      exact ⟨by rw [ha, List.append_nil], rfl⟩
    | x :: as =>
      refine absurd ?_ hb'
      rw [(List.cons.inj hrest).2]
      exact List.mem_append_cons_self

/-! ## Pieces -/

private theorem pieces_ne_nil (sep : Char) (cs : List Char) : pieces sep cs ≠ [] := by
  match cs with
  | [] => exact List.cons_ne_nil _ _
  | c :: cs =>
    rw [pieces]
    split
    · exact List.cons_ne_nil _ _
    · split <;> exact List.cons_ne_nil _ _

private theorem pieces_cons {sep c : Char} (h : c ≠ sep) (cs : List Char) :
    ∃ first others, pieces sep cs = first :: others
      ∧ pieces sep (c :: cs) = (c :: first) :: others := by
  obtain ⟨first, others, hcs⟩ := List.exists_cons_of_ne_nil (pieces_ne_nil sep cs)
  exact ⟨first, others, hcs, by rw [pieces, if_neg h, hcs]⟩

private theorem pieces_append (sep : Char) (a b : List Char) :
    pieces sep (a ++ sep :: b) = pieces sep a ++ pieces sep b := by
  induction a with
  | nil =>
    rw [List.nil_append, pieces.eq_2, if_pos rfl]
    rfl
  | cons c a ih =>
    by_cases hc : c = sep
    · rw [List.cons_append, pieces, if_pos hc, ih, pieces, if_pos hc, List.cons_append]
    · obtain ⟨first, others, ha, hca⟩ := pieces_cons hc a
      rw [List.cons_append, pieces, if_neg hc, ih, ha, hca]
      rfl

private theorem not_mem_of_mem_pieces {sep : Char} {cs p : List Char} (h : p ∈ pieces sep cs) :
    sep ∉ p := by
  induction cs generalizing p with
  | nil => exact List.mem_singleton.mp h ▸ List.not_mem_nil
  | cons c cs ih =>
    by_cases hc : c = sep
    · rw [pieces, if_pos hc] at h
      rcases List.mem_cons.mp h with rfl | h
      · exact List.not_mem_nil
      · exact ih h
    · obtain ⟨first, others, hcs, hcons⟩ := pieces_cons hc cs
      rw [hcons] at h
      rw [hcs] at ih
      rcases List.mem_cons.mp h with rfl | h
      · exact List.not_mem_cons_of_ne_of_not_mem (Ne.symm hc) (ih List.mem_cons_self)
      · exact ih (List.mem_cons_of_mem _ h)

private theorem pieces_of_not_mem {sep : Char} {cs : List Char} (h : sep ∉ cs) :
    pieces sep cs = [cs] := by
  induction cs with
  | nil => rfl
  | cons c cs ih =>
    rw [List.mem_cons, not_or] at h
    rw [pieces, if_neg (Ne.symm h.1), ih h.2]

/-- **Two texts with a separator between them are cut one after the other.** -/
theorem split_append (sep : Char) (a b : String) :
    split sep (a ++ (String.singleton sep ++ b)) = split sep a ++ split sep b := by
  have hlist : (a ++ (String.singleton sep ++ b)).toList = a.toList ++ sep :: b.toList := by simp
  rw [split, hlist, pieces_append, List.map_append]
  rfl

/-- What does not contain the separator is one piece. -/
theorem split_of_not_mem {sep : Char} {s : String} (h : sep ∉ s.toList) : split sep s = [s] := by
  rw [split, pieces_of_not_mem h, List.map_singleton, String.ofList_toList]

/-- Texts that were joined are cut back, where none of them contains the separator. -/
theorem split_intercalate {sep : Char} {ps : List String} (hps : ps ≠ [])
    (h : ∀ p ∈ ps, sep ∉ p.toList) : split sep ((String.singleton sep).intercalate ps) = ps := by
  induction ps with
  | nil => exact absurd rfl hps
  | cons p ps ih =>
    have hp := split_of_not_mem (h p List.mem_cons_self)
    by_cases hrest : ps = []
    · subst hrest
      rw [String.intercalate_singleton, hp]
    · rw [String.intercalate_cons_of_ne_nil hrest, String.append_assoc, split_append, hp,
        ih hrest fun q hq ↦ h q (List.mem_cons_of_mem p hq)]
      rfl

private theorem pieces_eq_splitOn (sep : Char) (cs : List Char) :
    pieces sep cs = cs.splitOn sep := by
  induction cs with
  | nil => rfl
  | cons c cs ih =>
    rw [List.splitOn_cons_eq_if_modifyHead, ← ih]
    by_cases hc : c = sep
    · rw [pieces, if_pos hc, if_pos (beq_iff_eq.mpr hc)]
    · obtain ⟨first, others, hcs, hcons⟩ := pieces_cons hc cs
      rw [hcons, hcs, if_neg fun h ↦ hc (beq_iff_eq.mp h), List.modifyHead_cons]

theorem split_eq_splitOn (sep : Char) (s : String) :
    split sep s = (s.toList.splitOn sep).map String.ofList := by
  rw [split, pieces_eq_splitOn]

/-! ## Lists that are cut -/

section SplitOn

variable {α β : Type*} [DecidableEq α] [DecidableEq β]

/-- What does not contain the separator goes into the first piece. -/
theorem splitOn_append_left {sep : α} {a : List α} (ha : sep ∉ a) (l : List α) :
    (a ++ l).splitOn sep = (l.splitOn sep).modifyHead (a ++ ·) := by
  induction a with
  | nil => exact (congrFun List.modifyHead_id _).symm
  | cons c a ih =>
    rw [List.mem_cons, not_or] at ha
    rw [List.cons_append, List.splitOn_cons_eq_if_modifyHead,
      if_neg fun h ↦ ha.1 (beq_iff_eq.mp h).symm, ih ha.2, List.modifyHead_modifyHead]
    rfl

/-- **A list may be cut before or after it is encoded**, where the separator stands in the code of
itself alone. -/
theorem splitOn_flatMap {f : α → List β} {a : α} {sep : β} (hsep : f a = [sep])
    (h : ∀ x, x ≠ a → sep ∉ f x) (l : List α) :
    (l.flatMap f).splitOn sep = (l.splitOn a).map (·.flatMap f) := by
  induction l with
  | nil => rfl
  | cons x l ih =>
    rw [List.flatMap_cons, List.splitOn_cons_eq_if_modifyHead]
    by_cases hx : x = a
    · subst hx
      rw [if_pos (beq_self_eq_true _), List.map_cons, ← ih, hsep]
      exact List.splitOn_append_cons_self [] (l.flatMap f)
    · rw [splitOn_append_left (h x hx), if_neg fun heq ↦ hx (beq_iff_eq.mp heq), ih]
      obtain ⟨first, others, hsplit⟩ := List.exists_cons_of_ne_nil (List.splitOn_ne_nil a l)
      rw [hsplit, List.map_cons, List.modifyHead_cons, List.modifyHead_cons, List.map_cons,
        List.flatMap_cons]

end SplitOn

theorem not_mem_of_mem_split {sep : Char} {s p : String} (h : p ∈ split sep s) :
    sep ∉ p.toList := by
  obtain ⟨cs, hcs, rfl⟩ := List.mem_map.mp h
  rw [String.toList_ofList]
  exact not_mem_of_mem_pieces hcs

theorem split_ne_nil (sep : Char) (s : String) : split sep s ≠ [] :=
  List.map_eq_nil_iff.not.mpr (pieces_ne_nil sep s.toList)

/-- The first piece begins as the text does, unless that is with a separator. -/
theorem head_split {sep c : Char} {s : String} (h : s.toList.head? = some c) (hc : c ≠ sep) :
    ∃ first others, split sep s = first :: others ∧ first.toList.head? = some c := by
  obtain ⟨cs, hs⟩ := List.head?_eq_some_iff.mp h
  obtain ⟨first, others, -, hcons⟩ := pieces_cons hc cs
  refine ⟨String.ofList (c :: first), others.map String.ofList, ?_, ?_⟩
  · rw [split, hs, hcons, List.map_cons]
  · rw [String.toList_ofList, List.head?_cons]

private theorem mem_of_mem_pieces {sep c : Char} {cs p : List Char} (h : p ∈ pieces sep cs)
    (hc : c ∈ p) : c ∈ cs := by
  induction cs generalizing p with
  | nil => exact List.mem_singleton.mp h ▸ hc
  | cons d cs ih =>
    by_cases hd : d = sep
    · rw [pieces, if_pos hd] at h
      rcases List.mem_cons.mp h with rfl | h
      · exact absurd hc List.not_mem_nil
      · exact List.mem_cons_of_mem d (ih h hc)
    · obtain ⟨first, others, hcs, hcons⟩ := pieces_cons hd cs
      rw [hcons] at h
      rw [hcs] at ih
      rcases List.mem_cons.mp h with rfl | h
      · rcases List.mem_cons.mp hc with rfl | hc
        · exact List.mem_cons_self
        · exact List.mem_cons_of_mem d (ih List.mem_cons_self hc)
      · exact List.mem_cons_of_mem d (ih (List.mem_cons_of_mem _ h) hc)

/-- A piece has no character that the text does not have. -/
theorem mem_of_mem_split {sep c : Char} {s p : String} (h : p ∈ split sep s) (hc : c ∈ p.toList) :
    c ∈ s.toList := by
  obtain ⟨cs, hcs, rfl⟩ := List.mem_map.mp h
  rw [String.toList_ofList] at hc
  exact mem_of_mem_pieces hcs hc

private theorem prefix_of_pieces {sep : Char} {cs p : List Char} {rest : List (List Char)}
    (h : pieces sep cs = p :: rest) : p <+: cs := by
  induction cs generalizing p rest with
  | nil => exact (List.cons.inj h).1 ▸ List.prefix_rfl
  | cons d cs ih =>
    by_cases hd : d = sep
    · rw [pieces, if_pos hd] at h
      exact (List.cons.inj h).1 ▸ List.nil_prefix
    · obtain ⟨first, others, hcs, hcons⟩ := pieces_cons hd cs
      rw [hcons] at h
      exact (List.cons.inj h).1 ▸ List.cons_prefix_cons.mpr ⟨rfl, ih hcs⟩

/-- The first piece is what a text begins with. -/
theorem prefix_of_split {sep : Char} {s p : String} {rest : List String}
    (h : split sep s = p :: rest) : p.toList <+: s.toList := by
  rw [split] at h
  obtain ⟨first, others, hcs, hfirst, -⟩ := List.map_eq_cons_iff.mp h
  rw [← hfirst, String.toList_ofList]
  exact prefix_of_pieces hcs

private theorem tail_pieces_append {sep : Char} {a : List Char} (h : sep ∉ a) (s : List Char) :
    (pieces sep (a ++ s)).tail = (pieces sep s).tail := by
  induction a with
  | nil => rfl
  | cons c a ih =>
    rw [List.mem_cons, not_or] at h
    obtain ⟨first, others, hrest, hcons⟩ := pieces_cons (Ne.symm h.1) (a ++ s)
    rw [List.cons_append, hcons, List.tail_cons, ← ih h.2, hrest, List.tail_cons]

/-- The pieces after the first do not depend on how the first begins. -/
theorem tail_split_append {sep : Char} {a : String} (h : sep ∉ a.toList) (s : String) :
    (split sep (a ++ s)).tail = (split sep s).tail := by
  rw [split, split, ← List.map_tail, ← List.map_tail, String.toList_append, tail_pieces_append h]

/-- What is cut joins again. -/
theorem intercalate_split (sep : Char) (s : String) :
    (String.singleton sep).intercalate (split sep s) = s := by
  rw [← String.toList_inj, String.toList_intercalate, split_eq_splitOn, List.map_map,
    String.toList_singleton]
  have hid : String.toList ∘ String.ofList = id := funext fun _ ↦ String.toList_ofList
  rw [hid, List.map_id, List.intercalate_splitOn]

/-- **What a text begins with, up to a separator**, is told by the pieces. -/
theorem split_prefix_iff {sep : Char} {p s : String} :
    split sep p <+: split sep s ↔ s = p ∨ (stripPrefix (p ++ String.singleton sep) s).isSome := by
  rw [isSome_stripPrefix]
  constructor
  · rintro ⟨rest, hrest⟩
    have hs := intercalate_split sep s
    rw [← hrest] at hs
    by_cases hnil : rest = []
    · rw [hnil, List.append_nil, intercalate_split] at hs
      exact Or.inl hs.symm
    · rw [String.intercalate_append_of_ne_nil (split_ne_nil sep p) hnil, intercalate_split] at hs
      refine Or.inr ?_
      have hlist := congrArg String.toList hs
      rw [String.toList_append] at hlist
      exact hlist ▸ List.prefix_append _ _
  · rintro (rfl | ⟨rest, hrest⟩)
    · exact List.prefix_rfl
    · have hs : s = p ++ (String.singleton sep ++ String.ofList rest) := by
        rw [← String.toList_inj, ← hrest]
        simp
      rw [hs, split_append]
      exact List.prefix_append _ _
/-- The same of paths. -/
theorem slash_prefix_iff {p s : String} :
    split '/' p <+: split '/' s ↔ s = p ∨ (stripPrefix (p ++ "/") s).isSome = true := by
  rw [show "/" = String.singleton '/' from rfl]
  exact split_prefix_iff

/-- What is in no piece, and is not the separator, is not in the pieces joined. -/
theorem not_mem_intercalate {sep c : Char} {ps : List String} (hsep : c ≠ sep)
    (h : ∀ p ∈ ps, c ∉ p.toList) : c ∉ ((String.singleton sep).intercalate ps).toList := by
  induction ps with
  | nil => simp
  | cons p ps ih =>
    obtain ⟨hp, hps⟩ := List.forall_mem_cons.mp h
    by_cases hrest : ps = []
    · rw [hrest, String.intercalate_singleton]
      exact hp
    · rw [String.intercalate_cons_of_ne_nil hrest, String.toList_append, String.toList_append,
        List.mem_append, List.mem_append, String.toList_singleton, List.mem_singleton, not_or,
        not_or]
      exact ⟨⟨hp, hsep⟩, ih hps⟩

/-- No character that is not a digit is in a decimal number. -/
theorem not_mem_repr {c : Char} (h : c.isDigit = false) (n : ℕ) : c ∉ n.repr.toList := by
  rw [Nat.toList_repr]
  intro hc
  exact absurd (Nat.isDigit_of_mem_toDigits (by decide) (by decide) hc) (by rw [h]; exact nofun)

theorem digits_eq {cs : List Char} (h : ∀ c ∈ cs, c.isDigit = true) (n : ℕ) :
    digits n cs = some (Nat.ofDigitChars 10 cs n) := by
  induction cs generalizing n with
  | nil => rw [digits, Nat.ofDigitChars_nil]
  | cons c cs ih =>
    obtain ⟨hc, hcs⟩ := List.forall_mem_cons.mp h
    rw [digits, if_pos hc, ih hcs, Nat.ofDigitChars_cons]

/-- **A number is read back from its text.** -/
theorem parseUnsigned_repr {max n : ℕ} (h : n ≤ max) : parseUnsigned max n.repr = some n := by
  have hdigit : ∀ c ∈ n.repr.toList, c.isDigit = true := by
    rw [Nat.toList_repr]
    exact fun c hc ↦ Nat.isDigit_of_mem_toDigits (by decide) (by decide) hc
  have hplus : (match n.repr.toList with | '+' :: cs => cs | cs => cs) = n.repr.toList := by
    split
    · rename_i cs heq
      exact absurd (hdigit '+' (heq ▸ List.mem_cons_self)) (by decide)
    · rfl
  rw [parseUnsigned, hplus, digits_eq hdigit, Nat.toList_repr, Nat.ofDigitChars_ten_toDigits,
    if_neg, Option.filter_some_eq_some, decide_eq_true_eq]
  · exact h
  · rw [List.isEmpty_iff]
    exact Nat.toDigits_ne_nil

theorem repr_inj {m n : ℕ} : m.repr = n.repr ↔ m = n := by
  refine ⟨fun h ↦ ?_, fun h ↦ h ▸ rfl⟩
  have hm := parseUnsigned_repr (le_max_left m n)
  rw [h, parseUnsigned_repr (le_max_right m n), Option.some_inj] at hm
  exact hm.symm

end Text
