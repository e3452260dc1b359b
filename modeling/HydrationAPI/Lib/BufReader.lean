import Mathlib.Data.List.Basic

/-!
# Buffered reading

What comes over a connection comes in pieces, and where a piece ends has nothing to do with what is
in it. A reader holds what it has been given and not handed on, and asks for another piece when that
does not do. Whatever the pieces are, what is read is what is read of the stream as a whole.
-/

/-- A reader: what it holds, the pieces that are still to come, and the error the stream ends with,
if it ends with one. -/
structure BufReader (α ε : Type*) where
  held : List α
  toCome : List {piece : List α // piece ≠ []}
  ending : Option ε

namespace BufReader

variable {α ε : Type*} [DecidableEq α]

/-- What is still to be read. -/
def rest (r : BufReader α ε) : List α := r.held ++ r.toCome.flatMap Subtype.val

/-! ## Lines -/

/-- The part of a list up to its first delimiter, that included, and what follows. -/
def cut (d : α) : List α → Option (List α × List α)
  | [] => none
  | a :: l => if a = d then some ([a], l) else (cut d l).map fun parts ↦ (a :: parts.1, parts.2)

variable {d : α} {l m line after : List α}

theorem append_of_cut (h : cut d l = some (line, after)) : l = line ++ after := by
  induction l generalizing line with
  | nil => cases h
  | cons a l ih =>
    rw [cut] at h
    split at h
    · cases h
      rfl
    · obtain ⟨⟨line', after'⟩, hcut, heq⟩ := Option.map_eq_some_iff.mp h
      cases heq
      rw [List.cons_append, ← ih hcut]

theorem cut_append_of_some (h : cut d l = some (line, after)) (m : List α) :
    cut d (l ++ m) = some (line, after ++ m) := by
  induction l generalizing line with
  | nil => cases h
  | cons a l ih =>
    rw [cut] at h
    rw [List.cons_append, cut]
    split at h
    · rename_i ha
      cases h
      rw [if_pos ha]
    · rename_i ha
      obtain ⟨⟨line', after'⟩, hcut, heq⟩ := Option.map_eq_some_iff.mp h
      cases heq
      rw [if_neg ha, ih hcut]
      rfl

theorem cut_append_of_none (h : cut d l = none) (m : List α) :
    cut d (l ++ m) = (cut d m).map fun parts ↦ (l ++ parts.1, parts.2) := by
  induction l with
  | nil => simp
  | cons a l ih =>
    rw [cut] at h
    split at h
    · cases h
    · rename_i ha
      rw [List.cons_append, cut, if_neg ha, ih (Option.map_eq_none_iff.mp h), Option.map_map]
      rfl

theorem cut_eq_none (h : d ∉ l) : cut d l = none := by
  induction l with
  | nil => rfl
  | cons a l ih =>
    have hne : a ≠ d := fun heq ↦ h (heq ▸ List.mem_cons_self)
    rw [cut, if_neg hne, ih fun hmem ↦ h (List.mem_cons_of_mem a hmem)]
    rfl

/-- A line without the delimiter in it, and the delimiter. -/
theorem cut_line (h : d ∉ line) (after : List α) :
    cut d (line ++ d :: after) = some (line ++ [d], after) := by
  rw [cut_append_of_none (cut_eq_none h), cut, if_pos rfl]
  rfl

/-- At the end of the stream the line is what is left. -/
def lastLine (ending : Option ε) (taken : List α) : Except ε (List α) :=
  match ending with
  | none => .ok taken
  | some e => .error e

/-- Read up to a delimiter; what has been taken already comes first. -/
def readUntilFrom (d : α) (ending : Option ε) :
    List {piece : List α // piece ≠ []} → List α → List α → Except ε (List α) × BufReader α ε
  | [], held, taken =>
    match cut d held with
    | some (line, held) => (.ok (taken ++ line), ⟨held, [], ending⟩)
    | none => (lastLine ending (taken ++ held), ⟨[], [], ending⟩)
  | piece :: toCome, held, taken =>
    match cut d held with
    | some (line, held) => (.ok (taken ++ line), ⟨held, piece :: toCome, ending⟩)
    | none => readUntilFrom d ending toCome piece (taken ++ held)

def readUntil (d : α) (r : BufReader α ε) : Except ε (List α) × BufReader α ε :=
  readUntilFrom d r.ending r.toCome r.held []

variable {r : BufReader α ε}

theorem readUntilFrom_of_cut {ending : Option ε} {toCome : List {piece : List α // piece ≠ []}}
    {held taken : List α}
    (h : cut d (held ++ toCome.flatMap Subtype.val) = some (line, after)) :
    ∃ r', readUntilFrom d ending toCome held taken = (.ok (taken ++ line), r')
      ∧ r'.rest = after := by
  induction toCome generalizing held taken line with
  | nil =>
    rw [List.flatMap_nil, List.append_nil] at h
    rw [readUntilFrom, h]
    exact ⟨_, rfl, List.append_nil after⟩
  | cons piece toCome ih =>
    rw [readUntilFrom]
    cases hheld : cut d held with
    | some parts =>
      rw [cut_append_of_some hheld] at h
      cases h
      exact ⟨_, rfl, rfl⟩
    | none =>
      rw [cut_append_of_none hheld, List.flatMap_cons] at h
      obtain ⟨⟨line', after'⟩, hcut, heq⟩ := Option.map_eq_some_iff.mp h
      cases heq
      obtain ⟨r', hr', hrest⟩ := ih hcut
      exact ⟨r', by rw [hr', List.append_assoc], hrest⟩

/-- **A line is read whatever pieces it comes in.** -/
theorem readUntil_of_cut (h : cut d r.rest = some (line, after)) :
    ∃ r', r.readUntil d = (.ok line, r') ∧ r'.rest = after := readUntilFrom_of_cut h

theorem readUntilFrom_ok {ending : Option ε} {toCome : List {piece : List α // piece ≠ []}}
    {held taken : List α} {r' : BufReader α ε}
    (h : readUntilFrom d ending toCome held taken = (.ok line, r')) :
    taken ++ (held ++ toCome.flatMap Subtype.val) = line ++ r'.rest := by
  induction toCome generalizing held taken with
  | nil =>
    rw [readUntilFrom] at h
    split at h
    · rename_i hcut
      cases h
      rw [append_of_cut hcut, rest, List.append_assoc, List.append_assoc]
    · cases ending with
      | none =>
        cases h
        simp [rest]
      | some e => cases h
  | cons piece toCome ih =>
    rw [readUntilFrom] at h
    split at h
    · rename_i hcut
      cases h
      rw [append_of_cut hcut, rest, List.append_assoc, List.append_assoc]
    · rw [← ih h, List.flatMap_cons, List.append_assoc]

/-- What has been read is what the stream began with. -/
theorem rest_of_readUntil {r' : BufReader α ε} (h : r.readUntil d = (.ok line, r')) :
    r.rest = line ++ r'.rest := by
  rw [← readUntilFrom_ok h]
  rfl

/-! ## Runs of a given length -/

/-- Read so many elements; an end of the stream before that is an error. -/
def readExactFrom (eof : ε) (ending : Option ε) :
    List {piece : List α // piece ≠ []} → ℕ → List α → List α → Except ε (List α) × BufReader α ε
  | [], n, held, taken =>
    if n ≤ held.length then (.ok (taken ++ held.take n), ⟨held.drop n, [], ending⟩)
    else (.error (ending.getD eof), ⟨[], [], ending⟩)
  | piece :: toCome, n, held, taken =>
    if n ≤ held.length then (.ok (taken ++ held.take n), ⟨held.drop n, piece :: toCome, ending⟩)
    else readExactFrom eof ending toCome (n - held.length) piece (taken ++ held)

def readExact (eof : ε) (n : ℕ) (r : BufReader α ε) : Except ε (List α) × BufReader α ε :=
  readExactFrom eof r.ending r.toCome n r.held []

variable {eof : ε} {n : ℕ}

omit [DecidableEq α] in
theorem readExactFrom_of_le {ending : Option ε} {toCome : List {piece : List α // piece ≠ []}}
    {held taken : List α} (h : n ≤ (held ++ toCome.flatMap Subtype.val).length) :
    ∃ r', readExactFrom eof ending toCome n held taken
        = (.ok (taken ++ (held ++ toCome.flatMap Subtype.val).take n), r')
      ∧ r'.rest = (held ++ toCome.flatMap Subtype.val).drop n := by
  induction toCome generalizing n held taken with
  | nil =>
    rw [List.flatMap_nil, List.append_nil] at h ⊢
    rw [readExactFrom, if_pos h]
    exact ⟨_, rfl, List.append_nil _⟩
  | cons piece toCome ih =>
    rw [readExactFrom]
    split
    · rename_i hle
      refine ⟨⟨held.drop n, piece :: toCome, ending⟩, ?_, ?_⟩
      · rw [List.take_append_of_le_length hle]
      · rw [rest, List.drop_append_of_le_length hle]
    · rename_i hlt
      have hle : held.length ≤ n := Nat.le_of_lt (Nat.not_le.mp hlt)
      rw [List.flatMap_cons] at h ⊢
      rw [List.length_append] at h
      obtain ⟨r', hr', hrest⟩ := ih (Nat.sub_le_iff_le_add'.mpr h)
      have htake (m : List α) : (held ++ m).take n = held ++ m.take (n - held.length) := by
        rw [List.take_append, List.take_of_length_le hle]
      have hdrop (m : List α) : (held ++ m).drop n = m.drop (n - held.length) := by
        rw [List.drop_append, List.drop_eq_nil_of_le hle, List.nil_append]
      exact ⟨r', by rw [hr', htake, List.append_assoc], by rw [hrest, hdrop]⟩

omit [DecidableEq α] in
/-- **A run is read whatever pieces it comes in.** -/
theorem readExact_append (hrest : r.rest = l ++ m) :
    ∃ r', r.readExact eof l.length = (.ok l, r') ∧ r'.rest = m := by
  have hle : l.length ≤ r.rest.length := by
    rw [hrest, List.length_append]
    exact Nat.le_add_right _ _
  obtain ⟨r', hr', hdrop⟩ := readExactFrom_of_le hle
  refine ⟨r', ?_, ?_⟩
  · rw [readExact, hr', ← rest, hrest, List.take_left', List.nil_append]
    rfl
  · rw [hdrop, ← rest, hrest, List.drop_left']
    rfl

omit [DecidableEq α] in
theorem readExactFrom_ok {ending : Option ε} {toCome : List {piece : List α // piece ≠ []}}
    {held taken : List α} {r' : BufReader α ε}
    (h : readExactFrom eof ending toCome n held taken = (.ok line, r')) :
    taken ++ (held ++ toCome.flatMap Subtype.val) = line ++ r'.rest
      ∧ line.length = taken.length + n := by
  induction toCome generalizing n held taken with
  | nil =>
    rw [readExactFrom] at h
    split at h
    · rename_i hle
      cases h
      refine ⟨?_, ?_⟩
      · simp [rest]
      · rw [List.length_append, List.length_take_of_le hle]
    · cases h
  | cons piece toCome ih =>
    rw [readExactFrom] at h
    split at h
    · rename_i hle
      cases h
      refine ⟨?_, ?_⟩
      · rw [rest, List.append_assoc]
        dsimp only
        rw [← List.append_assoc (held.take n), List.take_append_drop]
      · rw [List.length_append, List.length_take_of_le hle]
    · rename_i hlt
      obtain ⟨happend, hlength⟩ := ih h
      rw [List.flatMap_cons, ← happend, List.append_assoc]
      refine ⟨rfl, ?_⟩
      rw [hlength, List.length_append]
      omega

omit [DecidableEq α] in
theorem rest_of_readExact {r' : BufReader α ε} (h : r.readExact eof n = (.ok line, r')) :
    r.rest = line ++ r'.rest ∧ line.length = n := by
  obtain ⟨happend, hlength⟩ := readExactFrom_ok h
  exact ⟨happend, hlength.trans (Nat.zero_add n)⟩

end BufReader
