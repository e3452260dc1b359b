import Mathlib.Data.List.Induction
import Mathlib.Order.Lattice

/-!
# Maps in the order of their keys

A map as the list of its entries, in the order of the keys, each key once. Two maps with the same
entries are the same, and a map is rebuilt from its entries by inserting them one after the other.
-/

/-- The entries of a map, in the order of their keys. -/
@[ext] structure SortedMap (κ ν : Type*) [LinearOrder κ] where
  entries : List (κ × ν)
  sorted : entries.Pairwise (·.1 < ·.1)

namespace SortedMap

variable {κ ν : Type*} [LinearOrder κ] {k l : κ} {v : ν} {entries : List (κ × ν)}

def empty : SortedMap κ ν := ⟨[], .nil⟩

/-- Put a key in its place, instead of what it had. -/
def place (k : κ) (v : ν) : List (κ × ν) → List (κ × ν)
  | [] => [(k, v)]
  | e :: entries =>
    if k < e.1 then (k, v) :: e :: entries
    else if k = e.1 then (k, v) :: entries
    else e :: place k v entries

theorem mem_place {e : κ × ν} (h : e ∈ place k v entries) : e = (k, v) ∨ e ∈ entries := by
  induction entries with
  | nil => exact Or.inl (List.mem_singleton.mp h)
  | cons d entries ih =>
    rw [place] at h
    split at h
    · exact List.mem_cons.mp h
    · split at h
      · exact (List.mem_cons.mp h).imp_right (List.mem_cons_of_mem d)
      · rcases List.mem_cons.mp h with rfl | h
        · exact Or.inr List.mem_cons_self
        · exact (ih h).imp_right (List.mem_cons_of_mem d)

theorem pairwise_place (h : entries.Pairwise (·.1 < ·.1)) :
    (place k v entries).Pairwise (·.1 < ·.1) := by
  induction entries with
  | nil => exact List.pairwise_singleton _ _
  | cons e entries ih =>
    obtain ⟨hhead, htail⟩ := List.pairwise_cons.mp h
    rw [place]
    split
    · rename_i hlt
      refine List.pairwise_cons.mpr ⟨fun d hd ↦ ?_, h⟩
      rcases List.mem_cons.mp hd with rfl | hd
      · exact hlt
      · exact hlt.trans (hhead d hd)
    · split
      · rename_i heq
        exact List.pairwise_cons.mpr ⟨fun d hd ↦ heq ▸ hhead d hd, htail⟩
      · rename_i hge hne
        refine List.pairwise_cons.mpr ⟨fun d hd ↦ ?_, ih htail⟩
        rcases mem_place hd with rfl | hd
        · exact lt_of_le_of_ne (not_lt.mp hge) (Ne.symm hne)
        · exact hhead d hd

variable (m : SortedMap κ ν)

def insert (k : κ) (v : ν) : SortedMap κ ν := ⟨place k v m.entries, pairwise_place m.sorted⟩

def get (k : κ) : Option ν := m.entries.lookup k

@[simp] theorem get_empty (k : κ) : (empty : SortedMap κ ν).get k = none := rfl

theorem lookup_cons_eq {e : κ × ν} (h : k = e.1) : (e :: entries).lookup k = some e.2 := by
  rw [List.lookup_cons, beq_iff_eq.mpr h]

theorem lookup_cons_ne {e : κ × ν} (h : k ≠ e.1) :
    (e :: entries).lookup k = entries.lookup k := by
  rw [List.lookup_cons, beq_eq_false_iff_ne.mpr h]

@[simp] theorem get_insert_self (k : κ) (v : ν) : (m.insert k v).get k = some v := by
  obtain ⟨entries, hsorted⟩ := m
  change (place k v entries).lookup k = some v
  clear hsorted
  induction entries with
  | nil => exact lookup_cons_eq rfl
  | cons e entries ih =>
    rw [place]
    split
    · exact lookup_cons_eq rfl
    · split
      · exact lookup_cons_eq rfl
      · rename_i hne
        rw [lookup_cons_ne hne, ih]

@[simp] theorem get_insert_of_ne (h : l ≠ k) (v : ν) : (m.insert k v).get l = m.get l := by
  obtain ⟨entries, hsorted⟩ := m
  change (place k v entries).lookup l = entries.lookup l
  clear hsorted
  induction entries with
  | nil => exact lookup_cons_ne h
  | cons e entries ih =>
    rw [place]
    split
    · exact lookup_cons_ne h
    · split
      · rename_i heq
        rw [lookup_cons_ne h, lookup_cons_ne (heq ▸ h)]
      · by_cases hl : l = e.1
        · rw [lookup_cons_eq hl, lookup_cons_eq hl]
        · rw [lookup_cons_ne hl, lookup_cons_ne hl, ih]

/-- Insert entries one after the other. -/
def ofList (entries : List (κ × ν)) : SortedMap κ ν :=
  entries.foldl (fun m e ↦ m.insert e.1 e.2) empty

theorem place_of_forall_lt (h : ∀ e ∈ entries, e.1 < k) :
    place k v entries = entries ++ [(k, v)] := by
  induction entries with
  | nil => rfl
  | cons e entries ih =>
    have he : e.1 < k := h e List.mem_cons_self
    rw [place, if_neg (not_lt.mpr he.le), if_neg he.ne', List.cons_append,
      ih fun d hd ↦ h d (List.mem_cons_of_mem e hd)]

/-- **A map is made of its entries.** -/
theorem ofList_entries : ofList m.entries = m := by
  obtain ⟨entries, hsorted⟩ := m
  apply SortedMap.ext
  change (ofList entries).entries = entries
  induction entries using List.reverseRecOn with
  | nil => rfl
  | append_singleton entries e ih =>
    obtain ⟨hinit, -, hlast⟩ := List.pairwise_append.mp hsorted
    have hrest : (ofList entries).entries = entries := ih hinit
    rw [ofList, List.foldl_append]
    change place e.1 e.2 (ofList entries).entries = entries ++ [e]
    rw [hrest]
    exact place_of_forall_lt fun d hd ↦ hlast d hd e (List.mem_singleton.mpr rfl)

variable {m}

/-- Of several entries of a key the last one counts. -/
theorem get_ofList_append (es es' : List (κ × ν)) (k : κ) :
    (ofList (es ++ es')).get k = ((ofList es').get k).or ((ofList es).get k) := by
  induction es' using List.reverseRecOn with
  | nil => rw [List.append_nil]; rfl
  | append_singleton es' e ih =>
    have hlast : ∀ as : List (κ × ν), ofList (as ++ [e]) = (ofList as).insert e.1 e.2 := fun as ↦ by
      rw [ofList, List.foldl_append]
      rfl
    rw [← List.append_assoc, hlast, hlast]
    by_cases hk : k = e.1
    · subst hk
      rw [get_insert_self, get_insert_self, Option.some_or]
    · rw [get_insert_of_ne _ hk, get_insert_of_ne _ hk, ih]

theorem mem_of_get_ofList {es : List (κ × ν)} (h : (ofList es).get k = some v) : (k, v) ∈ es := by
  induction es with
  | nil => exact absurd h nofun
  | cons e es ih =>
    have happend := get_ofList_append [e] es k
    rw [List.singleton_append, h] at happend
    rcases Option.or_eq_some_iff.mp happend.symm with hrest | ⟨-, hfirst⟩
    · exact List.mem_cons_of_mem e (ih hrest)
    · by_cases hk : k = e.1
      · have hself : (ofList [e]).get k = some e.2 := by
          rw [hk]
          exact get_insert_self empty e.1 e.2
        cases hself.symm.trans hfirst
        exact hk ▸ List.mem_cons_self
      · exact absurd ((get_insert_of_ne empty hk e.2).symm.trans hfirst) nofun

theorem exists_get_ofList_of_mem {es : List (κ × ν)} {e : κ × ν} (h : e ∈ es) :
    ∃ v, (ofList es).get e.1 = some v := by
  obtain ⟨before, after, rfl⟩ := List.append_of_mem h
  rw [← List.singleton_append, ← List.append_assoc, get_ofList_append, get_ofList_append]
  have hself : (ofList [e]).get e.1 = some e.2 := get_insert_self empty e.1 e.2
  rw [hself]
  match (ofList after).get e.1 with
  | some v => exact ⟨v, rfl⟩
  | none => exact ⟨e.2, rfl⟩

theorem get_ofList_of_mem {es : List (κ × ν)} (hkeys : (es.map Prod.fst).Nodup)
    (h : (k, v) ∈ es) : (ofList es).get k = some v := by
  obtain ⟨before, after, rfl⟩ := List.append_of_mem h
  have hafter : (ofList after).get k = none := by
    rw [Option.eq_none_iff_forall_ne_some]
    intro w hw
    rw [List.map_append, List.map_cons] at hkeys
    have hnew := (List.nodup_cons.mp (List.nodup_append.mp hkeys).2.1).1
    exact hnew (List.mem_map.mpr ⟨(k, w), mem_of_get_ofList hw, rfl⟩)
  rw [← List.singleton_append, ← List.append_assoc, get_ofList_append, hafter, Option.none_or,
    get_ofList_append]
  exact congrArg (Option.or · _) (get_insert_self empty k v)

theorem nodup_keys (m : SortedMap κ ν) : (m.entries.map Prod.fst).Nodup := by
  rw [List.Nodup, List.pairwise_map]
  exact m.sorted.imp fun h ↦ h.ne

theorem mem_of_get (h : m.get k = some v) : (k, v) ∈ m.entries :=
  mem_of_get_ofList ((ofList_entries m).symm ▸ h)

theorem get_of_mem (h : (k, v) ∈ m.entries) : m.get k = some v := by
  rw [← ofList_entries m]
  exact get_ofList_of_mem m.nodup_keys h

/-- **Maps that give the same for every key are the same.** -/
theorem ext_get {m' : SortedMap κ ν} (h : ∀ k, m.get k = m'.get k) : m = m' := by
  have hmem : ∀ e, e ∈ m.entries ↔ e ∈ m'.entries := fun e ↦
    ⟨fun he ↦ mem_of_get ((h e.1).symm.trans (get_of_mem he)),
      fun he ↦ mem_of_get ((h e.1).trans (get_of_mem he))⟩
  have hnodup : ∀ n : SortedMap κ ν, n.entries.Nodup := fun n ↦
    n.sorted.imp fun hlt heq ↦ hlt.ne (congrArg Prod.fst heq)
  have hperm : m.entries.Perm m'.entries :=
    (List.perm_ext_iff_of_nodup (hnodup m) (hnodup m')).mpr hmem
  refine SortedMap.ext (hperm.eq_of_pairwise ?_ m.sorted m'.sorted)
  intro a b _ _ hab hba
  exact absurd hab (lt_asymm hba)

end SortedMap
