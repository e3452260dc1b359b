import HydrationAPI.Lib.UriPath

/-!
# Forms in the body of a request

`application/x-www-form-urlencoded`: pairs of a name and a value, joined with `&` and `=`, in which
a space is written as `+` and octets that may not stand for themselves are escaped. A reader cuts
the text at the separators first, and turns `+` into a space before it takes the escapes out.
-/

namespace Urlencoded

/-! ## One field -/

/-- The octets of a name or a value, as they are written. -/
def encode (keep : UInt8 → Bool) (bs : List UInt8) : List Char :=
  bs.flatMap fun b ↦
    if keep b then [Char.ofNat b.toNat] else if b = 32 then ['+'] else Uri.escape b

def unplus (c : Char) : Char := if c = '+' then ' ' else c

/-- The octets that a written name or value stands for. -/
def decode (cs : List Char) : Option (List UInt8) := Uri.decode (cs.map unplus)

/-- The octets that stand for themselves are characters that mean nothing else in a form. -/
structure Proper (keep : UInt8 → Bool) : Prop where
  plain : Uri.Plain keep
  plus : keep 43 = false
  ampersand : keep 38 = false
  equals : keep 61 = false

variable {keep : UInt8 → Bool} {bs : List UInt8} {b : UInt8} {c : Char}

theorem toNat_ofNat (hb : b.toNat < 128) : (Char.ofNat b.toNat).toNat = b.toNat := by
  have hvalid : b.toNat.isValidChar := Or.inl (by omega)
  rw [Char.ofNat, dif_pos hvalid]
  exact UInt32.toNat_ofNatLT ..

/-- A character that is kept is the one of its octet. -/
theorem Proper.ne_ofNat (hkeep : Proper keep) (hb : keep b = true) {n : UInt8}
    (hn : keep n = false) (hc : c.toNat = n.toNat) : Char.ofNat b.toNat ≠ c := by
  intro heq
  have hnat := toNat_ofNat (hkeep.plain b hb).1
  rw [heq, hc] at hnat
  rw [UInt8.toNat_inj.mp hnat, hb] at hn
  exact absurd hn.symm Bool.false_ne_true

theorem hexDigit_not_mem : ∀ n < 16, Uri.hexDigit n ∉ ['+', '&', '='] := by decide

theorem not_mem_escape (hc : c ∈ ['+', '&', '=']) (b : UInt8) : c ∉ Uri.escape b := by
  have hb : b.toNat < 256 := b.toNat_lt
  rw [Uri.escape]
  intro h
  rcases List.mem_cons.mp h with rfl | h
  · exact absurd hc (by decide)
  · rcases List.mem_cons.mp h with rfl | h
    · exact hexDigit_not_mem _ (by omega) hc
    · rw [List.mem_singleton] at h
      subst h
      exact hexDigit_not_mem _ (Nat.mod_lt _ (by decide)) hc

/-- Neither separator stands in what is written of a field. -/
theorem Proper.not_mem_encode (hkeep : Proper keep) (hc : c = '&' ∨ c = '=') :
    c ∉ encode keep bs := by
  intro h
  obtain ⟨b, -, hb⟩ := List.mem_flatMap.mp h
  split at hb
  · rename_i hkept
    have heq := List.mem_singleton.mp hb
    rcases hc with rfl | rfl
    · exact hkeep.ne_ofNat hkept hkeep.ampersand rfl heq.symm
    · exact hkeep.ne_ofNat hkept hkeep.equals rfl heq.symm
  · split at hb
    · rw [List.mem_singleton.mp hb] at hc
      exact absurd hc (by decide)
    · refine not_mem_escape ?_ b hb
      rcases hc with rfl | rfl <;> decide

theorem map_unplus {cs : List Char} (h : '+' ∉ cs) : cs.map unplus = cs := by
  have hsame : ∀ c ∈ cs, unplus c = id c := by
    intro c hc
    refine if_neg fun heq ↦ h ?_
    rwa [heq] at hc
  rw [List.map_congr_left hsame, List.map_id]

/-- With the spaces back, only escapes are left. -/
theorem Proper.map_unplus_encode (hkeep : Proper keep) (bs : List UInt8) :
    (encode keep bs).map unplus = Uri.encode (fun b ↦ keep b || b == 32) bs := by
  rw [encode, List.map_flatMap, Uri.encode]
  refine List.flatMap_congr fun b _ ↦ ?_
  cases hb : keep b with
  | true =>
    have hne : Char.ofNat b.toNat ≠ '+' := hkeep.ne_ofNat hb hkeep.plus rfl
    simp [unplus, hne]
  | false =>
    by_cases hspace : b = 32
    · subst hspace
      rfl
    · simp [hspace, map_unplus (not_mem_escape (by decide) b)]

/-- **What was written of a field is read back.** -/
theorem Proper.decode_encode (hkeep : Proper keep) (bs : List UInt8) :
    decode (encode keep bs) = some bs := by
  rw [decode, hkeep.map_unplus_encode]
  refine Uri.decode_encode (fun b hb ↦ ?_) bs
  rcases Bool.or_eq_true_iff.mp hb with hkept | hspace
  · exact hkeep.plain b hkept
  · rw [beq_iff_eq.mp hspace]
    decide

/-! ## The form -/

/-- A pair, as it is written. -/
def pair (keep : UInt8 → Bool) (field : List UInt8 × List UInt8) : List Char :=
  encode keep field.1 ++ '=' :: encode keep field.2

def write (keep : UInt8 → Bool) (fields : List (List UInt8 × List UInt8)) : List Char :=
  List.intercalate ['&'] (fields.map (pair keep))

/-- A pair, as it is read; without an equals sign it is all name. -/
def readPair (piece : List Char) : Option (List UInt8 × List UInt8) := do
  let name := piece.takeWhile (· ≠ '=')
  pure (← decode name, ← decode (piece.drop (name.length + 1)))

/-- The pairs of a text; empty pieces say nothing. -/
def read (cs : List Char) : Option (List (List UInt8 × List UInt8)) :=
  ((cs.splitOn '&').filter (· ≠ [])).mapM readPair

theorem pair_ne_nil (field : List UInt8 × List UInt8) : pair keep field ≠ [] :=
  List.append_ne_nil_of_right_ne_nil _ (List.cons_ne_nil _ _)

theorem Proper.not_mem_pair (hkeep : Proper keep) (field : List UInt8 × List UInt8) :
    '&' ∉ pair keep field := by
  rw [pair, List.mem_append, List.mem_cons, not_or, not_or]
  exact ⟨hkeep.not_mem_encode (Or.inl rfl), by decide, hkeep.not_mem_encode (Or.inl rfl)⟩

theorem Proper.readPair_pair (hkeep : Proper keep) (field : List UInt8 × List UInt8) :
    readPair (pair keep field) = some field := by
  have hname : (pair keep field).takeWhile (· ≠ '=') = encode keep field.1 := by
    have hall : ∀ c ∈ encode keep field.1, decide (c ≠ '=') = true := fun c hc ↦
      decide_eq_true fun heq ↦ hkeep.not_mem_encode (Or.inr rfl) (heq ▸ hc)
    rw [pair, List.takeWhile_append_of_pos hall, List.takeWhile_cons_of_neg (by decide),
      List.append_nil]
  have hvalue :
      (pair keep field).drop ((encode keep field.1).length + 1) = encode keep field.2 := by
    rw [pair, ← List.drop_drop, List.drop_left]
    rfl
  simp only [readPair, hname, hvalue, hkeep.decode_encode, Option.bind_eq_bind, Option.bind_some]
  rfl

theorem Proper.mapM_readPair (hkeep : Proper keep) (fields : List (List UInt8 × List UInt8)) :
    (fields.map (pair keep)).mapM readPair = some fields := by
  induction fields with
  | nil => rfl
  | cons field fields ih => rw [List.map_cons, List.mapM_cons, hkeep.readPair_pair, ih]; rfl

/-- **A form is read back as it was written.** -/
theorem Proper.read_write (hkeep : Proper keep) (fields : List (List UInt8 × List UInt8)) :
    read (write keep fields) = some fields := by
  have hpairs : ((write keep fields).splitOn '&').filter (· ≠ []) = fields.map (pair keep) := by
    cases fields with
    | nil => rfl
    | cons field fields =>
      rw [write, List.splitOn_intercalate]
      · refine List.filter_eq_self.mpr fun piece hpiece ↦ ?_
        obtain ⟨f, -, rfl⟩ := List.mem_map.mp hpiece
        exact decide_eq_true (pair_ne_nil f)
      · intro piece hpiece
        obtain ⟨f, -, rfl⟩ := List.mem_map.mp hpiece
        exact hkeep.not_mem_pair f
      · exact List.cons_ne_nil _ _
  rw [read, hpairs, hkeep.mapM_readPair]

end Urlencoded
