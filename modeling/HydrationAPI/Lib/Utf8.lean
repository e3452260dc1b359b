import HydrationAPI.Lib.Text

/-!
# Text as bytes

UTF-8: the bytes of a text, whether bytes are a text, and what bytes are read as that need not be
one. A character of ASCII is one byte, which stands in the bytes of no other character, so that a
text may be cut at it before or after it is encoded.
-/

namespace Utf8

/-- The bytes of a text. -/
def encode (s : String) : List UInt8 := s.toList.flatMap String.utf8EncodeChar

/-- `str::from_utf8`. -/
def decode (bs : List UInt8) : Option String := String.fromUTF8? bs.toByteArray

variable {b : UInt8} {c : Char} {s t : String}

theorem encode_append (s t : String) : encode (s ++ t) = encode s ++ encode t := by
  rw [encode, String.toList_append, List.flatMap_append]
  rfl

theorem toByteArray_encode (s : String) : (encode s).toByteArray = s.toByteArray := by
  rw [← String.utf8Encode_toList, List.utf8Encode]
  rfl

/-- A text is told by its bytes. -/
theorem encode_injective : Function.Injective encode := by
  intro s t h
  rw [← String.toByteArray_inj, ← toByteArray_encode, h, toByteArray_encode]

/-- **Bytes are read as the text they were written from**, and as no other. -/
theorem decode_eq_some {bs : List UInt8} : decode bs = some s ↔ bs = encode s := by
  rw [decode, String.fromUTF8?]
  constructor
  · intro h
    split at h
    · rw [Option.some_inj] at h
      have hbytes : s.toByteArray = bs.toByteArray := by rw [← h]; rfl
      rw [← toByteArray_encode] at hbytes
      have hlist := congrArg (fun a : ByteArray ↦ a.data.toList) hbytes
      simpa using hlist.symm
    · exact absurd h nofun
  · rintro rfl
    rw [dif_pos (toByteArray_encode s ▸ s.isValidUTF8), Option.some_inj, ← String.toByteArray_inj]
    exact toByteArray_encode s

/-! ## Characters of ASCII -/

/-- A byte of ASCII stands in the bytes of its own character only. -/
theorem eq_of_mem_utf8EncodeChar (hb : b ∈ String.utf8EncodeChar c) (hascii : b.toNat < 128) :
    c.toNat = b.toNat := by
  rw [String.utf8EncodeChar] at hb
  split at hb
  · rename_i hle
    rw [List.mem_singleton.mp hb]
    exact (UInt8.toNat_ofNat_of_lt' (Nat.lt_of_le_of_lt hle (by decide))).symm
  · -- every byte of a longer encoding has its highest bit set
    exfalso
    have hhigh : ∀ n, 128 ≤ n → n < 256 → b ≠ UInt8.ofNat n := by
      rintro n hlow hhigh rfl
      rw [UInt8.toNat_ofNat_of_lt' hhigh] at hascii
      omega
    split at hb
    · simp only [List.mem_cons, List.not_mem_nil, or_false] at hb
      rcases hb with hb | hb <;> exact hhigh _ (by omega) (by omega) hb
    · split at hb
      · simp only [List.mem_cons, List.not_mem_nil, or_false] at hb
        rcases hb with hb | hb | hb <;> exact hhigh _ (by omega) (by omega) hb
      · simp only [List.mem_cons, List.not_mem_nil, or_false] at hb
        rcases hb with hb | hb | hb | hb <;> exact hhigh _ (by omega) (by omega) hb

theorem utf8EncodeChar_ascii (h : c.toNat < 128) :
    String.utf8EncodeChar c = [UInt8.ofNat c.toNat] := by
  rw [String.utf8EncodeChar]
  exact if_pos (Nat.le_of_lt_succ h)

/-- A text begins with a character of ASCII if its bytes begin with that of the character. -/
theorem head_encode (h : c.toNat < 128) :
    (encode s).head? = some (UInt8.ofNat c.toNat) ↔ s.toList.head? = some c := by
  rw [encode]
  cases s.toList with
  | nil => exact iff_of_false nofun nofun
  | cons d ds =>
    obtain ⟨b, bs, hbytes⟩ := List.exists_cons_of_length_pos
      (String.length_utf8EncodeChar d ▸ d.utf8Size_pos)
    rw [List.flatMap_cons, hbytes, List.cons_append, List.head?_cons, List.head?_cons,
      Option.some_inj, Option.some_inj]
    constructor
    · intro hb
      have hbyte : b.toNat = c.toNat := by
        rw [hb]
        exact UInt8.toNat_ofNat_of_lt' (Nat.lt_trans h (by decide))
      have hmem : b ∈ String.utf8EncodeChar d := hbytes ▸ List.mem_cons_self
      exact Char.toNat_inj.mp ((eq_of_mem_utf8EncodeChar hmem (by omega)).trans hbyte)
    · rintro rfl
      exact (List.cons.inj (hbytes.symm.trans (utf8EncodeChar_ascii h))).1

/-- The bytes of a text that is cut at a character of ASCII. -/
theorem splitOn_encode (h : c.toNat < 128) (s : String) :
    (encode s).splitOn (UInt8.ofNat c.toNat) = (Text.split c s).map encode := by
  rw [encode, Text.splitOn_flatMap (utf8EncodeChar_ascii h), Text.split_eq_splitOn, List.map_map]
  · refine List.map_congr_left fun cs _ ↦ ?_
    rw [Function.comp_apply, encode, String.toList_ofList]
  · intro d hd hmem
    have hbyte : (UInt8.ofNat c.toNat).toNat = c.toNat :=
      UInt8.toNat_ofNat_of_lt' (Nat.lt_trans h (by decide))
    refine hd (Char.toNat_inj.mp ?_)
    rw [eq_of_mem_utf8EncodeChar hmem (by omega), hbyte]

/-! ## Bytes that need not be text -/

/-- How many of the bytes after `b` belong to a character that begins there and breaks off. -/
def broken (b : UInt8) : List UInt8 → ℕ
  | [] => 0
  | x :: rest =>
    let next (lo hi : ℕ) := lo ≤ x.toNat ∧ x.toNat ≤ hi
    let more (n : ℕ) := ((rest.take n).takeWhile fun y ↦ 0x80 ≤ y.toNat ∧ y.toNat ≤ 0xbf).length
    let n := b.toNat
    if n = 0xe0 then if next 0xa0 0xbf then 1 else 0
    else if n = 0xed then if next 0x80 0x9f then 1 else 0
    else if 0xe1 ≤ n ∧ n ≤ 0xef then if next 0x80 0xbf then 1 else 0
    else if n = 0xf0 then if next 0x90 0xbf then 1 + more 1 else 0
    else if 0xf1 ≤ n ∧ n ≤ 0xf3 then if next 0x80 0xbf then 1 + more 1 else 0
    else if n = 0xf4 then if next 0x80 0x8f then 1 + more 1 else 0
    else 0

/-- The characters of bytes, with a mark for each that is broken. -/
def lossyChars : List UInt8 → List Char
  | [] => []
  | b :: bs =>
    match (b :: bs).toByteArray.utf8DecodeChar? 0 with
    | some c => c :: lossyChars (bs.drop (c.utf8Size - 1))
    | none => '\ufffd' :: lossyChars (bs.drop (broken b bs))
termination_by bs => bs.length
decreasing_by all_goals simp only [List.length_drop, List.length_cons]; omega

/-- `String::from_utf8_lossy`. -/
def lossy (bs : List UInt8) : String := String.ofList (lossyChars bs)

/-- **A text is read back from its bytes.** -/
theorem lossy_encode (s : String) : lossy (encode s) = s := by
  have hchars : ∀ cs : List Char, lossyChars (cs.flatMap String.utf8EncodeChar) = cs := by
    intro cs
    induction cs with
    | nil => rw [List.flatMap_nil, lossyChars]
    | cons c cs ih =>
      rw [List.flatMap_cons]
      have hlength := String.length_utf8EncodeChar c
      obtain ⟨b, bs, hbytes⟩ := List.exists_cons_of_length_pos (hlength ▸ c.utf8Size_pos)
      have hfirst : (b :: (bs ++ cs.flatMap String.utf8EncodeChar)).toByteArray.utf8DecodeChar? 0
          = some c := by
        rw [← List.cons_append, ← hbytes, List.toByteArray_append]
        exact ByteArray.utf8DecodeChar?_utf8EncodeChar_append
      rw [hbytes, List.length_cons] at hlength
      rw [hbytes, List.cons_append, lossyChars, hfirst]
      have hrest : c.utf8Size - 1 = bs.length := by omega
      dsimp only
      rw [hrest, List.drop_left, ih]
  rw [lossy, encode, hchars, String.ofList_toList]

end Utf8
