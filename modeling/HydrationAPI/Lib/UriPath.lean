import HydrationAPI.Lib.Uri
import Mathlib.Data.List.TakeWhile

/-!
# The path of a URI

RFC 3986, as far as a path goes: octets that may not stand for themselves are escaped, and a client
takes the dot segments out of a path before it sends it. What has no segment that reads as one dot or
two is left as it is, whatever comes before it.
-/

namespace Uri

/-! ## Escapes -/

/-- A digit of an escape, as it is written. -/
def hexDigit (n : ℕ) : Char := (Nat.digitChar n).toUpper

/-- A digit of an escape, as it is read. -/
def hexValue (c : Char) : Option ℕ :=
  if c.isDigit then some (c.toNat - '0'.toNat)
  else if 'a'.toNat ≤ c.toNat ∧ c.toNat ≤ 'f'.toNat then some (c.toNat - 'a'.toNat + 10)
  else if 'A'.toNat ≤ c.toNat ∧ c.toNat ≤ 'F'.toNat then some (c.toNat - 'A'.toNat + 10)
  else none

/-- `%` and two digits. -/
def escape (b : UInt8) : List Char := ['%', hexDigit (b.toNat / 16), hexDigit (b.toNat % 16)]

/-- The octets, those that are not to be kept as escapes. -/
def encode (keep : UInt8 → Bool) (bs : List UInt8) : List Char :=
  bs.flatMap fun b ↦ if keep b then [Char.ofNat b.toNat] else escape b

/-- The octets a text stands for; nothing where a `%` begins no escape, or a character is not
ASCII. -/
def decode : List Char → Option (List UInt8)
  | [] => some []
  | '%' :: high :: low :: cs => do
    let h ← hexValue high
    let l ← hexValue low
    let bs ← decode cs
    pure (UInt8.ofNat (16 * h + l) :: bs)
  | c :: cs =>
    if c = '%' ∨ 128 ≤ c.toNat then none else (decode cs).map (UInt8.ofNat c.toNat :: ·)

/-- The octets that are kept are characters that stand for themselves. -/
def Plain (keep : UInt8 → Bool) : Prop := ∀ b, keep b = true → b.toNat < 128 ∧ b.toNat ≠ 37

variable {keep : UInt8 → Bool} {bs : List UInt8} {b : UInt8}

theorem hexValue_hexDigit : ∀ n < 16, hexValue (hexDigit n) = some n := by decide

theorem decode_escape (b : UInt8) (cs : List Char) :
    decode (escape b ++ cs) = (decode cs).map (b :: ·) := by
  have hb : b.toNat < 256 := b.toNat_lt
  have hvalue : UInt8.ofNat (16 * (b.toNat / 16) + b.toNat % 16) = b := by
    rw [Nat.div_add_mod]
    exact UInt8.ofNat_toNat
  change decode ('%' :: hexDigit (b.toNat / 16) :: hexDigit (b.toNat % 16) :: cs) = _
  rw [decode, hexValue_hexDigit _ (by omega), hexValue_hexDigit _ (by omega)]
  cases decode cs with
  | none => rfl
  | some bs => exact congrArg (fun b ↦ some (b :: bs)) hvalue

theorem decode_plain {c : Char} (hpercent : c ≠ '%') (hascii : c.toNat < 128) (cs : List Char) :
    decode (c :: cs) = (decode cs).map (UInt8.ofNat c.toNat :: ·) := by
  rw [decode.eq_3 _ _ fun _ _ _ h _ ↦ hpercent h, if_neg]
  rintro (h | h)
  · exact hpercent h
  · exact absurd hascii (Nat.not_lt.mpr h)

theorem decode_encode_append (hkeep : Plain keep) (bs : List UInt8) (cs : List Char) :
    decode (encode keep bs ++ cs) = (decode cs).map (bs ++ ·) := by
  induction bs with
  | nil => exact Option.map_id'.symm
  | cons b bs ih =>
    rw [encode, List.flatMap_cons, ← encode, List.append_assoc]
    split
    · rename_i hkept
      obtain ⟨hascii, hpercent⟩ := hkeep b hkept
      have hvalid : b.toNat.isValidChar := Or.inl (by omega)
      have hnat : (Char.ofNat b.toNat).toNat = b.toNat := by
        rw [Char.ofNat, dif_pos hvalid]
        exact UInt32.toNat_ofNatLT ..
      rw [List.singleton_append, decode_plain, ih, hnat, UInt8.ofNat_toNat, Option.map_map]
      · rfl
      · intro h
        rw [h] at hnat
        exact hpercent hnat.symm
      · omega
    · rw [decode_escape, ih, Option.map_map]
      rfl

/-- **What was escaped is read back.** -/
theorem decode_encode (hkeep : Plain keep) (bs : List UInt8) :
    decode (encode keep bs) = some bs := by
  have h := decode_encode_append hkeep bs []
  rw [List.append_nil, decode, Option.map_some, List.append_nil] at h
  exact h

/-- What stands in an encoded text. -/
theorem mem_encode {c : Char} (h : c ∈ encode keep bs) :
    (∃ b ∈ bs, keep b = true ∧ c = Char.ofNat b.toNat) ∨ c = '%' ∨ ∃ n < 16, c = hexDigit n := by
  obtain ⟨b, hb, hc⟩ := List.mem_flatMap.mp h
  split at hc
  · exact Or.inl ⟨b, hb, ‹_›, List.mem_singleton.mp hc⟩
  · have hlt : b.toNat < 256 := b.toNat_lt
    rcases List.mem_cons.mp hc with rfl | hc
    · exact Or.inr (Or.inl rfl)
    · rcases List.mem_cons.mp hc with rfl | hc
      · exact Or.inr (Or.inr ⟨_, by omega, rfl⟩)
      · exact Or.inr (Or.inr ⟨_, Nat.mod_lt _ (by omega), List.mem_singleton.mp hc⟩)

/-- A character that is no digit and no capital letter, not `%`, and not kept, does not stand in
one. -/
theorem not_mem_encode {c : Char} (hpercent : c ≠ '%') (hhex : ∀ n < 16, c ≠ hexDigit n)
    (hkept : ∀ b, keep b = true → c ≠ Char.ofNat b.toNat) : c ∉ encode keep bs := by
  intro h
  rcases mem_encode h with ⟨b, -, hb, rfl⟩ | rfl | ⟨n, hn, rfl⟩
  · exact hkept b hb rfl
  · exact hpercent rfl
  · exact hhex n hn rfl

theorem encode_append (keep : UInt8 → Bool) (as bs : List UInt8) :
    encode keep (as ++ bs) = encode keep as ++ encode keep bs := List.flatMap_append

/-! ## Dot segments -/

/-- The segment reads as a dot. -/
def isDot (segment : List Char) : Bool := decode segment = some [46]

/-- The segment reads as two dots. -/
def isDotDot (segment : List Char) : Bool := decode segment = some [46, 46]

/-- Take up the next segment. -/
def follow (out : List (List Char)) (segment : List Char) : List (List Char) :=
  if isDot segment then out
  else if isDotDot segment then out.dropLast
  else out ++ [segment]

/-- The segments that are left of a path; the last leaves an empty one if it is dots. -/
def withoutDots (segments : List (List Char)) : List (List Char) :=
  let out := segments.foldl follow []
  if segments.getLast?.any fun s ↦ isDot s || isDotDot s then out ++ [[]] else out

/-- The dot segments taken out of a path that begins with a slash. -/
def removeDotSegments : List Char → List Char
  | '/' :: path => (withoutDots (path.splitOn '/')).flatMap ('/' :: ·)
  | path => path

/-- Where a path goes on. -/
def inPath (c : Char) : Bool := c ∉ ['?', '#']

/-- What a client sends of a text with an authority: the dot segments are taken out of the path, and
what follows from the first `?` or `#` on is left. -/
def normalize (url : List Char) : List Char :=
  match scheme url with
  | none => url
  | some (scheme, rest) =>
    match authority rest with
    | none => url
    | some authority =>
      let rest := rest.drop (authority.length + 2)
      scheme ++ ':' :: '/' :: '/' :: authority
        ++ (removeDotSegments (rest.takeWhile inPath) ++ rest.dropWhile inPath)

theorem flatMap_splitOn (path : List Char) :
    (path.splitOn '/').flatMap ('/' :: ·) = '/' :: path := by
  induction path with
  | nil => rfl
  | cons c path ih =>
    rw [List.splitOn_cons_eq_if_modifyHead]
    split
    · rename_i hc
      rw [List.flatMap_cons, ih, beq_iff_eq.mp hc]
      rfl
    · obtain ⟨first, others, hsplit⟩ := List.exists_cons_of_ne_nil (List.splitOn_ne_nil '/' path)
      rw [hsplit, List.flatMap_cons] at ih
      rw [hsplit, List.modifyHead_cons, List.flatMap_cons]
      exact congrArg ('/' :: c :: ·) (List.cons.inj ih).2

/-- What has no slash goes into the last segment. -/
theorem splitOn_append_right {a : List Char} (ha : '/' ∉ a) (path : List Char) :
    ∃ first last, path.splitOn '/' = first ++ [last]
      ∧ (path ++ a).splitOn '/' = first ++ [last ++ a] := by
  induction path with
  | nil => exact ⟨[], [], rfl, List.splitOn_eq_singleton ha⟩
  | cons c path ih =>
    obtain ⟨first, last, hpath, happend⟩ := ih
    rw [List.cons_append, List.splitOn_cons_eq_if_modifyHead, List.splitOn_cons_eq_if_modifyHead,
      hpath, happend]
    split
    · exact ⟨[] :: first, last, rfl, rfl⟩
    · match first with
      | [] => exact ⟨[], c :: last, rfl, rfl⟩
      | s :: first => exact ⟨(c :: s) :: first, last, rfl, rfl⟩

/-- The segments are no dots. -/
def Undotted (segments : List (List Char)) : Prop :=
  ∀ s ∈ segments, isDot s = false ∧ isDotDot s = false

theorem foldl_follow {segments : List (List Char)} (h : Undotted segments)
    (out : List (List Char)) : segments.foldl follow out = out ++ segments := by
  induction segments generalizing out with
  | nil => exact (List.append_nil out).symm
  | cons s segments ih =>
    obtain ⟨hdot, hdots⟩ := h s List.mem_cons_self
    rw [List.foldl_cons, ih fun t ht ↦ h t (List.mem_cons_of_mem s ht), follow, hdot, hdots]
    simp

/-- **What has no dot segment is left as it is, whatever comes before it.** -/
theorem removeDotSegments_append {path : List Char} (hpath : Undotted (path.splitOn '/'))
    (front : List Char) : removeDotSegments ('/' :: front ++ '/' :: path)
      = ((front.splitOn '/').foldl follow []).flatMap ('/' :: ·) ++ '/' :: path := by
  rw [List.cons_append, removeDotSegments, List.splitOn_append_cons_self, withoutDots,
    List.foldl_append, foldl_follow hpath, List.getLast?_append_of_ne_nil _ (List.splitOn_ne_nil _ _),
    if_neg, List.flatMap_append, flatMap_splitOn]
  intro hany
  obtain ⟨s, hs, hdots⟩ := (Option.any_eq_true _ _).mp hany
  obtain ⟨hdot, hdots'⟩ := hpath s (List.mem_of_getLast? hs)
  rw [hdot, hdots'] at hdots
  exact Bool.false_ne_true hdots

/-- A text with its scheme and authority. -/
def origin (scheme authority : List Char) : List Char := scheme ++ ':' :: '/' :: '/' :: authority

variable {sch host : List Char}

theorem scheme_append (hsch : ∀ c ∈ sch, c ∉ [':', '/', '?', '#']) (hne : sch ≠ [])
    (rest : List Char) : scheme (sch ++ ':' :: rest) = some (sch, rest) := by
  have htake : (sch ++ ':' :: rest).takeWhile (fun c ↦ c ∉ [':', '/', '?', '#']) = sch := by
    rw [List.takeWhile_append_of_pos fun c hc ↦ decide_eq_true (hsch c hc),
      List.takeWhile_cons_of_neg (by decide), List.append_nil]
  rw [scheme, htake, List.drop_left]
  exact if_neg (List.isEmpty_iff.not.mpr hne)

theorem authority_append (hhost : ∀ c ∈ host, c ∉ ['/', '?', '#']) (rest : List Char) :
    authority ('/' :: '/' :: host ++ '/' :: rest) = some host := by
  change some ((host ++ '/' :: rest).takeWhile fun c ↦ c ∉ ['/', '?', '#']) = _
  rw [List.takeWhile_append_of_pos fun c hc ↦ decide_eq_true (hhost c hc),
    List.takeWhile_cons_of_neg (by decide), List.append_nil]

theorem normalize_origin (hsch : ∀ c ∈ sch, c ∉ [':', '/', '?', '#']) (hne : sch ≠ [])
    (hhost : ∀ c ∈ host, c ∉ ['/', '?', '#']) (rest : List Char) :
    normalize (origin sch host ++ '/' :: rest) = origin sch host
      ++ (removeDotSegments (('/' :: rest).takeWhile inPath) ++ ('/' :: rest).dropWhile inPath) := by
  have hurl : origin sch host ++ '/' :: rest = sch ++ ':' :: ('/' :: '/' :: host ++ '/' :: rest) := by
    simp [origin]
  have hdrop : ('/' :: '/' :: host ++ '/' :: rest).drop (host.length + 2) = '/' :: rest := by
    rw [List.cons_append, List.cons_append, List.drop_succ_cons, List.drop_succ_cons, List.drop_left]
  rw [normalize, hurl, scheme_append hsch hne]
  dsimp only
  rw [authority_append hhost]
  dsimp only
  rw [hdrop, origin]

/-- What may follow a path: nothing, a query or a fragment. -/
def Ends (tail : List Char) : Prop := ∀ c ∈ tail.head?, inPath c = false

/-- **A path without dot segments reaches the service as it is**, behind the same text whatever
the path is, and that is what comes before it where this has no dot segments and no query either.
-/
theorem exists_normalize (hsch : ∀ c ∈ sch, c ∉ [':', '/', '?', '#']) (hne : sch ≠ [])
    (hhost : ∀ c ∈ host, c ∉ ['/', '?', '#']) (front : List Char) :
    ∃ front', (∀ path tail, (∀ c ∈ path, inPath c = true) → Undotted (path.splitOn '/') → Ends tail →
      normalize (origin sch host ++ '/' :: front ++ '/' :: path ++ tail)
        = front' ++ '/' :: path ++ tail)
      ∧ ((∀ c ∈ front, inPath c = true) → Undotted (front.splitOn '/') →
        front' = origin sch host ++ '/' :: front) := by
  by_cases hfront : ∀ c ∈ front, inPath c = true
  · refine ⟨origin sch host ++ ((front.splitOn '/').foldl follow []).flatMap ('/' :: ·),
      fun path tail hpath hdots htail ↦ ?_, fun _ hdots ↦ by
        rw [foldl_follow hdots, List.nil_append, flatMap_splitOn]⟩
    have hin : ∀ c ∈ '/' :: front ++ '/' :: path, inPath c = true := by
      intro c hc
      rcases List.mem_append.mp hc with hc | hc
      · rcases List.mem_cons.mp hc with rfl | hc
        · rfl
        · exact hfront c hc
      · rcases List.mem_cons.mp hc with rfl | hc
        · rfl
        · exact hpath c hc
    have htake : tail.takeWhile inPath = [] ∧ tail.dropWhile inPath = tail := by
      cases tail with
      | nil => exact ⟨rfl, rfl⟩
      | cons c tail =>
        have hc : ¬ inPath c = true := Bool.eq_false_iff.mp (htail c rfl)
        exact ⟨List.takeWhile_cons_of_neg hc, List.dropWhile_cons_of_neg hc⟩
    have hurl : origin sch host ++ '/' :: front ++ '/' :: path ++ tail
        = origin sch host ++ '/' :: (front ++ '/' :: path ++ tail) := by simp
    have hrest : '/' :: (front ++ '/' :: path ++ tail) = ('/' :: front ++ '/' :: path) ++ tail := by
      simp
    rw [hurl, normalize_origin hsch hne hhost, hrest, List.takeWhile_append_of_pos hin,
      List.dropWhile_append_of_pos hin, htake.1, htake.2, List.append_nil,
      removeDotSegments_append hdots]
    simp only [List.append_assoc]
  · -- the query begins before the path, and the client leaves it alone
    refine ⟨origin sch host ++ (removeDotSegments (('/' :: front).takeWhile inPath)
      ++ ('/' :: front).dropWhile inPath), fun path tail _ _ _ ↦ ?_, fun h ↦ absurd h hfront⟩
    have hurl : origin sch host ++ '/' :: front ++ '/' :: path ++ tail
        = origin sch host ++ '/' :: (front ++ ('/' :: path ++ tail)) := by simp
    have hstop : ('/' :: front).dropWhile inPath ≠ [] := fun hnil ↦
      hfront fun c hc ↦ List.dropWhile_eq_nil_iff.mp hnil c (List.mem_cons_of_mem _ hc)
    have hshort : (('/' :: front).takeWhile inPath).length ≠ ('/' :: front).length := by
      intro hlength
      have hsplit := congrArg List.length (List.takeWhile_append_dropWhile (p := inPath)
        (l := '/' :: front))
      rw [List.length_append, hlength] at hsplit
      exact hstop (List.eq_nil_of_length_eq_zero (by omega))
    rw [hurl, normalize_origin hsch hne hhost, ← List.cons_append, List.takeWhile_append,
      if_neg hshort, List.dropWhile_append, if_neg (List.isEmpty_iff.not.mpr hstop)]
    simp only [List.append_assoc]

end Uri
