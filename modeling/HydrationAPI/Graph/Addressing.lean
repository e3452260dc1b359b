import HydrationAPI.Graph.Endpoint
import HydrationAPI.Graph.SinkUpload
import HydrationAPI.Lib.UriPath
import HydrationAPI.Lib.Utf8

/-!
# Names in addresses

A create is addressed at the name the object is to have, between `root:/` and the next colon of an
address. The name is judged first, segment by segment, and then escaped byte by byte; the two
together see to it that the address leads to the name and to nothing else.
-/

namespace HydrationAPI.Graph

/-! ## Addresses -/

/-- The API version. -/
def graphVersion : String := "v1.0"

/-- What every form begins with. -/
def driveBase (drive : DriveId) : String :=
  "https://" ++ graphHost ++ "/" ++ graphVersion ++ "/drives/" ++ drive.raw

inductive ConflictBehavior where
  | fail
  | rename
  | replace
  deriving DecidableEq, Repr

def ConflictBehavior.asStr : ConflictBehavior → String
  | .fail => "fail"
  | .rename => "rename"
  | .replace => "replace"

/-- What is not escaped: letters, digits, `-`, `.`, `_`, `~` and the slash. -/
def unreserved (b : UInt8) : Bool :=
  let n := b.toNat
  ('A'.toNat ≤ n && n ≤ 'Z'.toNat) || ('a'.toNat ≤ n && n ≤ 'z'.toNat)
    || ('0'.toNat ≤ n && n ≤ '9'.toNat) || n ∈ ['-', '.', '_', '~', '/'].map Char.toNat

/-- The bytes of a text. -/
def utf8 (s : String) : List UInt8 := s.toList.flatMap String.utf8EncodeChar

/-- The form the service addresses a name with. -/
def encodePath (rel : String) : String := String.ofList (Uri.encode unreserved (utf8 rel))

/-- Content, addressed by a name: the create. -/
def pathContentUrl (drive : DriveId) (rel : String) (behaviour : ConflictBehavior) : String :=
  driveBase drive ++ "/root:/" ++ encodePath rel
    ++ ":/content?@microsoft.graph.conflictBehavior=" ++ behaviour.asStr

def pathSessionUrl (drive : DriveId) (rel : String) : String :=
  driveBase drive ++ "/root:/" ++ encodePath rel ++ ":/createUploadSession"

/-! ## Names that are accepted -/

theorem forM_eq_ok {α ε : Type} {f : α → Except ε Unit} {xs : List α} (h : xs.forM f = .ok ()) :
    ∀ x ∈ xs, f x = .ok () := by
  induction xs with
  | nil => exact fun x hx ↦ absurd hx List.not_mem_nil
  | cons y ys ih =>
    intro x hx
    change (f y >>= fun _ ↦ ys.forM f) = .ok () at h
    match hy : f y with
    | .error e =>
      rw [hy] at h
      cases h
    | .ok () =>
      rw [hy] at h
      rcases List.mem_cons.mp hx with rfl | hx
      · exact hy
      · exact ih h x hx

/-- No segment of a name that is accepted is a dot or two. -/
theorem undotted_of_checkRelativeName {rel : String} (h : checkRelativeName rel = .ok ()) :
    ∀ s ∈ Text.split '/' rel, s ≠ "." ∧ s ≠ ".." := by
  rw [checkRelativeName] at h
  split at h
  · cases h
  · split at h
    · cases h
    · intro s hs
      have hsegment := forM_eq_ok h s hs
      refine ⟨?_, ?_⟩
      · rintro rfl
        cases hsegment
      · rintro rfl
        cases hsegment

/-! ## What stands in an encoded name -/

variable {rel : String} {cs : List Char} {c : Char}

/-- What holds of the bytes of every number holds of every byte. -/
theorem forall_byte {P : UInt8 → Prop} (h : ∀ n < 256, P (UInt8.ofNat n)) (b : UInt8) : P b := by
  have hb := h b.toNat b.toNat_lt
  rwa [UInt8.ofNat_toNat] at hb

theorem plain_unreserved : Uri.Plain unreserved := forall_byte (by decide +kernel)

/-- None of the delimiters stands in an encoded text. -/
theorem not_mem_encode_unreserved {bs : List UInt8} (hc : c ∈ [':', '?', '#', '\\']) :
    c ∉ Uri.encode unreserved bs := by
  have hnot : ∀ d ∈ [':', '?', '#', '\\'], d ≠ '%' ∧ (∀ n < 16, d ≠ Uri.hexDigit n)
      ∧ ∀ n < 256, unreserved (UInt8.ofNat n) = true → d ≠ Char.ofNat (UInt8.ofNat n).toNat :=
    -- along the list, and not over all characters
    List.forall_iff_forall_mem.mp (by decide +kernel)
  obtain ⟨hpercent, hhex, hkept⟩ := hnot c hc
  exact Uri.not_mem_encode hpercent hhex (forall_byte hkept)

/-- Text, escaped character by character. -/
def encodeChars (cs : List Char) : List Char :=
  Uri.encode unreserved (cs.flatMap String.utf8EncodeChar)

theorem encodeChars_cons (c : Char) (cs : List Char) : encodeChars (c :: cs)
    = Uri.encode unreserved (String.utf8EncodeChar c) ++ encodeChars cs := by
  rw [encodeChars, List.flatMap_cons, Uri.encode_append, ← encodeChars]

/-- No other character is escaped to something with a slash. -/
theorem slash_not_mem (hc : c ≠ '/') :
    '/' ∉ Uri.encode unreserved (String.utf8EncodeChar c) := by
  intro h
  have hslash : ∀ n < 256, '/' = Char.ofNat (UInt8.ofNat n).toNat → (UInt8.ofNat n).toNat = 47 := by
    decide +kernel
  rcases Uri.mem_encode h with ⟨b, hb, -, hkept⟩ | hpercent | ⟨n, hn, hhex⟩
  · have hvalue := forall_byte (P := fun b ↦ '/' = Char.ofNat b.toNat → b.toNat = 47) hslash b hkept
    refine hc (Char.toNat_inj.mp ?_)
    rw [Utf8.eq_of_mem_utf8EncodeChar hb (by omega), hvalue]
    rfl
  · exact absurd hpercent (by decide)
  · exact absurd hhex ((by decide : ∀ n < 16, '/' ≠ Uri.hexDigit n) n hn)

/-- **The segments of an encoded name** are those of the name, encoded. -/
theorem splitOn_encodeChars (cs : List Char) :
    (encodeChars cs).splitOn '/' = (cs.splitOn '/').map encodeChars := by
  have hchars : ∀ ds, encodeChars ds
      = ds.flatMap fun c ↦ Uri.encode unreserved (String.utf8EncodeChar c) := by
    intro ds
    induction ds with
    | nil => rfl
    | cons d ds ih => rw [encodeChars_cons, ih, List.flatMap_cons]
  rw [funext hchars]
  exact Text.splitOn_flatMap (by decide) (fun c hc ↦ slash_not_mem hc) cs

/-- A text is told by its bytes. -/
theorem utf8_injective : Function.Injective utf8 := Utf8.encode_injective

/-! ## What reaches the service -/

/-- A segment that is encoded reads as the segment. -/
theorem decode_encodeChars (cs tail : List Char) : Uri.decode (encodeChars cs ++ tail)
    = (Uri.decode tail).map (cs.flatMap String.utf8EncodeChar ++ ·) :=
  Uri.decode_encode_append plain_unreserved _ tail

/-- **An accepted name has no dot segment once it is encoded**, and with what stands around it in
an address neither. -/
theorem undotted_of_accepted (h : checkRelativeName rel = .ok ()) {last : List Char}
    (hlast : '/' ∉ last) (hdots : Uri.isDot last = false ∧ Uri.isDotDot last = false) :
    Uri.Undotted (("root:".toList ++ '/' :: (encodeChars rel.toList ++ ":".toList
      ++ '/' :: last)).splitOn '/') := by
  have hsegment : ∀ s ∈ (encodeChars rel.toList).splitOn '/',
      ∃ t : String, s = encodeChars t.toList ∧ t ≠ "." ∧ t ≠ ".." := by
    intro s hs
    rw [splitOn_encodeChars] at hs
    obtain ⟨t, ht, rfl⟩ := List.mem_map.mp hs
    refine ⟨String.ofList t, by rw [String.toList_ofList], ?_⟩
    refine undotted_of_checkRelativeName h _ ?_
    rw [Text.split_eq_splitOn]
    exact List.mem_map_of_mem ht
  -- a segment of the name reads as itself
  have hname : ∀ t : String, t ≠ "." ∧ t ≠ ".." →
      Uri.isDot (encodeChars t.toList) = false ∧ Uri.isDotDot (encodeChars t.toList) = false := by
    rintro t ⟨hdot, hdots⟩
    have hread : Uri.decode (encodeChars t.toList) = some (utf8 t) :=
      Uri.decode_encode plain_unreserved _
    rw [Uri.isDot, Uri.isDotDot, hread]
    refine ⟨decide_eq_false fun heq ↦ ?_, decide_eq_false fun heq ↦ ?_⟩
    · exact hdot (utf8_injective (Option.some_inj.mp heq))
    · exact hdots (utf8_injective (Option.some_inj.mp heq))
  -- the colon after the last one is no dot
  have hcolon : ∀ t : String, Uri.isDot (encodeChars t.toList ++ ":".toList) = false
      ∧ Uri.isDotDot (encodeChars t.toList ++ ":".toList) = false := by
    intro t
    have hread : Uri.decode (encodeChars t.toList ++ ":".toList) = some (utf8 t ++ [58]) :=
      decode_encodeChars t.toList _
    have hne : ∀ bs : List UInt8, bs.getLast? ≠ some 58 → ¬ some (utf8 t ++ [58]) = some bs := by
      rintro bs hbs heq
      rw [← Option.some_inj.mp heq, List.getLast?_concat] at hbs
      exact hbs rfl
    rw [Uri.isDot, Uri.isDotDot, hread]
    exact ⟨decide_eq_false (hne _ (by decide)), decide_eq_false (hne _ (by decide))⟩
  obtain ⟨first, t, hfirst, happend⟩ :=
    Uri.splitOn_append_right (by decide : '/' ∉ ":".toList) (encodeChars rel.toList)
  rw [List.splitOn_append_cons_self, List.splitOn_append_cons_self, happend,
    List.splitOn_eq_singleton hlast]
  intro s hs
  simp only [List.mem_append, List.mem_singleton] at hs
  rcases hs with hs | (hs | rfl) | rfl
  · rw [List.mem_singleton.mp hs]
    decide +kernel
  · obtain ⟨u, rfl, hu⟩ := hsegment s (hfirst ▸ List.mem_append_left _ hs)
    exact hname u hu
  · obtain ⟨u, rfl, -⟩ := hsegment t (hfirst ▸ List.mem_append_right _ (List.mem_singleton_self t))
    exact hcolon u
  · exact hdots

/-- Behind `front` the address has `root:/`, a text that reads as the name, in which no delimiter
stands for itself and every `%` begins an escape, and then `tail`. -/
def LeadsTo (front : List Char) (rel tail : String) (url : List Char) : Prop :=
  ∃ name, url = front ++ "/root:/".toList ++ name ++ tail.toList
    ∧ Uri.decode name = some (utf8 rel) ∧ ∀ c ∈ name, c ∉ [':', '?', '#', '\\']

/-- An address leads to one name. -/
theorem LeadsTo.unique {front url : List Char} {rel rel' tail : String}
    (h : LeadsTo front rel tail url) (h' : LeadsTo front rel' tail url) : rel = rel' := by
  obtain ⟨name, rfl, hread, -⟩ := h
  obtain ⟨name', heq, hread', -⟩ := h'
  obtain rfl := List.append_cancel_left (List.append_cancel_right heq)
  exact utf8_injective (Option.some_inj.mp (hread.symm.trans hread'))

theorem toList_encodePath (rel : String) : (encodePath rel).toList = encodeChars rel.toList :=
  String.toList_ofList

/-- What the client sends of an address whose name is accepted. -/
theorem exists_leadsTo (drive : DriveId) : ∃ front,
    (∀ rel last query, checkRelativeName rel = .ok () → '/' ∉ last.toList →
      (∀ c ∈ last.toList, Uri.inPath c = true) →
      Uri.isDot last.toList = false ∧ Uri.isDotDot last.toList = false → Uri.Ends query.toList →
      LeadsTo front rel (":/" ++ last ++ query) (Uri.normalize
        (driveBase drive ++ "/root:/" ++ encodePath rel ++ (":/" ++ last ++ query)).toList))
    ∧ ((∀ c ∈ drive.raw.toList, c ∉ ['/', '?', '#']) → Uri.isDot drive.raw.toList = false →
      Uri.isDotDot drive.raw.toList = false → front = (driveBase drive).toList) := by
  have hbase : (driveBase drive).toList = Uri.origin "https".toList graphHost.toList
      ++ '/' :: ("v1.0/drives/".toList ++ drive.raw.toList) := by
    simp [driveBase, graphHost, graphVersion, Uri.origin]
  have hscheme : ∀ c ∈ "https".toList, c ∉ [':', '/', '?', '#'] :=
    List.forall_iff_forall_mem.mp (by decide)
  have hhost : ∀ c ∈ graphHost.toList, c ∉ ['/', '?', '#'] :=
    List.forall_iff_forall_mem.mp (by decide)
  obtain ⟨front, hnormal, hplain⟩ := Uri.exists_normalize hscheme (by decide) hhost
    ("v1.0/drives/".toList ++ drive.raw.toList)
  refine ⟨front, fun rel last query hrel hlast hin hdots hquery ↦ ?_, fun hdrive hdot hdotdot ↦ ?_⟩
  · have hpath := hnormal ("root:".toList ++ '/' :: (encodeChars rel.toList ++ ":".toList
      ++ '/' :: last.toList)) query.toList ?_ (undotted_of_accepted hrel hlast hdots) hquery
    · refine ⟨encodeChars rel.toList, ?_, ?_, fun c hc hmem ↦ not_mem_encode_unreserved hmem hc⟩
      · rw [← toList_encodePath] at hpath ⊢
        rw [String.toList_append, String.toList_append, String.toList_append, hbase]
        simpa using hpath
      · exact Uri.decode_encode plain_unreserved _
    · intro c hc
      simp only [List.mem_append, List.mem_cons] at hc
      rcases hc with hc | rfl | (hc | hc) | rfl | hc
      · have hroot : ∀ c ∈ "root:".toList, Uri.inPath c = true :=
          List.forall_iff_forall_mem.mp (by decide)
        exact hroot c hc
      · rfl
      · refine decide_eq_true fun hmem ↦ not_mem_encode_unreserved ?_ hc
        simp only [List.mem_cons, List.not_mem_nil, or_false] at hmem ⊢
        exact Or.inr (hmem.elim Or.inl fun h ↦ Or.inr (Or.inl h))
      · have hcolon : ∀ c ∈ ":".toList, Uri.inPath c = true :=
          List.forall_iff_forall_mem.mp (by decide)
        exact hcolon c hc
      · rfl
      · exact hin c hc
  · rw [hbase]
    refine hplain (fun c hc ↦ ?_) ?_
    · rcases List.mem_append.mp hc with hc | hc
      · have hdrives : ∀ c ∈ "v1.0/drives/".toList, Uri.inPath c = true :=
          List.forall_iff_forall_mem.mp (by decide)
        exact hdrives c hc
      · exact decide_eq_true fun hmem ↦ hdrive c hc (List.mem_cons_of_mem _ hmem)
    · have hsplit : ("v1.0/drives/".toList ++ drive.raw.toList).splitOn '/'
          = ["v1.0".toList, "drives".toList, drive.raw.toList] := by
        have hslash : '/' ∉ drive.raw.toList := fun h ↦ hdrive _ h List.mem_cons_self
        change ("v1.0".toList ++ '/' :: ("drives".toList ++ '/' :: drive.raw.toList)).splitOn '/' = _
        rw [List.splitOn_append_cons_self, List.splitOn_append_cons_self,
          List.splitOn_eq_singleton hslash]
        rfl
      rw [hsplit]
      intro s hs
      simp only [List.mem_cons, List.not_mem_nil, or_false] at hs
      rcases hs with rfl | rfl | rfl
      · decide +kernel
      · decide +kernel
      · exact ⟨hdot, hdotdot⟩

/-- **Addresses lead to the name they are built from**: once the client has taken the dot segments
out, the create and the session of a name that is accepted have it, escaped, behind `root:/`; what
comes before that is the same for every name, and the base of the drive unless the id of the drive
has delimiters itself. Two names have two addresses. -/
theorem path_addressing (drive : DriveId) (behaviour : ConflictBehavior) : ∃ front,
    (∀ rel, checkRelativeName rel = .ok () →
      LeadsTo front rel (":/content?@microsoft.graph.conflictBehavior=" ++ behaviour.asStr)
          (Uri.normalize (pathContentUrl drive rel behaviour).toList)
        ∧ LeadsTo front rel ":/createUploadSession"
          (Uri.normalize (pathSessionUrl drive rel).toList))
    ∧ ((∀ c ∈ drive.raw.toList, c ∉ ['/', '?', '#']) → Uri.isDot drive.raw.toList = false →
      Uri.isDotDot drive.raw.toList = false → front = (driveBase drive).toList)
    ∧ Set.InjOn (fun rel ↦ Uri.normalize (pathContentUrl drive rel behaviour).toList)
      {rel | checkRelativeName rel = .ok ()}
    ∧ Set.InjOn (fun rel ↦ Uri.normalize (pathSessionUrl drive rel).toList)
      {rel | checkRelativeName rel = .ok ()} := by
  obtain ⟨front, hleads, hplain⟩ := exists_leadsTo drive
  have hcontent : ∀ rel, checkRelativeName rel = .ok () →
      LeadsTo front rel (":/content?@microsoft.graph.conflictBehavior=" ++ behaviour.asStr)
        (Uri.normalize (pathContentUrl drive rel behaviour).toList) := by
    intro rel hrel
    have h := hleads rel "content" ("?@microsoft.graph.conflictBehavior=" ++ behaviour.asStr) hrel
      (by decide) (List.forall_iff_forall_mem.mp (by decide)) (by decide +kernel) ?_
    · have htail : ":/" ++ "content" ++ ("?@microsoft.graph.conflictBehavior=" ++ behaviour.asStr)
          = ":/content?@microsoft.graph.conflictBehavior=" ++ behaviour.asStr := by
        rw [← String.append_assoc]
        rfl
      rw [htail, ← String.append_assoc] at h
      exact h
    · intro c hc
      rw [String.toList_append] at hc
      cases hc
      rfl
  have hsession : ∀ rel, checkRelativeName rel = .ok () →
      LeadsTo front rel ":/createUploadSession"
        (Uri.normalize (pathSessionUrl drive rel).toList) := by
    intro rel hrel
    exact hleads rel "createUploadSession" "" hrel (by decide)
      (List.forall_iff_forall_mem.mp (by decide)) (by decide +kernel) fun c hc ↦ absurd hc nofun
  refine ⟨front, fun rel hrel ↦ ⟨hcontent rel hrel, hsession rel hrel⟩, hplain,
    fun rel hrel rel' hrel' heq ↦ ?_, fun rel hrel rel' hrel' heq ↦ ?_⟩
  · dsimp only at heq
    have hother := hcontent rel' hrel'
    rw [← heq] at hother
    exact (hcontent rel hrel).unique hother
  · dsimp only at heq
    have hother := hsession rel' hrel'
    rw [← heq] at hother
    exact (hsession rel hrel).unique hother

/-- A name with a blank, a hash, a percent sign and a letter that takes two bytes. -/
theorem path_addressing_sample :
    checkRelativeName "a b/#1%é" = .ok ()
      ∧ LeadsTo "https://graph.microsoft.com/v1.0/drives/d".toList "a b/#1%é" ":/createUploadSession"
        (Uri.normalize (pathSessionUrl ⟨"d", rfl⟩ "a b/#1%é").toList) := by
  have haccepted : checkRelativeName "a b/#1%é" = .ok () := by decide +kernel
  obtain ⟨front, hleads, hplain, -⟩ := path_addressing ⟨"d", rfl⟩ .fail
  obtain rfl := hplain (List.forall_iff_forall_mem.mp (by decide)) (by decide) (by decide)
  exact ⟨haccepted, (hleads _ haccepted).2⟩

example : encodePath "a b/#1%é" = "a%20b/%231%25%C3%A9" := by decide +kernel

end HydrationAPI.Graph
