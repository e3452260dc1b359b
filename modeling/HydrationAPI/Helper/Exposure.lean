import HydrationAPI.Lib.Lines
import HydrationAPI.Lib.Utf8
import HydrationAPI.Lib.Whitespace
import Mathlib.Data.List.Destutter
import Mathlib.Data.List.Sort
import Mathlib.Data.String.Basic

/-!
# Other mounts that expose the sync files

The table of mounts is read line by line, its fields cut at white space and the escapes of its paths
undone. Of the rows on the device of the sync directory's own mount, those are reported whose
subtree contains its subtree, or lies within it.

The kernel escapes four characters of a path and prints the others as they are. Where one of these
is white space too, the row is cut in the wrong place.
-/

namespace HydrationAPI.Exposure

/-! ## Escapes -/

/-- `u8::from_str_radix` of three characters, with base 8. -/
def octal (x y z : UInt8) : Option UInt8 :=
  let ds := if x = 43 then [y, z] else [x, y, z]
  let value := ds.foldl (fun n d ↦ 8 * n + (d.toNat - 48)) 0
  if ds.all (fun d ↦ 48 ≤ d.toNat ∧ d.toNat ≤ 55) ∧ value ≤ 255 then some (UInt8.ofNat value)
  else none

def unescapeBytes : List UInt8 → List UInt8
  | [] => []
  | b :: x :: y :: z :: rest =>
    match if b = 92 then octal x y z else none with
    | some c => c :: unescapeBytes rest
    | none => b :: unescapeBytes (x :: y :: z :: rest)
  | b :: rest => b :: unescapeBytes rest

/-- `/proc/self/mountinfo` escapes space, tab, newline and backslash as octal. -/
def unescape (s : String) : String := Utf8.lossy (unescapeBytes (Utf8.encode s))

example : unescapeBytes (Utf8.encode "/mnt/my\\040drive\\") = Utf8.encode "/mnt/my drive\\" := by
  decide

/-! ## The table -/

/-- One line of `/proc/self/mountinfo`, as far as it matters. -/
structure Row where
  devno : String
  /-- The subtree of the filesystem this mount exposes. -/
  root : String
  point : String

def Row.parse (line : String) : Option Row :=
  match Text.splitWhitespace line with
  | _ :: _ :: devno :: root :: point :: _ => some ⟨devno, unescape root, unescape point⟩
  | _ => none

/-- Whether `outer` contains `inner` as a path prefix. -/
def covers (outer inner : String) : Bool :=
  outer = "/" ∨ outer = inner ∨ (Text.stripPrefix (outer ++ "/") inner).isSome

/-- The rows through which the files of `ours` are reached. -/
def exposing (ours : Row) (rows : List Row) : List Row :=
  rows.filter fun r ↦ r.point ≠ ours.point ∧ r.devno = ours.devno
    ∧ (covers r.root ours.root ∨ covers ours.root r.root)

/-- `sort` and `dedup`. -/
def sortDedup (l : List String) : List String := (l.mergeSort fun a b ↦ a ≤ b).destutter (· ≠ ·)

def notMounted (ours : String) : String :=
  s!"{ours} is not a mount point in this namespace; exposure cannot be checked"

/-- `ExposureWatch::current`, of a watch of the mount point `ours`, with what is in the table. -/
def current (ours : String) (mounts : List UInt8) : Except String (List String) :=
  match Utf8.decode mounts with
  | none => .error "stream did not contain valid UTF-8"
  | some text =>
    let rows := (Text.lines text).filterMap Row.parse
    match rows.find? fun r ↦ r.point = ours with
    | none => .error (notMounted ours)
    | some o =>
      .ok (sortDedup ((exposing o rows).map Row.point))

/-! ## What the kernel prints -/

/-- A path from the root of a filesystem on. -/
structure AbsPath where
  names : List String
  named : ∀ n ∈ names, n ≠ "" ∧ '/' ∉ n.toList
  deriving DecidableEq

def AbsPath.text (p : AbsPath) : String := "/" ++ "/".intercalate p.names

/-- A character of a path. -/
def mangleChar : Char → List Char
  | ' ' => "\\040".toList
  | '\t' => "\\011".toList
  | '\n' => "\\012".toList
  | '\\' => "\\134".toList
  | c => [c]

def mangle (s : String) : String := String.ofList (s.toList.flatMap mangleChar)

/-- A mount. -/
structure Mount where
  id : ℕ
  parent : ℕ
  device : ℕ × ℕ
  root : AbsPath
  point : AbsPath
  /-- What else is on the line. -/
  options : String
  oneLine : '\n' ∉ options.toList

namespace Mount

def devno (m : Mount) : String := m.device.1.repr ++ ":" ++ m.device.2.repr

def line (m : Mount) : String :=
  " ".intercalate [m.id.repr, m.parent.repr, m.devno, mangle m.root.text, mangle m.point.text]
    ++ " " ++ m.options

/-- The row that is to be read. -/
def row (m : Mount) : Row := ⟨m.devno, m.root.text, m.point.text⟩

end Mount

/-- `/proc/self/mountinfo`. -/
def mountinfo (table : List Mount) : List UInt8 := Utf8.encode (Text.unlines (table.map Mount.line))

/-! ## Reading a row -/

/-- Bytes without a backslash are left as they are. -/
theorem unescapeBytes_append {bs : List UInt8} (h : 92 ∉ bs) (rest : List UInt8) :
    unescapeBytes (bs ++ rest) = bs ++ unescapeBytes rest := by
  induction bs with
  | nil => rfl
  | cons b bs ih =>
    rw [List.mem_cons, not_or] at h
    have hb : b ≠ 92 := Ne.symm h.1
    rw [List.cons_append, List.cons_append, ← ih h.2]
    rw [unescapeBytes.eq_def]
    split
    · rename_i heq
      exact absurd heq (List.cons_ne_nil _ _)
    · rename_i b' x y z rest' heq
      obtain ⟨rfl, hrest⟩ := List.cons.inj heq
      rw [if_neg hb, hrest]
    · rename_i b' rest' _ heq
      obtain ⟨rfl, hrest⟩ := List.cons.inj heq
      rw [hrest]

/-- The characters that are escaped, each with its escape. -/
def escapes : List (Char × List Char) :=
  [(' ', "\\040".toList), ('\t', "\\011".toList), ('\n', "\\012".toList), ('\\', "\\134".toList)]

theorem mangleChar_cases (c : Char) :
    mangleChar c = [c] ∧ c ∉ escapes.map Prod.fst ∨ (c, mangleChar c) ∈ escapes := by
  rw [mangleChar.eq_def]
  split
  · exact Or.inr (by decide)
  · exact Or.inr (by decide)
  · exact Or.inr (by decide)
  · exact Or.inr (by decide)
  · rename_i hspace htab hfeed hback
    refine Or.inl ⟨rfl, ?_⟩
    simp only [escapes, List.map_cons, List.map_nil, List.mem_cons, List.not_mem_nil, or_false,
      not_or]
    exact ⟨hspace, htab, hfeed, hback⟩

theorem unescapeBytes_mangleChar (c : Char) (rest : List UInt8) :
    unescapeBytes ((mangleChar c).flatMap String.utf8EncodeChar ++ rest)
      = String.utf8EncodeChar c ++ unescapeBytes rest := by
  rcases mangleChar_cases c with ⟨hself, hplain⟩ | hcode
  · rw [hself, List.flatMap_singleton]
    refine unescapeBytes_append (fun h ↦ hplain ?_) rest
    have hc := Utf8.eq_of_mem_utf8EncodeChar h (by decide)
    have hback : c = '\\' := Char.toNat_inj.mp hc
    rw [hback]
    decide
  · simp only [escapes, List.mem_cons, Prod.mk.injEq, List.not_mem_nil, or_false] at hcode
    rcases hcode with ⟨rfl, -⟩ | ⟨rfl, -⟩ | ⟨rfl, -⟩ | ⟨rfl, -⟩ <;> rfl

/-- **What the kernel escaped is read back.** -/
theorem unescape_mangle (s : String) : unescape (mangle s) = s := by
  have hchars : ∀ cs : List Char,
      unescapeBytes ((cs.flatMap mangleChar).flatMap String.utf8EncodeChar)
        = cs.flatMap String.utf8EncodeChar := by
    intro cs
    induction cs with
    | nil => rfl
    | cons c cs ih =>
      rw [List.flatMap_cons, List.flatMap_append, unescapeBytes_mangleChar, ih, List.flatMap_cons]
  have hbytes : unescapeBytes (Utf8.encode (mangle s)) = Utf8.encode s := by
    rw [Utf8.encode, mangle, String.toList_ofList, hchars]
    rfl
  rw [unescape, hbytes, Utf8.lossy_encode]

/-- White space that the kernel does not escape. -/
def Raw (c : Char) : Prop := Text.isWhitespace c = true ∧ c ∉ [' ', '\t', '\n']

instance (c : Char) : Decidable (Raw c) := inferInstanceAs (Decidable (_ ∧ _))

theorem mem_mangle {s : String} {x : Char} (hx : x ∈ (mangle s).toList) :
    x ∈ s.toList ∧ x ∉ escapes.map Prod.fst ∨ x = '\\' ∨ x.isDigit = true := by
  rw [mangle, String.toList_ofList] at hx
  obtain ⟨c, hc, hx⟩ := List.mem_flatMap.mp hx
  rcases mangleChar_cases c with ⟨hself, hplain⟩ | hcode
  · rw [hself, List.mem_singleton] at hx
    exact Or.inl ⟨hx ▸ hc, hx ▸ hplain⟩
  · have hcodes : ∀ y ∈ escapes.flatMap Prod.snd, y = '\\' ∨ y.isDigit = true :=
      List.forall_iff_forall_mem.mp (by decide)
    exact Or.inr (hcodes x (List.mem_flatMap.mpr ⟨_, hcode, hx⟩))

/-- **A path is one field of its line** where it has no white space that is not escaped. -/
theorem solid_mangle {s : String} (h : ∀ c ∈ s.toList, ¬ Raw c) : Text.Solid (mangle s) := by
  intro x hx
  rcases mem_mangle hx with ⟨hmem, hplain⟩ | rfl | hdigit
  · by_contra hwhite
    rw [Bool.not_eq_false] at hwhite
    refine h x hmem ⟨hwhite, fun h ↦ hplain ?_⟩
    exact (by decide : [' ', '\t', '\n'] ⊆ escapes.map Prod.fst) h
  · decide
  · exact Text.isWhitespace_of_isDigit hdigit

theorem mangle_ne_empty {s : String} (h : s ≠ "") : mangle s ≠ "" := by
  intro hempty
  have hback := unescape_mangle s
  rw [hempty] at hback
  exact h (hback.symm.trans (unescape_mangle ""))

namespace AbsPath

variable {p q : AbsPath}

theorem text_ne_empty (p : AbsPath) : p.text ≠ "" := by
  rw [text, Ne, ← String.toList_eq_nil_iff, String.toList_append]
  exact List.cons_ne_nil _ _

theorem split_text (p : AbsPath) : Text.split '/' p.text
    = if p.names = [] then ["", ""] else "" :: p.names := by
  have hempty : Text.split '/' "" = [""] := Text.split_of_not_mem (by simp)
  have hsplit := Text.split_append '/' "" ("/".intercalate p.names)
  rw [hempty] at hsplit
  rw [text, ← String.empty_append (s := "/" ++ _)]
  refine hsplit.trans ?_
  split
  · rename_i hnames
    rw [hnames]
    rfl
  · rename_i hnames
    exact congrArg ("" :: ·) (Text.split_intercalate hnames fun n hn ↦ (p.named n hn).2)

theorem filter_split_text (p : AbsPath) : (Text.split '/' p.text).filter (· ≠ "") = p.names := by
  rw [split_text]
  split
  · rename_i hnames
    rw [hnames]
    rfl
  · rw [List.filter_cons_of_neg (by simp)]
    exact List.filter_eq_self.mpr fun n hn ↦ decide_eq_true (p.named n hn).1

theorem text_inj : p.text = q.text ↔ p = q := by
  refine ⟨fun h ↦ ?_, fun h ↦ h ▸ rfl⟩
  have hnames : p.names = q.names := by rw [← filter_split_text, h, filter_split_text]
  cases p
  cases q
  cases hnames
  rfl

theorem mem_text {c : Char} (h : c ∈ p.text.toList) : c = '/' ∨ ∃ n ∈ p.names, c ∈ n.toList := by
  by_contra hnot
  push Not at hnot
  rw [text, String.toList_append, List.mem_append] at h
  rcases h with h | h
  · exact hnot.1 (List.mem_singleton.mp h)
  · exact Text.not_mem_intercalate hnot.1 hnot.2 h

/-- **One path contains another by whole components** if it is told so. -/
theorem covers_text : covers p.text q.text = true ↔ p.names <+: q.names := by
  have hroot : p.text = "/" ↔ p.names = [] := by
    constructor
    · intro h
      rw [← filter_split_text p, h]
      rfl
    · intro h
      rw [text, h]
      rfl
  have hbegins : p.text = q.text ∨ (Text.stripPrefix (p.text ++ "/") q.text).isSome = true
      ↔ Text.split '/' p.text <+: Text.split '/' q.text := by
    rw [eq_comm]
    exact Text.slash_prefix_iff.symm
  rw [covers, decide_eq_true_eq, hbegins, hroot, split_text, split_text]
  by_cases hp : p.names = []
  · simp [hp]
  · rw [if_neg hp, or_iff_right hp]
    split
    · rename_i hq
      rw [List.cons_prefix_cons, hq, List.prefix_nil, and_iff_right rfl]
      refine iff_of_false (fun h ↦ ?_) hp
      obtain ⟨n, ns, hns⟩ := List.exists_cons_of_ne_nil hp
      rw [hns, List.cons_prefix_cons] at h
      exact (p.named n (hns ▸ List.mem_cons_self)).1 h.1
    · rw [List.cons_prefix_cons, and_iff_right rfl]

end AbsPath

namespace Mount

variable {m : Mount}

/-- No path of the mount has white space that is not escaped. -/
def Plain (m : Mount) : Prop :=
  (∀ c ∈ m.root.text.toList, ¬ Raw c) ∧ ∀ c ∈ m.point.text.toList, ¬ Raw c

/-- The fields that are read. -/
def fields (m : Mount) : List String :=
  [m.id.repr, m.parent.repr, m.devno, mangle m.root.text, mangle m.point.text]

theorem repr_ne_empty (n : ℕ) : n.repr ≠ "" := by
  rw [Ne, ← String.toList_eq_nil_iff, Nat.toList_repr]
  exact Nat.toDigits_ne_nil

theorem line_eq (m : Mount) :
    m.line = " ".intercalate m.fields ++ (String.singleton ' ' ++ m.options) :=
  String.append_assoc

theorem solid_devno (m : Mount) : Text.Solid m.devno :=
  ((Text.solid_repr _).append (by decide)).append (Text.solid_repr _)

theorem Plain.solid (h : m.Plain) {f : String} (hf : f ∈ m.fields) : Text.Solid f ∧ f ≠ "" := by
  have hdevno : m.devno ≠ "" := by
    rw [devno, Ne, ← String.toList_eq_nil_iff]
    simp
  simp only [fields, List.mem_cons, List.not_mem_nil, or_false] at hf
  rcases hf with rfl | rfl | rfl | rfl | rfl
  · exact ⟨Text.solid_repr _, repr_ne_empty _⟩
  · exact ⟨Text.solid_repr _, repr_ne_empty _⟩
  · exact ⟨m.solid_devno, hdevno⟩
  · exact ⟨solid_mangle h.1, mangle_ne_empty m.root.text_ne_empty⟩
  · exact ⟨solid_mangle h.2, mangle_ne_empty m.point.text_ne_empty⟩

/-- **A row is read as it was printed.** -/
theorem Plain.parse_line (h : m.Plain) : Row.parse (Text.stripReturn m.line) = some m.row := by
  have hfields : Text.splitWhitespace (" ".intercalate m.fields) = m.fields :=
    Text.splitWhitespace_intercalate (c := ' ') (by decide) fun f hf ↦ h.solid hf
  rw [line_eq, Text.stripReturn_field _ (by decide), Row.parse,
    Text.splitWhitespace_append (by decide), hfields, fields]
  dsimp only [List.cons_append]
  rw [unescape_mangle, unescape_mangle]
  rfl

/-- A row is one line. -/
theorem feed_not_mem_line (m : Mount) : '\n' ∉ m.line.toList := by
  have hsolid : ∀ {f : String}, Text.Solid f → '\n' ∉ f.toList := fun h hmem ↦
    absurd (h _ hmem) (by decide)
  have hmangle : ∀ s, '\n' ∉ (mangle s).toList := by
    intro s hmem
    rcases mem_mangle hmem with ⟨-, hplain⟩ | h | h
    · exact hplain (by decide)
    · exact absurd h (by decide)
    · exact absurd h (by decide)
  have hfields : '\n' ∉ ((String.singleton ' ').intercalate m.fields).toList := by
    refine Text.not_mem_intercalate (by decide) fun f hf ↦ ?_
    simp only [fields, List.mem_cons, List.not_mem_nil, or_false] at hf
    rcases hf with rfl | rfl | rfl | rfl | rfl
    · exact hsolid (Text.solid_repr _)
    · exact hsolid (Text.solid_repr _)
    · exact hsolid m.solid_devno
    · exact hmangle _
    · exact hmangle _
  rw [line_eq, String.toList_append, String.toList_append, List.mem_append, List.mem_append, not_or,
    not_or]
  exact ⟨hfields, by decide, m.oneLine⟩

theorem devno_inj {o : Mount} : m.devno = o.devno ↔ m.device = o.device := by
  refine ⟨fun h ↦ ?_, fun h ↦ by rw [devno, devno, h]⟩
  have hsplit : ∀ k : Mount,
      Text.splitOnce ':' k.devno = some (k.device.1.repr, k.device.2.repr) := by
    intro k
    rw [devno, String.append_assoc]
    exact Text.splitOnce_join (Text.not_mem_repr (by decide) _)
  have hboth := (hsplit m).symm.trans (h ▸ hsplit o)
  rw [Option.some_inj, Prod.mk.injEq, Text.repr_inj, Text.repr_inj] at hboth
  exact Prod.ext hboth.1 hboth.2

end Mount

/-! ## The answer -/

variable {table : List Mount} {ours : AbsPath}

theorem rows_mountinfo (h : ∀ m ∈ table, m.Plain) :
    (Text.lines (Text.unlines (table.map Mount.line))).filterMap Row.parse
      = table.map Mount.row := by
  rw [Text.lines_unlines, List.flatMap_map]
  induction table with
  | nil => rfl
  | cons m table ih =>
    obtain ⟨hm, htable⟩ := List.forall_mem_cons.mp h
    rw [List.flatMap_cons, Text.broken_of_not_mem m.feed_not_mem_line, List.singleton_append,
      List.filterMap_cons, hm.parse_line, ih htable, List.map_cons]

/-- `Vec::dedup` keeps every value. -/
theorem mem_destutter {α : Type*} [DecidableEq α] {l : List α} {x : α} :
    x ∈ l.destutter (· ≠ ·) ↔ x ∈ l := by
  have hrun : ∀ (l : List α) (a : α), x ∈ l.destutter' (· ≠ ·) a ↔ x = a ∨ x ∈ l := by
    intro l
    induction l with
    | nil => simp
    | cons b l ih =>
      intro a
      rw [List.destutter'_cons, List.mem_cons]
      split
      · rw [List.mem_cons, ih]
      · rename_i heq
        rw [not_not] at heq
        rw [ih, heq, or_self_left]
  cases l with
  | nil => simp
  | cons a l => rw [List.destutter_cons', hrun, List.mem_cons]

/-- What is sorted has no value twice after `Vec::dedup`. -/
theorem pairwise_destutter {α : Type*} [LinearOrder α] {l : List α} (h : l.Pairwise (· ≤ ·)) :
    (l.destutter (· ≠ ·)).Pairwise (· < ·) := by
  have hstrict : ∀ l : List α, l.Pairwise (· ≤ ·) → l.IsChain (· ≠ ·) → l.Pairwise (· < ·) := by
    intro l
    induction l with
    | nil => exact fun _ _ ↦ List.Pairwise.nil
    | cons a l ih =>
      intro hle hne
      obtain ⟨ha, hl⟩ := List.pairwise_cons.mp hle
      refine List.pairwise_cons.mpr ⟨fun x hx ↦ ?_, ih hl hne.tail⟩
      obtain ⟨b, l, rfl⟩ := List.exists_cons_of_ne_nil (List.ne_nil_of_mem hx)
      have hab : a < b := lt_of_le_of_ne (ha b List.mem_cons_self) (List.isChain_cons_cons.mp hne).1
      rcases List.mem_cons.mp hx with rfl | hx
      · exact hab
      · exact hab.trans_le ((List.pairwise_cons.mp hl).1 x hx)
  exact hstrict _ (h.sublist (List.destutter_sublist _ l)) (List.isChain_destutter _ l)

theorem mem_sortDedup {l : List String} {s : String} : s ∈ sortDedup l ↔ s ∈ l := by
  rw [sortDedup, mem_destutter, List.mem_mergeSort]

theorem pairwise_sortDedup (l : List String) : (sortDedup l).Pairwise (· < ·) :=
  pairwise_destutter (List.pairwise_mergeSort' (· ≤ ·) l)

/-- A mount of the same device through which the files below `o` are reached. -/
def Reaches (o m : Mount) : Prop :=
  m.point ≠ o.point ∧ m.device = o.device
    ∧ (m.root.names <+: o.root.names ∨ o.root.names <+: m.root.names)

/-- What is reported of the first mount at our mount point is every other mount point that reaches
it, in order, and each once. -/
def Exact (table : List Mount) (ours : AbsPath) : Prop :=
  ∀ o, table.find? (fun m ↦ m.point = ours) = some o →
    ∃ out, current ours.text (mountinfo table) = .ok out ∧ out.Pairwise (· < ·)
      ∧ ∀ s, s ∈ out ↔ ∃ m ∈ table, Reaches o m ∧ m.point.text = s

theorem exact_of_plain (h : ∀ m ∈ table, m.Plain) : Exact table ours := by
  intro o ho
  have hread : Utf8.decode (mountinfo table) = some (Text.unlines (table.map Mount.line)) :=
    Utf8.decode_eq_some.mpr rfl
  have hours : (table.map Mount.row).find? (fun r ↦ r.point = ours.text) = some o.row := by
    have hpoint : ∀ m : Mount, (m.row.point = ours.text) = (m.point = ours) := fun m ↦
      propext AbsPath.text_inj
    rw [List.find?_map]
    simp only [Function.comp_def, hpoint, ho, Option.map_some]
  refine ⟨sortDedup ((exposing o.row (table.map Mount.row)).map Row.point), ?_,
    pairwise_sortDedup _, fun s ↦ ?_⟩
  · rw [current, hread]
    dsimp only
    rw [rows_mountinfo h, hours]
  · simp only [mem_sortDedup, exposing, List.mem_map, List.mem_filter, decide_eq_true_eq]
    constructor
    · rintro ⟨_, ⟨⟨m, hm, rfl⟩, hpoint, hdevno, hroots⟩, rfl⟩
      refine ⟨m, hm, ⟨fun h ↦ hpoint (congrArg AbsPath.text h), Mount.devno_inj.mp hdevno, ?_⟩, rfl⟩
      exact hroots.imp AbsPath.covers_text.mp AbsPath.covers_text.mp
    · rintro ⟨m, hm, ⟨hpoint, hdevice, hroots⟩, rfl⟩
      refine ⟨m.row, ⟨⟨m, hm, rfl⟩, fun h ↦ hpoint (AbsPath.text_inj.mp h),
        Mount.devno_inj.mpr hdevice, ?_⟩, rfl⟩
      exact hroots.imp AbsPath.covers_text.mpr AbsPath.covers_text.mpr

/-! ### A mount point that is not found -/

/-- A mount of a whole filesystem at a directory below the root. -/
def mountAt (name : String) (hname : name ≠ "" ∧ '/' ∉ name.toList) : Mount where
  id := 1
  parent := 0
  device := (8, 1)
  root := ⟨[], nofun⟩
  point := ⟨[name], fun _ hn ↦ List.mem_singleton.mp hn ▸ hname⟩
  options := "rw"
  oneLine := by decide

/-- **White space that the kernel does not escape hides a mount point**: what is read ends before
it. -/
theorem current_mountAt {c : Char} (hc : Raw c)
    (hname : String.singleton c ≠ "" ∧ '/' ∉ (String.singleton c).toList) :
    current ("/" ++ String.singleton c) (mountinfo [mountAt (String.singleton c) hname])
      = .error (notMounted ("/" ++ String.singleton c)) := by
  have hself : mangleChar c = [c] := by
    rcases mangleChar_cases c with ⟨hself, -⟩ | hcode
    · exact hself
    · have hplain : ∀ p ∈ escapes, Text.isWhitespace p.1 = true → p.1 ∈ [' ', '\t', '\n'] := by
        decide
      exact absurd (hplain _ hcode hc.1) hc.2
  have hpoint : mangle (mountAt (String.singleton c) hname).point.text
      = "/" ++ String.singleton c := by
    rw [← String.toList_inj, mangle, String.toList_ofList]
    simp [mountAt, AbsPath.text, hself, show mangleChar '/' = ['/'] from rfl]
  let front : List String := [Nat.repr 1, Nat.repr 0, Nat.repr 8 ++ ":" ++ Nat.repr 1, mangle "/"]
  have hfront : Text.splitWhitespace (" ".intercalate front) = ["1", "0", "8:1", "/"] := by decide
  have hfields : (mountAt (String.singleton c) hname).fields
      = front ++ ["/" ++ String.singleton c] := by
    rw [Mount.fields, hpoint]
    rfl
  -- the last field is cut at the white space in the name
  have hline : (mountAt (String.singleton c) hname).line
      = " ".intercalate front ++ (String.singleton ' '
        ++ ("/" ++ (String.singleton c ++ (String.singleton ' ' ++ "rw")))) := by
    rw [Mount.line_eq, hfields, String.intercalate_append_of_ne_nil (List.cons_ne_nil _ _)
      (List.cons_ne_nil _ _), String.intercalate_singleton]
    simp only [String.append_assoc]
    rfl
  have hrest : (Text.splitWhitespace (String.singleton ' ' ++ "rw")) = ["rw"] := by decide
  have hslash : Text.splitWhitespace "/" = ["/"] := by decide
  have hstrip : Text.stripReturn (mountAt (String.singleton c) hname).line
      = (mountAt (String.singleton c) hname).line := by
    rw [Mount.line_eq, Text.stripReturn_field _ (by decide)]
    exact congrArg (fun o ↦ " ".intercalate (Mount.fields _) ++ (String.singleton ' ' ++ o))
      (by decide : Text.stripReturn "rw" = "rw")
  have hrow : Row.parse (Text.stripReturn (mountAt (String.singleton c) hname).line)
      = some ⟨"8:1", unescape (mangle "/"), unescape (mangle "/")⟩ := by
    rw [hstrip, hline, Row.parse, Text.splitWhitespace_append (by decide), hfront,
      Text.splitWhitespace_append hc.1, hslash]
    rfl
  have hread : Utf8.decode (mountinfo [mountAt (String.singleton c) hname])
      = some (Text.unlines [(mountAt (String.singleton c) hname).line]) :=
    Utf8.decode_eq_some.mpr rfl
  have hlines : Text.lines (Text.unlines [(mountAt (String.singleton c) hname).line])
      = [Text.stripReturn (mountAt (String.singleton c) hname).line] := by
    rw [Text.lines_unlines, List.flatMap_singleton,
      Text.broken_of_not_mem (Mount.feed_not_mem_line _)]
  have hother : ¬ "/" = "/" ++ String.singleton c := by
    intro h
    have hlength := congrArg (fun s : String ↦ s.toList.length) h
    simp at hlength
  rw [current, hread]
  dsimp only
  rw [hlines, List.filterMap_cons, hrow, List.filterMap_nil, unescape_mangle]
  dsimp only
  rw [List.find?_cons_of_neg (by simpa using hother), List.find?_nil]

/-- **The exposure check is exact** for every table with paths over a set of characters, if and only
if the set has no white space that the kernel does not escape. -/
theorem current_exact_iff (S : Set Char) :
    (∀ (table : List Mount) (ours : AbsPath),
        (∀ m ∈ table, ∀ n ∈ m.root.names ++ m.point.names, ∀ c ∈ n.toList, c ∈ S) →
          Exact table ours)
      ↔ ∀ c ∈ S, ¬ Raw c := by
  constructor
  · intro h c hc hraw
    have hslash : c ≠ '/' := by
      rintro rfl
      exact absurd hraw.1 (by decide)
    have hname : String.singleton c ≠ "" ∧ '/' ∉ (String.singleton c).toList := by
      rw [String.toList_singleton, List.mem_singleton, Ne, ← String.toList_eq_nil_iff,
        String.toList_singleton]
      exact ⟨List.cons_ne_nil _ _, Ne.symm hslash⟩
    have hover : ∀ m ∈ [mountAt (String.singleton c) hname], ∀ n ∈ m.root.names ++ m.point.names,
        ∀ d ∈ n.toList, d ∈ S := by
      intro m hm n hn d hd
      obtain rfl := List.mem_singleton.mp hm
      obtain rfl := List.mem_singleton.mp hn
      rw [String.toList_singleton, List.mem_singleton] at hd
      exact hd ▸ hc
    obtain ⟨out, hout, -⟩ := h _ (mountAt (String.singleton c) hname).point hover
      (mountAt (String.singleton c) hname) (List.find?_cons_of_pos (decide_eq_true rfl))
    exact absurd ((current_mountAt hraw hname).symm.trans hout) nofun
  · intro h table ours htable
    have hslash : ¬ Raw '/' := fun hraw ↦ absurd hraw.1 (by decide)
    refine exact_of_plain fun m hm ↦ ⟨fun c hc ↦ ?_, fun c hc ↦ ?_⟩
    · rcases AbsPath.mem_text hc with rfl | ⟨n, hn, hmem⟩
      · exact hslash
      · exact h c (htable m hm n (List.mem_append_left _ hn) c hmem)
    · rcases AbsPath.mem_text hc with rfl | ⟨n, hn, hmem⟩
      · exact hslash
      · exact h c (htable m hm n (List.mem_append_right _ hn) c hmem)

/-- A no-break space in the name of the sync directory's mount point makes the mount unfindable. -/
theorem no_break_space_hides :
    let m := mountAt "\u00a0" (by decide)
    current m.point.text (mountinfo [m]) = .error (notMounted "/\u00a0")
      ∧ ¬ ∀ (table : List Mount) (ours : AbsPath), Exact table ours := by
  have herror := current_mountAt (c := '\u00a0') (by decide) (by decide)
  refine ⟨herror, fun h ↦ ?_⟩
  obtain ⟨out, hout, -⟩ := h [mountAt "\u00a0" (by decide)] _ (mountAt "\u00a0" (by decide))
    (List.find?_cons_of_pos (decide_eq_true rfl))
  exact absurd (herror.symm.trans hout) nofun

end HydrationAPI.Exposure
