import HydrationAPI.Graph.Attempt

/-!
# What is read back, and what is resumed

The tree comes back from disk as it was stored: its drive, the source of its tags, its items in
their order and its mounts. Whether the pair of a tree and a token is one a round may go on from is
judged when it is read. A tree of another drive is not read at all, and a token that is ahead of its
tree is dropped; a round that goes on from such a state asks for no feed from a token, and begins
with an empty namespace.
-/

namespace HydrationAPI.Graph

open Serde (Value)

namespace GraphDiscover

variable {source : PageSource} {stored : StoredView} {enumerate force : Bool} {what : Fetch}
  {scope : DriveScope} {log : List Event} {link : String}

/-! ## What a pass asks for -/

theorem entry_eq_resume (h : entry stored enumerate scope = .resume link) :
    enumerate = false ∧ stored.tokens.get scope.drive = some link := by
  unfold entry at h
  split at h
  · rename_i hlink
    cases h
    exact ⟨rfl, hlink⟩
  · cases h

theorem mem_asked_cons {other : Fetch} (h : Event.asked other ∈ .asked what :: log) :
    Event.asked other ∈ log ∨ other = what := by
  rcases List.mem_cons.mp h with heq | hmem
  · exact Or.inr (Event.asked.inj heq)
  · exact Or.inl hmem

/-- The request is made again and again, and no other. -/
theorem mem_log_fetch {other : Fetch} {retries : ℕ}
    (h : Event.asked other ∈ (fetch source what retries log).2) :
    Event.asked other ∈ log ∨ other = what := by
  induction retries generalizing log with
  | zero =>
    unfold fetch at h
    split at h <;> exact mem_asked_cons h
  | succ retries ih =>
    unfold fetch at h
    split at h
    · exact mem_asked_cons h
    · exact mem_asked_cons h
    · rcases ih h with hmem | heq
      · have hne (seconds : ℕ) : Event.asked other ≠ .slept seconds := nofun
        exact mem_asked_cons (List.mem_of_ne_of_mem (hne _) hmem)
      · exact Or.inr heq

/-- Only a stored token is gone on from, and not by a pass that lists the drive from nothing. -/
def Resumes (stored : StoredView) (enumerate : Bool) (link : String) : Prop :=
  enumerate = false ∧ ∃ drive : DriveId, stored.tokens.get drive = some link

theorem Pass.mem_log_run {pages : ℕ} {p : Pass} (hwhat : what = .resume link →
      Resumes stored enumerate link)
    (h : Event.asked (.resume link) ∈ (run source stored enumerate pages p scope what log).2) :
    Event.asked (.resume link) ∈ log ∨ Resumes stored enumerate link := by
  induction pages generalizing p scope what log with
  | zero => exact Or.inl h
  | succ pages ih =>
    have hfetch : Event.asked (.resume link) ∈ (fetch source what maxThrottleRetries log).2 →
        Event.asked (.resume link) ∈ log ∨ Resumes stored enumerate link :=
      fun hmem ↦ (mem_log_fetch hmem).imp_right fun heq ↦ hwhat heq.symm
    have hgo {p' : Pass} {scope' : DriveScope} {what' : Fetch} {log' : List Event}
        (hwhat' : what' = .resume link → Resumes stored enumerate link)
        (hlog : (fetch source what maxThrottleRetries log).2 = log')
        (hmem : Event.asked (.resume link) ∈
          (run source stored enumerate pages p' scope' what' log').2) :
        Event.asked (.resume link) ∈ log ∨ Resumes stored enumerate link :=
      (ih hwhat' hmem).elim (fun hmem ↦ hfetch (hlog ▸ hmem)) Or.inr
    rw [run] at h
    split at h
    · rename_i hfault
      exact hfetch (hfault ▸ h)
    · rename_i page log' hpage
      have hlog : (fetch source what maxThrottleRetries log).2 = log' := congrArg Prod.snd hpage
      dsimp only at h
      split at h
      · split at h
        · exact hfetch (hlog ▸ h)
        · split at h
          · exact hfetch (hlog ▸ h)
          · refine hgo (fun heq ↦ ?_) hlog h
            obtain ⟨hpass, htoken⟩ := entry_eq_resume heq
            exact ⟨hpass, _, htoken⟩
      · split at h
        · exact hfetch (hlog ▸ h)
        · split at h
          · exact hfetch (hlog ▸ h)
          · refine hgo (fun heq ↦ ?_) hlog h
            cases heq

/-- What a round asks for is asked by the pass. -/
theorem attempt_log {enumerate : Bool}
    (h : enumerate = (force || (stored.tokens.get scope.drive).isNone)) :
    (attempt source scope stored force log).2 = (Pass.run source stored enumerate maxPagesPerRound
      ((Pass.start stored enumerate scope).enter stored enumerate scope) scope
      (entry stored enumerate scope) log).2 := by
  rw [attempt, ← h]
  split <;> rename_i heq <;> rw [heq]

theorem attempt_enumerated {done : Attempt}
    (h : (attempt source scope stored force log).1 = .ok done) :
    done.enumerated = (force || (stored.tokens.get scope.drive).isNone) := by
  unfold attempt at h
  dsimp only at h
  generalize (force || (stored.tokens.get scope.drive).isNone) = enumerate at h ⊢
  split at h
  · cases h
  · unfold conclude at h
    dsimp only at h
    split at h
    · cases h
    · split at h <;> cases h <;> rfl

theorem resumes_of_attempt
    (h : Event.asked (.resume link) ∈ (attempt source scope stored force log).2) :
    Event.asked (.resume link) ∈ log
      ∨ force = false ∧ ∃ drive : DriveId, stored.tokens.get drive = some link := by
  rw [attempt_log rfl] at h
  refine (Pass.mem_log_run (fun heq ↦ ?_) h).imp_right fun hresumes ↦ ?_
  · obtain ⟨hpass, htoken⟩ := entry_eq_resume heq
    exact ⟨hpass, _, htoken⟩
  · exact ⟨(Bool.or_eq_false_iff.mp hresumes.1).1, hresumes.2⟩

/-- **A round resumes a stored token or none.** -/
theorem resumes_of_attempted (h : Event.asked (.resume link) ∈ (attempted source scope stored).2) :
    ∃ drive : DriveId, stored.tokens.get drive = some link := by
  have hfirst : Event.asked (.resume link) ∈ (attempt source scope stored false []).2 →
      ∃ drive : DriveId, stored.tokens.get drive = some link :=
    fun hmem ↦ (resumes_of_attempt hmem).elim (absurd · List.not_mem_nil) fun h ↦ h.2
  unfold attempted at h
  split at h
  · rename_i log hresync
    rcases resumes_of_attempt h with hmem | ⟨hforce, -⟩
    · exact hfirst (hresync ▸ hmem)
    · cases hforce
  · exact hfirst h

/-- A round for whose drive no token is stored lists the drive from nothing. -/
theorem attempted_enumerated {done : Attempt} (hnone : stored.tokens.get scope.drive = none)
    (h : (attempted source scope stored).1 = .ok done) : done.enumerated = true := by
  unfold attempted at h
  split at h
  · exact attempt_enumerated h
  · rw [attempt_enumerated h, hnone]
    rfl

end GraphDiscover

/-! ## What may be gone on from -/

section StoredView

variable {text : Serde.Text} {scope : DriveScope} {blob : TreeBlob} {tree : StoredTree}
  {token : Option TokenBlob}

/-- The tree of another drive is as good as none. -/
theorem StoredView.read_of_ne (hdecode : blob.decode text = .ok tree)
    (h : tree.drive ≠ scope.drive.raw) : read text scope (some ⟨some blob, token⟩) = nothing := by
  rw [read]
  dsimp only
  rw [hdecode]
  exact if_pos h

/-- A token that is ahead of its tree is as good as none. -/
theorem StoredView.tokens_of_lt (hdecode : blob.decode text = .ok tree)
    (h : ∀ t, token = some t → tree.generation < t.generation) :
    (read text scope (some ⟨some blob, token⟩)).tokens = .new := by
  rw [read]
  dsimp only
  rw [hdecode]
  dsimp only
  split
  · rfl
  · cases token with
    | none => rfl
    | some t => exact if_neg (not_le.mpr (h t rfl))

end StoredView

/-- The round has asked for no feed from a token, and what it has come to is a listing of the drive
from nothing. -/
def GraphDiscover.FromNothing (round : Except Fault Attempt × List Event) : Prop :=
  (∀ link, Event.asked (.resume link) ∉ round.2) ∧ ∀ done, round.1 = .ok done → done.enumerated = true

theorem GraphDiscover.fromNothing_of_no_token {source : PageSource} {stored : StoredView}
    {scope : DriveScope} (h : stored.tokens = .new) :
    FromNothing (attempted source scope stored) := by
  constructor
  · intro link hmem
    obtain ⟨drive, hdrive⟩ := resumes_of_attempted hmem
    rw [h] at hdrive
    cases hdrive
  · intro done hdone
    exact attempted_enumerated (by rw [h, TokenBlob.get_new]) hdone

/-- **A stored tree comes back as it was.** What is decoded of an encoded tree is its drive, the
source of its tags, its items and its mounts; other mounts given to a tree leave the rest of it, and
a blob that does not decode, alone; and a round is not resumed from the tree of another drive, nor
from a token that is ahead of its tree. -/
theorem TreeBlob.round_trip (text : Serde.Text) (drive : DriveId) (tags : TagSource)
    (items : List Client.Item) (mounts mounts' : List MountPoint) (generation : ℕ)
    (hgeneration : generation < 2 ^ 64) (hsized : Sized items)
    (hreads : text.ReadsBack
      (StoredTree.form.write (.of drive tags items mounts generation)))
    (hreads' : text.ReadsBack
      (StoredTree.form.write (.of drive tags items mounts' generation))) :
    let blob := encodeTree text drive tags items mounts generation
    (blob.drive text = .ok drive ∧ blob.tagSource text = .ok tags ∧ blob.items text = .ok items
      ∧ blob.mounts text = .ok mounts)
    ∧ blob.withMounts text mounts' = encodeTree text drive tags items mounts' generation
    ∧ (∀ (other : TreeBlob) (e : IoError), other.decode text = .error e →
      other.withMounts text mounts' = other)
    ∧ (∀ (other : TreeBlob) (stored : StoredTree), other.decode text = .ok stored →
      text.ReadsBack (StoredTree.form.write { stored with mounts := mounts'.map .ofMount }) →
      (other.withMounts text mounts').decode text
        = .ok { stored with mounts := mounts'.map .ofMount })
    ∧ ∀ (store : FileStateStore) (state : PersistedState) (other : TreeBlob) (stored : StoredTree)
        (scope : DriveScope) (source : GraphDiscover.PageSource),
      store.load text = .ok (some state) → state.tree = some other →
      other.decode text = .ok stored →
      (stored.drive ≠ scope.drive.raw
        ∨ ∃ t, state.token = some t ∧ stored.generation < t.generation) →
      GraphDiscover.FromNothing
        (GraphDiscover.attempted source scope (StoredView.read text scope (some state))) := by
  have hdecode := decode_encodeTree hgeneration hsized hreads
  refine ⟨⟨?_, ?_, ?_, ?_⟩, withMounts_encodeTree hgeneration hsized hreads hreads', ?_, ?_, ?_⟩
  · have hparse : Id.parse (StoredTree.of drive tags items mounts generation).drive = .ok drive :=
      Id.parse_raw drive
    simp only [TreeBlob.drive, hdecode, Bind.bind, Except.bind, hparse]
  · rw [tagSource, hdecode]
    rfl
  · rw [TreeBlob.items, hdecode]
    exact congrArg Except.ok (StoredItem.map_toItem items)
  · rw [TreeBlob.mounts, hdecode]
    exact congrArg Except.ok (StoredMount.filterMap_parse mounts)
  · exact fun other e h ↦ withMounts_of_not_decode h mounts'
  · exact fun other stored h hreads ↦ decode_withMounts h hreads
  · rintro store ⟨tree, token⟩ other stored scope source - rfl hother hwhy
    apply GraphDiscover.fromNothing_of_no_token
    rcases hwhy with hdrive | ⟨t, rfl, hlt⟩
    · rw [StoredView.read_of_ne hother hdrive]
      rfl
    · refine StoredView.tokens_of_lt hother fun t' ht' ↦ ?_
      cases ht'
      exact hlt

/-! ### One tree with items of every kind -/

mutual

/-- A document of names and counts as text. -/
def compact : Value → String
  | .null => "null"
  | .bool b => if b then "true" else "false"
  | .num n => toString n
  | .number s => s
  | .str s => "\"" ++ s ++ "\""
  | .arr values => "[" ++ compactList values ++ "]"
  | .obj fields => "\x7b" ++ compactFields fields ++ "\x7d"

def compactList : List Value → String
  | [] => ""
  | [v] => compact v
  | v :: values => compact v ++ "," ++ compactList values

def compactFields : List (String × Value) → String
  | [] => ""
  | [(name, v)] => "\"" ++ name ++ "\":" ++ compact v
  | (name, v) :: fields => "\"" ++ name ++ "\":" ++ compact v ++ "," ++ compactFields fields

end

def asciiBytes (s : String) : List UInt8 := s.toList.map fun c ↦ c.toNat.toUInt8

mutual

/-- The characters of that text. They are what two documents are told apart by: the text itself is
put together anew at every append. -/
def compactChars : Value → List Char
  | .null => "null".toList
  | .bool b => if b then "true".toList else "false".toList
  | .num n => (toString n).toList
  | .number s => s.toList
  | .str s => '"' :: (s.toList ++ ['"'])
  | .arr values => '[' :: (compactListChars values ++ [']'])
  | .obj fields => '\x7b' :: (compactFieldsChars fields ++ ['\x7d'])

def compactListChars : List Value → List Char
  | [] => []
  | [v] => compactChars v
  | v :: values => compactChars v ++ ',' :: compactListChars values

def compactFieldsChars : List (String × Value) → List Char
  | [] => []
  | [(name, v)] => '"' :: (name.toList ++ '"' :: ':' :: compactChars v)
  | (name, v) :: fields =>
    '"' :: (name.toList ++ '"' :: ':' :: (compactChars v ++ ',' :: compactFieldsChars fields))

end

mutual

theorem toList_compact : ∀ v, (compact v).toList = compactChars v
  | .null | .num _ | .number _ => by rw [compact, compactChars]
  | .bool b => by cases b <;> rw [compact, compactChars] <;> rfl
  | .str s => by simp [compact, compactChars]
  | .arr values => by simp [compact, compactChars, toList_compactList values]
  | .obj fields => by simp [compact, compactChars, toList_compactFields fields]

theorem toList_compactList : ∀ values, (compactList values).toList = compactListChars values
  | [] => rfl
  | [v] => by rw [compactList, compactListChars, toList_compact v]
  | v :: w :: values => by
    simp [compactList, compactListChars, toList_compact v, toList_compactList (w :: values)]

theorem toList_compactFields : ∀ fields, (compactFields fields).toList = compactFieldsChars fields
  | [] => rfl
  | [(name, v)] => by simp [compactFields, compactFieldsChars, toList_compact v]
  | (name, v) :: field :: fields => by
    simp [compactFields, compactFieldsChars, toList_compact v,
      toList_compactFields (field :: fields)]

end

theorem asciiBytes_compact (v : Value) :
    asciiBytes (compact v) = (compactChars v).map fun c ↦ c.toNat.toUInt8 := by
  rw [asciiBytes, toList_compact]

/-- A library that writes documents of names and counts, and reads these two. -/
def twoDocuments (first second : Value) : Serde.Text where
  toVec v := some (asciiBytes (compact v))
  fromSlice bytes := [first, second].find? fun v ↦ asciiBytes (compact v) = bytes
  complaint _ := "expected value at line 1 column 1"

theorem readsBack_first (first second : Value) : (twoDocuments first second).ReadsBack first :=
  ⟨asciiBytes (compact first), rfl, by simp [twoDocuments]⟩

theorem readsBack_second {first second : Value}
    (h : asciiBytes (compact first) ≠ asciiBytes (compact second)) :
    (twoDocuments first second).ReadsBack second :=
  ⟨asciiBytes (compact second), rfl, by simp [twoDocuments, h]⟩

def keptDrive : DriveId := ⟨"d", checkId_d⟩

def keptMount : MountPoint :=
  ⟨⟨keptDrive, ⟨"p", by decide +kernel⟩⟩, ⟨⟨"far", by decide +kernel⟩, ⟨"r", by decide +kernel⟩⟩⟩

def everyKind : List Client.Item :=
  [.root "d|1", .upsert ⟨"d|2", "d|1", "a", .folder (some "et:1")⟩,
    .upsert ⟨"d|3", "d|1", "b", .folder none⟩, .upsert ⟨"d|4", "d|3", "c", .file 5 (some "qx:A")⟩,
    .upsert ⟨"d|5", "d|3", "e", .file 0 none⟩, .upsert ⟨"d|6", "d|1", "f", .opaq⟩, .delete "d|7"]

/-- The tree with these items and mounts, as it is stored. -/
def keptTree (mounts : List MountPoint) : Value :=
  StoredTree.form.write (.of keptDrive .quickXor everyKind mounts 3)

def keptText : Serde.Text := twoDocuments (keptTree []) (keptTree [keptMount])

theorem sized_everyKind : Sized everyKind := by
  simp [Sized, everyKind, StoredItem.ofItem, StoredItem.Fits, StoredKind.ofKind, StoredKind.Fits]

theorem keptText_reads : keptText.ReadsBack (keptTree []) := readsBack_first _ _

theorem keptText_reads_mount : keptText.ReadsBack (keptTree [keptMount]) := by
  apply readsBack_second
  rw [asciiBytes_compact, asciiBytes_compact]
  decide +kernel

theorem TreeBlob.round_trip_every_kind :
    (encodeTree keptText keptDrive .quickXor everyKind [] 3).items keptText = .ok everyKind
      ∧ (encodeTree keptText keptDrive .quickXor everyKind [] 3).withMounts keptText [keptMount]
        = encodeTree keptText keptDrive .quickXor everyKind [keptMount] 3 := by
  obtain ⟨⟨-, -, hitems, -⟩, hmounts, -⟩ := TreeBlob.round_trip keptText keptDrive .quickXor
    everyKind [] [keptMount] 3 (by decide) sized_everyKind keptText_reads keptText_reads_mount
  exact ⟨hitems, hmounts⟩

end HydrationAPI.Graph
