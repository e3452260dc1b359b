import HydrationAPI.Client.Removals
import Mathlib.Data.List.Perm.Basic
import Mathlib.Data.List.Nodup

/-!
# The halves of renames

What is read of a rename is two halves with one cookie. The account of a stream of them does not
depend on how it is cut into drains: the halves of a drain that has not overflowed are settled with
those that the drain before it has left over, every one of them once.

The path of a half is a matter of the moment at which its event is read. An event from a directory
that is not known, or about a name that is no text, has none, and is passed over.
-/

namespace HydrationAPI.Client

/-- Half of a rename, with its path if it has one. -/
structure Half where
  cookie : UInt32
  path : Option String
  isDir : Bool
  deriving DecidableEq, Repr

/-- The halves that there is no other half to. -/
def unmatched (hs ts : List Half) : List Half := hs.filter fun h ↦ ∀ t ∈ ts, t.cookie ≠ h.cookie

/-- The halves that belong together. -/
def pairs (hs ts : List Half) : List (Half × Half) :=
  hs.flatMap fun h ↦ (ts.filter fun t ↦ t.cookie = h.cookie).map fun t ↦ (h, t)

variable {hs ts : List Half} {h t : Half}

theorem mem_unmatched : h ∈ unmatched hs ts ↔ h ∈ hs ∧ ∀ t ∈ ts, t.cookie ≠ h.cookie := by
  rw [unmatched, List.mem_filter, decide_eq_true_eq]

theorem mem_pairs : (h, t) ∈ pairs hs ts ↔ h ∈ hs ∧ t ∈ ts ∧ t.cookie = h.cookie := by
  simp only [pairs, List.mem_flatMap, List.mem_map, List.mem_filter, decide_eq_true_eq,
    Prod.mk.injEq]
  constructor
  · rintro ⟨h', hh, t', ⟨ht, hcookie⟩, rfl, rfl⟩
    exact ⟨hh, ht, hcookie⟩
  · rintro ⟨hh, ht, hcookie⟩
    exact ⟨h, hh, t, ⟨ht, hcookie⟩, rfl, rfl⟩

theorem nodup_pairs (hnodup : hs.Nodup) (hts : ts.Nodup) : (pairs hs ts).Nodup := by
  rw [pairs, List.nodup_flatMap]
  refine ⟨fun h _ ↦ (hts.filter _).map fun _ _ heq ↦ (Prod.mk.inj heq).2, ?_⟩
  refine hnodup.pairwise_of_forall_ne fun a _ b _ hne ↦ ?_
  rintro ⟨h, t⟩ ha hb
  obtain ⟨_, _, heq⟩ := List.mem_map.mp ha
  obtain ⟨_, _, heq'⟩ := List.mem_map.mp hb
  exact hne ((Prod.mk.inj heq).1.trans (Prod.mk.inj heq').1.symm)

/-! ## The halves in a map -/

/-- The halves that a map holds. -/
def MoveHalves.halves (m : MoveHalves) : List Half :=
  m.entries.map fun e ↦ ⟨e.1, some e.2.path, e.2.isDir⟩

variable {m : MoveHalves} {c : UInt32} {v : MoveHalf}

def MoveHalf.half (v : MoveHalf) (c : UInt32) : Half := ⟨c, some v.path, v.isDir⟩

theorem mem_halves : h ∈ m.halves ↔ ∃ v, m.lookup h.cookie = some v ∧ h = v.half h.cookie := by
  rw [MoveHalves.halves, List.mem_map]
  constructor
  · rintro ⟨e, he, rfl⟩
    exact ⟨e.2, AList.mem_lookup_iff.mpr he, rfl⟩
  · rintro ⟨v, hv, heq⟩
    exact ⟨⟨h.cookie, v⟩, AList.mem_lookup_iff.mp hv, heq.symm⟩

theorem half_mem_halves : v.half c ∈ m.halves ↔ m.lookup c = some v := by
  rw [mem_halves]
  constructor
  · rintro ⟨v', hv', heq⟩
    obtain ⟨p, isDir⟩ := v
    obtain ⟨p', isDir'⟩ := v'
    cases heq
    exact hv'
  · exact fun hv ↦ ⟨v, hv, rfl⟩

theorem nodup_cookies : (m.halves.map Half.cookie).Nodup := by
  rw [MoveHalves.halves, List.map_map]
  exact m.nodupKeys

theorem nodup_halves : m.halves.Nodup := nodup_cookies.of_map _

theorem lookup_eq_none : m.lookup c = none ↔ ∀ h ∈ m.halves, h.cookie ≠ c := by
  constructor
  · rintro hnone h hh rfl
    obtain ⟨v, hv, -⟩ := mem_halves.mp hh
    exact absurd (hnone.symm.trans hv) (Option.some_ne_none v).symm
  · intro hall
    rw [Option.eq_none_iff_forall_ne_some]
    exact fun v hv ↦ hall _ (half_mem_halves.mpr hv) rfl

theorem halves_insert (hc : ∀ h ∈ m.halves, h.cookie ≠ c) :
    MoveHalves.halves (m.insert c v) = v.half c :: m.halves := by
  have hnew : c ∉ m := AList.lookup_eq_none.mp (lookup_eq_none.mpr hc)
  rw [MoveHalves.halves, AList.entries_insert_of_notMem hnew]
  rfl

/-! ## Settling them -/

/-- What is reported of a pair. -/
def report (p : Half × Half) : Option String × Option String × Bool :=
  (p.1.path, p.2.path, p.1.isDir || p.2.isDir)

def Renamed.report (r : Renamed) : Option String × Option String × Bool :=
  (some r.src, some r.dst, r.isDir)

/-- What is reported of a half without another. -/
def Half.report (h : Half) : Option String × Bool := (h.path, h.isDir)

def MoveHalf.report (v : MoveHalf) : Option String × Bool := (some v.path, v.isDir)

namespace Pairing

variable {p : Pairing} {es : List (Sigma fun _ : UInt32 ↦ MoveHalf)}
  {e : Sigma fun _ : UInt32 ↦ MoveHalf}

/-- The first half of a destination. -/
def source (p : Pairing) (c : UInt32) : Option MoveHalf := (p.previous.lookup c).or (p.current.lookup c)

theorem lookup_previous_pair (hne : c ≠ e.1) :
    (p.pair e).previous.lookup c = p.previous.lookup c := by
  rw [pair]
  split
  · exact AList.lookup_erase_ne hne
  · rfl
  · rfl

theorem lookup_current_pair (hne : c ≠ e.1) : (p.pair e).current.lookup c = p.current.lookup c := by
  rw [pair]
  split
  · rfl
  · exact AList.lookup_erase_ne hne
  · rfl

theorem lookup_previous_pair_self : (p.pair e).previous.lookup e.1 = none := by
  rw [pair]
  split
  · exact AList.lookup_erase _ _
  · assumption
  · assumption

theorem lookup_current_pair_self (hdisjoint : p.previous.lookup e.1 = none ∨
    p.current.lookup e.1 = none) : (p.pair e).current.lookup e.1 = none := by
  rw [pair]
  split
  · rename_i src hsrc
    exact hdisjoint.resolve_left fun hnone ↦ Option.some_ne_none src (hsrc.symm.trans hnone)
  · exact AList.lookup_erase _ _
  · assumption

/-- No cookie has two first halves. -/
def Disjoint (p : Pairing) : Prop := ∀ c, p.previous.lookup c = none ∨ p.current.lookup c = none

theorem Disjoint.pair (h : p.Disjoint) : (p.pair e).Disjoint := by
  intro c
  by_cases hc : c = e.1
  · subst hc
    exact Or.inl lookup_previous_pair_self
  · rw [lookup_previous_pair hc, lookup_current_pair hc]
    exact h c

theorem lookup_previous_foldl : (es.foldl pair p).previous.lookup c = some v
    ↔ (∀ e ∈ es, c ≠ e.1) ∧ p.previous.lookup c = some v := by
  induction es generalizing p with
  | nil => exact ⟨fun h ↦ ⟨fun _ he ↦ absurd he List.not_mem_nil, h⟩, fun h ↦ h.2⟩
  | cons e es ih =>
    rw [List.foldl_cons, ih, List.forall_mem_cons]
    by_cases hc : c = e.1
    · subst hc
      rw [lookup_previous_pair_self]
      exact ⟨fun h ↦ absurd h.2.symm (Option.some_ne_none v), fun h ↦ absurd rfl h.1.1⟩
    · rw [lookup_previous_pair hc]
      exact ⟨fun h ↦ ⟨⟨hc, h.1⟩, h.2⟩, fun h ↦ ⟨h.1.2, h.2⟩⟩

theorem lookup_current_foldl (h : p.Disjoint) : (es.foldl pair p).current.lookup c = some v
    ↔ (∀ e ∈ es, c ≠ e.1) ∧ p.current.lookup c = some v := by
  induction es generalizing p with
  | nil => exact ⟨fun h ↦ ⟨fun _ he ↦ absurd he List.not_mem_nil, h⟩, fun h ↦ h.2⟩
  | cons e es ih =>
    rw [List.foldl_cons, ih h.pair, List.forall_mem_cons]
    by_cases hc : c = e.1
    · subst hc
      rw [lookup_current_pair_self (h _)]
      exact ⟨fun h ↦ absurd h.2.symm (Option.some_ne_none v), fun h ↦ absurd rfl h.1.1⟩
    · rw [lookup_current_pair hc]
      exact ⟨fun h ↦ ⟨⟨hc, h.1⟩, h.2⟩, fun h ↦ ⟨h.1.2, h.2⟩⟩

theorem source_pair (hne : c ≠ e.1) : (p.pair e).source c = p.source c := by
  rw [source, source, lookup_previous_pair hne, lookup_current_pair hne]

/-- The renames that come of one destination, with its cookie. -/
def found (p : Pairing) (e : Sigma fun _ : UInt32 ↦ MoveHalf) : Option (Half × Half) :=
  (p.source e.1).map fun src ↦ (src.half e.1, e.2.half e.1)

theorem renamed_pair : (p.pair e).renamed.map Renamed.report
    = p.renamed.map Renamed.report ++ ((p.found e).map report).toList := by
  rw [pair, found, source]
  split
  · rename_i src hsrc
    simp [hsrc, Renamed.report, report, MoveHalf.half]
  · rename_i src hnone hsrc
    simp [hnone, hsrc, Renamed.report, report, MoveHalf.half]
  · rename_i hnone hnone'
    simp [hnone, hnone']

theorem movedIn_pair : (p.pair e).movedIn
    = p.movedIn ++ if p.source e.1 = none then [e.2] else [] := by
  rw [pair, source]
  split
  · rename_i src hsrc
    simp [hsrc]
  · rename_i src hnone hsrc
    simp [hnone, hsrc]
  · rename_i hnone hnone'
    simp [hnone, hnone']

theorem renamed_foldl (hkeys : (es.map Sigma.fst).Nodup) :
    (es.foldl pair p).renamed.map Renamed.report
      = p.renamed.map Renamed.report ++ (es.filterMap p.found).map report := by
  induction es generalizing p with
  | nil => simp
  | cons e es ih =>
    obtain ⟨hnew, hrest⟩ := List.nodup_cons.mp hkeys
    have hfound : ∀ f ∈ es, (p.pair e).found f = p.found f := by
      intro f hf
      have hne : f.1 ≠ e.1 := fun heq ↦ hnew (heq ▸ List.mem_map_of_mem hf)
      rw [found, found, source_pair hne]
    rw [List.foldl_cons, ih hrest, renamed_pair, List.filterMap_congr hfound, List.append_assoc]
    congr 1
    match hsrc : p.found e with
    | some pr => simp [hsrc]
    | none => simp [hsrc]

theorem movedIn_foldl (hkeys : (es.map Sigma.fst).Nodup) : (es.foldl pair p).movedIn
    = p.movedIn ++ (es.filter fun e ↦ p.source e.1 = none).map Sigma.snd := by
  induction es generalizing p with
  | nil => simp
  | cons e es ih =>
    obtain ⟨hnew, hrest⟩ := List.nodup_cons.mp hkeys
    have hsame : ∀ f ∈ es, decide ((p.pair e).source f.1 = none) = decide (p.source f.1 = none) := by
      intro f hf
      have hne : f.1 ≠ e.1 := fun heq ↦ hnew (heq ▸ List.mem_map_of_mem hf)
      rw [source_pair hne]
    rw [List.foldl_cons, ih hrest, movedIn_pair, List.filter_congr hsame, List.append_assoc]
    congr 1
    by_cases hsrc : p.source e.1 = none <;> simp [hsrc]

end Pairing

/-- The half that an entry of a map is. -/
def halfOf (e : Sigma fun _ : UInt32 ↦ MoveHalf) : Half := e.2.half e.1

theorem halves_eq_map : m.halves = m.entries.map halfOf := rfl

theorem halfOf_injective : Function.Injective halfOf := by
  rintro ⟨c, p, isDir⟩ ⟨c', p', isDir'⟩ h
  cases h
  rfl

variable {fs : List Half} {previous current destinations : MoveHalves} {order : HashOrder}

/-- What is settled of the halves `hs` of the last drain and `fs` of this one, with the destinations
`ts`: every pair is a rename, what the last drain left over without a destination is moved out, a
destination without a source is moved in, and what this drain leaves over is kept. -/
structure Settles (hs fs ts : List Half) (s : Settled) : Prop where
  renamed : (s.renamed.map Renamed.report).Perm ((pairs (hs ++ fs) ts).map report)
  movedOut : (s.movedOut.map MoveHalf.report).Perm ((unmatched hs ts).map Half.report)
  movedIn : (s.movedIn.map MoveHalf.report).Perm ((unmatched ts (hs ++ fs)).map Half.report)
  pending : (MoveHalves.halves s.pending).Perm (unmatched fs ts)

/-- A map holds a half exactly if the list does that its halves are a permutation of. -/
theorem lookup_iff_of_perm (hperm : m.halves.Perm hs) : m.lookup c = some v ↔ v.half c ∈ hs :=
  half_mem_halves.symm.trans hperm.mem_iff

theorem perm_of_lookup {m' : MoveHalves} {keys : List Half} (hperm : m.halves.Perm hs)
    (hlookup : ∀ c v, m'.lookup c = some v ↔ (∀ t ∈ keys, c ≠ t.cookie) ∧ m.lookup c = some v) :
    m'.halves.Perm (unmatched hs keys) := by
  refine (List.perm_ext_iff_of_nodup nodup_halves ((hperm.nodup nodup_halves).filter _)).mpr
    fun h ↦ ?_
  change h ∈ m'.halves ↔ h ∈ unmatched hs keys
  rw [mem_halves, mem_unmatched, ← hperm.mem_iff, mem_halves]
  constructor
  · rintro ⟨v, hv, heq⟩
    obtain ⟨hkeys, hv⟩ := (hlookup _ v).mp hv
    exact ⟨⟨v, hv, heq⟩, fun t ht ↦ (hkeys t ht).symm⟩
  · rintro ⟨⟨v, hv, heq⟩, hkeys⟩
    exact ⟨v, (hlookup _ v).mpr ⟨fun t ht ↦ (hkeys t ht).symm, hv⟩, heq⟩

section

variable {es : List (Sigma fun _ : UInt32 ↦ MoveHalf)} {p : Pairing}
  (hkeys : (es.map Sigma.fst).Nodup) (hts : (es.map halfOf).Perm ts) (hnodup : hs.Nodup)
  (hsource : ∀ c v, p.source c = some v ↔ v.half c ∈ hs)
  (hlocated : ∀ h ∈ hs, ∃ v : MoveHalf, h = v.half h.cookie)

include hkeys hts hnodup hsource hlocated in
theorem found_perm_pairs : (es.filterMap p.found).Perm (pairs hs ts) := by
  have hts' : ts.Nodup := hts.nodup ((hkeys.of_map _).map halfOf_injective)
  refine (List.perm_ext_iff_of_nodup ?_ (nodup_pairs hnodup hts')).mpr ?_
  · refine (hkeys.of_map _).filterMap fun e e' pr he he' ↦ halfOf_injective ?_
    obtain ⟨src, -, rfl⟩ := Option.map_eq_some_iff.mp he
    obtain ⟨src', -, heq⟩ := Option.map_eq_some_iff.mp he'
    exact (Prod.mk.inj heq).2.symm
  · rintro ⟨h, t⟩
    rw [List.mem_filterMap, mem_pairs, ← hts.mem_iff, List.mem_map]
    constructor
    · rintro ⟨e, he, hfound⟩
      obtain ⟨src, hsrc, heq⟩ := Option.map_eq_some_iff.mp hfound
      obtain ⟨rfl, rfl⟩ := Prod.mk.inj heq
      exact ⟨(hsource _ _).mp hsrc, ⟨e, he, rfl⟩, rfl⟩
    · rintro ⟨hh, ⟨e, he, rfl⟩, hcookie⟩
      obtain ⟨v, hv⟩ := hlocated h hh
      have hcookie : h.cookie = e.1 := hcookie.symm
      rw [hcookie] at hv
      subst hv
      refine ⟨e, he, ?_⟩
      rw [Pairing.found, (hsource _ _).mpr hh]
      rfl

include hkeys hts hsource hlocated in
theorem movedIn_perm_unmatched :
    ((es.filter fun e ↦ p.source e.1 = none).map halfOf).Perm (unmatched ts hs) := by
  have hes : (es.map halfOf).Nodup := (hkeys.of_map _).map halfOf_injective
  refine (List.perm_ext_iff_of_nodup (hes.sublist (List.filter_sublist.map _))
    ((hts.nodup hes).filter _)).mpr fun t ↦ ?_
  change _ ↔ t ∈ unmatched ts hs
  rw [mem_unmatched, ← hts.mem_iff, List.mem_map, List.mem_map]
  constructor
  · rintro ⟨e, he, rfl⟩
    obtain ⟨he, hnone⟩ := List.mem_filter.mp he
    refine ⟨⟨e, he, rfl⟩, fun h hh hcookie ↦ ?_⟩
    obtain ⟨v, hv⟩ := hlocated h hh
    rw [show h.cookie = e.1 from hcookie] at hv
    exact Option.some_ne_none v (((hsource e.1 v).mpr (hv ▸ hh)).symm.trans (of_decide_eq_true hnone))
  · rintro ⟨⟨e, he, rfl⟩, hfree⟩
    refine ⟨e, List.mem_filter.mpr ⟨he, decide_eq_true ?_⟩, rfl⟩
    rw [Option.eq_none_iff_forall_ne_some]
    exact fun v hv ↦ hfree _ ((hsource e.1 v).mp hv) rfl

end

theorem exists_half_of_perm (hperm : m.halves.Perm hs) (hh : h ∈ hs) :
    ∃ v : MoveHalf, h = v.half h.cookie := by
  obtain ⟨v, -, hv⟩ := mem_halves.mp (hperm.mem_iff.mpr hh)
  exact ⟨v, hv⟩

/-- What is settled, of halves with cookies that are all different. -/
theorem settles_settleMoves (hprev : previous.halves.Perm hs) (hcur : current.halves.Perm fs)
    (hdest : destinations.halves.Perm ts) (hunique : ((hs ++ fs).map Half.cookie).Nodup) :
    Settles hs fs ts (settleMoves order previous current destinations false) := by
  set es := order.arrange destinations.entries with hes
  set p : Pairing := ⟨previous, current, [], []⟩ with hp
  have hperm : es.Perm destinations.entries := order.perm _
  have hts : (es.map halfOf).Perm ts := (hperm.map halfOf).trans hdest
  have hkeys : (es.map Sigma.fst).Nodup := (hperm.map _).symm.nodup destinations.nodupKeys
  have hcookies : ∀ c, (∀ e ∈ es, c ≠ e.1) ↔ ∀ t ∈ ts, c ≠ t.cookie := by
    intro c
    constructor
    · rintro h t ht
      obtain ⟨e, he, rfl⟩ := List.mem_map.mp (hts.mem_iff.mpr ht)
      exact h e he
    · exact fun h e he ↦ h _ (hts.mem_iff.mp (List.mem_map_of_mem he))
  have hdisjoint : p.Disjoint := by
    intro c
    by_contra hboth
    rw [not_or] at hboth
    obtain ⟨v, hv⟩ := Option.ne_none_iff_exists'.mp hboth.1
    obtain ⟨v', hv'⟩ := Option.ne_none_iff_exists'.mp hboth.2
    rw [List.map_append, List.nodup_append] at hunique
    exact hunique.2.2 c (List.mem_map.mpr ⟨_, (lookup_iff_of_perm hprev).mp hv, rfl⟩) c
      (List.mem_map.mpr ⟨_, (lookup_iff_of_perm hcur).mp hv', rfl⟩) rfl
  have hsource : ∀ c v, p.source c = some v ↔ v.half c ∈ hs ++ fs := by
    intro c v
    rw [Pairing.source, Option.or_eq_some_iff, List.mem_append, ← lookup_iff_of_perm hprev,
      ← lookup_iff_of_perm hcur]
    refine or_congr_right ⟨fun h ↦ h.2, fun h ↦ ⟨?_, h⟩⟩
    exact (hdisjoint c).resolve_right fun hnone ↦ Option.some_ne_none v (h.symm.trans hnone)
  have hlocated : ∀ h ∈ hs ++ fs, ∃ v : MoveHalf, h = v.half h.cookie := fun h hh ↦
    (List.mem_append.mp hh).elim (exists_half_of_perm hprev) (exists_half_of_perm hcur)
  have hsettled : settleMoves order previous current destinations false
      = ⟨(order.arrange (es.foldl Pairing.pair p).previous.entries).map Sigma.snd,
        (es.foldl Pairing.pair p).movedIn, (es.foldl Pairing.pair p).current,
        (es.foldl Pairing.pair p).renamed⟩ := rfl
  rw [hsettled]
  refine ⟨?_, ?_, ?_, ?_⟩
  · rw [Pairing.renamed_foldl hkeys]
    exact (found_perm_pairs hkeys hts (hunique.of_map _) hsource hlocated).map report
  · have hleft : (MoveHalves.halves (es.foldl Pairing.pair p).previous).Perm (unmatched hs ts) :=
      perm_of_lookup hprev fun c v ↦ by rw [Pairing.lookup_previous_foldl, hcookies]
    have hleft := hleft.map Half.report
    rw [halves_eq_map, List.map_map] at hleft
    rw [List.map_map]
    exact ((order.perm _).map _).trans hleft
  · rw [Pairing.movedIn_foldl hkeys]
    have hin := (movedIn_perm_unmatched hkeys hts hsource hlocated).map Half.report
    rw [List.map_map] at hin
    rw [List.nil_append, List.map_map]
    exact hin
  · exact perm_of_lookup hcur fun c v ↦ by
      rw [Pairing.lookup_current_foldl hdisjoint, hcookies]

/-! ## What is read -/

@[simp] theorem Removals.pendingMoves_rememberFolder (r : Removals) (rel cloudId : String)
    (etag : Option String) : (r.rememberFolder rel cloudId etag).pendingMoves = r.pendingMoves := by
  rw [rememberFolder]
  split <;> rfl

@[simp] theorem Removals.pendingMoves_addTree (r : Removals) (walk : List Walked) :
    (r.addTree walk).pendingMoves = r.pendingMoves := by
  induction walk generalizing r with
  | nil => rfl
  | cons w walk ih =>
    rw [addTree, List.foldl_cons, ← addTree, ih, recordFolder]
    split
    · rw [addOne]
      split <;> rfl
    · split
      · rw [addOne]
        split <;> rfl
      · rw [pendingMoves_rememberFolder, addOne]
        split <;> rfl

theorem Removals.pendingMoves_restore (r : Removals) (gone : List FolderGone) :
    (r.restore gone).pendingMoves = r.pendingMoves := by
  induction gone generalizing r with
  | nil => rfl
  | cons folder gone ih =>
    rw [restore, List.foldl_cons, ← restore, ih]
    split
    · exact pendingMoves_rememberFolder ..
    · rfl

theorem Removals.pendingMoves_moveRecords (r : Removals) (renamed : List Renamed) :
    (r.moveRecords renamed).pendingMoves = r.pendingMoves := by
  induction renamed generalizing r with
  | nil => rfl
  | cons item renamed ih =>
    rw [moveRecords, List.foldl_cons, ← moveRecords, ih]
    split
    · split
      · exact pendingMoves_rememberFolder ..
      · rfl
    · rfl

namespace Reading

variable {s : Reading} {e : Event} {es : List Event}

/-- The event that one of the two halves is read of. -/
def side (dst : Bool) : EventKind := if dst then .movedTo else .movedFrom

/-- The halves of one side, of a stream that is read. -/
def halves (dst : Bool) : Reading → List Event → List Half
  | _, [] => []
  | s, e :: es =>
    if e.kind = side dst then
      ⟨e.cookie, s.removals.locate e, e.isDir⟩ :: halves dst (s.read e) es
    else halves dst (s.read e) es

/-- The halves of one side that have been read. -/
def part (s : Reading) (dst : Bool) : MoveHalves := if dst then s.movedTo else s.movedFrom

theorem part_readAt (dst : Bool) (path : String) : (s.readAt e path).part dst
    = if e.kind = side dst then (s.part dst).insert e.cookie ⟨path, e.isDir⟩ else s.part dst := by
  match hkind : e.kind, dst with
  | .movedTo, true | .movedTo, false | .movedFrom, true | .movedFrom, false | .overflow, true
  | .overflow, false | .ignored, true | .ignored, false =>
    simp [readAt, part, side, hkind]
  | .create, true | .create, false | .delete, true | .delete, false =>
    by_cases hdir : e.isDir <;> simp [readAt, part, side, hkind, hdir]

theorem part_read_of_ne {dst : Bool} (hkind : e.kind ≠ side dst) :
    (s.read e).part dst = s.part dst := by
  rw [read]
  split
  · rfl
  · rfl
  · split
    · rw [part_readAt, if_neg hkind]
    · rfl

theorem part_read_of_eq {dst : Bool} {path : String} (hkind : e.kind = side dst)
    (hpath : s.removals.locate e = some path) :
    (s.read e).part dst = (s.part dst).insert e.cookie ⟨path, e.isDir⟩ := by
  have hread : s.read e = s.readAt e path := by
    rw [read, hpath]
    split
    · rename_i hoverflow
      rw [hkind, side] at hoverflow
      split at hoverflow <;> cases hoverflow
    · rename_i hignored
      rw [hkind, side] at hignored
      split at hignored <;> cases hignored
    · rfl
  rw [hread, part_readAt, if_pos hkind]

/-- All halves of one side are in the map, if all have a path and their cookies are different. -/
theorem part_foldl (dst : Bool) (hpaths : ∀ h ∈ halves dst s es, h.path ≠ none)
    (hunique : ((MoveHalves.halves (s.part dst) ++ halves dst s es).map Half.cookie).Nodup) :
    (MoveHalves.halves ((es.foldl read s).part dst)).Perm
      (MoveHalves.halves (s.part dst) ++ halves dst s es) := by
  induction es generalizing s with
  | nil => exact (List.append_nil _).symm ▸ List.Perm.refl _
  | cons e es ih =>
    rw [List.foldl_cons]
    rw [halves] at hpaths hunique ⊢
    by_cases hkind : e.kind = side dst
    · rw [if_pos hkind] at hpaths hunique ⊢
      obtain ⟨hpath, hpaths⟩ := List.forall_mem_cons.mp hpaths
      obtain ⟨path, hpath⟩ := Option.ne_none_iff_exists'.mp hpath
      have hpath : s.removals.locate e = some path := hpath
      rw [List.map_append, List.map_cons, List.nodup_middle, ← List.map_append] at hunique
      have hnew : ∀ h ∈ MoveHalves.halves (s.part dst), h.cookie ≠ e.cookie := by
        intro h hh heq
        have hmem : h.cookie ∈ (MoveHalves.halves (s.part dst) ++ halves dst (s.read e) es).map
            Half.cookie := List.mem_map_of_mem (List.mem_append_left _ hh)
        rw [heq] at hmem
        exact (List.nodup_cons.mp hunique).1 hmem
      have hhalves : MoveHalves.halves ((s.read e).part dst)
          = ⟨e.cookie, some path, e.isDir⟩ :: MoveHalves.halves (s.part dst) := by
        rw [part_read_of_eq hkind hpath, halves_insert hnew]
        rfl
      refine (ih hpaths ?_).trans ?_
      · rw [hhalves]
        exact hunique
      · rw [hhalves, hpath]
        exact List.perm_middle.symm
    · rw [if_neg hkind] at hpaths hunique ⊢
      have hsame : (s.read e).part dst = s.part dst := part_read_of_ne hkind
      rw [← hsame] at hunique ⊢
      exact ih hpaths hunique

theorem cookies_halves (dst : Bool) : (halves dst s es).map Half.cookie
    = (es.filter fun e ↦ e.kind = side dst).map Event.cookie := by
  induction es generalizing s with
  | nil => rfl
  | cons e es ih =>
    rw [halves]
    by_cases hkind : e.kind = side dst
    · rw [if_pos hkind, List.map_cons, ih, List.filter_cons, if_pos (decide_eq_true hkind),
        List.map_cons]
    · rw [if_neg hkind, ih, List.filter_cons, if_neg (by simpa using hkind)]

/-- Nothing that has been read so far is reported as moved out, and no first half is kept. -/
def Plain (s : Reading) : Prop := s.removals.pendingMoves = ∅
  ∧ (∀ g ∈ s.out.gone, g.movedOut = false) ∧ ∀ g ∈ s.out.foldersGone, g.movedOut = false

theorem Plain.readAt (h : s.Plain) (path : String) : (s.readAt e path).Plain := by
  obtain ⟨hpending, hgone, hfolders⟩ := h
  rw [Reading.readAt]
  split
  · split
    · exact ⟨(Removals.pendingMoves_addTree ..).trans hpending, hgone, hfolders⟩
    · exact ⟨hpending, hgone, hfolders⟩
  · refine ⟨?_, hgone, hfolders⟩
    dsimp only
    split
    · exact (Removals.pendingMoves_addTree ..).trans hpending
    · exact hpending
  · exact ⟨hpending, hgone, hfolders⟩
  · split
    · refine ⟨hpending, hgone, fun g hg ↦ ?_⟩
      rcases List.mem_append.mp hg with hg | hg
      · exact hfolders g hg
      · rw [List.mem_singleton.mp hg]
        rfl
    · refine ⟨hpending, fun g hg ↦ ?_, hfolders⟩
      rcases List.mem_append.mp hg with hg | hg
      · exact hgone g hg
      · rw [List.mem_singleton.mp hg]
  · exact ⟨hpending, hgone, hfolders⟩
  · exact ⟨hpending, hgone, hfolders⟩

theorem Plain.read (h : s.Plain) : (s.read e).Plain := by
  rw [Reading.read]
  split
  · exact h
  · exact h
  · split
    · exact h.readAt _
    · exact h

theorem Plain.foldl (h : s.Plain) : (es.foldl Reading.read s).Plain := by
  induction es generalizing s with
  | nil => exact h
  | cons e es ih => exact ih h.read

end Reading

/-! ## The account of a stream -/

namespace Removals

variable (r : Removals) (d : Drain)

/-- What is read before the first event of a drain. -/
def start : Reading := ⟨{ r with lost := false, pendingMoves := ∅ }, .default, ∅, ∅⟩

/-- The first halves that are in a drain. -/
def froms : List Half := Reading.halves false r.start d.events

/-- The second halves that are in a drain. -/
def tos : List Half := Reading.halves true r.start d.events

/-- Whether a drain saw an overflow. -/
def overflows : Bool := (r.reading d).removals.lost

/-- What a drain leaves over for the next one. -/
def heldAfter : List Half := if r.overflows d then [] else unmatched (r.froms d) (r.tos d)

/-- What is reported by a drain that has not overflowed, when `hs` was left over by the last one. -/
structure Reported (hs : List Half) : Prop where
  /-- Every pair of halves is one rename. -/
  renamed : ((r.take d).2.renamed.map Renamed.report).Perm
    ((pairs (hs ++ r.froms d) (r.tos d)).map report)
  /-- What the last drain has left over, and has no other half now, has been moved out. -/
  gone : (((r.take d).2.gone.filter (·.movedOut)).map fun g ↦ some g.path).Perm
    (((unmatched hs (r.tos d)).filter fun h ↦ ¬ h.isDir).map Half.path)
  foldersGone : (((r.take d).2.foldersGone.filter (·.movedOut)).map fun g ↦ some g.path).Perm
    (((unmatched hs (r.tos d)).filter fun h ↦ h.isDir).map Half.path)
  /-- A second half without a first has been moved in, and a directory is reported as created. -/
  movedIn : ((r.settled d).movedIn.map MoveHalf.report).Perm
    ((unmatched (r.tos d) (hs ++ r.froms d)).map Half.report)
  foldersCreated : ((r.take d).2.foldersCreated.map some).Perm
    ((r.reading d).out.foldersCreated.map some
      ++ ((unmatched (r.tos d) (hs ++ r.froms d)).filter fun h ↦ h.isDir).map Half.path)
  /-- A first half without a second is kept, and not reported yet. -/
  kept : (MoveHalves.halves (r.take d).1.pendingMoves).Perm (unmatched (r.froms d) (r.tos d))

/-- What becomes of the halves of a drain. -/
def Accounted (hs : List Half) : Prop :=
  if r.overflows d then (r.take d).2 = .default ∧ (r.take d).1.pendingMoves = ∅
  else r.Reported d hs

/-- What becomes of the halves of a stream, cut into drains. -/
def AllAccounted : Removals → List Half → List Drain → Prop
  | _, _, [] => True
  | r, hs, d :: ds => r.Accounted d hs ∧ AllAccounted (r.take d).1 (r.heldAfter d) ds

/-- In drains that do not overflow, every half has a path: its directory is known, and its name is
text. -/
def AllLocated : Removals → List Drain → Prop
  | _, [] => True
  | r, d :: ds => (r.overflows d = false → ∀ h ∈ r.froms d ++ r.tos d, h.path ≠ none)
      ∧ AllLocated (r.take d).1 ds

/-- The cookies of one side of a stream. -/
def cookies (dst : Bool) (ds : List Drain) : List UInt32 :=
  ((ds.flatMap Drain.events).filter fun e ↦ e.kind = Reading.side dst).map Event.cookie

variable {r d} {hs : List Half} {ds : List Drain}

theorem cookies_cons (dst : Bool) : cookies dst (d :: ds)
    = (Reading.halves dst r.start d.events).map Half.cookie ++ cookies dst ds := by
  rw [cookies, List.flatMap_cons, List.filter_append, List.map_append, Reading.cookies_halves]
  rfl

theorem plain_reading : (r.reading d).Plain :=
  Reading.Plain.foldl ⟨rfl, fun _ h ↦ absurd h List.not_mem_nil, fun _ h ↦ absurd h List.not_mem_nil⟩

/-! ### What is reported of what is settled -/

theorem reportMovedOut_eq (r : Removals) (out : Batch) (items : List MoveHalf) :
    (r.reportMovedOut out items).1.pendingMoves = r.pendingMoves
      ∧ (r.reportMovedOut out items).2.foldersCreated = out.foldersCreated
      ∧ (r.reportMovedOut out items).2.gone
        = out.gone ++ (items.filter fun h ↦ ¬ h.isDir).map (fun h ↦ ⟨h.path, true⟩)
      ∧ ∃ gone, (r.reportMovedOut out items).2.foldersGone = out.foldersGone ++ gone
        ∧ (∀ g ∈ gone, g.movedOut = true)
        ∧ gone.map FolderGone.path = (items.filter fun h ↦ h.isDir).map MoveHalf.path := by
  induction items generalizing r out with
  | nil => exact ⟨rfl, rfl, (List.append_nil _).symm, [], (List.append_nil _).symm,
      fun _ h ↦ absurd h List.not_mem_nil, rfl⟩
  | cons item items ih =>
    rw [reportMovedOut]
    by_cases hdir : item.isDir = true
    · rw [if_pos hdir]
      obtain ⟨hpending, hcreated, hgone, folders, hfolders, hout, hpaths⟩ :=
        ih (r.folderGone item.path true).2
          { out with foldersGone := out.foldersGone ++ [(r.folderGone item.path true).1] }
      refine ⟨hpending, hcreated, ?_, (r.folderGone item.path true).1 :: folders, ?_, ?_, ?_⟩
      · rw [hgone]
        simp [hdir]
      · rw [hfolders]
        simp
      · exact List.forall_mem_cons.mpr ⟨rfl, hout⟩
      · rw [List.map_cons, hpaths]
        simp [hdir, folderGone]
    · rw [if_neg hdir]
      obtain ⟨hpending, hcreated, hgone, folders, hfolders, hout, hpaths⟩ := ih r
        { out with gone := out.gone ++ [⟨item.path, true⟩] }
      refine ⟨hpending, hcreated, ?_, folders, hfolders, hout, ?_⟩
      · rw [hgone]
        simp [hdir]
      · rw [hpaths]
        simp [hdir]

/-- What a drain that has not overflowed reports of what is settled. -/
theorem take_eq (hnot : r.overflows d = false) :
    (r.take d).1.pendingMoves = (r.settled d).pending
      ∧ (r.take d).2.renamed = (r.settled d).renamed
      ∧ (r.take d).2.gone.filter (·.movedOut)
        = ((r.settled d).movedOut.filter fun h ↦ ¬ h.isDir).map (fun h ↦ ⟨h.path, true⟩)
      ∧ ((r.take d).2.foldersGone.filter (·.movedOut)).map FolderGone.path
        = ((r.settled d).movedOut.filter fun h ↦ h.isDir).map MoveHalf.path
      ∧ (r.take d).2.foldersCreated = (r.reading d).out.foldersCreated
        ++ ((r.settled d).movedIn.filter fun h ↦ h.isDir).map MoveHalf.path := by
  obtain ⟨-, hgone, hfolders⟩ := plain_reading (r := r) (d := d)
  obtain ⟨hpending, hcreated, hgone', folders, hfolders', hout, hpaths⟩ := reportMovedOut_eq
    { (r.reading d).removals with pendingMoves := (r.settled d).pending } (r.reading d).out
    (r.settled d).movedOut
  have hlost : ¬ (r.reading d).removals.lost = true := Bool.eq_false_iff.mp hnot
  rw [take]
  dsimp only
  rw [if_neg hlost]
  refine ⟨?_, rfl, ?_, ?_, ?_⟩
  · rw [pendingMoves_moveRecords]
    exact hpending
  · dsimp only
    rw [hgone', List.filter_append, List.filter_eq_nil_iff.mpr, List.nil_append]
    · exact List.filter_eq_self.mpr fun g hg ↦ by
        obtain ⟨h, -, rfl⟩ := List.mem_map.mp hg
        rfl
    · exact fun g hg ↦ Bool.eq_false_iff.mp (hgone g hg)
  · dsimp only
    rw [hfolders', List.filter_append, List.filter_eq_nil_iff.mpr, List.nil_append,
      List.filter_eq_self.mpr hout, hpaths]
    exact fun g hg ↦ Bool.eq_false_iff.mp (hfolders g hg)
  · dsimp only
    rw [hcreated]

/-- A drain without an overflow, all halves of which have a path, reports each of them once. -/
theorem reported_of_located (hnot : r.overflows d = false)
    (hpending : (MoveHalves.halves r.pendingMoves).Perm hs)
    (hlocated : ∀ h ∈ r.froms d ++ r.tos d, h.path ≠ none)
    (hfrom : ((hs ++ r.froms d).map Half.cookie).Nodup) (hto : ((r.tos d).map Half.cookie).Nodup) :
    r.Reported d hs := by
  have hsettles : Settles hs (r.froms d) (r.tos d) (r.settled d) := by
    have hlost : (r.reading d).removals.lost = false := hnot
    rw [settled, hlost]
    refine settles_settleMoves hpending ?_ ?_ hfrom
    · have hnew : (r.froms d).map Half.cookie |>.Nodup := by
        rw [List.map_append] at hfrom
        exact (List.nodup_append.mp hfrom).2.1
      exact Reading.part_foldl false (fun h hh ↦ hlocated h (List.mem_append_left _ hh)) hnew
    · exact Reading.part_foldl true (fun h hh ↦ hlocated h (List.mem_append_right _ hh)) hto
  obtain ⟨hkept, hrenamed, hgone, hfolders, hcreated⟩ := take_eq hnot
  -- what is settled, by what kind of object it was
  have hkind : ∀ (P : Bool → Bool) (vs : List MoveHalf) (l : List Half),
      (vs.map MoveHalf.report).Perm (l.map Half.report) →
        ((vs.filter fun v ↦ P v.isDir).map fun v ↦ some v.path).Perm
          ((l.filter fun h ↦ P h.isDir).map Half.path) := by
    intro P vs l hperm
    have hfilter := (hperm.filter fun x ↦ P x.2).map Prod.fst
    rwa [List.filter_map, List.filter_map, List.map_map, List.map_map] at hfilter
  refine ⟨?_, ?_, ?_, hsettles.movedIn, ?_, ?_⟩
  · rw [hrenamed]
    exact hsettles.renamed
  · rw [hgone, List.map_map]
    have hfiles := hkind (fun isDir ↦ ¬ isDir) _ _ hsettles.movedOut
    exact hfiles
  · have hdirs := hkind (fun isDir ↦ isDir) _ _ hsettles.movedOut
    have hpaths := congrArg (List.map some) hfolders
    rw [List.map_map, List.map_map] at hpaths
    exact hpaths ▸ hdirs
  · rw [hcreated, List.map_append, List.map_map]
    exact (hkind (fun isDir ↦ isDir) _ _ hsettles.movedIn).append_left _
  · rw [hkept]
    exact hsettles.pending

/-- What is reported has a path. -/
theorem located_of_reported (h : r.Reported d hs) : ∀ h ∈ r.froms d ++ r.tos d, h.path ≠ none := by
  have hpair : ∀ f t, (f, t) ∈ pairs (hs ++ r.froms d) (r.tos d) → f.path ≠ none ∧ t.path ≠ none := by
    intro f t hmem
    obtain ⟨item, -, heq⟩ := List.mem_map.mp (h.renamed.mem_iff.mpr (List.mem_map_of_mem hmem))
    obtain ⟨hsrc, hrest⟩ := Prod.mk.inj heq
    obtain ⟨hdst, -⟩ := Prod.mk.inj hrest
    exact ⟨hsrc ▸ Option.some_ne_none _, hdst ▸ Option.some_ne_none _⟩
  intro f hf
  rcases List.mem_append.mp hf with hf | hf
  · by_cases hmatch : ∀ t ∈ r.tos d, t.cookie ≠ f.cookie
    · obtain ⟨v, -, hv⟩ := mem_halves.mp (h.kept.mem_iff.mpr (mem_unmatched.mpr ⟨hf, hmatch⟩))
      rw [hv]
      exact Option.some_ne_none _
    · push Not at hmatch
      obtain ⟨t, ht, hcookie⟩ := hmatch
      exact (hpair f t (mem_pairs.mpr ⟨List.mem_append_right _ hf, ht, hcookie⟩)).1
  · by_cases hmatch : ∀ g ∈ hs ++ r.froms d, g.cookie ≠ f.cookie
    · obtain ⟨v, -, hv⟩ := List.mem_map.mp
        (h.movedIn.mem_iff.mpr (List.mem_map_of_mem (mem_unmatched.mpr ⟨hf, hmatch⟩)))
      rw [← (Prod.mk.inj hv).1]
      exact Option.some_ne_none _
    · push Not at hmatch
      obtain ⟨g, hg, hcookie⟩ := hmatch
      exact (hpair g f (mem_pairs.mpr ⟨hg, hf, hcookie.symm⟩)).2

/-- A drain that overflows reports nothing, and keeps no half. -/
theorem take_of_overflows (hover : r.overflows d = true) :
    (r.take d).2 = .default ∧ (r.take d).1.pendingMoves = ∅ := by
  have hlost : (r.reading d).removals.lost = true := hover
  rw [take]
  dsimp only
  rw [if_pos hlost]
  exact ⟨rfl, (pendingMoves_restore ..).trans plain_reading.1⟩

theorem accounted_iff (hpending : (MoveHalves.halves r.pendingMoves).Perm hs)
    (hfrom : ((hs ++ r.froms d).map Half.cookie).Nodup) (hto : ((r.tos d).map Half.cookie).Nodup) :
    r.Accounted d hs ↔ (r.overflows d = false → ∀ h ∈ r.froms d ++ r.tos d, h.path ≠ none) := by
  rw [Accounted]
  by_cases hover : r.overflows d = true
  · rw [if_pos hover]
    exact iff_of_true (take_of_overflows hover) fun hnot ↦ absurd (hover.symm.trans hnot) (by decide)
  · have hnot := Bool.eq_false_iff.mpr hover
    rw [if_neg hover]
    exact ⟨fun h _ ↦ located_of_reported h, fun h ↦ reported_of_located hnot hpending (h hnot) hfrom hto⟩

/-- After a drain, what it leaves over is what it has kept. -/
theorem pendingMoves_take (h : r.Accounted d hs) :
    (MoveHalves.halves (r.take d).1.pendingMoves).Perm (r.heldAfter d) := by
  rw [Accounted] at h
  rw [heldAfter]
  split at h
  · rename_i hover
    rw [if_pos hover, h.2]
    exact List.Perm.refl _
  · rename_i hover
    rw [if_neg hover]
    exact h.kept

theorem heldAfter_sublist : (r.heldAfter d).Sublist (r.froms d) := by
  rw [heldAfter]
  split
  · exact List.nil_sublist _
  · exact List.filter_sublist

theorem allAccounted_iff_of_perm (hpending : (MoveHalves.halves r.pendingMoves).Perm hs)
    (hfrom : (hs.map Half.cookie ++ cookies false ds).Nodup) (hto : (cookies true ds).Nodup) :
    AllAccounted r hs ds ↔ AllLocated r ds := by
  induction ds generalizing r hs with
  | nil => exact Iff.rfl
  | cons d ds ih =>
    rw [cookies_cons] at hfrom hto
    obtain ⟨htos, hto, -⟩ := List.nodup_append.mp hto
    rw [← List.append_assoc, ← List.map_append] at hfrom
    obtain ⟨hfroms, -, -⟩ := List.nodup_append.mp hfrom
    have hone := accounted_iff hpending hfroms htos
    rw [AllAccounted, AllLocated, ← hone]
    refine and_congr_right fun haccounted ↦ ih (pendingMoves_take haccounted) ?_ hto
    refine hfrom.sublist (List.Sublist.append_right ?_ _)
    rw [List.map_append]
    exact (heldAfter_sublist.map _).trans (List.sublist_append_right _ _)

/-- **Rename halves are settled exactly once**, however a stream is cut into drains, exactly if
every half in a drain that does not overflow comes from a known directory and is about a name that
is text. -/
theorem allAccounted_iff (r : Removals) (hr : r.pendingMoves = ∅) (ds : List Drain)
    (hfrom : (cookies false ds).Nodup) (hto : (cookies true ds).Nodup) :
    AllAccounted r [] ds ↔ AllLocated r ds :=
  allAccounted_iff_of_perm (hr ▸ List.Perm.refl _) hfrom hto

/-- A watch on the sync root alone. -/
def sampleRemovals : Removals := ⟨AList.singleton 1 "", false, ∅, ∅⟩

def sampleHalf (kind : EventKind) (name : Option String) : Event := ⟨kind, 1, 7, false, name, []⟩

def sampleDrain (events : List Event) : Drain := ⟨events, .asListed⟩

/-- A rename whose halves are in different drains, in which the first drain after it overflows. -/
theorem allAccounted_of_split : AllAccounted sampleRemovals []
    [sampleDrain [sampleHalf .movedFrom (some "a")], sampleDrain [sampleHalf .movedTo (some "b")],
      sampleDrain [⟨.overflow, -1, 0, false, none, []⟩]] :=
  (allAccounted_iff sampleRemovals rfl _ (by decide) (by decide)).mpr
    ⟨by decide, by decide, by decide, trivial⟩

/-- A file that is renamed, inside the sync root, to a name that is no text is reported as moved
out. -/
theorem rename_reported_as_moved_out : ¬ AllAccounted sampleRemovals []
      [sampleDrain [sampleHalf .movedFrom (some "a"), sampleHalf .movedTo none], sampleDrain []]
    ∧ ((sampleRemovals.take (sampleDrain [sampleHalf .movedFrom (some "a"),
        sampleHalf .movedTo none])).1.take (sampleDrain [])).2.gone = [⟨"a", true⟩] := by
  refine ⟨fun h ↦ ?_, by decide⟩
  have haccounted : sampleRemovals.Reported
    (sampleDrain [sampleHalf .movedFrom (some "a"), sampleHalf .movedTo none]) [] := h.1
  exact located_of_reported haccounted ⟨7, none, false⟩ (by decide) rfl

end Removals

end HydrationAPI.Client
