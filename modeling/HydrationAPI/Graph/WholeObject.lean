import HydrationAPI.Graph.Version

/-!
# The whole of an object

A placeholder whose tag is a hash, or a version, is served whole only as the version that tag
names. A hash settles it by itself, whatever the service has answered with and however often the
download was resumed: the tag's own hash, or the one that a metadata read reports together with
the version. Where the service reports no hash, the version is read before the download and after
it, and what lies between two reads of one version was answered with that version.
-/

namespace HydrationAPI.Graph

variable {V : Type*} {S : Service V}

/-- What is served of an object that ends well was taken by the wire to its last byte. -/
theorem GraphProvider.download_unbroken {p : GraphProvider} {key : ObjectKey} {span : Span}
    {size : ℕ} {checked : Bool} {c : FetchCalls} {check : List (List UInt8) → Except IoError Unit}
    (h : (p.download key span size checked c check).result = .ok ()) :
    (p.download key span size checked c check).broken = false :=
  downloadSpan_unbroken (download_ok h).1

/-- The whole span of a content of that size is the content. -/
theorem IsSlice.eq_of_isWhole {whole bytes : List UInt8} {span : Span} {size : ℕ}
    (h : IsSlice whole span bytes) (hwhole : span.isWhole size = true)
    (hsize : size = whole.length) : bytes = whole := by
  rw [Span.isWhole, Bool.and_eq_true, beq_iff_eq, beq_iff_eq] at hwhole
  obtain ⟨hoffset, hlen⟩ := hwhole
  have hpre : bytes <+: whole := by simpa [hoffset] using h.isPrefix
  exact hpre.eq_of_length (by rw [h.length, hlen, hsize])

/-- **Whole objects are the version their tag names.** Whatever the service's versions do
meanwhile, and however the download is cut, throttled and resumed, a whole span that is served
under the hash or the cTag of the version `v` is the content of `v`. Only a version without a hash
needs its size to be the placeholder's. -/
theorem GraphProvider.fetch_whole {p : GraphProvider} {cloudId tag : String} {key : ObjectKey}
    {size : ℕ} {span : Span} {c : FetchCalls} {v : V} (hid : S.Identifies)
    (hkey : CloudId.parse cloudId = .ok key)
    (htag : (Text.stripPrefix "qx:" tag).isSome ∨ (Text.stripPrefix "ct:" tag).isSome)
    (hnames : S.Names tag v)
    (hsize : (S.body v).hashes.bind Hashes.quickXorHash = none → size = (S.content v).length)
    (hwhole : span.isWhole size = true)
    (hfaith : c.Faithful S (fun _ ↦ v) key span size (p.fetch cloudId size (some tag) span c))
    (h : (p.fetch cloudId size (some tag) span c).result = .ok ()) :
    (p.fetch cloudId size (some tag) span c).broken = false
      ∧ (p.fetch cloudId size (some tag) span c).taken.flatten = S.content v := by
  rw [fetch, hkey] at hfaith h ⊢
  dsimp only at hfaith h ⊢
  rw [if_pos hwhole] at hfaith h ⊢
  cases hqx : Text.stripPrefix "qx:" tag with
  | some expected =>
    -- the tag is a hash
    rw [hqx] at hfaith h
    exact ⟨download_unbroken h, verified_content hid hwhole (hash_of_names hnames hqx) h hfaith⟩
  | none =>
    have hct : (Text.stripPrefix "ct:" tag).isSome = true := by simpa [hqx] using htag
    have hv := cTag_of_names hnames hct
    rw [hqx] at hfaith h
    dsimp only at hfaith h ⊢
    rw [if_pos hct] at hfaith h ⊢
    cases hopen : quickxorFor tag c.opening with
    | error e =>
      rw [hopen] at h
      cases h
    | ok hash =>
      rw [hopen] at hfaith h
      obtain ⟨m, -, -, hhash⟩ := quickxorFor_ok hid hfaith.opening hv hopen
      cases hash with
      | some expected =>
        -- the version's metadata reports a hash
        exact ⟨download_unbroken h, verified_content hid hwhole hhash h hfaith⟩
      | none =>
        -- the version is read again after the download
        refine ⟨download_unbroken h, ?_⟩
        exact (bracketed_slice hid hv hopen h hfaith).eq_of_isWhole hwhole (hsize hhash)

/-! ## A download that is resumed

An object of eight bytes, without a hash, that is replaced at time ten. The answer to the first
request breaks off; the rest comes from the location the service redirects to. -/

def replacedKey : ObjectKey := ⟨⟨"d", checkId_d⟩, ⟨"i", checkId_i⟩⟩

/-- Eight ones, and from time ten on eight twos. -/
def replacedService : Service Bool where
  version := fun _ t ↦ decide (10 ≤ t)
  content := fun v ↦ List.replicate 8 (if v then 2 else 1)
  body := fun v ↦ ⟨true, false, false, false, false, none, some (if v then "b" else "a"), none⟩

theorem replacedService_identifies : replacedService.Identifies where
  cTag := by
    rintro (_ | _) (_ | _) t h1 h2
    · rfl
    · simp only [replacedService, Option.some_inj] at h1 h2
      subst h1
      exact absurd h2 (by decide)
    · simp only [replacedService, Option.some_inj] at h1 h2
      subst h1
      exact absurd h2 (by decide)
    · rfl
  replaced := by
    intro key s t r hst htr hsame
    simp only [replacedService, decide_eq_decide] at hsame ⊢
    omega
  hash := fun v h hhash ↦ by cases hhash

def replacedReply (time : ℕ) : MetadataReply :=
  ⟨time, 200, some ⟨some "i", some "f", none, none, some "a", some ⟨none⟩, false, false, false,
    false, false, false, none, none⟩⟩

/-- Three bytes and a reset, then a redirect to where the rest is. -/
def replacedCalls : FetchCalls :=
  let gone : IoError := ⟨.connectionReset, none, "connection reset"⟩
  let head : Response := ⟨2, 200, none, none, none, [⟨List.replicate 3 1, none⟩], some gone⟩
  let redirect : Response := ⟨3, 302, none, some "https://c.example/1", none, [], none⟩
  let rest : Response :=
    ⟨3, 206, none, none, some "bytes 3-7/8", [⟨List.replicate 5 1, none⟩], none⟩
  let tries (k : ℕ) : Try :=
    ⟨0, .error gone, .ok (if k = 0 then head else redirect), .ok rest⟩
  ⟨.ok (replacedReply 1), tries, .ok (replacedReply 4), [], none⟩

theorem replacedCalls_served :
    (GraphProvider.new.fetch replacedKey.toCloudId 8 (some "ct:a") ⟨0, 8⟩ replacedCalls).served
      = [⟨replacedKey, true, ⟨0, 2, 200, none, none, none, [⟨List.replicate 3 1, none⟩],
          some ⟨.connectionReset, none, "connection reset"⟩⟩⟩,
        ⟨replacedKey, true, ⟨3, 3, 206, none, none, some "bytes 3-7/8",
          [⟨List.replicate 5 1, none⟩], none⟩⟩] := by
  decide +kernel

theorem replacedCalls_faithful : replacedCalls.Faithful replacedService (fun _ ↦ false) replacedKey
    ⟨0, 8⟩ 8
    (GraphProvider.new.fetch replacedKey.toCloudId 8 (some "ct:a") ⟨0, 8⟩ replacedCalls) := by
  have hreply : ∀ time, time < 10 →
      replacedService.Describes replacedKey (.ok (replacedReply time)) := by
    intro time htime m item hm hitem
    obtain rfl := Except.ok.inj hm
    obtain rfl := Option.some.inj hitem
    simp only [replacedService, replacedReply, decide_eq_false (Nat.not_le_of_lt htime)]
    rfl
  refine ⟨?_, hreply 1 (by decide), hreply 4 (by decide), ?_, ?_, fun _ _ ↦ by decide +kernel⟩
  · rw [replacedCalls_served]
    decide
  · rintro m ⟨⟩
    rw [replacedCalls_served]
    decide
  · rintro m ⟨⟩
    rw [replacedCalls_served]
    decide

/-- The eight ones arrive. -/
theorem GraphProvider.fetch_whole_resumed :
    (GraphProvider.new.fetch replacedKey.toCloudId 8 (some "ct:a") ⟨0, 8⟩ replacedCalls).broken
        = false
      ∧ (GraphProvider.new.fetch replacedKey.toCloudId 8 (some "ct:a") ⟨0, 8⟩
        replacedCalls).taken.flatten = List.replicate 8 1 :=
  fetch_whole replacedService_identifies (CloudId.parse_toCloudId replacedKey) (by decide)
    ⟨.cTag, by decide⟩ (fun _ ↦ by decide) (by decide) replacedCalls_faithful (by decide +kernel)

end HydrationAPI.Graph
