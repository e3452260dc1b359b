import HydrationAPI.Lib.Bytes

/-!
# The events of a fanotify group

A read from the group fills a buffer with events, one behind the other. Each has a fixed part, and
behind that any number of info records; how far it is to the next of either is written in the data.

The decoder is modelled with what it does besides answering: which bytes it reads, each with the
event it is at, and which descriptors it takes over and lets go of. The byte order is the machine's.
-/

namespace HydrationAPI.Fanotify

open Bytes (Endian slice)

/-! ## What lies in the buffer -/

/-- `FAN_EVENT_INFO_TYPE_RANGE`. -/
def infoTypeRange : UInt8 := 6
/-- `FAN_EVENT_INFO_TYPE_PIDFD`. -/
def infoTypePidfd : UInt8 := 4
/-- `FAN_EVENT_INFO_TYPE_MNT`. -/
def infoTypeMnt : UInt8 := 7

/-- The fixed part of an event. -/
structure EventMetadata where
  eventLen : UInt32
  vers : UInt8
  reserved : UInt8
  metadataLen : UInt16
  mask : UInt64
  fd : Int32
  pid : Int32
  deriving DecidableEq, Repr

structure InfoHeader where
  infoType : UInt8
  pad : UInt8
  len : UInt16
  deriving DecidableEq, Repr

/-- `size_of::<EventMetadata>()`. -/
abbrev metaSize : ℕ := 24

/-- `size_of::<InfoHeader>()`. -/
abbrev headerSize : ℕ := 4

variable (e : Endian)

def EventMetadata.ofBytes (bytes : List UInt8) : EventMetadata where
  eventLen := e.u32 (slice bytes 0 4)
  vers := (slice bytes 4 1).headD 0
  reserved := (slice bytes 5 1).headD 0
  metadataLen := e.u16 (slice bytes 6 2)
  mask := e.u64 (slice bytes 8 8)
  fd := e.i32 (slice bytes 16 4)
  pid := e.i32 (slice bytes 20 4)

def EventMetadata.toBytes (m : EventMetadata) : List UInt8 :=
  e.ofU32 m.eventLen ++ m.vers :: m.reserved :: (e.ofU16 m.metadataLen
    ++ (e.ofU64 m.mask ++ (e.ofI32 m.fd ++ e.ofI32 m.pid)))

def InfoHeader.ofBytes (bytes : List UInt8) : InfoHeader where
  infoType := (slice bytes 0 1).headD 0
  pad := (slice bytes 1 1).headD 0
  len := e.u16 (slice bytes 2 2)

def InfoHeader.toBytes (h : InfoHeader) : List UInt8 :=
  h.infoType :: h.pad :: e.ofU16 h.len

@[simp] theorem EventMetadata.length_toBytes (m : EventMetadata) :
    (m.toBytes e).length = metaSize := by
  simp [toBytes]

@[simp] theorem InfoHeader.length_toBytes (h : InfoHeader) :
    (h.toBytes e).length = headerSize := by
  simp [toBytes]

theorem EventMetadata.ofBytes_toBytes (m : EventMetadata) : ofBytes e (m.toBytes e) = m := by
  simp [ofBytes, toBytes, Bytes.slice_append_of_le, Bytes.slice_append_of_length,
    Bytes.slice_of_length]

theorem InfoHeader.ofBytes_toBytes (h : InfoHeader) : ofBytes e (h.toBytes e) = h := by
  simp [ofBytes, toBytes, Bytes.slice_of_length]

/-! ## Decoding -/

/-- One decoded event. The pidfd is owned. -/
structure Event where
  mask : UInt64
  fd : Int32
  pid : Int32
  range : Option (UInt64 × UInt64) := none
  pidfd : Option Int32 := none
  mntId : Option UInt64 := none
  deriving DecidableEq, Repr

/-- `n` bytes read from `start` on, of the `len` bytes of an event that begins at `off`. -/
structure Read where
  off : ℕ
  len : ℕ
  start : ℕ
  n : ℕ
  deriving DecidableEq, Repr

/-- What was done on the way: the reads, the descriptors that were taken over, and those of them
that were closed again because another took their place. -/
structure Trace where
  reads : List Read := []
  taken : List Int32 := []
  closed : List Int32 := []
  deriving DecidableEq, Repr

def Trace.read (t : Trace) (r : Read) : Trace := { t with reads := t.reads ++ [r] }

/-- Another owner takes the place of what the event has. -/
def Trace.own (t : Trace) (raw : Int32) (old : Option Int32) : Trace :=
  { t with taken := t.taken ++ [raw], closed := t.closed ++ old.toList }

variable (buf : List UInt8) (off eventLen : ℕ)

/-- One info record, at `rec`. The pidfd field is not always a descriptor: what is negative there
is a report. -/
def info (hdr : InfoHeader) (rec : ℕ) (ev : Event) (t : Trace) : Event × Trace :=
  let hlen := hdr.len.toNat
  if hdr.infoType = infoTypeRange ∧ 24 ≤ hlen then
    let offset := e.u64 (slice buf (rec + 8) 8)
    let count := e.u64 (slice buf (rec + 16) 8)
    ({ ev with range := some (offset, count) },
      (t.read ⟨off, eventLen, rec + 8, 8⟩).read ⟨off, eventLen, rec + 16, 8⟩)
  else if hdr.infoType = infoTypePidfd ∧ 8 ≤ hlen then
    let raw := e.i32 (slice buf (rec + 4) 4)
    let t := t.read ⟨off, eventLen, rec + 4, 4⟩
    if 0 ≤ raw then ({ ev with pidfd := some raw }, t.own raw ev.pidfd) else (ev, t)
  else if hdr.infoType = infoTypeMnt ∧ 16 ≤ hlen then
    ({ ev with mntId := some (e.u64 (slice buf (rec + 8) 8)) },
      t.read ⟨off, eventLen, rec + 8, 8⟩)
  else (ev, t)

/-- What keeps both loops going forward. -/
theorem progress {start stop size step : ℕ} (h : start + size ≤ stop) (hstep : 0 < step)
    (hsize : 0 < size) : stop - (start + step) < stop - start := by
  omega

/-- The info records of the event, from `rec` on. -/
def records (rec : ℕ) (ev : Event) (t : Trace) : Event × Trace :=
  if rec + headerSize ≤ off + eventLen then
    let hdr := InfoHeader.ofBytes e (slice buf rec headerSize)
    let t := t.read ⟨off, eventLen, rec, headerSize⟩
    let hlen := hdr.len.toNat
    if hlen = 0 ∨ off + eventLen < rec + hlen then (ev, t)
    else
      let next := info e buf off eventLen hdr rec ev t
      records (rec + hlen) next.1 next.2
  else (ev, t)
termination_by off + eventLen - rec
decreasing_by exact progress ‹_› (Nat.pos_of_ne_zero (not_or.mp ‹_›).1) (by decide)

/-- The events from `off` on, after those in `out`. -/
def eventsFrom (len off : ℕ) (out : List Event) (t : Trace) : List Event × Trace :=
  if off + metaSize ≤ len then
    let meta' := EventMetadata.ofBytes e (slice buf off metaSize)
    let t := t.read ⟨off, metaSize, off, metaSize⟩
    let eventLen := meta'.eventLen.toNat
    if eventLen < metaSize ∨ len < off + eventLen then (out, t)
    else
      let ev : Event := { mask := meta'.mask, fd := meta'.fd, pid := meta'.pid }
      let next := records e buf off eventLen (off + metaSize) ev t
      eventsFrom len (off + eventLen) (out ++ [next.1]) next.2
  else (out, t)
termination_by len - off
decreasing_by
  exact progress ‹_› ((Nat.succ_pos 23).trans_le (Nat.not_lt.mp (not_or.mp ‹_›).1)) (by decide)

/-- `events`: walk a buffer of which `len` bytes were filled. -/
def events (len : ℕ) : List Event × Trace := eventsFrom e buf len 0 [] {}

/-! ## Where it reads -/

section Bounds

variable {e buf off eventLen} {len : ℕ} {hdr : InfoHeader} {rec : ℕ} {ev : Event} {t : Trace}
  {out : List Event}

/-- The bytes are of the event, and the event is of what was filled. -/
def Read.Within (len : ℕ) (r : Read) : Prop :=
  r.off ≤ r.start ∧ r.start + r.n ≤ r.off + r.len ∧ r.off + r.len ≤ len

def Trace.Within (len : ℕ) (t : Trace) : Prop := ∀ r ∈ t.reads, r.Within len

theorem Trace.Within.read (ht : t.Within len) {r : Read} (hr : r.Within len) :
    (t.read r).Within len :=
  List.forall_mem_append.mpr ⟨ht, List.forall_mem_singleton.mpr hr⟩

theorem info_within (hrec : off ≤ rec) (hhdr : rec + hdr.len.toNat ≤ off + eventLen)
    (hlen : off + eventLen ≤ len) (ht : t.Within len) :
    (info e buf off eventLen hdr rec ev t).2.Within len := by
  have hread : ∀ i n, i + n ≤ hdr.len.toNat → (Read.mk off eventLen (rec + i) n).Within len :=
    fun i n h ↦ ⟨by dsimp only; omega, by dsimp only; omega, hlen⟩
  rw [info]
  dsimp only
  split
  · rename_i h
    exact (ht.read (hread 8 8 (by omega))).read (hread 16 8 (by omega))
  · split
    · rename_i h
      have hpidfd := ht.read (hread 4 4 (by omega))
      split
      · exact hpidfd
      · exact hpidfd
    · split
      · rename_i h
        exact ht.read (hread 8 8 (by omega))
      · exact ht

theorem records_within (hrec : off ≤ rec) (hlen : off + eventLen ≤ len) (ht : t.Within len) :
    (records e buf off eventLen rec ev t).2.Within len := by
  fun_induction records e buf off eventLen rec ev t with
  | case1 rec ev t hin hdr t' hlen' hstop => exact ht.read ⟨hrec, hin, hlen⟩
  | case2 rec ev t hin hdr t' hlen' hstop next ih =>
    refine ih (hrec.trans (Nat.le_add_right _ _)) ?_
    exact info_within hrec (Nat.not_lt.mp (not_or.mp hstop).2) hlen (ht.read ⟨hrec, hin, hlen⟩)
  | case3 rec ev t hin => exact ht

theorem eventsFrom_within (ht : t.Within len) :
    (eventsFrom e buf len off out t).2.Within len := by
  fun_induction eventsFrom e buf len off out t with
  | case1 off out t hin meta' t' eventLen hstop => exact ht.read ⟨le_rfl, le_rfl, hin⟩
  | case2 off out t hin meta' t' eventLen hstop ev next ih =>
    refine ih ?_
    exact records_within (Nat.le_add_right _ _) (Nat.not_lt.mp (not_or.mp hstop).2)
      (ht.read ⟨le_rfl, le_rfl, hin⟩)
  | case3 off out t hin => exact ht

end Bounds

/-! ## Who owns the descriptors -/

section Owners

variable {e buf off eventLen} {len : ℕ} {hdr : InfoHeader} {rec : ℕ} {ev : Event} {t : Trace}
  {out : List Event} {held : List Int32}

/-- What was taken over is closed, or held. -/
def Trace.Owned (t : Trace) (held : List Int32) : Prop := (t.closed ++ held).Perm t.taken

theorem filterMap_cons_toList {α β : Type*} (f : α → Option β) (a : α) (l : List α) :
    (a :: l).filterMap f = (f a).toList ++ l.filterMap f := by
  rw [List.filterMap_cons]
  cases f a with
  | none => rfl
  | some b => rfl

theorem info_owned (ht : t.Owned (held ++ ev.pidfd.toList)) :
    (info e buf off eventLen hdr rec ev t).2.Owned
      (held ++ (info e buf off eventLen hdr rec ev t).1.pidfd.toList) := by
  rw [info]
  dsimp only
  split
  · exact ht
  · split
    · split
      · refine List.Perm.trans ?_ (ht.append_right _)
        rw [Trace.own, List.append_assoc, List.append_assoc, List.append_assoc]
        refine List.Perm.append_left _ ?_
        rw [← List.append_assoc, ← List.append_assoc]
        exact List.perm_append_comm.append_right _
      · exact ht
    · split
      · exact ht
      · exact ht

theorem records_owned (ht : t.Owned (held ++ ev.pidfd.toList)) :
    (records e buf off eventLen rec ev t).2.Owned
      (held ++ (records e buf off eventLen rec ev t).1.pidfd.toList) := by
  fun_induction records e buf off eventLen rec ev t with
  | case1 rec ev t hin hdr t' hlen' hstop => exact ht
  | case2 rec ev t hin hdr t' hlen' hstop next ih => exact ih (info_owned ht)
  | case3 rec ev t hin => exact ht

theorem eventsFrom_owned (ht : t.Owned (out.filterMap Event.pidfd)) :
    (eventsFrom e buf len off out t).2.Owned
      ((eventsFrom e buf len off out t).1.filterMap Event.pidfd) := by
  fun_induction eventsFrom e buf len off out t with
  | case1 off out t hin meta' t' eventLen hstop => exact ht
  | case2 off out t hin meta' t' eventLen hstop ev next ih =>
    refine ih ?_
    rw [List.filterMap_append, filterMap_cons_toList, List.filterMap_nil, List.append_nil]
    refine records_owned ?_
    rwa [Option.toList_none, List.append_nil]
  | case3 off out t hin => exact ht

end Owners

/-! ## What was written is what is read -/

/-- An info record, as the group writes it. -/
inductive Info where
  | range (gap : UInt32) (offset count : UInt64)
  | pidfd (raw : Int32)
  | mnt (gap : UInt32) (id : UInt64)
  | unknown (infoType : UInt8) (range : infoType ≠ infoTypeRange)
      (pidfd : infoType ≠ infoTypePidfd) (mnt : infoType ≠ infoTypeMnt)

namespace Info

def infoType : Info → UInt8
  | range _ _ _ => infoTypeRange
  | pidfd _ => infoTypePidfd
  | mnt _ _ => infoTypeMnt
  | unknown infoType _ _ _ => infoType

def body : Info → List UInt8
  | range gap offset count => e.ofU32 gap ++ (e.ofU64 offset ++ e.ofU64 count)
  | pidfd raw => e.ofI32 raw
  | mnt gap id => e.ofU32 gap ++ e.ofU64 id
  | unknown _ _ _ _ => []

def size : Info → ℕ
  | range _ _ _ => 20
  | pidfd _ => 4
  | mnt _ _ => 12
  | unknown _ _ _ _ => 0

@[simp] theorem length_body (i : Info) : (i.body e).length = i.size := by
  cases i <;> simp [body, size]

end Info

/-- A record with what may follow its fields, of a length that its header can hold. -/
structure Record where
  info : Info
  pad : UInt8
  tail : List UInt8
  fits : headerSize + info.size + tail.length < 2 ^ 16

namespace Record

variable (r : Record)

def size : ℕ := headerSize + r.info.size + r.tail.length

def header : InfoHeader := ⟨r.info.infoType, r.pad, UInt16.ofNat r.size⟩

def toBytes : List UInt8 := r.header.toBytes e ++ (r.info.body e ++ r.tail)

def range : Option (UInt64 × UInt64) :=
  match r.info with
  | .range _ offset count => some (offset, count)
  | _ => none

/-- The descriptor, if there is one in the field. -/
def pidfd : Option Int32 :=
  match r.info with
  | .pidfd raw => if 0 ≤ raw then some raw else none
  | _ => none

def mntId : Option UInt64 :=
  match r.info with
  | .mnt _ id => some id
  | _ => none

@[simp] theorem length_toBytes : (r.toBytes e).length = r.size := by
  simp [toBytes, size, Nat.add_assoc]

theorem toNat_len : r.header.len.toNat = r.size :=
  UInt16.toNat_ofNat_of_lt r.fits

theorem size_pos : 0 < r.size := Nat.add_pos_left (Nat.add_pos_left (by decide) _) _

end Record

/-- The event, with what records say of it in place of what it has. -/
def Event.note (ev : Event) (range : Option (UInt64 × UInt64)) (pidfd : Option Int32)
    (mntId : Option UInt64) : Event :=
  { ev with
    range := range.or ev.range
    pidfd := pidfd.or ev.pidfd
    mntId := mntId.or ev.mntId }

section RoundTrip

open Bytes (slice_of_slice slice_append_of_le slice_append_of_length slice_of_length)

variable {e buf off eventLen} {rec : ℕ} {ev : Event} {t : Trace}

theorem slice_body {r : Record} (h : slice buf rec r.size = r.toBytes e) :
    slice buf (rec + headerSize) r.info.size = r.info.body e := by
  rw [slice_of_slice h (Nat.le_add_right _ _), Record.toBytes,
    slice_append_of_le (InfoHeader.length_toBytes e _).le, InfoHeader.length_toBytes, Nat.sub_self,
    slice_append_of_length (Info.length_body e _)]

/-- **One record is read as it was written.** -/
theorem info_of_record {r : Record} (h : slice buf rec r.size = r.toBytes e) :
    (info e buf off eventLen r.header rec ev t).1 = ev.note r.range r.pidfd r.mntId
      ∧ (info e buf off eventLen r.header rec ev t).2.taken = t.taken ++ r.pidfd.toList := by
  have hbody := slice_body h
  have hlen := r.toNat_len
  obtain ⟨i, pad, tail, fits⟩ := r
  rw [info]
  dsimp only at hbody ⊢
  rw [hlen]
  cases i with
  | range gap offset count =>
    have hsize : 24 ≤ Record.size ⟨.range gap offset count, pad, tail, fits⟩ := Nat.le_add_right _ _
    have hoffset : slice buf (rec + 8) 8 = e.ofU64 offset := by
      rw [show rec + 8 = rec + headerSize + 4 from rfl, slice_of_slice hbody (by simp [Info.size])]
      simp [Info.body, slice_append_of_le, slice_append_of_length]
    have hcount : slice buf (rec + 16) 8 = e.ofU64 count := by
      rw [show rec + 16 = rec + headerSize + 12 from rfl,
        slice_of_slice hbody (by simp [Info.size])]
      simp [Info.body, slice_append_of_le, slice_of_length]
    rw [if_pos ⟨rfl, hsize⟩, hoffset, hcount, e.u64_ofU64, e.u64_ofU64]
    exact ⟨rfl, (List.append_nil _).symm⟩
  | pidfd raw =>
    have hsize : 8 ≤ Record.size ⟨.pidfd raw, pad, tail, fits⟩ := Nat.le_add_right _ _
    have hraw : slice buf (rec + 4) 4 = e.ofI32 raw := hbody
    rw [if_neg fun hk ↦ absurd hk.1 (show infoTypePidfd ≠ infoTypeRange by decide),
      if_pos ⟨rfl, hsize⟩, hraw, e.i32_ofI32, Record.pidfd]
    dsimp only
    by_cases hown : 0 ≤ raw
    · rw [if_pos hown, if_pos hown]
      exact ⟨rfl, rfl⟩
    · rw [if_neg hown, if_neg hown]
      exact ⟨rfl, (List.append_nil _).symm⟩
  | mnt gap id =>
    have hsize : 16 ≤ Record.size ⟨.mnt gap id, pad, tail, fits⟩ := Nat.le_add_right _ _
    have hid : slice buf (rec + 8) 8 = e.ofU64 id := by
      rw [show rec + 8 = rec + headerSize + 4 from rfl, slice_of_slice hbody (by simp [Info.size])]
      simp [Info.body, slice_append_of_le, slice_of_length]
    rw [if_neg fun hk ↦ absurd hk.1 (show infoTypeMnt ≠ infoTypeRange by decide),
      if_neg fun hk ↦ absurd hk.1 (show infoTypeMnt ≠ infoTypePidfd by decide),
      if_pos ⟨rfl, hsize⟩, hid, e.u64_ofU64]
    exact ⟨rfl, (List.append_nil _).symm⟩
  | unknown infoType range pidfd mnt =>
    rw [if_neg fun hk ↦ range hk.1, if_neg fun hk ↦ pidfd hk.1, if_neg fun hk ↦ mnt hk.1]
    exact ⟨rfl, (List.append_nil _).symm⟩

/-- What a row of records says. -/
def Event.noteAll (ev : Event) (rs : List Record) : Event :=
  ev.note (rs.filterMap Record.range).getLast? (rs.filterMap Record.pidfd).getLast?
    (rs.filterMap Record.mntId).getLast?

theorem getLast?_filterMap_cons {α β : Type*} (f : α → Option β) (a : α) (l : List α) :
    ((a :: l).filterMap f).getLast? = ((l.filterMap f).getLast?).or (f a) := by
  rw [filterMap_cons_toList, List.getLast?_append]
  cases f a with
  | none => rfl
  | some b => rfl

theorem noteAll_cons (ev : Event) (r : Record) (rs : List Record) :
    ev.noteAll (r :: rs) = (ev.note r.range r.pidfd r.mntId).noteAll rs := by
  rw [Event.noteAll, Event.noteAll, getLast?_filterMap_cons, getLast?_filterMap_cons,
    getLast?_filterMap_cons, Event.note, Event.note, Event.note]
  simp only [Option.or_assoc]

/-- **The records are read as they were written.** -/
theorem records_toBytes {rs : List Record} (h : slice buf rec (rs.flatMap (Record.toBytes e)).length
      = rs.flatMap (Record.toBytes e))
    (hend : off + eventLen = rec + (rs.flatMap (Record.toBytes e)).length) :
    (records e buf off eventLen rec ev t).1 = ev.noteAll rs
      ∧ (records e buf off eventLen rec ev t).2.taken = t.taken ++ rs.filterMap Record.pidfd := by
  induction rs generalizing rec ev t with
  | nil =>
    rw [records, if_neg fun hle ↦ absurd (hle.trans_eq hend) (by simp)]
    exact ⟨rfl, (List.append_nil _).symm⟩
  | cons r rs ih =>
    rw [List.flatMap_cons, List.length_append, Record.length_toBytes] at h hend
    have hr : slice buf rec r.size = r.toBytes e := by
      rw [← Nat.add_zero rec, slice_of_slice h (by omega),
        slice_append_of_length (Record.length_toBytes e r)]
    have hrest : slice buf (rec + r.size) (rs.flatMap (Record.toBytes e)).length
        = rs.flatMap (Record.toBytes e) := by
      rw [slice_of_slice h le_rfl, slice_append_of_le (Record.length_toBytes e r).le,
        Record.length_toBytes, Nat.sub_self, slice_of_length rfl]
    have hhdr : InfoHeader.ofBytes e (slice buf rec headerSize) = r.header := by
      rw [← Nat.add_zero rec, slice_of_slice hr (by rw [Record.size]; omega), Record.toBytes,
        slice_append_of_length (InfoHeader.length_toBytes e _), InfoHeader.ofBytes_toBytes]
    have hfits : rec + headerSize ≤ off + eventLen := by
      rw [hend, Record.size]
      omega
    have hgo : ¬ (r.header.len.toNat = 0 ∨ off + eventLen < rec + r.header.len.toNat) := by
      have hpos := r.size_pos
      rw [r.toNat_len, hend]
      omega
    rw [records, if_pos hfits]
    dsimp only
    rw [hhdr, if_neg hgo, r.toNat_len]
    obtain ⟨hev', htaken'⟩ := ih hrest (hend.trans (Nat.add_assoc _ _ _).symm)
    obtain ⟨hev, htaken⟩ := info_of_record hr
    refine ⟨?_, ?_⟩
    · rw [hev', hev, noteAll_cons]
    · rw [htaken', htaken, filterMap_cons_toList, ← List.append_assoc]
      rfl

/-- An event, as the group writes it, of a length that its fixed part can hold. -/
structure Message where
  vers : UInt8
  reserved : UInt8
  metadataLen : UInt16
  mask : UInt64
  fd : Int32
  pid : Int32
  records : List Record
  fits : metaSize + (records.map Record.size).sum < 2 ^ 32

namespace Message

def size (m : Message) : ℕ := metaSize + (m.records.map Record.size).sum

def metadata (m : Message) : EventMetadata :=
  ⟨UInt32.ofNat m.size, m.vers, m.reserved, m.metadataLen, m.mask, m.fd, m.pid⟩

def toBytes (e : Endian) (m : Message) : List UInt8 :=
  m.metadata.toBytes e ++ m.records.flatMap (Record.toBytes e)

/-- What there is to decode: of each kind of record the last one counts. -/
def event (m : Message) : Event where
  mask := m.mask
  fd := m.fd
  pid := m.pid
  range := (m.records.filterMap Record.range).getLast?
  pidfd := (m.records.filterMap Record.pidfd).getLast?
  mntId := (m.records.filterMap Record.mntId).getLast?

theorem length_records (e : Endian) (m : Message) :
    (m.records.flatMap (Record.toBytes e)).length = (m.records.map Record.size).sum := by
  rw [List.length_flatMap]
  congr 2
  exact funext (Record.length_toBytes e)

@[simp] theorem length_toBytes (e : Endian) (m : Message) : (m.toBytes e).length = m.size := by
  rw [toBytes, List.length_append, EventMetadata.length_toBytes, length_records, size]

theorem toNat_eventLen (m : Message) : m.metadata.eventLen.toNat = m.size :=
  UInt32.toNat_ofNat_of_lt m.fits

theorem noteAll_records (m : Message) :
    Event.noteAll { mask := m.mask, fd := m.fd, pid := m.pid } m.records = m.event := by
  rw [Event.noteAll, Event.note, event, Option.or_none, Option.or_none, Option.or_none]

end Message

/-- **The events are read as they were written.** -/
theorem eventsFrom_toBytes {len : ℕ} {out : List Event} {ms : List Message}
    (h : slice buf off (ms.flatMap (Message.toBytes e)).length = ms.flatMap (Message.toBytes e))
    (hlen : len = off + (ms.flatMap (Message.toBytes e)).length) :
    (eventsFrom e buf len off out t).1 = out ++ ms.map Message.event
      ∧ (eventsFrom e buf len off out t).2.taken
        = t.taken ++ ms.flatMap fun m ↦ m.records.filterMap Record.pidfd := by
  induction ms generalizing off out t with
  | nil =>
    rw [eventsFrom, if_neg fun hle ↦ absurd (hle.trans_eq hlen) (by simp)]
    exact ⟨(List.append_nil _).symm, (List.append_nil _).symm⟩
  | cons m ms ih =>
    rw [List.flatMap_cons, List.length_append, Message.length_toBytes] at h hlen
    have hm : slice buf off m.size = m.toBytes e := by
      rw [← Nat.add_zero off, slice_of_slice h (by omega),
        slice_append_of_length (Message.length_toBytes e m)]
    have hrest : slice buf (off + m.size) (ms.flatMap (Message.toBytes e)).length
        = ms.flatMap (Message.toBytes e) := by
      rw [slice_of_slice h le_rfl, slice_append_of_le (Message.length_toBytes e m).le,
        Message.length_toBytes, Nat.sub_self, slice_of_length rfl]
    have hmeta : EventMetadata.ofBytes e (slice buf off metaSize) = m.metadata := by
      rw [← Nat.add_zero off, slice_of_slice hm (by rw [Message.size]; omega), Message.toBytes,
        slice_append_of_length (EventMetadata.length_toBytes e _), EventMetadata.ofBytes_toBytes]
    have hrecords : slice buf (off + metaSize) (m.records.flatMap (Record.toBytes e)).length
        = m.records.flatMap (Record.toBytes e) := by
      rw [slice_of_slice hm (by rw [m.length_records, Message.size]), Message.toBytes,
        slice_append_of_le (EventMetadata.length_toBytes e _).le, EventMetadata.length_toBytes,
        Nat.sub_self, slice_of_length rfl]
    have hend : off + m.size
        = off + metaSize + (m.records.flatMap (Record.toBytes e)).length := by
      rw [m.length_records, Message.size, Nat.add_assoc]
    have hfits : off + metaSize ≤ len := by
      rw [hlen, Message.size]
      omega
    have hgo : ¬ (m.metadata.eventLen.toNat < metaSize
        ∨ len < off + m.metadata.eventLen.toNat) := by
      rw [m.toNat_eventLen, hlen, Message.size]
      omega
    rw [eventsFrom, if_pos hfits]
    dsimp only
    rw [hmeta, if_neg hgo, m.toNat_eventLen]
    obtain ⟨hout, htaken⟩ := ih hrest (hlen.trans (Nat.add_assoc _ _ _).symm)
    obtain ⟨hev, htaken'⟩ := records_toBytes hrecords hend
    refine ⟨?_, ?_⟩
    · rw [hout, hev, List.append_assoc, List.map_cons, ← m.noteAll_records]
      rfl
    · rw [htaken, htaken', List.flatMap_cons, ← List.append_assoc]
      rfl

end RoundTrip

/-- **The decoder is faithful, and keeps to what it was given.** Any events, with any records, are
read back in their order, and each descriptor in them is taken over once. Of any bytes at all, only
such are read as belong to the event that is decoded and were filled; and whatever was taken over
is closed, or held by one of the events. -/
theorem events_faithful (e : Endian) :
    (∀ (ms : List Message) (rest : List UInt8),
      let bytes := ms.flatMap (Message.toBytes e)
      let decoded := events e (bytes ++ rest) bytes.length
      decoded.1 = ms.map Message.event
        ∧ decoded.2.taken = ms.flatMap fun m ↦ m.records.filterMap Record.pidfd)
      ∧ ∀ (buf : List UInt8) (len : ℕ), (events e buf len).2.Within len
        ∧ (events e buf len).2.Owned ((events e buf len).1.filterMap Event.pidfd) := by
  refine ⟨fun ms rest ↦ ?_, fun buf len ↦ ⟨?_, ?_⟩⟩
  · have h := Bytes.slice_append_of_length (a := ms.flatMap (Message.toBytes e)) rfl rest
    exact eventsFrom_toBytes h (Nat.zero_add _).symm
  · exact eventsFrom_within nofun
  · exact eventsFrom_owned (List.Perm.refl _)

end HydrationAPI.Fanotify
