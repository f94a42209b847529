import LedgerLine.Broker.LogSpec
import LedgerLine.Broker.Stream

/-!
# Segments with bytes behind their last record

A write of `segment.append` that fails may have put some of its bytes in the file.  The
segment in memory does not change, so the bytes stay behind its tracked end, the next record
is written over them, and what it does not cover is still there.  The index file has the same
problem: an entry may be complete in the file although its write failed.

`Shelf` describes the two files of a segment with whatever stands behind its records, `Held` a
segment in memory over such files.  What a piece of code does is stated with `Safely`: at every
point and at the end, whatever writes of `segment.append` fail.

Main facts:
* `maybeIndex_safely`: a failed entry is written again by the next append, in the same place;
* `append_safely`: a failed append leaves the segment held, with the records it had.
-/

namespace LedgerLine.Broker

open Program

/-- The writes of `segment.append`: a record behind the header, and an index entry. -/
def AppendWrite : FsOp Path → Prop
  | .writeAt (.segment _) off _ => segmentHeaderSize ≤ off
  | .writeAt (.index _) _ _ => True
  | _ => False

section Safely

variable {α β : Type} {inv inv' : Dir Path → Prop} {post post' : α → Dir Path → Prop}
variable {d d' : Dir Path}

/-- What other threads do to the directory while one holds the log's mutex. -/
def OnlySyncs (w w' : World) : Prop :=
  w.dir.SameBytes w'.dir

theorem OnlySyncs.refl (w : World) : OnlySyncs w w :=
  Dir.SameBytes.refl _

/-- `inv` at every point and `post` at the end, whatever writes of `segment.append` fail and
whatever is flushed meanwhile. -/
def Safely (inv : Dir Path → Prop) (post : α → Dir Path → Prop) (prog : LogProgram α)
    (d : Dir Path) : Prop :=
  ∀ w : World, w.dir = d →
    Always OnlySyncs (LogOp.Outcome AppendWrite) (fun u => inv u.dir) (fun a u => post a u.dir)
      prog w

/-- A property that does not depend on what is synced. -/
def Steadfast (P : Dir Path → Prop) : Prop :=
  ∀ d d', d.SameBytes d' → P d → P d'

variable {P : Dir Path → Prop}

theorem safely_done {a : α} (hP : Steadfast P) (h : P d) (hd : ∀ d, P d → inv d ∧ post a d) :
    Safely inv post (.done a) d := by
  rintro w rfl u hu
  exact hd _ (hP _ _ hu h)

/-- A file operation, whatever becomes of it. -/
theorem safely_fs {o : FsOp Path} {k : o.Resp → LogProgram α} (hP : Steadfast P) (h : P d)
    (hinv : ∀ d, P d → inv d)
    (hk : ∀ d r d', P d → FsOp.Outcome AppendWrite o d r d' → Safely inv post (k r) d') :
    Safely inv post (fs o >>= k) d := by
  rintro w rfl u hu
  have hPu := hP _ _ hu h
  refine ⟨hinv _ hPu, ?_⟩
  intro r v hstep
  cases hstep with
  | fs hfs =>
      exact hk _ _ _ hPu hfs _ rfl

/-- A file operation that does not fail. -/
theorem safely_sure {o : FsOp Path} {k : o.Resp → LogProgram α} (ho : ¬ AppendWrite o)
    (hP : Steadfast P) (h : P d) (hinv : ∀ d, P d → inv d)
    (hk : ∀ d, P d → Safely inv post (k (o.exec d).1) (o.exec d).2) :
    Safely inv post (fs o >>= k) d := by
  refine safely_fs hP h hinv ?_
  intro d r d' hPd hout
  cases hout with
  | success => exact hk d hPd
  | failure j hfail => exact absurd hfail ho

/-- A write that may fail. -/
theorem safely_write {P : Dir Path → Prop} {p : Path} {off : Nat} {bs : Bytes}
    {k : (FsOp.writeAt p off bs).Resp → LogProgram α} (hP : Steadfast P) (h : P d)
    (hinv : ∀ d, P d → inv d)
    (hok : ∀ d, P d → Safely inv post (k (.ok ())) (d.set p ((d.file p).write off bs)))
    (herror : ∀ d j, P d →
      Safely inv post (k (.error .io)) (d.set p ((d.file p).write off (bs.take j)))) :
    Safely inv post (fs (.writeAt p off bs) >>= k) d := by
  refine safely_fs hP h hinv ?_
  intro d r d' hPd hout
  cases hout with
  | success => exact hok d hPd
  | failure j hfail => exact herror d j hPd

/-- A method of the coordinator. -/
theorem safely_coord {o : CoordOp} {k : o.Resp → LogProgram α} (hP : Steadfast P) (h : P d)
    (hinv : ∀ d, P d → inv d) (hk : ∀ d r, P d → Safely inv post (k r) d) :
    Safely inv post (syncer o >>= k) d := by
  rintro w rfl u hu
  have hPu := hP _ _ hu h
  refine ⟨hinv _ hPu, ?_⟩
  intro r v hstep
  cases hstep with
  | coord => exact hk _ _ hPu _ rfl

theorem safely_bind {post' : β → Dir Path → Prop} {p : LogProgram α} {k : α → LogProgram β}
    (h : Safely inv post p d) (hk : ∀ a d, post a d → Safely inv post' (k a) d) :
    Safely inv post' (p >>= k) d :=
  fun w hw => always_bind OnlySyncs.refl (h w hw) fun a u hu => hk a u.dir hu u rfl

theorem safely_mono {p : LogProgram α} (hinv : ∀ d, inv d → inv' d)
    (hpost : ∀ a d, post a d → post' a d) (h : Safely inv post p d) : Safely inv' post' p d :=
  fun w hw => always_mono (fun u hu => hinv u.dir hu) (fun a u hu => hpost a u.dir hu) (h w hw)

end Safely

section Apart

variable {b c : Nat} {d d' : Dir Path} {F G : Dir Path → Prop}

/-- Nothing but the two files of segment `b` has changed. -/
structure Apart (b : Nat) (d d' : Dir Path) : Prop where
  named : ∀ p, p ≠ .segment b → p ≠ .index b → (p ∈ d'.names ↔ p ∈ d.names)
  bytes : ∀ p, p ≠ .segment b → p ≠ .index b → (d.file p).SameBytes (d'.file p)

/-- A property of the rest of the directory, and of which segments there are. -/
def Frame (b : Nat) (F : Dir Path → Prop) : Prop :=
  ∀ d d', Apart b d d' → segmentOffsets d'.names = segmentOffsets d.names → F d → F d'

theorem apart_sameBytes (b : Nat) (h : d.SameBytes d') : Apart b d d' :=
  ⟨fun p _ _ => by rw [h.1], fun p _ _ => h.2 p⟩

theorem apart_set_segment (b : Nat) (d : Dir Path) (f : File) :
    Apart b d (d.set (.segment b) f) := by
  refine ⟨fun _ _ _ => Iff.rfl, fun p hp _ => ?_⟩
  rw [Dir.set_file_ne d f hp]
  exact File.SameBytes.refl _

theorem apart_set_index (b : Nat) (d : Dir Path) (f : File) : Apart b d (d.set (.index b) f) := by
  refine ⟨fun _ _ _ => Iff.rfl, fun p _ hp => ?_⟩
  rw [Dir.set_file_ne d f hp]
  exact File.SameBytes.refl _

theorem apart_create (b : Nat) (d : Dir Path) : Apart b d (d.create (.segment b)) := by
  refine ⟨fun p hp _ => ?_, fun p hp _ => ?_⟩
  · simp [hp]
  · rw [Dir.create_file_ne d hp]
    exact File.SameBytes.refl _

theorem apart_touch (b : Nat) (d : Dir Path) : Apart b d (d.touch (.index b)) := by
  unfold Dir.touch
  split_ifs
  · exact ⟨fun _ _ _ => Iff.rfl, fun _ _ _ => File.SameBytes.refl _⟩
  · refine ⟨fun p _ hp => ?_, fun p _ hp => ?_⟩
    · simp [hp]
    · rw [Dir.create_file_ne d hp]
      exact File.SameBytes.refl _

theorem Frame.steadfast (hF : Frame b F) : Steadfast F :=
  fun d d' h => hF d d' (apart_sameBytes b h) (by rw [h.1])

theorem Frame.and (hF : Frame b F) (hG : Frame b G) : Frame b fun d => F d ∧ G d :=
  fun d d' hd ho h => ⟨hF d d' hd ho h.1, hG d d' hd ho h.2⟩

theorem Steadfast.and (hF : Steadfast F) (hG : Steadfast G) : Steadfast fun d => F d ∧ G d :=
  fun d d' hd h => ⟨hF d d' hd h.1, hG d d' hd h.2⟩

end Apart

section Shelf

variable (crc : Checksum)

/-- Every entry points at a record, or at where the next one will start. -/
def Placed (ps : List Bytes) (es : List IndexEntry) : Prop :=
  ∀ e ∈ es, e.relOffset ≤ ps.length ∧ e.position = position crc ps e.relOffset ∧
    e.position < maxIndexableSegment

/-- The two files of segment `b`: the records `ps` and `rest` behind them, and the complete
entries `es` of the index. -/
structure Shelf (b : Nat) (ps : List Bytes) (rest : Bytes) (es : List IndexEntry)
    (d : Dir Path) : Prop where
  named : Path.segment b ∈ d.names
  segment : (d.file (.segment b)).Holds (headerBytes b ++ recordsBytes crc ps ++ rest)
  index : Path.index b ∈ d.names →
    ∃ junk : Bytes, junk.length < 8 ∧ (d.file (.index b)).Holds (entriesBytes es ++ junk)
  fresh : Path.index b ∉ d.names → es = []

variable {crc}
variable {b c : Nat} {ps qs : List Bytes} {rest : Bytes} {es es₀ : List IndexEntry}
variable {e : IndexEntry} {d d' : Dir Path}

theorem Placed.nil : Placed crc ps [] :=
  List.forall_mem_nil _

theorem Placed.append_right (h : Placed crc ps es) (qs : List Bytes) :
    Placed crc (ps ++ qs) es := by
  intro e he
  obtain ⟨hle, hpos, hlt⟩ := h e he
  refine ⟨?_, ?_, hlt⟩
  · rw [List.length_append]
    omega
  · rw [position_append_left crc hle]
    exact hpos

theorem Placed.subset (h : Placed crc ps es) (hes : es₀ ⊆ es) : Placed crc ps es₀ :=
  fun e he => h e (hes he)

theorem Placed.concat (h : Placed crc ps es) {k : Nat} (hk : k ≤ ps.length)
    (hpos : position crc ps k < maxIndexableSegment) :
    Placed crc ps (es ++ [⟨k, position crc ps k⟩]) := by
  exact List.forall_mem_append.mpr ⟨h, List.forall_mem_singleton.mpr ⟨hk, rfl, hpos⟩⟩

theorem Placed.fits (h : Placed crc ps es) : ∀ e ∈ es, e.Fits := by
  intro e he
  obtain ⟨hle, hpos, hlt⟩ := h e he
  have := le_position crc hle
  rw [maxIndexableSegment_eq] at hlt
  exact ⟨by omega, by omega⟩

namespace Shelf

theorem apart (h : Shelf crc b ps rest es d) (hd : Apart c d d') (hne : b ≠ c) :
    Shelf crc b ps rest es d' := by
  have hseg : Path.segment b ≠ .segment c ∧ Path.segment b ≠ .index c := by
    simpa using hne
  have hidx : Path.index b ≠ .segment c ∧ Path.index b ≠ .index c := by
    simpa using hne
  refine ⟨(hd.named _ hseg.1 hseg.2).mpr h.named, h.segment.sameBytes (hd.bytes _ hseg.1 hseg.2),
    ?_, ?_⟩
  · intro hn
    obtain ⟨junk, hj, hindex⟩ := h.index ((hd.named _ hidx.1 hidx.2).mp hn)
    exact ⟨junk, hj, hindex.sameBytes (hd.bytes _ hidx.1 hidx.2)⟩
  · rw [hd.named _ hidx.1 hidx.2]
    exact h.fresh

theorem steadfast : Steadfast (Shelf crc b ps rest es) :=
  fun _ _ hd h => h.apart (apart_sameBytes (b + 1) hd) (Nat.ne_of_lt (Nat.lt_succ_self b))

/-- Writing where the next record goes. -/
theorem writeRecord (h : Shelf crc b ps rest es d) (bs : Bytes) :
    Shelf crc b ps (bs ++ rest.drop bs.length) es
      (d.set (.segment b)
        ((d.file (.segment b)).write (position crc ps ps.length) bs)) := by
  have hlen : position crc ps ps.length = (headerBytes b ++ recordsBytes crc ps).length := by
    rw [position_length, List.length_append, headerBytes_length]
  have hwrite := @File.Holds.write _ _ h.segment (position crc ps ps.length)
    (by rw [hlen]; simp) bs
  rw [hlen, overwrite_append, ← hlen, List.append_assoc] at hwrite
  refine ⟨h.named, ?_, ?_, h.fresh⟩
  · rw [Dir.set_file_self]
    exact hwrite
  · rw [Dir.set_file_ne d _ (by simp)]
    exact h.index

/-- Writing an entry behind `es₀`, where part of it, or all of it, may already stand. -/
theorem writeEntry (h : Shelf crc b ps rest es d) (hnamed : Path.index b ∈ d.names)
    (hes : es = es₀ ∨ es = es₀ ++ [e]) (j : Nat) :
    ∃ es', (es' = es₀ ∨ es' = es₀ ++ [e]) ∧ (8 ≤ j → es' = es₀ ++ [e]) ∧
      Shelf crc b ps rest es' (d.set (.index b)
        ((d.file (.index b)).write (es₀.length * 8) ((entryBytes e).take j))) := by
  obtain ⟨junk, hj, hindex⟩ := h.index hnamed
  have hset : ∀ es' : List IndexEntry, (∃ junk' : Bytes, junk'.length < 8 ∧
      overwrite (entriesBytes es ++ junk) (es₀.length * 8) ((entryBytes e).take j) =
        entriesBytes es' ++ junk') →
      Shelf crc b ps rest es' (d.set (.index b)
        ((d.file (.index b)).write (es₀.length * 8) ((entryBytes e).take j))) := by
    rintro es' ⟨junk', hj', hover⟩
    have hoff : es₀.length * 8 ≤ (entriesBytes es ++ junk).length := by
      rw [List.length_append, entriesBytes_length]
      rcases hes with rfl | rfl
      · omega
      · rw [List.length_append]
        omega
    have hwrite := hindex.write hoff ((entryBytes e).take j)
    rw [hover] at hwrite
    refine ⟨h.named, ?_, fun _ => ⟨junk', hj', ?_⟩, fun hn => absurd hnamed hn⟩
    · rw [Dir.set_file_ne d _ (by simp)]
      exact h.segment
    · rw [Dir.set_file_self]
      exact hwrite
  rcases hes with rfl | rfl
  · obtain ⟨es', junk', hes', hj', hover, hfull⟩ := IndexFile.overwrite_entry es hj e j
    exact ⟨es', hes', hfull, hset es' ⟨junk', hj', hover⟩⟩
  · -- the entry stands there already: writing it again changes nothing
    refine ⟨es₀ ++ [e], Or.inr rfl, fun _ => rfl, hset _ ⟨junk, hj, ?_⟩⟩
    have hover := overwrite_append (entriesBytes es₀) (entryBytes e ++ junk) ((entryBytes e).take j)
    have hsame : (entryBytes e).take j ++
        (entryBytes e ++ junk).drop ((entryBytes e).take j).length =
        entryBytes e ++ junk := by
      rw [List.drop_append_of_le_length (by simp), ← List.append_assoc, List.length_take]
      congr 1
      rcases le_total j (entryBytes e).length with hle | hge
      · rw [Nat.min_eq_left hle, List.take_append_drop]
      · rw [Nat.min_eq_right hge, List.take_of_length_le hge, List.drop_length, List.append_nil]
    rw [List.append_assoc, hsame, entriesBytes_length] at hover
    rw [entriesBytes_append, List.append_assoc, entriesBytes_cons, entriesBytes_nil,
      List.append_nil]
    exact hover

/-- Cutting off what stands behind the records. -/
theorem cutSegment (h : Shelf crc b ps rest es d) :
    Shelf crc b ps [] es
      (d.set (.segment b) ((d.file (.segment b)).truncate (position crc ps ps.length))) := by
  have hlen : position crc ps ps.length = (headerBytes b ++ recordsBytes crc ps).length := by
    rw [position_length, List.length_append, headerBytes_length]
  have hcut := @File.Holds.truncate _ _ h.segment (position crc ps ps.length)
    (by rw [hlen]; simp)
  rw [hlen, List.take_left' rfl, ← hlen] at hcut
  refine ⟨h.named, ?_, ?_, h.fresh⟩
  · rw [Dir.set_file_self, List.append_nil]
    exact hcut
  · rw [Dir.set_file_ne d _ (by simp)]
    exact h.index

/-- Keeping the first entries of the index. -/
theorem cutIndex (h : Shelf crc b ps rest es d) (hnamed : Path.index b ∈ d.names) {k : Nat}
    (hk : k ≤ es.length) :
    Shelf crc b ps rest (es.take k)
      (d.set (.index b) ((d.file (.index b)).truncate (k * 8))) := by
  obtain ⟨junk, hj, hindex⟩ := h.index hnamed
  have hcut := @File.Holds.truncate _ _ hindex (k * 8)
    (by rw [List.length_append, entriesBytes_length]; omega)
  rw [take_entriesBytes] at hcut
  refine ⟨h.named, ?_, fun _ => ⟨junk.take (k * 8 - es.length * 8), ?_, ?_⟩,
    fun hn => absurd hnamed hn⟩
  · rw [Dir.set_file_ne d _ (by simp)]
    exact h.segment
  · rw [List.length_take]
    omega
  · rw [Dir.set_file_self]
    exact hcut

/-- Opening the index, which creates it where it is missing. -/
theorem touch (h : Shelf crc b ps rest es d) : Shelf crc b ps rest es (d.touch (.index b)) := by
  unfold Dir.touch
  split_ifs with hn
  · exact h
  · refine ⟨by simp [h.named], ?_, fun _ => ⟨[], by simp, ?_⟩, fun hn' => absurd (by simp) hn'⟩
    · rw [Dir.create_file_ne d (by simp)]
      exact h.segment
    · rw [Dir.create_file_self, h.fresh hn]
      exact File.holds_empty

end Shelf

end Shelf

section Noting

variable {crc : Checksum} {b k pos : Nat} {ps : List Bytes} {rest : Bytes}
variable {ix : Index} {s s' : Segment} {es : List IndexEntry} {d : Dir Path}
variable {F : Dir Path → Prop}

/-- `maybeIndex` is going to add an entry. -/
def Segment.Due (s : Segment) (pos : Nat) : Prop :=
  ¬ (0 < s.index.entries.length ∧ (pos : Int) - s.lastIndexed < indexIntervalBytes)

/-- The index file holds the entries in memory, or those and one more for record `k`. -/
def Logged (ix : Index) (k pos : Nat) (es : List IndexEntry) : Prop :=
  es = ix.entries ∨ es = ix.entries ++ [⟨k, pos⟩] ∧ pos < maxIndexableSegment

/-- What `maybeIndex` makes of the segment in memory when it succeeds. -/
def Segment.Notes (s : Segment) (k pos : Nat) (s' : Segment) : Prop :=
  ¬ s.Due pos ∧ s' = s ∨
    s.Due pos ∧ pos < maxIndexableSegment ∧
      s' = { s with
        index := ⟨s.index.file, s.index.entries ++ [⟨k, pos⟩]⟩
        lastIndexed := pos }

theorem Logged.placed (h : Logged ix k (position crc ps k) es) (hk : k ≤ ps.length)
    (hs : Placed crc ps ix.entries) : Placed crc ps es := by
  rcases h with rfl | ⟨rfl, hpos⟩
  · exact hs
  · exact hs.concat hk hpos

theorem Segment.Notes.placed (h : s.Notes k (position crc ps k) s') (hk : k ≤ ps.length)
    (hs : Placed crc ps s.index.entries) : Placed crc ps s'.index.entries := by
  rcases h with ⟨-, rfl⟩ | ⟨-, hpos, rfl⟩
  · exact hs
  · exact hs.concat hk hpos

/-- An index entry is missing for less than an interval. -/
theorem Segment.Notes.near (h : s.Notes k pos s') (hs : s.lastIndexed < maxIndexableSegment) :
    s'.lastIndexed < maxIndexableSegment ∧ pos < maxIndexableSegment + indexIntervalBytes := by
  rcases h with ⟨hdue, rfl⟩ | ⟨-, hpos, rfl⟩
  · have hclose := (not_not.mp hdue).2
    exact ⟨hs, by omega⟩
  · exact ⟨hpos, by omega⟩

/-- An entry is only added where its position fits. -/
theorem Segment.Notes.lt_of_due (h : s.Notes k pos s') (hdue : s.Due pos) :
    pos < maxIndexableSegment := by
  rcases h with ⟨hskip, -⟩ | ⟨-, hpos, -⟩
  · exact absurd hdue hskip
  · exact hpos

theorem Segment.Notes.fits (h : s.Notes k pos s') (hk : k < 2 ^ 32)
    (hs : ∀ e ∈ s.index.entries, e.Fits) : ∀ e ∈ s'.index.entries, e.Fits := by
  rcases h with ⟨-, rfl⟩ | ⟨-, hpos, rfl⟩
  · exact hs
  · rw [maxIndexableSegment_eq] at hpos
    exact List.forall_mem_append.mpr ⟨hs, List.forall_mem_singleton.mpr ⟨hk, hpos⟩⟩

theorem Segment.Notes.fields (h : s.Notes k pos s') :
    s'.file = s.file ∧ s'.index.file = s.index.file ∧ s'.baseOffset = s.baseOffset ∧
      s'.nextOffset = s.nextOffset ∧ s'.size = s.size := by
  rcases h with ⟨-, rfl⟩ | ⟨-, -, rfl⟩
  · exact ⟨rfl, rfl, rfl, rfl, rfl⟩
  · exact ⟨rfl, rfl, rfl, rfl, rfl⟩

/-- Whatever the file operations answer, `maybeIndex` does this or fails. -/
theorem maybeIndex_notes (s : Segment) (k pos : Nat) :
    Yields (fun r => ∀ s', r = .ok s' → s.Notes k pos s') (s.maybeIndex k pos) := by
  unfold Segment.maybeIndex
  by_cases hskip : 0 < s.index.entries.length ∧ (pos : Int) - s.lastIndexed < indexIntervalBytes
  · rw [if_pos hskip]
    rintro s' ⟨⟩
    exact Or.inl ⟨not_not.mpr hskip, rfl⟩
  · rw [if_neg hskip]
    unfold Index.append
    by_cases hpos : pos ≥ maxIndexableSegment
    · rw [if_pos hpos]
      intro s' hs'
      cases hs'
    · rw [if_neg hpos]
      refine yields_fs ?_
      rintro (e | _)
      · intro s' hs'
        cases hs'
      · rintro s' ⟨⟩
        exact Or.inr ⟨hskip, Nat.lt_of_not_le hpos, rfl⟩

/-- The segment in memory after an append that succeeds. -/
theorem segmentAppend_notes (crc : Checksum) (s : Segment) (p : Bytes) :
    Yields (fun r => ∀ off, r.2 = .ok off →
        ∃ s₁, s.Notes ((s.nextOffset - s.baseOffset) % 2 ^ 32) s.size s₁ ∧
          r.1 = { s₁ with
            size := s₁.size + (8 + p.length)
            nextOffset := s₁.nextOffset + 1 })
      (s.append crc p) := by
  unfold Segment.append
  by_cases hp : Legal p
  · rw [encodeRecord_of_legal hp]
    refine yields_fs ?_
    rintro (e | _)
    · intro off hoff
      cases hoff
    · refine yields_bind (maybeIndex_notes s _ _) ?_
      rintro (e | s₁) hnotes
      · intro off hoff
        cases hoff
      · intro off _
        rw [recordBytes_length]
        exact ⟨s₁, hnotes s₁ rfl, rfl⟩
  · rw [encodeRecord_of_not_legal hp]
    intro off hoff
    cases hoff

/-- Nothing but a legal payload is appended. -/
theorem legal_of_append {crc : Checksum} {p : Bytes} {w : World} {off : Nat}
    (h : (run LogOp.exec (s.append crc p) w).1 = (s', .ok off)) : Legal p := by
  by_contra hp
  unfold Segment.append at h
  rw [encodeRecord_of_not_legal hp] at h
  cases h

/-- The directory outside segment `b`, and its two files with an index that is there. -/
def Kept (crc : Checksum) (F : Dir Path → Prop) (b : Nat) (ps : List Bytes) (rest : Bytes)
    (es : List IndexEntry) (d : Dir Path) : Prop :=
  F d ∧ Path.index b ∈ d.names ∧ Shelf crc b ps rest es d

theorem Kept.steadfast (hF : Frame b F) : Steadfast (Kept crc F b ps rest es) :=
  hF.steadfast.and (Steadfast.and (fun d d' hd h => by rw [hd.1]; exact h) Shelf.steadfast)

/-- `index.append`, over a file that may already hold the entry. -/
theorem indexAppend_safely (hF : Frame b F) (hfile : ix.file = .index b) (hk : k ≤ ps.length)
    (hplaced : Placed crc ps ix.entries) (hes : Logged ix k (position crc ps k) es)
    (h : Kept crc F b ps rest es d) :
    Safely (fun u => F u ∧ ∃ es, Shelf crc b ps rest es u ∧ Placed crc ps es)
      (fun r u =>
        (∀ e, r = .error e → ∃ es, Logged ix k (position crc ps k) es ∧
          Kept crc F b ps rest es u) ∧
        ∀ ix', r = .ok ix' → position crc ps k < maxIndexableSegment ∧
          ix' = ⟨ix.file, ix.entries ++ [⟨k, position crc ps k⟩]⟩ ∧
          Kept crc F b ps rest ix'.entries u)
      (ix.append k (position crc ps k)) d := by
  have hinv : ∀ es, Logged ix k (position crc ps k) es → ∀ u, Kept crc F b ps rest es u →
      F u ∧ ∃ es, Shelf crc b ps rest es u ∧ Placed crc ps es :=
    fun es hes u hu => ⟨hu.1, es, hu.2.2, hes.placed hk hplaced⟩
  unfold Index.append
  by_cases hpos : position crc ps k ≥ maxIndexableSegment
  · rw [if_pos hpos]
    exact safely_done (Kept.steadfast hF) h fun u hu =>
      ⟨hinv es hes u hu, fun e _ => ⟨es, hes, hu⟩, (by intro ix' hix; cases hix)⟩
  · rw [if_neg hpos, hfile]
    have hlt := Nat.lt_of_not_le hpos
    have hset : ∀ u f, F u → F (u.set (.index b) f) :=
      fun u f hu => hF u _ (apart_set_index b u f) rfl hu
    have hes' : es = ix.entries ∨ es = ix.entries ++ [⟨k, position crc ps k⟩] :=
      hes.imp_right And.left
    refine safely_write (Kept.steadfast hF) h (hinv es hes) ?_ ?_
    · rintro u ⟨hu, hnamed, hshelf⟩
      obtain ⟨es', -, hfull, hshelf'⟩ := hshelf.writeEntry hnamed hes' 8
      rw [List.take_of_length_le (by simp), hfull (le_refl _)] at hshelf'
      refine safely_done (Kept.steadfast hF) ⟨hset u _ hu, hnamed, hshelf'⟩ fun v hv =>
        ⟨hinv _ (Or.inr ⟨rfl, hlt⟩) v hv, (by intro e he; cases he), ?_⟩
      rintro ix' ⟨⟩
      exact ⟨hlt, rfl, hv⟩
    · rintro u j ⟨hu, hnamed, hshelf⟩
      obtain ⟨es', hes', -, hshelf'⟩ := hshelf.writeEntry hnamed hes' j
      have hlogged : Logged ix k (position crc ps k) es' := hes'.imp_right fun he => ⟨he, hlt⟩
      exact safely_done (Kept.steadfast hF) ⟨hset u _ hu, hnamed, hshelf'⟩ fun v hv =>
        ⟨hinv es' hlogged v hv, fun e _ => ⟨es', hlogged, hv⟩, (by intro ix' hix; cases hix)⟩

/-- `maybeIndex`: an entry that stands in the file already is due, and is written again. -/
theorem maybeIndex_safely (hF : Frame b F) (hfile : s.index.file = .index b) (hk : k ≤ ps.length)
    (hplaced : Placed crc ps s.index.entries) (hes : Logged s.index k (position crc ps k) es)
    (hdue : es ≠ s.index.entries → s.Due (position crc ps k)) (h : Kept crc F b ps rest es d) :
    Safely (fun u => F u ∧ ∃ es, Shelf crc b ps rest es u ∧ Placed crc ps es)
      (fun r u =>
        (∀ e, r = .error e → s.Due (position crc ps k) ∧ ∃ es,
          Logged s.index k (position crc ps k) es ∧ Kept crc F b ps rest es u) ∧
        ∀ s', r = .ok s' → s.Notes k (position crc ps k) s' ∧
          Kept crc F b ps rest s'.index.entries u)
      (s.maybeIndex k (position crc ps k)) d := by
  unfold Segment.maybeIndex
  by_cases hskip : 0 < s.index.entries.length ∧
      ((position crc ps k : Nat) : Int) - s.lastIndexed < indexIntervalBytes
  · have hentries : es = s.index.entries := by
      by_contra hne
      exact hdue hne hskip
    subst hentries
    rw [if_pos hskip]
    refine safely_done (Kept.steadfast hF) h fun u hu =>
      ⟨⟨hu.1, _, hu.2.2, hplaced⟩, (by intro e he; cases he), ?_⟩
    rintro s' ⟨⟩
    exact ⟨Or.inl ⟨not_not.mpr hskip, rfl⟩, hu⟩
  · rw [if_neg hskip]
    refine safely_bind (indexAppend_safely hF hfile hk hplaced hes h) ?_
    rintro r u ⟨herror, hok⟩
    cases r with
    | error e =>
        obtain ⟨es', hes', hu⟩ := herror e rfl
        exact safely_done (Kept.steadfast hF) hu fun v hv =>
          ⟨⟨hv.1, es', hv.2.2, hes'.placed hk hplaced⟩, fun _ _ => ⟨hskip, es', hes', hv⟩,
            (by intro s' hs'; cases hs')⟩
    | ok ix =>
        obtain ⟨hpos, rfl, hu⟩ := hok ix rfl
        refine safely_done (Kept.steadfast hF) hu fun v hv =>
          ⟨⟨hv.1, _, hv.2.2, hplaced.concat hk hpos⟩, (by intro e he; cases he), ?_⟩
        rintro s' ⟨⟩
        exact ⟨Or.inr ⟨hskip, hpos, rfl⟩, hv⟩

end Noting

section Held

variable (crc : Checksum)

/-- Segment `b` on disk with the records `ps` and anything behind them. -/
structure Loose (b : Nat) (ps : List Bytes) (d : Dir Path) : Prop where
  legal : ∀ p ∈ ps, Legal p
  shelf : ∃ rest es, Shelf crc b ps rest es d ∧ Placed crc ps es

/-- Segment `b` on disk with the records `ps`, and no record behind them. -/
structure Resting (b : Nat) (ps : List Bytes) (d : Dir Path) : Prop where
  legal : ∀ p ∈ ps, Legal p
  shelf : ∃ rest es e, Shelf crc b ps rest es d ∧ Placed crc ps es ∧
    readRecord crc rest = .error e

/-- A segment in memory with the records `ps`.  The file may go on behind them, and the index
file may already hold the entry that the next append will add. -/
structure Held (b : Nat) (ps : List Bytes) (s : Segment) (d : Dir Path) : Prop where
  file : s.file = .segment b
  indexFile : s.index.file = .index b
  base : s.baseOffset = b
  next : s.nextOffset = b + ps.length
  size : s.size = position crc ps ps.length
  legal : ∀ p ∈ ps, Legal p
  near : ∀ k, k < ps.length → position crc ps k < maxIndexableSegment + indexIntervalBytes
  lastIndexed : s.lastIndexed < maxIndexableSegment
  placed : Placed crc ps s.index.entries
  indexNamed : Path.index b ∈ d.names
  shelf : ∃ rest es, Shelf crc b ps rest es d ∧
    Logged s.index ps.length (position crc ps ps.length) es ∧
    (es ≠ s.index.entries → s.Due (position crc ps ps.length))

variable {crc}
variable {b c : Nat} {ps : List Bytes} {s : Segment} {d d' : Dir Path} {F : Dir Path → Prop}

theorem Loose.apart (h : Loose crc b ps d) (hd : Apart c d d') (hne : b ≠ c) :
    Loose crc b ps d' := by
  obtain ⟨rest, es, hshelf, hplaced⟩ := h.shelf
  exact ⟨h.legal, rest, es, hshelf.apart hd hne, hplaced⟩

theorem Loose.steadfast : Steadfast (Loose crc b ps) :=
  fun _ _ hd h => h.apart (apart_sameBytes (b + 1) hd) (Nat.ne_of_lt (Nat.lt_succ_self b))

theorem Resting.apart (h : Resting crc b ps d) (hd : Apart c d d') (hne : b ≠ c) :
    Resting crc b ps d' := by
  obtain ⟨rest, es, e, hshelf, hplaced, hrest⟩ := h.shelf
  exact ⟨h.legal, rest, es, e, hshelf.apart hd hne, hplaced, hrest⟩

theorem Resting.steadfast : Steadfast (Resting crc b ps) :=
  fun _ _ hd h => h.apart (apart_sameBytes (b + 1) hd) (Nat.ne_of_lt (Nat.lt_succ_self b))

theorem Resting.loose (h : Resting crc b ps d) : Loose crc b ps d := by
  obtain ⟨rest, es, -, hshelf, hplaced, -⟩ := h.shelf
  exact ⟨h.legal, rest, es, hshelf, hplaced⟩

namespace Held

theorem apart (h : Held crc b ps s d) (hd : Apart c d d') (hne : b ≠ c) : Held crc b ps s d' := by
  obtain ⟨rest, es, hshelf, hes, hdue⟩ := h.shelf
  exact
    { h with
      indexNamed := (hd.named _ (by simp) (by simpa using hne)).mpr h.indexNamed
      shelf := ⟨rest, es, hshelf.apart hd hne, hes, hdue⟩ }

theorem steadfast : Steadfast (Held crc b ps s) :=
  fun _ _ hd h => h.apart (apart_sameBytes (b + 1) hd) (Nat.ne_of_lt (Nat.lt_succ_self b))

theorem loose (h : Held crc b ps s d) : Loose crc b ps d := by
  obtain ⟨rest, es, hshelf, hes, -⟩ := h.shelf
  exact ⟨h.legal, rest, es, hshelf, hes.placed (le_refl _) h.placed⟩

/-- A segment holds fewer records than a `uint32` counts. -/
theorem count (h : Held crc b ps s d) : ps.length < 2 ^ 32 :=
  length_lt_of_near h.near

/-- Reading: the record at the offset, or out of range. -/
theorem read_eq (h : Held crc b ps s d) {k : Nat} (hk : b ≤ k) :
    s.read crc (d.file s.file).data k =
      match ps[k - b]? with
      | some p => .ok p
      | none => .error (.offsetOutOfRange k) := by
  rcases Nat.lt_or_ge (k - b) ps.length with hlt | hge
  · obtain ⟨rest, es, hshelf, -, -⟩ := h.shelf
    have hdata : (d.file s.file).data =
        headerBytes s.baseOffset ++ recordsBytes crc ps ++ rest := by
      rw [h.file, h.base, hshelf.segment.data]
    have hread := @Segment.read_spec crc s ps rest h.legal (le_of_lt h.count)
      (fun e he _ => (h.placed e he).2.1) (by rw [h.next, h.base]) h.size (k - b) hlt
    rw [h.base, Nat.add_sub_cancel' hk] at hread
    rw [hdata, h.base, hread, List.getElem?_eq_getElem hlt]
  · rw [List.getElem?_eq_none hge]
    unfold Segment.read
    rw [if_pos (Or.inr (by rw [h.next]; omega))]

/-- The segment after a successful append. -/
theorem extend (h : Held crc b ps s d) {p : Bytes} (hp : Legal p) {s' : Segment} {rest : Bytes}
    (hnotes : s.Notes ps.length (position crc ps ps.length) s')
    (hd : Kept crc F b ps (recordBytes crc p ++ rest) s'.index.entries d') :
    Held crc b (ps ++ [p])
      { s' with size := s'.size + (recordBytes crc p).length, nextOffset := s'.nextOffset + 1 }
      d' := by
  obtain ⟨hfile, hindex, hbase, hnext, hsize⟩ := hnotes.fields
  obtain ⟨hlast, hpos⟩ := hnotes.near h.lastIndexed
  obtain ⟨-, hnamed, hshelf⟩ := hd
  refine ⟨hfile.trans h.file, hindex.trans h.indexFile, hbase.trans h.base, ?_, ?_, ?_, ?_, hlast,
    (hnotes.placed (le_refl _) h.placed).append_right [p], hnamed, rest, s'.index.entries, ?_,
    Or.inl rfl, fun hne => absurd rfl hne⟩
  · rw [hnext, h.next, List.length_append, List.length_singleton, Nat.add_assoc]
  · rw [hsize, h.size, position_length, position_length, recordsBytes_append, List.length_append]
    simp only [recordsBytes_cons, recordsBytes_nil, List.append_nil, Nat.add_assoc]
  · exact List.forall_mem_append.mpr ⟨h.legal, List.forall_mem_singleton.mpr hp⟩
  · intro k hk
    rw [List.length_append, List.length_singleton] at hk
    rw [position_append_left crc (Nat.le_of_lt_succ hk)]
    rcases Nat.lt_or_eq_of_le (Nat.le_of_lt_succ hk) with hlt | rfl
    · exact h.near k hlt
    · exact hpos
  · refine ⟨hshelf.named, ?_, hshelf.index, hshelf.fresh⟩
    have hseg := hshelf.segment
    rw [recordsBytes_append, recordsBytes_cons, recordsBytes_nil, List.append_nil]
    simpa only [List.append_assoc] using hseg

end Held

/-- What an append of `p` makes of a segment and its files. -/
structure Took (crc : Checksum) (F : Dir Path → Prop) (b : Nat) (ps : List Bytes)
    (s : Segment) (p : Bytes) (out : Segment × Except LogErr Nat) (d : Dir Path) : Prop where
  others : F d
  loose : Loose crc b ps d
  refused : ∀ e, out.2 = .error e → out.1 = s ∧ Held crc b ps s d
  stored : ∀ k, out.2 = .ok k → k = s.nextOffset ∧ Held crc b (ps ++ [p]) out.1 d

/-- `segment.append`: whatever fails, the segment keeps its records. -/
theorem append_safely (hF : Frame b F) (h : F d) (hs : Held crc b ps s d) (p : Bytes) :
    Safely (fun u => F u ∧ Loose crc b ps u) (Took crc F b ps s p) (s.append crc p) d := by
  have hst : Steadfast fun u => F u ∧ Held crc b ps s u := hF.steadfast.and Held.steadfast
  have hfailed : ∀ (e : LogErr) u, F u → Held crc b ps s u →
      Safely (fun u => F u ∧ Loose crc b ps u) (Took crc F b ps s p) (.done (s, .error e)) u :=
    fun e u hu hsu => safely_done hst ⟨hu, hsu⟩ fun v hv =>
      ⟨⟨hv.1, hv.2.loose⟩, hv.1, hv.2.loose, fun _ _ => ⟨rfl, hv.2⟩,
        (by intro k hk; cases hk)⟩
  unfold Segment.append
  by_cases hp : Legal p
  · rw [encodeRecord_of_legal hp]
    have hrel : (s.nextOffset - s.baseOffset) % 2 ^ 32 = ps.length := by
      rw [hs.next, hs.base, Nat.add_sub_cancel_left, Nat.mod_eq_of_lt hs.count]
    have hset : ∀ u f, F u → F (u.set (.segment b) f) :=
      fun u f hu => hF u _ (apart_set_segment b u f) rfl hu
    dsimp only
    rw [hs.file, hs.size, hrel]
    refine safely_write hst ⟨h, hs⟩ (fun u hu => ⟨hu.1, hu.2.loose⟩) ?_ ?_
    · -- the record is written: now its index entry, if one is due
      rintro u ⟨hu, hsu⟩
      obtain ⟨rest, es, hshelf, hes, hdue⟩ := hsu.shelf
      have hkept : Kept crc F b ps (recordBytes crc p ++ rest.drop (recordBytes crc p).length) es
          (u.set (.segment b)
            ((u.file (.segment b)).write (position crc ps ps.length) (recordBytes crc p))) :=
        ⟨hset u _ hu, hsu.indexNamed, hshelf.writeRecord _⟩
      refine safely_bind (safely_mono ?_ (fun _ _ hpost => hpost)
        (maybeIndex_safely hF hsu.indexFile (le_refl _) hsu.placed hes hdue hkept)) ?_
      · rintro v ⟨hv, es', hshelf', hplaced'⟩
        exact ⟨hv, hsu.legal, _, es', hshelf', hplaced'⟩
      · rintro r v ⟨herror, hok⟩
        cases r with
        | error e =>
            obtain ⟨hdue', es', hes', hv⟩ := herror e rfl
            exact hfailed e v hv.1
              { hsu with
                indexNamed := hv.2.1
                shelf := ⟨_, es', hv.2.2, hes', fun _ => hdue'⟩ }
        | ok s' =>
            obtain ⟨hnotes, hv⟩ := hok s' rfl
            have hplaced := hnotes.placed (le_refl _) hsu.placed
            refine safely_done ((Kept.steadfast hF).and Held.steadfast)
              ⟨hv, hsu.extend hp hnotes hv⟩ fun x hx => ?_
            have hloose : Loose crc b ps x := ⟨hsu.legal, _, _, hx.1.2.2, hplaced⟩
            refine ⟨⟨hx.1.1, hloose⟩, hx.1.1, hloose, (by intro e he; cases he), ?_⟩
            rintro k ⟨⟩
            exact ⟨rfl, hx.2⟩
    · -- part of the record is left behind the tracked end
      rintro u j ⟨hu, hsu⟩
      obtain ⟨rest, es, hshelf, hes, hdue⟩ := hsu.shelf
      exact hfailed _ _ (hset u _ hu)
        { hsu with shelf := ⟨_, es, hshelf.writeRecord _, hes, hdue⟩ }
  · rw [encodeRecord_of_not_legal hp]
    exact hfailed _ d h hs

end Held

end LedgerLine.Broker
