import LedgerLine.Broker.Storage

/-!
# What Open and Append do to a log

`OpenLog d pss l` says that the log `l` in memory agrees with the directory `d`, its
segments holding the records `pss`.  `Open` establishes it and `Append` keeps it; at
every point on the way the log is on disk with the old records, or with the new one
added, except that between the creation of a segment file and the write of its header
the directory holds an empty segment file (`Headless`).

Main facts:
* `createSegment_runs`, `segmentAppend_runs`: the two ways the directory grows;
* `openLog_runs`: opening a log that is on disk, or an empty directory;
* `appendLocked_runs`: one append under the log's mutex;
* `OpenLog.read_eq`: reading.
-/

namespace LedgerLine.Broker

open Program

variable {crc : Checksum}

section Create

/-- The directory once a segment file has been created, before its header is written. -/
def headless (d : Dir Path) (b : Nat) : Dir Path :=
  d.create (.segment b)

/-- The directory once the header has been written. -/
def headed (d : Dir Path) (b : Nat) : Dir Path :=
  (headless d b).set (.segment b) (File.empty.write 0 (headerBytes b))

/-- The directory once the index file is there too. -/
def born (d : Dir Path) (b : Nat) : Dir Path :=
  (headed d b).touch (.index b)

/-- A segment in memory with no records. -/
def newSegment (b : Nat) : Segment :=
  { file := .segment b
    index := ⟨.index b, []⟩
    baseOffset := b
    nextOffset := b
    size := segmentHeaderSize
    lastIndexed := segmentHeaderSize }

variable {d : Dir Path} {b : Nat}

theorem headed_file_segment (d : Dir Path) (b : Nat) :
    (headed d b).file (.segment b) = File.empty.write 0 (headerBytes b) := by
  simp [headed]

theorem headed_file_ne (d : Dir Path) {b : Nat} {p : Path} (hp : p ≠ .segment b) :
    (headed d b).file p = d.file p := by
  simp [headed, headless, hp]

theorem headed_tidy (htidy : d.Tidy) : (headed d b).Tidy :=
  (htidy.create _).set (by simp) _

/-- The new segment is stored as soon as its header is. -/
theorem stored_headed (htidy : d.Tidy) (hidx : Path.index b ∉ d.names) :
    Stored crc (headed d b) b [] 0 [] [] := by
  refine ⟨by simp [headed, headless], ?_, ?_, tornTail_nil (le_refl _), ?_, Truthful.nil []⟩
  · rw [headed_file_segment]
    exact (File.grows_base []).write (headerBytes b)
  · rw [headed_file_segment, File.data_write, File.data_empty]
    simpa using overwrite_end [] (headerBytes b)
  · rw [headed_file_ne d (by simp), htidy _ hidx]
    exact IndexFile.empty

theorem createSegment_runs {inv : World → Prop} {w : World} (hfree : Path.segment b ∉ w.dir.names)
    (htidy : w.dir.Tidy) (hidx : Path.index b ∉ w.dir.names) (h₀ : inv w)
    (h₁ : inv { w with dir := headless w.dir b }) (h₂ : inv { w with dir := headed w.dir b })
    (h₃ : inv { w with dir := born w.dir b }) :
    Runs LogOp.exec inv (createSegment b) w (.ok (newSegment b))
      { w with dir := born w.dir b } := by
  have hix := @openIndex_any inv { w with dir := headed w.dir b } b h₂ h₃
  rw [indexEntries_eq (headed_tidy htidy)
    (by rw [headed_file_ne _ (by simp), htidy _ hidx]; exact IndexFile.empty) (by simp)] at hix
  unfold createSegment
  refine runs_fs h₀ ?_
  simp only [FsOp.exec, if_neg hfree]
  refine runs_fs h₁ ?_
  simp only [FsOp.exec, Dir.create_file_self]
  exact hix.bind (.done h₃)

end Create

section SegmentAppend

variable (crc)

/-- How the directory may look while a record `p` is added to the segment `b` with
records `ps`, once the record has been written. -/
structure Extended (d₀ : Dir Path) (b : Nat) (ps : List Bytes) (p : Bytes) (d : Dir Path) :
    Prop where
  names : d.names = d₀.names
  tidy : d.Tidy
  others : ∀ q, q ≠ .segment b → q ≠ .index b → d.file q = d₀.file q
  segment : d.file (.segment b) =
    (d₀.file (.segment b)).write (position crc ps ps.length) (recordBytes crc p)
  stored : ∃ es, Stored crc d b (ps ++ [p]) (ps ++ [p]).length [] es

variable {crc}
variable {d : Dir Path} {b : Nat} {ps : List Bytes} {p : Bytes} {s : Segment}

/-- The segment file after the record has been written at its end. -/
theorem Stored.write_record {es : List IndexEntry} (h : Stored crc d b ps ps.length [] es)
    (d' : Dir Path) (hnamed : Path.segment b ∈ d'.names)
    (hseg : d'.file (.segment b) =
      (d.file (.segment b)).write (position crc ps ps.length) (recordBytes crc p))
    {es' : List IndexEntry} (hidx : IndexFile (d'.file (.index b)) es')
    (ht : Truthful crc (ps ++ [p]) es') :
    Stored crc d' b (ps ++ [p]) (ps ++ [p]).length [] es' := by
  have hlen : position crc ps ps.length = (d.file (.segment b)).data.length := by
    rw [h.length_data, List.length_nil, Nat.add_zero]
  refine ⟨hnamed, ?_, ?_, tornTail_nil (le_refl _), hidx, ht⟩
  · rw [hseg, hlen]
    exact h.grows.write _
  · rw [hseg, hlen, File.data_write, overwrite_end, h.data, List.take_length, List.take_length]
    simp

/-- The entry for a record just written. -/
theorem maybeIndex_extended {d₀ : Dir Path} {w : World} {c : Coord}
    (hfits : ¬ (0 < s.index.entries.length ∧
        ((position crc ps ps.length : Nat) : Int) - s.lastIndexed < indexIntervalBytes) →
      position crc ps ps.length < maxIndexableSegment) (hfile : s.index.file = .index b)
    (hnamed : Path.index b ∈ w.dir.names) (hext : Extended crc d₀ b ps p w.dir)
    (h₀ : Stored crc d₀ b ps ps.length [] s.index.entries)
    (hentries : IndexFile (w.dir.file (.index b)) s.index.entries) (hc : w.coord = c) :
    ∃ es i w', Runs LogOp.exec
        (fun u => (u.dir = d₀ ∨ Extended crc d₀ b ps p u.dir) ∧ u.coord = c)
        (s.maybeIndex ps.length (position crc ps ps.length)) w
        (.ok { s with index := ⟨.index b, es⟩, lastIndexed := i }) w' ∧
      Extended crc d₀ b ps p w'.dir ∧ Path.index b ∈ w'.dir.names ∧
      Stored crc w'.dir b (ps ++ [p]) (ps ++ [p]).length [] es := by
  have hlt : ps.length < (ps ++ [p]).length := by
    simp
  have hpos : position crc (ps ++ [p]) ps.length = position crc ps ps.length :=
    position_append_left crc (le_refl _)
  have ht : Truthful crc (ps ++ [p]) s.index.entries := h₀.truthful.append_right [p]
  have hsegNamed : Path.segment b ∈ w.dir.names := by
    rw [hext.names]
    exact h₀.named
  by_cases hdue : 0 < s.index.entries.length ∧
      ((position crc ps ps.length : Nat) : Int) - s.lastIndexed < indexIntervalBytes
  · refine ⟨s.index.entries, s.lastIndexed, w, ?_, hext, hnamed,
      h₀.write_record w.dir hsegNamed hext.segment hentries ht⟩
    rw [← hfile]
    exact maybeIndex_skip hdue ⟨Or.inr hext, hc⟩
  · have hbefore : ∀ e ∈ s.index.entries, e.relOffset < ps.length :=
      fun e he => (h₀.truthful.honest e he).1
    have ht' := ht.concat hlt hbefore
    rw [hpos] at ht'
    let f := (w.dir.file (.index b)).write (s.index.entries.length * 8)
      (entryBytes ⟨ps.length, position crc ps ps.length⟩)
    have hd : addEntry w.dir s ps.length (position crc ps ps.length) =
        w.dir.set (.index b) f := by
      rw [addEntry, hfile]
    have hf : IndexFile f (s.index.entries ++ [⟨ps.length, position crc ps ps.length⟩]) :=
      hentries.append _
    have hs' : Stored crc (w.dir.set (.index b) f) b (ps ++ [p]) (ps ++ [p]).length []
        (s.index.entries ++ [⟨ps.length, position crc ps ps.length⟩]) := by
      refine h₀.write_record (w.dir.set (.index b) f) hsegNamed ?_ ?_ ht'
      · rw [Dir.set_file_ne _ _ (by simp)]
        exact hext.segment
      · rw [Dir.set_file_self]
        exact hf
    have hext' : Extended crc d₀ b ps p (w.dir.set (.index b) f) := by
      refine ⟨hext.names, hext.tidy.set hnamed f, ?_, ?_, _, hs'⟩
      · intro q hs hi
        rw [Dir.set_file_ne _ _ hi]
        exact hext.others q hs hi
      · rw [Dir.set_file_ne _ _ (by simp)]
        exact hext.segment
    have hrun := @maybeIndex_add
      (fun u => (u.dir = d₀ ∨ Extended crc d₀ b ps p u.dir) ∧ u.coord = c) s w ps.length
      (position crc ps ps.length) hdue (hfits hdue) ⟨Or.inr hext, hc⟩
      ⟨Or.inr (by rw [hd]; exact hext'), hc⟩
    rw [hd, hfile] at hrun
    exact ⟨_, _, _, hrun, hext', hnamed, hs'⟩

/-- `segment.append` of a legal record that needs no index entry or can have one. -/
theorem segmentAppend_of_fits {w : World} (h : OpenSegment crc w.dir b ps s)
    (htidy : w.dir.Tidy) (hp : Legal p) (hcount : ps.length < 2 ^ 32)
    (hfits : ¬ (0 < s.index.entries.length ∧
        ((position crc ps ps.length : Nat) : Int) - s.lastIndexed < indexIntervalBytes) →
      position crc ps ps.length < maxIndexableSegment) :
    ∃ s' w', Runs LogOp.exec
        (fun u => (u.dir = w.dir ∨ Extended crc w.dir b ps p u.dir) ∧ u.coord = w.coord)
        (s.append crc p) w (s', .ok (b + ps.length)) w' ∧
      OpenSegment crc w'.dir b (ps ++ [p]) s' ∧ Extended crc w.dir b ps p w'.dir := by
  let f := (w.dir.file (.segment b)).write (position crc ps ps.length) (recordBytes crc p)
  have hrel : (s.nextOffset - s.baseOffset) % 2 ^ 32 = ps.length := by
    rw [h.next, h.base, Nat.add_sub_cancel_left, Nat.mod_eq_of_lt hcount]
  have hsize : position crc ps ps.length + (recordBytes crc p).length =
      position crc (ps ++ [p]) (ps ++ [p]).length := by
    rw [position_length, position_length]
    simp
    omega
  have hix : IndexFile ((w.dir.set (.segment b) f).file (.index b)) s.index.entries := by
    rw [Dir.set_file_ne _ _ (by simp)]
    exact h.stored.index
  have hext : Extended crc w.dir b ps p (w.dir.set (.segment b) f) := by
    refine ⟨rfl, htidy.set h.stored.named f, ?_, Dir.set_file_self _ _ _, s.index.entries, ?_⟩
    · intro q hs _
      exact Dir.set_file_ne _ _ hs
    · exact h.stored.write_record (w.dir.set (.segment b) f) h.stored.named
        (Dir.set_file_self _ _ _) hix (h.stored.truthful.append_right [p])
  obtain ⟨es, i, w', hrun, hext', hnamed', hs'⟩ :=
    @maybeIndex_extended crc b ps p s w.dir { w with dir := w.dir.set (.segment b) f } w.coord
      hfits h.indexFile h.indexNamed hext h.stored hix rfl
  refine ⟨{ s with
      index := ⟨.index b, es⟩
      lastIndexed := i
      size := s.size + (recordBytes crc p).length
      nextOffset := s.nextOffset + 1 }, w', ?_, ?_, hext'⟩
  · unfold Segment.append
    rw [encodeRecord_of_legal hp]
    refine runs_fs ⟨Or.inl rfl, rfl⟩ ?_
    simp only [FsOp.exec, h.file, hrel]
    rw [h.size, ← h.next]
    refine hrun.bind ?_
    simp only [h.file, h.size]
    exact .done ⟨Or.inr hext', hrun.final.2⟩
  · refine ⟨h.file, rfl, h.base, ?_, ?_, hnamed', hs'⟩
    · simp only [h.next, List.length_append, List.length_singleton]
      omega
    · simp only [h.size]
      exact hsize

/-- `segment.append` of a legal record whose place can be indexed. -/
theorem segmentAppend_runs {w : World} (h : OpenSegment crc w.dir b ps s)
    (htidy : w.dir.Tidy) (hp : Legal p) (hidx : Indexable crc (ps ++ [p])) :
    ∃ s' w', Runs LogOp.exec
        (fun u => (u.dir = w.dir ∨ Extended crc w.dir b ps p u.dir) ∧ u.coord = w.coord)
        (s.append crc p) w (s', .ok (b + ps.length)) w' ∧
      OpenSegment crc w'.dir b (ps ++ [p]) s' ∧ Extended crc w.dir b ps p w'.dir := by
  have hlt : ps.length < (ps ++ [p]).length := by
    simp
  refine segmentAppend_of_fits h htidy hp (hidx.lt hlt) ?_
  intro _
  rw [← position_append_left crc (le_refl _)]
  exact hidx _ hlt

end SegmentAppend

section Healthy

/-- Segments that have lost nothing. -/
def fulls (pss : List (List Bytes)) : List Part :=
  pss.map Part.full

@[simp] theorem fulls_kept (pss : List (List Bytes)) :
    (fulls pss).map Part.kept = pss.map List.length := by
  simp [fulls, Function.comp_def]

@[simp] theorem fulls_records (pss : List (List Bytes)) : (fulls pss).map Part.records = pss := by
  simp [fulls, Function.comp_def]

theorem fulls_append (pss rss : List (List Bytes)) :
    fulls (pss ++ rss) = fulls pss ++ fulls rss := by
  simp [fulls]

variable (crc)

/-- The directory holds a log with the records `pss`, segment by segment; when `strict`,
every segment but the last is durable. -/
structure Healthy (strict : Prop) (d : Dir Path) (pss : List (List Bytes)) : Prop where
  onDisk : OnDisk crc d (fulls pss)
  settled : strict → SettledFrom crc d 0 (fulls pss.dropLast)
  nonempty : pss ≠ []

/-- The directory holds the log `pss` and, after it, a segment file with nothing in it:
the state between creating a segment file and writing its header. -/
def Headless (strict : Prop) (d : Dir Path) (pss : List (List Bytes)) : Prop :=
  ∃ d₀, OnDisk crc d₀ (fulls pss) ∧ (strict → SettledFrom crc d₀ 0 (fulls pss)) ∧
    (∀ c ∈ bases 0 (pss.map List.length), c < pss.flatten.length) ∧
    d = headless d₀ pss.flatten.length

variable {crc}
variable {strict : Prop} {d d' : Dir Path} {pss : List (List Bytes)} {b : Nat} {qs : List Part}

theorem SettledFrom.congr (h : SettledFrom crc d b qs)
    (hfiles : ∀ c ∈ bases b (qs.map Part.kept),
      (d.file (.segment c)).durable.length ≤ (d'.file (.segment c)).durable.length) :
    SettledFrom crc d' b qs := by
  induction qs generalizing b with
  | nil => trivial
  | cons q qs ih =>
      obtain ⟨hq, hqs⟩ := h
      refine ⟨le_trans hq (hfiles b (by simp)), ih hqs ?_⟩
      intro c hc
      exact hfiles c (by simp [hc])

theorem Healthy.syncLe (h : Healthy crc strict d pss) (hs : d.SyncLe d') :
    Healthy crc strict d' pss := by
  refine ⟨h.onDisk.syncLe hs, ?_, h.nonempty⟩
  intro hstrict
  exact (h.settled hstrict).congr (fun c _ => (hs.2 _).durable_length_le)

/-- The last segment of a log starts where the others end. -/
theorem bases_lt_of_last {ps : List Bytes} (hps : ps ≠ []) :
    ∀ c ∈ bases 0 ((pss ++ [ps]).map List.length), c < (pss ++ [ps]).flatten.length := by
  intro c hc
  have hpos : 0 < ps.length := List.length_pos_iff.mpr hps
  rw [List.map_append, bases_append] at hc
  rw [List.flatten_append, List.length_append, List.length_flatten]
  rcases List.mem_append.mp hc with hc | hc
  · have := bases_le_sum hc
    simp
    omega
  · simp at hc
    simp
    omega

/-- A log with a new segment at its end. -/
theorem OnDisk.headed (h : OnDisk crc d (fulls pss))
    (hlt : ∀ c ∈ bases 0 (pss.map List.length), c < pss.flatten.length) :
    OnDisk crc (headed d pss.flatten.length) (fulls (pss ++ [[]])) := by
  have hsum : (pss.map List.length).sum = pss.flatten.length := by
    rw [List.length_flatten]
  have hbases : bases 0 ((fulls (pss ++ [[]])).map Part.kept) =
      bases 0 (pss.map List.length) ++ [pss.flatten.length] := by
    rw [fulls_kept, List.map_append, bases_append, Nat.zero_add, hsum]
    rfl
  have hnames := h.names
  have hsorted := h.sorted
  rw [fulls_kept] at hnames hsorted
  have hfresh : Path.index pss.flatten.length ∉ d.names := by
    intro hmem
    exact absurd (hlt _ (hnames.mem_iff.mp (h.indexed _ hmem))) (lt_irrefl _)
  have hoffsets : segmentOffsets (Broker.headed d pss.flatten.length).names =
      segmentOffsets d.names ++ [pss.flatten.length] := by
    simp [Broker.headed, headless, segmentOffsets]
  refine ⟨headed_tidy h.tidy, ?_, ?_, ?_, ?_, ?_, ?_⟩
  · rw [hbases, hoffsets]
    exact hnames.append_right _
  · rw [hbases, List.pairwise_append]
    refine ⟨hsorted, List.pairwise_singleton _ _, ?_⟩
    intro c hc c' hc'
    rw [List.mem_singleton.mp hc']
    exact hlt c hc
  · intro c hc
    rw [hoffsets]
    refine List.mem_append_left _ (h.indexed c ?_)
    simpa [Broker.headed, headless] using hc
  · intro q hq
    rw [fulls_append] at hq
    rcases List.mem_append.mp hq with hq | hq
    · exact h.legal q hq
    · rw [List.mem_singleton.mp hq]
      simp
  · intro q hq
    rw [fulls_append] at hq
    rcases List.mem_append.mp hq with hq | hq
    · exact h.indexable q hq
    · rw [List.mem_singleton.mp hq]
      intro k hk
      simp at hk
  · rw [fulls_append]
    refine storedFrom_append.mpr ⟨h.stored.congr ?_ ?_, ⟨[], [], ?_⟩, trivial⟩
    · intro p hp
      simp [Broker.headed, headless, hp]
    · intro c hc
      rw [fulls_kept] at hc
      have hne : c ≠ pss.flatten.length := ne_of_lt (hlt c hc)
      exact ⟨headed_file_ne d (by simpa using hne), headed_file_ne d (by simp)⟩
    · rw [fulls_kept, hsum, Nat.zero_add]
      exact stored_headed h.tidy hfresh

end Healthy

section OpenLog

variable (crc)

/-- The log in memory agrees with the directory. -/
structure OpenLog (d : Dir Path) (pss : List (List Bytes)) (l : Log) : Prop where
  onDisk : OnDisk crc d (fulls pss)
  segments : OpenFrom crc d 0 pss l.segments
  nonempty : pss ≠ []

variable {crc}
variable {d d₀ d' : Dir Path} {pss : List (List Bytes)} {ss : List Segment} {b : Nat}
variable {qs : List Part}

theorem OpenFrom.storedFrom (h : OpenFrom crc d b pss ss) : StoredFrom crc d b (fulls pss) := by
  induction pss generalizing b ss with
  | nil => trivial
  | cons ps pss ih =>
      cases ss with
      | nil => exact h.elim
      | cons s ss =>
          exact ⟨⟨[], _, h.1.stored⟩, ih h.2⟩

theorem OpenFrom.congr (h : OpenFrom crc d b pss ss) (hnames : d.names ⊆ d'.names)
    (hfiles : ∀ c ∈ bases b (pss.map List.length),
      d'.file (.segment c) = d.file (.segment c) ∧ d'.file (.index c) = d.file (.index c)) :
    OpenFrom crc d' b pss ss := by
  induction pss generalizing b ss with
  | nil =>
      cases ss with
      | nil => trivial
      | cons s ss => exact h.elim
  | cons ps pss ih =>
      cases ss with
      | nil => exact h.elim
      | cons s ss =>
          obtain ⟨hseg, hidx⟩ := hfiles b (by simp)
          exact ⟨h.1.congr hnames hseg hidx, ih h.2 (fun c hc => hfiles c (by simp [hc]))⟩

/-- The last segment in memory is the one for the last records. -/
theorem openFrom_concat {ps : List Bytes} :
    OpenFrom crc d b (pss ++ [ps]) ss ↔
      ∃ init s, ss = init ++ [s] ∧ OpenFrom crc d b pss init ∧
        OpenSegment crc d (b + pss.flatten.length) ps s := by
  induction pss generalizing b ss with
  | nil =>
      cases ss with
      | nil => simp [OpenFrom]
      | cons s ss =>
          cases ss with
          | nil =>
              constructor
              · intro h
                exact ⟨[], s, rfl, trivial, h.1⟩
              · rintro ⟨init, t, heq, hinit, ht⟩
                cases init with
                | nil =>
                    cases heq
                    exact ⟨ht, trivial⟩
                | cons x xs => exact hinit.elim
          | cons t ts =>
              constructor
              · intro h
                exact h.2.elim
              · rintro ⟨init, u, heq, hinit, _⟩
                cases init with
                | nil => cases heq
                | cons x xs => exact hinit.elim
  | cons qs pss ih =>
      cases ss with
      | nil => simp [OpenFrom]
      | cons s ss =>
          rw [List.cons_append, OpenFrom, ih]
          constructor
          · rintro ⟨hs, init, t, rfl, hinit, ht⟩
            refine ⟨s :: init, t, rfl, ⟨hs, hinit⟩, ?_⟩
            rw [List.flatten_cons, List.length_append, ← Nat.add_assoc]
            exact ht
          · rintro ⟨init, t, heq, hinit, ht⟩
            cases init with
            | nil => exact hinit.elim
            | cons x xs =>
                cases heq
                rw [List.flatten_cons, List.length_append, ← Nat.add_assoc] at ht
                exact ⟨hinit.1, xs, t, rfl, hinit.2, ht⟩

/-- A log that is being opened is on disk. -/
theorem Recovering.onDisk (h : Recovering crc d₀ 0 qs d) (h₀ : OnDisk crc d₀ qs) :
    OnDisk crc d qs := by
  refine ⟨h.tidy, ?_, h₀.sorted, ?_, h₀.legal, h₀.indexable, h.stored⟩
  · rw [h.segments]
    exact h₀.names
  · intro c hc
    rw [h.segments]
    rcases h.indexes c hc with hc | hc
    · exact h₀.indexed c hc
    · exact h₀.names.mem_iff.mpr hc

theorem StoredFrom.kept_le (h : StoredFrom crc d b qs) : ∀ q ∈ qs, q.kept ≤ q.all.length := by
  induction qs generalizing b with
  | nil => simp
  | cons q qs ih =>
      obtain ⟨⟨tail, es, hq⟩, hqs⟩ := h
      intro r hr
      rcases List.mem_cons.mp hr with rfl | hr
      · exact hq.torn.1
      · exact ih hqs r hr

/-- Once a log is open, what was lost is forgotten. -/
theorem OnDisk.forget (h : OnDisk crc d qs) (hopen : OpenFrom crc d 0 (qs.map Part.records) ss) :
    OnDisk crc d (fulls (qs.map Part.records)) := by
  have hkept : (fulls (qs.map Part.records)).map Part.kept = qs.map Part.kept := by
    rw [fulls_kept, List.map_map]
    apply List.map_congr_left
    intro q hq
    simp [Part.records, Nat.min_eq_left (h.stored.kept_le q hq)]
  refine ⟨h.tidy, ?_, ?_, h.indexed, ?_, ?_, hopen.storedFrom⟩
  · rw [hkept]
    exact h.names
  · rw [hkept]
    exact h.sorted
  · refine List.forall_mem_map.mpr fun ps hps => ?_
    obtain ⟨q, hq, rfl⟩ := List.mem_map.mp hps
    intro p hp
    exact h.legal q hq p (List.mem_of_mem_take hp)
  · refine List.forall_mem_map.mpr fun ps hps => ?_
    obtain ⟨q, hq, rfl⟩ := List.mem_map.mp hps
    have hidx := h.indexable q hq
    rw [← List.take_append_drop q.kept q.all] at hidx
    exact hidx.append_left

/-- The segments found in the directory, in order. -/
theorem OnDisk.sort_eq (h : OnDisk crc d qs) :
    (segmentOffsets d.names).insertionSort (· ≤ ·) = bases 0 (qs.map Part.kept) := by
  apply List.Perm.eq_of_pairwise' (List.pairwise_insertionSort _ _)
    (h.sorted.imp (fun hlt => le_of_lt hlt))
  exact (List.perm_insertionSort _ _).trans h.names

/-- Opening a log that is on disk. -/
theorem openLog_runs {w : World} (h : OnDisk crc w.dir qs) (hne : qs ≠ [])
    (hfit : (qs.map Part.kept).sum < 2 ^ 64) (opts : Options) :
    ∃ ss w', Runs LogOp.exec (fun u => Recovering crc w.dir 0 qs u.dir ∧ u.coord = w.coord)
        (openLog crc opts) w (.ok ⟨opts.withDefaults, ss, 0, 0⟩) w' ∧
      OpenLog crc w'.dir (qs.map Part.records) ⟨opts.withDefaults, ss, 0, 0⟩ := by
  obtain ⟨ss, w', hrun, hopen⟩ := openSegments_runs h.tidy h.stored h.sorted (by omega)
    h.legal h.indexable []
  rw [List.nil_append] at hrun
  have hss : ss ≠ [] := by
    rintro rfl
    cases qs with
    | nil => exact hne rfl
    | cons q qs => exact hopen.elim
  refine ⟨ss, w', ?_, (hrun.final.1.onDisk h).forget hopen, hopen, ?_⟩
  · have hlist : Runs LogOp.exec
        (fun u => Recovering crc w.dir 0 qs u.dir ∧ u.coord = w.coord) listSegmentOffsets w
        (.ok (bases 0 (qs.map Part.kept))) w := by
      unfold listSegmentOffsets
      refine runs_fs hrun.start ?_
      simp only [FsOp.exec, h.sort_eq]
      exact .done hrun.start
    unfold openLog
    refine hlist.bind (hrun.bind ?_)
    cases ss with
    | nil => exact absurd rfl hss
    | cons s ss => exact .done hrun.final
  · intro hnil
    exact hne (List.map_eq_nil_iff.mp hnil)

end OpenLog

section NewSegment

variable {strict : Prop} {d : Dir Path} {pss : List (List Bytes)} {qs : List Part} {b : Nat}

/-- Adding the index file of a segment that is there. -/
theorem OnDisk.touch (h : OnDisk crc d qs) (hb : b ∈ segmentOffsets d.names) :
    OnDisk crc (d.touch (.index b)) qs := by
  refine ⟨h.tidy.touch _, ?_, h.sorted, ?_, h.legal, h.indexable, ?_⟩
  · rw [segmentOffsets_touch_index]
    exact h.names
  · intro c hc
    rw [segmentOffsets_touch_index]
    rcases mem_touch_index hc with hc | rfl
    · exact h.indexed c hc
    · exact hb
  · refine h.stored.congr (d.names_subset_touch _) ?_
    intro c _
    exact ⟨h.tidy.touch_file _ _, h.tidy.touch_file _ _⟩

/-- A segment file is created at the end of the log. -/
theorem healthy_headed (h : OnDisk crc d (fulls pss))
    (hset : strict → SettledFrom crc d 0 (fulls pss))
    (hlt : ∀ c ∈ bases 0 (pss.map List.length), c < pss.flatten.length) :
    Healthy crc strict (headed d pss.flatten.length) (pss ++ [[]]) := by
  refine ⟨h.headed hlt, ?_, by simp⟩
  intro hstrict
  rw [List.dropLast_concat]
  refine (hset hstrict).congr ?_
  intro c hc
  rw [fulls_kept] at hc
  rw [headed_file_ne d (by simpa using ne_of_lt (hlt c hc))]

theorem mem_segmentOffsets {names : List Path} {c : Nat} :
    c ∈ segmentOffsets names ↔ Path.segment c ∈ names := by
  unfold segmentOffsets
  rw [List.mem_filterMap]
  constructor
  · rintro ⟨p, hp, heq⟩
    cases p with
    | segment b =>
        cases heq
        exact hp
    | index b => cases heq
  · intro h
    exact ⟨.segment c, h, rfl⟩

theorem healthy_born (h : OnDisk crc d (fulls pss))
    (hset : strict → SettledFrom crc d 0 (fulls pss))
    (hlt : ∀ c ∈ bases 0 (pss.map List.length), c < pss.flatten.length) :
    Healthy crc strict (born d pss.flatten.length) (pss ++ [[]]) := by
  have hh := healthy_headed h hset hlt
  have hmem : pss.flatten.length ∈ segmentOffsets (headed d pss.flatten.length).names := by
    rw [mem_segmentOffsets]
    simp [headed, headless]
  refine ⟨hh.onDisk.touch hmem, ?_, by simp⟩
  intro hstrict
  refine (hh.settled hstrict).congr ?_
  intro c _
  rw [born, hh.onDisk.tidy.touch_file]

/-- The points of `createSegment` at the end of a log. -/
def CreatePoint (crc : Checksum) (strict : Prop) (d₀ : Dir Path)
    (pss : List (List Bytes)) (d : Dir Path) : Prop :=
  d = d₀ ∨ Headless crc strict d pss ∨ Healthy crc strict d (pss ++ [[]])

/-- Creating a segment at the end of a log. -/
theorem createSegment_healthy {w : World} (h : OnDisk crc w.dir (fulls pss))
    (hset : strict → SettledFrom crc w.dir 0 (fulls pss))
    (hlt : ∀ c ∈ bases 0 (pss.map List.length), c < pss.flatten.length) :
    Runs LogOp.exec
        (fun u => CreatePoint crc strict w.dir pss u.dir ∧ u.coord = w.coord)
        (createSegment pss.flatten.length) w (.ok (newSegment pss.flatten.length))
        { w with dir := born w.dir pss.flatten.length } ∧
      OpenSegment crc (born w.dir pss.flatten.length) pss.flatten.length []
        (newSegment pss.flatten.length) := by
  have hnotin : pss.flatten.length ∉ segmentOffsets w.dir.names := by
    intro hmem
    have hmem' := h.names.mem_iff.mp hmem
    rw [fulls_kept] at hmem'
    exact absurd (hlt _ hmem') (lt_irrefl _)
  have hfree : Path.segment pss.flatten.length ∉ w.dir.names :=
    fun hmem => hnotin (mem_segmentOffsets.mpr hmem)
  have hidx : Path.index pss.flatten.length ∉ w.dir.names :=
    fun hmem => hnotin (h.indexed _ hmem)
  have hstored := @stored_headed crc _ _ h.tidy hidx
  have htidy := @headed_tidy w.dir pss.flatten.length h.tidy
  refine ⟨createSegment_runs hfree h.tidy hidx ⟨Or.inl rfl, rfl⟩ ?_ ?_ ?_, ?_⟩
  · exact ⟨Or.inr (Or.inl ⟨w.dir, h, hset, hlt, rfl⟩), rfl⟩
  · exact ⟨Or.inr (Or.inr (healthy_headed h hset hlt)), rfl⟩
  · exact ⟨Or.inr (Or.inr (healthy_born h hset hlt)), rfl⟩
  · refine ⟨rfl, rfl, rfl, rfl, ?_, Dir.mem_names_touch _ _, ?_⟩
    · simp [newSegment]
    · exact hstored.congr (Dir.names_subset_touch _ _) (htidy.touch_file _ _)
        (htidy.touch_file _ _)

/-- Opening an empty directory creates the first segment. -/
theorem openLog_empty_runs {w : World} (h : OnDisk crc w.dir []) (opts : Options) :
    Runs LogOp.exec (fun u => CreatePoint crc strict w.dir [] u.dir ∧ u.coord = w.coord)
        (openLog crc opts) w (.ok ⟨opts.withDefaults, [newSegment 0], 0, 0⟩)
        { w with dir := born w.dir 0 } ∧
      OpenLog crc (born w.dir 0) [[]] ⟨opts.withDefaults, [newSegment 0], 0, 0⟩ := by
  obtain ⟨hrun, hopen⟩ := @createSegment_healthy crc strict [] w h (fun _ => trivial) (by simp)
  refine ⟨?_, (@healthy_born crc strict _ [] h (fun _ => trivial) (by simp)).onDisk,
    ⟨hopen, trivial⟩, by simp⟩
  have hlist : Runs LogOp.exec
      (fun u => CreatePoint crc strict w.dir [] u.dir ∧ u.coord = w.coord)
      listSegmentOffsets w (.ok []) w := by
    unfold listSegmentOffsets
    refine runs_fs ⟨Or.inl rfl, rfl⟩ ?_
    simp only [FsOp.exec, h.sort_eq]
    exact .done ⟨Or.inl rfl, rfl⟩
  unfold openLog
  refine hlist.bind ?_
  exact hrun.bind (.done hrun.final)

end NewSegment

end LedgerLine.Broker
