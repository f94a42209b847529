import LedgerLine.Broker.Recovery
import LedgerLine.Broker.Stream

/-!
# Opening a healthy segment with any index

The segment file begins with a header; the index file holds whatever it holds.  An index with
no complete entry is rebuilt, and so is one whose last entry points outside the file.
Otherwise `recover` of `broker/log/segment.go` trusts the last entry: it starts reading there,
and cuts the file at the first position where it cannot read a record.

Main facts:
* `opened_of_stand`, `stand_of_opened`: the file is left as it is exactly if it ends with whole
  records from there on, and no entry falls due beyond what an entry can hold;
* `openSegment_honest`: that is so if every entry names a record and the position where it
  starts (`Harmless`), in any order.
-/

namespace LedgerLine.Broker

open Program

/-- The segment file is as it was. -/
abbrev SameSegment (name : Nat) (f : File) (w : World) : Prop :=
  w.dir.file (.segment name) = f

/-- Where `recover` starts to read, and the index it goes on with: the last entry if it points
inside a file of `size` bytes, and otherwise the first record. -/
def Index.resume (ix : Index) (size : Nat) : Index × IndexEntry :=
  match ix.last with
  | none => (ix, ⟨0, segmentHeaderSize⟩)
  | some e =>
      if segmentHeaderSize ≤ e.position ∧ e.position < size then (ix, e)
      else (⟨ix.file, []⟩, ⟨0, segmentHeaderSize⟩)

/-- The entries that fall due while `recover` reads records from `position` on, the latest one
at `last`, if there is one. -/
def dueEntries : List Bytes → Bool → Nat → Nat → Nat → List IndexEntry
  | [], _, _, _, _ => []
  | q :: qs, any, last, position, rel =>
      if any ∧ (position : Int) - last < indexIntervalBytes then
        dueEntries qs any last (position + (8 + q.length)) ((rel + 1) % 2 ^ 32)
      else
        ⟨rel, position⟩ ::
          dueEntries qs true position (position + (8 + q.length)) ((rel + 1) % 2 ^ 32)

/-- The entries that fall due when recovery goes on from `r` and reads `qs`. -/
def dueFrom (r : Index × IndexEntry) (qs : List Bytes) : List IndexEntry :=
  dueEntries qs (0 < r.1.entries.length) r.2.position r.2.position r.2.relOffset

/-- The index with these entries. -/
def completeFrom (r : Index × IndexEntry) (qs : List Bytes) : Index :=
  ⟨r.1.file, r.1.entries ++ dueFrom r qs⟩

section Recover

variable {crc : Checksum} {name b : Nat} {s : Segment} {w : World}

theorem run_maybeIndex (s : Segment) (rel pos : Nat) (w : World) :
    run LogOp.exec (s.maybeIndex rel pos) w =
      if 0 < s.index.entries.length ∧ (pos : Int) - s.lastIndexed < indexIntervalBytes then
        (.ok s, w)
      else if pos < maxIndexableSegment then
        (.ok
          { s with
            index := ⟨s.index.file, s.index.entries ++ [⟨rel, pos⟩]⟩
            lastIndexed := pos }, { w with dir := addEntry w.dir s rel pos })
      else (.error (.indexPosition pos), w) := by
  split_ifs with hskip hfits
  · exact (@maybeIndex_skip (fun _ => True) s w rel pos hskip trivial).run_eq
  · exact (@maybeIndex_add (fun _ => True) s w rel pos hskip hfits trivial trivial).run_eq
  · rw [Segment.maybeIndex, if_neg hskip, Index.append, if_pos (Nat.le_of_not_lt hfits)]
    rfl

variable {k : Segment → Nat → Nat → LogProgram (Except LogErr Segment)}

/-- Where every entry that falls due fits, all of them are added. -/
theorem run_indexRecords {qs : List Bytes} {position rel : Nat}
    (hindex : s.index.file = .index name)
    (hfit : ∀ e ∈ dueEntries qs (0 < s.index.entries.length) s.lastIndexed position rel,
      e.position < maxIndexableSegment) :
    ∃ w' last rel', SameSegment name (w.dir.file (.segment name)) w' ∧
      ((qs = [] → rel < 2 ^ 32) → rel' = (rel + qs.length) % 2 ^ 32) ∧
      run LogOp.exec (Segment.indexRecords k qs s position rel) w =
        run LogOp.exec
          (k { s with
                index := ⟨s.index.file, s.index.entries ++
                  dueEntries qs (0 < s.index.entries.length) s.lastIndexed position rel⟩
                lastIndexed := last } (position + (recordsBytes crc qs).length) rel') w' := by
  induction qs generalizing s position rel w with
  | nil =>
      refine ⟨w, s.lastIndexed, rel, rfl, fun hrel => (Nat.mod_eq_of_lt (hrel rfl)).symm, ?_⟩
      rw [Segment.indexRecords, dueEntries, List.append_nil, recordsBytes_nil, List.length_nil,
        Nat.add_zero]
  | cons q qs ih =>
      have hlen : position + (8 + q.length) + (recordsBytes crc qs).length =
          position + (recordsBytes crc (q :: qs)).length := by
        rw [recordsBytes_cons, List.length_append, recordBytes_length]
        omega
      have hcount : ∀ rel', ((qs = [] → (rel + 1) % 2 ^ 32 < 2 ^ 32) →
            rel' = ((rel + 1) % 2 ^ 32 + qs.length) % 2 ^ 32) →
          rel' = (rel + (q :: qs).length) % 2 ^ 32 := by
        intro rel' h
        rw [h fun _ => Nat.mod_lt _ (by decide), List.length_cons]
        omega
      simp only [Segment.indexRecords, run_bind, run_maybeIndex]
      simp only [dueEntries, decide_eq_true_eq] at hfit ⊢
      split_ifs at hfit ⊢ with hskip hpos
      · obtain ⟨w', last, rel', hsame, hrel', hrun⟩ := ih (w := w) hindex hfit
        rw [hlen] at hrun
        exact ⟨w', last, rel', hsame, fun _ => hcount rel' hrel', hrun⟩
      · obtain ⟨w', last, rel', hsame, hrel', hrun⟩ :=
          ih (w := { w with dir := addEntry w.dir s rel position })
            (s := { s with
              index := ⟨s.index.file, s.index.entries ++ [⟨rel, position⟩]⟩
              lastIndexed := position })
            hindex (by simpa using (List.forall_mem_cons.1 hfit).2)
        have hfile : (addEntry w.dir s rel position).file (.segment name) =
            w.dir.file (.segment name) := by
          rw [addEntry, hindex, Dir.set_file_ne _ _ (by simp)]
        rw [hlen] at hrun
        refine ⟨w', last, rel', hsame.trans hfile, fun _ => hcount rel' hrel', hrun.trans ?_⟩
        simp
      · exact absurd (hfit _ List.mem_cons_self) hpos

theorem run_scanFrom (hfile : s.file = .segment name) {data : Bytes}
    (hdata : (w.dir.file (.segment name)).data = data) (position rel : Nat) :
    run LogOp.exec (s.scanFrom crc position rel) w =
      run LogOp.exec
        (Segment.indexRecords (Segment.finishScan (scanRecords crc (data.drop position)).2)
          (scanRecords crc (data.drop position)).1 { s with lastIndexed := position } position
          rel) w := by
  rw [Segment.scanFrom, run_fs, hfile]
  simp only [FsOp.exec, hdata]
  rw [recoverLoop_eq (Nat.lt_succ_self _)]
  rfl

/-- `recover` scans from the place where it resumes. -/
theorem run_recover (hfile : s.file = .segment name) (hindex : s.index.file = .index name)
    {size : Nat} (hsize : (w.dir.file (.segment name)).data.length = size) :
    ∃ w', SameSegment name (w.dir.file (.segment name)) w' ∧
      run LogOp.exec (s.recover crc) w =
        run LogOp.exec
          (Segment.scanFrom crc { s with index := (s.index.resume size).1 }
            (s.index.resume size).2.position (s.index.resume size).2.relOffset) w' := by
  have hstat : (w.dir.file s.file).data.length = size := by
    rw [hfile]
    exact hsize
  rw [Segment.recover, run_fs, Index.resume]
  simp only [FsOp.exec, hstat]
  rcases s.index.last with _ | e
  · exact ⟨w, rfl, rfl⟩
  by_cases hin : segmentHeaderSize ≤ e.position ∧ e.position < size
  · simp only [if_pos hin]
    exact ⟨w, rfl, rfl⟩
  · simp only [if_neg hin]
    refine ⟨⟨w.dir.set s.index.file ((w.dir.file s.index.file).truncate 0), w.coord⟩, ?_, rfl⟩
    rw [hindex]
    exact Dir.set_file_ne _ _ (by simp)

end Recover

section Open

variable {crc : Checksum} {name b : Nat} {d : Dir Path} {data : Bytes}
  {r : Index × IndexEntry} {ps qs : List Bytes} {s : Segment} {w : World}

/-- Recovery starts inside the file, or at its end with the first record, and keeps to the index
file. -/
theorem resume_spec {ix : Index} {size : Nat} (hr : ix.resume size = r)
    (hsize : segmentHeaderSize ≤ size) :
    r.1.file = ix.file ∧ r.2.position ≤ size ∧ (r.2.position = size → r.2.relOffset = 0) := by
  subst hr
  rw [Index.resume]
  split
  · exact ⟨rfl, hsize, fun _ => rfl⟩
  · split_ifs with hin
    · exact ⟨rfl, le_of_lt hin.2, fun h => absurd h (ne_of_lt hin.2)⟩
    · exact ⟨rfl, hsize, fun _ => rfl⟩

/-- The index as `openIndex` loads it. -/
def loadedIndex (d : Dir Path) (name : Nat) : Index :=
  ⟨.index name, indexEntries d name⟩

/-- The segment in memory once `qs` have been read from `r` on. -/
structure OpenedFrom (name b size : Nat) (r : Index × IndexEntry) (qs : List Bytes)
    (s : Segment) : Prop where
  file : s.file = .segment name
  base : s.baseOffset = b
  index : s.index = completeFrom r qs
  next : s.nextOffset = b + (r.2.relOffset + qs.length) % 2 ^ 32
  size : s.size = size

variable (c : Coord) (hnamed : Path.segment name ∈ d.names) (hb : b < 2 ^ 64) {t : Bytes}
  (hfile : (d.file (.segment name)).data = data) (hdata : data = headerBytes b ++ t)
  (hr : (loadedIndex d name).resume data.length = r)

include hnamed hb hfile hdata hr

/-- `openSegment` of a file with a header: the records from `r` on are indexed, and the end is
dealt with. -/
theorem run_openSegment :
    ∃ w, SameSegment name (d.file (.segment name)) w ∧
      run LogOp.exec (openSegment crc name) ⟨d, c⟩ =
        run LogOp.exec
          (Segment.indexRecords
            (Segment.finishScan (scanRecords crc (data.drop r.2.position)).2)
            (scanRecords crc (data.drop r.2.position)).1
            { file := .segment name
              index := r.1
              baseOffset := b
              nextOffset := b
              size := segmentHeaderSize
              lastIndexed := r.2.position } r.2.position r.2.relOffset) w := by
  have hsame : (d.touch (.index name)).file (.segment name) = d.file (.segment name) :=
    Dir.touch_file_ne _ (by simp)
  have hopen := (@openSegment_of_header crc b name t (fun _ => True) ⟨d, c⟩ _ _ hnamed hb
    (hfile.trans hdata) trivial trivial (runs_run _ _)).run_eq
  obtain ⟨w, hw, hrecover⟩ := @run_recover crc name
    { loadedSegment name (indexEntries d name) with baseOffset := b, nextOffset := b }
    ⟨d.touch (.index name), c⟩ rfl rfl data.length (by rw [hsame, hfile])
  have hw' : SameSegment name (d.file (.segment name)) w := hw.trans hsame
  subst hr
  refine ⟨w, hw', hopen.trans (hrecover.trans ?_)⟩
  exact run_scanFrom rfl (by rw [hw', hfile]) _ _

/-- A segment file that ends with whole records from `r` on is opened as it is. -/
theorem opened_of_stand (hlegal : ∀ q ∈ qs, Legal q)
    (hstand : data.drop r.2.position = recordsBytes crc qs)
    (hfit : ∀ e ∈ dueFrom r qs, e.position < maxIndexableSegment) :
    ∃ s w, run LogOp.exec (openSegment crc name) ⟨d, c⟩ = (.ok s, w) ∧
      SameSegment name (d.file (.segment name)) w ∧ OpenedFrom name b data.length r qs s := by
  have hlen := congrArg List.length hstand
  rw [List.length_drop] at hlen
  obtain ⟨hindex, hle, hend⟩ := resume_spec hr (by simp [hdata])
  have hrel : qs = [] → r.2.relOffset < 2 ^ 32 := by
    rintro rfl
    rw [hend (by simp at hlen; omega)]
    decide
  obtain ⟨w, hw, hrun⟩ := @run_openSegment crc name b d data r c hnamed hb t hfile hdata hr
  rw [hstand, scanRecords_recordsBytes hlegal] at hrun
  obtain ⟨w', last, rel, hsame, hcount, hscan⟩ := @run_indexRecords crc name
    ⟨.segment name, r.1, b, b, segmentHeaderSize, r.2.position⟩ w (Segment.finishScan .eof) qs
    r.2.position r.2.relOffset hindex hfit
  refine ⟨_, w', hrun.trans hscan, hsame.trans hw, rfl, rfl, rfl, ?_, ?_⟩
  · rw [← hcount hrel]
  · change r.2.position + _ = _
    omega

end Open

section Honest

variable (crc : Checksum)

/-- Every entry names a record of `ps` and the position where it starts. -/
def Honest (ps : List Bytes) (es : List IndexEntry) : Prop :=
  ∀ e ∈ es, e.relOffset < ps.length ∧ e.position = position crc ps e.relOffset

/-- The index has no complete entry, or its last one points outside the segment file, or
all of them are honest. -/
def Harmless (d : Dir Path) (name : Nat) (ps : List Bytes) : Prop :=
  (∀ e, (indexEntries d name).getLast? = some e →
      e.position < segmentHeaderSize ∨ (d.file (.segment name)).data.length ≤ e.position) ∨
    Honest crc ps (indexEntries d name)

/-- A segment in memory with honest entries, while it is recovered or after. -/
structure HonestSegment (name b : Nat) (ps : List Bytes) (s : Segment) : Prop where
  file : s.file = .segment name
  indexFile : s.index.file = .index name
  base : s.baseOffset = b
  entries : Honest crc ps s.index.entries

variable {crc}
variable {name b : Nat} {ps : List Bytes} {d : Dir Path}

theorem drop_records (crc : Checksum) (b : Nat) (ps : List Bytes) (k : Nat) :
    (headerBytes b ++ recordsBytes crc ps).drop (position crc ps k) =
      recordsBytes crc (ps.drop k) := by
  have h := drop_position crc b ps [] k
  rwa [List.append_nil, List.append_nil] at h

/-- The entries that fall due over whole records, from record `k` on. -/
theorem dueEntries_honest {k : Nat} (hk : k ≤ ps.length) (hcount : ps.length < 2 ^ 32) (any : Bool)
    (last : Nat) : Honest crc ps (dueEntries (ps.drop k) any last (position crc ps k) k) := by
  induction hqs : ps.drop k generalizing k any last with
  | nil =>
      exact List.forall_mem_nil _
  | cons q qs ih =>
      have hlt : k < ps.length := by
        have hlen := congrArg List.length hqs
        rw [List.length_drop, List.length_cons] at hlen
        omega
      rw [List.drop_eq_getElem_cons hlt, List.cons.injEq] at hqs
      obtain ⟨rfl, hqs⟩ := hqs
      have hrest := fun any last => ih hlt any last hqs
      rw [dueEntries, ← position_succ crc hlt, Nat.mod_eq_of_lt (by omega : k + 1 < 2 ^ 32)]
      split_ifs
      · exact hrest any last
      · exact List.forall_mem_cons.2 ⟨⟨hlt, rfl⟩, hrest true _⟩

/-- Recovery with a harmless index resumes at a record, with honest entries. -/
theorem Harmless.resume (hharm : Harmless crc d name ps) :
    ∃ k ≤ ps.length,
      ((loadedIndex d name).resume (d.file (.segment name)).data.length).2 =
        ⟨k, position crc ps k⟩ ∧
      Honest crc ps
        ((loadedIndex d name).resume (d.file (.segment name)).data.length).1.entries := by
  have hstart : (⟨0, segmentHeaderSize⟩ : IndexEntry) = ⟨0, position crc ps 0⟩ := by
    simp
  rw [Index.resume]
  split
  · rename_i hlast
    have hnil := List.getLast?_eq_none_iff.mp hlast
    exact ⟨0, Nat.zero_le _, hstart, by rw [hnil]; exact List.forall_mem_nil _⟩
  · rename_i e hlast
    split_ifs with hin
    · -- the entry is trusted, and rightly so
      have hhonest := hharm.resolve_left fun hout => by
        have := hout e hlast
        omega
      obtain ⟨hlt, hpos⟩ := hhonest e (List.mem_of_getLast? hlast)
      exact ⟨e.relOffset, le_of_lt hlt, by rw [← hpos], hhonest⟩
    · exact ⟨0, Nat.zero_le _, hstart, List.forall_mem_nil _⟩

/-- Opening a whole segment with a harmless index does not touch the segment file, and gives a
segment with all its records and honest entries. -/
theorem openSegment_honest (c : Coord) (hnamed : Path.segment name ∈ d.names) (hb : b < 2 ^ 64)
    (hdata : (d.file (.segment name)).data = headerBytes b ++ recordsBytes crc ps)
    (hlegal : ∀ p ∈ ps, Legal p) (hidx : Indexable crc ps) (hharm : Harmless crc d name ps) :
    ∃ s w, run LogOp.exec (openSegment crc name) ⟨d, c⟩ = (.ok s, w) ∧
      SameSegment name (d.file (.segment name)) w ∧
      HonestSegment crc name b ps s ∧ s.nextOffset = b + ps.length ∧
      s.size = position crc ps ps.length := by
  obtain ⟨k, hk, hstart, hentries⟩ := hharm.resume
  have hcount := hidx.length_lt
  have hdue : Honest crc ps (dueFrom
      ((loadedIndex d name).resume (d.file (.segment name)).data.length) (ps.drop k)) := by
    rw [dueFrom, hstart]
    exact dueEntries_honest hk hcount _ _
  obtain ⟨s, w, hrun, hsame, hopened⟩ := @opened_of_stand crc name b d _ _ (ps.drop k) c hnamed hb
    _ rfl hdata rfl (fun q hq => hlegal q (List.mem_of_mem_drop hq))
    (by rw [hstart, hdata]; exact drop_records crc b ps k)
    (fun e he => by rw [(hdue e he).2]; exact hidx _ (hdue e he).1)
  refine ⟨s, w, hrun, hsame, ⟨hopened.file, ?_, hopened.base, ?_⟩, ?_, ?_⟩
  · rw [hopened.index]
    exact (resume_spec rfl (by simp [hdata])).1
  · rw [hopened.index]
    exact fun e he => (List.mem_append.1 he).elim (hentries e) (hdue e)
  · rw [hopened.next, hstart, List.length_drop, Nat.add_sub_of_le hk, Nat.mod_eq_of_lt hcount]
  · rw [hopened.size, hdata, List.length_append, headerBytes_length, position_length]

end Honest

end LedgerLine.Broker
