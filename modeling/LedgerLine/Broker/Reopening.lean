import LedgerLine.Broker.Residue

/-!
# Opening segments with bytes behind their records

Recovery reads records as long as the bytes parse, whoever wrote them: a record that can be
read from what a failed append has left is a record of the reopened segment (`Loose.resting`).
Everything it reads is on disk before and after, wherever the scan is cut off.

Main facts:
* `indexRecords_opens`, `recover_opens`, `openSegment_opens`: opening a segment, or failing to,
  changes none of its records;
* `createSegment_safely`: a new segment, whose file has no header at first.
-/

namespace LedgerLine.Broker

open Program

variable {crc : Checksum} {b c k : Nat} {ps all : List Bytes} {rest : Bytes}
variable {s : Segment} {es : List IndexEntry} {d d' : Dir Path} {F G : Dir Path → Prop}

section Scanned

/-- The records that a scan of segment `b` finds from byte `n` on. -/
def behind (crc : Checksum) (b n : Nat) (d : Dir Path) : List Bytes :=
  (scanRecords crc ((d.file (.segment b)).data.drop n)).1

/-- What can be read behind the records of a segment are records of it too. -/
theorem Loose.resting (h : Loose crc b ps d) :
    Resting crc b (ps ++ behind crc b (position crc ps ps.length) d) d := by
  obtain ⟨rest, es, hshelf, hplaced⟩ := h.shelf
  have hbehind : behind crc b (position crc ps ps.length) d = (scanRecords crc rest).1 := by
    rw [behind, hshelf.segment.data, drop_position, List.drop_length, recordsBytes_nil,
      List.nil_append]
  obtain ⟨hlegal, rest', hrest, hend⟩ := scanRecords_sound crc rest
  rw [hbehind]
  refine ⟨?_, rest', es, _, ⟨hshelf.named, ?_, hshelf.index, hshelf.fresh⟩,
    hplaced.append_right _, hend⟩
  · exact List.forall_mem_append.mpr ⟨h.legal, hlegal⟩
  · have hseg := hshelf.segment
    rw [hrest] at hseg
    rw [recordsBytes_append]
    simpa only [List.append_assoc] using hseg

/-- A segment in memory while it is scanned, before record `k`. -/
structure Sweeping (crc : Checksum) (b : Nat) (all : List Bytes) (k : Nat) (s : Segment) :
    Prop where
  file : s.file = .segment b
  indexFile : s.index.file = .index b
  base : s.baseOffset = b
  placed : Placed crc all s.index.entries
  lastIndexed : s.lastIndexed < maxIndexableSegment
  near : ∀ j, j < k → position crc all j < maxIndexableSegment + indexIntervalBytes

/-- A segment whose records do not change is opened, or is not. -/
def Opens (crc : Checksum) (F : Dir Path → Prop) (b : Nat) (all : List Bytes)
    (prog : LogProgram (Except LogErr Segment)) (d : Dir Path) : Prop :=
  Safely (fun u => F u ∧ Resting crc b all u)
    (fun r u => (F u ∧ Resting crc b all u) ∧ ∀ s, r = .ok s → Held crc b all s u) prog d

/-- The segment and its files at the end of a scan that found everything in order. -/
theorem Sweeping.held {ix : Index} (h : Sweeping crc b all all.length s)
    (hlegal : ∀ p ∈ all, Legal p) (hfile : ix.file = .index b)
    (hplaced : Placed crc all ix.entries) (hd : Kept crc F b all rest ix.entries d) :
    Held crc b all
      { s with
        index := ix
        size := position crc all all.length
        nextOffset := s.baseOffset + all.length } d :=
  ⟨h.file, hfile, h.base, by rw [h.base], rfl, hlegal, h.near, h.lastIndexed, hplaced, hd.2.1,
    rest, ix.entries, hd.2.2, Or.inl rfl, fun hne => absurd rfl hne⟩

theorem opens_done (hF : Frame b F) (hs : Sweeping crc b all all.length s)
    (hlegal : ∀ p ∈ all, Legal p) {ix : Index} (hfile : ix.file = .index b)
    (hplaced : Placed crc all ix.entries) (hd : Kept crc F b all [] ix.entries d) :
    Opens crc F b all
      (.done (.ok
        { s with
          index := ix
          size := position crc all all.length
          nextOffset := s.baseOffset + all.length })) d := by
  refine safely_done (Kept.steadfast hF) hd fun u hu => ?_
  have hresting : F u ∧ Resting crc b all u :=
    ⟨hu.1, hlegal, [], _, _, hu.2.2, hplaced, readRecord_nil⟩
  refine ⟨hresting, hresting, ?_⟩
  rintro s' ⟨⟩
  exact hs.held hlegal hfile hplaced hu

theorem opens_error (hF : Frame b F) (h : F d) (hd : Resting crc b all d) (e : LogErr) :
    Opens crc F b all (.done (.error e)) d :=
  safely_done (hF.steadfast.and Resting.steadfast) ⟨h, hd⟩ fun u hu =>
    ⟨hu, hu, (by intro s hs; cases hs)⟩

variable {e : LogErr}

/-- Cutting off what cannot be read. -/
theorem cutTail_opens (hF : Frame b F) (hs : Sweeping crc b all all.length s)
    (hlegal : ∀ p ∈ all, Legal p) (hrest : readRecord crc rest = .error e)
    (hd : Kept crc F b all rest s.index.entries d) :
    Opens crc F b all
      (Segment.recoverLoop.cutTail s (position crc all all.length) all.length) d := by
  let kept := s.index.entries.takeWhile fun e => decide (e.position < position crc all all.length)
  have hkept : kept <+: s.index.entries := List.takeWhile_prefix _
  have hplaced : Placed crc all kept := hs.placed.subset hkept.subset
  unfold Segment.recoverLoop.cutTail
  rw [hs.file]
  refine safely_sure id (Kept.steadfast hF) hd
    (fun u hu => ⟨hu.1, hlegal, _, _, _, hu.2.2, hs.placed, hrest⟩) ?_
  rintro u ⟨hu, hnamed, hshelf⟩
  have hcut : Kept crc F b all [] s.index.entries
      (u.set (.segment b)
        ((u.file (.segment b)).truncate (position crc all all.length))) :=
    ⟨hF u _ (apart_set_segment b u _) rfl hu, hnamed, hshelf.cutSegment⟩
  simp only [FsOp.exec]
  unfold Index.truncateFrom
  rw [hs.indexFile]
  refine safely_sure id (Kept.steadfast hF) hcut
    (fun v hv => ⟨hv.1, hlegal, [], _, _, hv.2.2, hs.placed, readRecord_nil⟩) ?_
  rintro v ⟨hv, hnamed', hshelf'⟩
  have hshelf'' := hshelf'.cutIndex hnamed' hkept.length_le
  rw [← List.prefix_iff_eq_take.mp hkept] at hshelf''
  have hdone := opens_done hF hs hlegal
    (show (Index.mk (.index b) kept).file = .index b from rfl) hplaced
    ⟨hF v _ (apart_set_index b v _) rfl hv, hnamed', hshelf''⟩
  rw [hs.file] at hdone
  exact hdone

/-- The end of the scan. -/
theorem finishScan_opens (hF : Frame b F) (hs : Sweeping crc b all all.length s)
    (hlegal : ∀ p ∈ all, Legal p) (hrest : readRecord crc rest = .error e)
    (hd : Kept crc F b all rest s.index.entries d) :
    Opens crc F b all (Segment.finishScan e s (position crc all all.length) all.length) d := by
  rcases readRecord_error hrest with ⟨rfl, rfl⟩ | rfl | rfl
  · exact opens_done hF hs hlegal hs.indexFile hs.placed hd
  · exact cutTail_opens hF hs hlegal hrest hd
  · exact cutTail_opens hF hs hlegal hrest hd

/-- The scan from record `k` on. -/
theorem indexRecords_opens (hF : Frame b F) (hlegal : ∀ p ∈ all, Legal p)
    (hrest : readRecord crc rest = .error e) {qs : List Bytes} (hqs : all.drop k = qs)
    (hk : k ≤ all.length) (hs : Sweeping crc b all k s)
    (hd : Kept crc F b all rest s.index.entries d) :
    Opens crc F b all
      (Segment.indexRecords (Segment.finishScan e) qs s (position crc all k) k) d := by
  induction qs generalizing k s d with
  | nil =>
      obtain rfl : k = all.length := le_antisymm hk (List.drop_eq_nil_iff.mp hqs)
      exact finishScan_opens hF hs hlegal hrest hd
  | cons q qs ih =>
      have hlt : k < all.length := by
        by_contra hge
        rw [List.drop_eq_nil_of_le (Nat.le_of_not_lt hge)] at hqs
        cases hqs
      rw [List.drop_eq_getElem_cons hlt, List.cons.injEq] at hqs
      obtain ⟨rfl, hqs⟩ := hqs
      refine safely_bind (safely_mono ?_ (fun _ _ hpost => hpost)
        (maybeIndex_safely hF hs.indexFile hk hs.placed (Or.inl rfl)
          (fun hne => absurd rfl hne) hd)) ?_
      · rintro u ⟨hu, es, hshelf, hplaced⟩
        exact ⟨hu, hlegal, rest, es, e, hshelf, hplaced, hrest⟩
      · rintro r u ⟨herror, hok⟩
        cases r with
        | error e' =>
            obtain ⟨-, es, hes, hu⟩ := herror e' rfl
            exact opens_error hF hu.1
              ⟨hlegal, rest, es, e, hu.2.2, hes.placed hk hs.placed, hrest⟩ e'
        | ok s' =>
            obtain ⟨hnotes, hu⟩ := hok s' rfl
            obtain ⟨hfile, hindex, hbase, -, -⟩ := hnotes.fields
            obtain ⟨hlast, hpos⟩ := hnotes.near hs.lastIndexed
            have hcount : (k + 1) % 2 ^ 32 = k + 1 := by
              have := le_position crc hk
              rw [maxIndexableSegment_eq, indexIntervalBytes_eq] at hpos
              exact Nat.mod_eq_of_lt (by omega)
            dsimp only
            rw [hcount, ← position_succ crc hlt]
            refine ih hqs hlt ⟨hfile.trans hs.file, hindex.trans hs.indexFile,
              hbase.trans hs.base, hnotes.placed hk hs.placed, hlast, ?_⟩ hu
            intro j hj
            rcases Nat.lt_or_eq_of_le (Nat.le_of_lt_succ hj) with hjk | rfl
            · exact hs.near j hjk
            · exact hpos

/-- Scanning from record `k` on, where an entry points or the records begin. -/
theorem scanFrom_opens (hF : Frame b F) (hlegal : ∀ p ∈ all, Legal p) {e : LogErr}
    (hrest : readRecord crc rest = .error e) (hk : k ≤ all.length)
    (hpos : position crc all k < maxIndexableSegment) (hfile : s.file = .segment b)
    (hindex : s.index.file = .index b) (hbase : s.baseOffset = b)
    (hplaced : Placed crc all s.index.entries) (hd : Kept crc F b all rest s.index.entries d) :
    Opens crc F b all (s.scanFrom crc (position crc all k) k) d := by
  have hs : Sweeping crc b all k { s with lastIndexed := position crc all k } := by
    refine ⟨hfile, hindex, hbase, hplaced, hpos, fun j hj => ?_⟩
    have := position_mono crc all (le_of_lt hj)
    omega
  have hdrop : ∀ p ∈ all.drop k, Legal p := fun p hp => hlegal p (List.mem_of_mem_drop hp)
  unfold Segment.scanFrom
  rw [hfile]
  refine safely_sure id (Kept.steadfast hF) hd
    (fun u hu => ⟨hu.1, hlegal, rest, _, e, hu.2.2, hplaced, hrest⟩) ?_
  intro u hu
  have hscan : ∀ fuel, (recordsBytes crc (all.drop k) ++ rest).length < fuel →
      scanLoop crc fuel (recordsBytes crc (all.drop k) ++ rest) = (all.drop k, e) := by
    intro fuel hfuel
    refine scanLoop_recordsBytes hdrop (lt_of_le_of_lt ?_ hfuel) hrest
    rw [List.length_append]
    exact le_trans (length_le_recordsBytes _) (Nat.le_add_right _ _)
  simp only [FsOp.exec, hu.2.2.segment.data, drop_position]
  rw [recoverLoop_eq (Nat.lt_succ_self _), hscan _ (Nat.lt_succ_self _)]
  rw [hfile] at hs
  exact indexRecords_opens hF hlegal hrest rfl hk hs hu

/-- `recover`: the last entry is trusted if it points into the file, and otherwise the index
is dropped. -/
theorem recover_opens (hF : Frame b F) (hlegal : ∀ p ∈ all, Legal p)
    (hrest : readRecord crc rest = .error e) (hfile : s.file = .segment b)
    (hindex : s.index.file = .index b) (hbase : s.baseOffset = b)
    (hplaced : Placed crc all s.index.entries) (hd : Kept crc F b all rest s.index.entries d) :
    Opens crc F b all (s.recover crc) d := by
  have hstart : segmentHeaderSize = position crc all 0 := by
    simp
  have hzero : position crc all 0 < maxIndexableSegment := by
    simp
  have hinv : ∀ u, Kept crc F b all rest s.index.entries u → F u ∧ Resting crc b all u :=
    fun u hu => ⟨hu.1, hlegal, rest, _, e, hu.2.2, hplaced, hrest⟩
  unfold Segment.recover
  refine safely_sure id (Kept.steadfast hF) hd hinv ?_
  intro u hu
  simp only [FsOp.exec]
  cases hlast : s.index.last with
  | none =>
      dsimp only
      rw [hstart]
      exact scanFrom_opens hF hlegal hrest (Nat.zero_le _) hzero hfile hindex hbase hplaced hu
  | some entry =>
      obtain ⟨hle, hpos, hlt⟩ := hplaced entry (List.mem_of_getLast? hlast)
      dsimp only
      split_ifs with hin
      · rw [hpos] at hlt ⊢
        exact scanFrom_opens hF hlegal hrest hle hlt hfile hindex hbase hplaced hu
      · unfold Index.reset
        rw [hindex, hstart]
        refine safely_sure id (Kept.steadfast hF) hu hinv ?_
        rintro v ⟨hv, hnamed, hshelf⟩
        have hcut := @Shelf.cutIndex crc b all rest _ v hshelf hnamed 0 (Nat.zero_le _)
        rw [List.take_zero, Nat.zero_mul] at hcut
        exact @scanFrom_opens crc b 0 all rest { s with index := ⟨.index b, []⟩ } _ F hF hlegal e
          hrest (Nat.zero_le _) hzero hfile rfl hbase Placed.nil
          ⟨hF v _ (apart_set_index b v _) rfl hv, hnamed, hcut⟩

/-- Loading the index of a segment. -/
theorem openIndex_safely (hF : Frame b F) (hplaced : Placed crc all es) (h : F d)
    (hd : Shelf crc b all rest es d) :
    Safely (fun u => F u ∧ Shelf crc b all rest es u)
      (fun r u => r = .ok ⟨.index b, es⟩ ∧ Kept crc F b all rest es u)
      (openIndex (.index b)) d := by
  have hinv : ∀ u, Kept crc F b all rest es u → F u ∧ Shelf crc b all rest es u :=
    fun u hu => ⟨hu.1, hu.2.2⟩
  have hst := @Kept.steadfast crc b all rest es F hF
  unfold openIndex
  refine safely_sure id (hF.steadfast.and Shelf.steadfast) ⟨h, hd⟩ (fun _ hu => hu) ?_
  rintro u ⟨hu, hshelf⟩
  have hkept : Kept crc F b all rest es (u.touch (.index b)) :=
    ⟨hF u _ (apart_touch b u) (segmentOffsets_touch_index u b) hu, u.mem_names_touch _,
      hshelf.touch⟩
  simp only [FsOp.exec]
  refine safely_sure id hst hkept hinv ?_
  intro v hv
  obtain ⟨junk, hj, hindex⟩ := hv.2.2.index hv.2.1
  have hsize : (entriesBytes es ++ junk).length / indexEntrySize = es.length := by
    rw [List.length_append, entriesBytes_length, indexEntrySize_eq]
    omega
  simp only [FsOp.exec, hindex.data, hsize]
  split_ifs with hzero
  · have hnil := List.length_eq_zero_iff.mp hzero
    refine safely_done hst hv fun x hx => ⟨hinv x hx, ?_, hx⟩
    rw [hnil]
  · refine safely_sure id hst hv hinv ?_
    intro x hx
    obtain ⟨junk', hj', hindex'⟩ := hx.2.2.index hx.2.1
    have hfull : ¬ (entriesBytes es ++ junk').length < es.length * indexEntrySize := by
      rw [List.length_append, entriesBytes_length, indexEntrySize_eq]
      omega
    simp only [FsOp.exec, hindex'.data]
    rw [if_neg hfull, decodeEntries_entriesBytes hplaced.fits]
    exact safely_done hst hx fun y hy => ⟨hinv y hy, rfl, hy⟩

/-- `openSegment`: the segment is opened with every record that can be read, or not at all. -/
theorem openSegment_opens (hF : Frame b F) (hb : b < 2 ^ 64) (h : F d)
    (hd : Resting crc b all d) : Opens crc F b all (openSegment crc b) d := by
  obtain ⟨rest, es, e, hshelf, hplaced, hrest⟩ := hd.shelf
  have hst : Steadfast fun u => F u ∧ Shelf crc b all rest es u :=
    hF.steadfast.and Shelf.steadfast
  have hinv : ∀ u, F u ∧ Shelf crc b all rest es u → F u ∧ Resting crc b all u :=
    fun u hu => ⟨hu.1, hd.legal, rest, es, e, hu.2, hplaced, hrest⟩
  obtain ⟨hmagic, hversion, hbase⟩ := header_fields hb (recordsBytes crc all ++ rest)
  have hlen : 16 ≤ (headerBytes b ++ (recordsBytes crc all ++ rest)).length := by
    rw [List.length_append, headerBytes_length]
    omega
  unfold openSegment
  refine safely_sure id hst ⟨h, hshelf⟩ hinv ?_
  intro u hu
  simp only [FsOp.exec, if_pos hu.2.named]
  refine safely_sure id hst hu hinv ?_
  intro v hv
  have hdata := hv.2.segment.data
  rw [List.append_assoc] at hdata
  simp only [FsOp.exec, hdata, hmagic, hversion, hbase, segmentHeaderSize_eq]
  rw [if_neg (by omega), if_neg (by omega), if_neg (not_not.mpr rfl), if_neg (not_not.mpr rfl)]
  refine safely_bind (safely_mono hinv (fun _ _ hpost => hpost)
    (openIndex_safely hF hplaced hv.1 hv.2)) ?_
  rintro r x ⟨rfl, hx⟩
  exact recover_opens hF hd.legal hrest rfl rfl rfl hplaced hx

end Scanned

section Create

/-- The segments of a directory. -/
def Names (bs : List Nat) (d : Dir Path) : Prop :=
  (segmentOffsets d.names).Perm bs ∧ ∀ c, Path.index c ∈ d.names → c ∈ bs

/-- A segment file without its header. -/
def Blank (b : Nat) (d : Dir Path) : Prop :=
  (d.file (.segment b)).data = []

variable {bs : List Nat}

theorem Names.mem (h : Names bs d) : Path.segment c ∈ d.names ↔ c ∈ bs := by
  rw [← mem_segmentOffsets, h.1.mem_iff]

theorem Names.frame (hb : b ∈ bs) : Frame b (Names bs) := by
  intro d d' hd hoffsets h
  refine ⟨by rw [hoffsets]; exact h.1, ?_⟩
  intro c hc
  by_cases hcb : c = b
  · rw [hcb]
    exact hb
  · exact h.2 c ((hd.named _ (by simp) (by simpa using hcb)).mp hc)

theorem Names.steadfast : Steadfast (Names bs) := by
  intro d d' hd h
  unfold Names
  rw [hd.1]
  exact h

theorem Names.create (h : Names bs d) (b : Nat) : Names (bs ++ [b]) (d.create (.segment b)) := by
  refine ⟨?_, ?_⟩
  · simpa [segmentOffsets] using h.1.append_right [b]
  · intro c hc
    have hc' : Path.index c ∈ d.names := by
      simpa using hc
    exact List.mem_append_left _ (h.2 c hc')

theorem Blank.frame (hne : b ≠ c) : Frame c (Blank b) := by
  intro d d' hd _ h
  unfold Blank
  rw [(hd.bytes _ (by simpa using hne) (by simp)).data_eq]
  exact h

/-- A segment that has just been created. -/
theorem held_newSegment (h : Shelf crc b [] [] [] d) (hnamed : Path.index b ∈ d.names) :
    Held crc b [] (newSegment b) d :=
  ⟨rfl, rfl, rfl, rfl, by simp [newSegment], List.forall_mem_nil _, by simp, by simp [newSegment],
    Placed.nil, hnamed, [], [], h, Or.inl rfl, fun hne => absurd rfl hne⟩

/-- `createSegment`, next to segments that it does not touch. -/
theorem createSegment_safely (hG : ∀ d d', Apart b d d' → G d → G d') (h : G d)
    (hnames : Names bs d) (hb : b ∉ bs) :
    Safely
      (fun u => G u ∧
        (Names bs u ∨ Names (bs ++ [b]) u ∧ (Blank b u ∨ Resting crc b [] u)))
      (fun r u => r = .ok (newSegment b) ∧ G u ∧ Names (bs ++ [b]) u ∧
        Held crc b [] (newSegment b) u ∧ Resting crc b [] u)
      (createSegment b) d := by
  have hF : Frame b fun u => G u ∧ Names (bs ++ [b]) u :=
    Frame.and (fun d d' hd _ hu => hG d d' hd hu) (Names.frame (by simp))
  have hstG : Steadfast G := fun u v huv => hG u v (apart_sameBytes b huv)
  have hstFile : Steadfast fun u : Dir Path =>
      Path.index b ∉ u.names ∧ (u.file (.segment b)).Holds [] := by
    rintro u v huv ⟨hn, hu⟩
    exact ⟨by rw [huv.1]; exact hn, hu.sameBytes (huv.2 _)⟩
  unfold createSegment
  refine safely_sure id (hstG.and Names.steadfast) ⟨h, hnames⟩ (fun u hu => ⟨hu.1, Or.inl hu.2⟩) ?_
  rintro u ⟨hu, hn⟩
  have hfree : Path.segment b ∉ u.names := fun hmem => hb (hn.mem.mp hmem)
  simp only [FsOp.exec, if_neg hfree]
  refine safely_sure (by simp [AppendWrite]) (hF.steadfast.and hstFile)
    ⟨⟨hG u _ (apart_create b u) hu, hn.create b⟩, ?_, ?_⟩ ?_ ?_
  · intro hmem
    exact hb (hn.2 b (by simpa using hmem))
  · rw [Dir.create_file_self]
    exact File.holds_empty
  · rintro v ⟨hv, -, hblank⟩
    exact ⟨hv.1, Or.inr ⟨hv.2, Or.inl hblank.data⟩⟩
  · rintro v ⟨hv, hnamed, hblank⟩
    have hheader := @File.Holds.write _ _ hblank 0 (Nat.zero_le _) (headerBytes b)
    have hover : overwrite [] 0 (headerBytes b) = headerBytes b := by
      simpa using overwrite_end [] (headerBytes b)
    rw [hover] at hheader
    have hshelf : Shelf crc b [] [] []
        (v.set (.segment b) ((v.file (.segment b)).write 0 (headerBytes b))) := by
      refine ⟨hv.2.mem.mpr (by simp), ?_, fun hmem => absurd hmem hnamed, fun _ => rfl⟩
      rw [Dir.set_file_self]
      simpa using hheader
    simp only [FsOp.exec]
    have hresting : ∀ x, Shelf crc b [] [] [] x → Resting crc b [] x := fun x hx =>
      ⟨List.forall_mem_nil _, [], [], _, hx, Placed.nil, readRecord_nil⟩
    refine safely_bind (safely_mono ?_ (fun _ _ hpost => hpost)
      (openIndex_safely hF Placed.nil (hF v _ (apart_set_segment b v _) rfl hv) hshelf)) ?_
    · rintro x ⟨hx, hshelf'⟩
      exact ⟨hx.1, Or.inr ⟨hx.2, Or.inr (hresting x hshelf')⟩⟩
    · rintro r x ⟨rfl, hx⟩
      exact safely_done (Kept.steadfast hF) hx fun y hy =>
        ⟨⟨hy.1.1, Or.inr ⟨hy.1.2, Or.inr (hresting y hy.2.2)⟩⟩, rfl, hy.1.1, hy.1.2,
          held_newSegment hy.2.2 hy.2.1, hresting y hy.2.2⟩

end Create

end LedgerLine.Broker
