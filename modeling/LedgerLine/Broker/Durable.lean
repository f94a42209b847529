import LedgerLine.Broker.AppendSpec
import LedgerLine.Broker.Landing

/-!
# Records that are safe

A record is secured when the durable bytes of its segment file, read from the start,
reach past it.  The notion speaks of bytes and not of how the log is laid out now, so it
survives everything that only adds to the log (`Secured.extends`) and every crash
(`Secured.crash`); and when a log is on disk, a secured record is one of its records
(`Secured.get`).

Main facts:
* `isPrefix_of_recordsBytes`: a sequence of records can be read off its bytes in one way;
* `StoredFrom.find`, `StoredFrom.locate`: which segment a record is in;
* `Secured.extends`, `Secured.crash`, `Secured.get`, `secured_of_quiet`.
-/

namespace LedgerLine.Broker

variable {crc : Checksum}

section Decoding

/-- No record can be read where a record is torn or there is nothing. -/
theorem TornTail.not_record {all : List Bytes} {n : Nat} {tail : Bytes}
    (h : TornTail crc all n tail) (hlegal : ∀ p ∈ all, Legal p) {p rest : Bytes}
    (hp : Legal p) : tail ≠ recordBytes crc p ++ rest := by
  intro heq
  have hread : readRecord crc tail = .ok (p, 8 + p.length) := by
    rw [heq]
    exact readRecord_recordBytes hp rest
  rcases h.2 with rfl | ⟨q, hq, hpre, hlt⟩
  · cases hread
  · have hne : tail ≠ [] := by
      rintro rfl
      cases hread
    rw [recordBytes_length] at hlt
    rw [readRecord_torn (hlegal q (List.mem_of_getElem? hq)) hne hpre hlt] at hread
    cases hread

/-- The first record of a byte string is determined by it. -/
theorem recordBytes_inj {p q s t : Bytes} (hp : Legal p) (hq : Legal q)
    (h : recordBytes crc p ++ s = recordBytes crc q ++ t) : p = q ∧ s = t := by
  have hread : readRecord crc (recordBytes crc p ++ s) = .ok (p, 8 + p.length) :=
    readRecord_recordBytes hp s
  rw [h, readRecord_recordBytes hq t, Except.ok.injEq, Prod.mk.injEq] at hread
  obtain ⟨rfl, _⟩ := hread
  exact ⟨rfl, List.append_cancel_left h⟩

/-- Records at the start of a segment's records are the first ones. -/
theorem isPrefix_of_recordsBytes {all : List Bytes} {n : Nat} {tail : Bytes} {xs ys : List Bytes}
    (htorn : TornTail crc all n tail) (hall : ∀ p ∈ all, Legal p)
    (hxs : ∀ p ∈ xs, Legal p) (hys : ∀ p ∈ ys, Legal p)
    (h : recordsBytes crc xs <+: recordsBytes crc ys ++ tail) : xs <+: ys := by
  induction xs generalizing ys with
  | nil => exact List.nil_prefix
  | cons x xs ih =>
      obtain ⟨rest, hrest⟩ := h
      rw [recordsBytes_cons, List.append_assoc] at hrest
      cases ys with
      | nil =>
          exact absurd hrest.symm (htorn.not_record hall (hxs x (by simp)))
      | cons y ys =>
          rw [recordsBytes_cons, List.append_assoc] at hrest
          obtain ⟨rfl, hrest'⟩ := recordBytes_inj (hxs x (by simp)) (hys y (by simp)) hrest
          refine List.cons_prefix_cons.mpr ⟨rfl, ?_⟩
          exact ih (fun p hp => hxs p (by simp [hp])) (fun p hp => hys p (by simp [hp]))
            ⟨rest, hrest'⟩

end Decoding

section Segments

variable {d : Dir Path} {b c k : Nat} {qs : List Part} {p : Bytes}

theorem Part.length_records {q : Part} (h : q.kept ≤ q.all.length) : q.records.length = q.kept := by
  rw [Part.records, List.length_take, Nat.min_eq_left h]

/-- The segment with a given base offset, and where its records are in the log. -/
theorem StoredFrom.find (h : StoredFrom crc d b qs) (hc : c ∈ bases b (qs.map Part.kept)) :
    ∃ q ∈ qs, (∃ tail es, Stored crc d c q.all q.kept tail es) ∧ b ≤ c ∧
      ∀ i, q.records[i]? = some p → (qs.map Part.records).flatten[c - b + i]? = some p := by
  induction qs generalizing b with
  | nil => simp at hc
  | cons q qs ih =>
      obtain ⟨⟨tail, es, hq⟩, hqs⟩ := h
      rcases List.mem_cons.mp hc with rfl | hc
      · refine ⟨q, by simp, ⟨tail, es, hq⟩, le_refl _, ?_⟩
        intro i hi
        rw [Nat.sub_self, Nat.zero_add, List.map_cons, List.flatten_cons]
        rw [List.getElem?_append_left (List.getElem?_eq_some_iff.mp hi).1]
        exact hi
      · obtain ⟨r, hr, hstored, hle, hget⟩ := ih hqs hc
        refine ⟨r, by simp [hr], hstored, by omega, ?_⟩
        intro i hi
        have hlen := Part.length_records hq.torn.1
        rw [List.map_cons, List.flatten_cons, List.getElem?_append_right (by omega), hlen,
          show c - b + i - q.kept = c - (b + q.kept) + i by omega]
        exact hget i hi

/-- The segment a record is in. -/
theorem StoredFrom.locate (h : StoredFrom crc d b qs)
    (hk : (qs.map Part.records).flatten[k]? = some p) :
    ∃ c q i, q ∈ qs ∧ (∃ tail es, Stored crc d c q.all q.kept tail es) ∧ b + k = c + i ∧
      q.records[i]? = some p := by
  induction qs generalizing b k with
  | nil => simp at hk
  | cons q qs ih =>
      obtain ⟨⟨tail, es, hq⟩, hqs⟩ := h
      have hlen := Part.length_records hq.torn.1
      rw [List.map_cons, List.flatten_cons] at hk
      rcases Nat.lt_or_ge k q.records.length with hlt | hge
      · rw [List.getElem?_append_left hlt] at hk
        exact ⟨b, q, k, by simp, ⟨tail, es, hq⟩, rfl, hk⟩
      · rw [List.getElem?_append_right hge] at hk
        obtain ⟨c, r, i, hr, hstored, heq, hget⟩ := ih hqs hk
        exact ⟨c, r, i, by simp [hr], hstored, by omega, hget⟩

end Segments

section Secured

variable (crc)

/-- The record `p` at offset `k` is within the durable bytes of its segment. -/
def Secured (d : Dir Path) (k : Nat) (p : Bytes) : Prop :=
  ∃ b ps, k = b + ps.length ∧ (∀ q ∈ ps ++ [p], Legal q) ∧ Path.segment b ∈ d.names ∧
    headerBytes b ++ recordsBytes crc (ps ++ [p]) <+: (d.file (.segment b)).durable

/-- The record `p` at offset `k` is the last of what the first writes of its segment, as
many as `pl` says, have put there. -/
def Marked (d : Dir Path) (pl : Place) (k : Nat) (p : Bytes) : Prop :=
  ∃ b ps, k = b + ps.length ∧ (∀ q ∈ ps ++ [p], Legal q) ∧ pl.path = .segment b ∧
    Path.segment b ∈ d.names ∧ pl.upTo ≤ (d.file (.segment b)).writes.length ∧
    applyWrites (d.file (.segment b)).base ((d.file (.segment b)).writes.take pl.upTo) =
      headerBytes b ++ recordsBytes crc (ps ++ [p])

/-- Segment files are only ever appended to. -/
def AllGrow (d : Dir Path) : Prop :=
  ∀ b, Path.segment b ∈ d.names → (d.file (.segment b)).Grows

variable {crc}
variable {d d' : Dir Path} {pl : Place} {k : Nat} {p : Bytes} {qs : List Part}

theorem Marked.extends (h : Marked crc d pl k p) (hd : d.Extends d') : Marked crc d' pl k p := by
  obtain ⟨b, ps, hk, hlegal, hpath, hnamed, hle, hbytes⟩ := h
  obtain ⟨hnamed', hf⟩ := hd _ hnamed
  refine ⟨b, ps, hk, hlegal, hpath, hnamed', le_trans hle hf.writes.length_le, ?_⟩
  rw [hf.base, hf.take_writes hle]
  exact hbytes

/-- A marked record that an fsync covers is secured. -/
theorem Marked.secured (h : Marked crc d pl k p) (hgrow : AllGrow d) (hc : Covered d pl) :
    Secured crc d k p := by
  obtain ⟨b, ps, hk, hlegal, hpath, hnamed, _, hbytes⟩ := h
  refine ⟨b, ps, hk, hlegal, hnamed, ?_⟩
  rw [← hbytes]
  unfold Covered at hc
  rw [hpath] at hc
  exact (hgrow b hnamed).take_isPrefix_durable hc

/-- More writes and more syncing keep a record secured. -/
theorem Secured.extends (h : Secured crc d k p) (hd : d.Extends d') (hgrow : AllGrow d)
    (hgrow' : AllGrow d') : Secured crc d' k p := by
  obtain ⟨b, ps, hk, hlegal, hnamed, hpre⟩ := h
  obtain ⟨hnamed', hf⟩ := hd _ hnamed
  refine ⟨b, ps, hk, hlegal, hnamed', hpre.trans ?_⟩
  have htake := (hgrow' b hnamed').take_isPrefix_durable hf.synced
  rw [hf.base, hf.take_writes (hgrow b hnamed).synced_le] at htake
  exact htake

/-- A crash does not take a secured record. -/
theorem Secured.crash (h : Secured crc d k p) (hgrow : AllGrow d) (hc : d.Crash d') :
    Secured crc d' k p := by
  obtain ⟨b, ps, hk, hlegal, hnamed, hpre⟩ := h
  obtain ⟨img, himg, hfile⟩ := hc.2 (.segment b)
  refine ⟨b, ps, hk, hlegal, by rw [hc.1]; exact hnamed, ?_⟩
  rw [hfile]
  exact hpre.trans ((hgrow b hnamed).crashImage himg).1

theorem OnDisk.allGrow (h : OnDisk crc d qs) : AllGrow d := by
  intro b hb
  obtain ⟨q, _, ⟨tail, es, hq⟩, _⟩ :=
    @StoredFrom.find crc d 0 b qs [] h.stored (h.names.mem_iff.mp (mem_segmentOffsets.mpr hb))
  exact hq.grows

/-- A secured record of a log on disk is one of its records. -/
theorem Secured.get (h : Secured crc d k p) (hdisk : OnDisk crc d qs) :
    (qs.map Part.records).flatten[k]? = some p := by
  obtain ⟨b, ps, rfl, hlegal, hnamed, hpre⟩ := h
  obtain ⟨q, hq, ⟨tail, es, hstored⟩, _, hget⟩ :=
    hdisk.stored.find (hdisk.names.mem_iff.mp (mem_segmentOffsets.mpr hnamed))
  have hdata : (d.file (.segment b)).durable <+: (d.file (.segment b)).data := by
    have hcut := hstored.grows.cut_isPrefix (d.file (.segment b)).synced 0
    rwa [File.cut_zero] at hcut
  have hrecs := hpre.trans hdata
  rw [hstored.data, List.append_assoc, List.prefix_append_right_inj] at hrecs
  have hall := hdisk.legal q hq
  have hprefix : ps ++ [p] <+: q.records :=
    isPrefix_of_recordsBytes hstored.torn hall hlegal
      (fun r hr => hall r (List.mem_of_mem_take hr)) hrecs
  have hlast : q.records[ps.length]? = some p := by
    obtain ⟨rest, hrest⟩ := hprefix
    rw [← hrest]
    simp
  have := hget ps.length hlast
  rwa [Nat.sub_zero] at this

/-- When no segment file has unsynced writes, every record is secured. -/
theorem secured_of_quiet (hdisk : OnDisk crc d qs) (hquiet : ∀ b, (d.file (.segment b)).writes = [])
    (hk : (qs.map Part.records).flatten[k]? = some p) : Secured crc d k p := by
  obtain ⟨c, q, i, hq, ⟨tail, es, hstored⟩, heq, hget⟩ := hdisk.stored.locate hk
  obtain ⟨hlt, hp⟩ := List.getElem?_eq_some_iff.mp hget
  have hsplit : q.records.take i ++ [p] ++ q.records.drop (i + 1) = q.records := by
    rw [← hp, ← List.take_succ_eq_append_getElem hlt, List.take_append_drop]
  have hlen : (q.records.take i).length = i := by
    rw [List.length_take]
    omega
  have hdurable : (d.file (.segment c)).durable = (d.file (.segment c)).data := by
    unfold File.durable File.data
    rw [hquiet c, List.take_nil]
  refine ⟨c, q.records.take i, by omega, ?_, hstored.named, ?_⟩
  · intro r hr
    have hmem : r ∈ q.records := by
      rw [← hsplit]
      exact List.mem_append_left _ hr
    exact hdisk.legal q hq r (List.mem_of_mem_take hmem)
  · have hrecs : q.all.take q.kept = q.records.take i ++ [p] ++ q.records.drop (i + 1) :=
      hsplit.symm
    rw [hdurable, hstored.data, hrecs, recordsBytes_append crc (q.records.take i ++ [p]),
      ← List.append_assoc, List.append_assoc (headerBytes c ++ _)]
    exact List.prefix_append _ _

end Secured

end LedgerLine.Broker
