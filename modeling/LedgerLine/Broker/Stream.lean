import LedgerLine.Broker.Layout

/-!
# A file of records as a stream

`scanRecords` reads records until `readRecord` gives up, which is what the loop of
`recover` does with the bytes (`recoverLoop_eq`).  On a concatenation of encodings it gives
back exactly the payloads, whatever the checksum (`scanRecords_recordsBytes`), so that
different payloads are never stored as the same bytes.
-/

namespace LedgerLine.Broker

section Scan

variable (crc : Checksum)

/-- At most `fuel` records from the beginning of `r`, and why there is no further one. -/
def scanLoop : Nat → Bytes → List Bytes × LogErr
  | 0, _ => ([], .eof)
  | fuel + 1, r =>
      match readRecord crc r with
      | .ok (p, n) => (p :: (scanLoop fuel (r.drop n)).1, (scanLoop fuel (r.drop n)).2)
      | .error e => ([], e)

/-- The records of a file.  Every record is at least eight bytes, so there are fewer rounds
than bytes. -/
def scanRecords (r : Bytes) : List Bytes × LogErr :=
  scanLoop crc (r.length + 1) r

namespace Segment

/-- What `recover` does for the records it has read: an index entry where one is due. -/
def indexRecords (k : Segment → Nat → Nat → LogProgram (Except LogErr Segment)) :
    List Bytes → Segment → Nat → Nat → LogProgram (Except LogErr Segment)
  | [], s, position, rel => k s position rel
  | p :: ps, s, position, rel => do
      match ← s.maybeIndex rel position with
      | .error e => pure (.error e)
      | .ok s => indexRecords k ps s (position + (8 + p.length)) ((rel + 1) % 2 ^ 32)

/-- What `recover` does at the end of the good records. -/
def finishScan (e : LogErr) (s : Segment) (position rel : Nat) :
    LogProgram (Except LogErr Segment) :=
  match e with
  | .eof => pure (.ok { s with size := position, nextOffset := s.baseOffset + rel })
  | .tornRecord => recoverLoop.cutTail s position rel
  | .corruptRecord => recoverLoop.cutTail s position rel
  | e => pure (.error e)

end Segment

variable {crc}

variable {r : Bytes}

/-- A successful read leaves fewer bytes. -/
theorem length_drop_lt {p : Bytes} {n : Nat} (h : readRecord crc r = .ok (p, n)) :
    (r.drop n).length < r.length := by
  obtain ⟨-, hn, hr⟩ := readRecord_sound h
  have hlen := congrArg List.length hr
  rw [List.length_append, recordBytes_length] at hlen
  omega

/-- The loop of `recover` scans, indexes what it has scanned and deals with the end. -/
theorem recoverLoop_eq {fuel : Nat} (hfuel : r.length < fuel) (s : Segment) (position rel : Nat) :
    s.recoverLoop crc fuel r position rel =
      Segment.indexRecords (Segment.finishScan (scanLoop crc fuel r).2)
        (scanLoop crc fuel r).1 s position rel := by
  induction fuel generalizing r s position rel with
  | zero => omega
  | succ fuel ih =>
      cases hread : readRecord crc r with
      | ok found =>
          obtain ⟨p, n⟩ := found
          have hn := (readRecord_sound hread).2.1
          subst hn
          have hshorter : (r.drop (8 + p.length)).length < fuel := by
            have := length_drop_lt hread
            omega
          simp only [Segment.recoverLoop, scanLoop, hread, Segment.indexRecords]
          congr 1
          funext indexed
          cases indexed with
          | error e => rfl
          | ok s' => exact ih hshorter s' _ _
      | error e =>
          simp only [Segment.recoverLoop, scanLoop, hread, Segment.indexRecords]
          cases e <;> rfl

/-- Scanning a concatenation of records gives the payloads and ends with what follows. -/
theorem scanLoop_recordsBytes {ps : List Bytes} (hlegal : ∀ p ∈ ps, Legal p) {fuel : Nat}
    (hfuel : ps.length < fuel) {rest : Bytes} {e : LogErr}
    (hrest : readRecord crc rest = .error e) :
    scanLoop crc fuel (recordsBytes crc ps ++ rest) = (ps, e) := by
  induction ps generalizing fuel with
  | nil =>
      obtain ⟨fuel, rfl⟩ := Nat.exists_eq_add_of_lt hfuel
      rw [recordsBytes_nil, List.nil_append, scanLoop, hrest]
  | cons p ps ih =>
      rw [List.forall_mem_cons] at hlegal
      cases fuel with
      | zero => cases hfuel
      | succ fuel =>
          have hdrop : (recordBytes crc p ++ (recordsBytes crc ps ++ rest)).drop (8 + p.length) =
              recordsBytes crc ps ++ rest := by
            apply List.drop_left'
            exact recordBytes_length p
          have hscan := ih hlegal.2 (Nat.lt_of_succ_lt_succ hfuel)
          rw [recordsBytes_cons, List.append_assoc, scanLoop, readRecord_recordBytes hlegal.1]
          simp only [hdrop, hscan]

theorem length_le_recordsBytes (ps : List Bytes) : ps.length ≤ (recordsBytes crc ps).length := by
  induction ps with
  | nil => exact Nat.le_refl _
  | cons p ps ih =>
      rw [recordsBytes_cons, List.length_cons, List.length_append, recordBytes_length]
      omega

theorem scanRecords_recordsBytes {ps : List Bytes} (hlegal : ∀ p ∈ ps, Legal p) :
    scanRecords crc (recordsBytes crc ps) = (ps, .eof) := by
  have hscan := @scanLoop_recordsBytes crc ps hlegal _
    (Nat.lt_succ_of_le (@length_le_recordsBytes crc ps)) [] _ readRecord_nil
  rwa [List.append_nil] at hscan

/-- What a scan finds stands there, and it stops where no record can be read. -/
theorem scanLoop_sound {fuel : Nat} (hfuel : r.length < fuel) :
    (∀ p ∈ (scanLoop crc fuel r).1, Legal p) ∧ ∃ rest,
      r = recordsBytes crc (scanLoop crc fuel r).1 ++ rest ∧
        readRecord crc rest = .error (scanLoop crc fuel r).2 := by
  induction fuel generalizing r with
  | zero => omega
  | succ fuel ih =>
      cases hread : readRecord crc r with
      | ok found =>
          obtain ⟨p, n⟩ := found
          obtain ⟨hp, -, hr⟩ := readRecord_sound hread
          have hshorter : (r.drop n).length < fuel := by
            have := length_drop_lt hread
            omega
          obtain ⟨hlegal, rest, hrest, hend⟩ := ih hshorter
          simp only [scanLoop, hread]
          refine ⟨List.forall_mem_cons.2 ⟨hp, hlegal⟩, rest, ?_, hend⟩
          rw [recordsBytes_cons, List.append_assoc, ← hrest]
          exact hr
      | error e =>
          simp only [scanLoop, hread]
          exact ⟨List.forall_mem_nil _, r, rfl, hread⟩

theorem scanRecords_sound (crc : Checksum) (r : Bytes) :
    (∀ p ∈ (scanRecords crc r).1, Legal p) ∧ ∃ rest,
      r = recordsBytes crc (scanRecords crc r).1 ++ rest ∧
        readRecord crc rest = .error (scanRecords crc r).2 :=
  scanLoop_sound (Nat.lt_succ_self _)

/-- What `encodeRecord` makes of several payloads. -/
theorem encodeRecords_eq {ps : List Bytes} {encoded : List Bytes}
    (h : ps.mapM (encodeRecord crc) = .ok encoded) :
    (∀ p ∈ ps, Legal p) ∧ encoded.flatten = recordsBytes crc ps := by
  induction ps generalizing encoded with
  | nil =>
      cases h
      exact ⟨nofun, rfl⟩
  | cons p ps ih =>
      rw [List.mapM_cons] at h
      by_cases hp : Legal p
      · rw [encodeRecord_of_legal hp] at h
        cases hrest : ps.mapM (encodeRecord crc) with
        | error e =>
            rw [hrest] at h
            cases h
        | ok rest =>
            rw [hrest] at h
            cases h
            obtain ⟨hlegal, hflat⟩ := ih hrest
            refine ⟨List.forall_mem_cons.2 ⟨hp, hlegal⟩, ?_⟩
            rw [List.flatten_cons, hflat, recordsBytes_cons]
      · rw [encodeRecord_of_not_legal hp] at h
        cases h

/-- The record format is parsed exactly: what is encoded is read back with nothing more
consumed, what is read is an encoding, and every way to end is told apart. -/
theorem record_format_exact (crc : Checksum) :
    (∀ p, p.length ≤ maxRecordSize → ∃ encoded, encodeRecord crc p = .ok encoded ∧
      (∀ t, readRecord crc (encoded ++ t) = .ok (p, 8 + p.length)) ∧
      ∀ t, t ≠ [] → t <+: encoded → t ≠ encoded → readRecord crc t = .error .tornRecord) ∧
    (∀ r p n, readRecord crc r = .ok (p, n) →
      ∃ encoded, encodeRecord crc p = .ok encoded ∧ encoded <+: r ∧ n = encoded.length) ∧
    readRecord crc [] = .error .eof ∧
    (∀ (ps qs : List Bytes) encoded encoded', ps.mapM (encodeRecord crc) = .ok encoded →
      qs.mapM (encodeRecord crc) = .ok encoded' → ps ≠ qs →
      encoded.flatten ≠ encoded'.flatten) ∧
    ∀ (ps : List Bytes) encoded, ps.mapM (encodeRecord crc) = .ok encoded →
      scanRecords crc encoded.flatten = (ps, .eof) := by
  have hscan : ∀ (ps : List Bytes) encoded, ps.mapM (encodeRecord crc) = .ok encoded →
      scanRecords crc encoded.flatten = (ps, .eof) := by
    intro ps encoded h
    obtain ⟨hlegal, hflat⟩ := encodeRecords_eq h
    rw [hflat]
    exact scanRecords_recordsBytes hlegal
  refine ⟨?_, ?_, readRecord_nil, ?_, hscan⟩
  · intro p hp
    refine ⟨_, encodeRecord_of_legal hp, readRecord_recordBytes hp, ?_⟩
    intro t hne hpre hproper
    apply readRecord_torn hp hne hpre
    have hlen : t.length ≠ (recordBytes crc p).length :=
      fun hlen => hproper (hpre.eq_of_length hlen)
    have hle := hpre.length_le
    rw [recordBytes_length] at hlen hle
    omega
  · intro r p n h
    obtain ⟨hp, hn, hr⟩ := readRecord_sound h
    refine ⟨_, encodeRecord_of_legal hp, ⟨_, hr.symm⟩, ?_⟩
    rw [recordBytes_length]
    exact hn
  · intro ps qs encoded encoded' hps hqs hne hsame
    have hps' := hscan ps encoded hps
    rw [hsame, hscan qs encoded' hqs] at hps'
    exact hne (congrArg Prod.fst hps').symm

end Scan

end LedgerLine.Broker
