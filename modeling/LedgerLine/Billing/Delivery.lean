import LedgerLine.Lib.First
import LedgerLine.Billing.Drain

/-!
# Exactly-once effect of the consumers

Any number of consumers drain one log that only grows, in overlapping batches that may fail
anywhere, and offsets are set back at any time.  The tables are then always what the log
says: `events` is the first-occurrence map of a beginning of the log, and the dead letters
of a consumer are the records of a shorter beginning that could not be applied.

`firstOccurrences` and `letterFor` are what the tables should hold, computed from the log
alone.  The invariant (`Good`) says the same position by position; a batch knows that every
record it has passed is accounted for and that every row of its own is a first occurrence
(`Known`).  That two batches never insert one row is due to the locks.
-/

namespace LedgerLine.Billing

open Program

section Delivery

variable (cols : Columns) (decode : Decoder)

/-- The events of a log, by offset; an undecodable record leaves its slot empty. -/
def slots (log : List Bytes) : List (Option UsageEvent) :=
  log.map fun record => (decode record).toOption

/-- The events whose key has not occurred at a smaller offset. -/
def firstOccurrences (log : List Bytes) : List UsageEvent :=
  keepFirst UsageEvent.key (slots decode log)

/-- The dead letter of a consumer for the record at offset `p`, if there should be one. -/
def letterFor (log : List Bytes) (consumer : String) (p : Nat) : Option DeadLetterRow :=
  match log[p]? with
  | none => none
  | some record =>
      match decode record with
      | .error detail => some (undecodableLetter consumer p detail record)
      | .ok e =>
          match (firstOccurrences decode log).find? (fun first => first.key = e.key) with
          | none => none
          | some first =>
              if fingerprintConflict first.fingerprint e.fingerprint then
                some (keyReuseLetter consumer p e record)
              else
                none

variable {cols decode}

variable {log : List Bytes} {p : Nat}

theorem slots_eq_some {e : UsageEvent} :
    (slots decode log)[p]? = some (some e) ↔
      ∃ record, log[p]? = some record ∧ decode record = .ok e := by
  rw [slots, List.getElem?_map, Option.map_eq_some_iff]
  constructor
  · rintro ⟨record, hrecord, hdecode⟩
    refine ⟨record, hrecord, ?_⟩
    cases h : decode record with
    | error detail =>
        rw [h] at hdecode
        cases hdecode
    | ok e' =>
        rw [h] at hdecode
        exact congrArg Except.ok (Option.some.inj hdecode)
  · rintro ⟨record, hrecord, hdecode⟩
    refine ⟨record, hrecord, ?_⟩
    rw [hdecode]
    rfl

/-- An offset decodes in one way. -/
theorem decode_unique {record record' : Bytes} {r r' : Except String UsageEvent}
    (hrecord : log[p]? = some record) (hdecode : decode record = r)
    (hrecord' : log[p]? = some record') (hdecode' : decode record' = r') : r = r' := by
  have hsame := Option.some.inj (hrecord.symm.trans hrecord')
  rw [← hdecode, ← hdecode', hsame]

theorem slots_isPrefix {log' : List Bytes} (h : log <+: log') :
    slots decode log <+: slots decode log' :=
  h.map _

/-- The key of a decodable record has a first occurrence, not after it. -/
theorem firstEvent_of_record {record : Bytes} {e : UsageEvent} (hrecord : log[p]? = some record)
    (hdecode : decode record = .ok e) :
    ∃ q first, q ≤ p ∧ first.key = e.key ∧
      FirstAt UsageEvent.key (slots decode log) q first :=
  exists_firstAt (slots_eq_some.2 ⟨record, hrecord, hdecode⟩)

variable (decode) in
/-- There should be this dead letter for offset `p`. -/
inductive LetterAt (consumer : String) (log : List Bytes) (p : Nat) : DeadLetterRow → Prop
  | undecodable {record : Bytes} {detail : String} (hrecord : log[p]? = some record)
      (hdecode : decode record = .error detail) :
      LetterAt consumer log p (undecodableLetter consumer p detail record)
  | keyReuse {record : Bytes} {e first : UsageEvent} {q : Nat}
      (hrecord : log[p]? = some record) (hdecode : decode record = .ok e)
      (hfirst : FirstAt UsageEvent.key (slots decode log) q first) (hkey : first.key = e.key)
      (hconflict : fingerprintConflict first.fingerprint e.fingerprint = true) :
      LetterAt consumer log p (keyReuseLetter consumer p e record)

namespace LetterAt

variable {consumer : String} {log log' : List Bytes} {p : Nat} {row row' : DeadLetterRow}

section

variable (h : LetterAt decode consumer log p row)

include h

theorem key_eq : row.key = (consumer, p) := by
  cases h <;> rfl

theorem lt_length : p < log.length := by
  cases h with
  | undecodable hrecord hdecode | keyReuse hrecord hdecode hfirst hkey hconflict =>
      exact (List.getElem?_eq_some_iff.1 hrecord).1

/-- A record has one dead letter. -/
theorem unique (h' : LetterAt decode consumer log p row') : row = row' := by
  cases h with
  | undecodable hrecord hdecode =>
      cases h' with
      | undecodable hrecord' hdecode' =>
          have hsame := Option.some.inj (hrecord.symm.trans hrecord')
          subst hsame
          have hdetail := Except.error.inj (hdecode.symm.trans hdecode')
          rw [hdetail]
      | keyReuse hrecord' hdecode' hfirst' hkey' hconflict' =>
          cases decode_unique hrecord hdecode hrecord' hdecode'
  | keyReuse hrecord hdecode hfirst hkey hconflict =>
      cases h' with
      | undecodable hrecord' hdecode' =>
          cases decode_unique hrecord hdecode hrecord' hdecode'
      | keyReuse hrecord' hdecode' hfirst' hkey' hconflict' =>
          have hsame := Option.some.inj (hrecord.symm.trans hrecord')
          subst hsame
          have hevent := Except.ok.inj (hdecode.symm.trans hdecode')
          rw [hevent]

theorem mono (hlog : log <+: log') : LetterAt decode consumer log' p row := by
  obtain ⟨rest, rfl⟩ := hlog
  have hp := h.lt_length
  cases h with
  | undecodable hrecord hdecode =>
      exact .undecodable (by rw [List.getElem?_append_left hp]; exact hrecord) hdecode
  | keyReuse hrecord hdecode hfirst hkey hconflict =>
      exact .keyReuse (by rw [List.getElem?_append_left hp]; exact hrecord) hdecode
        (hfirst.mono (slots_isPrefix (List.prefix_append _ _))) hkey hconflict

end

/-- Records behind it do not matter. -/
theorem of_append (h : LetterAt decode consumer log' p row) (hlog : log <+: log')
    (hp : p < log.length) : LetterAt decode consumer log p row := by
  obtain ⟨rest, rfl⟩ := hlog
  cases h with
  | undecodable hrecord hdecode =>
      rw [List.getElem?_append_left hp] at hrecord
      exact .undecodable hrecord hdecode
  | keyReuse hrecord hdecode hfirst hkey hconflict =>
      rw [List.getElem?_append_left hp] at hrecord
      obtain ⟨q, first, hq, hkey', hfirst'⟩ := firstEvent_of_record hrecord hdecode
      have hsame := (hfirst'.mono (slots_isPrefix (List.prefix_append log rest))).unique hfirst
        (hkey'.trans hkey.symm)
      rw [← hsame] at hconflict
      exact .keyReuse hrecord hdecode hfirst' hkey' hconflict

end LetterAt

/-- `letterFor` computes the dead letter there should be. -/
theorem letterFor_eq_some {consumer : String} {row : DeadLetterRow} :
    letterFor decode log consumer p = some row ↔ LetterAt decode consumer log p row := by
  constructor
  · intro h
    rw [letterFor] at h
    split at h
    · cases h
    rename_i record hrecord
    split at h
    · rename_i detail hdecode
      cases h
      exact .undecodable hrecord hdecode
    rename_i e hdecode
    split at h
    · cases h
    rename_i first hfind
    split at h
    · rename_i hconflict
      cases h
      obtain ⟨q, hq⟩ := mem_keepFirst.1 (List.mem_of_find?_eq_some hfind)
      have hkey : first.key = e.key := by simpa using List.find?_some hfind
      exact .keyReuse hrecord hdecode hq hkey hconflict
    · cases h
  · intro h
    cases h with
    | undecodable hrecord hdecode =>
        simp only [letterFor, hrecord, hdecode]
    | @keyReuse record e first q hrecord hdecode hfirst hkey hconflict =>
        have hfind : (firstOccurrences decode log).find? (fun f => f.key = e.key) = some first := by
          cases hfind : (firstOccurrences decode log).find? (fun f => f.key = e.key) with
          | none =>
              have := List.find?_eq_none.1 hfind first (mem_keepFirst.2 ⟨q, hfirst⟩)
              simp [hkey] at this
          | some first' =>
              obtain ⟨q', hq'⟩ := mem_keepFirst.1 (List.mem_of_find?_eq_some hfind)
              have hkey' : first'.key = e.key := by simpa using List.find?_some hfind
              rw [hq'.unique hfirst (hkey'.trans hkey.symm)]
        simp only [letterFor, hrecord, hdecode, hfind, hconflict, if_true]

namespace Delivery

variable (cols decode)

/-- The row of the event that is first with its key at offset `q`. -/
def FirstRow (log : List Bytes) (q : Nat) (row : EventRow) : Prop :=
  ∃ e, FirstAt UsageEvent.key (slots decode log) q e ∧ cols.row e = some row

/-- `events` is the first-occurrence map of the records before `m`. -/
structure Stored (m : Nat) (w : World) : Prop where
  bound : m ≤ w.log.length
  nodup : (w.db.events.map EventRow.key).Nodup
  sound : ∀ row ∈ w.db.events, ∃ q < m, FirstRow cols decode w.log q row
  complete : ∀ p < m, ∀ e, (slots decode w.log)[p]? = some (some e) →
    ∃ row ∈ w.db.events, row.key = e.key

/-- The dead letters of every consumer are those of the records it has passed. -/
structure Buried (w : World) : Prop where
  nodup : (w.db.deadLetters.map DeadLetterRow.key).Nodup
  sound : ∀ row ∈ w.db.deadLetters, ∃ p < w.reached row.consumer,
    LetterAt decode row.consumer w.log p row
  complete : ∀ c p row, p < w.reached c → LetterAt decode c w.log p row →
    ∃ row' ∈ w.db.deadLetters, row'.key = (c, p)

/-- What always holds of the committed data. -/
structure Good (w : World) : Prop where
  stored : ∃ m, Stored cols decode m w ∧ ∀ c, w.reached c ≤ m
  buried : Buried decode w
  offsets : ∀ c next, w.db.offsets c = some next → next ≤ w.reached c

/-- None of a batch's own rows is committed already. -/
structure Fresh (ws : List Write) (w : World) : Prop where
  rows : ∀ row ∈ ownRows ws, ∀ stored ∈ w.db.events, stored.key ≠ row.key
  letters : ∀ row ∈ ownLetters ws, ∀ stored ∈ w.db.deadLetters, stored.key ≠ row.key

/-- What the others may do while a batch is open: the log and the tables grow, and rows
that the batch has locked stay away. -/
structure Grown (ws : List Write) (w w' : World) : Prop where
  log : w.log <+: w'.log
  events : w.db.events ⊆ w'.db.events
  deadLetters : w.db.deadLetters ⊆ w'.db.deadLetters
  reached : ∀ c, w.reached c ≤ w'.reached c
  good : Good cols decode w → Good cols decode w'
  fresh : Fresh ws w → Fresh ws w'

/-- What is known of a batch of consumer `c` that has passed the offsets from `start` up to
`i`. -/
structure Known (c : String) (start i : Nat) (w : World) (ws : List Write) : Prop where
  good : Good cols decode w
  begun : start ≤ w.reached c
  bound : i ≤ w.log.length
  kinds : ∀ a ∈ ws, BatchWrite a
  fresh : Fresh ws w
  nodup : ((ownRows ws).map EventRow.key).Nodup
  sound : ∀ row ∈ ownRows ws, ∃ q < i, FirstRow cols decode w.log q row
  complete : ∀ p, start ≤ p → p < i → ∀ e, (slots decode w.log)[p]? = some (some e) →
    ∃ row ∈ w.db.events ++ ownRows ws, row.key = e.key
  lettersNodup : ((ownLetters ws).map DeadLetterRow.key).Nodup
  lettersSound : ∀ row ∈ ownLetters ws, ∃ p < i, LetterAt decode c w.log p row
  lettersComplete : ∀ p, start ≤ p → p < i → ∀ row, LetterAt decode c w.log p row →
    ∃ row' ∈ w.db.deadLetters ++ ownLetters ws, row'.key = (c, p)

/-- A batch that has passed all its records and written its offset. -/
def Ready (c : String) (w : World) (ws : List Write) : Prop :=
  ∃ start stop ws', ws = ws' ++ [.offset c stop] ∧ Known cols decode c start stop w ws'

variable {cols decode}

/-- A row has the key and the fingerprint of its event. -/
theorem row_eq {e : UsageEvent} {row : EventRow} (h : cols.row e = some row) :
    row.key = e.key ∧ row.fingerprint = e.fingerprint := by
  obtain ⟨-, quantity, -, occurredAt, -, receivedAt, -, rfl⟩ := Columns.row_eq_some.1 h
  exact ⟨rfl, rfl⟩

theorem FirstRow.mono {log log' : List Bytes} {q : Nat} {row : EventRow}
    (h : FirstRow cols decode log q row) (hlog : log <+: log') :
    FirstRow cols decode log' q row := by
  obtain ⟨e, hfirst, hrow⟩ := h
  exact ⟨e, hfirst.mono (slots_isPrefix hlog), hrow⟩

theorem Grown.refl (ws : List Write) (w : World) : Grown cols decode ws w w :=
  ⟨List.prefix_rfl, List.Subset.refl _, List.Subset.refl _, fun _ => Nat.le_refl _, id, id⟩

theorem Grown.trans {ws : List Write} {w₁ w₂ w₃ : World} (h : Grown cols decode ws w₁ w₂)
    (h' : Grown cols decode ws w₂ w₃) : Grown cols decode ws w₁ w₃ :=
  ⟨h.log.trans h'.log, List.Subset.trans h.events h'.events,
    List.Subset.trans h.deadLetters h'.deadLetters,
    fun c => Nat.le_trans (h.reached c) (h'.reached c), h'.good ∘ h.good, h'.fresh ∘ h.fresh⟩

/-- An event at an offset that is there does not change when the log grows. -/
theorem slots_of_isPrefix {log log' : List Bytes} {p : Nat} {e : UsageEvent}
    (hlog : log <+: log') (hp : p < log.length)
    (h : (slots decode log')[p]? = some (some e)) : (slots decode log)[p]? = some (some e) := by
  obtain ⟨record, hrecord, hdecode⟩ := slots_eq_some.1 h
  obtain ⟨rest, rfl⟩ := hlog
  rw [List.getElem?_append_left hp] at hrecord
  exact slots_eq_some.2 ⟨record, hrecord, hdecode⟩

theorem mem_append_mono {α : Type} {l l' r : List α} (h : l ⊆ l') {x : α} (hx : x ∈ l ++ r) :
    x ∈ l' ++ r := by
  rcases List.mem_append.1 hx with hx | hx
  · exact List.mem_append_left _ (h hx)
  · exact List.mem_append_right _ hx

theorem Known.grown {c : String} {start i : Nat} {w w' : World} {ws : List Write}
    (h : Known cols decode c start i w ws) (hw : Grown cols decode ws w w') :
    Known cols decode c start i w' ws where
  good := hw.good h.good
  begun := Nat.le_trans h.begun (hw.reached c)
  bound := Nat.le_trans h.bound hw.log.length_le
  kinds := h.kinds
  fresh := hw.fresh h.fresh
  nodup := h.nodup
  sound := by
    intro row hrow
    obtain ⟨q, hq, hfirst⟩ := h.sound row hrow
    exact ⟨q, hq, hfirst.mono hw.log⟩
  complete := by
    intro p hstart hp e he
    have hlt := Nat.lt_of_lt_of_le hp h.bound
    obtain ⟨row, hrow, hkey⟩ := h.complete p hstart hp e (slots_of_isPrefix hw.log hlt he)
    exact ⟨row, mem_append_mono hw.events hrow, hkey⟩
  lettersNodup := h.lettersNodup
  lettersSound := by
    intro row hrow
    obtain ⟨p, hp, hletter⟩ := h.lettersSound row hrow
    exact ⟨p, hp, hletter.mono hw.log⟩
  lettersComplete := by
    intro p hstart hp row hletter
    have hlt := Nat.lt_of_lt_of_le hp h.bound
    obtain ⟨row', hrow', hkey⟩ := h.lettersComplete p hstart hp row (hletter.of_append hw.log hlt)
    exact ⟨row', mem_append_mono hw.deadLetters hrow', hkey⟩

section Batch

variable {c : String} {start i : Nat} {w : World} {ws : List Write}

/-- Passing the record at `i` with some further changes. -/
theorem Known.advance (h : Known cols decode c start i w ws) {extra : List Write}
    (hbound : i < w.log.length) (hkinds : ∀ a ∈ extra, BatchWrite a)
    (hfresh : Fresh (ws ++ extra) w)
    (hnodup : ((ownRows (ws ++ extra)).map EventRow.key).Nodup)
    (hsound : ∀ row ∈ ownRows extra, FirstRow cols decode w.log i row)
    (hcomplete : ∀ e, (slots decode w.log)[i]? = some (some e) →
      ∃ row ∈ w.db.events ++ ownRows (ws ++ extra), row.key = e.key)
    (hlettersNodup : ((ownLetters (ws ++ extra)).map DeadLetterRow.key).Nodup)
    (hlettersSound : ∀ row ∈ ownLetters extra, LetterAt decode c w.log i row)
    (hlettersComplete : ∀ row, LetterAt decode c w.log i row →
      ∃ row' ∈ w.db.deadLetters ++ ownLetters (ws ++ extra), row'.key = (c, i)) :
    Known cols decode c start (i + 1) w (ws ++ extra) where
  good := h.good
  begun := h.begun
  bound := hbound
  kinds := by
    exact List.forall_mem_append.2 ⟨h.kinds, hkinds⟩
  fresh := hfresh
  nodup := hnodup
  sound := by
    intro row hrow
    rw [ownRows_append, List.mem_append] at hrow
    rcases hrow with hrow | hrow
    · obtain ⟨q, hq, hfirst⟩ := h.sound row hrow
      exact ⟨q, by omega, hfirst⟩
    · exact ⟨i, by omega, hsound row hrow⟩
  complete := by
    intro p hstart hp e he
    rcases Nat.lt_succ_iff_lt_or_eq.1 hp with hp | rfl
    · obtain ⟨row, hrow, hkey⟩ := h.complete p hstart hp e he
      refine ⟨row, ?_, hkey⟩
      rw [ownRows_append, ← List.append_assoc]
      exact List.mem_append_left _ hrow
    · exact hcomplete e he
  lettersNodup := hlettersNodup
  lettersSound := by
    intro row hrow
    rw [ownLetters_append, List.mem_append] at hrow
    rcases hrow with hrow | hrow
    · obtain ⟨p, hp, hletter⟩ := h.lettersSound row hrow
      exact ⟨p, by omega, hletter⟩
    · exact ⟨i, by omega, hlettersSound row hrow⟩
  lettersComplete := by
    intro p hstart hp row hletter
    rcases Nat.lt_succ_iff_lt_or_eq.1 hp with hp | rfl
    · obtain ⟨row', hrow', hkey⟩ := h.lettersComplete p hstart hp row hletter
      refine ⟨row', ?_, hkey⟩
      rw [ownLetters_append, ← List.append_assoc]
      exact List.mem_append_left _ hrow'
    · exact hlettersComplete row hletter

/-- Touching a row changes nothing that is known. -/
theorem Known.touched (h : Known cols decode c start i w ws) (key : String × String) :
    Known cols decode c start i w (ws ++ [.touchEvent key]) := by
  have hrows : ownRows (ws ++ [.touchEvent key]) = ownRows ws := by
    simp [ownRows]
  have hletters : ownLetters (ws ++ [.touchEvent key]) = ownLetters ws := by
    simp [ownLetters]
  constructor
  · exact h.good
  · exact h.begun
  · exact h.bound
  · exact List.forall_mem_append.2 ⟨h.kinds, List.forall_mem_singleton.2 trivial⟩
  · constructor
    · rw [hrows]
      exact h.fresh.rows
    · rw [hletters]
      exact h.fresh.letters
  · rw [hrows]
    exact h.nodup
  · rw [hrows]
    exact h.sound
  · rw [hrows]
    exact h.complete
  · rw [hletters]
    exact h.lettersNodup
  · rw [hletters]
    exact h.lettersSound
  · rw [hletters]
    exact h.lettersComplete

variable {row : EventRow} {e : UsageEvent} {record : Bytes} {stop : Nat}

section

variable (h : Known cols decode c start i w ws)

include h

/-- Every event in sight is the first with its key. -/
theorem Known.firstRow (hrow : row ∈ w.db.events ++ ownRows ws) :
    ∃ q, FirstRow cols decode w.log q row := by
  rcases List.mem_append.1 hrow with hrow | hrow
  · obtain ⟨m, hstored, -⟩ := h.good.stored
    obtain ⟨q, -, hfirst⟩ := hstored.sound row hrow
    exact ⟨q, hfirst⟩
  · obtain ⟨q, -, hfirst⟩ := h.sound row hrow
    exact ⟨q, hfirst⟩

/-- Every event before position `i` has its key in sight. -/
theorem Known.in_sight {p : Nat} (hp : p < i) (he : (slots decode w.log)[p]? = some (some e)) :
    ∃ row ∈ w.db.events ++ ownRows ws, row.key = e.key := by
  by_cases hstart : start ≤ p
  · exact h.complete p hstart hp e he
  · obtain ⟨m, hstored, hreached⟩ := h.good.stored
    have hbegun := h.begun
    have hm := hreached c
    obtain ⟨row, hrow, hkey⟩ := hstored.complete p (by omega) e he
    exact ⟨row, List.mem_append_left _ hrow, hkey⟩

/-- An event whose key is not in sight is the first with it. -/
theorem Known.firstAt (hrecord : w.log[i]? = some record) (hdecode : decode record = .ok e)
    (hnew : ∀ stored ∈ w.db.events ++ ownRows ws, stored.key ≠ e.key) :
    FirstAt UsageEvent.key (slots decode w.log) i e := by
  constructor
  · exact slots_eq_some.2 ⟨record, hrecord, hdecode⟩
  · intro p hp e' he' hkey
    obtain ⟨row, hrow, hkey'⟩ := h.in_sight hp he'
    exact hnew row hrow (hkey'.trans hkey)

end

/-- No fingerprint conflicts with itself. -/
theorem fingerprintConflict_self (f : Option Bytes) : fingerprintConflict f f = false := by
  cases f with
  | none => rfl
  | some bytes => simp [fingerprintConflict]

/-- A record that decodes to `e` has a dead letter only if the event that is first with its
key has another fingerprint. -/
theorem conflict_of_letterAt {log : List Bytes} {first : UsageEvent} {q : Nat} {row : DeadLetterRow}
    (hletter : LetterAt decode c log i row) (hrecord : log[i]? = some record)
    (hdecode : decode record = .ok e) (hfirst : FirstAt UsageEvent.key (slots decode log) q first)
    (hkey : first.key = e.key) : fingerprintConflict first.fingerprint e.fingerprint = true := by
  cases hletter with
  | undecodable hrecord' hdecode' =>
      cases decode_unique hrecord hdecode hrecord' hdecode'
  | keyReuse hrecord' hdecode' hfirst' hkey' hconflict =>
      cases decode_unique hrecord hdecode hrecord' hdecode'
      rw [hfirst.unique hfirst' (hkey.trans hkey'.symm)]
      exact hconflict

/-- A row is inserted: its event is the first with its key. -/
theorem Known.inserted (h : Known cols decode c start i w ws) {record : Bytes} {e : UsageEvent}
    {row : EventRow} (hrecord : w.log[i]? = some record) (hdecode : decode record = .ok e)
    (hrow : cols.row e = some row)
    (hnew : ∀ stored ∈ w.db.events ++ ownRows ws, stored.key ≠ row.key) :
    Known cols decode c start (i + 1) w (ws ++ [.event row]) := by
  obtain ⟨hkey, hfingerprint⟩ := row_eq hrow
  rw [hkey] at hnew
  have hfirst := h.firstAt hrecord hdecode hnew
  have hrows : ownRows (ws ++ [.event row]) = ownRows ws ++ [row] := by
    simp [ownRows]
  have hletters : ownLetters (ws ++ [.event row]) = ownLetters ws := by
    simp [ownLetters]
  apply h.advance
  · exact (List.getElem?_eq_some_iff.1 hrecord).1
  · intro a ha
    rw [List.mem_singleton.1 ha]
    trivial
  · constructor
    · rw [hrows]
      intro row' hrow' stored hstored
      rcases List.mem_append.1 hrow' with hrow' | hrow'
      · exact h.fresh.rows row' hrow' stored hstored
      · rw [List.mem_singleton.1 hrow', hkey]
        exact hnew stored (List.mem_append_left _ hstored)
    · rw [hletters]
      exact h.fresh.letters
  · rw [hrows, List.map_append, List.nodup_append]
    refine ⟨h.nodup, List.nodup_singleton _, ?_⟩
    intro k hk k' hk' heq
    obtain ⟨stored, hstored, rfl⟩ := List.mem_map.1 hk
    rw [List.map_singleton, List.mem_singleton] at hk'
    rw [hk', hkey] at heq
    exact hnew stored (List.mem_append_right _ hstored) heq
  · intro row' hrow'
    rw [mem_ownRows, List.mem_singleton] at hrow'
    cases hrow'
    exact ⟨e, hfirst, hrow⟩
  · intro e' he'
    have hsame : e = e' := by
      have := hfirst.here.symm.trans he'
      simpa using this
    refine ⟨row, ?_, hsame ▸ hkey⟩
    rw [hrows]
    simp
  · rw [hletters]
    exact h.lettersNodup
  · intro row' hrow'
    rw [mem_ownLetters, List.mem_singleton] at hrow'
    cases hrow'
  · intro row' hletter
    have hconflict := conflict_of_letterAt hletter hrecord hdecode hfirst rfl
    rw [fingerprintConflict_self] at hconflict
    cases hconflict

section

variable (h : Known cols decode c start i w ws)

include h

/-- The event behind a row in sight that has the key of `e`. -/
theorem Known.first_of_stored {stored : EventRow} (hrow : cols.row e = some row)
    (hstored : stored ∈ w.db.events ++ ownRows ws) (hkey : stored.key = row.key) :
    ∃ q first, FirstAt UsageEvent.key (slots decode w.log) q first ∧ first.key = e.key ∧
      stored.fingerprint = first.fingerprint := by
  obtain ⟨q, first, hfirst, hfirstRow⟩ := h.firstRow hstored
  obtain ⟨hkeyFirst, hfingerprint⟩ := row_eq hfirstRow
  obtain ⟨hkeyRow, -⟩ := row_eq hrow
  exact ⟨q, first, hfirst, hkeyFirst.symm.trans (hkey.trans hkeyRow), hfingerprint⟩

/-- A row with the same key and no other fingerprint is there. -/
theorem Known.duplicate {stored : EventRow} (hrecord : w.log[i]? = some record)
    (hdecode : decode record = .ok e) (hrow : cols.row e = some row)
    (hstored : stored ∈ w.db.events ++ ownRows ws) (hkey : stored.key = row.key)
    (hsame : fingerprintConflict stored.fingerprint e.fingerprint = false) :
    Known cols decode c start (i + 1) w (ws ++ [.touchEvent row.key]) := by
  obtain ⟨q, first, hfirst, hkeyFirst, hfingerprint⟩ := h.first_of_stored hrow hstored hkey
  have htouched := h.touched row.key
  rw [← List.append_nil (ws ++ [_])]
  apply htouched.advance
  · exact (List.getElem?_eq_some_iff.1 hrecord).1
  · intro a ha
    cases ha
  · rw [List.append_nil]
    exact htouched.fresh
  · rw [List.append_nil]
    exact htouched.nodup
  · intro row' hrow'
    cases hrow'
  · intro e' he'
    obtain ⟨record', hrecord', hdecode'⟩ := slots_eq_some.1 he'
    cases decode_unique hrecord hdecode hrecord' hdecode'
    refine ⟨stored, ?_, hkey.trans (row_eq hrow).1⟩
    simpa [ownRows] using hstored
  · rw [List.append_nil]
    exact htouched.lettersNodup
  · intro row' hrow'
    cases hrow'
  · intro row' hletter
    have hconflict := conflict_of_letterAt hletter hrecord hdecode hfirst hkeyFirst
    rw [← hfingerprint, hsame] at hconflict
    cases hconflict

/-- The dead letter there should be is recorded. -/
theorem Known.letter {row : DeadLetterRow} (hletter : LetterAt decode c w.log i row)
    (hevent : ∀ e, (slots decode w.log)[i]? = some (some e) →
      ∃ stored ∈ w.db.events ++ ownRows ws, stored.key = e.key) :
    Known cols decode c start (i + 1) w
      (ws ++ letterWrites ((consumerEngine cols).view w ws).db row) := by
  have hbound := hletter.lt_length
  rw [view_of_batchWrites cols w h.kinds]
  rcases letterWrites_cases { w.db with
      events := w.db.events ++ ownRows ws
      deadLetters := w.db.deadLetters ++ ownLetters ws } row with
    ⟨hnone, row', hrow', hkey⟩ | ⟨hone, hnew⟩
  · rw [hnone]
    apply h.advance hbound
    · intro a ha
      cases ha
    · rw [List.append_nil]
      exact h.fresh
    · rw [List.append_nil]
      exact h.nodup
    · intro row'' hrow''
      cases hrow''
    · rw [List.append_nil]
      exact hevent
    · rw [List.append_nil]
      exact h.lettersNodup
    · intro row'' hrow''
      cases hrow''
    · rw [List.append_nil]
      intro _ _
      exact ⟨row', hrow', hkey.trans hletter.key_eq⟩
  · rw [hone]
    have hrows : ownRows (ws ++ [.deadLetter row]) = ownRows ws := by
      simp [ownRows]
    have hletters : ownLetters (ws ++ [.deadLetter row]) = ownLetters ws ++ [row] := by
      simp [ownLetters]
    apply h.advance hbound
    · intro a ha
      rw [List.mem_singleton.1 ha]
      trivial
    · constructor
      · rw [hrows]
        exact h.fresh.rows
      · rw [hletters]
        intro row' hrow' stored hstored
        rcases List.mem_append.1 hrow' with hrow' | hrow'
        · exact h.fresh.letters row' hrow' stored hstored
        · rw [List.mem_singleton.1 hrow']
          exact hnew stored (List.mem_append_left _ hstored)
    · rw [hrows]
      exact h.nodup
    · intro row' hrow'
      rw [mem_ownRows, List.mem_singleton] at hrow'
      cases hrow'
    · rw [hrows]
      exact hevent
    · rw [hletters, List.map_append, List.nodup_append]
      refine ⟨h.lettersNodup, List.nodup_singleton _, ?_⟩
      intro k hk k' hk' heq
      obtain ⟨stored, hstored, rfl⟩ := List.mem_map.1 hk
      rw [List.map_singleton, List.mem_singleton] at hk'
      rw [hk'] at heq
      exact hnew stored (List.mem_append_right _ hstored) heq
    · intro row' hrow'
      rw [mem_ownLetters, List.mem_singleton] at hrow'
      cases hrow'
      exact hletter
    · rw [hletters]
      intro _ _
      exact ⟨row, by simp, hletter.key_eq⟩

end

/-- The offset of a batch is not one of the rows the others care about. -/
theorem grown_of_offset {w' : World} (h : Grown cols decode (ws ++ [.offset c stop]) w w') :
    Grown cols decode ws w w' := by
  have hrows : ownRows (ws ++ [.offset c stop]) = ownRows ws := by
    simp [ownRows]
  have hletters : ownLetters (ws ++ [.offset c stop]) = ownLetters ws := by
    simp [ownLetters]
  refine ⟨h.log, h.events, h.deadLetters, h.reached, h.good, ?_⟩
  intro hfresh
  have hfresh' := h.fresh ⟨by rw [hrows]; exact hfresh.rows, by rw [hletters]; exact hfresh.letters⟩
  constructor
  · have := hfresh'.rows
    rw [hrows] at this
    exact this
  · have := hfresh'.letters
    rw [hletters] at this
    exact this

theorem batchRules (c : String) (start stop : Nat) :
    BatchRules cols decode c stop (Grown cols decode) (Known cols decode c start)
      (Ready cols decode c) where
  refl := Grown.refl
  log := fun _ _ _ h => h.log
  events := fun _ _ _ h => h.events
  stable := fun _ _ _ _ h hknown => hknown.grown h
  ready_stable := by
    rintro ws w w' h ⟨start, stop, ws', rfl, hknown⟩
    exact ⟨start, stop, ws', rfl, hknown.grown (grown_of_offset h)⟩
  undecodable := by
    intro i w ws record detail h hrecord hdecode
    apply h.letter (.undecodable hrecord hdecode)
    intro e he
    obtain ⟨record', hrecord', hdecode'⟩ := slots_eq_some.1 he
    cases decode_unique hrecord hdecode hrecord' hdecode'
  inserted := by
    intro i w ws record e row h hrecord hdecode hrow hnew
    rw [view_of_batchWrites cols w h.kinds] at hnew
    exact h.inserted hrecord hdecode hrow hnew
  duplicate := by
    intro i w ws record e row stored h hrecord hdecode hrow hstored hkey hsame
    rw [view_of_batchWrites cols w h.kinds] at hstored
    exact h.duplicate hrecord hdecode hrow hstored hkey hsame
  touched := fun _ _ _ key h => h.touched key
  conflict := by
    intro i w ws record e row stored h hrecord hdecode hrow hstored hkey hconflict
    have hmem := hstored
    rw [view_of_batchWrites cols w h.kinds] at hmem
    obtain ⟨q, first, hfirst, hkeyFirst, hfingerprint⟩ := h.first_of_stored hrow hmem hkey
    rw [hfingerprint] at hconflict
    apply h.letter (.keyReuse hrecord hdecode hfirst hkeyFirst hconflict)
    intro e' he'
    obtain ⟨record', hrecord', hdecode'⟩ := slots_eq_some.1 he'
    cases decode_unique hrecord hdecode hrecord' hdecode'
    exact ⟨stored, hmem, hkey.trans (row_eq hrow).1⟩
  ready := fun w ws h => ⟨start, stop, ws, rfl, h⟩

/-- A list stays free of repetitions when fresh rows are added. -/
theorem nodup_append_of_fresh {α κ : Type} {key : α → κ} {stored own : List α}
    (hstored : (stored.map key).Nodup) (hown : (own.map key).Nodup)
    (hfresh : ∀ row ∈ own, ∀ row' ∈ stored, key row' ≠ key row) :
    ((stored ++ own).map key).Nodup := by
  rw [List.map_append, List.nodup_append]
  refine ⟨hstored, hown, ?_⟩
  intro k hk k' hk' heq
  obtain ⟨row', hrow', rfl⟩ := List.mem_map.1 hk
  obtain ⟨row, hrow, rfl⟩ := List.mem_map.1 hk'
  exact hfresh row hrow row' hrow' heq

variable (h : Known cols decode c start stop w ws)

include h

/-- A commit moves the first-occurrence map on to the end of the batch. -/
theorem Known.stored_commit {m : Nat} (hstored : Stored cols decode m w) (hm : w.reached c ≤ m) :
    Stored cols decode (max m stop)
      ((consumerEngine cols).view w (ws ++ [.offset c stop])) := by
  constructor
  · rw [commit_log h.kinds]
    exact Nat.max_le.2 ⟨hstored.bound, h.bound⟩
  · rw [commit_events h.kinds]
    exact nodup_append_of_fresh hstored.nodup h.nodup h.fresh.rows
  · rw [commit_log h.kinds, commit_events h.kinds]
    intro row hrow
    rcases List.mem_append.1 hrow with hrow | hrow
    · obtain ⟨q, hq, hfirst⟩ := hstored.sound row hrow
      exact ⟨q, by omega, hfirst⟩
    · obtain ⟨q, hq, hfirst⟩ := h.sound row hrow
      exact ⟨q, by omega, hfirst⟩
  · rw [commit_log h.kinds, commit_events h.kinds]
    intro p hp e he
    have hbegun := h.begun
    by_cases hpm : p < m
    · obtain ⟨row, hrow, hkey⟩ := hstored.complete p hpm e he
      exact ⟨row, List.mem_append_left _ hrow, hkey⟩
    · exact h.complete p (by omega) (by omega) e he

/-- And the dead letters of the consumer. -/
theorem Known.buried_commit :
    Buried decode ((consumerEngine cols).view w (ws ++ [.offset c stop])) := by
  have hburied := h.good.buried
  have hbegun := h.begun
  constructor
  · rw [commit_deadLetters h.kinds]
    exact nodup_append_of_fresh hburied.nodup h.lettersNodup h.fresh.letters
  · rw [commit_log h.kinds, commit_deadLetters h.kinds]
    intro row hrow
    rw [commit_reached h.kinds]
    rcases List.mem_append.1 hrow with hrow | hrow
    · obtain ⟨p, hp, hletter⟩ := hburied.sound row hrow
      refine ⟨p, ?_, hletter⟩
      split
      · rename_i hc
        rw [hc] at hp
        omega
      · exact hp
    · obtain ⟨p, hp, hletter⟩ := h.lettersSound row hrow
      have hc : row.consumer = c := congrArg Prod.fst hletter.key_eq
      refine ⟨p, ?_, hc ▸ hletter⟩
      rw [if_pos hc]
      omega
  · rw [commit_log h.kinds, commit_deadLetters h.kinds]
    intro c' p row hp hletter
    rw [commit_reached h.kinds] at hp
    by_cases hbatch : c' = c ∧ start ≤ p ∧ p < stop
    · obtain ⟨rfl, hstart, hstop⟩ := hbatch
      exact h.lettersComplete p hstart hstop row hletter
    · have hpast : p < w.reached c' := by
        split at hp
        · rename_i hc
          subst hc
          have hout : ¬ (start ≤ p ∧ p < stop) := fun hin => hbatch ⟨rfl, hin⟩
          omega
        · exact hp
      obtain ⟨row', hrow', hkey⟩ := hburied.complete c' p row hpast hletter
      exact ⟨row', List.mem_append_left _ hrow', hkey⟩

theorem Known.good_commit :
    Good cols decode ((consumerEngine cols).view w (ws ++ [.offset c stop])) := by
  obtain ⟨m, hstored, hreached⟩ := h.good.stored
  constructor
  · refine ⟨max m stop, h.stored_commit hstored (hreached c), ?_⟩
    intro c'
    have hc' := hreached c'
    have hc := hreached c
    rw [commit_reached h.kinds]
    split <;> omega
  · exact h.buried_commit
  · intro c' next hnext
    rw [commit_offsets h.kinds] at hnext
    rw [commit_reached h.kinds]
    split at hnext
    · rename_i hc
      cases hnext
      rw [if_pos hc]
      omega
    · rename_i hc
      rw [if_neg hc]
      exact h.good.offsets c' next hnext

/-- A commit is growth for every other batch. -/
theorem Known.grown_others {ws' : List Write}
    (hlocks : ∀ a ∈ ws ++ [.offset c stop], ∀ b ∈ ws', a.lock ≠ none → a.lock ≠ b.lock) :
    Grown cols decode ws' w ((consumerEngine cols).view w (ws ++ [.offset c stop])) := by
  constructor
  · rw [commit_log h.kinds]
  · rw [commit_events h.kinds]
    exact List.subset_append_left _ _
  · rw [commit_deadLetters h.kinds]
    exact List.subset_append_left _ _
  · exact view_reached cols w _
  · exact fun _ => h.good_commit
  · intro hfresh
    constructor
    · rw [commit_events h.kinds]
      intro row hrow stored hstored hkey
      rcases List.mem_append.1 hstored with hstored | hstored
      · exact hfresh.rows row hrow stored hstored hkey
      · apply hlocks _ (List.mem_append_left _ (mem_ownRows.1 hstored)) _ (mem_ownRows.1 hrow)
        · exact nofun
        · simp [Write.lock, hkey]
    · rw [commit_deadLetters h.kinds]
      intro row hrow stored hstored hkey
      rcases List.mem_append.1 hstored with hstored | hstored
      · exact hfresh.letters row hrow stored hstored hkey
      · apply hlocks _ (List.mem_append_left _ (mem_ownLetters.1 hstored)) _
          (mem_ownLetters.1 hrow)
        · exact nofun
        · simp [Write.lock, hkey]

end Batch

/-- What the consumers keep about the tables. -/
def contract (cols : Columns) (decode : Decoder) :
    Contract cols decode where
  Good := Good cols decode
  R := fun _ => Grown cols decode
  Known := Known cols decode
  Ready := Ready cols decode
  rules := fun c start stop _ => batchRules c start stop
  trans := fun _ _ _ _ _ h h' => h.trans h'
  reached := fun _ _ _ _ h => h.reached
  behind := fun _ c next h => h.offsets c next
  begin := by
    intro c start w hgood hstart
    obtain ⟨m, hstored, hreached⟩ := hgood.stored
    have hm := hreached c
    have hbound := hstored.bound
    constructor
    · exact hgood
    · exact hstart
    · omega
    · exact nofun
    · exact ⟨nofun, nofun⟩
    · exact List.nodup_nil
    · exact nofun
    · intro p hp hp'
      omega
    · exact List.nodup_nil
    · exact nofun
    · intro p hp hp'
      omega
  commit := by
    rintro c w ws hgood ⟨start, stop, ws', rfl, hknown⟩
    exact hknown.good_commit
  others := by
    rintro c w ws hgood ⟨start, stop, ws', rfl, hknown⟩ c' ws'' hlocks
    exact hknown.grown_others hlocks

end Delivery

section Run

variable (cols : Columns) (decode : Decoder)
  (consumers : Nat → Consumer)

/-- One step of the whole: the log grows, an offset is set back, or a drain goes on. -/
inductive DeliveryStep : Fleet → Fleet → Prop
  | append {f : Fleet} (records : List Bytes) :
      DeliveryStep f (f.withWorld { f.world with log := f.world.log ++ records })
  | rewind {f : Fleet} {c : String} {next next' : Nat}
      (hnext : f.world.db.offsets c = some next) (hlt : next' < next) :
      DeliveryStep f
        (f.withWorld
          { f.world with
            db :=
              { f.world.db with
                offsets := Function.update f.world.db.offsets c (some next') } })
  | drain {f f' : Fleet} (hstep : DrainStep cols decode consumers f f') : DeliveryStep f f'

variable {cols decode consumers}

namespace Delivery

variable {w : World}

/-- A longer log says the same about the records that were there. -/
theorem Good.append (h : Good cols decode w) (records : List Bytes) :
    Good cols decode { w with log := w.log ++ records } := by
  have hlog := List.prefix_append w.log records
  obtain ⟨m, hstored, hreached⟩ := h.stored
  have hbound := hstored.bound
  constructor
  · refine ⟨m, ⟨?_, hstored.nodup, ?_, ?_⟩, hreached⟩
    · exact Nat.le_trans hbound hlog.length_le
    · intro row hrow
      obtain ⟨q, hq, hfirst⟩ := hstored.sound row hrow
      exact ⟨q, hq, hfirst.mono hlog⟩
    · intro p hp e he
      exact hstored.complete p hp e (slots_of_isPrefix hlog (by omega) he)
  · refine ⟨h.buried.nodup, ?_, ?_⟩
    · intro row hrow
      obtain ⟨p, hp, hletter⟩ := h.buried.sound row hrow
      exact ⟨p, hp, hletter.mono hlog⟩
    · intro c p row hp hletter
      have hpast : p < w.reached c := hp
      have hc := hreached c
      exact h.buried.complete c p row hpast (hletter.of_append hlog (by omega))
  · exact h.offsets

/-- Setting an offset back touches no table that is read. -/
theorem Good.rewind (h : Good cols decode w) {c : String} {next next' : Nat}
    (hnext : w.db.offsets c = some next) (hlt : next' < next) :
    Good cols decode
      { w with db := { w.db with offsets := Function.update w.db.offsets c (some next') } } := by
  obtain ⟨m, hstored, hreached⟩ := h.stored
  constructor
  · exact ⟨m, ⟨hstored.bound, hstored.nodup, hstored.sound, hstored.complete⟩, hreached⟩
  · exact ⟨h.buried.nodup, h.buried.sound, h.buried.complete⟩
  · intro c' n hn
    by_cases hc : c' = c
    · subst hc
      have hold := h.offsets c' next hnext
      simp only [Function.update_self, Option.some.injEq] at hn
      show n ≤ w.reached c'
      omega
    · simp only [Function.update_of_ne hc] at hn
      exact h.offsets c' n hn

theorem good_start (log : List Bytes) :
    Good cols decode ⟨log, .empty, fun _ => 0⟩ where
  stored :=
    ⟨0, ⟨Nat.zero_le _, List.nodup_nil, nofun,
      (fun p hp => absurd hp (Nat.not_lt_zero p))⟩, fun _ => Nat.le_refl 0⟩
  buried :=
    ⟨List.nodup_nil, nofun,
      (fun _ p _ hp => absurd hp (Nat.not_lt_zero p))⟩
  offsets := nofun

/-- A longer log is growth for every batch. -/
theorem grown_append {records : List Bytes}
    (h : Good cols decode { w with log := w.log ++ records }) (ws : List Write) :
    Grown cols decode ws w { w with log := w.log ++ records } where
  log := List.prefix_append _ _
  events := List.Subset.refl _
  deadLetters := List.Subset.refl _
  reached := fun _ => Nat.le_refl _
  good := fun _ => h
  fresh := fun hfresh => ⟨hfresh.rows, hfresh.letters⟩

theorem inv_step {f f' : Fleet} (h : FleetInv (contract cols decode) consumers f)
    (hstep : DeliveryStep cols decode consumers f f') :
    FleetInv (contract cols decode) consumers f' := by
  have hgood : Good cols decode f.world := h.good
  cases hstep with
  | append records =>
      have hgood' := hgood.append records
      apply h.change hgood' (fun _ => Nat.le_refl _)
      exact fun t s _ => grown_append hgood' s.writes
  | rewind hnext hlt =>
      have hgood' := hgood.rewind hnext hlt
      apply h.change hgood' (fun _ => Nat.le_refl _)
      intro t s _
      exact ⟨List.prefix_rfl, List.Subset.refl _, List.Subset.refl _,
        (fun _ => Nat.le_refl _), (fun _ => hgood'), (fun hfresh => ⟨hfresh.rows, hfresh.letters⟩)⟩
  | drain hstep => exact h.step hstep

theorem inv_of_run {log : List Bytes} {f : Fleet}
    (h : Relation.ReflTransGen (DeliveryStep cols decode consumers)
      (.start ⟨log, .empty, fun _ => 0⟩) f) :
    FleetInv (contract cols decode) consumers f := by
  induction h with
  | refl =>
      exact .start (good_start log)
  | tail _ hstep ih => exact inv_step ih hstep

/-- The slots of a beginning of the log. -/
theorem slots_take (log : List Bytes) (m : Nat) :
    slots decode (log.take m) = (slots decode log).take m := by
  rw [slots, slots, List.map_take]

/-- `events` is the first-occurrence map of the records before `m`, as a table. -/
theorem Stored.perm {m : Nat} (h : Stored cols decode m w) :
    (w.db.events.map some).Perm
      ((firstOccurrences decode (w.log.take m)).map cols.row) := by
  have hfirst : ∀ e, e ∈ firstOccurrences decode (w.log.take m) ↔
      ∃ q < m, FirstAt UsageEvent.key (slots decode w.log) q e := by
    intro e
    rw [firstOccurrences, mem_keepFirst, slots_take]
    simp only [firstAt_take]
  -- every first occurrence has its row
  have hrow : ∀ e ∈ firstOccurrences decode (w.log.take m),
      ∃ row ∈ w.db.events, cols.row e = some row := by
    intro e he
    obtain ⟨q, hq, hat⟩ := (hfirst e).1 he
    obtain ⟨row, hmem, hkey⟩ := h.complete q hq e hat.here
    obtain ⟨q', -, e', hat', hrow'⟩ := h.sound row hmem
    have hsame := hat'.unique hat ((row_eq hrow').1.symm.trans hkey)
    exact ⟨row, hmem, hsame ▸ hrow'⟩
  have hnodup : ((firstOccurrences decode (w.log.take m)).map cols.row).Nodup := by
    apply List.Nodup.map_on _ (List.Nodup.of_map _ (nodup_keepFirst _))
    intro e he e' he' hsame
    obtain ⟨row, -, hrowe⟩ := hrow e he
    have hkeys := (row_eq hrowe).1.symm.trans (row_eq (hsame ▸ hrowe)).1
    obtain ⟨q, -, hat⟩ := (hfirst e).1 he
    obtain ⟨q', -, hat'⟩ := (hfirst e').1 he'
    exact hat.unique hat' hkeys
  apply (List.perm_ext_iff_of_nodup
    ((List.Nodup.of_map _ h.nodup).map (Option.some_injective _)) hnodup).2
  intro found
  rw [List.mem_map, List.mem_map]
  constructor
  · rintro ⟨row, hmem, rfl⟩
    obtain ⟨q, hq, e, hat, hrowe⟩ := h.sound row hmem
    exact ⟨e, (hfirst e).2 ⟨q, hq, hat⟩, hrowe⟩
  · rintro ⟨e, he, rfl⟩
    obtain ⟨row, hmem, hrowe⟩ := hrow e he
    exact ⟨row, hmem, hrowe.symm⟩

/-- The dead letters of a consumer are those of the records it has passed, as a table. -/
theorem Buried.perm (h : Buried decode w) (c : String) :
    (w.db.deadLetters.filter (fun row => row.consumer = c)).Perm
      ((List.range (w.reached c)).filterMap (letterFor decode w.log c)) := by
  have hnodup : ((List.range (w.reached c)).filterMap (letterFor decode w.log c)).Nodup := by
    apply List.Nodup.filterMap _ List.nodup_range
    intro p p' row hp hp'
    have hkey := (letterFor_eq_some.1 hp).key_eq
    have hkey' := (letterFor_eq_some.1 hp').key_eq
    exact congrArg Prod.snd (hkey.symm.trans hkey')
  apply (List.perm_ext_iff_of_nodup ((List.Nodup.of_map _ h.nodup).filter _) hnodup).2
  intro row
  rw [List.mem_filter, List.mem_filterMap, decide_eq_true_eq]
  constructor
  · rintro ⟨hmem, rfl⟩
    obtain ⟨p, hp, hletter⟩ := h.sound row hmem
    exact ⟨p, List.mem_range.2 hp, letterFor_eq_some.2 hletter⟩
  · rintro ⟨p, hp, hrow⟩
    have hletter := letterFor_eq_some.1 hrow
    obtain ⟨row', hmem, hkey⟩ := h.complete c p row (List.mem_range.1 hp) hletter
    obtain ⟨p', -, hletter'⟩ := h.sound row' hmem
    -- the stored letter is the one for the same offset
    have hc : row'.consumer = c := congrArg Prod.fst hkey
    rw [hc] at hletter'
    have hp' : p' = p := congrArg Prod.snd (hletter'.key_eq.symm.trans hkey)
    subst hp'
    rw [hletter.unique hletter']
    exact ⟨hmem, hc⟩

end Delivery

/-- Whatever the consumers do, in whatever order, the tables are what a beginning of the log
says: `events` is its first-occurrence map, and the dead letters of each consumer are those
of a beginning that is not longer. -/
theorem exactly_once {log : List Bytes} {f : Fleet}
    (h : Relation.ReflTransGen (DeliveryStep cols decode consumers)
      (.start ⟨log, .empty, fun _ => 0⟩) f) :
    ∃ m ≤ f.world.log.length, (∀ c, (f.world.db.offsets c).getD 0 ≤ m) ∧
      (f.world.db.events.map some).Perm
        ((firstOccurrences decode (f.world.log.take m)).map cols.row) ∧
      ∀ c, ∃ mc ≤ m, (f.world.db.offsets c).getD 0 ≤ mc ∧
        (f.world.db.deadLetters.filter (fun row => row.consumer = c)).Perm
          ((List.range mc).filterMap (letterFor decode f.world.log c)) := by
  have hgood : Delivery.Good cols decode f.world := (Delivery.inv_of_run h).good
  obtain ⟨m, hstored, hreached⟩ := hgood.stored
  have hbehind : ∀ c, (f.world.db.offsets c).getD 0 ≤ f.world.reached c := by
    intro c
    cases hoffset : f.world.db.offsets c with
    | none => exact Nat.zero_le _
    | some next =>
        exact hgood.offsets c next hoffset
  refine ⟨m, hstored.bound, ?_, hstored.perm, ?_⟩
  · intro c
    exact Nat.le_trans (hbehind c) (hreached c)
  · intro c
    exact ⟨f.world.reached c, hreached c, hbehind c, hgood.buried.perm c⟩

/-- Records of one byte, which is also their fingerprint, all under one key. -/
def byteDecode : Decoder
  | [] => .error "empty record"
  | b :: _ => .ok ⟨"acme", "calls", "1", 0, 0, "k", some [b]⟩

/-- A log with a first occurrence, a reuse of its key and an undecodable record. -/
theorem exactly_once_sample :
    ∃ f : Fleet, f.world.db.offsets "billing" = some 3 ∧
      ∃ m ≤ f.world.log.length, (∀ c, (f.world.db.offsets c).getD 0 ≤ m) ∧
      (f.world.db.events.map some).Perm
        ((firstOccurrences byteDecode (f.world.log.take m)).map postgresColumns.row) ∧
      ∀ c, ∃ mc ≤ m, (f.world.db.offsets c).getD 0 ≤ mc ∧
        (f.world.db.deadLetters.filter (fun row => row.consumer = c)).Perm
          ((List.range mc).filterMap (letterFor byteDecode f.world.log c)) := by
  have hrun : ((Consumer.new "billing" 0).runBatch postgresColumns byteDecode
      ⟨[[1], [2], []], .empty, fun _ => 0⟩).1 = .commit ⟨3, 1, 0, 2, 2⟩ := by
    decide +kernel
  have hsteps : Relation.ReflTransGen
      (DrainStep postgresColumns byteDecode fun _ => .new "billing" 0)
      (.start ⟨[[1], [2], []], .empty, fun _ => 0⟩) _ :=
    DrainStep.batch_alone (t := 0) rfl (fun _ => rfl) (by decide) hrun
  refine ⟨_, ?_, exactly_once (hsteps.lift id fun _ _ => .drain)⟩
  decide +kernel

end Run

end Delivery

end LedgerLine.Billing
