import LedgerLine.Billing.Database

/-!
# The consumer

Follows `billing/consumer/consumer.go`.  `processBatch` applies the records of a batch and
advances the offset in one transaction: a record that cannot be decoded, or whose
idempotency key is stored with another content, becomes a dead letter, every other record
becomes an event or is recognised as one that is there already.

Decoding a record is `encoding/json`'s work and a parameter here; its error carries the
text that ends up in the dead letter.  Offsets are natural numbers: a log is far from
holding 2 to the 63 records.
-/

namespace LedgerLine.Billing

/-- `DefaultBatchSize`. -/
def defaultBatchSize : Nat := 100

/-- A `Consumer`: the name its offset is stored under, and its batch size. -/
structure Consumer where
  name : String
  batchSize : Nat
  batchSize_pos : 0 < batchSize

/-- `New`: a batch size that is not positive means the default. -/
def Consumer.new (name : String) (batchSize : Int) : Consumer :=
  if h : batchSize ≤ 0 then
    ⟨name, defaultBatchSize, by decide⟩
  else
    ⟨name, batchSize.toNat, by omega⟩

/-- What a batch does inside its transaction. -/
inductive ConsumerStmt
  /-- `log.Read`. -/
  | readLog (offset : Nat)
  | insertEvent (e : UsageEvent)
  | insertDeadLetter (row : DeadLetterRow)
  | commitOffset (consumer : String) (next : Nat)

/-- What it is answered. -/
def ConsumerStmt.Answer : ConsumerStmt → Type
  | readLog _ => Bytes
  -- whether a row was inserted, and the fingerprint that is stored
  | insertEvent _ => Bool × Option Bytes
  -- the number of rows inserted
  | insertDeadLetter _ => Nat
  | commitOffset _ _ => Unit

/-- Why a statement fails. -/
inductive StmtErr
  /-- The log has no record at this offset. -/
  | outOfRange (offset : Nat)
  /-- The database refuses a value or a row. -/
  | refused
  /-- A lost connection, a deadlock, a cancelled context. -/
  | unavailable
deriving DecidableEq, Repr

/-- The dead letters that an insertion adds: none if the offset is recorded already. -/
def letterWrites (db : Database) (row : DeadLetterRow) : List Write :=
  if db.deadLetters.any (fun r => r.key = row.key) then [] else [.deadLetter row]

/-- The effect of a statement. -/
def ConsumerStmt.exec (cols : Columns) :
    (o : ConsumerStmt) → World → Except StmtErr o.Answer × List Write
  | readLog offset, w =>
      match w.log[offset]? with
      | none => (.error (.outOfRange offset), [])
      | some record => (.ok record, [])
  | insertEvent e, w =>
      match cols.row e with
      | none => (.error .refused, [])
      | some row =>
          match w.db.events.find? (fun r => r.key = row.key) with
          | none => (.ok (true, row.fingerprint), [.event row])
          | some stored => (.ok (false, stored.fingerprint), [.touchEvent row.key])
  | insertDeadLetter row, w =>
      (.ok (letterWrites w.db row).length, letterWrites w.db row)
  | commitOffset consumer next, _ => (.ok (), [.offset consumer next])

/-- The rows a statement has to own. -/
def ConsumerStmt.waits (cols : Columns) : ConsumerStmt → List Lock
  | readLog _ => []
  | insertEvent e => (cols.row e).toList.map (fun row => .event row.key)
  | insertDeadLetter row => [.deadLetter row.key]
  | commitOffset consumer _ => [.offset consumer]

/-- The database as the consumer uses it. -/
def consumerEngine (cols : Columns) :
    Engine ConsumerStmt ConsumerStmt.Answer StmtErr World Write Lock where
  exec := ConsumerStmt.exec cols
  draw := fun _ w => w
  apply := World.apply
  lock := Write.lock
  waits := fun o _ => o.waits cols
  lock_mem_waits := by
    intro o w c l hc hl
    cases o with
    | readLog offset =>
        simp only [ConsumerStmt.exec] at hc
        split at hc <;> cases hc
    | insertEvent e =>
        simp only [ConsumerStmt.exec] at hc
        simp only [ConsumerStmt.waits]
        split at hc
        · cases hc
        · rename_i row hrow
          rw [hrow]
          split at hc <;>
          · rw [List.mem_singleton] at hc
            subst hc
            cases hl
            exact List.mem_singleton.2 rfl
    | insertDeadLetter row =>
        simp only [ConsumerStmt.exec, letterWrites] at hc
        split at hc
        · cases hc
        · rw [List.mem_singleton] at hc
          subst hc
          cases hl
          exact List.mem_singleton.2 rfl
    | commitOffset consumer next =>
        rw [ConsumerStmt.exec, List.mem_singleton] at hc
        subst hc
        cases hl
        exact List.mem_singleton.2 rfl

/-- `Stats`. -/
structure Stats where
  read : Nat
  inserted : Nat
  duplicates : Nat
  conflicts : Nat
  deadLettered : Nat
deriving DecidableEq, Repr

/-- `Stats.add`. -/
def Stats.add (s batch : Stats) : Stats :=
  ⟨s.read + batch.read, s.inserted + batch.inserted, s.duplicates + batch.duplicates,
    s.conflicts + batch.conflicts, s.deadLettered + batch.deadLettered⟩

/-- A conflict, and whether its dead letter is a new row. -/
def Stats.conflict (s : Stats) (written : Bool) : Stats :=
  { s with
    conflicts := s.conflicts + 1
    deadLettered := if written then s.deadLettered + 1 else s.deadLettered }

/-- Why a batch fails. -/
inductive BatchErr
  | read (offset : Nat) (e : StmtErr)
  | deadLetter (offset : Nat) (e : StmtErr)
  | apply (offset : Nat) (e : StmtErr)
  | commitOffset (e : StmtErr)
deriving DecidableEq, Repr

/-- Code that runs inside a batch's transaction. -/
abbrev BatchBody (α : Type) := Body ConsumerStmt ConsumerStmt.Answer StmtErr α

/-- How a batch ends; the statistics are returned in any case. -/
abbrev BatchEnd := Outcome (Stats × BatchErr) Stats

/-- `log.Read`. -/
def readLog (offset : Nat) : BatchBody (Except StmtErr Bytes) :=
  Program.perform (ConsumerStmt.readLog offset)

/-- The statement `insertEvent`. -/
def insertEvent (e : UsageEvent) : BatchBody (Except StmtErr (Bool × Option Bytes)) :=
  Program.perform (ConsumerStmt.insertEvent e)

/-- The statement `insertDeadLetter`. -/
def insertDeadLetter (row : DeadLetterRow) : BatchBody (Except StmtErr Nat) :=
  Program.perform (ConsumerStmt.insertDeadLetter row)

/-- The statement `commitOffset`. -/
def commitOffset (consumer : String) (next : Nat) : BatchBody (Except StmtErr Unit) :=
  Program.perform (ConsumerStmt.commitOffset consumer next)

/-- `applyResult`. -/
inductive Applied
  | inserted
  | duplicate
  | conflict
deriving DecidableEq, Repr

/-- `stored != nil && !bytes.Equal(stored, own)`; a nil slice has no bytes. -/
def fingerprintConflict (stored own : Option Bytes) : Bool :=
  match stored with
  | none => false
  | some bytes => bytes ≠ own.getD []

/-- `Consumer.apply`. -/
def applyEvent (e : UsageEvent) : BatchBody (Except StmtErr Applied) := do
  match ← insertEvent e with
  | .error err => pure (.error err)
  | .ok (inserted, stored) =>
      if inserted then
        pure (.ok .inserted)
      else if fingerprintConflict stored e.fingerprint then
        pure (.ok .conflict)
      else
        pure (.ok .duplicate)

/-- The dead letter for a record that could not be decoded. -/
def undecodableLetter (consumer : String) (offset : Nat) (detail : String) (record : Bytes) :
    DeadLetterRow :=
  ⟨consumer, offset, .undecodable, detail, none, none, record⟩

/-- The dead letter for an event whose key is stored with another content. -/
def keyReuseLetter (consumer : String) (offset : Nat) (e : UsageEvent) (record : Bytes) :
    DeadLetterRow :=
  ⟨consumer, offset, .keyReuse,
    "idempotency key already used for an event with different content",
    some e.tenantId, some e.idempotencyKey, record⟩

/-- `Consumer.deadLetter`: whether a new row was written. -/
def deadLetter (row : DeadLetterRow) : BatchBody (Except StmtErr Bool) := do
  match ← insertDeadLetter row with
  | .error err => pure (.error err)
  | .ok affected => pure (.ok (0 < affected))

/-- The loop of `processBatch`, with `n` records left from `offset` on, and what follows
it. -/
def processRecords (decode : Decoder) (consumer : String) (stop : Nat) :
    (n offset : Nat) → Stats → BatchBody BatchEnd
  | 0, _, stats => do
      match ← commitOffset consumer stop with
      | .error e => pure (.rollback (stats, .commitOffset e))
      | .ok () => pure (.commit stats)
  | n + 1, offset, stats => do
      match ← readLog offset with
      | .error e => pure (.rollback (stats, .read offset e))
      | .ok record =>
          let stats := { stats with read := stats.read + 1 }
          match decode record with
          | .error detail =>
              match ← deadLetter (undecodableLetter consumer offset detail record) with
              | .error e => pure (.rollback (stats, .deadLetter offset e))
              | .ok written =>
                  processRecords decode consumer stop n (offset + 1) (stats.conflict written)
          | .ok e =>
              match ← applyEvent e with
              | .error err => pure (.rollback (stats, .apply offset err))
              | .ok .inserted =>
                  processRecords decode consumer stop n (offset + 1)
                    { stats with inserted := stats.inserted + 1 }
              | .ok .duplicate =>
                  processRecords decode consumer stop n (offset + 1)
                    { stats with duplicates := stats.duplicates + 1 }
              | .ok .conflict =>
                  match ← deadLetter (keyReuseLetter consumer offset e record) with
                  | .error err => pure (.rollback (stats, .deadLetter offset err))
                  | .ok written =>
                      processRecords decode consumer stop n (offset + 1) (stats.conflict written)

/-- `Consumer.processBatch`: the records from `start` up to `stop`. -/
def processBatch (decode : Decoder) (c : Consumer) (start stop : Nat) :
    BatchBody BatchEnd :=
  processRecords decode c.name stop (stop - start) start ⟨0, 0, 0, 0, 0⟩

/-- `Consumer.NextOffset`: a consumer that has never committed starts at the beginning. -/
def Consumer.nextOffset (c : Consumer) (db : Database) : Nat :=
  (db.offsets c.name).getD 0

/-- Where `Drain` ends the batch that starts at `next`. -/
def Consumer.batchEnd (c : Consumer) (next logEnd : Nat) : Nat :=
  if logEnd < next + c.batchSize then logEnd else next + c.batchSize

end LedgerLine.Billing
