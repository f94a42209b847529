import LedgerLine.Billing.Decoding
import LedgerLine.Billing.Ingest
import LedgerLine.Broker.Crash

/-!
# From requests to tables

Follows `ServeHTTP` of `billing/ingest/handler.go`, on the log of `broker/log` and beside the
drains of `billing/consumer`.  Requests are bytes and arrive one after another; the drains of any
number of consumers go on between them, statement by statement, may fail anywhere and may have
their offsets set back; now and then the process is restarted.

What should come of it is said by the requests alone: `accepted` lists the events of those that
are in order, `answers` numbers them.  `service_correct`: the responses are these answers, the log
holds the records of these events, and the tables are what these events say (`Tabled`).
-/

namespace LedgerLine.Service

open Program Broker Billing

/-- What the handler gets: a body, and the two readings of its clock. -/
structure Exchange where
  body : RequestBody
  now : Time
  receivedAt : Time

/-- What it answers: `acceptedResponse`, or `errorResponse` with the status of the rejection. -/
inductive Response
  | accepted (offset : Nat)
  | rejected (rej : Rejection)
deriving DecidableEq, Repr

/-- What the handler is made of besides the log.  `Decode` gives the event back from each record
that `Encode` makes. -/
structure Endpoint where
  formats : Formats
  errorText : Bytes → Json.Error ReadError → String
  sha256 : Bytes → Bytes
  codec : EventCodec
  agrees : codec.Agrees formats errorText

namespace Endpoint

variable (crc : Checksum) (h : Endpoint)

/-- `ServeHTTP`, up to the record that is appended. -/
def prepare (x : Exchange) : Except Rejection (UsageEvent × Bytes) :=
  match Handler.decode h.formats h.errorText x.body with
  | .error rej => .error rej
  | .ok req => ingest h.sha256 h.codec req x.now x.receivedAt

/-- `ServeHTTP`. -/
def serveHTTP (l : Log) (x : Exchange) : LogProgram (Log × Response) :=
  match h.prepare x with
  | .error rej => pure (l, .rejected rej)
  | .ok (_, record) => do
      match ← l.append crc record with
      | (l', .error _) => pure (l', .rejected internalError)
      | (l', .ok offset) => pure (l', .accepted offset)

/-- What should come of a request: a record that is too long for the log is not accepted. -/
def accept (x : Exchange) : Except Rejection (UsageEvent × Bytes) :=
  match h.prepare x with
  | .error rej => .error rej
  | .ok y => if Legal y.2 then .ok y else .error internalError

/-- The events of the requests that are in order, with their records. -/
def accepted (xs : List Exchange) : List (UsageEvent × Bytes) :=
  xs.filterMap fun x => (h.accept x).toOption

/-- What a request should be answered, `n` being the next offset. -/
def answer (n : Nat) (x : Exchange) : Response :=
  match h.accept x with
  | .error rej => .rejected rej
  | .ok _ => .accepted n

/-- What requests should be answered. -/
def answers : Nat → List Exchange → List Response
  | _, [] => []
  | n, x :: xs => h.answer n x :: answers (n + (h.accepted [x]).length) xs

end Endpoint

/-- The events whose key has not come before. -/
def firstEvents (accepted : List (UsageEvent × Bytes)) : List UsageEvent :=
  keepFirst UsageEvent.key (accepted.map fun y => some y.1)

/-- The dead letter for offset `p`: the key of the event came before, with another usage. -/
def reuseFor (accepted : List (UsageEvent × Bytes)) (consumer : String) (p : Nat) :
    Option DeadLetterRow :=
  match accepted[p]? with
  | none => none
  | some (e, record) =>
      match (firstEvents accepted).find? (fun first => first.key = e.key) with
      | none => none
      | some first =>
          if fingerprintConflict first.fingerprint e.fingerprint then
            some (keyReuseLetter consumer p e record)
          else
            none

/-- The tables are what the accepted requests say: `events` has the first event of each key among
those before `m`, and the dead letters of a consumer are for keys that were used again; there
are no others. -/
def Tabled (cols : Columns) (accepted : List (UsageEvent × Bytes)) (db : Database) : Prop :=
  ∃ m ≤ accepted.length, (∀ c, (db.offsets c).getD 0 ≤ m) ∧
    (db.events.map some).Perm ((firstEvents (accepted.take m)).map cols.row) ∧
    ∀ c, ∃ mc ≤ m, (db.offsets c).getD 0 ≤ mc ∧
      (db.deadLetters.filter fun row => row.consumer = c).Perm
        ((List.range mc).filterMap (reuseFor accepted c))

/-- The process: its log, in memory and on disk, and the drains. -/
structure Site where
  world : Broker.World
  log : Log
  fleet : Fleet

/-- Histories from an empty directory and an empty database: the requests with their responses,
and the process.  The drains see what is in the log. -/
inductive Run (crc : Checksum) (h : Endpoint) (cols : Columns) (consumers : Nat → Consumer) :
    List (Exchange × Response) → Site → Prop
  | opened {opts : Options} {l : Log} {w : Broker.World} (hopts : opts.Supported)
      (hrun : run LogOp.exec (openLog crc opts) World.new = (.ok l, w)) :
      Run crc h cols consumers []
        ⟨w, l, .start ⟨l.contents crc w.dir, .empty, fun _ => 0⟩⟩
  | served {history : List (Exchange × Response)} {s : Site} (x : Exchange) {l : Log}
      {w : Broker.World} {r : Response} (hs : Run crc h cols consumers history s)
      (hrun : run LogOp.exec (h.serveHTTP crc s.log x) s.world = ((l, r), w)) :
      Run crc h cols consumers (history ++ [(x, r)])
        ⟨w, l, s.fleet.withWorld { s.fleet.world with log := l.contents crc w.dir }⟩
  /-- The process ends, and all transactions with it, and is started again. -/
  | restarted {history : List (Exchange × Response)} {s : Site} {opts : Options} {l : Log}
      {w : Broker.World} (hs : Run crc h cols consumers history s) (hopts : opts.Supported)
      (hrun : run LogOp.exec (openLog crc opts) { s.world with coord := Coord.new } =
        (.ok l, w)) :
      Run crc h cols consumers history
        ⟨w, l, .start { s.fleet.world with log := l.contents crc w.dir }⟩
  /-- A step of a drain, or an offset that is set back. -/
  | drained {history : List (Exchange × Response)} {s : Site} {fleet : Fleet}
      (hs : Run crc h cols consumers history s)
      (hstep : DeliveryStep cols (Event.decode h.formats h.errorText) consumers s.fleet fleet)
      (hlog : fleet.world.log = s.fleet.world.log) :
      Run crc h cols consumers history { s with fleet := fleet }

section Invariant

variable {crc : Checksum} {h : Endpoint} {cols : Columns} {consumers : Nat → Consumer}
  {w : Broker.World} {l : Log} {recs : List Bytes} {history : List (Exchange × Response)}
  {s : Site}

/-- One request: it is answered as it should be, and the log has its record. -/
theorem serveHTTP_runs (hl : Holds crc w l recs) (x : Exchange) :
    ∃ l' w', run LogOp.exec (h.serveHTTP crc l x) w = ((l', h.answer recs.length x), w') ∧
      Holds crc w' l' (recs ++ (h.accepted [x]).map Prod.snd) := by
  cases hprepare : h.prepare x with
  | error rej =>
      refine ⟨l, w, ?_, ?_⟩
      · rw [Endpoint.serveHTTP, Endpoint.answer, Endpoint.accept, hprepare]
        rfl
      · simpa [Endpoint.accepted, Endpoint.accept, hprepare, Except.toOption] using hl
  | ok y =>
      obtain ⟨e, record⟩ := y
      obtain ⟨pss, hopen, rfl⟩ := hl.opened
      obtain ⟨l', r, w', hrun, happ⟩ := append_runs hopen hopen.healthy False.elim
        (addressable_of_le hopen hl.bounded record) hl.calm
      obtain ⟨pss', hopen', -, hflat⟩ := happ.opened
      have hr := happ.result
      refine ⟨l', w', ?_, ⟨pss', hopen', ?_⟩, happ.opts ▸ hl.bounded, happ.calm⟩
      · rw [Endpoint.serveHTTP, Endpoint.answer, Endpoint.accept, hprepare]
        dsimp only
        rw [run_bind, hrun.run_eq, hr]
        by_cases hlegal : Legal record
        · rw [if_pos hlegal, if_pos hlegal]
          rfl
        · rw [if_neg hlegal, if_neg hlegal]
          rfl
      · rw [hflat]
        by_cases hlegal : Legal record <;>
          simp [Endpoint.accepted, Endpoint.accept, hprepare, hlegal, Except.toOption]

theorem answers_concat (n : Nat) (xs : List Exchange) (x : Exchange) :
    h.answers n (xs ++ [x]) = h.answers n xs ++ [h.answer (n + (h.accepted xs).length) x] := by
  induction xs generalizing n with
  | nil => rfl
  | cons y ys ih =>
      have hcons : h.accepted (y :: ys) = h.accepted [y] ++ h.accepted ys :=
        List.filterMap_append (l := [y])
      rw [List.cons_append, Endpoint.answers, ih, Endpoint.answers, hcons, List.length_append,
        Nat.add_assoc]
      rfl

/-- What is accepted is decoded as it was accepted. -/
theorem decode_of_mem_accepted {xs : List Exchange} {y : UsageEvent × Bytes}
    (hy : y ∈ h.accepted xs) : Event.decode h.formats h.errorText y.2 = .ok y.1 := by
  obtain ⟨x, -, hx⟩ := List.mem_filterMap.1 hy
  rw [Endpoint.accept, Endpoint.prepare] at hx
  split at hx
  · cases hx
  rename_i hprepare
  split at hprepare
  · cases hprepare
  split at hx
  · obtain rfl := Option.some.inj hx
    obtain ⟨-, -, hencode⟩ := ingest_eq_ok hprepare
    exact (EventCodec.agrees_iff _ _).1 h.agrees _ _ hencode
  · cases hx

theorem contents_of_holds (hl : Holds crc w l recs) : l.contents crc w.dir = recs := by
  obtain ⟨pss, hopen, hflat⟩ := hl.opened
  rw [hopen.contents_eq, hflat]

section Decoded

variable {decode : Decoder} {accepted : List (UsageEvent × Bytes)}

theorem firstOccurrences_eq (hdecode : ∀ y ∈ accepted, decode y.2 = .ok y.1) :
    firstOccurrences decode (accepted.map Prod.snd) = firstEvents accepted := by
  rw [firstOccurrences, slots, List.map_map, firstEvents]
  congr 1
  refine List.map_congr_left fun y hy => ?_
  rw [Function.comp_apply, hdecode y hy]
  rfl

/-- There is no dead letter for a record that could not be decoded. -/
theorem letterFor_eq (hdecode : ∀ y ∈ accepted, decode y.2 = .ok y.1) (c : String) (p : Nat) :
    letterFor decode (accepted.map Prod.snd) c p = reuseFor accepted c p := by
  rw [letterFor, reuseFor, firstOccurrences_eq hdecode, List.getElem?_map]
  cases hp : accepted[p]? with
  | none => rfl
  | some y =>
      rw [Option.map_some]
      dsimp only
      rewrite [hdecode y (List.mem_of_getElem? hp)]
      rfl

theorem tabled_of_good {w : Billing.World} (hgood : Delivery.Good cols decode w)
    (hlog : w.log = accepted.map Prod.snd) (hdecode : ∀ y ∈ accepted, decode y.2 = .ok y.1) :
    Tabled cols accepted w.db := by
  have hbehind : ∀ c, (w.db.offsets c).getD 0 ≤ w.reached c :=
    fun c => Contract.nextOffset_le (Delivery.contract cols decode) hgood ⟨c, 1, Nat.one_pos⟩
  obtain ⟨m, hstored, hreached⟩ := hgood.stored
  have hbound := hstored.bound
  have hevents := hstored.perm
  rw [hlog, List.length_map] at hbound
  rw [hlog, ← List.map_take,
    firstOccurrences_eq fun y hy => hdecode y (List.mem_of_mem_take hy)] at hevents
  refine ⟨m, hbound, fun c => Nat.le_trans (hbehind c) (hreached c), hevents, ?_⟩
  intro c
  have hletters := hgood.buried.perm c
  rw [hlog, funext (letterFor_eq hdecode c)] at hletters
  exact ⟨w.reached c, hreached c, hbehind c, hletters⟩

end Decoded

variable (crc h cols consumers) in
/-- The log holds the records of the accepted requests, and the drains work on it. -/
structure Inv (xs : List Exchange) (s : Site) : Prop where
  holds : Holds crc s.world s.log ((h.accepted xs).map Prod.snd)
  log : s.fleet.world.log = (h.accepted xs).map Prod.snd
  fleet : FleetInv (Delivery.contract cols (Event.decode h.formats h.errorText)) consumers s.fleet

/-- The invariant holds along every history, and requests are answered as they should be. -/
theorem inv_of_run (hs : Run crc h cols consumers history s) (hfit : history.length < 2 ^ 64) :
    Inv crc h cols consumers (history.map Prod.fst) s ∧
      history.map Prod.snd = h.answers 0 (history.map Prod.fst) := by
  induction hs with
  | opened hopts hrun =>
      obtain ⟨l', w', hrun', hholds⟩ := holds_open_empty crc hopts.2
      rw [hrun] at hrun'
      cases hrun'
      exact ⟨⟨hholds, contents_of_holds hholds, .start (Delivery.good_start _)⟩, rfl⟩
  | @served history s x l w r hs hrun ih =>
      rw [List.length_append, List.length_singleton] at hfit
      obtain ⟨hinv, hanswers⟩ := ih (by omega)
      obtain ⟨l', w', hrun', hholds⟩ := serveHTTP_runs hinv.holds x
      rw [hrun] at hrun'
      cases hrun'
      have hrequests : h.accepted (history.map Prod.fst ++ [x]) =
          h.accepted (history.map Prod.fst) ++ h.accepted [x] := List.filterMap_append
      have hlog := contents_of_holds hholds
      rw [List.map_append, List.map_singleton]
      refine ⟨⟨?_, ?_, ?_⟩, ?_⟩
      · rwa [hrequests, List.map_append]
      · rwa [hrequests, List.map_append]
      · dsimp only
        rw [hlog, ← hinv.log]
        exact Delivery.inv_step hinv.fleet (.append _)
      · rw [List.map_append, hanswers, List.map_singleton, answers_concat, List.length_map,
          Nat.zero_add]
  | @restarted history s opts l w hs hopts hrun ih =>
      obtain ⟨hinv, hanswers⟩ := ih hfit
      have hlength : (h.accepted (history.map Prod.fst)).length ≤ (history.map Prod.fst).length :=
        List.length_filterMap_le _ _
      rw [List.length_map] at hlength
      obtain ⟨l', w', hrun', hholds⟩ := holds_reopen hinv.holds
        (by rw [List.length_map]; omega) hopts.2
      rw [hrun] at hrun'
      cases hrun'
      have hlog := contents_of_holds hholds
      refine ⟨⟨hholds, hlog, ?_⟩, hanswers⟩
      dsimp only
      rw [hlog, ← hinv.log]
      exact .start hinv.fleet.good
  | drained hs hstep hlog ih =>
      obtain ⟨hinv, hanswers⟩ := ih hfit
      exact ⟨⟨hinv.holds, hlog.trans hinv.log, Delivery.inv_step hinv.fleet hstep⟩, hanswers⟩

/-- Whatever the requests are, in whatever order they come and whatever the drains and restarts do
in between: the responses number the accepted requests, the log has their records, and the
tables are what the accepted requests say. -/
theorem service_correct (hs : Run crc h cols consumers history s) (hfit : history.length < 2 ^ 64) :
    history.map Prod.snd = h.answers 0 (history.map Prod.fst) ∧
      s.log.contents crc s.world.dir = (h.accepted (history.map Prod.fst)).map Prod.snd ∧
      Tabled cols (h.accepted (history.map Prod.fst)) s.fleet.world.db := by
  obtain ⟨hinv, hanswers⟩ := inv_of_run hs hfit
  exact ⟨hanswers, contents_of_holds hinv.holds,
    tabled_of_good hinv.fleet.good hinv.log fun _ hy => decode_of_mem_accepted hy⟩

theorem Run.drains {fleet : Fleet} (hs : Run crc h cols consumers history s)
    (hsteps : Relation.ReflTransGen
      (DrainStep cols (Event.decode h.formats h.errorText) consumers) s.fleet fleet) :
    Run crc h cols consumers history { s with fleet := fleet } := by
  induction hsteps with
  | refl => exact hs
  | tail _ hstep ih =>
      exact ih.drained (.drain hstep) (log_of_drainStep hstep)

end Invariant

section Idle

variable (crc : Checksum) (h : Endpoint) (cols : Columns) (consumers : Nat → Consumer)

/-- There is a history with these requests that ends with no drain under way. -/
def Reaches (xs : List Exchange) (w : Billing.World) : Prop :=
  ∃ history world log, Run crc h cols consumers history ⟨world, log, .start w⟩ ∧
    history.map Prod.fst = xs

namespace Reaches

variable {crc h cols consumers} {xs : List Exchange} {w : Billing.World}

theorem opened {opts : Options} (hopts : opts.Supported) :
    Reaches crc h cols consumers [] ⟨[], .empty, fun _ => 0⟩ := by
  obtain ⟨l, world, hopen, hl⟩ := holds_open_empty crc hopts.2
  have hs : Run crc h cols consumers [] _ := .opened hopts hopen
  rw [contents_of_holds hl] at hs
  exact ⟨[], world, l, hs, rfl⟩

theorem served (hw : Reaches crc h cols consumers xs w) (hfit : xs.length < 2 ^ 64)
    {x : Exchange} {ys : List (UsageEvent × Bytes)} (hys : h.accepted [x] = ys) :
    Reaches crc h cols consumers (xs ++ [x]) { w with log := w.log ++ ys.map Prod.snd } := by
  obtain ⟨history, world, l, hs, rfl⟩ := hw
  rw [List.length_map] at hfit
  obtain ⟨hinv, -⟩ := inv_of_run hs hfit
  obtain ⟨l', world', hrun, hl⟩ := serveHTTP_runs hinv.holds x
  have hserved := hs.served x hrun
  rw [contents_of_holds hl, ← hinv.log, hys] at hserved
  exact ⟨_, world', l', hserved, List.map_append⟩

theorem restarted (hw : Reaches crc h cols consumers xs w) (hfit : xs.length < 2 ^ 64)
    {opts : Options} (hopts : opts.Supported) : Reaches crc h cols consumers xs w := by
  obtain ⟨history, world, l, hs, rfl⟩ := hw
  have hlength : (h.accepted (history.map Prod.fst)).length ≤ _ := List.length_filterMap_le _ _
  rw [List.length_map] at hfit
  obtain ⟨hinv, -⟩ := inv_of_run hs hfit
  obtain ⟨l', world', hrun, hl⟩ := holds_reopen hinv.holds
    (by rw [List.length_map] at hlength ⊢; omega) hopts.2
  have hrestarted := hs.restarted hopts hrun
  rw [contents_of_holds hl, ← hinv.log] at hrestarted
  exact ⟨history, world', l', hrestarted, rfl⟩

/-- A batch that nobody disturbs. -/
theorem batch (hw : Reaches crc h cols consumers xs w) (t : Nat) (stats : Stats)
    (hend : (consumers t).nextOffset w.db < w.log.length)
    (hrun : ((consumers t).runBatch cols (Event.decode h.formats h.errorText) w).1 =
      .commit stats) :
    Reaches crc h cols consumers xs
      ((consumers t).afterBatch cols (Event.decode h.formats h.errorText) w) := by
  obtain ⟨history, world, l, hs, rfl⟩ := hw
  exact ⟨history, world, l, hs.drains (DrainStep.batch_alone rfl (fun _ => rfl) hend hrun),
    rfl⟩

end Reaches

end Idle

def sampleEndpoint : Endpoint :=
  ⟨sampleFormats, sampleErrorText, sampleSha256, sampleCodec, fun _ _ _ => rfl⟩

/-- A request, one that breaks off before its end, and a retry that spells the quantity
differently. -/
def sampleExchanges : List Exchange :=
  [⟨⟨utf8 (sampleMembers "1" ++ "\x7d"), .eof⟩, 63921351600000000000, 63921351600000000001⟩,
    ⟨⟨utf8 (sampleMembers "1"), .eof⟩, 63921351600000000002, 63921351600000000003⟩,
    ⟨⟨utf8 (sampleMembers "01.0" ++ "\x7d"), .eof⟩, 63921351600000000008, 63921351600000000009⟩]

/-- The first two requests are served and drained, the process is restarted, and the retry is
served and drained. -/
theorem service_correct_sample :
    ∃ history s, Run crc32c sampleEndpoint postgresColumns (fun _ => .new "billing" 0) history s ∧
      history.map Prod.fst = sampleExchanges ∧
      history.map Prod.snd = [.accepted 0,
        .rejected ⟨400, "malformed_request", "unexpected EOF"⟩, .accepted 1] ∧
      s.log.contents crc32c s.world.dir = [sampleRecords[0].2, sampleRecords[1].2] ∧
      s.fleet.world.db.offsets "billing" = some 2 ∧
      s.fleet.world.db.events.map some = [postgresColumns.row sampleRecords[0].1] ∧
      (s.fleet.world.db.deadLetters.filter fun row => row.consumer = "billing") = [] := by
  have hopts : (⟨0, .group, 0⟩ : Options).Supported := ⟨Or.inr rfl, by decide⟩
  have haccepted : sampleEndpoint.accepted [sampleExchanges[0]] = [sampleRecords[0]] ∧
      sampleEndpoint.accepted [sampleExchanges[1]] = [] ∧
      sampleEndpoint.accepted [sampleExchanges[2]] = [sampleRecords[1]] := by
    decide +kernel
  have h₂ : Reaches crc32c sampleEndpoint postgresColumns (fun _ => .new "billing" 0) _ _ :=
    ((Reaches.opened hopts).served (by decide) haccepted.1).served (by decide) haccepted.2.1
  have h₃ := h₂.batch 0 ⟨1, 1, 0, 0, 0⟩ (by decide) (by decide +kernel)
  have h₄ := (h₃.restarted (by decide) hopts).served (by decide) haccepted.2.2
  obtain ⟨w, ⟨history, world, l, hs, hxs⟩, hoffset⟩ : ∃ w,
      Reaches crc32c sampleEndpoint postgresColumns (fun _ => .new "billing" 0) sampleExchanges w ∧
        w.db.offsets "billing" = some 2 :=
    ⟨_, h₄.batch 0 ⟨1, 0, 1, 0, 0⟩ (by decide +kernel) (by decide +kernel),
      by decide +kernel⟩
  have hall : sampleEndpoint.accepted sampleExchanges = [sampleRecords[0], sampleRecords[1]] := by
    decide +kernel
  have hlength : history.length = 3 := by
    rw [← List.length_map, hxs]
    rfl
  obtain ⟨hanswers, hcontents, m, hm, hoffsets, hevents, hletters⟩ :=
    service_correct hs (by omega)
  rw [hxs] at hanswers
  rw [hxs, hall] at hcontents hm hevents hletters
  have hpassed := hoffsets "billing"
  obtain ⟨mc, hmc, hreached, hbilling⟩ := hletters "billing"
  rw [show (Fleet.start w).world.db.offsets "billing" = some 2 from hoffset] at hpassed hreached
  obtain rfl : m = 2 := Nat.le_antisymm hm hpassed
  obtain rfl : mc = 2 := Nat.le_antisymm hmc hreached
  exact ⟨history, _, hs, hxs, hanswers.trans (by decide +kernel), hcontents, hoffset,
    List.perm_singleton.1 (hevents.trans (.of_eq (by decide +kernel))),
    List.perm_nil.1 (hbilling.trans (.of_eq (by decide +kernel)))⟩

end LedgerLine.Service
