import LedgerLine.Billing.Ingest

/-!
# Request bodies and log records as JSON

Follows `Handler.decode` of `billing/ingest/handler.go`, which makes its decoder as `Decode` of
`billing/event/event.go` does.

What is accepted need not be one object with each field at most once: the decoder is asked for
one value and never for the end of the stream, and it takes a field again if it comes again.
`accepted_oneObject_iff` says which of the accepted bodies and records are, and
`accepted_with_more` shows some that are not.
-/

namespace LedgerLine.Billing

open Json

/-- `maxBodyBytes`. -/
def maxBodyBytes : Nat := 64 * 2 ^ 10

/-- `codeMalformed`. -/
def codeMalformed : String := "malformed_request"

/-- What a client sends: the bytes that arrive, and whether they end or break off. -/
structure RequestBody where
  data : Bytes
  ending : Ending ReadError
deriving DecidableEq, Repr

/-- `http.MaxBytesReader`. -/
def maxBytesReader (limit : Nat) (body : RequestBody) : RequestBody :=
  if body.data.length ≤ limit then body
  else ⟨body.data.take limit, .failed .tooLarge⟩

/-- The fields of `eventRequest`. -/
def eventRequestFields (formats : Formats) : List (Field ReadError EventRequest) :=
  [.string "tenant_id" fun x r => { r with tenantId := x },
    .string "meter" fun x r => { r with meter := x },
    .string "quantity" fun x r => { r with quantity := x },
    .unmarshaler "occurred_at" (unmarshalTime formats fun t r => { r with occurredAt := t }),
    .string "idempotency_key" fun x r => { r with idempotencyKey := x }]

/-- The zero value of `eventRequest`. -/
def zeroRequest : EventRequest := ⟨"", "", "", 0, ""⟩

section Decode

variable (formats : Formats) (errorText : Bytes → Json.Error ReadError → String)

/-- `Handler.decode`. -/
def Handler.decode (body : RequestBody) : Except Rejection EventRequest :=
  let stream := maxBytesReader maxBodyBytes body
  match Json.decode (eventRequestFields formats) zeroRequest stream.data stream.ending with
  | .ok req => .ok req
  | .error (.read .tooLarge) => .error ⟨413, codeMalformed, "request body too large"⟩
  | .error e => .error ⟨400, codeMalformed, errorText stream.data e⟩

end Decode

/-- The names of the fields of `eventRequest`. -/
def requestNames : List (List Char) :=
  ["tenant_id", "meter", "quantity", "occurred_at", "idempotency_key"].map String.toList

/-- The names of the fields of `UsageEvent`. -/
def recordNames : List (List Char) :=
  ["tenant_id", "meter", "quantity", "occurred_at", "received_at", "idempotency_key",
    "fingerprint"].map String.toList

section Accepted

variable {formats : Formats} {errorText : Bytes → Json.Error ReadError → String}

/-- If `Decode` succeeds, a first value was read, and each member of it names a field. -/
theorem decode_eq_ok {σ : Type} {fields : List (Field ReadError σ)} {s s' : σ} {data : Bytes}
    {ending : Ending ReadError} (h : Json.decode fields s data ending = .ok s') :
    ∃ value unread, readStream data ending = .ok (value, unread) ∧ (shape value = .object →
      ∀ m ∈ members value, ∃ f, Field.find fields (unquote m.1) = some f) := by
  rw [Json.decode] at h
  split at h
  · rename_i r hr
    exact ⟨r.1, r.2, hr, known_of_unmarshal h⟩
  · cases h

/-- What is read through `MaxBytesReader` is the first value of the whole body. -/
theorem readStream_maxBytesReader {limit : Nat} {body : RequestBody} {value unread : Bytes}
    (h : readStream (maxBytesReader limit body).data (maxBytesReader limit body).ending =
      .ok (value, unread)) :
    ∃ rest, readStream body.data (.eof : Ending ReadError) = .ok (value, rest) := by
  rw [maxBytesReader] at h
  split at h
  · exact ⟨unread, readStream_eof h⟩
  · refine ⟨unread ++ body.data.drop limit, ?_⟩
    have happend := readStream_append h (body.data.drop limit)
    rwa [List.take_append_drop] at happend

theorem Handler.decode_eq_ok {body : RequestBody} {req : EventRequest}
    (h : Handler.decode formats errorText body = .ok req) :
    Json.decode (eventRequestFields formats) zeroRequest (maxBytesReader maxBodyBytes body).data
      (maxBytesReader maxBodyBytes body).ending = .ok req := by
  rw [Handler.decode] at h
  split at h
  · rename_i hreq
    cases h
    exact hreq
  · cases h
  · cases h

theorem Event.decode_eq_ok {record : Bytes} {e : UsageEvent}
    (h : Event.decode formats errorText record = .ok e) :
    Json.decode (usageEventFields formats) zeroEvent record .eof = .ok e := by
  rw [Event.decode] at h
  split at h
  · rename_i he
    cases h
    exact he
  · cases h

end Accepted

/-- An accepted body is one object with known fields, none of them twice, exactly if the first
value is an object that names no field twice and none otherwise than it is spelled, and nothing
but white space follows it.  The same is true of an accepted log record. -/
theorem accepted_oneObject_iff (formats : Formats)
    (errorText : Bytes → Json.Error ReadError → String) :
    (∀ body req, Handler.decode formats errorText body = .ok req →
      ∃ value unread, readStream body.data (.eof : Ending ReadError) = .ok (value, unread) ∧
        (OneObject requestNames body.data ↔
          Entire (eventRequestFields formats) value unread)) ∧
    ∀ record e, Event.decode formats errorText record = .ok e →
      ∃ value unread, readStream record (.eof : Ending ReadError) = .ok (value, unread) ∧
        (OneObject recordNames record ↔ Entire (usageEventFields formats) value unread) := by
  constructor
  · intro body req h
    obtain ⟨value, unread, hread, hknown⟩ := decode_eq_ok (Handler.decode_eq_ok h)
    obtain ⟨rest, hrest⟩ := readStream_maxBytesReader hread
    exact ⟨value, rest, hrest, oneObject_iff_entire hrest hknown⟩
  · intro record e h
    obtain ⟨value, unread, hread, hknown⟩ := decode_eq_ok (Event.decode_eq_ok h)
    exact ⟨value, unread, hread, oneObject_iff_entire hread hknown⟩

/-- The members of a valid request.  The quantity comes last. -/
def sampleMembers (quantity : String) : String :=
  "\x7b\"tenant_id\":\"acme\",\"meter\":\"api_calls\",\"idempotency_key\":\"key-1\"," ++
    "\"occurred_at\":\"2026-08-03T11:00:00Z\",\"quantity\":\"" ++ quantity ++ "\""

theorem accepted_oneObject_sample :
    Handler.decode sampleFormats (fun _ _ => "") ⟨utf8 (sampleMembers "1" ++ "\x7d\n"), .eof⟩ =
        .ok (sampleRequest "1") ∧
      OneObject requestNames (utf8 (sampleMembers "1" ++ "\x7d\n")) := by
  have hok : Handler.decode sampleFormats (fun _ _ => "")
      ⟨utf8 (sampleMembers "1" ++ "\x7d\n"), .eof⟩ = .ok (sampleRequest "1") := by
    decide +kernel
  refine ⟨hok, ?_⟩
  obtain ⟨value, unread, hread, hiff⟩ := (accepted_oneObject_iff _ _).1 _ _ hok
  have hvalue : readStream (utf8 (sampleMembers "1" ++ "\x7d\n")) (.eof : Ending ReadError) =
      .ok (utf8 (sampleMembers "1" ++ "\x7d"), utf8 "\n") := by
    decide +kernel
  cases hread.symm.trans hvalue
  refine hiff.mpr ⟨by decide +kernel, by decide +kernel, ?_, by decide +kernel⟩
  have hspelled : ∀ m ∈ members (utf8 (sampleMembers "1" ++ "\x7d")),
      unquote m.1 ∈ (eventRequestFields sampleFormats).map Field.name := by
    decide +kernel
  intro m hm f hf
  exact Field.name_of_find (hspelled m hm) hf

/-- A second event behind the first one, a quantity that is given twice, and a record with
something behind it: all are accepted. -/
theorem accepted_with_more :
    (Handler.decode sampleFormats (fun _ _ => "")
        ⟨utf8 (sampleMembers "1" ++ "\x7d" ++ sampleMembers "1" ++ "\x7d"), .eof⟩ =
          .ok (sampleRequest "1") ∧
      validate (sampleRequest "1") 63921351600000000000 = none ∧
      ¬ OneObject requestNames
        (utf8 (sampleMembers "1" ++ "\x7d" ++ sampleMembers "1" ++ "\x7d"))) ∧
    (Handler.decode sampleFormats (fun _ _ => "")
        ⟨utf8 (sampleMembers "1" ++ ",\"quantity\":\"5\"\x7d"), .eof⟩ = .ok (sampleRequest "5") ∧
      validate (sampleRequest "5") 63921351600000000000 = none ∧
      ¬ OneObject requestNames (utf8 (sampleMembers "1" ++ ",\"quantity\":\"5\"\x7d"))) ∧
    (Event.decode sampleFormats (fun _ _ => "") (utf8 "\x7b\x7d?") = .ok zeroEvent ∧
      ¬ OneObject recordNames (utf8 "\x7b\x7d?")) := by
  refine ⟨⟨by decide +kernel, by decide +kernel, fun h => ?_⟩,
    ⟨by decide +kernel, by decide +kernel, fun h => ?_⟩, ⟨by decide +kernel, fun h => ?_⟩⟩
  · have hread : readStream (utf8 (sampleMembers "1" ++ "\x7d" ++ sampleMembers "1" ++ "\x7d"))
        (.eof : Ending ReadError) =
          .ok (utf8 (sampleMembers "1" ++ "\x7d"), utf8 (sampleMembers "1" ++ "\x7d")) := by
      decide +kernel
    exact absurd (h.of_read hread).2.2.2 (by decide +kernel)
  · have hread : readStream (utf8 (sampleMembers "1" ++ ",\"quantity\":\"5\"\x7d"))
        (.eof : Ending ReadError) =
          .ok (utf8 (sampleMembers "1" ++ ",\"quantity\":\"5\"\x7d"), []) := by
      decide +kernel
    exact absurd (h.of_read hread).2.1 (by decide +kernel)
  · have hread : readStream (utf8 "\x7b\x7d?") (.eof : Ending ReadError) =
        .ok (utf8 "\x7b\x7d", utf8 "?") := by
      decide +kernel
    exact absurd (h.of_read hread).2.2.2 (by decide +kernel)

end LedgerLine.Billing
