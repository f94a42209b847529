import LedgerLine.Lib.Json

/-!
# Decoding JSON into a structure

What `Decoder.Decode` of `encoding/json` does with unknown fields disallowed: it takes the first
value off a stream, leaves the rest unread and stores the members of an object in the fields
they name.  A name is compared as it is and then without regard to case; a member that names no
field is an error, which is reported when all members have been seen; a member that names the
field of an earlier one overwrites it; `null` leaves everything as it is.

`OneObject` is what a stream should be if nothing in it is to be ignored, `Entire` what can be
seen of it when the value has been read.  `oneObject_iff_entire` says that they are the same.
-/

namespace LedgerLine.Json

variable {ε σ : Type}

section Text

/-- U+FFFD. -/
def replacement : Char := '�'

/-- For the first byte of a longer encoding: how many bytes follow, and the range of the first
of them. -/
def continuations (c : UInt8) : Option (Nat × UInt8 × UInt8) :=
  if 0xc2 ≤ c && c ≤ 0xdf then some (1, 0x80, 0xbf)
  else if c = 0xe0 then some (2, 0xa0, 0xbf)
  else if c = 0xed then some (2, 0x80, 0x9f)
  else if 0xe1 ≤ c && c ≤ 0xef then some (2, 0x80, 0xbf)
  else if c = 0xf0 then some (3, 0x90, 0xbf)
  else if 0xf1 ≤ c && c ≤ 0xf3 then some (3, 0x80, 0xbf)
  else if c = 0xf4 then some (3, 0x80, 0x8f)
  else none

/-- `utf8.DecodeRune`, and the bytes behind it.  A byte that begins no character is skipped. -/
def decodeRune (c : UInt8) (rest : Bytes) : Char × Bytes :=
  if c < 0x80 then (Char.ofNat c.toNat, rest)
  else
    match continuations c with
    | none => (replacement, rest)
    | some (n, low, high) =>
        if (rest.take n).length = n && low ≤ rest.headD 0 && rest.headD 0 ≤ high &&
            (rest.take n).all fun b => 0x80 ≤ b && b ≤ 0xbf then
          (Char.ofNat ((rest.take n).foldl (fun r b => r * 64 + b.toNat % 64)
            (c.toNat % 2 ^ (6 - n))), rest.drop n)
        else (replacement, rest)

def hexValue (c : UInt8) : Nat :=
  if isDigit c then c.toNat - 0x30 else c.toNat % 0x20 + 9

/-- `getu4`: the number of an escape with four hexadecimal digits. -/
def getu4 : Bytes → Option (Nat × Bytes)
  | b :: u :: c₁ :: c₂ :: c₃ :: c₄ :: rest =>
      if b = 0x5c && u = 0x75 && isHex c₁ && isHex c₂ && isHex c₃ && isHex c₄ then
        some (((hexValue c₁ * 16 + hexValue c₂) * 16 + hexValue c₃) * 16 + hexValue c₄, rest)
      else none
  | _ => none

/-- The character for a number from `getu4`.  Half of a surrogate pair needs the other half
behind it. -/
def unicodeChar (r : Nat) (rest : Bytes) : Char × Bytes :=
  if 0xd800 ≤ r && r < 0xe000 then
    match getu4 rest with
    | some (r₂, rest₂) =>
        if r < 0xdc00 && 0xdc00 ≤ r₂ && r₂ < 0xe000 then
          (Char.ofNat ((r - 0xd800) * 1024 + (r₂ - 0xdc00) + 0x10000), rest₂)
        else (replacement, rest)
    | none => (replacement, rest)
  else (Char.ofNat r, rest)

/-- The character that stands behind a backslash. -/
def escaped (c : UInt8) : Char :=
  if c = 0x62 then '\x08'
  else if c = 0x66 then '\x0c'
  else if c = 0x6e then '\n'
  else if c = 0x72 then '\r'
  else if c = 0x74 then '\t'
  else Char.ofNat c.toNat

/-- The next character of a string, and the bytes behind it. -/
def nextChar (c : UInt8) (rest : Bytes) : Char × Bytes :=
  if c = 0x5c then
    match getu4 (c :: rest) with
    | some (r, rest) => unicodeChar r rest
    | none => (escaped (rest.headD 0), rest.drop 1)
  else decodeRune c rest

def unquoteLoop : Nat → Bytes → List Char
  | 0, _ => []
  | _, [] => []
  | fuel + 1, c :: rest => (nextChar c rest).1 :: unquoteLoop fuel (nextChar c rest).2

/-- `unquoteBytes`: the characters of a string, which stands in quotation marks. -/
def unquote (text : Bytes) : List Char :=
  unquoteLoop text.length text.tail.dropLast

/-- `foldRune`, as far as it leads to ASCII: the characters that fold to another letter of
ASCII are its small letters and two from outside. -/
def foldRune (c : Char) : Char :=
  if 'a' ≤ c && c ≤ 'z' then Char.ofNat (c.toNat - 32)
  else if c = 'ſ' then 'S'
  else if c = 'K' then 'K'
  else c

end Text

section Stream

/-- `maxNestingDepth`. -/
def maxNestingDepth : Nat := 10000

/-- How a stream ends. -/
inductive Ending (ε : Type)
  | eof
  | failed (e : ε)
deriving DecidableEq, Repr

/-- What a value is, by its first byte. -/
inductive Shape
  | null
  | bool
  | string
  | number
  | array
  | object
deriving DecidableEq, Repr

def shape (text : Bytes) : Shape :=
  match text.headD 0 with
  | 0x6e => .null
  | 0x74 => .bool
  | 0x66 => .bool
  | 0x22 => .string
  | 0x5b => .array
  | 0x7b => .object
  | _ => .number

/-- The errors of `Decode`. -/
inductive Error (ε : Type)
  /-- Reading has failed. -/
  | read (e : ε)
  /-- `io.EOF`: there is no value. -/
  | eof
  /-- `io.ErrUnexpectedEOF`. -/
  | unexpectedEof
  /-- `SyntaxError`. -/
  | malformed
  | unknownField (key : List Char)
  /-- `UnmarshalTypeError`. -/
  | mismatch (value : Shape) (field : List Char)
  /-- An error of another package. -/
  | other (text : String)
deriving DecidableEq, Repr

/-- `readValue`: the first value and what is left unread.  At the end of the stream the scanner
is fed a blank, which ends a literal. -/
def readStream (data : Bytes) (ending : Ending ε) : Except (Error ε) (Bytes × Bytes) :=
  match readValue maxNestingDepth data with
  | .ok r => .ok r
  | .error .malformed => .error .malformed
  | .error .more =>
      match ending with
      | .failed e => .error (.read e)
      | .eof =>
          match readValue maxNestingDepth (data ++ [0x20]) with
          | .ok r => .ok (r.1, [])
          | .error _ => if data.all isSpace then .error .eof else .error .unexpectedEof

end Stream

section Struct

/-- A field of a structure.  Storing a value may stop the decoder, or leave an error for the
end. -/
structure Field (ε σ : Type) where
  name : List Char
  store : Bytes → σ → Except (Error ε) (σ × Option (Error ε))

/-- A field of type `string`. -/
def Field.string (name : String) (set : String → σ → σ) : Field ε σ where
  name := name.toList
  store v s :=
    match shape v with
    | .string => .ok (set (String.ofList (unquote v)) s, none)
    | .null => .ok (s, none)
    | other => .ok (s, some (.mismatch other name.toList))

/-- A field whose type has an `UnmarshalJSON` of its own, which stops the decoder if it fails. -/
def Field.unmarshaler (name : String) (unmarshalJSON : Bytes → σ → Except String σ) :
    Field ε σ where
  name := name.toList
  store v s :=
    match unmarshalJSON v s with
    | .ok s => .ok (s, none)
    | .error e => .error (.other e)

/-- A field of type `[]byte`: a string in base64, an array of numbers for the slice that is
there, or `null` for no slice. -/
def Field.bytes (name : String) (decodeBase64 : List Char → Except String Bytes)
    (storeArray : Bytes → Option Bytes → Option Bytes × Option String)
    (get : σ → Option Bytes) (set : Option Bytes → σ → σ) : Field ε σ where
  name := name.toList
  store v s :=
    match shape v with
    | .string =>
        match decodeBase64 (unquote v) with
        | .ok bs => .ok (set (some bs) s, none)
        | .error e => .ok (s, some (.other e))
    | .array => .ok (set (storeArray v (get s)).1 s, (storeArray v (get s)).2.map .other)
    | .null => .ok (set none s, none)
    | other => .ok (s, some (.mismatch other name.toList))

/-- The field that a member names: the exact name first, then the first one that is the same
without regard to case. -/
def Field.find (fields : List (Field ε σ)) (key : List Char) : Option (Field ε σ) :=
  (fields.find? fun f => f.name = key).or
    (fields.find? fun f => f.name.map foldRune = key.map foldRune)

/-- The quoted names and the values of an object's members. -/
def members (text : Bytes) : List (Bytes × Bytes) :=
  match content (items text.length text.length) .object text.tail with
  | .ok r => r.1.1
  | .error _ => []

/-- Store the members one by one.  The first error that did not stop the decoder is returned at
the end. -/
def storeMembers (fields : List (Field ε σ)) :
    List (Bytes × Bytes) → σ → Option (Error ε) → Except (Error ε) σ
  | [], s, none => .ok s
  | [], _, some e => .error e
  | (key, v) :: ms, s, saved =>
      match Field.find fields (unquote key) with
      | none => storeMembers fields ms s (saved.or (some (.unknownField (unquote key))))
      | some f =>
          match f.store v s with
          | .error e => .error e
          | .ok (s, e) => storeMembers fields ms s (saved.or e)

/-- `unmarshal`, into a structure. -/
def unmarshal (fields : List (Field ε σ)) (s : σ) (text : Bytes) : Except (Error ε) σ :=
  match shape text with
  | .object => storeMembers fields (members text) s none
  | .null => .ok s
  | other => .error (.mismatch other [])

/-- `Decoder.Decode`. -/
def decode (fields : List (Field ε σ)) (s : σ) (data : Bytes) (ending : Ending ε) :
    Except (Error ε) σ :=
  match readStream data ending with
  | .ok r => unmarshal fields s r.1
  | .error e => .error e

end Struct

/-- One object with white space around it, whose members have some of the names, each at most
once. -/
def OneObject (names : List (List Char)) (data : Bytes) : Prop :=
  ∃ a ms text b, Blank a ∧ Content .object ms text ∧ Blank b ∧
    data = a ++ (Container.object.opening :: text ++ b) ∧
    (ms.map fun m => unquote m.1).Nodup ∧ ∀ m ∈ ms, unquote m.1 ∈ names

/-- The value that was read is an object that names each field at most once, and as it is
spelled, and nothing is left behind it. -/
structure Entire (fields : List (Field ε σ)) (text rest : Bytes) : Prop where
  object : shape text = .object
  once : ((members text).map fun m => unquote m.1).Nodup
  spelled : ∀ m ∈ members text, ∀ f, Field.find fields (unquote m.1) = some f →
    f.name = unquote m.1
  blank : Blank rest

section Stored

variable {fields : List (Field ε σ)} {key : List Char} {f : Field ε σ}

theorem Field.mem_of_find (h : Field.find fields key = some f) : f ∈ fields := by
  rcases Option.or_eq_some_iff.mp h with h | ⟨-, h⟩
  · exact List.mem_of_find?_eq_some h
  · exact List.mem_of_find?_eq_some h

/-- An exact name is found under that name. -/
theorem Field.name_of_find (hkey : key ∈ fields.map Field.name)
    (h : Field.find fields key = some f) : f.name = key := by
  rcases Option.or_eq_some_iff.mp h with h | ⟨hnone, -⟩
  · simpa using List.find?_some h
  · obtain ⟨g, hg, rfl⟩ := List.mem_map.mp hkey
    have := List.find?_eq_none.mp hnone g hg
    simp at this

/-- If members are stored without an error, each names a field. -/
theorem known_of_storeMembers {ms : List (Bytes × Bytes)} {s s' : σ} {saved : Option (Error ε)}
    (h : storeMembers fields ms s saved = .ok s') :
    saved = none ∧ ∀ m ∈ ms, ∃ f, Field.find fields (unquote m.1) = some f := by
  induction ms generalizing s saved with
  | nil =>
      cases saved with
      | none =>
          exact ⟨rfl, List.forall_mem_nil _⟩
      | some e => cases h
  | cons m ms ih =>
      obtain ⟨k, v⟩ := m
      rw [storeMembers] at h
      split at h
      · -- the saved error is still there at the end
        have hsaved := (ih h).1
        simp at hsaved
      · rename_i f hf
        split at h
        · cases h
        · obtain ⟨hsaved, hms⟩ := ih h
          refine ⟨(Option.or_eq_none_iff.mp hsaved).1, ?_⟩
          exact List.forall_mem_cons.mpr ⟨⟨f, hf⟩, hms⟩

theorem known_of_unmarshal {s s' : σ} {text : Bytes} (h : unmarshal fields s text = .ok s')
    (hobject : shape text = .object) :
    ∀ m ∈ members text, ∃ f, Field.find fields (unquote m.1) = some f := by
  rw [unmarshal, hobject] at h
  exact (known_of_storeMembers h).2

end Stored

section Entire

variable {is : List (Bytes × Bytes)} {a text t rest data : Bytes}

theorem members_eq (h : Content .object is t) : members (Container.object.opening :: t) = is := by
  have hread : content (items (t.length + 1) (t.length + 1)) .object (t ++ []) =
      .ok ((is, t), []) := by
    refine content_complete h ?_ []
    intro t' hitems ht' rest
    exact items_complete hitems (by omega) (by omega) rest
  rw [List.append_nil] at hread
  rw [members, List.length_cons, List.tail_cons, hread]

/-- A value that begins as an object is one. -/
theorem Value.object (h : Value text) (hshape : shape text = .object) :
    ∃ is t, Content .object is t ∧ text = Container.object.opening :: t := by
  cases h with
  | @literal c s text hs h =>
      have hc : c = 0x7b := by
        rw [shape] at hshape
        split at hshape
        all_goals first
          | assumption
          | cases hshape
      rw [hc] at hs
      cases hs
  | @container kind is t h =>
      cases kind with
      | array => cases hshape
      | object => exact ⟨is, t, h, rfl⟩

theorem Items.ends : ∀ {kind : Container} {is : List (Bytes × Bytes)} {t : Bytes},
    Items kind is t → ∃ u, t = u ++ [kind.closing]
  | _, _, _, @Items.last _ key label v b hlabel hv hb => ⟨label ++ (v ++ b), by simp⟩
  | _, _, _, @Items.cons _ key label v a b is t hlabel hv hb ha h => by
      obtain ⟨u, rfl⟩ := Items.ends h
      exact ⟨label ++ (v ++ (b ++ comma :: (a ++ u))), by simp⟩

theorem Content.ends {kind : Container} (h : Content kind is t) : ∃ u, t = u ++ [kind.closing] := by
  cases h with
  | @empty _ a ha => exact ⟨a, rfl⟩
  | @items _ a is t ha h =>
      obtain ⟨u, rfl⟩ := h.ends
      exact ⟨a ++ u, by simp⟩

variable {ending : Ending ε}

/-- An object at the beginning of a stream is what is read from it. -/
theorem readStream_object (ha : Blank a) (h : Content .object is t) {r : Bytes × Bytes}
    (hread : readStream (a ++ (Container.object.opening :: t ++ rest)) ending = .ok r) :
    r = (Container.object.opening :: t, rest) := by
  have heq := @readValue_eq maxNestingDepth _ _ _ _ rest ha h
  rw [readStream.eq_def] at hread
  split at hread
  · rename_i r' hr
    rw [hr] at heq
    cases hread
    exact Except.ok.inj (heq (by simp))
  · cases hread
  · rename_i hmore
    rw [hmore] at heq
    cases heq (by simp)

/-- What is read from a stream that ends, if it is an object: white space, the object and what
is left. -/
theorem readStream_sound (h : readStream data (.eof : Ending ε) = .ok (text, rest))
    (hshape : shape text = .object) :
    ∃ a is t, Blank a ∧ Content .object is t ∧ text = Container.object.opening :: t ∧
      data = a ++ (text ++ rest) := by
  rw [readStream.eq_def] at h
  split at h
  · rename_i r hr
    cases h
    obtain ⟨a, ha, hv, hdata⟩ := readValue_sound hr
    obtain ⟨is, t, hcontent, htext⟩ := hv.object hshape
    exact ⟨a, is, t, ha, hcontent, htext, hdata⟩
  · cases h
  · rename_i hmore
    dsimp only at h
    split at h
    · rename_i r hr
      cases h
      -- the blank stands behind the object, which the scanner has thus seen before
      obtain ⟨a, ha, hv, hdata⟩ := readValue_sound hr
      obtain ⟨is, t, hcontent, htext⟩ := hv.object hshape
      obtain ⟨u, rfl⟩ := hcontent.ends
      rcases List.eq_nil_or_concat r.2 with hnil | ⟨after, c, hafter⟩
      · rw [hnil, htext, List.append_nil, ← List.cons_append, ← List.append_assoc] at hdata
        exact absurd (List.append_inj_right' hdata rfl) (by decide)
      · rw [hafter, List.concat_eq_append, ← List.append_assoc, ← List.append_assoc] at hdata
        have hstream := List.append_inj_left' hdata rfl
        rw [List.append_assoc, htext] at hstream
        have heq := @readValue_eq maxNestingDepth _ _ _ _ after ha hcontent
        rw [← hstream, hmore] at heq
        cases heq (by simp)
    · split at h
      · cases h
      · cases h

/-- What is read from a stream that is one object. -/
theorem OneObject.of_read {names : List (List Char)} (h : OneObject names data)
    (hread : readStream data ending = .ok (text, rest)) :
    shape text = .object ∧ ((members text).map fun m => unquote m.1).Nodup ∧
      (∀ m ∈ members text, unquote m.1 ∈ names) ∧ Blank rest := by
  obtain ⟨a, ms, t, b, ha, hcontent, hb, rfl, hnodup, hnames⟩ := h
  cases readStream_object ha hcontent hread
  rw [members_eq hcontent]
  exact ⟨rfl, hnodup, hnames, hb⟩

/-- If each member names a field, a stream is one object with known names, none of them twice,
exactly if this can be seen when the first value has been read. -/
theorem oneObject_iff_entire {fields : List (Field ε σ)}
    (h : readStream data (.eof : Ending ε) = .ok (text, rest))
    (hknown : shape text = .object →
      ∀ m ∈ members text, ∃ f, Field.find fields (unquote m.1) = some f) :
    OneObject (fields.map Field.name) data ↔ Entire fields text rest := by
  constructor
  · intro hone
    obtain ⟨hobject, hnodup, hnames, hblank⟩ := hone.of_read h
    exact ⟨hobject, hnodup, fun m hm f hf => Field.name_of_find (hnames m hm) hf, hblank⟩
  · intro hentire
    obtain ⟨a, ms, t, ha, hcontent, htext, hdata⟩ := readStream_sound h hentire.object
    have hms := members_eq hcontent
    rw [← htext] at hms
    refine ⟨a, ms, t, rest, ha, hcontent, hentire.blank, by rw [hdata, htext],
      by rw [← hms]; exact hentire.once, ?_⟩
    intro m hm
    rw [← hms] at hm
    obtain ⟨f, hf⟩ := hknown hentire.object m hm
    rw [← hentire.spelled m hm f hf]
    exact List.mem_map_of_mem (Field.mem_of_find hf)

/-- What is read is read again, however the stream ends. -/
theorem readStream_eof (h : readStream data ending = .ok (text, rest)) :
    readStream data (.eof : Ending ε) = .ok (text, rest) := by
  cases ending with
  | eof => exact h
  | failed e =>
      rw [readStream.eq_def] at h ⊢
      split at h
      · exact h
      · cases h
      · cases h

/-- What is read before a stream fails is read from every longer stream. -/
theorem readStream_append {e : ε} (h : readStream data (.failed e) = .ok (text, rest))
    (more : Bytes) : readStream (data ++ more) (.eof : Ending ε) = .ok (text, rest ++ more) := by
  rw [readStream.eq_def] at h
  split at h
  · rename_i r hr
    cases h
    rw [readStream.eq_def, readValue_append hr more]
  · cases h
  · cases h

end Entire

end LedgerLine.Json
