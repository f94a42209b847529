import LedgerLine.Lib.BigEndian
import LedgerLine.Lib.Scan

/-!
# JSON texts

The grammar of JSON over bytes, and a scanner for it that works as the one of `encoding/json`
does: a string, a number or a word is read by an automaton and ends where the next byte does
not continue it; an array or an object ends with its bracket; containers nest to a limit.

`Value`, `Content` and `Items` are the grammar.  An array and an object have the same form, with
a label before each value of an object.

Main facts:
* `sound_value`: what is scanned is a value of the grammar;
* `items_complete`: what the grammar derives is scanned, to its end and no further;
* `refines_items`: more input, more fuel and more room for nesting change nothing that was read;
* `readValue_eq`: whatever way a stream begins with a container, this is what is read from it.
-/

namespace LedgerLine.Json

open Scan

/-- The byte of a quotation mark. -/
def quote : UInt8 := 0x22

/-- The byte of a comma. -/
def comma : UInt8 := 0x2c

/-- The byte of a colon. -/
def colon : UInt8 := 0x3a

/-- Blank, tab, line feed and carriage return. -/
def isSpace (c : UInt8) : Bool :=
  c = 0x20 || c = 0x09 || c = 0x0a || c = 0x0d

def isDigit (c : UInt8) : Bool :=
  0x30 ≤ c && c ≤ 0x39

def isHex (c : UInt8) : Bool :=
  isDigit c || (0x61 ≤ c && c ≤ 0x66) || (0x41 ≤ c && c ≤ 0x46)

/-- Nothing but white space. -/
def Blank (text : Bytes) : Prop :=
  ∀ c ∈ text, isSpace c = true

instance (text : Bytes) : Decidable (Blank text) :=
  inferInstanceAs (Decidable (∀ c ∈ text, isSpace c = true))

/-- How far the scanner is within a string, a number or a word. -/
inductive Literal
  /-- What is left of a word; nothing is left behind a string either. -/
  | word (left : Bytes)
  | string
  | escape
  /-- Hexadecimal digits that follow the one that is next. -/
  | unicode (more : Nat)
  | minus
  | zero
  | digits
  | point
  | fraction
  | exponent
  | sign
  | power
deriving DecidableEq, Repr

namespace Literal

/-- What may follow the integer part of a number. -/
def afterInteger (c : UInt8) : Option Literal :=
  if c = 0x2e then some .point
  else if c = 0x65 || c = 0x45 then some .exponent
  else none

def step : Literal → UInt8 → Option Literal
  | .word [], _ => none
  | .word (w :: left), c => if c = w then some (.word left) else none
  | .string, c =>
      if c = quote then some (.word [])
      else if c = 0x5c then some .escape
      else if c < 0x20 then none
      else some .string
  | .escape, c =>
      -- one of b f n r t \ / "
      if c ∈ [0x62, 0x66, 0x6e, 0x72, 0x74, 0x5c, 0x2f, quote] then some .string
      else if c = 0x75 then some (.unicode 3)
      else none
  | .unicode 0, c => if isHex c then some .string else none
  | .unicode (more + 1), c => if isHex c then some (.unicode more) else none
  | .minus, c => if c = 0x30 then some .zero else if isDigit c then some .digits else none
  | .zero, c => afterInteger c
  | .digits, c => if isDigit c then some .digits else afterInteger c
  | .point, c => if isDigit c then some .fraction else none
  | .fraction, c =>
      if isDigit c then some .fraction
      else if c = 0x65 || c = 0x45 then some .exponent
      else none
  | .exponent, c =>
      if c = 0x2b || c = 0x2d then some .sign else if isDigit c then some .power else none
  | .sign, c => if isDigit c then some .power else none
  | .power, c => if isDigit c then some .power else none

/-- The literal may end here. -/
def complete : Literal → Bool
  | .word [] => true
  | .zero => true
  | .digits => true
  | .fraction => true
  | .power => true
  | _ => false

/-- A literal that begins with `c`. -/
def start (c : UInt8) : Option Literal :=
  if c = quote then some .string
  else if c = 0x2d then some .minus
  else if c = 0x30 then some .zero
  else if isDigit c then some .digits
  else if c = 0x6e then some (.word [0x75, 0x6c, 0x6c])
  else if c = 0x74 then some (.word [0x72, 0x75, 0x65])
  else if c = 0x66 then some (.word [0x61, 0x6c, 0x73, 0x65])
  else none

/-- `text` is what a literal still needs, and can end with. -/
def Rest (s : Literal) (text : Bytes) : Prop :=
  Accepts step complete s text

/-- The scanner of what a literal still needs. -/
def scan (s : Literal) : Scan UInt8 Bytes :=
  munch step complete s

end Literal

/-- What has brackets. -/
inductive Container
  | array
  | object
deriving DecidableEq, Repr

namespace Container

def opening : Container → UInt8
  | array => 0x5b
  | object => 0x7b

def closing : Container → UInt8
  | array => 0x5d
  | object => 0x7d

def ofOpening (c : UInt8) : Option Container :=
  if c = opening array then some array else if c = opening object then some object else none

@[simp] theorem ofOpening_opening (kind : Container) : ofOpening kind.opening = some kind := by
  cases kind
  · rfl
  · rfl

theorem eq_of_ofOpening {c : UInt8} {kind : Container} (h : ofOpening c = some kind) :
    c = kind.opening := by
  rw [ofOpening] at h
  split at h
  · cases h
    assumption
  · split at h
    · cases h
      assumption
    · cases h

end Container

/-- A member's quoted name, or nothing, and the text that stands before its value. -/
inductive Label : Container → Bytes → Bytes → Prop
  | element : Label .array [] []
  | member {key a b : Bytes} (hkey : Literal.string.Rest key) (ha : Blank a) (hb : Blank b) :
      Label .object (quote :: key) (quote :: key ++ a ++ colon :: b)

mutual

/-- The text of a value, without white space around it. -/
inductive Value : Bytes → Prop
  | literal {c : UInt8} {s : Literal} {text : Bytes} (hs : Literal.start c = some s)
      (h : s.Rest text) : Value (c :: text)
  | container {kind : Container} {items : List (Bytes × Bytes)} {text : Bytes}
      (h : Content kind items text) : Value (kind.opening :: text)

/-- What follows an opening bracket, up to the closing one, with the quoted names and the values
in it. -/
inductive Content : Container → List (Bytes × Bytes) → Bytes → Prop
  | empty {kind : Container} {a : Bytes} (ha : Blank a) : Content kind [] (a ++ [kind.closing])
  | items {kind : Container} {a : Bytes} {items : List (Bytes × Bytes)} {text : Bytes}
      (ha : Blank a) (h : Items kind items text) : Content kind items (a ++ text)

/-- One item or more, up to the closing bracket. -/
inductive Items : Container → List (Bytes × Bytes) → Bytes → Prop
  | last {kind : Container} {key label v b : Bytes} (hlabel : Label kind key label)
      (hv : Value v) (hb : Blank b) :
      Items kind [(key, v)] (label ++ (v ++ (b ++ [kind.closing])))
  | cons {kind : Container} {key label v a b : Bytes} {items : List (Bytes × Bytes)}
      {text : Bytes} (hlabel : Label kind key label) (hv : Value v) (hb : Blank b)
      (ha : Blank a) (h : Items kind items text) :
      Items kind ((key, v) :: items) (label ++ (v ++ (b ++ comma :: (a ++ text))))

end

/-- What is in a container and the text it was read from. -/
abbrev Contents : Type := List (Bytes × Bytes) × Bytes

def spaces : Scan UInt8 Bytes :=
  span isSpace

/-- The label of the next item. -/
def label : Container → Scan UInt8 (Bytes × Bytes)
  | .array => pure ([], [])
  | .object => do
      let c ← next
      if c = quote then
        let key ← Literal.string.scan
        let a ← spaces
        let d ← next
        if d = colon then
          let b ← spaces
          pure (quote :: key, quote :: key ++ a ++ colon :: b)
        else stop .malformed
      else stop .malformed

/-- A value, given how the content of a container is read. -/
def value (content : Container → Scan UInt8 Contents) : Scan UInt8 Bytes := do
  let c ← next
  match Container.ofOpening c with
  | some kind => do
      let r ← content kind
      pure (c :: r.2)
  | none =>
      match Literal.start c with
      | some s => do
          let text ← s.scan
          pure (c :: text)
      | none => stop .malformed

/-- The content of a container, given how its items are read. -/
def content (items : Container → Scan UInt8 Contents) (kind : Container) :
    Scan UInt8 Contents := do
  let a ← spaces
  let c ← peek
  if c = kind.closing then
    let d ← next
    pure ([], a ++ [d])
  else
    let r ← items kind
    pure (r.1, a ++ r.2)

/-- Nothing is opened at the limit. -/
def within (read : Nat → Container → Scan UInt8 Contents) :
    Nat → Container → Scan UInt8 Contents
  | 0, _ => stop .malformed
  | depth + 1, kind => read depth kind

/-- Items up to the closing bracket, with `depth` containers left to be opened inside.  There is
fuel for one byte in each round. -/
def items : Nat → Nat → Container → Scan UInt8 Contents
  | 0, _, _ => stop .malformed
  | fuel + 1, depth, kind => do
      let l ← label kind
      let v ← value (within (fun depth => content (items fuel depth)) depth)
      let b ← spaces
      let c ← next
      if c = kind.closing then
        pure ([(l.1, v)], l.2 ++ (v ++ (b ++ [kind.closing])))
      else if c = comma then
        let a ← spaces
        let r ← items fuel depth kind
        pure ((l.1, v) :: r.1, l.2 ++ (v ++ (b ++ comma :: (a ++ r.2))))
      else stop .malformed

/-- White space and a value, with fuel for `fuel` bytes. -/
def valueAfterSpaces (fuel depth : Nat) : Scan UInt8 Bytes := do
  let _ ← spaces
  value (within (fun depth => content (items fuel depth)) depth)

/-- The first value of a stream, in which at most `depth` containers are open at a time. -/
def readValue (depth : Nat) : Scan UInt8 Bytes :=
  fun bs => valueAfterSpaces bs.length depth bs

section Sound

theorem sound_spaces : Sound (fun x text => x = text ∧ Blank text) spaces :=
  sound_span

theorem sound_label (kind : Container) :
    Sound (fun l text => l.2 = text ∧ Label kind l.1 l.2) (label kind) := by
  cases kind with
  | array =>
      exact sound_pure ⟨rfl, .element⟩
  | object =>
      refine sound_next.bind ?_
      rintro c _ rfl
      split
      · rename_i hc
        refine (sound_munch _).bind ?_
        rintro key _ ⟨rfl, hkey⟩
        refine sound_spaces.bind ?_
        rintro a _ ⟨rfl, ha⟩
        refine sound_next.bind ?_
        rintro d _ rfl
        split
        · rename_i hd
          refine sound_spaces.bind ?_
          rintro b _ ⟨rfl, hb⟩
          refine sound_pure ⟨?_, .member hkey ha hb⟩
          simp [hc, hd]
        · exact sound_stop _
      · exact sound_stop _

variable {read : Container → Scan UInt8 Contents}

theorem sound_value
    (h : ∀ kind, Sound (fun r text => r.2 = text ∧ Content kind r.1 r.2) (read kind)) :
    Sound (fun v text => v = text ∧ Value v) (value read) := by
  refine sound_next.bind ?_
  rintro c _ rfl
  split
  · rename_i kind hkind
    rw [Container.eq_of_ofOpening hkind]
    refine (h kind).bind ?_
    rintro ⟨items, text⟩ _ ⟨rfl, hcontent⟩
    exact sound_pure ⟨by simp, .container hcontent⟩
  · split
    · rename_i s hs
      refine (sound_munch s).bind ?_
      rintro text _ ⟨rfl, htext⟩
      exact sound_pure ⟨by simp, .literal hs htext⟩
    · exact sound_stop _

theorem sound_content
    (h : ∀ kind, Sound (fun r text => r.2 = text ∧ Items kind r.1 r.2) (read kind))
    (kind : Container) :
    Sound (fun r text => r.2 = text ∧ Content kind r.1 r.2) (content read kind) := by
  refine sound_spaces.bind ?_
  rintro a _ ⟨rfl, ha⟩
  intro bs r rest hr
  obtain ⟨c, mid, hc, hr⟩ := bind_eq_ok hr
  cases bs with
  | nil => cases hc
  | cons d bs =>
      cases hc
      revert hr
      split
      · rename_i hc
        intro hr
        cases hr
        exact ⟨[c], rfl, by rw [hc], by rw [hc]; exact .empty ha⟩
      · refine Sound.bind (H := fun r b => r.2 = a ++ b ∧ Content kind r.1 r.2) (h kind) ?_
          (c :: bs) r rest
        rintro ⟨items, text⟩ _ ⟨rfl, hitems⟩
        exact sound_pure ⟨by simp, .items ha hitems⟩

theorem sound_within {read : Nat → Container → Scan UInt8 Contents}
    {G : Container → Contents → Bytes → Prop} (h : ∀ depth kind, Sound (G kind) (read depth kind))
    (depth : Nat) (kind : Container) : Sound (G kind) (within read depth kind) := by
  cases depth with
  | zero => exact sound_stop _
  | succ depth => exact h depth kind

theorem sound_items (fuel depth : Nat) (kind : Container) :
    Sound (fun r text => r.2 = text ∧ Items kind r.1 r.2) (items fuel depth kind) := by
  induction fuel generalizing depth kind with
  | zero => exact sound_stop _
  | succ fuel ih =>
      refine (sound_label kind).bind ?_
      rintro ⟨key, lab⟩ _ ⟨rfl, hlabel⟩
      refine (sound_value (sound_within (fun depth => sound_content (ih depth)) depth)).bind ?_
      rintro v _ ⟨rfl, hv⟩
      refine sound_spaces.bind ?_
      rintro b _ ⟨rfl, hb⟩
      refine sound_next.bind ?_
      rintro c _ rfl
      split
      · rename_i hc
        exact sound_pure ⟨by simp [hc], .last hlabel hv hb⟩
      · split
        · rename_i hc
          refine sound_spaces.bind ?_
          rintro a _ ⟨rfl, ha⟩
          refine (ih depth kind).bind ?_
          rintro ⟨items, text⟩ _ ⟨rfl, hitems⟩
          exact sound_pure ⟨by simp [hc], .cons hlabel hv hb ha hitems⟩
        · exact sound_stop _

/-- What is read from a stream is a value, behind white space. -/
theorem readValue_sound {depth : Nat} {bs v rest : Bytes} (h : readValue depth bs = .ok (v, rest)) :
    ∃ a, Blank a ∧ Value v ∧ bs = a ++ (v ++ rest) := by
  have hsound : Sound (fun v text => ∃ a, Blank a ∧ Value v ∧ text = a ++ v)
      (valueAfterSpaces bs.length depth) := by
    refine sound_spaces.bind ?_
    rintro a _ ⟨rfl, ha⟩
    refine (sound_value (sound_within (fun depth => sound_content (sound_items _ depth))
      depth)).mono ?_
    rintro v _ ⟨rfl, hv⟩
    exact ⟨a, ha, hv, rfl⟩
  obtain ⟨_, hbs, a, ha, hv, rfl⟩ := hsound bs v rest h
  exact ⟨a, ha, hv, by rw [hbs, List.append_assoc]⟩

end Sound

section Complete

/-- The bytes that end a literal wherever it can end. -/
def isDelimiter (c : UInt8) : Bool :=
  isSpace c || c = comma || c = colon || c = Container.array.closing ||
    c = Container.object.closing

variable {c : UInt8} {v text : Bytes} {kind : Container} {is : List (Bytes × Bytes)}

theorem step_delimiter (hc : isDelimiter c = true) (s : Literal) (hs : s.complete = true) :
    s.step c = none := by
  have hcases : c = 0x20 ∨ c = 0x09 ∨ c = 0x0a ∨ c = 0x0d ∨ c = 0x2c ∨ c = 0x3a ∨ c = 0x5d ∨
      c = 0x7d := by
    simp only [isDelimiter, isSpace, Bool.or_eq_true, decide_eq_true_eq, or_assoc] at hc
    exact hc
  rcases hcases with rfl | rfl | rfl | rfl | rfl | rfl | rfl | rfl
  all_goals
    cases s with
    | word left =>
        cases left with
        | nil => rfl
        | cons w left => cases hs
    | zero | digits | fraction | power => rfl
    | _ => cases hs

theorem isDelimiter_closing (kind : Container) : isDelimiter kind.closing = true := by
  cases kind
  · rfl
  · rfl

theorem isSpace_closing (kind : Container) : isSpace kind.closing = false := by
  cases kind
  · rfl
  · rfl

/-- White space and the byte behind it can end a literal. -/
theorem delimiter_after {a : Bytes} (ha : Blank a) (hc : isDelimiter c = true) (rest : Bytes) :
    ∃ d rest', a ++ c :: rest = d :: rest' ∧ isDelimiter d = true := by
  cases a with
  | nil => exact ⟨c, rest, rfl, hc⟩
  | cons d a =>
      exact ⟨d, a ++ c :: rest, rfl, by simp [isDelimiter, ha d (by simp)]⟩

/-- The first byte of a value: no white space, and no closing bracket. -/
def isFirst (c : UInt8) : Bool :=
  !isSpace c && c ≠ Container.array.closing && c ≠ Container.object.closing

theorem isFirst_of_start {s : Literal} (h : Literal.start c = some s) : isFirst c = true := by
  by_contra hc
  have hcases : c = 0x20 ∨ c = 0x09 ∨ c = 0x0a ∨ c = 0x0d ∨ c = 0x5d ∨ c = 0x7d := by
    simp only [isFirst, isSpace, Container.closing] at hc
    grind
  rcases hcases with rfl | rfl | rfl | rfl | rfl | rfl
  all_goals cases h

theorem isFirst_opening (kind : Container) : isFirst kind.opening = true := by
  cases kind
  · rfl
  · rfl

theorem not_space_of_isFirst (h : isFirst c = true) : isSpace c = false := by
  simp only [isFirst, Bool.and_eq_true, Bool.not_eq_true'] at h
  exact h.1.1

theorem ne_closing_of_isFirst (h : isFirst c = true) (kind : Container) : c ≠ kind.closing := by
  simp only [isFirst, Bool.and_eq_true, decide_eq_true_eq] at h
  cases kind with
  | array => exact h.1.2
  | object => exact h.2

theorem Value.first (h : Value v) : ∃ c text, v = c :: text ∧ isFirst c = true := by
  cases h with
  | literal hs h =>
      exact ⟨_, _, rfl, isFirst_of_start hs⟩
  | container h =>
      exact ⟨_, _, rfl, isFirst_opening _⟩

theorem Label.first {key label : Bytes} (h : Label kind key label) (hv : Value v) :
    ∃ c text, label ++ v = c :: text ∧ isFirst c = true := by
  cases h with
  | element => exact hv.first
  | member hkey ha hb => exact ⟨quote, _, rfl, rfl⟩

theorem Items.first {items : List (Bytes × Bytes)} (h : Items kind items text) :
    ∃ c text', text = c :: text' ∧ isFirst c = true := by
  cases h with
  | last hlabel hv hb | cons hlabel hv hb ha h =>
      obtain ⟨c, text, htext, hc⟩ := hlabel.first hv
      exact ⟨c, _, by rw [← List.append_assoc, htext]; rfl, hc⟩

theorem spaces_complete {a : Bytes} (ha : Blank a) (hc : isSpace c = false) (rest : Bytes) :
    spaces (a ++ c :: rest) = .ok (a, c :: rest) :=
  span_complete ha hc

theorem scan_complete {s : Literal} (h : s.Rest text) (hc : isDelimiter c = true) (rest : Bytes) :
    s.scan (text ++ c :: rest) = .ok (text, c :: rest) :=
  munch_complete h (step_delimiter hc)

theorem label_complete {key lab : Bytes} (h : Label kind key lab) (hc : isSpace c = false)
    (rest : Bytes) : label kind (lab ++ c :: rest) = .ok ((key, lab), c :: rest) := by
  cases h with
  | element => rfl
  | @member key a b hkey ha hb =>
      obtain ⟨d, after, hd, hdelimiter⟩ :=
        delimiter_after ha (c := colon) rfl (b ++ c :: rest)
      have hkey' : Literal.string.scan (key ++ (a ++ colon :: (b ++ c :: rest))) =
          .ok (key, a ++ colon :: (b ++ c :: rest)) := by
        rw [hd]
        exact scan_complete hkey hdelimiter after
      have hquote : (next : Scan UInt8 UInt8) (quote :: key ++ a ++ colon :: b ++ c :: rest) =
          .ok (quote, key ++ (a ++ colon :: (b ++ c :: rest))) := by
        simp [next]
      rw [label, bind_of_ok hquote, if_pos rfl, bind_of_ok hkey',
        bind_of_ok (spaces_complete ha rfl (b ++ c :: rest)), bind_of_ok rfl, if_pos rfl,
        bind_of_ok (spaces_complete hb hc rest)]
      rfl

variable {read : Container → Scan UInt8 Contents}

/-- A value is read to its end if the containers in it are. -/
theorem value_complete {v : Bytes} {c : UInt8} (h : Value v) (hc : isDelimiter c = true)
    (hread : ∀ kind items text, Content kind items text → text.length < v.length →
      ∀ rest, read kind (text ++ rest) = .ok ((items, text), rest)) (rest : Bytes) :
    value read (v ++ c :: rest) = .ok (v, c :: rest) := by
  cases h with
  | @literal d s text hs h =>
      have hcontainer : Container.ofOpening d = none := by
        cases hkind : Container.ofOpening d with
        | none => rfl
        | some kind =>
            rw [Container.eq_of_ofOpening hkind] at hs
            cases kind
            · cases hs
            · cases hs
      rw [value, List.cons_append, bind_of_ok rfl, hcontainer, hs]
      exact (bind_of_ok (scan_complete h hc rest)).trans rfl
  | @container kind items text h =>
      rw [value, List.cons_append, bind_of_ok rfl, Container.ofOpening_opening]
      exact (bind_of_ok (hread kind items text h (by simp) _)).trans rfl

theorem content_complete {kind : Container} {is : List (Bytes × Bytes)} {text : Bytes}
    (h : Content kind is text)
    (hread : ∀ t, Items kind is t → t.length ≤ text.length →
      ∀ rest, read kind (t ++ rest) = .ok ((is, t), rest)) (rest : Bytes) :
    content read kind (text ++ rest) = .ok ((is, text), rest) := by
  cases h with
  | @empty kind a ha =>
      have hspaces : spaces (a ++ [kind.closing] ++ rest) = .ok (a, kind.closing :: rest) := by
        rw [List.append_assoc]
        exact spaces_complete ha (isSpace_closing kind) rest
      rw [content, bind_of_ok hspaces, bind_of_ok rfl, if_pos rfl]
      rfl
  | @items kind a is t ha h =>
      obtain ⟨c, t', rfl, hc⟩ := h.first
      have hspaces : spaces (a ++ c :: t' ++ rest) = .ok (a, c :: (t' ++ rest)) := by
        rw [List.append_assoc]
        exact spaces_complete ha (not_space_of_isFirst hc) (t' ++ rest)
      rw [content, bind_of_ok hspaces, bind_of_ok rfl, if_neg (ne_closing_of_isFirst hc kind)]
      exact (bind_of_ok (hread _ h (by simp) rest)).trans rfl

/-- The items of a container are read if there is fuel for their bytes and room for as many
containers. -/
theorem items_complete {fuel depth : Nat} (h : Items kind is text) (hfuel : text.length ≤ fuel)
    (hdepth : text.length ≤ depth) (rest : Bytes) :
    items fuel depth kind (text ++ rest) = .ok ((is, text), rest) := by
  induction fuel generalizing depth kind is text rest with
  | zero =>
      obtain ⟨c, t, rfl, -⟩ := h.first
      cases hfuel
  | succ fuel ih =>
      -- the containers within a value are shorter than the value
      have hnested : ∀ v : Bytes, v.length ≤ text.length → ∀ kind is t,
          Content kind is t → t.length < v.length → ∀ rest,
          within (fun depth => content (items fuel depth)) depth kind (t ++ rest) =
            .ok ((is, t), rest) := by
        intro v hv kind is t hcontent ht rest
        obtain ⟨depth, rfl⟩ : ∃ d, depth = d + 1 := ⟨depth - 1, by omega⟩
        refine content_complete hcontent ?_ rest
        intro t' hitems ht' rest
        exact ih hitems (by omega) (by omega) rest
      cases h with
      | @last kind key lab v b hlabel hv hb =>
          obtain ⟨c, v', rfl, hc⟩ := hv.first
          obtain ⟨d, after, hd, hdelimiter⟩ :=
            delimiter_after hb (isDelimiter_closing kind) rest
          have hlab : label kind (lab ++ (c :: v' ++ (b ++ [kind.closing])) ++ rest) =
              .ok ((key, lab), c :: v' ++ (b ++ kind.closing :: rest)) := by
            rw [List.append_assoc]
            refine (label_complete hlabel (not_space_of_isFirst hc) _).trans ?_
            simp
          have hvalue := value_complete hv hdelimiter (hnested _ (by simp; omega)) after
          rw [← hd] at hvalue
          rw [items, bind_of_ok hlab, bind_of_ok hvalue,
            bind_of_ok (spaces_complete hb (isSpace_closing kind) rest), bind_of_ok rfl, if_pos rfl]
          rfl
      | @cons kind key lab v a b is t hlabel hv hb ha h =>
          obtain ⟨c, v', rfl, hc⟩ := hv.first
          obtain ⟨e, t', rfl, he⟩ := h.first
          obtain ⟨d, after, hd, hdelimiter⟩ :=
            delimiter_after hb (c := comma) rfl (a ++ e :: (t' ++ rest))
          have hlab : label kind
              (lab ++ (c :: v' ++ (b ++ comma :: (a ++ e :: t'))) ++ rest) =
              .ok ((key, lab), c :: v' ++ (b ++ comma :: (a ++ e :: (t' ++ rest)))) := by
            rw [List.append_assoc]
            refine (label_complete hlabel (not_space_of_isFirst hc) _).trans ?_
            simp
          have hvalue := value_complete hv hdelimiter (hnested _ (by simp; omega)) after
          rw [← hd] at hvalue
          have hcomma : comma ≠ kind.closing := by
            cases kind
            · decide
            · decide
          simp only [List.length_append, List.length_cons] at hfuel hdepth
          rw [items, bind_of_ok hlab, bind_of_ok hvalue,
            bind_of_ok (spaces_complete hb rfl _), bind_of_ok rfl, if_neg hcomma, if_pos rfl,
            bind_of_ok (spaces_complete ha (not_space_of_isFirst he) (t' ++ rest))]
          refine (bind_of_ok (ih h ?_ ?_ rest)).trans rfl
          · simp only [List.length_cons]
            omega
          · simp only [List.length_cons]
            omega

end Complete

section Refines

theorem refines_label (kind : Container) : Refines (label kind) (label kind) := by
  cases kind with
  | array => exact refines_pure _
  | object =>
      refine refines_next.bind fun c => ?_
      split
      · refine (refines_munch _).bind fun key => refines_span.bind fun a => ?_
        refine refines_next.bind fun d => ?_
        split
        · exact refines_span.bind fun b => refines_pure _
        · exact refines_malformed _
      · exact refines_malformed _

variable {read' read : Container → Scan UInt8 Contents} {depth' depth : Nat}

theorem refines_value (h : ∀ kind, Refines (read kind) (read' kind)) :
    Refines (value read) (value read') := by
  refine refines_next.bind fun c => ?_
  split
  · exact (h _).bind fun r => refines_pure _
  · split
    · exact (refines_munch _).bind fun text => refines_pure _
    · exact refines_malformed _

theorem refines_content (h : ∀ kind, Refines (read kind) (read' kind)) (kind : Container) :
    Refines (content read kind) (content read' kind) := by
  refine refines_span.bind fun a => refines_peek.bind fun c => ?_
  split
  · exact refines_next.bind fun d => refines_pure _
  · exact (h kind).bind fun r => refines_pure _

theorem refines_within {read read' : Nat → Container → Scan UInt8 Contents}
    (h : ∀ d d', d ≤ d' → ∀ kind, Refines (read d kind) (read' d' kind)) (hdepth : depth ≤ depth')
    (kind : Container) : Refines (within read depth kind) (within read' depth' kind) := by
  cases depth with
  | zero => exact refines_malformed _
  | succ depth =>
      obtain ⟨d', rfl⟩ : ∃ d', depth' = d' + 1 := ⟨depth' - 1, by omega⟩
      exact h depth d' (by omega) kind

theorem refines_items {fuel fuel' : Nat} (hfuel : fuel ≤ fuel') (hdepth : depth ≤ depth')
    (kind : Container) : Refines (items fuel depth kind) (items fuel' depth' kind) := by
  induction fuel generalizing fuel' depth depth' kind with
  | zero => exact refines_malformed _
  | succ fuel ih =>
      obtain ⟨fuel', rfl⟩ : ∃ n, fuel' = n + 1 := ⟨fuel' - 1, by omega⟩
      have hfuel' : fuel ≤ fuel' := by omega
      refine (refines_label kind).bind fun l => ?_
      refine (refines_value (refines_within (fun d d' hd => refines_content (ih hfuel' hd))
        hdepth)).bind fun v => ?_
      refine refines_span.bind fun b => refines_next.bind fun c => ?_
      split
      · exact refines_pure _
      · split
        · exact refines_span.bind fun a => (ih hfuel' hdepth kind).bind fun r => refines_pure _
        · exact refines_malformed _

theorem refines_valueAfterSpaces {fuel fuel' depth depth' : Nat} (hfuel : fuel ≤ fuel')
    (hdepth : depth ≤ depth') :
    Refines (valueAfterSpaces fuel depth) (valueAfterSpaces fuel' depth') :=
  refines_span.bind fun _ => refines_value
    (refines_within (fun _ _ hd => refines_content (refines_items hfuel hd)) hdepth)

/-- What was read is read again if the stream goes on. -/
theorem readValue_append {depth : Nat} {bs v rest : Bytes} (h : readValue depth bs = .ok (v, rest))
    (more : Bytes) : readValue depth (bs ++ more) = .ok (v, rest ++ more) :=
  (refines_valueAfterSpaces (by simp) (Nat.le_refl depth)).ok more h

end Refines

section First

variable {depth : Nat} {kind : Container} {is : List (Bytes × Bytes)} {a text rest : Bytes}

/-- With enough room, a container at the beginning of a stream is what is read. -/
theorem valueAfterSpaces_complete {fuel : Nat} (ha : Blank a) (h : Content kind is text)
    (hfuel : text.length ≤ fuel) (hdepth : text.length < depth) :
    valueAfterSpaces fuel depth (a ++ (kind.opening :: text ++ rest)) =
      .ok (kind.opening :: text, rest) := by
  obtain ⟨depth, rfl⟩ : ∃ d, depth = d + 1 := ⟨depth - 1, by omega⟩
  have hcontent : content (items fuel depth) kind (text ++ rest) = .ok ((is, text), rest) := by
    refine content_complete h ?_ rest
    intro t hitems ht rest
    exact items_complete hitems (by omega) (by omega) rest
  rw [valueAfterSpaces, List.cons_append, bind_of_ok
    (spaces_complete ha (not_space_of_isFirst (isFirst_opening kind)) (text ++ rest)), value,
    bind_of_ok rfl, Container.ofOpening_opening]
  exact (bind_of_ok hcontent).trans rfl

/-- A stream that begins with a container is malformed for the scanner, which means nested too
deeply, or this container is what it reads. -/
theorem readValue_eq (ha : Blank a) (h : Content kind is text)
    (hread : readValue depth (a ++ (kind.opening :: text ++ rest)) ≠ .error .malformed) :
    readValue depth (a ++ (kind.opening :: text ++ rest)) = .ok (kind.opening :: text, rest) := by
  have hrefines := refines_valueAfterSpaces
    (Nat.le_refl (a ++ (kind.opening :: text ++ rest)).length)
    (Nat.le_add_right depth (text.length + 1))
  have hcomplete : valueAfterSpaces (a ++ (kind.opening :: text ++ rest)).length
      (depth + (text.length + 1)) (a ++ (kind.opening :: text ++ rest)) =
        .ok (kind.opening :: text, rest) :=
    valueAfterSpaces_complete ha h (by simp; omega) (by omega)
  cases hr : readValue depth (a ++ (kind.opening :: text ++ rest)) with
  | ok r =>
      obtain ⟨v, after⟩ := r
      have hsame := hrefines.same hr
      rw [hcomplete] at hsame
      cases hsame
      rfl
  | error e =>
      cases e with
      | malformed => exact absurd hr hread
      | more =>
          have hmore := hrefines.more hr
          rw [hcomplete] at hmore
          cases hmore

end First

end LedgerLine.Json
