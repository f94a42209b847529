import LedgerLine.Broker.Layout

/-!
# A segment and its index on disk, and what a crash makes of them

`Stored d b all n tail es` says that the directory `d` holds the segment with base
offset `b`: its file is the header, the first `n` records of `all` and the torn
beginning `tail` of the next one, and its index file holds the entries `es`, which
are truthful about `all`.  A healthy segment has `n = all.length` and no tail.  After
a crash the index may still speak of records of `all` that the segment file has
lost.

Main facts:
* `IndexFile.append`, `IndexFile.truncate`, `IndexFile.crash`: the index file under
  the operations of the code and under a crash;
* `recordsBytes_isPrefix`: a prefix of a sequence of records is some of the records
  and the torn beginning of the next;
* `Stored.crash`: a crash keeps `all` and lowers `n`, but not below what is durable.
-/

namespace LedgerLine.Broker

section IndexFile

@[simp] theorem entryBytes_length (e : IndexEntry) : (entryBytes e).length = 8 := by
  simp [entryBytes]

@[simp] theorem entriesBytes_nil : entriesBytes [] = [] := by
  rfl

@[simp] theorem entriesBytes_cons (e : IndexEntry) (es : List IndexEntry) :
    entriesBytes (e :: es) = entryBytes e ++ entriesBytes es := by
  rfl

@[simp] theorem entriesBytes_append (es fs : List IndexEntry) :
    entriesBytes (es ++ fs) = entriesBytes es ++ entriesBytes fs := by
  simp [entriesBytes]

@[simp] theorem entriesBytes_length (es : List IndexEntry) :
    (entriesBytes es).length = es.length * 8 := by
  induction es with
  | nil => rfl
  | cons e es ih =>
      simp only [entriesBytes_cons, List.length_append, entryBytes_length, ih, List.length_cons]
      omega

/-- Cutting at a multiple of the entry size keeps whole entries. -/
theorem take_entriesBytes (es : List IndexEntry) (junk : Bytes) (k : Nat) :
    (entriesBytes es ++ junk).take (k * 8) =
      entriesBytes (es.take k) ++ junk.take (k * 8 - es.length * 8) := by
  rw [List.take_append, entriesBytes_length]
  congr 1
  rcases le_total k es.length with hk | hk
  · conv_lhs => rw [← List.take_append_drop k es, entriesBytes_append]
    apply List.take_left'
    rw [entriesBytes_length, List.length_take, Nat.min_eq_left hk]
  · rw [List.take_of_length_le hk, List.take_of_length_le]
    rw [entriesBytes_length]
    omega

/-- An index file that holds `es`, possibly followed by part of an entry, and of
which no crash leaves anything but some of the first entries and part of another. -/
structure IndexFile (f : File) (es : List IndexEntry) : Prop where
  noGap : NoGap f.base f.writes
  data : ∃ junk : Bytes, junk.length < 8 ∧ f.data = entriesBytes es ++ junk
  cuts : ∀ k j, ∃ (es' : List IndexEntry) (junk : Bytes),
    es' <+: es ∧ junk.length < 8 ∧ f.cut k j = entriesBytes es' ++ junk

namespace IndexFile

variable {es : List IndexEntry}

theorem of_base {img junk : Bytes} (hj : junk.length < 8) (himg : img = entriesBytes es ++ junk) :
    IndexFile ⟨img, [], 0⟩ es := by
  refine ⟨trivial, ⟨junk, hj, himg⟩, ?_⟩
  intro k j
  rw [File.cut_of_le _ (Nat.zero_le k)]
  exact ⟨es, junk, List.prefix_refl es, hj, himg⟩

theorem empty : IndexFile File.empty [] :=
  of_base (show ([] : Bytes).length < 8 by simp) rfl

theorem syncLe {f g : File} {es : List IndexEntry} (h : IndexFile f es)
    (hs : f.SyncLe g) : IndexFile g es := by
  refine ⟨?_, ?_, ?_⟩
  · rw [hs.base, hs.writes]
    exact h.noGap
  · rw [hs.data_eq]
    exact h.data
  · intro k j
    rw [hs.cut_eq]
    exact h.cuts k j

/-- Writing part of an entry after the last one, over whatever follows it. -/
theorem overwrite_entry (es : List IndexEntry) {junk : Bytes} (hj : junk.length < 8)
    (e : IndexEntry) (i : Nat) :
    ∃ (es' : List IndexEntry) (junk' : Bytes), (es' = es ∨ es' = es ++ [e]) ∧
      junk'.length < 8 ∧
      overwrite (entriesBytes es ++ junk) (es.length * 8) ((entryBytes e).take i) =
        entriesBytes es' ++ junk' ∧ (8 ≤ i → es' = es ++ [e]) := by
  have hover := overwrite_append (entriesBytes es) junk ((entryBytes e).take i)
  rw [entriesBytes_length] at hover
  by_cases hi : 8 ≤ i
  · refine ⟨es ++ [e], [], Or.inr rfl, by simp, ?_, fun _ => rfl⟩
    rw [List.take_of_length_le (by simpa using hi)] at hover ⊢
    rw [hover, entryBytes_length, List.drop_eq_nil_of_le (by omega)]
    simp
  · refine ⟨es, (entryBytes e).take i ++ junk.drop i, Or.inl rfl, ?_, ?_, ?_⟩
    · simp only [List.length_append, List.length_take, List.length_drop, entryBytes_length]
      omega
    · rw [hover, List.length_take, entryBytes_length, Nat.min_eq_left (by omega),
        List.append_assoc]
    · intro h8
      exact absurd h8 hi

theorem append {f : File} (h : IndexFile f es) (e : IndexEntry) :
    IndexFile (f.write (es.length * 8) (entryBytes e)) (es ++ [e]) := by
  obtain ⟨junk, hj, hdata⟩ := h.data
  refine ⟨?_, ?_, ?_⟩
  · apply File.noGap_write h.noGap
    rw [hdata, List.length_append, entriesBytes_length]
    omega
  · obtain ⟨es', junk', _, hj', hover, hes⟩ := overwrite_entry es hj e 8
    refine ⟨junk', hj', ?_⟩
    rw [File.data_write, hdata, ← hes (le_refl _), ← hover,
      List.take_of_length_le (by simp)]
  · intro k j
    rcases File.cut_write f (es.length * 8) (entryBytes e) k j with hcut | ⟨i, hcut⟩
    · obtain ⟨es', junk', hpre, hj', heq⟩ := h.cuts k j
      exact ⟨es', junk', hpre.trans (List.prefix_append _ _), hj', hcut.trans heq⟩
    · obtain ⟨es', junk', hes, hj', hover, _⟩ := overwrite_entry es hj e i
      refine ⟨es', junk', ?_, hj', by rw [hcut, hdata, hover]⟩
      rcases hes with rfl | rfl
      · exact List.prefix_append _ _
      · exact List.prefix_refl _

theorem truncate {f : File} {es : List IndexEntry} (h : IndexFile f es) {k : Nat}
    (hk : k ≤ es.length) : IndexFile (f.truncate (k * 8)) (es.take k) := by
  obtain ⟨junk, hj, hdata⟩ := h.data
  have hlen : k * 8 ≤ f.data.length := by
    rw [hdata, List.length_append, entriesBytes_length]
    omega
  refine ⟨File.noGap_truncate h.noGap hlen, ⟨[], by simp, ?_⟩, ?_⟩
  · rw [File.data_truncate h.noGap hlen, hdata, take_entriesBytes,
      Nat.sub_eq_zero_of_le (by omega), List.take_zero]
  · intro i j
    obtain ⟨es', junk', hpre, hj', heq⟩ := h.cuts i j
    refine ⟨es'.take k, junk'.take (k * 8 - es'.length * 8), hpre.take k, ?_, ?_⟩
    · rw [List.length_take]
      omega
    · rw [File.cut_truncate h.noGap hlen, heq, take_entriesBytes]

theorem crash {f : File} (h : IndexFile f es) {img : Bytes} (hi : f.CrashImage img) :
    ∃ es', es' <+: es ∧ IndexFile ⟨img, [], 0⟩ es' := by
  obtain ⟨k, j, _, rfl⟩ := hi
  obtain ⟨es', junk, hpre, hj, heq⟩ := h.cuts k j
  exact ⟨es', hpre, of_base hj heq⟩

end IndexFile

end IndexFile

section Stored

variable (crc : Checksum)

/-- What may follow the first `n` records of `all`: nothing, or a proper beginning
of the next record. -/
def TornTail (all : List Bytes) (n : Nat) (tail : Bytes) : Prop :=
  n ≤ all.length ∧
    (tail = [] ∨ ∃ q, all[n]? = some q ∧ tail <+: recordBytes crc q ∧
      tail.length < (recordBytes crc q).length)

/-- The segment with base offset `b` and its index in a directory. -/
structure Stored (d : Dir Path) (b : Nat) (all : List Bytes) (n : Nat) (tail : Bytes)
    (es : List IndexEntry) : Prop where
  named : Path.segment b ∈ d.names
  grows : (d.file (.segment b)).Grows
  data : (d.file (.segment b)).data = headerBytes b ++ recordsBytes crc (all.take n) ++ tail
  torn : TornTail crc all n tail
  index : IndexFile (d.file (.index b)) es
  truthful : Truthful crc all es

variable {crc}

theorem tornTail_nil {all : List Bytes} {n : Nat} (h : n ≤ all.length) : TornTail crc all n [] :=
  ⟨h, Or.inl rfl⟩

/-- A prefix of a sequence of records and something more. -/
theorem recordsBytes_isPrefix {ps : List Bytes} {tail img : Bytes}
    (h : img <+: recordsBytes crc ps ++ tail) :
    (∃ m q tail', ps[m]? = some q ∧ tail' <+: recordBytes crc q ∧
      tail'.length < (recordBytes crc q).length ∧
      img = recordsBytes crc (ps.take m) ++ tail') ∨
    (∃ tail', tail' <+: tail ∧ img = recordsBytes crc ps ++ tail') := by
  induction ps generalizing img with
  | nil => exact Or.inr ⟨img, h, rfl⟩
  | cons p ps ih =>
      rw [recordsBytes_cons, List.append_assoc] at h
      by_cases hlen : img.length < (recordBytes crc p).length
      · left
        refine ⟨0, p, img, rfl, ?_, hlen, rfl⟩
        exact List.prefix_of_prefix_length_le h (List.prefix_append _ _) (le_of_lt hlen)
      · obtain ⟨rest, rfl⟩ : recordBytes crc p <+: img :=
          List.prefix_of_prefix_length_le (List.prefix_append _ _) h (Nat.le_of_not_lt hlen)
        rcases ih ((List.prefix_append_right_inj _).mp h) with
          ⟨m, q, tail', hq, hpre, hlt, heq⟩ | ⟨tail', hpre, heq⟩
        · left
          refine ⟨m + 1, q, tail', hq, hpre, hlt, ?_⟩
          rw [heq]
          simp
        · right
          refine ⟨tail', hpre, ?_⟩
          rw [heq]
          simp

/-- A prefix of a segment file that keeps the header keeps the first records, as
many as it has room for. -/
theorem segment_isPrefix {b : Nat} {all : List Bytes} {n : Nat} {tail img : Bytes}
    (htorn : TornTail crc all n tail)
    (h : img <+: headerBytes b ++ recordsBytes crc (all.take n) ++ tail)
    (hheader : 16 ≤ img.length) :
    ∃ m tail', m ≤ n ∧ TornTail crc all m tail' ∧
      img = headerBytes b ++ recordsBytes crc (all.take m) ++ tail' ∧
      ∀ j, j ≤ n → position crc all j ≤ img.length → j ≤ m := by
  obtain ⟨rest, rfl⟩ : headerBytes b <+: img := by
    rw [List.append_assoc] at h
    exact List.prefix_of_prefix_length_le (List.prefix_append _ _) h (by simpa using hheader)
  rw [List.append_assoc, List.prefix_append_right_inj] at h
  rcases recordsBytes_isPrefix h with ⟨m, q, tail', hq, hpre, hlt, heq⟩ | ⟨tail', hpre, heq⟩
  · have hm : m < n ∧ m < all.length := by
      have := (List.getElem?_eq_some_iff.mp hq).1
      rw [List.length_take] at this
      omega
    have hqall : all[m]? = some q := by
      rwa [List.getElem?_take_of_lt hm.1] at hq
    have hqget : all[m] = q := by
      rwa [List.getElem?_eq_getElem hm.2, Option.some.injEq] at hqall
    refine ⟨m, tail', le_of_lt hm.1, ⟨le_of_lt hm.2, Or.inr ⟨q, hqall, hpre, hlt⟩⟩, ?_, ?_⟩
    · rw [heq, List.take_take, Nat.min_eq_left (le_of_lt hm.1), List.append_assoc]
    · intro j _ hj
      by_contra hjm
      have h₁ := position_mono crc all (show m + 1 ≤ j by omega)
      have h₂ := position_succ crc hm.2
      have h₃ : (headerBytes b ++ rest).length =
          position crc all m + tail'.length := by
        rw [heq, List.take_take, Nat.min_eq_left (le_of_lt hm.1)]
        simp only [List.length_append, headerBytes_length, position, segmentHeaderSize_eq]
        omega
      rw [hqget] at h₂
      rw [recordBytes_length] at hlt
      omega
  · refine ⟨n, tail', le_refl n, ⟨htorn.1, ?_⟩, ?_, fun j hj _ => hj⟩
    · rcases htorn.2 with rfl | ⟨q, hq, htail, hlt⟩
      · left
        exact List.prefix_nil.mp hpre
      · right
        exact ⟨q, hq, hpre.trans htail, lt_of_le_of_lt hpre.length_le hlt⟩
    · rw [heq, List.append_assoc]

namespace Stored

variable {d : Dir Path} {b n : Nat} {all : List Bytes} {tail : Bytes} {es : List IndexEntry}

theorem length_data (h : Stored crc d b all n tail es) :
    (d.file (.segment b)).data.length = position crc all n + tail.length := by
  rw [h.data]
  simp only [List.length_append, headerBytes_length, position, segmentHeaderSize_eq]

theorem syncLe {d' : Dir Path} (h : Stored crc d b all n tail es) (hs : d.SyncLe d') :
    Stored crc d' b all n tail es := by
  refine ⟨?_, (hs.2 _).grows h.grows, ?_, h.torn, h.index.syncLe (hs.2 _), h.truthful⟩
  · rw [hs.1]
    exact h.named
  · rw [(hs.2 _).data_eq]
    exact h.data

/-- Whatever happens to other files does not matter. -/
theorem congr {d' : Dir Path} (h : Stored crc d b all n tail es)
    (hnames : d.names ⊆ d'.names) (hseg : d'.file (.segment b) = d.file (.segment b))
    (hidx : d'.file (.index b) = d.file (.index b)) : Stored crc d' b all n tail es := by
  refine ⟨hnames h.named, ?_, ?_, h.torn, ?_, h.truthful⟩
  · rw [hseg]
    exact h.grows
  · rw [hseg]
    exact h.data
  · rw [hidx]
    exact h.index

/-- A crash leaves a stored segment: fewer records perhaps, a torn one perhaps, and the
first entries of an index, which may speak of what is lost.  No durable record is lost. -/
theorem crash {d' : Dir Path} (h : Stored crc d b all n tail es) (hc : d.Crash d')
    (hheader : 16 ≤ (d'.file (.segment b)).data.length) :
    ∃ m tail' es', m ≤ n ∧ es' <+: es ∧ Stored crc d' b all m tail' es' ∧
      ∀ j, j ≤ n → position crc all j ≤ (d.file (.segment b)).durable.length → j ≤ m := by
  obtain ⟨img, himg, hfile⟩ := hc.2 (.segment b)
  obtain ⟨ixImg, hixImg, hixFile⟩ := hc.2 (.index b)
  obtain ⟨hdur, hpre⟩ := h.grows.crashImage himg
  rw [hfile] at hheader
  change 16 ≤ img.length at hheader
  rw [h.data] at hpre
  obtain ⟨m, tail', hm, htorn, heq, hkeep⟩ := segment_isPrefix h.torn hpre hheader
  obtain ⟨es', hes, hix⟩ := h.index.crash hixImg
  refine ⟨m, tail', es', hm, hes, ⟨?_, ?_, ?_, htorn, ?_, h.truthful.sublist hes.sublist⟩, ?_⟩
  · rw [hc.1]
    exact h.named
  · rw [hfile]
    exact File.grows_base img
  · rw [hfile]
    exact heq
  · rw [hixFile]
    exact hix
  · intro j hj hpos
    exact hkeep j hj (le_trans hpos hdur.length_le)

end Stored

end Stored

end LedgerLine.Broker
