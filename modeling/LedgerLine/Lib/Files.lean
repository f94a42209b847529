import LedgerLine.Lib.BigEndian
import LedgerLine.Lib.Program
import Mathlib.Data.List.Infix
import Mathlib.Logic.Function.Basic

/-!
# Files, directories and what a crash leaves of them

A file is what is on disk for good (`base`), the writes made since, in order,
and how many of those writes a completed fsync covers.  Reading a file sees all
writes (`File.data`).  A power loss keeps the base and the covered writes, plus
some byte-prefix of the writes that follow (`File.CrashImage`); each file is cut
independently of the others (`Dir.Crash`).  Truncations are taken to be durable.
A process that is merely killed loses nothing it has written.

Programs act on a directory through the operations `FsOp`.

Main facts:
* `File.cut_write`, `File.cut_truncate`: the images of a file after a write and
  after a truncation, in terms of those before;
* `File.Grows.crashImage`: a file that is only ever appended to is left, by any
  crash, as a prefix of what it held that still contains everything durable.
-/

namespace LedgerLine

/-- One write: where it starts and what it puts there. -/
structure Write where
  offset : Nat
  bytes : Bytes
deriving DecidableEq

/-- Write `bs` over `d` from `off` on, filling a gap with zeros. -/
def overwrite (d : Bytes) (off : Nat) (bs : Bytes) : Bytes :=
  if bs = [] then d
  else d.take off ++ List.replicate (off - d.length) 0 ++ bs ++ d.drop (off + bs.length)

/-- Writing inside or at the end of what is there leaves no gap. -/
theorem overwrite_append (a b bs : Bytes) :
    overwrite (a ++ b) a.length bs = a ++ bs ++ b.drop bs.length := by
  unfold overwrite
  split_ifs with h
  · simp [h]
  · have hgap : a.length - (a ++ b).length = 0 := by
      simp
    rw [hgap, List.take_left', List.drop_append]
    · simp
    · rfl

@[simp] theorem overwrite_end (d bs : Bytes) : overwrite d d.length bs = d ++ bs := by
  simpa using overwrite_append d [] bs

@[simp] theorem overwrite_nil (d : Bytes) (off : Nat) : overwrite d off [] = d := by
  simp [overwrite]

/-- The content left by a sequence of writes. -/
def applyWrites (d : Bytes) (ws : List Write) : Bytes :=
  ws.foldl (fun d w => overwrite d w.offset w.bytes) d

@[simp] theorem applyWrites_nil (d : Bytes) : applyWrites d [] = d := by
  rfl

@[simp] theorem applyWrites_cons (d : Bytes) (w : Write) (ws : List Write) :
    applyWrites d (w :: ws) = applyWrites (overwrite d w.offset w.bytes) ws := by
  rfl

theorem applyWrites_append (d : Bytes) (ws vs : List Write) :
    applyWrites d (ws ++ vs) = applyWrites (applyWrites d ws) vs := by
  simp [applyWrites]

/-- Writing never shortens. -/
theorem length_le_overwrite (d : Bytes) (off : Nat) (bs : Bytes) :
    d.length ≤ (overwrite d off bs).length := by
  unfold overwrite
  split_ifs with h
  · exact le_refl _
  · simp
    omega

theorem length_le_applyWrites (d : Bytes) (ws : List Write) :
    d.length ≤ (applyWrites d ws).length := by
  induction ws generalizing d with
  | nil => exact le_refl _
  | cons w ws ih =>
      exact le_trans (length_le_overwrite d w.offset w.bytes) (ih _)

/-- No write starts past the end of what is there. -/
def NoGap : Bytes → List Write → Prop
  | _, [] => True
  | d, w :: ws =>
      (w.bytes = [] ∨ w.offset ≤ d.length) ∧ NoGap (overwrite d w.offset w.bytes) ws

variable {ws : List Write} {d : Bytes} {off : Nat}

theorem noGap_append {vs : List Write} :
    NoGap d (ws ++ vs) ↔ NoGap d ws ∧ NoGap (applyWrites d ws) vs := by
  induction ws generalizing d with
  | nil => simp [NoGap]
  | cons w ws ih =>
      simp only [List.cons_append, NoGap, ih, applyWrites_cons, and_assoc]

/-- The part of a write below `n`. -/
def Write.clip (n : Nat) (w : Write) : Write :=
  { w with bytes := w.bytes.take (n - w.offset) }

/-- The first `j` bytes of a write. -/
def Write.first (j : Nat) (w : Write) : Write :=
  { w with bytes := w.bytes.take j }

/-- Cutting after a write is writing the part below the cut into the cut file. -/
theorem overwrite_take (d bs : Bytes) (h : bs = [] ∨ off ≤ d.length) (n : Nat) :
    overwrite (d.take n) off (bs.take (n - off)) = (overwrite d off bs).take n := by
  rcases h with rfl | h
  · simp
  obtain ⟨a, b, rfl, rfl⟩ : ∃ a b, d = a ++ b ∧ a.length = off :=
    ⟨d.take off, d.drop off, (List.take_append_drop off d).symm, List.length_take_of_le h⟩
  by_cases hn : n ≤ a.length
  · rw [Nat.sub_eq_zero_of_le hn, List.take_zero, overwrite_nil, overwrite_append,
      List.append_assoc, List.take_append_of_le_length hn, List.take_append_of_le_length hn]
  · have hcut : (a ++ b).take n = a ++ b.take (n - a.length) := by
      rw [List.take_append, List.take_of_length_le (by omega)]
    have hrest : (b.take (n - a.length)).drop (bs.take (n - a.length)).length =
        (b.drop bs.length).take (n - a.length - bs.length) := by
      rw [List.length_take, List.drop_take]
      by_cases hbs : n - a.length ≤ bs.length
      · rw [Nat.min_eq_left hbs, Nat.sub_self, Nat.sub_eq_zero_of_le hbs]
        simp
      · rw [Nat.min_eq_right (by omega)]
    rw [hcut, overwrite_append, overwrite_append, hrest, List.append_assoc, List.append_assoc,
      List.take_append, List.take_of_length_le (by omega : a.length ≤ n), List.take_append]

/-- A write leaves what is before it. -/
theorem take_overwrite_of_le (d bs : Bytes) {n : Nat} (hoff : off ≤ d.length) (hn : n ≤ off) :
    (overwrite d off bs).take n = d.take n := by
  rw [← overwrite_take d bs (.inr hoff), Nat.sub_eq_zero_of_le hn, List.take_zero, overwrite_nil]

/-- A write leaves what is behind it. -/
theorem drop_overwrite_of_le (d bs : Bytes) {n : Nat} (hoff : off ≤ d.length)
    (hn : off + bs.length ≤ n) : (overwrite d off bs).drop n = d.drop n := by
  obtain ⟨a, b, rfl, rfl⟩ : ∃ a b, d = a ++ b ∧ a.length = off :=
    ⟨d.take off, d.drop off, (List.take_append_drop off d).symm, List.length_take_of_le hoff⟩
  have hbs : (a ++ bs).length ≤ n := by
    rw [List.length_append]
    exact hn
  rw [overwrite_append, List.drop_append, List.drop_eq_nil_of_le hbs, List.nil_append,
    List.drop_drop, List.drop_append, List.drop_eq_nil_of_le (by omega : a.length ≤ n),
    List.nil_append, List.length_append]
  congr 1
  omega

/-- A write inside a file leaves its length. -/
theorem length_overwrite (d bs : Bytes) (h : off + bs.length ≤ d.length) :
    (overwrite d off bs).length = d.length := by
  obtain ⟨a, b, rfl, rfl⟩ : ∃ a b, d = a ++ b ∧ a.length = off :=
    ⟨d.take off, d.drop off, (List.take_append_drop off d).symm,
      List.length_take_of_le (by omega)⟩
  rw [overwrite_append]
  simp only [List.length_append, List.length_drop] at h ⊢
  omega

theorem applyWrites_take (h : NoGap d ws) (n : Nat) :
    applyWrites (d.take n) (ws.map (Write.clip n)) = (applyWrites d ws).take n := by
  induction ws generalizing d with
  | nil => rfl
  | cons w ws ih =>
      rw [List.map_cons, applyWrites_cons, applyWrites_cons, ← ih h.2]
      congr 1
      exact overwrite_take d w.bytes h.1 n

theorem NoGap.clip (h : NoGap d ws) (n : Nat) : NoGap (d.take n) (ws.map (Write.clip n)) := by
  induction ws generalizing d with
  | nil => trivial
  | cons w ws ih =>
      refine ⟨?_, ?_⟩
      · rcases h.1 with hw | hw
        · left
          simp [Write.clip, hw]
        · by_cases hn : n ≤ w.offset
          · left
            simp [Write.clip, Nat.sub_eq_zero_of_le hn]
          · right
            simp only [Write.clip, List.length_take]
            omega
      · have hover := overwrite_take d w.bytes h.1 n
        have := ih h.2
        rw [← hover] at this
        exact this

/-- A file: its durable base, the writes since, and how many of them are synced. -/
structure File where
  base : Bytes
  writes : List Write
  synced : Nat
deriving DecidableEq

namespace File

/-- A file nobody has written to. -/
def empty : File := ⟨[], [], 0⟩

/-- What a reader of the file sees. -/
def data (f : File) : Bytes :=
  applyWrites f.base f.writes

/-- What a completed fsync covers. -/
def durable (f : File) : Bytes :=
  applyWrites f.base (f.writes.take f.synced)

/-- Write `bs` at `off`. -/
def write (f : File) (off : Nat) (bs : Bytes) : File :=
  { f with writes := f.writes ++ [⟨off, bs⟩] }

/-- A completed fsync that began when `n` writes had been made. -/
def syncTo (f : File) (n : Nat) : File :=
  { f with synced := max f.synced n }

/-- An fsync with no write in between its beginning and its end. -/
def fsync (f : File) : File :=
  f.syncTo f.writes.length

/-- Cut or zero-extend the file to length `n`. -/
def truncate (f : File) (n : Nat) : File :=
  if n ≤ f.data.length then
    { f with base := f.base.take n, writes := f.writes.map (Write.clip n) }
  else
    f.write f.data.length (List.replicate (n - f.data.length) 0)

/-- The first `k` writes and the first `j` bytes of the next one. -/
def cut (f : File) (k j : Nat) : Bytes :=
  applyWrites f.base
    (f.writes.take k ++ ((f.writes.drop k).take 1).map (Write.first j))

/-- What a power loss may leave: everything synced and some byte-prefix of the
writes that follow. -/
def CrashImage (f : File) (img : Bytes) : Prop :=
  ∃ k j, f.synced ≤ k ∧ img = f.cut k j

@[simp] theorem data_empty : empty.data = [] := by
  rfl

@[simp] theorem data_write (f : File) (off : Nat) (bs : Bytes) :
    (f.write off bs).data = overwrite f.data off bs := by
  simp [data, write, applyWrites_append]

/-- After an fsync everything written is durable. -/
theorem durable_fsync (f : File) : f.fsync.durable = f.data := by
  unfold durable fsync syncTo data
  rw [List.take_of_length_le (le_max_right _ _)]

/-- A cut past the last write is the whole file. -/
theorem cut_of_le (f : File) {k : Nat} (hk : f.writes.length ≤ k) (j : Nat) :
    f.cut k j = f.data := by
  simp [cut, data, List.take_of_length_le hk, List.drop_eq_nil_of_le hk]

/-- After a write, a cut falls before it, in it or after it. -/
theorem cut_write (f : File) (off : Nat) (bs : Bytes) (k j : Nat) :
    (f.write off bs).cut k j = f.cut k j ∨
      ∃ i, (f.write off bs).cut k j = overwrite f.data off (bs.take i) := by
  rcases Nat.lt_trichotomy k f.writes.length with hk | rfl | hk
  · left
    have htake : (f.writes ++ [Write.mk off bs]).take k = f.writes.take k :=
      List.take_append_of_le_length (le_of_lt hk)
    have hdrop : ((f.writes ++ [Write.mk off bs]).drop k).take 1 =
        (f.writes.drop k).take 1 := by
      rw [List.drop_append_of_le_length (le_of_lt hk), List.take_append_of_le_length]
      rw [List.length_drop]
      omega
    simp only [cut, write, htake, hdrop]
  · right
    refine ⟨j, ?_⟩
    simp [cut, write, data, applyWrites_append, Write.first]
  · right
    refine ⟨bs.length, ?_⟩
    rw [cut_of_le _ (by simp [write]; omega), data_write, List.take_length]

variable {f g : File} {n : Nat}

/-- A write that starts no later than the end of the file leaves no gap. -/
theorem noGap_write (h : NoGap f.base f.writes) {off : Nat} (bs : Bytes)
    (hoff : off ≤ f.data.length) : NoGap (f.write off bs).base (f.write off bs).writes :=
  noGap_append.mpr ⟨h, Or.inr hoff, trivial⟩

/-- The writes of a cut leave no gap either. -/
theorem noGap_cut (h : NoGap f.base f.writes) (k j : Nat) :
    NoGap f.base (f.writes.take k ++ ((f.writes.drop k).take 1).map (Write.first j)) := by
  have hsplit := h
  rw [← List.take_append_drop k f.writes, noGap_append] at hsplit
  refine noGap_append.mpr ⟨hsplit.1, ?_⟩
  cases hrest : f.writes.drop k with
  | nil => trivial
  | cons w ws =>
      rw [hrest] at hsplit
      refine ⟨?_, trivial⟩
      rcases hsplit.2.1 with hw | hw
      · left
        simp [Write.first, hw]
      · exact Or.inr hw

theorem data_truncate (h : NoGap f.base f.writes) (hn : n ≤ f.data.length) :
    (f.truncate n).data = f.data.take n := by
  rw [truncate, if_pos hn]
  exact applyWrites_take h n

theorem noGap_truncate (h : NoGap f.base f.writes) (hn : n ≤ f.data.length) :
    NoGap (f.truncate n).base (f.truncate n).writes := by
  rw [truncate, if_pos hn]
  exact h.clip n

theorem cut_truncate (h : NoGap f.base f.writes) (hn : n ≤ f.data.length) (k j : Nat) :
    (f.truncate n).cut k j = (f.cut k j).take n := by
  have hclip : ∀ w : Write, (w.clip n).first j = (w.first j).clip n := by
    intro w
    simp only [Write.clip, Write.first, List.take_take, Nat.min_comm]
  rw [truncate, if_pos hn]
  unfold cut
  rw [← applyWrites_take (noGap_cut h k j) n]
  simp only [List.map_append, List.map_take, List.map_drop, List.map_map]
  rw [show Write.first j ∘ Write.clip n = Write.clip n ∘ Write.first j from funext hclip]

/-- The file holds `bs`, and cutting it cuts `bs`. -/
structure Holds (f : File) (bs : Bytes) : Prop where
  noGap : NoGap f.base f.writes
  data : f.data = bs

theorem holds_empty : empty.Holds [] :=
  ⟨trivial, rfl⟩

theorem Holds.write {f : File} {bs : Bytes} (h : f.Holds bs) {off : Nat} (hoff : off ≤ bs.length)
    (new : Bytes) : (f.write off new).Holds (overwrite bs off new) := by
  refine ⟨noGap_write h.noGap new ?_, ?_⟩
  · rw [h.data]
    exact hoff
  · rw [data_write, h.data]

theorem Holds.truncate {f : File} {bs : Bytes} (h : f.Holds bs) {n : Nat} (hn : n ≤ bs.length) :
    (f.truncate n).Holds (bs.take n) := by
  have hlen : n ≤ f.data.length := by
    rw [h.data]
    exact hn
  refine ⟨noGap_truncate h.noGap hlen, ?_⟩
  rw [data_truncate h.noGap hlen, h.data]

/-- Two files with the same bytes in them, whatever has been synced of either. -/
structure SameBytes (f g : File) : Prop where
  base : g.base = f.base
  writes : g.writes = f.writes

theorem SameBytes.refl (f : File) : SameBytes f f :=
  ⟨rfl, rfl⟩

theorem SameBytes.trans {h : File} (h₁ : SameBytes f g) (h₂ : SameBytes g h) : SameBytes f h :=
  ⟨h₂.base.trans h₁.base, h₂.writes.trans h₁.writes⟩

theorem SameBytes.data_eq (h : SameBytes f g) : g.data = f.data := by
  unfold data
  rw [h.base, h.writes]

theorem Holds.sameBytes {bs : Bytes} (h : f.Holds bs) (hs : SameBytes f g) : g.Holds bs := by
  refine ⟨?_, hs.data_eq.trans h.data⟩
  rw [hs.base, hs.writes]
  exact h.noGap

/-- What a crash keeps is no shorter than what was durable. -/
theorem length_durable_le_cut (f : File) {k : Nat} (hk : f.synced ≤ k) (j : Nat) :
    f.durable.length ≤ (f.cut k j).length := by
  obtain ⟨r, rfl⟩ := Nat.exists_eq_add_of_le hk
  rw [cut, List.take_add, List.append_assoc, applyWrites_append]
  exact length_le_applyWrites _ _

/-- Every image of a crash is a prefix of what was written: nothing that was
there is ever overwritten with something else. -/
structure Grows (f : File) : Prop where
  noGap : NoGap f.base f.writes
  synced_le : f.synced ≤ f.writes.length
  cut_isPrefix : ∀ k j, f.cut k j <+: f.data

theorem grows_base (img : Bytes) : (File.mk img [] 0).Grows := by
  refine ⟨trivial, le_refl _, ?_⟩
  intro k j
  rw [cut_of_le _ (Nat.zero_le k)]

theorem Grows.write {f : File} (h : f.Grows) (bs : Bytes) : (f.write f.data.length bs).Grows := by
  refine ⟨noGap_write h.noGap bs (le_refl _), ?_, ?_⟩
  · have := h.synced_le
    simp only [File.write, List.length_append]
    omega
  intro k j
  rw [data_write, overwrite_end]
  rcases cut_write f f.data.length bs k j with hcut | ⟨i, hcut⟩
  · rw [hcut]
    exact (h.cut_isPrefix k j).trans (List.prefix_append _ _)
  · rw [hcut, overwrite_end]
    exact (List.prefix_append_right_inj _).mpr (List.take_prefix _ _)

theorem Grows.truncate {f : File} (h : f.Grows) {n : Nat} (hn : n ≤ f.data.length) :
    (f.truncate n).Grows := by
  refine ⟨noGap_truncate h.noGap hn, ?_, ?_⟩
  · have := h.synced_le
    rw [File.truncate, if_pos hn]
    simpa using this
  intro k j
  rw [cut_truncate h.noGap hn, data_truncate h.noGap hn]
  exact (h.cut_isPrefix k j).take n

/-- A cut between two writes. -/
theorem cut_zero (f : File) (k : Nat) : f.cut k 0 = applyWrites f.base (f.writes.take k) := by
  unfold cut
  cases f.writes.drop k with
  | nil => simp
  | cons w ws =>
      simp [applyWrites_append, Write.first]

/-- A file that only grows keeps, through any crash, everything durable, and holds
nothing it did not hold before. -/
theorem Grows.crashImage (h : f.Grows) {img : Bytes} (hi : f.CrashImage img) :
    f.durable <+: img ∧ img <+: f.data := by
  obtain ⟨k, j, hk, rfl⟩ := hi
  refine ⟨?_, h.cut_isPrefix k j⟩
  have hdur : f.durable <+: f.data := by
    have := h.cut_isPrefix f.synced 0
    rwa [cut_zero] at this
  exact List.prefix_of_prefix_length_le hdur (h.cut_isPrefix k j)
    (f.length_durable_le_cut hk j)

/-- A file after more writes and more syncing, with nothing cut. -/
structure Extends (f g : File) : Prop where
  base : g.base = f.base
  writes : f.writes <+: g.writes
  synced : f.synced ≤ g.synced

namespace Extends

theorem refl (f : File) : Extends f f :=
  ⟨rfl, List.prefix_refl _, le_refl _⟩

theorem write (f : File) (off : Nat) (bs : Bytes) : Extends f (f.write off bs) :=
  ⟨rfl, List.prefix_append _ _, le_refl _⟩

theorem syncTo (f : File) (n : Nat) : Extends f (f.syncTo n) :=
  ⟨rfl, List.prefix_refl _, le_max_left _ _⟩

/-- The first writes are still the first writes. -/
theorem take_writes {f g : File} (h : Extends f g) {n : Nat} (hn : n ≤ f.writes.length) :
    g.writes.take n = f.writes.take n := by
  obtain ⟨ws, hws⟩ := h.writes
  rw [← hws, List.take_append_of_le_length hn]

end Extends

/-- In a file that only grows, what the first writes gave is a prefix of everything
that is durable once they are. -/
theorem Grows.take_isPrefix_durable (h : f.Grows) (hn : n ≤ f.synced) :
    applyWrites f.base (f.writes.take n) <+: f.durable := by
  have h₁ := h.cut_isPrefix n 0
  have h₂ := h.cut_isPrefix f.synced 0
  rw [cut_zero] at h₁ h₂
  refine List.prefix_of_prefix_length_le h₁ h₂ ?_
  obtain ⟨r, hr⟩ := Nat.exists_eq_add_of_le hn
  rw [durable, hr, List.take_add, applyWrites_append]
  exact length_le_applyWrites _ _

/-- The same file with more of its writes covered by fsyncs. -/
structure SyncLe (f g : File) : Prop where
  base : g.base = f.base
  writes : g.writes = f.writes
  le : f.synced ≤ g.synced
  bound : g.synced ≤ max f.synced f.writes.length

namespace SyncLe

theorem refl (f : File) : SyncLe f f :=
  ⟨rfl, rfl, le_refl _, le_max_left _ _⟩

variable {f g : File}

theorem trans {h : File} (h₁ : SyncLe f g) (h₂ : SyncLe g h) : SyncLe f h := by
  refine ⟨h₂.base.trans h₁.base, h₂.writes.trans h₁.writes, le_trans h₁.le h₂.le, ?_⟩
  have hb₁ := h₁.bound
  have hb₂ := h₂.bound
  rw [h₁.writes] at hb₂
  omega

/-- A completed fsync is such a step. -/
theorem syncTo (f : File) {n : Nat} (hn : n ≤ f.writes.length) : SyncLe f (f.syncTo n) := by
  refine ⟨rfl, rfl, le_max_left _ _, ?_⟩
  simp only [File.syncTo]
  omega

theorem data_eq (h : SyncLe f g) : g.data = f.data := by
  simp [File.data, h.base, h.writes]

theorem cut_eq (h : SyncLe f g) (k j : Nat) : g.cut k j = f.cut k j := by
  simp [File.cut, h.base, h.writes]

theorem durable_length_le (h : SyncLe f g) : f.durable.length ≤ g.durable.length := by
  obtain ⟨r, hr⟩ := Nat.exists_eq_add_of_le h.le
  unfold durable
  rw [h.base, h.writes, hr, List.take_add, applyWrites_append]
  exact length_le_applyWrites _ _

theorem crashImage (h : SyncLe f g) {img : Bytes} (hi : g.CrashImage img) : f.CrashImage img := by
  obtain ⟨k, j, hk, rfl⟩ := hi
  exact ⟨k, j, le_trans h.le hk, h.cut_eq k j⟩

theorem grows (h : SyncLe f g) (hf : f.Grows) : g.Grows := by
  refine ⟨?_, ?_, ?_⟩
  · rw [h.base, h.writes]
    exact hf.noGap
  · have hb := h.bound
    have := hf.synced_le
    rw [h.writes]
    omega
  · intro k j
    rw [h.cut_eq, h.data_eq]
    exact hf.cut_isPrefix k j

theorem write {f g : File} (h : SyncLe f g) (off : Nat) (bs : Bytes) :
    SyncLe (f.write off bs) (g.write off bs) := by
  refine ⟨h.base, ?_, h.le, ?_⟩
  · simp only [File.write, h.writes]
  · have := h.bound
    simp only [File.write, List.length_append]
    omega

theorem truncate {f g : File} (h : SyncLe f g) (n : Nat) :
    SyncLe (f.truncate n) (g.truncate n) := by
  unfold File.truncate
  rw [h.data_eq]
  split_ifs
  · refine ⟨?_, ?_, h.le, ?_⟩
    · simp only [h.base]
    · simp only [h.writes]
    · simpa using h.bound
  · exact h.write _ _

theorem fsync (h : SyncLe f g) : SyncLe f.fsync g.fsync := by
  have hb := h.bound
  have hl := h.le
  refine ⟨h.base, h.writes, ?_, ?_⟩
  all_goals
    simp only [File.fsync, File.syncTo, h.writes]
    omega

end SyncLe

end File

end LedgerLine
