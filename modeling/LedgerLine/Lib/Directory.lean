import LedgerLine.Lib.Files

/-!
# Directories and the operations on them

A directory is the list of the names in it and the file each name stands for.
Programs act on it through the operations `FsOp`; `FsOp.exec` is what an
operation does when nothing goes wrong, and `FsOp.Outcome` adds the ways it may
fail: an operation that fails has no effect, except that a write may have put
some of its bytes in the file.
-/

namespace LedgerLine

/-- A directory over file names `P`. -/
structure Dir (P : Type) where
  names : List P
  file : P → File

/-- How a file operation fails. -/
inductive FsErr
  | exist
  | notExist
  | io
deriving DecidableEq, Repr

/-- Operations on a directory. -/
inductive FsOp (P : Type)
  /-- Create a file that must not exist yet. -/
  | createExcl (p : P)
  /-- Open a file, creating it if it is missing. -/
  | openCreate (p : P)
  /-- Open a file that must exist. -/
  | openExisting (p : P)
  | stat (p : P)
  | read (p : P)
  | writeAt (p : P) (off : Nat) (bs : Bytes)
  | truncate (p : P) (n : Nat)
  | fsync (p : P)
  | readDir

namespace FsOp

/-- What an operation answers. -/
def Resp {P : Type} : FsOp P → Type
  | stat _ => Except FsErr Nat
  | read _ => Except FsErr Bytes
  | readDir => Except FsErr (List P)
  | _ => Except FsErr Unit

end FsOp

namespace Dir

variable {P : Type}

/-- A directory with nothing in it. -/
def empty : Dir P := ⟨[], fun _ => File.empty⟩

/-- A directory as a process finds it: it has written and flushed nothing yet. -/
def found (names : List P) (content : P → Bytes) : Dir P :=
  ⟨names, fun p => ⟨content p, [], 0⟩⟩

/-- What a power loss may leave of a directory: every file is cut on its own. -/
def Crash (d d' : Dir P) : Prop :=
  d'.names = d.names ∧
    ∀ p, ∃ img, (d.file p).CrashImage img ∧ d'.file p = ⟨img, [], 0⟩

/-- The same directory with more of its writes covered by fsyncs. -/
def SyncLe (d d' : Dir P) : Prop :=
  d'.names = d.names ∧ ∀ p, (d.file p).SyncLe (d'.file p)

theorem SyncLe.refl (d : Dir P) : SyncLe d d :=
  ⟨rfl, fun p => File.SyncLe.refl (d.file p)⟩

theorem SyncLe.trans {d₁ d₂ d₃ : Dir P} (h₁ : SyncLe d₁ d₂) (h₂ : SyncLe d₂ d₃) : SyncLe d₁ d₃ :=
  ⟨h₂.1.trans h₁.1, fun p => (h₁.2 p).trans (h₂.2 p)⟩

variable {d' d : Dir P} {p q : P}

/-- More syncing leaves a crash less to choose from. -/
theorem SyncLe.crash {c : Dir P} (h : SyncLe d d') (hc : Crash d' c) : Crash d c := by
  refine ⟨hc.1.trans h.1, fun p => ?_⟩
  obtain ⟨img, himg, hp⟩ := hc.2 p
  exact ⟨img, (h.2 p).crashImage himg, hp⟩

/-- A name that is not in the directory stands for an empty file. -/
def Tidy (d : Dir P) : Prop :=
  ∀ p, p ∉ d.names → d.file p = File.empty

theorem tidy_empty : (empty : Dir P).Tidy :=
  fun _ _ => rfl

theorem Tidy.crash {c : Dir P} (h : d.Tidy) (hc : Crash d c) : c.Tidy := by
  intro p hp
  rw [hc.1] at hp
  obtain ⟨img, ⟨k, j, _, rfl⟩, hfile⟩ := hc.2 p
  rw [hfile, h p hp, File.cut_of_le _ (Nat.zero_le k)]
  rfl

theorem Tidy.syncLe {d d' : Dir P} (h : d.Tidy) (hs : SyncLe d d') : d'.Tidy := by
  intro p hp
  rw [hs.1] at hp
  have hf := hs.2 p
  rw [h p hp] at hf
  have hsynced : (d'.file p).synced = 0 := by
    have := hf.bound
    simpa [File.empty] using this
  cases hfile : d'.file p with
  | mk base writes synced =>
      rw [hfile] at hf hsynced
      have hbase : base = [] := hf.base
      have hwrites : writes = [] := hf.writes
      have hzero : synced = 0 := hsynced
      rw [hbase, hwrites, hzero]
      rfl

/-- The same directory, whatever has been synced of its files. -/
def SameBytes (d d' : Dir P) : Prop :=
  d'.names = d.names ∧ ∀ p, (d.file p).SameBytes (d'.file p)

theorem SameBytes.refl (d : Dir P) : SameBytes d d :=
  ⟨rfl, fun p => File.SameBytes.refl (d.file p)⟩

theorem SameBytes.trans {d₁ d₂ d₃ : Dir P} (h₁ : SameBytes d₁ d₂) (h₂ : SameBytes d₂ d₃) :
    SameBytes d₁ d₃ :=
  ⟨h₂.1.trans h₁.1, fun p => (h₁.2 p).trans (h₂.2 p)⟩

/-- The files of a directory after more writes and more syncing. -/
def Extends (d d' : Dir P) : Prop :=
  ∀ p, p ∈ d.names → p ∈ d'.names ∧ (d.file p).Extends (d'.file p)

theorem Extends.refl (d : Dir P) : Extends d d :=
  fun p hp => ⟨hp, File.Extends.refl (d.file p)⟩

theorem SyncLe.extends (h : SyncLe d d') : Extends d d' := by
  intro p hp
  refine ⟨by rw [h.1]; exact hp, (h.2 p).base, ?_, (h.2 p).le⟩
  rw [(h.2 p).writes]

variable [DecidableEq P]

/-- Replace the file a name stands for. -/
def set (d : Dir P) (p : P) (f : File) : Dir P :=
  { d with file := Function.update d.file p f }

/-- Add an empty file. -/
def create (d : Dir P) (p : P) : Dir P :=
  ⟨d.names ++ [p], Function.update d.file p File.empty⟩

/-- Add an empty file unless the name is taken. -/
def touch (d : Dir P) (p : P) : Dir P :=
  if p ∈ d.names then d else d.create p

@[simp] theorem set_names (d : Dir P) (p : P) (f : File) : (d.set p f).names = d.names := by
  rfl

@[simp] theorem set_file_self (d : Dir P) (p : P) (f : File) : (d.set p f).file p = f := by
  simp [set]

@[simp] theorem set_file_ne (d : Dir P) (f : File) (h : q ≠ p) : (d.set p f).file q = d.file q := by
  simp [set, h]

@[simp] theorem create_names (d : Dir P) (p : P) : (d.create p).names = d.names ++ [p] := by
  rfl

@[simp] theorem create_file_self (d : Dir P) (p : P) : (d.create p).file p = File.empty := by
  simp [create]

@[simp] theorem create_file_ne (d : Dir P) (h : q ≠ p) : (d.create p).file q = d.file q := by
  simp [create, h]

/-- Replacing a file by one that is synced further is such a step. -/
theorem SyncLe.set (h : SyncLe d d') {f g : File} (hf : f.SyncLe g) :
    SyncLe (d.set p f) (d'.set p g) := by
  refine ⟨h.1, fun q => ?_⟩
  by_cases hq : q = p
  · subst hq
    simpa using hf
  · simpa [hq] using h.2 q

theorem SyncLe.set_right (d : Dir P) {g : File} (hg : (d.file p).SyncLe g) :
    SyncLe d (d.set p g) := by
  refine ⟨rfl, fun q => ?_⟩
  by_cases hq : q = p
  · subst hq
    simpa using hg
  · simpa [hq] using File.SyncLe.refl (d.file q)

theorem SyncLe.create (h : SyncLe d d') (p : P) : SyncLe (d.create p) (d'.create p) := by
  refine ⟨by rw [create_names, create_names, h.1], fun q => ?_⟩
  by_cases hq : q = p
  · subst hq
    simpa using File.SyncLe.refl File.empty
  · simpa [hq] using h.2 q

theorem SyncLe.touch (h : SyncLe d d') (p : P) : SyncLe (d.touch p) (d'.touch p) := by
  unfold Dir.touch
  rw [h.1]
  split_ifs
  · exact h
  · exact h.create p

/-- An fsync, wherever it began, changes no byte. -/
theorem sameBytes_syncTo (d : Dir P) (p : P) (n : Nat) :
    SameBytes d (d.set p ((d.file p).syncTo n)) := by
  refine ⟨rfl, fun q => ?_⟩
  by_cases hq : q = p
  · subst hq
    rw [set_file_self]
    exact ⟨rfl, rfl⟩
  · rw [set_file_ne d _ hq]
    exact File.SameBytes.refl _

theorem mem_names_touch (d : Dir P) (p : P) : p ∈ (d.touch p).names := by
  unfold touch
  split_ifs with hp
  · exact hp
  · simp

theorem names_subset_touch (d : Dir P) (p : P) : d.names ⊆ (d.touch p).names := by
  unfold touch
  split_ifs
  · exact List.Subset.refl _
  · simp

theorem touch_file_ne (d : Dir P) (hne : q ≠ p) : (d.touch p).file q = d.file q := by
  unfold touch
  split_ifs
  · rfl
  · exact create_file_ne d hne

theorem Tidy.create (h : d.Tidy) (p : P) : (d.create p).Tidy := by
  intro q hq
  rw [create_names, List.mem_append, not_or] at hq
  have hne : q ≠ p := by
    simpa using hq.2
  rw [create_file_ne d hne, h q hq.1]

/-- Adding the name of an empty file changes no file. -/
theorem Tidy.touch_file (h : d.Tidy) (p q : P) : (d.touch p).file q = d.file q := by
  by_cases hq : q = p
  · subst hq
    unfold Dir.touch
    split_ifs with hp
    · rfl
    · rw [create_file_self, h q hp]
  · exact touch_file_ne d hq

theorem Tidy.touch (h : d.Tidy) (p : P) : (d.touch p).Tidy := by
  unfold Dir.touch
  split_ifs
  · exact h
  · exact h.create p

theorem Tidy.set (h : d.Tidy) (hp : p ∈ d.names) (f : File) : (d.set p f).Tidy := by
  intro q hq
  have hne : q ≠ p := by
    rintro rfl
    exact hq hp
  rw [set_file_ne d f hne]
  exact h q hq

theorem Extends.create (d : Dir P) (hp : p ∉ d.names) : Extends d (d.create p) := by
  intro q hq
  have hne : q ≠ p := by
    rintro rfl
    exact hp hq
  refine ⟨by simp [hq], ?_⟩
  rw [create_file_ne d hne]
  exact File.Extends.refl _

theorem Extends.set (d : Dir P) {f : File} (hf : (d.file p).Extends f) : Extends d (d.set p f) := by
  intro q hq
  refine ⟨hq, ?_⟩
  by_cases hqp : q = p
  · subst hqp
    rw [set_file_self]
    exact hf
  · rw [set_file_ne d f hqp]
    exact File.Extends.refl _

end Dir

namespace FsOp

variable {P : Type} [DecidableEq P]

/-- What an operation answers and does when nothing goes wrong. -/
def exec : (o : FsOp P) → Dir P → Resp o × Dir P
  | createExcl p, d =>
      if p ∈ d.names then (Except.error FsErr.exist, d) else (Except.ok (), d.create p)
  | openCreate p, d =>
      (Except.ok (), d.touch p)
  | openExisting p, d =>
      if p ∈ d.names then (Except.ok (), d) else (Except.error FsErr.notExist, d)
  | stat p, d => (Except.ok (d.file p).data.length, d)
  | read p, d => (Except.ok (d.file p).data, d)
  | writeAt p off bs, d => (Except.ok (), d.set p ((d.file p).write off bs))
  | truncate p n, d => (Except.ok (), d.set p ((d.file p).truncate n))
  | fsync p, d => (Except.ok (), d.set p (d.file p).fsync)
  | readDir, d => (Except.ok d.names, d)

variable {d' d : Dir P} {mayFail : FsOp P → Prop}

/-- An operation neither notices nor undoes what fsyncs have done meanwhile. -/
theorem exec_syncLe (o : FsOp P) (h : d.SyncLe d') :
    (exec o d').1 = (exec o d).1 ∧ (exec o d).2.SyncLe (exec o d').2 := by
  cases o with
  | createExcl p =>
      simp only [exec, h.1]
      split_ifs
      · exact ⟨rfl, h⟩
      · exact ⟨rfl, h.create p⟩
  | openCreate p => exact ⟨rfl, h.touch p⟩
  | openExisting p =>
      simp only [exec, h.1]
      split_ifs
      · exact ⟨rfl, h⟩
      · exact ⟨rfl, h⟩
  | stat p | read p =>
      refine ⟨?_, h⟩
      simp only [exec, (h.2 p).data_eq]
      rfl
  | writeAt p off bs =>
      exact ⟨rfl, h.set ((h.2 p).write off bs)⟩
  | truncate p n =>
      exact ⟨rfl, h.set ((h.2 p).truncate n)⟩
  | fsync p =>
      exact ⟨rfl, h.set (h.2 p).fsync⟩
  | readDir =>
      refine ⟨?_, h⟩
      simp only [exec, h.1]
      rfl

/-- The answer of an operation that failed. -/
def failed : (o : FsOp P) → Resp o
  | createExcl _ => Except.error FsErr.io
  | openCreate _ => Except.error FsErr.io
  | openExisting _ => Except.error FsErr.io
  | stat _ => Except.error FsErr.io
  | read _ => Except.error FsErr.io
  | writeAt _ _ _ => Except.error FsErr.io
  | truncate _ _ => Except.error FsErr.io
  | fsync _ => Except.error FsErr.io
  | readDir => Except.error FsErr.io

/-- What a failed operation leaves: nothing, or the first `j` bytes of a write. -/
def residue (j : Nat) : FsOp P → Dir P → Dir P
  | writeAt p off bs, d => d.set p ((d.file p).write off (bs.take j))
  | _, d => d

/-- The outcomes of an operation when those satisfying `mayFail` may fail. -/
inductive Outcome (mayFail : FsOp P → Prop) :
    (o : FsOp P) → Dir P → Resp o → Dir P → Prop
  | success (o : FsOp P) (d : Dir P) : Outcome mayFail o d (exec o d).1 (exec o d).2
  | failure (o : FsOp P) (d : Dir P) (j : Nat) (h : mayFail o) :
      Outcome mayFail o d (failed o) (residue j o d)

/-- No operation removes a name. -/
theorem Outcome.names_subset {o : FsOp P} {r : Resp o} (h : Outcome mayFail o d r d') :
    d.names ⊆ d'.names := by
  cases h with
  | success =>
      cases o with
      | createExcl p =>
          simp only [exec]
          split_ifs
          · exact List.Subset.refl _
          · simp
      | openCreate p =>
          exact Dir.names_subset_touch d p
      | openExisting p =>
          simp only [exec]
          split_ifs
          · exact List.Subset.refl _
          · exact List.Subset.refl _
      | _ => exact List.Subset.refl _
  | failure j hfail =>
      cases o with
      | _ => exact List.Subset.refl _

/-- An operation that cuts no file. -/
def Appending : FsOp P → Prop
  | truncate _ _ => False
  | _ => True

/-- Whatever becomes of such an operation, no file that was there loses anything. -/
theorem Outcome.extends {mayFail : FsOp P → Prop} {o : FsOp P} {d d' : Dir P} {r : Resp o}
    (h : Outcome mayFail o d r d') (ho : o.Appending) : d.Extends d' := by
  cases h with
  | success =>
      cases o with
      | createExcl p =>
          simp only [exec]
          split_ifs with hp
          · exact Dir.Extends.refl d
          · exact Dir.Extends.create d hp
      | openCreate p =>
          simp only [exec, Dir.touch]
          split_ifs with hp
          · exact Dir.Extends.refl d
          · exact Dir.Extends.create d hp
      | openExisting p =>
          simp only [exec]
          split_ifs
          · exact Dir.Extends.refl d
          · exact Dir.Extends.refl d
      | stat p | read p => exact Dir.Extends.refl d
      | writeAt p off bs =>
          exact Dir.Extends.set d (File.Extends.write _ off bs)
      | truncate p n => exact ho.elim
      | fsync p =>
          exact Dir.Extends.set d (File.Extends.syncTo _ _)
      | readDir => exact Dir.Extends.refl d
  | failure j hfail =>
      cases o with
      | writeAt p off bs =>
          exact Dir.Extends.set d (File.Extends.write _ off _)
      | truncate p n => exact ho.elim
      | _ => exact Dir.Extends.refl d

end FsOp

end LedgerLine
