import LedgerLine.Broker.Reopening
import LedgerLine.Broker.AppendSpec

/-!
# Logs whose segments go on behind their records

A log that has seen failed appends: every segment may have bytes behind its records, and where
they parse, a reopened segment has more records than its successor's base offset allows for.
`Read` picks the segment by base offset, so those are out of sight; only what the last segment
has gained counts (`Spans`).

Main facts:
* `Racked.read_eq`: what `Read` returns from such a log;
* `openLog_safely`: `Open` finds the records that were on disk, or fails;
* `appendLocked_safely`: an append that fails, at whatever point, takes no record away, and one
  that succeeds adds its own.
-/

namespace LedgerLine.Broker

open Program

/-- Segments with their base offsets and the records that can be read from them, as a log with
the records `recs` from offset `b` on. -/
inductive Spans : Nat → List (Nat × List Bytes) → List Bytes → Prop
  | last (b : Nat) (ps : List Bytes) : Spans b [(b, ps)] ps
  | cons {b : Nat} {kept : List Bytes} {segs : List (Nat × List Bytes)} {recs : List Bytes}
      (extra : List Bytes) (hne : kept ≠ []) (h : Spans (b + kept.length) segs recs) :
      Spans b ((b, kept ++ extra) :: segs) (kept ++ recs)

section Spans

variable {b c k : Nat} {segs init : List (Nat × List Bytes)} {recs ps qs : List Bytes}

theorem Spans.base_le (h : Spans b segs recs) : ∀ x ∈ segs, b ≤ x.1 := by
  induction h with
  | last b ps => simp
  | cons extra hne h ih =>
      intro x hx
      rcases List.mem_cons.mp hx with rfl | hx
      · exact le_refl _
      · exact le_trans (Nat.le_add_right _ _) (ih x hx)

theorem Spans.sorted (h : Spans b segs recs) : (segs.map Prod.fst).Pairwise (· < ·) := by
  induction h with
  | last b ps =>
      exact List.pairwise_singleton _ _
  | @cons b kept segs recs extra hne h ih =>
      refine List.pairwise_cons.mpr ⟨?_, ih⟩
      refine List.forall_mem_map.mpr fun x hx => ?_
      have hpos := List.length_pos_iff.mpr hne
      have := h.base_le x hx
      show b < x.1
      omega

section

variable (h : Spans b (init ++ [(c, ps)]) recs)

include h

/-- Where the last segment ends, the log ends. -/
theorem Spans.next : b + recs.length = c + ps.length := by
  induction init generalizing b recs with
  | nil =>
      cases h with
      | last => rfl
      | cons extra hne h => cases h
  | cons x init ih =>
      generalize hsegs : x :: init ++ [(c, ps)] = segs at h
      cases h with
      | last => simp at hsegs
      | cons extra hne h =>
          rw [List.cons_append, List.cons.injEq] at hsegs
          obtain ⟨-, rfl⟩ := hsegs
          have := ih h
          rw [List.length_append]
          omega

/-- More records at the end of the last segment. -/
theorem Spans.extend (qs : List Bytes) : Spans b (init ++ [(c, ps ++ qs)]) (recs ++ qs) := by
  induction init generalizing b recs with
  | nil =>
      cases h with
      | last => exact .last _ _
      | cons extra hne h => cases h
  | cons x init ih =>
      generalize hsegs : x :: init ++ [(c, ps)] = segs at h
      cases h with
      | last => simp at hsegs
      | cons extra hne h =>
          rw [List.cons_append, List.cons.injEq] at hsegs
          obtain ⟨rfl, rfl⟩ := hsegs
          rw [List.append_assoc]
          exact .cons extra hne (ih h)

/-- A new segment after the last one. -/
theorem Spans.roll (hne : ps ≠ []) :
    Spans b (init ++ [(c, ps)] ++ [(b + recs.length, [])]) recs := by
  induction init generalizing b recs with
  | nil =>
      cases h with
      | last =>
          have hroll := Spans.cons [] hne (.last (c + ps.length) [])
          rwa [List.append_nil] at hroll
      | cons extra hne h => cases h
  | cons x init ih =>
      generalize hsegs : x :: init ++ [(c, ps)] = segs at h
      cases h with
      | last => simp at hsegs
      | @cons _ kept _ recs' extra hne h =>
          rw [List.cons_append, List.cons.injEq] at hsegs
          obtain ⟨rfl, rfl⟩ := hsegs
          have hend : b + (kept ++ recs').length = b + kept.length + recs'.length := by
            rw [List.length_append, Nat.add_assoc]
          rw [List.cons_append, hend]
          exact .cons extra hne (ih h)

/-- More records behind those of the segments before the last one, out of sight. -/
theorem Spans.widen (more : Nat × List Bytes → List Bytes) :
    Spans b (init.map (fun x => (x.1, x.2 ++ more x)) ++ [(c, ps)]) recs := by
  induction init generalizing b recs with
  | nil => exact h
  | cons x init ih =>
      generalize hsegs : x :: init ++ [(c, ps)] = segs at h
      cases h with
      | last => simp at hsegs
      | cons extra hne h =>
          rw [List.cons_append, List.cons.injEq] at hsegs
          obtain ⟨rfl, rfl⟩ := hsegs
          rw [List.map_cons, List.cons_append, List.append_assoc]
          exact .cons _ hne (ih h)

end

/-- The segment that `Read` picks for offset `k` has the record of the log there. -/
theorem Spans.split (h : Spans b segs recs) (hk : b ≤ k) :
    ∃ init x post, segs = init ++ x :: post ∧ (∀ y ∈ init, y.1 ≤ k) ∧ x.1 ≤ k ∧
      (∀ y ∈ post, k < y.1) ∧ x.2[k - x.1]? = recs[k - b]? := by
  induction h with
  | last b ps =>
      exact ⟨[], (b, ps), [], rfl, by simp, hk, by simp, rfl⟩
  | @cons b kept segs recs extra hne h ih =>
      rcases Nat.lt_or_ge k (b + kept.length) with hlt | hge
      · refine ⟨[], _, segs, rfl, by simp, hk, ?_, ?_⟩
        · intro y hy
          exact lt_of_lt_of_le hlt (h.base_le y hy)
        · have hin : k - b < kept.length := by
            omega
          rw [List.getElem?_append_left hin, List.getElem?_append_left hin]
      · obtain ⟨init, x, post, rfl, hinit, hx, hpost, hget⟩ := ih hge
        refine ⟨(b, kept ++ extra) :: init, x, post, rfl, ?_, hx, hpost, ?_⟩
        · intro y hy
          rcases List.mem_cons.mp hy with rfl | hy
          · exact hk
          · exact hinit y hy
        · rw [hget, List.getElem?_append_right (by omega)]
          congr 1
          omega

/-- A log has a last segment. -/
theorem Spans.exists_last (h : Spans b segs recs) : ∃ init x, segs = init ++ [x] := by
  cases h with
  | last b ps => exact ⟨[], _, rfl⟩
  | cons extra hne h =>
      exact (List.eq_nil_or_concat' _).resolve_left (by simp)

end Spans

/-- Segments in memory with their records, as segments with their base offsets. -/
def located (ss : List (Segment × List Bytes)) : List (Nat × List Bytes) :=
  ss.map fun x => (x.1.baseOffset, x.2)

section Layout

variable (crc : Checksum)

/-- An open log over its directory. -/
structure Racked (ss : List (Segment × List Bytes)) (recs : List Bytes) (l : Log)
    (d : Dir Path) : Prop where
  segments : l.segments = ss.map Prod.fst
  spans : Spans 0 (located ss) recs
  names : Names ((located ss).map Prod.fst) d
  fits : ∀ x ∈ ss, x.1.baseOffset < 2 ^ 64
  held : ∀ x ∈ ss, Held crc x.1.baseOffset x.2 x.1 d

/-- A log on disk, with nothing left to be found in any segment. -/
structure Stacked (segs : List (Nat × List Bytes)) (recs : List Bytes) (d : Dir Path) :
    Prop where
  spans : Spans 0 segs recs
  names : Names (segs.map Prod.fst) d
  fits : ∀ x ∈ segs, x.1 < 2 ^ 64
  resting : ∀ x ∈ segs, Resting crc x.1 x.2 d

/-- A log on disk whose newest segment file has no header. -/
def Broken (d : Dir Path) : Prop :=
  ∃ (segs : List (Nat × List Bytes)) (b : Nat), Names (segs.map Prod.fst ++ [b]) d ∧
    (segs.map Prod.fst ++ [b]).Pairwise (· < ·) ∧ (∀ x ∈ segs, x.1 < 2 ^ 64) ∧
    (∀ x ∈ segs, Resting crc x.1 x.2 d) ∧ Blank b d

/-- What a killed process leaves: nothing yet, a log with records `recs`, or one that cannot
be opened any more. -/
def Cold (recs : List Bytes) (d : Dir Path) : Prop :=
  (Names [] d ∧ recs = []) ∨ (∃ segs, Stacked crc segs recs d) ∨ Broken crc d

variable {crc}
variable {ss : List (Segment × List Bytes)} {segs : List (Nat × List Bytes)} {recs : List Bytes}
variable {l : Log} {d d' : Dir Path}

/-- Reading: the record at the offset, or out of range. -/
theorem Racked.read_eq (h : Racked crc ss recs l d) (k : Nat) :
    l.read crc d k =
      match recs[k]? with
      | some p => .ok p
      | none => .error (.offsetOutOfRange k) := by
  obtain ⟨init, x, post, hsegs, hinit, hx, hpost, hget⟩ := h.spans.split (Nat.zero_le k)
  obtain ⟨ss₁, ss₂, rfl, hss₁, hss₂⟩ := List.map_eq_append_iff.mp hsegs
  obtain ⟨y, ss₃, rfl, rfl, hss₃⟩ := List.map_eq_cons_iff.mp hss₂
  have hseg : l.segments = ss₁.map Prod.fst ++ y.1 :: ss₃.map Prod.fst := by
    rw [h.segments]
    simp
  have hbefore : ∀ t ∈ ss₁.map Prod.fst, t.baseOffset ≤ k := by
    refine List.forall_mem_map.mpr fun z hz => ?_
    exact hinit (z.1.baseOffset, z.2) (hss₁ ▸ List.mem_map.mpr ⟨z, hz, rfl⟩)
  have hafter : ∀ t ∈ ss₃.map Prod.fst, k < t.baseOffset := by
    refine List.forall_mem_map.mpr fun z hz => ?_
    exact hpost (z.1.baseOffset, z.2) (hss₃ ▸ List.mem_map.mpr ⟨z, hz, rfl⟩)
  have hread := (h.held y (by simp)).read_eq hx
  rw [hget, Nat.sub_zero] at hread
  exact (read_split hseg hbefore hx hafter).trans hread

theorem Stacked.steadfast : Steadfast (Stacked crc segs recs) :=
  fun u v huv h =>
    ⟨h.spans, Names.steadfast u v huv h.names, h.fits,
      fun x hx => Resting.steadfast u v huv (h.resting x hx)⟩

theorem Broken.steadfast : Steadfast (Broken crc) := by
  rintro u v huv ⟨segs, b, hnames, hsorted, hfits, hresting, hblank⟩
  refine ⟨segs, b, Names.steadfast u v huv hnames, hsorted, hfits,
    fun x hx => Resting.steadfast u v huv (hresting x hx), ?_⟩
  exact (huv.2 _).data_eq.trans hblank

theorem Cold.steadfast : Steadfast (Cold crc recs) := by
  rintro u v huv (⟨hnames, hnil⟩ | ⟨segs, h⟩ | h)
  · exact Or.inl ⟨Names.steadfast u v huv hnames, hnil⟩
  · exact Or.inr (Or.inl ⟨segs, Stacked.steadfast u v huv h⟩)
  · exact Or.inr (Or.inr (Broken.steadfast u v huv h))

theorem Racked.steadfast : Steadfast (Racked crc ss recs l) :=
  fun u v huv h =>
    ⟨h.segments, h.spans, Names.steadfast u v huv h.names, h.fits,
      fun x hx => Held.steadfast u v huv (h.held x hx)⟩

/-- The active segment is the last one. -/
theorem Racked.exists_active (h : Racked crc ss recs l d) :
    ∃ init s ps, ss = init ++ [(s, ps)] ∧ l.active = some s := by
  obtain ⟨init, x, hsegs⟩ := h.spans.exists_last
  obtain ⟨ss₁, ss₂, rfl, -, hss₂⟩ := List.map_eq_append_iff.mp hsegs
  obtain ⟨⟨s, ps⟩, rfl, -⟩ := List.map_eq_singleton_iff.mp hss₂
  refine ⟨ss₁, s, ps, rfl, ?_⟩
  exact @active_of_segments l s (ss₁.map Prod.fst) (by rw [h.segments]; simp)

end Layout

section Open

variable {crc : Checksum} {inv : Dir Path → Prop} {G : Dir Path → Prop}
variable {post : Except LogErr (List Segment) → Dir Path → Prop}
variable {segs todo : List (Nat × List Bytes)} {opened : List (Segment × List Bytes)}
variable {recs : List Bytes} {d : Dir Path} {more : List Nat}

/-- The segments that are open, and those still to be opened. -/
def Opened (crc : Checksum) (G : Dir Path → Prop) (opened : List (Segment × List Bytes))
    (todo : List (Nat × List Bytes)) (d : Dir Path) : Prop :=
  G d ∧ (∀ x ∈ opened, Held crc x.1.baseOffset x.2 x.1 d ∧
    Resting crc x.1.baseOffset x.2 d) ∧ ∀ x ∈ todo, Resting crc x.1 x.2 d

theorem Opened.frame {b : Nat} (hG : Frame b G) (hopened : ∀ x ∈ opened, x.1.baseOffset ≠ b)
    (htodo : ∀ x ∈ todo, x.1 ≠ b) : Frame b (Opened crc G opened todo) := by
  rintro d d' hd ho ⟨h, hold, hnew⟩
  refine ⟨hG d d' hd ho h, fun x hx => ?_, fun x hx => (hnew x hx).apart hd (htodo x hx)⟩
  exact ⟨(hold x hx).1.apart hd (hopened x hx), (hold x hx).2.apart hd (hopened x hx)⟩

theorem Opened.steadfast (hG : Steadfast G) : Steadfast (Opened crc G opened todo) := by
  rintro u v huv ⟨h, hold, hnew⟩
  refine ⟨hG u v huv h, fun x hx => ?_, fun x hx => Resting.steadfast u v huv (hnew x hx)⟩
  exact ⟨Held.steadfast u v huv (hold x hx).1, Resting.steadfast u v huv (hold x hx).2⟩

theorem Opened.resting (h : Opened crc G opened [] d) :
    ∀ x ∈ located opened, Resting crc x.1 x.2 d := by
  refine List.forall_mem_map.mpr fun y hy => ?_
  exact (h.2.1 y hy).2

/-- The loop of `Open`, up to the segments in `more`. -/
theorem openSegments_safely (hG : ∀ x ∈ located opened ++ todo, Frame x.1 G)
    (hbases : ((located opened ++ todo).map Prod.fst).Nodup)
    (hfits : ∀ x ∈ todo, x.1 < 2 ^ 64)
    (hinv : ∀ u, G u ∧ (∀ x ∈ located opened ++ todo, Resting crc x.1 x.2 u) → inv u)
    (herror : ∀ e u, inv u → post (.error e) u)
    (hmore : ∀ ss u, located ss = located opened ++ todo → Opened crc G ss [] u →
      Safely inv post (openSegments crc more (ss.map Prod.fst)) u)
    (h : Opened crc G opened todo d) :
    Safely inv post (openSegments crc (todo.map Prod.fst ++ more) (opened.map Prod.fst)) d := by
  induction todo generalizing opened d with
  | nil =>
      exact hmore opened d (List.append_nil _).symm h
  | cons x todo ih =>
      obtain ⟨b, all⟩ := x
      obtain ⟨hg, hold, hnew⟩ := h
      rw [List.forall_mem_cons] at hnew hfits
      -- the segment's base offset differs from all the others
      have hsplit := hbases
      rw [List.map_append, List.map_cons, List.nodup_append] at hsplit
      obtain ⟨-, hnodup, hdisjoint⟩ := hsplit
      have hopened : ∀ y ∈ opened, y.1.baseOffset ≠ b := by
        intro y hy
        exact hdisjoint _ (List.mem_map.mpr ⟨_, List.mem_map.mpr ⟨y, hy, rfl⟩, rfl⟩) _ (by simp)
      have htodo : ∀ y ∈ todo, y.1 ≠ b := by
        rintro y hy rfl
        exact (List.nodup_cons.mp hnodup).1 (List.mem_map.mpr ⟨y, hy, rfl⟩)
      have hF : Frame b (Opened crc G opened todo) :=
        Opened.frame (hG (b, all) (by simp)) hopened htodo
      have hinv' : ∀ u, Opened crc G opened todo u ∧ Resting crc b all u → inv u := by
        rintro u ⟨⟨hu, hold', hnew'⟩, hb⟩
        refine hinv u ⟨hu, fun y hy => ?_⟩
        rcases List.mem_append.mp hy with hy | hy
        · obtain ⟨z, hz, rfl⟩ := List.mem_map.mp hy
          exact (hold' z hz).2
        · rcases List.mem_cons.mp hy with rfl | hy
          · exact hb
          · exact hnew' y hy
      rw [List.map_cons, List.cons_append, openSegments]
      refine safely_bind (safely_mono hinv' (fun _ _ hpost => hpost)
        (openSegment_opens hF hfits.1 ⟨hg, hold, hnew.2⟩ hnew.1)) ?_
      rintro r u ⟨hu, hheld⟩
      cases r with
      | error e =>
          exact safely_done (hF.steadfast.and Resting.steadfast) hu fun v hv =>
            ⟨hinv' v hv, herror e v (hinv' v hv)⟩
      | ok s =>
          have hs := hheld s rfl
          have hlocated : located (opened ++ [(s, all)]) = located opened ++ [(b, all)] := by
            simp [located, hs.base]
          have hsame : located (opened ++ [(s, all)]) ++ todo =
              located opened ++ (b, all) :: todo := by
            rw [hlocated, List.append_assoc]
            rfl
          have hopened' : Opened crc G (opened ++ [(s, all)]) todo u := by
            refine ⟨hu.1.1, fun y hy => ?_, hu.1.2.2⟩
            rcases List.mem_append.mp hy with hy | hy
            · exact hu.1.2.1 y hy
            · rw [List.mem_singleton.mp hy, hs.base]
              exact ⟨hs, hu.2⟩
          rw [← hsame] at hG hbases hinv hmore
          have hloop := ih hG hbases hfits.2 hinv hmore hopened'
          rw [List.map_append] at hloop
          exact hloop

variable {P : Dir Path → Prop}

/-- The names of the segments, sorted. -/
theorem listSegmentOffsets_safely {bs : List Nat} (hP : Steadfast P)
    (hnames : ∀ u, P u → Names bs u) (hsorted : bs.Pairwise (· < ·)) (h : P d) :
    Safely P (fun r u => r = .ok bs ∧ P u) listSegmentOffsets d := by
  unfold listSegmentOffsets
  refine safely_sure id hP h (fun _ hu => hu) ?_
  intro u hu
  have hsort : (segmentOffsets u.names).insertionSort (· ≤ ·) = bs := by
    apply List.Perm.eq_of_pairwise' (List.pairwise_insertionSort _ _)
    · exact hsorted.imp fun h => le_of_lt h
    · exact (List.perm_insertionSort _ _).trans (hnames u hu).1
  simp only [FsOp.exec, hsort]
  exact safely_done hP hu fun v hv => ⟨hv, rfl, hv⟩

/-- What `Open` leads to. -/
def OpensLog (crc : Checksum) (recs : List Bytes) (r : Except LogErr Log) (d : Dir Path) :
    Prop :=
  ∀ l, r = .ok l → ∃ ss, Racked crc ss recs l d

/-- Opening a log that is not there yet. -/
theorem openLog_new (h : Names [] d) (opts : Options) :
    Safely (Cold crc []) (OpensLog crc []) (openLog crc opts) d := by
  have hcold : ∀ u, Names [] u → Cold crc [] u := fun u hu => Or.inl ⟨hu, rfl⟩
  have hstacked : ∀ u, Names [0] u → Resting crc 0 [] u → Cold crc [] u := by
    intro u hu hresting
    refine Or.inr (Or.inl ⟨[(0, [])], .last 0 [], hu, by simp, ?_⟩)
    intro x hx
    rw [List.mem_singleton.mp hx]
    exact hresting
  unfold openLog
  refine safely_bind (safely_mono hcold (fun _ _ hpost => hpost)
    (listSegmentOffsets_safely Names.steadfast (fun _ hu => hu) List.Pairwise.nil h)) ?_
  rintro r u ⟨rfl, hu⟩
  simp only [openSegments, Program.pure_eq, Program.done_bind]
  refine safely_bind (safely_mono ?_ (fun _ _ hpost => hpost)
    (@createSegment_safely crc 0 u (fun _ => True) [] (fun _ _ _ hG => hG) trivial hu
      List.not_mem_nil)) ?_
  · rintro v ⟨-, hv | ⟨hv, hblank | hresting⟩⟩
    · exact hcold v hv
    · exact Or.inr (Or.inr ⟨[], 0, hv, List.pairwise_singleton _ _, List.forall_mem_nil _,
        List.forall_mem_nil _, hblank⟩)
    · exact hstacked v hv hresting
  · rintro r v ⟨rfl, -, hv, hheld, hresting⟩
    have hracked :
        Racked crc [(newSegment 0, [])] [] ⟨opts.withDefaults, [newSegment 0], 0, 0⟩ v := by
      refine ⟨rfl, .last 0 [], hv, by simp [newSegment], ?_⟩
      intro x hx
      rw [List.mem_singleton.mp hx]
      exact hheld
    refine safely_done (Racked.steadfast.and Cold.steadfast) ⟨hracked, hstacked v hv hresting⟩
      fun x hx => ⟨hx.2, ?_⟩
    rintro l ⟨⟩
    exact ⟨_, hx.1⟩

/-- Opening a log. -/
theorem openLog_stacked (h : Stacked crc segs recs d) (opts : Options) :
    Safely (Cold crc recs) (OpensLog crc recs) (openLog crc opts) d := by
  have hcold : ∀ u, Stacked crc segs recs u → Cold crc recs u :=
    fun u hu => Or.inr (Or.inl ⟨segs, hu⟩)
  have hsorted := h.spans.sorted
  unfold openLog
  refine safely_bind (safely_mono hcold (fun _ _ hpost => hpost)
    (listSegmentOffsets_safely Stacked.steadfast (fun _ hu => hu.names) hsorted h)) ?_
  rintro r u ⟨rfl, hu⟩
  -- what the loop over the segments leads to
  have hloop : Safely (Stacked crc segs recs)
      (fun r v => Stacked crc segs recs v ∧ ∀ segments, r = .ok segments → ∃ ss,
        located ss = segs ∧ segments = ss.map Prod.fst ∧
          Opened crc (Names (segs.map Prod.fst)) ss [] v)
      (openSegments crc (segs.map Prod.fst) []) u := by
    have hall := @openSegments_safely crc (Stacked crc segs recs) (Names (segs.map Prod.fst))
      (fun r v => Stacked crc segs recs v ∧ ∀ segments, r = .ok segments → ∃ ss,
        located ss = segs ∧ segments = ss.map Prod.fst ∧
          Opened crc (Names (segs.map Prod.fst)) ss [] v) segs [] u []
      (fun x hx => Names.frame (List.mem_map.mpr ⟨x, hx, rfl⟩))
      (hsorted.imp fun hlt => Nat.ne_of_lt hlt) h.fits
      (fun v hv => ⟨h.spans, hv.1, h.fits, hv.2⟩)
      (fun e v hv => ⟨hv, (by intro segments hs; cases hs)⟩) ?_
      ⟨hu.names, List.forall_mem_nil _, hu.resting⟩
    · rw [List.append_nil] at hall
      exact hall
    · intro ss v (hss : located ss = segs) hv
      refine safely_done (Opened.steadfast Names.steadfast) hv fun x hx => ?_
      have hx' : Stacked crc segs recs x := ⟨h.spans, hx.1, h.fits, hss ▸ hx.resting⟩
      refine ⟨hx', hx', ?_⟩
      rintro segments ⟨⟩
      exact ⟨ss, hss, rfl, hx⟩
  refine safely_bind (safely_mono hcold (fun _ _ hpost => hpost) hloop) ?_
  rintro r v ⟨hv, hok⟩
  cases r with
  | error e =>
      exact safely_done Stacked.steadfast hv fun x hx =>
        ⟨hcold x hx, (by intro l hl; cases hl)⟩
  | ok segments =>
      obtain ⟨ss, rfl, rfl, hopened⟩ := hok segments rfl
      cases ss with
      | nil => cases h.spans
      | cons x ss =>
          refine safely_done (Opened.steadfast Names.steadfast) hopened fun y hy =>
            ⟨hcold y ⟨h.spans, hy.1, h.fits, hy.resting⟩, ?_⟩
          rintro l ⟨⟩
          refine ⟨x :: ss, rfl, h.spans, hy.1, fun z hz => ?_, fun z hz => (hy.2.1 z hz).1⟩
          exact h.fits _ (List.mem_map.mpr ⟨z, hz, rfl⟩)

/-- A segment file without a header is not opened. -/
theorem openSegment_blank {b : Nat} (hP : Steadfast P) (hblank : ∀ u, P u → Blank b u) (h : P d) :
    Safely P (fun r u => P u ∧ ∃ e, r = .error e) (openSegment crc b) d := by
  unfold openSegment
  refine safely_sure id hP h (fun _ hu => hu) ?_
  intro u hu
  simp only [FsOp.exec]
  split_ifs
  · refine safely_sure id hP hu (fun _ hv => hv) ?_
    intro v hv
    have hdata : (v.file (.segment b)).data = [] := hblank v hv
    simp only [FsOp.exec, hdata, List.length_nil, if_true]
    exact safely_done hP hv fun x hx => ⟨hx, hx, _, rfl⟩
  · exact safely_done hP hu fun x hx => ⟨hx, hx, _, rfl⟩

/-- Opening a log whose newest segment has no header fails, and changes nothing about that. -/
theorem openLog_broken (h : Broken crc d) (opts : Options) :
    Safely (Broken crc) (fun r _ => ∃ e, r = .error e) (openLog crc opts) d := by
  obtain ⟨segs, b, hnames, hsorted, hfits, hresting, hblank⟩ := h
  let G : Dir Path → Prop := fun u => Names (segs.map Prod.fst ++ [b]) u ∧ Blank b u
  have hst : Steadfast G := Names.steadfast.and fun u v huv hu => (huv.2 _).data_eq.trans hu
  have hlt : ∀ x ∈ segs, x.1 < b := by
    intro x hx
    exact (List.pairwise_append.mp hsorted).2.2 _ (List.mem_map.mpr ⟨x, hx, rfl⟩) b (by simp)
  have hG : ∀ x ∈ segs, Frame x.1 G := fun x hx =>
    (Names.frame (List.mem_append_left _ (List.mem_map.mpr ⟨x, hx, rfl⟩))).and
      (Blank.frame (Nat.ne_of_gt (hlt x hx)))
  have hbroken : ∀ u, G u ∧ (∀ x ∈ segs, Resting crc x.1 x.2 u) → Broken crc u :=
    fun u hu => ⟨segs, b, hu.1.1, hsorted, hfits, hu.2, hu.1.2⟩
  have hstAll : Steadfast fun u => G u ∧ ∀ x ∈ segs, Resting crc x.1 x.2 u :=
    hst.and fun u v huv hu x hx => Resting.steadfast u v huv (hu x hx)
  unfold openLog
  refine safely_bind (safely_mono hbroken (fun _ _ hpost => hpost)
    (listSegmentOffsets_safely hstAll (fun _ hu => hu.1.1) hsorted
      ⟨⟨hnames, hblank⟩, hresting⟩)) ?_
  rintro r u ⟨rfl, hu⟩
  have hloop := @openSegments_safely crc (Broken crc) G
    (fun r v => Broken crc v ∧ ∃ e, r = .error e) segs [] u [b] hG
    ((List.pairwise_append.mp hsorted).1.imp fun hlt => Nat.ne_of_lt hlt) hfits hbroken
    (fun e v hv => ⟨hv, e, rfl⟩) ?_ ⟨hu.1, List.forall_mem_nil _, hu.2⟩
  · refine safely_bind hloop ?_
    rintro r v ⟨hv, e, rfl⟩
    exact safely_done Broken.steadfast hv fun x hx => ⟨hx, e, rfl⟩
  · -- all the others are open, and the last one is not opened
    intro ss v (hss : located ss = segs) hv
    rw [openSegments]
    have hv' : G v ∧ ∀ x ∈ segs, Resting crc x.1 x.2 v := ⟨hv.1, hss ▸ hv.resting⟩
    refine safely_bind (safely_mono hbroken (fun _ _ hpost => hpost)
      (openSegment_blank hstAll (fun _ hx => hx.1.2) hv')) ?_
    rintro r x ⟨hx, e, rfl⟩
    exact safely_done hstAll hx fun y hy => ⟨hbroken y hy, hbroken y hy, e, rfl⟩

/-- `Open`: wherever it is cut off the records are still on disk, and when it succeeds they are
the records of the log. -/
theorem openLog_safely (h : Cold crc recs d) (opts : Options) :
    Safely (Cold crc recs) (OpensLog crc recs) (openLog crc opts) d := by
  rcases h with ⟨h, rfl⟩ | ⟨segs, h⟩ | h
  · exact openLog_new h opts
  · exact openLog_stacked h opts
  · refine safely_mono (fun u hu => Or.inr (Or.inr hu)) ?_ (openLog_broken h opts)
    rintro r u ⟨e, rfl⟩ l hl
    cases hl

end Open

section Append

variable {crc : Checksum} {ss init : List (Segment × List Bytes)} {recs ps : List Bytes}
variable {l : Log} {s : Segment} {p : Bytes} {d : Dir Path}

/-- The segments of `ss` on disk, with anything behind their records. -/
def LooseAll (crc : Checksum) (ss : List (Segment × List Bytes)) (d : Dir Path) : Prop :=
  ∀ x ∈ ss, Loose crc x.1.baseOffset x.2 d

/-- What an append of `p` to a log with records `recs` leads to. -/
structure AppendedTo (crc : Checksum) (recs : List Bytes) (p : Bytes)
    (out : Log × Except LogErr Log.Ticket) (d : Dir Path) : Prop where
  refused : ∀ e, out.2 = .error e → ∃ ss, Racked crc ss recs out.1 d
  stored : ∀ k, out.2 = .ok k → k.offset = recs.length ∧ ∃ ss, Racked crc ss (recs ++ [p]) out.1 d

theorem located_concat (init : List (Segment × List Bytes)) (s : Segment) (ps : List Bytes) :
    located (init ++ [(s, ps)]) = located init ++ [(s.baseOffset, ps)] := by
  simp [located]

theorem Racked.others (h : Racked crc (init ++ [(s, ps)]) recs l d) :
    ∀ x ∈ init, x.1.baseOffset ≠ s.baseOffset := by
  intro x hx
  have hsorted := h.spans.sorted
  rw [located_concat, List.map_append, List.pairwise_append] at hsorted
  refine Nat.ne_of_lt (hsorted.2.2 _ ?_ _ (by simp))
  exact List.mem_map.mpr ⟨_, List.mem_map.mpr ⟨x, hx, rfl⟩, rfl⟩

theorem Racked.next (h : Racked crc (init ++ [(s, ps)]) recs l d) : s.nextOffset = recs.length := by
  have hspans := h.spans
  rw [located_concat] at hspans
  have hnext := hspans.next
  rw [Nat.zero_add] at hnext
  rw [(h.held (s, ps) (by simp)).next, hnext]

/-- The log with another last segment in memory. -/
theorem Racked.setActive {s' : Segment} {qs : List Bytes} {u : Dir Path} {l' : Log}
    (h : Racked crc (init ++ [(s, ps)]) recs l d) (hl : l'.segments = init.map Prod.fst ++ [s'])
    (hnames : Names ((located (init ++ [(s, ps)])).map Prod.fst) u)
    (hinit : ∀ x ∈ init, Held crc x.1.baseOffset x.2 x.1 u)
    (hs : Held crc s.baseOffset (ps ++ qs) s' u) :
    Racked crc (init ++ [(s', ps ++ qs)]) (recs ++ qs) l' u := by
  have hspans := h.spans
  rw [located_concat] at hspans hnames
  refine ⟨by rw [hl]; simp, ?_, ?_, ?_, ?_⟩
  · have hextend := hspans.extend qs
    rw [located_concat]
    simpa [located, hs.base] using hextend
  · rw [located_concat]
    simpa [located, hs.base] using hnames
  · intro x hx
    rcases List.mem_append.mp hx with hx | hx
    · exact h.fits x (List.mem_append_left _ hx)
    · rw [List.mem_singleton.mp hx, hs.base]
      exact h.fits (s, ps) (by simp)
  · intro x hx
    rcases List.mem_append.mp hx with hx | hx
    · exact hinit x hx
    · rw [List.mem_singleton.mp hx, hs.base]
      exact hs

/-- Writing into the active segment. -/
theorem writeActive_safely (h : Racked crc (init ++ [(s, ps)]) recs l d) (p : Bytes) :
    Safely
      (fun u => Names ((located (init ++ [(s, ps)])).map Prod.fst) u ∧
        LooseAll crc (init ++ [(s, ps)]) u)
      (AppendedTo crc recs p) (l.writeActive crc s p) d := by
  let F : Dir Path → Prop := fun u => Names ((located (init ++ [(s, ps)])).map Prod.fst) u ∧
    ∀ x ∈ init, Held crc x.1.baseOffset x.2 x.1 u
  have hF : Frame s.baseOffset F := by
    refine (Names.frame (by simp [located])).and ?_
    intro u v huv _ hu x hx
    exact (hu x hx).apart huv (h.others x hx)
  have hinv : ∀ u, F u ∧ Loose crc s.baseOffset ps u →
      Names ((located (init ++ [(s, ps)])).map Prod.fst) u ∧
        LooseAll crc (init ++ [(s, ps)]) u := by
    rintro u ⟨hu, hloose⟩
    refine ⟨hu.1, fun x hx => ?_⟩
    rcases List.mem_append.mp hx with hx | hx
    · exact (hu.2 x hx).loose
    · rw [List.mem_singleton.mp hx]
      exact hloose
  have hlast : l.segments = init.map Prod.fst ++ [s] := by
    rw [h.segments]
    simp
  have hset : ∀ s' : Segment, (l.setActive s').segments = init.map Prod.fst ++ [s'] := by
    intro s'
    rw [Log.setActive, hlast, List.dropLast_concat]
  have hs := h.held (s, ps) (by simp)
  unfold Log.writeActive
  refine safely_bind (safely_mono hinv (fun _ _ hpost => hpost)
    (append_safely hF ⟨h.names, fun x hx => h.held x (List.mem_append_left _ hx)⟩ hs p)) ?_
  rintro ⟨s', r⟩ u ⟨hu, hloose, hrefused, hstored⟩
  cases r with
  | error e =>
      obtain ⟨rfl, hheld⟩ := hrefused e rfl
      refine safely_done (hF.steadfast.and Held.steadfast) ⟨hu, hheld⟩ fun v hv =>
        ⟨hinv v ⟨hv.1, hv.2.loose⟩, fun _ _ => ⟨init ++ [(s', ps)], ?_⟩,
          (by intro k hk; cases hk)⟩
      have hracked := @Racked.setActive crc init recs ps l s' d s' [] v (l.setActive s') h
        (hset s') hv.1.1 hv.1.2 (by rw [List.append_nil]; exact hv.2)
      rwa [List.append_nil, List.append_nil] at hracked
  | ok k =>
      obtain ⟨rfl, hheld⟩ := hstored k rfl
      refine safely_done (hF.steadfast.and (Loose.steadfast.and Held.steadfast))
        ⟨hu, hloose, hheld⟩ fun v hv =>
        ⟨hinv v ⟨hv.1, hv.2.1⟩, (by intro e he; cases he), ?_⟩
      rintro k ⟨⟩
      exact ⟨h.next, init ++ [(s', ps ++ [p])],
        h.setActive (hset s') hv.1.1 hv.1.2 hv.2.2⟩

/-- A flush changes nothing that matters here. -/
theorem sync_safely {P : Dir Path → Prop} (hP : Steadfast P) (h : P d) (s : Segment) :
    Safely P (fun r u => r = .ok () ∧ P u) s.sync d := by
  have hflush : ∀ u path, P u → P (u.set path (u.file path).fsync) :=
    fun u path hu => hP u _ (u.sameBytes_syncTo path _) hu
  unfold Segment.sync
  refine safely_sure id hP h (fun _ hu => hu) ?_
  intro u hu
  simp only [FsOp.exec]
  refine safely_sure id hP (hflush u _ hu) (fun _ hv => hv) ?_
  intro v hv
  simp only [FsOp.exec]
  exact safely_done hP (hflush v _ hv) fun x hx => ⟨hx, rfl, hx⟩

/-- The points of an append to the log `l` with records `recs`: the segments of `l`, or those
and a new one, with or without its header. -/
def Midway (crc : Checksum) (l : Log) (recs : List Bytes) (d : Dir Path) : Prop :=
  ∃ init s ps, l.segments = (init ++ [(s, ps)]).map Prod.fst ∧
    Spans 0 (located (init ++ [(s, ps)])) recs ∧
    (∀ x ∈ init ++ [(s, ps)], x.1.baseOffset < 2 ^ 64 ∧ x.1.file = .segment x.1.baseOffset ∧
      x.1.size = position crc x.2 x.2.length) ∧
    LooseAll crc (init ++ [(s, ps)]) d ∧
    (Names ((located (init ++ [(s, ps)])).map Prod.fst) d ∨
      ps ≠ [] ∧ recs.length < 2 ^ 64 ∧
        Names ((located (init ++ [(s, ps)])).map Prod.fst ++ [recs.length]) d ∧
        (Blank recs.length d ∨ Loose crc recs.length [] d))

theorem Racked.tracked (h : Racked crc ss recs l d) :
    ∀ x ∈ ss, x.1.baseOffset < 2 ^ 64 ∧ x.1.file = .segment x.1.baseOffset ∧
      x.1.size = position crc x.2 x.2.length :=
  fun x hx => ⟨h.fits x hx, (h.held x hx).file, (h.held x hx).size⟩

theorem Racked.looseAll (h : Racked crc ss recs l d) : LooseAll crc ss d :=
  fun x hx => (h.held x hx).loose

/-- The base offset after the last segment is not taken. -/
theorem Spans.length_not_mem {segs : List (Nat × List Bytes)} {c : Nat}
    (h : Spans 0 (segs ++ [(c, ps)]) recs) (hne : ps ≠ []) :
    recs.length ∉ (segs ++ [(c, ps)]).map Prod.fst := by
  have hroll := (h.roll hne).sorted
  rw [Nat.zero_add, List.map_append, List.pairwise_append] at hroll
  intro hmem
  exact Nat.lt_irrefl _ (hroll.2.2 _ hmem _ (by simp))

/-- The log with a new segment. -/
theorem Racked.roll (h : Racked crc (init ++ [(s, ps)]) recs l d) (hne : ps ≠ [])
    (hfit : recs.length < 2 ^ 64) {u : Dir Path}
    (hnames : Names ((located (init ++ [(s, ps)])).map Prod.fst ++ [recs.length]) u)
    (hheld : ∀ x ∈ init ++ [(s, ps)], Held crc x.1.baseOffset x.2 x.1 u)
    (hnew : Held crc recs.length [] (newSegment recs.length) u) :
    Racked crc (init ++ [(s, ps)] ++ [(newSegment recs.length, [])]) recs
      { l with segments := l.segments ++ [newSegment recs.length] } u := by
  have hspans := h.spans
  rw [located_concat] at hspans
  have hroll := hspans.roll hne
  rw [Nat.zero_add, ← located_concat] at hroll
  have hlocated := located_concat (init ++ [(s, ps)]) (newSegment recs.length) []
  refine ⟨by simp [h.segments], by rw [hlocated]; exact hroll,
    by rw [hlocated, List.map_append]; exact hnames, ?_, ?_⟩
  · exact List.forall_mem_append.mpr ⟨h.fits, List.forall_mem_singleton.mpr hfit⟩
  · exact List.forall_mem_append.mpr ⟨hheld, List.forall_mem_singleton.mpr hnew⟩

/-- Starting a new segment and writing there. -/
theorem rollTo_safely (h : Racked crc (init ++ [(s, ps)]) recs l d) (hne : ps ≠ [])
    (hfit : recs.length < 2 ^ 64) (p : Bytes) :
    Safely (Midway crc l recs) (AppendedTo crc recs p) (l.rollTo crc s p) d := by
  have hspans := h.spans
  rw [located_concat] at hspans
  have hfree := hspans.length_not_mem hne
  rw [← located_concat] at hfree
  let G : Dir Path → Prop := fun u =>
    ∀ x ∈ init ++ [(s, ps)], Held crc x.1.baseOffset x.2 x.1 u
  have hG : ∀ u v, Apart recs.length u v → G u → G v := by
    intro u v huv hu x hx
    refine (hu x hx).apart huv ?_
    rintro heq
    exact hfree (heq ▸ List.mem_map.mpr ⟨_, List.mem_map.mpr ⟨x, hx, rfl⟩, rfl⟩)
  have hmidway : ∀ u, LooseAll crc (init ++ [(s, ps)]) u →
      (Names ((located (init ++ [(s, ps)])).map Prod.fst) u ∨
        Names ((located (init ++ [(s, ps)])).map Prod.fst ++ [recs.length]) u ∧
          (Blank recs.length u ∨ Loose crc recs.length [] u)) → Midway crc l recs u :=
    fun u hloose hu => ⟨init, s, ps, h.segments, h.spans, h.tracked, hloose,
      hu.imp_right fun hu => ⟨hne, hfit, hu.1, hu.2⟩⟩
  unfold Log.rollTo
  rw [h.next]
  refine safely_bind (safely_mono ?_ (fun _ _ hpost => hpost)
    (@createSegment_safely crc recs.length d G _ hG h.held h.names hfree)) ?_
  · rintro u ⟨hu, hnames⟩
    refine hmidway u (fun x hx => (hu x hx).loose) (hnames.imp_right fun hn => ⟨hn.1, ?_⟩)
    exact hn.2.imp_right Resting.loose
  · rintro r u ⟨rfl, hu, hnames, hnew, -⟩
    refine safely_mono ?_ (fun _ _ hpost => hpost)
      (writeActive_safely (h.roll hne hfit hnames hu hnew) p)
    rintro v ⟨hnames', hloose⟩
    rw [located_concat, List.map_append] at hnames'
    refine hmidway v (fun x hx => hloose x (List.mem_append_left _ hx))
      (Or.inr ⟨hnames', Or.inr ?_⟩)
    exact hloose (newSegment recs.length, []) (by simp)

/-- `Append` under the log's mutex. -/
theorem appendLocked_safely (h : Racked crc ss recs l d) (hfit : l.nextOffset < 2 ^ 64)
    (p : Bytes) :
    Safely (Midway crc l recs) (AppendedTo crc recs p) (l.appendLocked crc p) d := by
  obtain ⟨init, s, ps, rfl, hactive⟩ := h.exists_active
  have hs := h.held (s, ps) (by simp)
  have hmidway : ∀ u, Names ((located (init ++ [(s, ps)])).map Prod.fst) u ∧
      LooseAll crc (init ++ [(s, ps)]) u → Midway crc l recs u :=
    fun u hu => ⟨init, s, ps, h.segments, h.spans, h.tracked, hu.2, Or.inl hu.1⟩
  unfold Log.appendLocked
  rw [hactive]
  by_cases hroll : l.rolls s p
  · have hne : ps ≠ [] := by
      rintro rfl
      have := hroll.1
      rw [hs.next, hs.base] at this
      simp at this
    have hfit' : recs.length < 2 ^ 64 := by
      rw [← h.next]
      simpa [Log.nextOffset, hactive] using hfit
    simp only [if_pos hroll]
    split_ifs with hnever
    · exact rollTo_safely h hne hfit' p
    · refine safely_bind (safely_mono (fun u hu => hmidway u ⟨hu.names, hu.looseAll⟩)
        (fun _ _ hpost => hpost) (sync_safely Racked.steadfast h s)) ?_
      rintro r u ⟨rfl, hu⟩
      refine safely_coord Racked.steadfast hu (fun v hv => hmidway v ⟨hv.names, hv.looseAll⟩) ?_
      intro v _ hv
      exact rollTo_safely hv hne hfit' p
  · simp only [if_neg hroll]
    exact safely_mono hmidway (fun _ _ hpost => hpost) (writeActive_safely h p)

end Append

end LedgerLine.Broker
