import Boltq.Stream.History

namespace Boltq.Stream
open Lib SegmentStore LawfulSegmentStore List Option

def RecSegment.cut (s : RecSegment) (n : Nat) : RecSegment := { s with recs := s.recs.take n }

namespace Partition

def crash (p : Partition RecSegment) (k n : Nat) : Disk RecSegment :=
  ⟨p.segments.take k ++ ((p.segments[k]?).map (fun s => s.cut n)).toList, p.epochs.entries⟩

def survivors (p : Partition RecSegment) (k n : Nat) : Nat :=
  ((p.crash k n).files.flatMap RecSegment.recs).length

variable {p q : Partition RecSegment}

theorem cut_covers {next : Nat} (hc : Covers first xs next) (k n : Nat) :
    Covers first (xs.take k ++ ((xs[k]?).map (fun s => s.cut n)).toList)
        (first + ((xs.take k ++ ((xs[k]?).map (fun s => s.cut n)).toList).flatMap
          RecSegment.recs).length) ∧
      (xs.take k ++ ((xs[k]?).map (fun s => s.cut n)).toList).flatMap RecSegment.recs <+:
        xs.flatMap RecSegment.recs := by
  induction xs generalizing first k with
  | nil => simp [Covers]
  | cons s xs ih =>
    cases k with
    | zero =>
      obtain ⟨⟨hpos, hd⟩, hb, _⟩ := hc
      simp only [take_zero, getElem?_cons_zero, map_some, toList_some,
        nil_append, flatMap_cons, flatMap_nil, append_nil]
      exact ⟨⟨⟨hpos, hd.take n⟩, hb, rfl⟩,
        List.IsPrefix.trans (List.take_prefix n s.recs) (prefix_append _ _)⟩
    | succ k =>
      obtain ⟨hv, hb, ht⟩ := hc
      obtain ⟨hcov, hpre⟩ := ih ht k
      simp only [take_succ_cons, getElem?_cons_succ, cons_append, flatMap_cons]
      refine ⟨⟨hv, hb, ?_⟩, (prefix_append_right_inj _).mpr hpre⟩
      rw [length_append, ← Nat.add_assoc]
      exact hcov

theorem crash_filled (h : p.WellFormed) (k n : Nat) :
    (p.crash k n).files ≠ [] ∧ ∀ s ∈ (p.crash k n).files.dropLast, s.recs ≠ [] := by
  unfold crash segments
  by_cases hk : k < (p.older ++ [p.active]).length
  · rw [getElem?_eq_getElem hk]
    simp only [map_some, toList_some, dropLast_concat]
    refine ⟨by simp, ?_⟩
    intro s hs
    simp only [length_append, length_singleton] at hk
    rw [take_append_of_le_length (by omega)] at hs
    exact h.filled s (mem_of_mem_take hs)
  · rw [getElem?_eq_none (by omega), take_of_length_le (by omega)]
    simp only [map_none, toList_none, append_nil, dropLast_concat]
    exact ⟨by simp, h.filled⟩

theorem crash_opens (topic : String) (id : Int) (cfg : PartitionConfig) (k n : Nat)
    (h : p.WellFormed) : ∃ q, openPartition topic id (p.crash k n) cfg = .ok q ∧ q.WellFormed ∧
      q.records <+: p.records ∧ q.nextSeq = p.firstSeq + p.survivors k n ∧
      q.epochs = .openEpochCache p.epochs.entries ∧ q.curEpoch = q.epochs.latest.1 ∧
      q.closed = false := by
  obtain ⟨hne, hf⟩ := crash_filled h k n
  obtain ⟨hc, hpre⟩ := cut_covers h.covers k n
  obtain ⟨m, hm, hw, hr, _, hn, hcl, he, hcur, _⟩ := open_effect topic id cfg hc hne hf
  exact ⟨m, hm, hw, hr ▸ hpre, hn, he, hcur, hcl⟩

theorem crash_recovery {topic : String} {id : Int} {cfg : PartitionConfig} {k n : Nat}
    (h : p.Placed) (ho : openPartition topic id (p.crash k n) cfg = .ok q) :
    q.WellFormed ∧ q.records <+: p.records ∧ q.nextSeq = p.firstSeq + p.survivors k n ∧
      q.epochs = p.epochs ∧ q.curEpoch = q.epochs.latest.1 ∧ q.closed = false := by
  obtain ⟨m, hm, hw, hpre, hn, he, hcur, hcl⟩ := crash_opens topic id cfg k n h.wf
  rw [hm] at ho
  simp only [Except.ok.injEq] at ho
  subst ho
  exact ⟨hw, hpre, hn, he.trans h.ordered.openEpochCache, hcur, hcl⟩

structure Harmless (q : Partition RecSegment) : Prop where
  leads : ∀ epoch, q.curEpoch < epoch → ∃ r, q.becomeLeader epoch = (r, .ok ())
  follows : ∀ rec bs, rec.seq = q.nextSeq → q.curEpoch < rec.epoch →
    rec.flags &&& flagEphemeral = 0 → rec.encode = .ok bs →
    ∃ r, q.appendReplicated rec = (r, .ok ())
  describes : ∀ ops r, Run Succeeds Fresh q ops r →
    ∀ x ∈ r.records, x.epoch = r.epochs.epochForSeq x.seq

theorem Described.harmless (h : q.Described) (hc : q.closed = false) : q.Harmless where
  leads _ hn := h.toPlaced.becomeLeader_ok hc hn
  follows _ _ hseq _ hfl he := by
    obtain ⟨_, r, _, hr, _⟩ := h.toPlaced.appendReplicated_ok hc trivial hseq hfl he
    exact ⟨r, hr⟩
  describes _ _ hr := (h.run_fresh hr).epochs

def emptyTerm : List Op :=
  [.becomeLeader 1, .append (.ofPayload [1]) 5, .append (.ofPayload [2]) 6, .becomeLeader 2]

end Partition
end Boltq.Stream
