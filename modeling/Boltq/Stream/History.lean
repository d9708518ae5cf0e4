import Boltq.Lib.Run
import Boltq.Stream.Steps

namespace Boltq.Stream
open Lib SegmentStore LawfulSegmentStore List

namespace Partition
variable {S : Type} [LawfulSegmentStore S] {p q : Partition S}

structure Placed (p : Partition S) : Prop where
  wf : p.WellFormed
  ordered : p.epochs.Ordered
  reached : p.epochs.latest.2 ≤ p.nextSeq
  current : p.curEpoch = p.epochs.latest.1

structure Described (p : Partition S) : Prop extends p.Placed where
  epochs : ∀ r ∈ p.records, r.epoch = p.epochs.epochForSeq r.seq

/-- No replicated record is of an older term than the partition's. -/
def Fresh (p : Partition S) (op : Op) : Prop :=
  match op with
  | .appendReplicated rec => p.curEpoch ≤ rec.epoch
  | _ => True

instance (p : Partition S) (op : Op) : Decidable (p.Fresh op) := by
  unfold Fresh
  split <;> infer_instance

theorem Placed.extended (h : p.Placed) (he : Extended p q rs) : q.Placed := by
  refine ⟨he.wf, he.epochs ▸ h.ordered, ?_, ?_⟩
  · rw [he.epochs, he.nextSeq h.wf]
    exact Nat.le_trans h.reached (Nat.le_add_right _ _)
  · rw [he.curEpoch, he.epochs]
    exact h.current

theorem Described.push {rec : Record} (h : p.Described) (hep : rec.epoch = p.curEpoch)
    (hseq : rec.seq = p.nextSeq) (he : Extended p q [rec.canonical]) : q.Described := by
  refine ⟨h.toPlaced.extended he, ?_⟩
  intro r hr
  rw [he.records] at hr
  rw [he.epochs]
  rcases mem_append.mp hr with hr | hr
  · exact h.epochs r hr
  simp only [mem_singleton] at hr
  subst hr
  rw [canonical_epoch, canonical_seq, hep, h.current,
    h.ordered.epochForSeq_latest (hseq ▸ h.reached)]

theorem Placed.assign_ok (h : p.Placed) (hn : p.curEpoch < epoch) :
    p.epochs.assign epoch p.nextSeq = .ok ⟨p.epochs.entries ++ [⟨epoch, p.nextSeq⟩]⟩ := by
  have hlt : p.epochs.latest.1 < epoch := h.current ▸ hn
  have hle := h.reached
  rw [LeaderEpochCache.assign_newer hlt, if_neg (by omega)]

theorem Placed.becomeLeader_ok (h : p.Placed) (hc : p.closed = false) (hn : p.curEpoch < epoch) :
    ∃ q, p.becomeLeader epoch = (q, .ok ()) := by
  have h0 : epoch ≠ undefinedEpoch := by unfold undefinedEpoch; omega
  unfold becomeLeader
  rw [if_neg h0, hc, if_neg (by decide), if_neg (by omega), h.assign_ok hn]
  exact ⟨_, rfl⟩

theorem Placed.appendReplicated_ok {rec : Record} (h : p.Placed) (hc : p.closed = false)
    (hf : Fits S rec) (hseq : rec.seq = p.nextSeq) (hfl : rec.flags &&& flagEphemeral = 0)
    (he : rec.encode = .ok bs) :
    ∃ m q, p.noteEpoch rec = .ok m ∧ p.appendReplicated rec = (q, .ok ()) ∧
      Extended m q [rec.canonical] := by
  have hpos := h.wf.next_pos
  obtain ⟨m, hm⟩ : ∃ m, p.noteEpoch rec = .ok m := by
    unfold noteEpoch
    split
    · rename_i hlt
      rw [hseq, h.assign_ok hlt]
      exact ⟨_, rfl⟩
    · exact ⟨p, rfl⟩
  obtain ⟨hw, _, hn⟩ := noteEpoch_wf h.wf hm
  obtain ⟨q, hq, hext⟩ := hw.write hf he (hseq.trans hn.symm)
  refine ⟨m, q, hm, ?_, hext⟩
  unfold appendReplicated
  rw [if_neg (not_not.mpr hfl), if_neg (by omega), hc, if_neg (by decide), if_neg (by omega),
    if_neg (by omega), hm]
  simp only [he, hq]

theorem Placed.assign {epoch : Nat} {epochs : LeaderEpochCache} (h : p.Placed)
    (hn : p.curEpoch < epoch) (ha : p.epochs.assign epoch p.nextSeq = .ok epochs) :
    { p with epochs, curEpoch := epoch : Partition S }.Placed := by
  rw [h.assign_ok hn] at ha
  simp only [Except.ok.injEq] at ha
  subst ha
  have hl := LeaderEpochCache.latest_append p.epochs.entries ⟨epoch, p.nextSeq⟩
  refine ⟨h.wf.setEpochs _ _, h.ordered.snoc (h.current ▸ hn) h.reached, ?_, ?_⟩
  · simp only [hl]
    exact Nat.le_refl _
  · simp only [hl]

theorem Described.assign {epoch : Nat} {epochs : LeaderEpochCache} (h : p.Described)
    (hn : p.curEpoch < epoch) (ha : p.epochs.assign epoch p.nextSeq = .ok epochs) :
    { p with epochs, curEpoch := epoch : Partition S }.Described := by
  refine ⟨h.toPlaced.assign hn ha, ?_⟩
  rw [h.toPlaced.assign_ok hn] at ha
  simp only [Except.ok.injEq] at ha
  subst ha
  intro r hr
  have hrange := h.wf.seq_range (r := r) hr
  rw [h.epochs r hr]
  exact ((h.ordered.snoc (h.current ▸ hn) h.reached).epochForSeq_snoc_before hrange.2).symm

theorem Placed.setLeader (h : p.Placed) (on lead : Bool) :
    { p with enforceLeadership := on, isLeader := lead : Partition S }.Placed :=
  ⟨⟨h.wf.covers, h.wf.writable, h.wf.filled, h.wf.count⟩, h.ordered, h.reached, h.current⟩

theorem Described.setLeader (h : p.Described) (on lead : Bool) :
    { p with enforceLeadership := on, isLeader := lead : Partition S }.Described :=
  ⟨h.toPlaced.setLeader on lead, h.epochs⟩

theorem Cut.epochs (h : Cut p q seq) : q.epochs = p.epochs.truncateFromSeq seq := by
  rw [h.same]

theorem Cut.curEpoch (h : Cut p q seq) : q.curEpoch = q.epochs.latest.1 := by
  rw [h.epochs, h.same]

theorem Placed.cut (h : p.Placed) (hc : Cut p q seq) : q.Placed := by
  refine ⟨hc.wf, hc.epochs ▸ h.ordered.truncateFromSeq seq, ?_, hc.curEpoch⟩
  rw [hc.epochs, hc.nextSeq]
  exact h.ordered.truncateFromSeq_latest seq

theorem Described.cut (h : p.Described) (hc : Cut p q seq) : q.Described := by
  refine ⟨h.toPlaced.cut hc, ?_⟩
  intro r hr
  have hrange := hc.wf.seq_range hr
  rw [hc.nextSeq] at hrange
  rw [hc.records] at hr
  rw [hc.epochs, h.ordered.epochForSeq_truncateFromSeq hrange.2]
  exact h.epochs r (mem_of_mem_take hr)

theorem Placed.dropOldest (h : p.Placed) (ho : p.older = oldest :: rest) :
    (p.dropOldest oldest (rest.head?.getD p.active) rest).Placed := by
  obtain ⟨hw, _, _⟩ := dropOldest_effect h.wf ho
  refine ⟨hw, h.ordered.truncateBeforeSeq _, ?_, ?_⟩
  · change (p.epochs.truncateBeforeSeq _).latest.2 ≤ p.nextSeq
    rw [h.ordered.truncateBeforeSeq_latest]
    exact h.reached
  · change p.curEpoch = (p.epochs.truncateBeforeSeq _).latest.1
    rw [h.ordered.truncateBeforeSeq_latest]
    exact h.current

theorem Described.dropOldest (h : p.Described) (ho : p.older = oldest :: rest) :
    (p.dropOldest oldest (rest.head?.getD p.active) rest).Described := by
  obtain ⟨hw, hf, hr⟩ := dropOldest_effect h.wf ho
  refine ⟨h.toPlaced.dropOldest ho, ?_⟩
  intro r hq
  have hge : baseSeq (rest.head?.getD p.active) ≤ r.seq := (hw.seq_range hq).1
  change _ = (p.epochs.truncateBeforeSeq _).epochForSeq r.seq
  rw [h.ordered.epochForSeq_truncateBeforeSeq hge]
  exact h.epochs r (by rw [hr]; exact mem_append_right _ hq)

theorem Placed.reopened (h : p.Placed) (hw : q.WellFormed)
    (he : q.epochs = .openEpochCache p.epochs.entries) (hc : q.curEpoch = q.epochs.latest.1)
    (hn : p.epochs.latest.2 ≤ q.nextSeq) : q.Placed ∧ q.epochs = p.epochs := by
  rw [h.ordered.openEpochCache] at he
  exact ⟨⟨hw, he ▸ h.ordered, by rw [he]; exact hn, hc⟩, he⟩

theorem Placed.reopen (h : p.Placed) (cfg : PartitionConfig) :
    (p.after (.reopen cfg)).Placed ∧ (p.after (.reopen cfg)).epochs = p.epochs ∧
      (p.after (.reopen cfg)).records = p.records := by
  obtain ⟨m, hm, hw, hr, _, hn, he, hc, _⟩ := reopen_effect cfg h.wf
  have hq := reopen_after cfg h.wf
  rw [hm] at hq
  simp only [Except.ok.injEq] at hq
  rw [← hq]
  obtain ⟨hp, heq⟩ := h.reopened hw he hc (hn ▸ h.reached)
  exact ⟨hp, heq, hr⟩

theorem placed_survives : Survives (S := S) Placed (fun _ _ => True) where
  wf h := h.wf
  stamped _ := trivial
  push h _ _ _ he := h.extended he
  term h hn ha := h.assign hn ha
  lead on lead h := h.setLeader on lead
  cut h hc := h.cut hc
  drop h ho := h.dropOldest ho
  reopen cfg h := (h.reopen cfg).1

theorem described_survives : Survives (S := S) Described (fun p rec => rec.epoch = p.curEpoch) where
  wf h := h.wf
  stamped h := h
  push h hok hseq _ he := h.push hok hseq he
  term h hn ha := h.assign hn ha
  lead on lead h := h.setLeader on lead
  cut h hc := h.cut hc
  drop h ho := h.dropOldest ho
  reopen cfg h := by
    obtain ⟨hp, he, hr⟩ := h.toPlaced.reopen cfg
    exact ⟨hp, by rw [he, hr]; exact h.epochs⟩

theorem Placed.after (h : p.Placed) (hst : p.Storable op) : (p.after op).Placed :=
  placed_survives.after h hst (fun _ _ _ _ => trivial)

theorem Described.after (h : p.Described) (hst : p.Storable op) (hf : p.Fresh op) :
    (p.after op).Described := by
  refine described_survives.after h hst ?_
  rintro rec m rfl hm
  have hfresh : p.curEpoch ≤ rec.epoch := hf
  rcases noteEpoch_effect hm with ⟨hle, rfl⟩ | ⟨epochs, _, _, rfl⟩
  · omega
  · rfl

theorem Described.of_empty {topic : String} {id : Int} {cfg : PartitionConfig}
    (hs : openPartition topic id ⟨[], []⟩ cfg = .ok p) : p.Described := by
  obtain ⟨m, hm, hw, hr, _, hn, _, he, hc, _⟩ := open_empty (S := S) topic id cfg []
  rw [hm] at hs
  simp only [Except.ok.injEq] at hs
  subst hs
  have he : m.epochs = ⟨[]⟩ := he
  exact ⟨⟨hw, by simp [he, LeaderEpochCache.Ordered], by simp [he, LeaderEpochCache.latest], hc⟩,
    by simp [hr]⟩

theorem Described.run (h : p.Described)
    (hr : Run Succeeds (fun p op => p.Storable op ∧ p.Fresh op) p ops q) : q.Described :=
  hr.invariant Described h (fun _ _ _ ht hok hs => hs.after ▸ ht.after hok.1 hok.2)

theorem storable_rec (p : Partition RecSegment) (op : Op) : p.Storable op := by
  cases op <;> simp [Storable, Fits]

theorem Described.run_fresh {p q : Partition RecSegment} (h : p.Described)
    (hr : Run Succeeds Fresh p ops q) : q.Described :=
  h.run (hr.mono (fun t op hop => ⟨storable_rec t op, hop⟩))

def endOfTerm (p : Partition S) (epoch : Nat) : Nat :=
  match (p.records.filter (fun r => decide (r.epoch ≤ epoch))).getLast? with
  | some r => r.seq + 1
  | none => (p.epochs.following epoch).elim p.nextSeq EpochEntry.startSeq

theorem Described.filter_epoch (h : p.Described) (epoch : Nat) :
    p.records.filter (fun r => decide (r.epoch ≤ epoch)) =
      p.records.take ((p.epochs.following epoch).elim p.nextSeq EpochEntry.startSeq - p.firstSeq) := by
  rw [← h.wf.dense.filter_lt]
  apply filter_congr
  intro r hr
  rw [decide_eq_decide, h.epochs r hr]
  cases hn : p.epochs.following epoch with
  | none =>
    have hle := h.ordered.epochForSeq_le r.seq hn
    have hlt := (h.wf.seq_range hr).2
    simp [hle, hlt]
  | some next => exact h.ordered.epochForSeq_le_iff r.seq hn

theorem Described.endOffsetForEpoch (h : p.Described) (ho : p.epochs.entries.head? = some oldest)
    (he : oldest.epoch ≤ epoch) : (p.endOffsetForEpoch epoch).2 = p.endOfTerm epoch := by
  have hle : (p.epochs.following epoch).elim p.nextSeq EpochEntry.startSeq ≤ p.nextSeq := by
    cases hn : p.epochs.following epoch with
    | none => exact Nat.le_refl _
    | some next => exact Nat.le_trans (h.ordered.following_le hn) h.reached
  rw [Partition.endOffsetForEpoch, h.ordered.endOffsetFor_seq p.nextSeq ho he, endOfTerm,
    h.filter_epoch]
  generalize (p.epochs.following epoch).elim p.nextSeq EpochEntry.startSeq = stop at hle ⊢
  cases hl : (p.records.take (stop - p.firstSeq)).getLast? with
  | none => rfl
  | some r =>
    have hlen := h.wf.next_eq
    rw [List.getLast?_eq_getElem?] at hl
    have hi := (List.getElem?_eq_some_iff.mp hl).1
    have hseq := h.wf.dense.take _ _ r hl
    rw [List.length_take] at hi hseq
    simp only
    omega

/-- Whatever calls a partition answers successfully, its epoch history stays
strictly increasing, ends in the current epoch, gives every retained record its
epoch and answers where each retained term ended. -/
theorem epoch_history_describes_log {topic : String} {id : Int} {cfg : PartitionConfig}
    {p q : Partition RecSegment} {ops : List Op}
    (h0 : openPartition topic id ⟨[], []⟩ cfg = .ok p) (hr : Run Succeeds Fresh p ops q) :
    q.epochs.entries.Pairwise (fun a b => a.epoch < b.epoch ∧ a.startSeq ≤ b.startSeq) ∧
    q.curEpoch = q.epochs.latest.1 ∧ (∀ r ∈ q.records, r.epoch = q.epochs.epochForSeq r.seq) ∧
    ∀ oldest epoch, q.epochs.entries.head? = some oldest → oldest.epoch ≤ epoch →
      (q.epochs.endOffsetFor epoch q.nextSeq).2 = q.endOfTerm epoch := by
  have hd : q.Described := (Described.of_empty h0).run_fresh hr
  exact ⟨hd.ordered, hd.current, hd.epochs, fun _ _ ho he => hd.endOffsetForEpoch ho he⟩

def threeTerms : List Op :=
  [.becomeLeader 1, .append (.ofPayload [1]) 5, .becomeLeader 2, .becomeLeader 3,
    .append (.ofPayload [2]) 6, .append (.ofPayload [3]) 7, .truncateTo 3]

def freshChat : Partition RecSegment := fresh "chat" 0 defaultPartitionConfig.applyDefaults ⟨[]⟩

theorem epoch_history_of_three_terms : ∃ q : Partition RecSegment,
      Run Succeeds Fresh freshChat threeTerms q ∧
      q.epochs.entries = [⟨1, 1⟩, ⟨2, 2⟩, ⟨3, 2⟩] ∧ q.records.map Record.epoch = [1, 3] ∧
      q.curEpoch = q.epochs.latest.1 ∧ (q.epochs.endOffsetFor 2 q.nextSeq).2 = q.endOfTerm 2 := by
  obtain ⟨q, hrun, he, hrec⟩ := Run.executed Fresh exec freshChat threeTerms
    (fun q : Partition RecSegment => q.epochs.entries = [⟨1, 1⟩, ⟨2, 2⟩, ⟨3, 2⟩] ∧
      q.records.map Record.epoch = [1, 3]) (by decide +kernel)
  obtain ⟨_, hc, _, hd⟩ := epoch_history_describes_log (open_fresh "chat" 0 defaultPartitionConfig) hrun
  exact ⟨q, hrun, he, hrec, hc, hd ⟨1, 1⟩ 2 (by rw [he]; rfl) (by decide)⟩

end Partition
end Boltq.Stream
