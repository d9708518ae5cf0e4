import Boltq.Stream.Refinement
import Boltq.Stream.Leadership
import Boltq.Replication.Leader

namespace Boltq.Stream
open List

theorem Record.Written.canonical {r : Record} (h : r.Written) : r.canonical.Written := by
  obtain ⟨hfl, bs, he⟩ := h
  have hflags : r.canonical.flags &&& flagEphemeral = r.flags &&& flagEphemeral := by
    change r.flags &&& ~~~flagHasEpoch &&& flagEphemeral = r.flags &&& flagEphemeral
    rw [UInt8.and_assoc]
    rfl
  refine ⟨hflags.trans hfl, Lib.frame r.canonical.body, ?_⟩
  unfold Record.encode at he ⊢
  split at he
  · cases he
  rename_i hlen
  split at he
  · cases he
  rename_i hkey
  rw [if_neg (show ¬ r.canonical.bodyLen > maxRecordSize from hlen),
    if_neg (show ¬ r.canonical.key.length > 0xFFFF from hkey)]

namespace Partition
open Lib

variable {S : Type} [LawfulSegmentStore S]

theorem written_survives :
    Survives (S := S) (fun p => p.WellFormed ∧ ∀ r ∈ p.records, r.Written) (fun _ _ => True) where
  wf h := h.1
  stamped _ := trivial
  push h _ _ hw he := by
    refine ⟨he.wf, fun r hr => ?_⟩
    rw [he.records] at hr
    rcases mem_append.mp hr with hold | hnew
    · exact h.2 r hold
    · exact mem_singleton.mp hnew ▸ hw.canonical
  term h _ _ := ⟨h.1.setEpochs _ _, h.2⟩
  lead _ _ h := ⟨⟨h.1.covers, h.1.writable, h.1.filled, h.1.count⟩, h.2⟩
  cut h hc := by
    refine ⟨hc.wf, fun r hr => h.2 r ?_⟩
    rw [hc.records] at hr
    exact mem_of_mem_take hr
  drop h ho := by
    obtain ⟨hw, _, hr⟩ := dropOldest_effect h.1 ho
    refine ⟨hw, fun r hmem => h.2 r ?_⟩
    rw [hr]
    exact mem_append_right _ hmem
  reopen {p} cfg h := by
    obtain ⟨q, hq, hw, hr, _⟩ := reopen_effect cfg h.1
    have hafter : p.after (.reopen cfg) = q := by simp [Partition.after, hq, Except.toOption]
    rw [hafter]
    exact ⟨hw, fun r hmem => h.2 r (hr ▸ hmem)⟩

structure Reached (p : Partition S) : Prop where
  opened : p.Open
  placed : p.Placed
  written : ∀ r ∈ p.records, r.Written

theorem Reached.step {p q : Partition S} (h : p.Reached) (hst : p.Storable op)
    (hs : p.Succeeds op q) : q.Reached := by
  refine ⟨(h.opened.refines hst hs).1, hs.after ▸ h.placed.after hst, ?_⟩
  exact hs.after ▸ (written_survives.after ⟨h.opened.wf, h.written⟩ hst (fun _ _ _ _ => trivial)).2

theorem Reached.run {topic : String} {id : Int} {cfg : PartitionConfig}
    {p₀ p : Partition S} {ops : List Op}
    (ho : openPartition topic id ⟨[], []⟩ cfg = .ok p₀) (hr : Run Succeeds Storable p₀ ops p) :
    p.Reached := by
  obtain ⟨hopen, _⟩ := Open.fresh topic id cfg ho
  have hplaced := (Described.of_empty ho).toPlaced
  have hnone : ∀ r ∈ p₀.records, r.Written := by
    obtain ⟨m, hm, _, hrec, _⟩ := open_empty (S := S) topic id cfg []
    cases ho.symm.trans hm
    simp [hrec]
  exact hr.invariant Reached ⟨hopen, hplaced, hnone⟩ (fun _ _ _ ht hst hs => ht.step hst hs)

end Partition
end Boltq.Stream

namespace Boltq.Replication
open Lib Boltq.Stream List

section Rounds
variable {S : Type} [SegmentStore S]

def streamPartition (cfg : LeaderConfig) (leader : Partition S) (fromSeq : Nat) : List Record :=
  match leader.read (if fromSeq = 0 then 1 else fromSeq) cfg.batchRecords (4 * 2 ^ 20) with
  | (recs, none) => recs
  | (_, some (.seqTruncated _ _)) =>
    match leader.read leader.firstSeq cfg.batchRecords (4 * 2 ^ 20) with
    | (recs, none) => recs
    | (_, some _) => []
  | (_, some _) => []

def applyBatch (p : Partition S) : List Record → Partition S
  | [] => p
  | rec :: recs =>
    match p.appendReplicated rec with
    | (q, .ok _) => applyBatch q recs
    | (q, .error _) => q

def round (cfg : LeaderConfig) (leader p : Partition S) : Partition S :=
  applyBatch p (streamPartition cfg leader p.nextSeq)

def rounds (cfg : LeaderConfig) (leader : Partition S) : Nat → Partition S → Partition S
  | 0, p => p
  | n + 1, p => rounds cfg leader n (round cfg leader p)

end Rounds

variable {S : Type} [LawfulSegmentStore S] {leader p : Partition S} {n : Nat}

section
variable (cfg : LeaderConfig)

theorem streamPartition_covered (hl : leader.Open) (hf : leader.firstSeq ≤ n)
    (hn : n < leader.nextSeq) : streamPartition cfg leader n ≠ [] ∧
      streamPartition cfg leader n <+: leader.records.drop (n - leader.firstSeq) := by
  have hpos := hl.wf.first_pos
  obtain ⟨out, hout, hne, hserved⟩ :=
    hl.presents.read n cfg.batchRecords (4 * 2 ^ 20) hf (hl.next ▸ hn)
  have hread : streamPartition cfg leader n = out := by
    unfold streamPartition
    rw [if_neg (by omega), hout]
  rw [hread]
  exact ⟨hne, hserved.run⟩

theorem streamPartition_dropped (hl : leader.Open) (h0 : 0 < n) (hf : n < leader.firstSeq) :
    ∀ r ∈ streamPartition cfg leader n, leader.firstSeq ≤ r.seq ∧ r ∈ leader.records := by
  intro r hs
  have hcut : leader.read n cfg.batchRecords (4 * 2 ^ 20) =
      ([], some (.seqTruncated n leader.firstSeq)) := by
    unfold Partition.read
    simp only [hl.closed, Bool.false_eq_true, ↓reduceIte]
    rw [if_neg (by omega : n ≠ 0), if_pos hf]
  obtain ⟨out, hout, hserved⟩ :=
    hl.read (Nat.le_refl leader.firstSeq) cfg.batchRecords (4 * 2 ^ 20)
  have hsent : streamPartition cfg leader n = out := by
    unfold streamPartition
    rw [if_neg (by omega), hcut]
    simp only [hout]
  rw [hsent] at hs
  have hmem : r ∈ leader.records := mem_of_mem_drop (hserved.run.subset hs)
  exact ⟨(hl.wf.seq_range hmem).1, hmem⟩

theorem applyBatch_covered (hp : p.Reached) (hd : Dense p.nextSeq recs)
    (hw : ∀ r ∈ recs, r.Written) (hf : ∀ r ∈ recs, LawfulSegmentStore.Fits S r) :
    (applyBatch p recs).Reached ∧
      (applyBatch p recs).nextSeq = p.nextSeq + recs.length ∧
      (applyBatch p recs).records = p.records ++ recs.map Record.canonical := by
  induction recs generalizing p with
  | nil => exact ⟨hp, rfl, (append_nil _).symm⟩
  | cons rec recs ih =>
    obtain ⟨hfl, bs, he⟩ := hw rec mem_cons_self
    obtain ⟨m, q, hm, hq, hext⟩ :=
      hp.placed.appendReplicated_ok hp.opened.closed (hf rec mem_cons_self) hd.head hfl he
    obtain ⟨hwf, hkept, hnext⟩ := Partition.noteEpoch_wf hp.opened.wf hm
    have hq1 : q.nextSeq = p.nextSeq + 1 := hnext ▸ hext.nextSeq hwf
    have hs : p.Succeeds (.appendReplicated rec) q := Partition.okState_some.mpr ⟨_, hq⟩
    have hst : p.Storable (.appendReplicated rec) := hf rec mem_cons_self
    obtain ⟨hr, hn, hrecs⟩ := ih (hp.step hst hs) (hq1 ▸ hd.drop 1)
      (fun r hr => hw r (mem_cons_of_mem _ hr)) (fun r hr => hf r (mem_cons_of_mem _ hr))
    simp only [applyBatch, hq, length_cons]
    refine ⟨hr, by omega, ?_⟩
    rw [hrecs, hext.records, hkept, append_assoc]
    rfl

theorem applyBatch_gap (h : p.WellFormed) {rec : Record}
    (hfits : LawfulSegmentStore.Fits S rec) (recs : List Record)
    (hgap : p.nextSeq < rec.seq) : applyBatch p (rec :: recs) = p := by
  rcases Partition.appendReplicated_cases h hfits with ⟨e, hq⟩ | ⟨hlt, _⟩ | ⟨m, heq, _⟩
  · simp only [applyBatch, hq]
  · omega
  · omega

section
variable (hl : leader.Reached) (hp : p.Reached) (hf : leader.firstSeq ≤ p.nextSeq)
include hl hp hf

theorem round_covered (hn : p.nextSeq < leader.nextSeq) : (round cfg leader p).Reached ∧
    ∃ out, out ≠ [] ∧ out <+: leader.records.drop (p.nextSeq - leader.firstSeq) ∧
      (round cfg leader p).nextSeq = p.nextSeq + out.length ∧
      (round cfg leader p).records = p.records ++ out.map Record.canonical := by
  obtain ⟨hne, hrun⟩ := streamPartition_covered cfg hl.opened hf hn
  have hd : Dense p.nextSeq (streamPartition cfg leader p.nextSeq) := by
    have hdrop := hl.opened.wf.dense.drop (p.nextSeq - leader.firstSeq)
    rw [Nat.add_sub_cancel' hf] at hdrop
    rw [prefix_iff_eq_take.mp hrun]
    exact hdrop.take _
  have hmem : ∀ r ∈ streamPartition cfg leader p.nextSeq, r ∈ leader.records :=
    fun r hr => mem_of_mem_drop (hrun.subset hr)
  obtain ⟨hr, hnext, hrecs⟩ := applyBatch_covered hp hd (fun r hr => hl.written r (hmem r hr))
    (fun r hr => hl.opened.wf.fits r (hmem r hr))
  exact ⟨hr, _, hne, hrun, hnext, hrecs⟩

theorem round_advances (hn : p.nextSeq < leader.nextSeq) :
    p.nextSeq < (round cfg leader p).nextSeq := by
  obtain ⟨_, out, hne, _, hnext, _⟩ := round_covered cfg hl hp hf hn
  have := length_pos_iff.mpr hne
  omega

/-- A follower that the leader's log still covers ends with all the leader holds
from the follower's position on. -/
theorem catch_up_completes (hle : p.nextSeq ≤ leader.nextSeq) :
    ∃ n, (rounds cfg leader n p).nextSeq = leader.nextSeq ∧ (rounds cfg leader n p).records =
      p.records ++ (leader.records.drop (p.nextSeq - leader.firstSeq)).map Record.canonical := by
  have hlen := hl.opened.wf.next_eq
  -- Every round closes a part of the gap.
  induction hgap : leader.nextSeq - p.nextSeq using Nat.strong_induction_on generalizing p with
  | _ gap ih =>
    rcases Nat.eq_or_lt_of_le hle with heq | hlt
    · refine ⟨0, heq, ?_⟩
      rw [drop_of_length_le (by omega)]
      exact (append_nil _).symm
    · obtain ⟨hr, out, hne, ⟨more, hmore⟩, hnext, hrecs⟩ := round_covered cfg hl hp hf hlt
      have hpos := length_pos_iff.mpr hne
      have hcut := congrArg length hmore
      rw [length_append, length_drop] at hcut
      obtain ⟨n, hn, hrest⟩ := ih _ (by omega) hr (by omega) (by omega) rfl
      refine ⟨n + 1, hn, ?_⟩
      rw [rounds, hrest, hrecs, hnext, Nat.sub_add_comm hf, ← drop_drop, ← hmore,
        drop_left, map_append, append_assoc]

end

theorem round_stuck (hl : leader.Open) (hp : p.WellFormed)
    (hf : p.nextSeq < leader.firstSeq) : round cfg leader p = p := by
  unfold round
  cases hs : streamPartition cfg leader p.nextSeq with
  | nil => rfl
  | cons r rest =>
    obtain ⟨hle, hmem⟩ := streamPartition_dropped cfg hl hp.next_pos hf r (hs ▸ mem_cons_self)
    exact applyBatch_gap hp (hl.wf.fits r hmem) rest (by omega)

theorem rounds_stuck (h : round cfg leader p = p) (n : Nat) : rounds cfg leader n p = p := by
  induction n with
  | zero => rfl
  | succ n ih => rw [rounds, h, ih]

end

/-- A follower that is behind catches up exactly when the leader has not dropped
the record it needs next. -/
theorem catch_up_progresses_iff (cfg : LeaderConfig) {lt ft : String} {li fi : Int}
    {lcfg fcfg : PartitionConfig} {l₀ p₀ : Partition S} {lops fops : List Op}
    (hl₀ : Partition.openPartition lt li ⟨[], []⟩ lcfg = .ok l₀)
    (hl : Run Partition.Succeeds Partition.Storable l₀ lops leader)
    (hp₀ : Partition.openPartition ft fi ⟨[], []⟩ fcfg = .ok p₀)
    (hp : Run Partition.Succeeds Partition.Storable p₀ fops p) (hbehind : p.nextSeq < leader.nextSeq) :
    (∃ n, p.nextSeq < (rounds cfg leader n p).nextSeq) ↔ leader.firstSeq ≤ p.nextSeq := by
  have hlr := Partition.Reached.run hl₀ hl
  have hpr := Partition.Reached.run hp₀ hp
  constructor
  · rintro ⟨n, hn⟩
    by_contra hlt
    have hstuck := round_stuck cfg hlr.opened hpr.opened.wf (Nat.lt_of_not_le hlt)
    rw [rounds_stuck cfg hstuck] at hn
    exact Nat.lt_irrefl _ hn
  · intro hf
    exact ⟨1, round_advances cfg hlr hpr hf hbehind⟩

def shortRetention : PartitionConfig :=
  { defaultPartitionConfig with
    segmentBytes := 40
    retentionBytes := 1
    int64 := Partition.smallSegments.int64 }

def emptyReplica : Partition FileSegment := .fresh "chat" 0 shortRetention.applyDefaults ⟨[]⟩

def twoMessages : List Op :=
  [.becomeLeader 1, .append (.ofPayload [1]) 5, .append (.ofPayload [2]) 6]

theorem catch_up_progresses_iff_new_follower :
    ∃ leader, Run Partition.Succeeds Partition.Storable emptyReplica twoMessages leader ∧
      ∃ n, emptyReplica.nextSeq < (rounds {} leader n emptyReplica).nextSeq := by
  refine Run.shown (fun l : Partition FileSegment => l.nextSeq = 3 ∧ l.firstSeq = 1)
    (by decide +kernel) ?_
  rintro leader hl ⟨hnext, hfirst⟩
  have hopen := Partition.open_fresh (S := FileSegment) "chat" 0 shortRetention
  have hbehind : emptyReplica.nextSeq < leader.nextSeq := by
    rw [hnext]
    decide
  exact (catch_up_progresses_iff {} hopen hl hopen .nil hbehind).mpr (Nat.le_of_eq hfirst)

theorem new_follower_completes :
    ∃ leader, Run Partition.Succeeds Partition.Storable emptyReplica twoMessages leader ∧
      ∃ n, (rounds {} leader n emptyReplica).nextSeq = 3 := by
  refine Run.shown (fun l : Partition FileSegment => l.nextSeq = 3 ∧ l.firstSeq = 1)
    (by decide +kernel) ?_
  rintro leader hl ⟨hnext, hfirst⟩
  have hopen := Partition.open_fresh (S := FileSegment) "chat" 0 shortRetention
  obtain ⟨n, hn, _⟩ := catch_up_completes {} (.run hopen hl) (.run hopen .nil)
    (Nat.le_of_eq hfirst) (hnext ▸ by decide)
  exact ⟨n, hn.trans hnext⟩

/-- Retention has dropped the first record: the leader sends the second, the
follower refuses it and asks for the first again, for ever. -/
theorem catch_up_repeats_forever : ∃ leader, Run Partition.Succeeds Partition.Storable emptyReplica
        (twoMessages ++ [.enforceRetention 7]) leader ∧ emptyReplica.nextSeq < leader.nextSeq ∧
      ∀ n, rounds {} leader n emptyReplica = emptyReplica := by
  refine Run.shown (fun l : Partition FileSegment => emptyReplica.nextSeq < l.nextSeq ∧
      round {} l emptyReplica = emptyReplica) (by decide +kernel) ?_
  rintro leader hl ⟨hnext, hround⟩
  exact ⟨hnext, rounds_stuck {} hround⟩

end Boltq.Replication
