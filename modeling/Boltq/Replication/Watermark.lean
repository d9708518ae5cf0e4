import Boltq.Replication.Leader
import Boltq.Stream.Refinement
import Boltq.Stream.Topics

namespace Boltq.Replication
open Lib Cluster Boltq.Stream Std List

def quorumPosition (leaderSeq : Nat) (acked : PartitionAcks) (minInSync : Int) : Nat :=
  if minInSync ≤ 1 then leaderSeq
  else
    let positions := (leaderSeq :: acked.toList.map Prod.snd).insertionSort (fun a b => b ≤ a)
    if minInSync > positions.length then 0 else (positions[minInSync.toNat - 1]?).getD 0

structure ReplicaState where
  nodeID : NodeID
  ackedSeq : Nat
  lag : Nat
  inSync : Bool
  deriving DecidableEq

structure PartitionReplication where
  topic : String
  partition : Int
  leaderSeq : Nat
  replicas : List ReplicaState
  inSync : Nat
  highWatermark : Nat
  leaderEpoch : Nat
  epochStartSeq : Nat
  deriving DecidableEq

def replicaState (cfg : LeaderConfig) (leaderSeq : Nat) (e : NodeID × Nat) : ReplicaState where
  nodeID := e.1
  ackedSeq := e.2
  lag := leaderSeq - e.2
  inSync := decide (leaderSeq - e.2 ≤ cfg.maxLagInSync)

def Leader.replication {S : Type} (l : Leader) (cfg : LeaderConfig) (log : TopicLog S)
    (k : PartitionRef) : PartitionReplication :=
  let p := log.partitionFor k.topic k.partition
  let leaderSeq := p.elim 0 Partition.nextSeq
  let epoch := p.elim (undefinedEpoch, 0) Partition.leaderEpoch
  let replicas := (l.acked k).toList.map (replicaState cfg leaderSeq)
  { topic := k.topic
    partition := k.partition
    leaderSeq
    replicas
    inSync := (replicas.filter ReplicaState.inSync).length + 1
    highWatermark := quorumPosition leaderSeq (l.acked k) cfg.minInSync
    leaderEpoch := epoch.1
    epochStartSeq := epoch.2 }

theorem countAtLeast_eq (acked : PartitionAcks) (seq : Nat) :
    acked.countAtLeast seq = (acked.toList.map Prod.snd).countP (fun v => decide (seq ≤ v)) := by
  rw [PartitionAcks.countAtLeast, countP_map, countP_eq_length_filter]
  rfl

theorem le_quorumPosition_iff (acked : PartitionAcks) (hmin : 2 ≤ minInSync) (hpos : 0 < seq)
    (hseq : seq ≤ leaderSeq) :
    seq ≤ quorumPosition leaderSeq acked minInSync ↔ minInSync - 1 ≤ acked.countAtLeast seq := by
  unfold quorumPosition
  rw [if_neg (by omega)]
  generalize hps : (leaderSeq :: acked.toList.map Prod.snd).insertionSort (fun a b => b ≤ a) = ps
  have hperm : ps.Perm (leaderSeq :: acked.toList.map Prod.snd) := hps ▸ perm_insertionSort _ _
  have hcount : ps.countP (fun v => decide (seq ≤ v)) = acked.countAtLeast seq + 1 := by
    rw [hperm.countP_eq, countP_cons, if_pos (decide_eq_true hseq), countAtLeast_eq]
  have hle : ps.countP (fun v => decide (seq ≤ v)) ≤ ps.length := countP_le_length
  dsimp only
  split
  · omega
  have hlt : minInSync.toNat - 1 < ps.length := by omega
  have hsorted : ps.Pairwise (fun a b => decide (seq ≤ b) = true → decide (seq ≤ a) = true) := by
    have hdesc : ps.Pairwise (fun a b => b ≤ a) := hps ▸ pairwise_insertionSort _ _
    exact hdesc.imp (fun hba hb => decide_eq_true (Nat.le_trans (of_decide_eq_true hb) hba))
  have hiff := lt_countP_iff hsorted (getElem?_eq_getElem hlt)
  rw [hcount, decide_eq_true_iff] at hiff
  rw [getElem?_eq_getElem hlt, Option.getD_some, ← hiff]
  omega

theorem waitFor_ok_iff (cfg : LeaderConfig) (have_ connected : Nat) :
    waitFor cfg have_ connected = some (.ok ()) ↔ cfg.minInSync - 1 ≤ have_ := by
  unfold waitFor
  dsimp only
  split
  · exact ⟨fun _ => by omega, fun _ => rfl⟩
  split
  · exact ⟨fun _ => by assumption, fun _ => rfl⟩
  · refine ⟨fun h => ?_, fun h => by omega⟩
    split at h <;> cases h

def Behind (acked : PartitionAcks) (nextSeq : Nat) : Prop :=
  ∀ (node : NodeID) (v : Nat), acked[node]? = some v → v < nextSeq

instance (acked : PartitionAcks) (nextSeq : Nat) : Decidable (Behind acked nextSeq) :=
  decidable_of_iff (∀ e ∈ acked.toList, e.2 < nextSeq)
    ⟨fun h node v hv => h (node, v) (TreeMap.mem_toList_iff_getElem?_eq_some.mpr hv),
      fun h e he => h e.1 e.2 (TreeMap.mem_toList_iff_getElem?_eq_some.mp he)⟩

theorem Behind.countAtLeast (h : Behind acked nextSeq) : acked.countAtLeast nextSeq = 0 := by
  unfold PartitionAcks.countAtLeast
  rw [length_eq_zero_iff, filter_eq_nil_iff]
  intro e he hle
  have hlt := h e.1 e.2 (TreeMap.mem_toList_iff_getElem?_eq_some.mp he)
  have hge := of_decide_eq_true hle
  omega

def IsLargest (P : Nat → Prop) (n : Nat) : Prop :=
  P n ∧ (∀ m, P m → m ≤ n) ∨ n = 0 ∧ ∀ m, ¬ P m

section
variable {S : Type} [LawfulSegmentStore S] {p : Partition S} {acked : PartitionAcks}

def HeldBy (p : Partition S) (acked : PartitionAcks) (replicas : Int) (seq : Nat) : Prop :=
  (∃ r ∈ p.records, r.seq = seq) ∧ replicas ≤ acked.countAtLeast seq + 1

theorem retained_iff (h : p.WellFormed) (seq : Nat) :
    (∃ r ∈ p.records, r.seq = seq) ↔ p.firstSeq ≤ seq ∧ seq < p.nextSeq := by
  constructor
  · rintro ⟨r, hr, rfl⟩
    exact h.seq_range hr
  · rintro ⟨hf, hn⟩
    exact h.record_at hf hn

theorem quorumPosition_lt (h : p.WellFormed) (hb : Behind acked p.nextSeq) (hmin : 2 ≤ minInSync) :
    quorumPosition p.nextSeq acked minInSync < p.nextSeq := by
  by_contra hge
  have hq := (le_quorumPosition_iff _ hmin h.next_pos (Nat.le_refl _)).mp (Nat.le_of_not_lt hge)
  rw [hb.countAtLeast] at hq
  omega

theorem isLargest_quorumPosition_iff (h : p.WellFormed) (hb : Behind acked p.nextSeq)
    (hmin : 2 ≤ minInSync) :
    IsLargest (HeldBy p acked minInSync) (quorumPosition p.nextSeq acked minInSync) ↔
      (acked.countAtLeast 1 < minInSync - 1 ∨ minInSync - 1 ≤ acked.countAtLeast p.firstSeq) := by
  have hpos := h.first_pos
  have hfirst : p.firstSeq ≤ p.nextSeq := h.covers.le
  have hlt := quorumPosition_lt h hb hmin
  have hone := le_quorumPosition_iff acked hmin Nat.one_pos h.next_pos
  have hold := le_quorumPosition_iff acked hmin hpos hfirst
  have hheld : ∀ seq, HeldBy p acked minInSync seq ↔ p.firstSeq ≤ seq ∧ seq < p.nextSeq ∧
      seq ≤ quorumPosition p.nextSeq acked minInSync := by
    intro seq
    unfold HeldBy
    rw [retained_iff h, and_assoc]
    refine and_congr_right (fun hf => and_congr_right (fun hn => ?_))
    rw [le_quorumPosition_iff _ hmin (by omega) (Nat.le_of_lt hn)]
    omega
  constructor
  · rintro (⟨hp, _⟩ | ⟨hzero, _⟩)
    · exact .inr (hold.mp ((hheld _).mp hp).1)
    left
    have hnone : ¬ 1 ≤ quorumPosition p.nextSeq acked minInSync := by omega
    rw [hone] at hnone
    omega
  · rintro (hnone | hsome)
    · right
      have hzero : quorumPosition p.nextSeq acked minInSync = 0 := by
        have hn : ¬ 1 ≤ quorumPosition p.nextSeq acked minInSync := by
          rw [hone]
          omega
        omega
      refine ⟨hzero, fun m hm => ?_⟩
      have := (hheld m).mp hm
      omega
    · left
      exact ⟨(hheld _).mpr ⟨hold.mpr hsome, hlt, Nat.le_refl _⟩, fun m hm => ((hheld m).mp hm).2.2⟩

/-- The watermark says of every record whether a wait for it would end at once. It is
the largest record that a quorum has exactly when there are followers to wait for, and
either too few of them have any record or enough have one the leader retains. -/
theorem watermark_is_quorum_iff {topic : String} {id : Int} {pcfg : PartitionConfig}
    {p₀ : Partition S} {ops : List Op} (ho : Partition.openPartition topic id ⟨[], []⟩ pcfg = .ok p₀)
    (hr : Run Partition.Succeeds Partition.Storable p₀ ops p) {log : TopicLog S} {k : PartitionRef}
    (hp : log.partitionFor k.topic k.partition = some p) (l : Leader)
    (hb : Behind (l.acked k) p.nextSeq) {cfg : LeaderConfig} (hmin : 1 ≤ cfg.minInSync) :
    (∀ r ∈ p.records, ∀ connected, r.seq ≤ (l.replication cfg log k).highWatermark ↔
        waitFor cfg ((l.acked k).countAtLeast r.seq) connected = some (.ok ())) ∧
    (IsLargest (HeldBy p (l.acked k) cfg.minInSync) (l.replication cfg log k).highWatermark ↔
      2 ≤ cfg.minInSync ∧ ((l.acked k).countAtLeast 1 < cfg.minInSync - 1 ∨
        cfg.minInSync - 1 ≤ (l.acked k).countAtLeast p.firstSeq)) := by
  have hopen : p.Open := hr.invariant Partition.Open (Partition.Open.fresh topic id pcfg ho).1
    (fun _ _ _ h hst hs => (h.refines hst hs).1)
  have hw := hopen.wf
  have hmark : (l.replication cfg log k).highWatermark =
      quorumPosition p.nextSeq (l.acked k) cfg.minInSync := by
    simp only [Leader.replication, hp, Option.elim_some]
  rw [hmark]
  by_cases htwo : 2 ≤ cfg.minInSync
  · refine ⟨fun rec hrec connected => ?_, ?_⟩
    · obtain ⟨hf, hn⟩ := hw.seq_range hrec
      have hpos := hw.first_pos
      rw [waitFor_ok_iff]
      exact le_quorumPosition_iff _ htwo (by omega) (Nat.le_of_lt hn)
    · rw [isLargest_quorumPosition_iff hw hb htwo]
      exact ⟨fun h => ⟨htwo, h⟩, And.right⟩
  · have hlead : quorumPosition p.nextSeq (l.acked k) cfg.minInSync = p.nextSeq :=
      if_pos (by omega)
    rw [hlead]
    refine ⟨fun rec hrec connected => ?_, ⟨fun h => ?_, fun h => absurd h.1 htwo⟩⟩
    · rw [waitFor_ok_iff]
      have := (hw.seq_range hrec).2
      exact ⟨fun _ => by omega, fun _ => by omega⟩
    · have hnext := hw.next_pos
      rcases h with ⟨⟨hrec, _⟩, _⟩ | ⟨hzero, _⟩
      · have := ((retained_iff hw _).mp hrec).2
        omega
      · omega

end

theorem oneTopic_partition (p : Partition FileSegment) :
    (oneTopic p).partitionFor "chat" 0 = some p := by
  rw [TopicLog.partitionFor, oneTopic_topics]
  rfl

def oneAck : Leader := Leader.new.record "b" ⟨"chat", 0⟩ 1

theorem watermark_of_one_ack :
    ∃ p, Run Partition.Succeeds Partition.Storable Partition.freshFiles Partition.threeAppends p ∧
      IsLargest (HeldBy p (oneAck.acked ⟨"chat", 0⟩) 2)
        (oneAck.replication { minInSync := 2 } (oneTopic p) ⟨"chat", 0⟩).highWatermark := by
  obtain ⟨p, hp, hnext, hfirst⟩ := Run.executed Partition.Storable Partition.exec
    Partition.freshFiles Partition.threeAppends
    (fun p : Partition FileSegment => p.nextSeq = 3 ∧ p.firstSeq = 1) (by decide +kernel)
  have hb : Behind (oneAck.acked ⟨"chat", 0⟩) p.nextSeq := by
    rw [hnext]
    decide +kernel
  refine ⟨p, hp, (watermark_is_quorum_iff (Partition.open_fresh "chat" 0 Partition.smallSegments) hp
    (oneTopic_partition p) oneAck hb (by decide)).2.mpr ⟨by decide, .inr ?_⟩⟩
  rw [hfirst]
  decide +kernel

def keepNewest : PartitionConfig := { Partition.smallSegments with retentionBytes := 1 }

/-- A leader that waits for nobody reports the position after its last record; and one
whose retention has passed what its follower has reports a record it no longer has. -/
theorem watermark_names_no_record : (∃ p : Partition FileSegment,
      Run Partition.Succeeds Partition.Storable Partition.freshFiles Partition.threeAppends p ∧
      (∀ r ∈ p.records, r.seq ≤ 2) ∧
      (Leader.new.replication { minInSync := 1 } (oneTopic p) ⟨"chat", 0⟩).highWatermark = 3) ∧
    ∃ p : Partition FileSegment, Run Partition.Succeeds Partition.Storable
        (.fresh "chat" 0 keepNewest.applyDefaults ⟨[]⟩)
        [.append (.ofPayload [1]) 5, .append (.ofPayload [2]) 6, .enforceRetention 7] p ∧
      Behind (oneAck.acked ⟨"chat", 0⟩) p.nextSeq ∧ (∀ r ∈ p.records, 2 ≤ r.seq) ∧
      (oneAck.replication { minInSync := 2 } (oneTopic p) ⟨"chat", 0⟩).highWatermark = 1 := by
  constructor
  · exact Run.found _ (by decide +kernel)
  · exact Run.found _ (by decide +kernel)

end Boltq.Replication
