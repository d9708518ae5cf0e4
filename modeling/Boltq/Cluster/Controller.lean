import Boltq.Cluster.Metadata

namespace Boltq.Cluster
open Std

structure ControllerConfig where
  preferredLeaderRebalance : Bool
  allowUncleanElection : Bool
  deriving DecidableEq

def eligible (a : PartitionAssignment) (live : List NodeID) (id : NodeID) : Bool :=
  decide (id ∈ live) && a.inISR id

theorem eligible_iff {a : PartitionAssignment} {live : List NodeID} {id : NodeID} :
    eligible a live id = true ↔ id ∈ live ∧ id ∈ a.isr := by
  simp [eligible, PartitionAssignment.inISR]

def preferred (cfg : ControllerConfig) (a : PartitionAssignment) (live : List NodeID) :
    Option NodeID :=
  a.replicas.head?.filter (fun id => cfg.preferredLeaderRebalance && eligible a live id)

theorem preferred_eligible {cfg : ControllerConfig} {a : PartitionAssignment} {live : List NodeID}
    {id : NodeID} (h : preferred cfg a live = some id) :
    id ∈ a.replicas ∧ eligible a live id = true := by
  obtain ⟨hhead, hid⟩ := Option.filter_eq_some_iff.mp h
  rw [Bool.and_eq_true] at hid
  exact ⟨List.mem_of_head? hhead, hid.2⟩

def electLeader (cfg : ControllerConfig) (a : PartitionAssignment) (live : List NodeID) :
    NodeID × String :=
  if a.leader ≠ "" ∧ eligible a live a.leader = true then
    match preferred cfg a live with
    | some id =>
      if id ≠ a.leader then (id, "preferred leader healthy") else (a.leader, "unchanged")
    | none => (a.leader, "unchanged")
  else
    match preferred cfg a live with
    | some id => (id, "preferred leader")
    | none =>
      match a.replicas.find? (eligible a live) with
      | some id => (id, "first in-sync replica")
      | none =>
        match if cfg.allowUncleanElection then a.replicas.find? (fun id => id ∈ live) else none with
        | some id => (id, "UNCLEAN election — acknowledged records may be lost")
        | none => ("", "no in-sync replica is live")

theorem electLeader_clean {cfg : ControllerConfig} (hc : cfg.allowUncleanElection = false)
    (a : PartitionAssignment) (live : List NodeID) :
    eligible a live (electLeader cfg a live).1 = true ∨
    (electLeader cfg a live).1 = "" ∧ (∀ id ∈ a.replicas, eligible a live id = false) ∧
      (a.leader ≠ "" → eligible a live a.leader = false) := by
  unfold electLeader
  split
  · rename_i hkeep
    left
    split
    · rename_i id hp
      split
      · exact (preferred_eligible hp).2
      · exact hkeep.2
    · exact hkeep.2
  · rename_i hlead
    split
    · rename_i id hp
      exact Or.inl (preferred_eligible hp).2
    split
    · rename_i id hf
      exact Or.inl (List.find?_some hf)
    rename_i hnone
    right
    rw [hc]
    refine ⟨rfl, ?_, ?_⟩
    · intro id hid
      simpa using List.find?_eq_none.mp hnone id hid
    · intro hne
      simpa [hne] using hlead

def nextEpoch (a : PartitionAssignment) : Nat := (a.leaderEpoch + 1) % 2 ^ 32

def repairLeadership (cfg : ControllerConfig) (live : List NodeID) (m : MetadataStore) :
    List MetaCommand :=
  m.assignments.filterMap (fun (k, a) =>
    let next := (electLeader cfg a live).1
    if next = a.leader then none else some (.assignLeader k next (nextEpoch a) none))

theorem mem_repairLeadership : cmd ∈ repairLeadership cfg live m ↔ ∃ k a, m.assignment k = some a ∧
      (electLeader cfg a live).1 ≠ a.leader ∧
      cmd = .assignLeader k (electLeader cfg a live).1 (nextEpoch a) none := by
  simp only [repairLeadership, List.mem_filterMap, Prod.exists, MetadataStore.mem_assignments]
  constructor
  · rintro ⟨k, a, ha, hcmd⟩
    split at hcmd
    · cases hcmd
    · rename_i hne
      exact ⟨k, a, ha, hne, (Option.some.inj hcmd).symm⟩
  · rintro ⟨k, a, ha, hne, rfl⟩
    exact ⟨k, a, ha, by rw [if_neg hne]⟩

def sweepLiveness (m : MetadataStore) (alive known : NodeID → Bool) (inGrace : Bool) (now : Int) :
    List MetaCommand :=
  m.brokers.toList.filterMap (fun (id, b) =>
    if alive id && b.fenced then some (.fenceBroker id false now)
    else if !alive id && !b.fenced && !(inGrace && !known id) then some (.fenceBroker id true now)
    else none)

namespace MetadataStore

def commitAll (m : MetadataStore) (cmds : List MetaCommand) : Except MetaErr MetadataStore :=
  cmds.foldlM applyMetaCommand m

end MetadataStore
end Boltq.Cluster
