import Boltq.Lib.Tables
import Boltq.Cluster.Metadata

namespace Boltq.Replication
open Lib Cluster Std

structure LeaderConfig where
  minInSync : Int := 0
  maxLagInSync : Nat := 0
  batchRecords : Int := 0
  deriving DecidableEq

def LeaderConfig.applyDefaults (c : LeaderConfig) : LeaderConfig where
  minInSync := if c.minInSync ≤ 0 then 1 else c.minInSync
  maxLagInSync := if c.maxLagInSync = 0 then 10000 else c.maxLagInSync
  batchRecords := if c.batchRecords ≤ 0 then 256 else c.batchRecords

abbrev PartitionAcks := TreeMap NodeID Nat

namespace PartitionAcks

def record (acked : PartitionAcks) (node : NodeID) (seq : Nat) : PartitionAcks :=
  match acked[node]? with
  | none => acked.insert node seq
  | some cur => if seq > cur then acked.insert node seq else acked

def drop (acked : PartitionAcks) (node : NodeID) : PartitionAcks := acked.erase node

def countAtLeast (acked : PartitionAcks) (seq : Nat) : Nat :=
  (acked.toList.filter (fun e => seq ≤ e.2)).length

theorem record_self (acked : PartitionAcks) (node : NodeID) (seq : Nat) :
    (acked.record node seq)[node]? = some (max (acked[node]?.getD seq) seq) := by
  unfold record
  cases h : acked[node]? with
  | none => simp
  | some cur =>
    dsimp only
    split
    · rw [TreeMap.getElem?_insert_self, Option.getD_some]
      congr 1
      omega
    · rw [h, Option.getD_some]
      congr 1
      omega

theorem record_other (acked : PartitionAcks) (seq : Nat) (h : other ≠ node) :
    (acked.record node seq)[other]? = acked[other]? := by
  unfold record
  split
  · exact getElem?_insert_other _ h
  split
  · exact getElem?_insert_other _ h
  · rfl

theorem record_mono (acked : PartitionAcks) (node other : NodeID) (seq : Nat)
    (h : acked[other]? = some v) : ∃ w, (acked.record node seq)[other]? = some w ∧ v ≤ w := by
  by_cases he : other = node
  · subst he
    exact ⟨_, record_self acked other seq, by simp only [h, Option.getD_some]; omega⟩
  · exact ⟨v, (record_other acked seq he).trans h, Nat.le_refl v⟩

end PartitionAcks

inductive WaitErr where
  | notEnoughReplicas (need : Int) (connected : Nat)
  | ackTimeout (k : PartitionRef) (seq have_ : Nat) (need : Int)
  deriving DecidableEq

def waitFor (cfg : LeaderConfig) (have_ connected : Nat) : Option (Except WaitErr Unit) :=
  let needFollowers := cfg.minInSync - 1
  if needFollowers ≤ 0 then some (.ok ())
  else if have_ ≥ needFollowers then some (.ok ())
  else if connected < needFollowers then
    some (.error (.notEnoughReplicas needFollowers connected))
  else none

theorem waitFor_fails (h : waitFor cfg have_ connected = some (.error e)) :
    (connected : Int) < cfg.minInSync - 1 := by
  simp only [waitFor] at h
  split at h
  · cases h
  split at h
  · cases h
  split at h
  · assumption
  · cases h

def inSyncReplicas (cfg : LeaderConfig) (nextSeq : Nat) (acked : PartitionAcks) : List NodeID :=
  (acked.toList.filter (fun e => nextSeq - e.2 ≤ cfg.maxLagInSync)).map Prod.fst

structure Leader where
  cursors : TreeMap PartitionRef PartitionAcks PartitionRef.cmp
  followers : TreeMap NodeID Int

namespace Leader

def new : Leader := ⟨∅, ∅⟩

def acked (l : Leader) (k : PartitionRef) : PartitionAcks := l.cursors[k]?.getD ∅

def acksFor (l : Leader) (k : PartitionRef) : Leader :=
  { l with cursors := l.cursors.insert k (l.acked k) }

def record (l : Leader) (node : NodeID) (k : PartitionRef) (seq : Nat) : Leader :=
  { l with cursors := l.cursors.insert k ((l.acked k).record node seq) }

def connect (l : Leader) (node : NodeID) (now : Int) : Leader :=
  { l with followers := l.followers.insert node now }

def disconnect (l : Leader) (node : NodeID) : Leader × List PartitionRef :=
  ({ l with followers := l.followers.erase node }, l.cursors.keys)

def drop (l : Leader) (node : NodeID) (k : PartitionRef) : Leader :=
  { l with cursors := l.cursors.modify k (fun acked => acked.drop node) }

theorem acksFor_acked (l : Leader) (k k' : PartitionRef) : (l.acksFor k).acked k' = l.acked k' := by
  by_cases he : k' = k
  · subst he
    simp [acksFor, acked]
  · rw [acked, acksFor, getElem?_insert_other _ he, acked]

theorem record_acked (l : Leader) (node : NodeID) (k k' : PartitionRef) (seq : Nat) :
    (l.record node k seq).acked k' =
      if k' = k then (l.acked k).record node seq else l.acked k' := by
  by_cases he : k' = k
  · subst he
    simp [record, acked]
  · rw [if_neg he, acked, record, getElem?_insert_other _ he, acked]

theorem drop_acked (l : Leader) (node other : NodeID) (k k' : PartitionRef)
    (h : k' = k → other ≠ node) : ((l.drop node k).acked k')[other]? = (l.acked k')[other]? := by
  simp only [acked, drop, TreeMap.getElem?_modify, PartitionRef.cmp_eq]
  split
  · rename_i he
    subst he
    cases l.cursors[k]? with
    | none => rfl
    | some acks => exact getElem?_erase_other (h rfl)
  · rfl

end Leader
end Boltq.Replication
