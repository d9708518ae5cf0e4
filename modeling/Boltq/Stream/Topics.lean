import Boltq.Lib.Tables
import Boltq.Stream.Log
import Boltq.Stream.Leadership

namespace Boltq.Stream
open Lib Std

def fnv1a64 (key : Bytes) : UInt64 :=
  key.foldl (fun h b => (h ^^^ b.toUInt64) * 0x100000001b3) 0xcbf29ce484222325

def partitionForKey (count : Nat) (key : Bytes) : Nat :=
  if key = [] ∨ count = 1 then 0 else (fnv1a64 key).toNat % count

def nameBytes (name : String) : Bytes := name.toUTF8.data.toList

structure TopicLog (S : Type) where
  topics : TreeMap String (List (Partition S))
  defaultPartitions : Nat
  partition : PartitionConfig
  closed : Bool
  enforceLeadership : Bool
  leaderEpoch : Nat

namespace TopicLog
variable {S : Type} [SegmentStore S]

section
variable (l : TopicLog S)

def newPartition (name : String) (cfg : PartitionConfig) (id : Nat) : Partition S :=
  let p : Partition S := { Partition.fresh name id cfg.applyDefaults ⟨[]⟩ with
    enforceLeadership := l.enforceLeadership }
  if undefinedEpoch < l.leaderEpoch ∧ l.enforceLeadership = false then
    (p.becomeLeader l.leaderEpoch).1
  else p

def wanted (partitions : Int) : Nat :=
  if partitions ≤ 0 then l.defaultPartitions else partitions.toNat

def createTopic (name : String) (partitions : Int) (cfg : PartitionConfig) :
    TopicLog S × Except LogErr (List (Partition S)) :=
  match validTopicName (nameBytes name) with
  | .error e => (l, .error e)
  | .ok _ =>
    if l.closed then (l, .error .closed)
    else
      match l.topics[name]? with
      | some ps =>
        if ps.length ≠ l.wanted partitions then
          (l, .error (.topicExists (nameBytes name) ps.length (l.wanted partitions)))
        else (l, .ok ps)
      | none =>
        let ps := (List.range (l.wanted partitions)).map (l.newPartition name cfg)
        ({ l with topics := l.topics.insert name ps }, .ok ps)

def getOrCreateTopic (name : String) : TopicLog S × Except LogErr (List (Partition S)) :=
  match l.topics[name]? with
  | some ps => (l, .ok ps)
  | none => l.createTopic name l.defaultPartitions l.partition

def partitionCount (name : String) : Option Nat :=
  (l.topics[name]?).map List.length

def setPartition (name : String) (id : Nat) (p : Partition S) : TopicLog S :=
  { l with topics := l.topics.modify name (fun ps => ps.set id p) }

end

def Learns (l l' : TopicLog S) (name : String) (count : Nat) : Prop :=
  ∀ other, l'.partitionCount other = l.partitionCount other ∨
    other = name ∧ l.partitionCount name = none ∧ l'.partitionCount name = some count

theorem createTopic_learns (l : TopicLog S) (name : String) (partitions : Int)
    (cfg : PartitionConfig) :
    l.Learns (l.createTopic name partitions cfg).1 name (l.wanted partitions) := by
  intro other
  unfold createTopic
  split
  · exact Or.inl rfl
  split
  · exact Or.inl rfl
  cases ht : l.topics[name]? with
  | some ps =>
    dsimp only
    split <;> exact Or.inl rfl
  | none =>
    by_cases he : other = name
    · subst he
      refine Or.inr ⟨rfl, by simp [partitionCount, ht], ?_⟩
      simp [partitionCount]
    · exact Or.inl (by simp only [partitionCount, getElem?_insert_other _ he])

theorem getOrCreateTopic_learns (l : TopicLog S) (name : String) :
    l.Learns (l.getOrCreateTopic name).1 name l.defaultPartitions := by
  unfold getOrCreateTopic
  split
  · exact fun _ => Or.inl rfl
  have hw : l.wanted l.defaultPartitions = l.defaultPartitions := by
    unfold wanted
    split <;> simp
  simpa only [hw] using l.createTopic_learns name l.defaultPartitions l.partition

end TopicLog

structure AppendResult where
  topic : String
  partition : Int
  seq : Nat
  timestamp : Int
  deriving DecidableEq

inductive AppendErr where
  | log (e : LogErr)
  | noSuchPartition (topic : String) (id : Nat)
  | partition (e : Err)
  deriving DecidableEq

def TopicLog.appendLocal {S : Type} [SegmentStore S] (l : TopicLog S) (topic : String)
    (rec : Record) (now : Int) : TopicLog S × Nat × Except AppendErr AppendResult :=
  match l.getOrCreateTopic topic with
  | (l, .error e) => (l, 0, .error (.log e))
  | (l, .ok ps) =>
    let pid := partitionForKey ps.length rec.key
    match ps[pid]? with
    | none => (l, pid, .error (.noSuchPartition topic pid))
    | some p =>
      match p.append rec now with
      | (q, .error e) => (l.setPartition topic pid q, pid, .error (.partition e))
      | (q, .ok seq) => (l.setPartition topic pid q, pid,
          .ok ⟨topic, pid, seq, (p.stamp rec now).timestamp⟩)

theorem TopicLog.appendLocal_partition [SegmentStore S] {l l' : TopicLog S} {topic : String}
    {rec : Record} {now : Int} {pid : Nat} {res : AppendResult}
    (h : l.appendLocal topic rec now = (l', pid, .ok res)) : res.partition = pid := by
  unfold appendLocal at h
  split at h
  · cases h
  dsimp only at h
  split at h
  · cases h
  · split at h <;> cases h
    rfl

inductive TopicErr where
  | epochZero
  | closed
  | noSuchTopic (topic : String)
  | noSuchPartition (topic : String) (id : Int)
  | lead (e : LeadErr)
  | create (topic : String) (e : LogErr)
  | partition (e : Err)
  deriving DecidableEq

def partitionAt {S : Type} (ps : List (Partition S)) (id : Int) : Option (Partition S) :=
  if id < 0 then none else ps[id.toNat]?

namespace TopicLog

def partitionFor {S : Type} (l : TopicLog S) (topic : String) (id : Int) : Option (Partition S) :=
  (l.topics[topic]?).bind (fun ps => partitionAt ps id)

theorem Learns.after {l l'' : TopicLog S} (h : l.Learns l' name count)
    (hs : ∀ other, l''.partitionCount other = l'.partitionCount other) :
    l.Learns l'' name count := by
  intro other
  simpa only [hs] using h other

theorem setPartition_count (l : TopicLog S) (name other : String) (id : Nat) (p : Partition S) :
    (l.setPartition name id p).partitionCount other = l.partitionCount other := by
  simp only [partitionCount, setPartition, TreeMap.getElem?_modify]
  split
  · rename_i he
    cases Std.compare_eq_iff_eq.mp he
    cases l.topics[name]? <;> simp
  · rfl

variable {S : Type} [SegmentStore S]

def becomeLeaderFor (l : TopicLog S) (topic : String) (id : Int) (epoch : Nat) :
    TopicLog S × Except TopicErr Unit :=
  if epoch = undefinedEpoch then (l, .error .epochZero)
  else if l.closed then (l, .error .closed)
  else
    match l.topics[topic]? with
    | none => (l, .error (.noSuchTopic topic))
    | some ps =>
      match partitionAt ps id with
      | none => (l, .error (.noSuchPartition topic id))
      | some p =>
        match p.becomeLeaderFor epoch with
        | (q, .error e) => (l.setPartition topic id.toNat q, .error (.lead e))
        | (q, .ok _) => ({ l.setPartition topic id.toNat q with
            leaderEpoch := if p.leaderEpoch.1 < epoch then max l.leaderEpoch epoch
              else l.leaderEpoch }, .ok ())

section
variable (l : TopicLog S)

def ensureTopic (name : String) (partitions : Int) :
    TopicLog S × Except LogErr (List (Partition S)) :=
  match l.topics[name]? with
  | some ps => (l, .ok ps)
  | none => l.createTopic name partitions defaultPartitionConfig

def applyReplicated (topic : String) (partitionCount id : Int) (rec : Record) :
    TopicLog S × Except TopicErr Unit :=
  match l.ensureTopic topic partitionCount with
  | (l, .error e) => (l, .error (.create topic e))
  | (l, .ok ps) =>
    match partitionAt ps id with
    | none => (l, .error (.noSuchPartition topic id))
    | some p =>
      match p.appendReplicated rec with
      | (q, .error e) => (l.setPartition topic id.toNat q, .error (.partition e))
      | (q, .ok _) => (l.setPartition topic id.toNat q, .ok ())

theorem becomeLeaderFor_count (topic : String) (id : Int) (epoch : Nat) (other : String) :
    (l.becomeLeaderFor topic id epoch).1.partitionCount other = l.partitionCount other := by
  unfold becomeLeaderFor
  split
  · rfl
  split
  · rfl
  split
  · rfl
  split
  · rfl
  · split <;> exact l.setPartition_count topic other _ _

theorem ensureTopic_learns (name : String) (partitions : Int) :
    l.Learns (l.ensureTopic name partitions).1 name (l.wanted partitions) := by
  unfold ensureTopic
  split
  · exact fun _ => Or.inl rfl
  · exact l.createTopic_learns name partitions defaultPartitionConfig

theorem appendLocal_learns (topic : String) (rec : Record) (now : Int) :
    l.Learns (l.appendLocal topic rec now).1 topic l.defaultPartitions := by
  apply (l.getOrCreateTopic_learns topic).after
  intro other
  unfold appendLocal
  split
  · rename_i hf
    rw [hf]
  rename_i hf
  rw [hf]
  dsimp only
  split
  · rfl
  · split <;> exact setPartition_count _ topic other _ _

theorem applyReplicated_learns (topic : String) (count id : Int) (rec : Record) :
    l.Learns (l.applyReplicated topic count id rec).1 topic (l.wanted count) := by
  apply (l.ensureTopic_learns topic count).after
  intro other
  unfold applyReplicated
  split
  · rename_i hf
    rw [hf]
  rename_i hf
  rw [hf]
  split
  · rfl
  · split <;> exact setPartition_count _ topic other _ _

end

end TopicLog

def oneTopic {S : Type} (p : Partition S) : TopicLog S where
  topics := (∅ : TreeMap String (List (Partition S))).insert "chat" [p]
  defaultPartitions := 1
  partition := defaultPartitionConfig
  closed := false
  enforceLeadership := false
  leaderEpoch := 0

theorem oneTopic_topics (p : Partition S) : (oneTopic p).topics["chat"]? = some [p] := by
  unfold oneTopic
  dsimp only
  rw [TreeMap.getElem?_insert_self]

end Boltq.Stream
