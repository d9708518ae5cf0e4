import Boltq.Lib.Tables
import Boltq.Cluster.Metadata

namespace Boltq.Cluster
open Lib Std

structure MetaPayload where
  broker : Option (NodeID × BrokerInfo) := none
  nodeID : NodeID := ""
  fenced : Bool := false
  timestamp : Int := 0
  topic : String := ""
  partition : Int := 0
  topicMeta : Option (String × TopicMeta) := none
  placements : List (List NodeID) := []
  leader : NodeID := ""
  leaderEpoch : Nat := 0
  isr : Option (List NodeID) := none
  replicas : List NodeID := []

structure RaftCommand where
  type : Nat
  payload : Option MetaPayload

def cmdMetaRegisterBroker : Nat := 32
def cmdMetaUnregisterBroker : Nat := 33
def cmdMetaFenceBroker : Nat := 34
def cmdMetaCreateTopic : Nat := 35
def cmdMetaAssignLeader : Nat := 36
def cmdMetaUpdateISR : Nat := 37
def cmdMetaReassign : Nat := 38

inductive CommandErr where
  | decode
  | notControlPlane (type : Nat)
  | noPayload (type : Nat)
  | noBroker
  | noTopicMeta
  | rejected (e : MetaErr)
  deriving DecidableEq

def RaftCommand.meaning (cmd : RaftCommand) : Except CommandErr MetaCommand :=
  if cmd.type < cmdMetaRegisterBroker ∨ cmdMetaReassign < cmd.type then
    .error (.notControlPlane cmd.type)
  else
    match cmd.payload with
    | none => .error (.noPayload cmd.type)
    | some mc =>
      let k : PartitionRef := ⟨mc.topic, mc.partition⟩
      if cmd.type = cmdMetaRegisterBroker then
        match mc.broker with
        | none => .error .noBroker
        | some (id, b) => .ok (.registerBroker id b)
      else if cmd.type = cmdMetaUnregisterBroker then .ok (.unregisterBroker mc.nodeID)
      else if cmd.type = cmdMetaFenceBroker then
        .ok (.fenceBroker mc.nodeID mc.fenced mc.timestamp)
      else if cmd.type = cmdMetaCreateTopic then
        match mc.topicMeta with
        | none => .error .noTopicMeta
        | some (name, shape) => .ok (.createTopic name shape mc.placements)
      else if cmd.type = cmdMetaAssignLeader then
        .ok (.assignLeader k mc.leader mc.leaderEpoch mc.isr)
      else if cmd.type = cmdMetaUpdateISR then .ok (.updateISR k mc.leaderEpoch (mc.isr.getD []))
      else .ok (.reassign k mc.replicas)

structure ApplyResponse where
  error : Option CommandErr := none
  broker : Option (NodeID × BrokerInfo) := none
  assignment : Option (PartitionRef × PartitionAssignment) := none
  changed : Bool := false

structure MetadataState where
  brokers : List (NodeID × BrokerInfo)
  topics : List (String × TopicMeta)
  partitions : List (PartitionRef × PartitionAssignment)
  version : Nat
  known : ∀ k ∈ (TreeMap.ofList partitions PartitionRef.cmp), k.topic ∈ TreeMap.ofList topics

namespace MetadataStore

def snapshot (m : MetadataStore) : MetadataState where
  brokers := m.brokers.toList
  topics := m.topics.toList
  partitions := m.partitions.toList
  version := m.version
  known k hk := mem_ofList_toList.mpr (m.known k (mem_ofList_toList.mp hk))

def restore (st : MetadataState) : MetadataStore where
  brokers := .ofList st.brokers
  topics := .ofList st.topics
  partitions := .ofList st.partitions PartitionRef.cmp
  version := st.version
  known := st.known

theorem restore_snapshot (m : MetadataStore) :
    (∀ id, (restore m.snapshot).broker id = m.broker id) ∧
    (∀ name, (restore m.snapshot).topic name = m.topic name) ∧
    (∀ k, (restore m.snapshot).assignment k = m.assignment k) ∧
    (restore m.snapshot).version = m.version :=
  ⟨getElem?_ofList_toList _, getElem?_ofList_toList _, getElem?_ofList_toList _, rfl⟩

inductive FsmOp where
  | apply (entry : Option RaftCommand)
  | snapshotRestore

/-- A command that works on the store in place: what it has written stays written when it
returns an error. -/
abbrev Update := ExceptT MetaErr (StateM MetadataStore)

namespace Update

def bump : Update Unit := modify fun m => { m with version := m.version + 1 }

def writeBroker (id : NodeID) (b : BrokerInfo) : Update Unit :=
  modify fun m => { m with brokers := m.brokers.insert id b }

def write (k : PartitionRef) (f : PartitionAssignment → PartitionAssignment) : Update Unit :=
  modify fun m => { m with
    partitions := m.partitions.modify k f
    known := fun k hk => m.known k (TreeMap.mem_modify.mp hk) }

def shrinkISRLocked (id : NodeID) : Update Unit := modify (·.mapAssignments (.shrinkISR id))

def applyRegisterBroker (id : NodeID) (b : BrokerInfo) : Update BrokerInfo := do
  let session := match (← get).brokers[id]? with
    | some prev => prev.session + 1
    | none => if b.session = 0 then 1 else b.session
  let b := { b with session, fenced := false, fencedAt := 0 }
  writeBroker id b
  bump
  return b

def applyUnregisterBroker (id : NodeID) : Update Unit := do
  if id ∉ (← get).brokers then throw .noSuchBroker
  modify fun m => { m with brokers := m.brokers.erase id }
  shrinkISRLocked id
  bump

def applyFenceBroker (id : NodeID) (fenced : Bool) (at_ : Int) : Update Bool := do
  match (← get).brokers[id]? with
  | none => throw .noSuchBroker
  | some b =>
    if b.fenced = fenced then return false
    writeBroker id { b with fenced, fencedAt := if fenced then at_ else 0 }
    if fenced then shrinkISRLocked id
    bump
    return true

def applyCreateTopic (name : String) (shape : TopicMeta) (placements : List (List NodeID)) :
    Update Unit := do
  if name ∈ (← get).topics then throw (.topicExists name)
  if shape.partitions ≠ placements.length then
    throw (.placementCount name shape.partitions placements.length)
  modify fun m => { m with
    topics := m.topics.insert name shape
    partitions := place name 0 placements m.partitions
    known := place_known name shape placements }
  bump

def applyAssignLeader (k : PartitionRef) (leader : NodeID) (epoch : Nat)
    (isr : Option (List NodeID)) : Update Unit := do
  match (← get).partitions[k]? with
  | none => throw .noSuchPartition
  | some a =>
    if epoch ≤ a.leaderEpoch then throw (.epochNotNewer epoch k a.leaderEpoch)
    write k (.assign leader epoch isr)
    bump

def applyUpdateISR (k : PartitionRef) (epoch : Nat) (isr : List NodeID) : Update Unit := do
  match (← get).partitions[k]? with
  | none => throw .noSuchPartition
  | some a =>
    if epoch ≠ a.leaderEpoch then throw (.isrEpoch k epoch a.leaderEpoch)
    match PartitionAssignment.cleanISR a.replicas isr [] with
    | .error id => throw (.notReplica id k)
    | .ok clean =>
      write k (.withISR clean)
      bump

def applyReassign (k : PartitionRef) (replicas : List NodeID) : Update Unit := do
  if k ∉ (← get).partitions then throw .noSuchPartition
  write k (.reassign replicas)
  bump

def applyMetaCommand : MetaCommand → Update ApplyResponse
  | .registerBroker id b => do
    let b ← applyRegisterBroker id b
    return { broker := some (id, b) }
  | .unregisterBroker id => do
    applyUnregisterBroker id
    return {}
  | .fenceBroker id fenced at_ => do
    let changed ← applyFenceBroker id fenced at_
    return { changed }
  | .createTopic name shape placements => do
    applyCreateTopic name shape placements
    return {}
  | .assignLeader k leader epoch isr => do
    applyAssignLeader k leader epoch isr
    return { assignment := ((← get).assignment k).map (k, ·), changed := true }
  | .updateISR k epoch isr => do
    applyUpdateISR k epoch isr
    return { assignment := ((← get).assignment k).map (k, ·), changed := true }
  | .reassign k replicas => do
    applyReassign k replicas
    return {}

theorem get_bind (f : MetadataStore → Update α) (m : MetadataStore) :
    (get >>= f : Update α).run m = (f m).run m := rfl

end Update

def apply (m : MetadataStore) : Option RaftCommand → MetadataStore × ApplyResponse
  | none => (m, { error := some .decode })
  | some cmd =>
    match cmd.meaning with
    | .error e => (m, { error := some e })
    | .ok c =>
      match (Update.applyMetaCommand c).run m with
      | (.error e, m') => (m', { error := some (.rejected e) })
      | (.ok response, m') => (m', response)

def fsmStep (m : MetadataStore) : FsmOp → MetadataStore × Option CommandErr
  | .apply entry => ((m.apply entry).1, (m.apply entry).2.error)
  | .snapshotRestore => (restore m.snapshot, none)

/-- What a command that made `m` into `m'` answers. -/
def reply (m m' : MetadataStore) : MetaCommand → ApplyResponse
  | .registerBroker id b => { broker := some (id, (m.applyRegisterBroker id b).2) }
  | .fenceBroker id fenced _ => { changed := m.brokers[id]?.any (·.fenced ≠ fenced) }
  | .assignLeader k _ _ _ | .updateISR k _ _ =>
    { assignment := (m'.assignment k).map (k, ·), changed := true }
  | .unregisterBroker _ | .createTopic _ _ _ | .reassign _ _ => {}

/-- The handlers check before they write: a command that fails has written nothing. -/
theorem Update.applyMetaCommand_run (m : MetadataStore) (c : MetaCommand) :
    (Update.applyMetaCommand c).run m = match m.applyMetaCommand c with
      | .error e => (.error e, m)
      | .ok m' => (.ok (m.reply m' c), m') := by
  cases c with
  | registerBroker id b => rfl
  | unregisterBroker id =>
    simp only [Update.applyMetaCommand, Update.applyUnregisterBroker, bind_assoc, get_bind,
      MetadataStore.applyMetaCommand, MetadataStore.applyUnregisterBroker]
    by_cases h : id ∈ m.brokers
    · rw [if_neg (not_not.mpr h), if_pos h]
      rfl
    · rw [if_pos h, if_neg h]
      rfl
  | fenceBroker id fenced at_ =>
    simp only [Update.applyMetaCommand, Update.applyFenceBroker, bind_assoc, get_bind,
      MetadataStore.applyMetaCommand, MetadataStore.applyFenceBroker, reply]
    cases m.brokers[id]? with
    | none => rfl
    | some b =>
      by_cases hb : b.fenced = fenced
      · simp only [if_pos hb, Option.any_some, decide_eq_false (not_not.mpr hb)]
        rfl
      · simp only [if_neg hb, Option.any_some, decide_eq_true hb]
        cases fenced <;> rfl
  | createTopic name shape placements =>
    simp only [Update.applyMetaCommand, Update.applyCreateTopic, bind_assoc, get_bind,
      MetadataStore.applyMetaCommand, MetadataStore.applyCreateTopic]
    split_ifs <;> rfl
  | assignLeader k leader epoch isr =>
    simp only [Update.applyMetaCommand, Update.applyAssignLeader, bind_assoc, get_bind,
      MetadataStore.applyMetaCommand, MetadataStore.applyAssignLeader]
    cases m.partitions[k]? with
    | none => rfl
    | some a =>
      dsimp only
      split_ifs <;> rfl
  | updateISR k epoch isr =>
    simp only [Update.applyMetaCommand, Update.applyUpdateISR, bind_assoc, get_bind,
      MetadataStore.applyMetaCommand, MetadataStore.applyUpdateISR]
    cases m.partitions[k]? with
    | none => rfl
    | some a =>
      dsimp only
      split_ifs
      · rfl
      cases PartitionAssignment.cleanISR a.replicas isr [] <;> rfl
  | reassign k replicas =>
    simp only [Update.applyMetaCommand, Update.applyReassign, bind_assoc, get_bind,
      MetadataStore.applyMetaCommand, MetadataStore.applyReassign]
    by_cases h : k ∈ m.partitions
    · rw [if_neg (not_not.mpr h), if_pos h]
      rfl
    · rw [if_pos h, if_neg h]
      rfl

theorem reply_error (m m' : MetadataStore) (c : MetaCommand) : (m.reply m' c).error = none := by
  cases c <;> rfl

theorem apply_command (m : MetadataStore) (hc : RaftCommand.meaning cmd = .ok c) :
    m.apply (some cmd) = match m.applyMetaCommand c with
      | .error e => (m, { error := some (.rejected e) })
      | .ok m' => (m', m.reply m' c) := by
  simp only [apply, hc, Update.applyMetaCommand_run]
  cases m.applyMetaCommand c <;> rfl

def played (m : MetadataStore) (ops : List FsmOp) : MetadataStore :=
  ops.foldl (fun m op => (m.fsmStep op).1) m

theorem played_append (m : MetadataStore) (ops ops' : List FsmOp) :
    m.played (ops ++ ops') = (m.played ops).played ops' := List.foldl_append

theorem fsmStep_error {m : MetadataStore} (h : (m.fsmStep op).2 = some e) :
    (m.fsmStep op).1 = m := by
  cases op with
  | snapshotRestore => cases h
  | apply entry =>
    cases entry with
    | none => rfl
    | some cmd =>
      cases hc : cmd.meaning with
      | error e' => simp only [fsmStep, apply, hc]
      | ok c =>
        simp only [fsmStep, apply_command m hc] at h ⊢
        cases hm : m.applyMetaCommand c with
        | error e' => rfl
        | ok m' => simp [hm, reply_error] at h

theorem fsmStep_later {m : MetadataStore} (op : FsmOp) (ha : m.assignment k = some a) :
    ∃ b, (m.fsmStep op).1.assignment k = some b ∧ a.Later b := by
  cases op with
  | snapshotRestore => exact ⟨a, ((restore_snapshot m).2.2.1 k).trans ha, .refl a⟩
  | apply entry =>
    cases entry with
    | none => exact ⟨a, ha, .refl a⟩
    | some cmd =>
      cases hc : cmd.meaning with
      | error e => simpa only [fsmStep, apply, hc] using ⟨a, ha, .refl a⟩
      | ok c =>
        simp only [fsmStep, apply_command m hc]
        cases hm : m.applyMetaCommand c with
        | error e => exact ⟨a, ha, .refl a⟩
        | ok m' => exact (applyMetaCommand_follows hm k).later ha

theorem played_later {m : MetadataStore} (ops : List FsmOp) (ha : m.assignment k = some a) :
    ∃ b, (m.played ops).assignment k = some b ∧ a.Later b := by
  induction ops generalizing m a with
  | nil => exact ⟨a, ha, .refl a⟩
  | cons op ops ih =>
    obtain ⟨b, hb, hab⟩ := fsmStep_later op ha
    obtain ⟨c, hc, hbc⟩ := ih hb
    exact ⟨c, hc, hab.trans hbc⟩

/-- Whatever is applied, and wherever snapshots are restored in between: from any
state to any later one no epoch goes back, another leader means a newer epoch,
and an operation that returns an error changes nothing. -/
theorem leader_epoch_is_monotone (ops ops' : List FsmOp) :
    (∀ k a, (empty.played ops).assignment k = some a →
      ∃ b, (empty.played (ops ++ ops')).assignment k = some b ∧ a.leaderEpoch ≤ b.leaderEpoch ∧
        (b.leader ≠ "" → b.leader ≠ a.leader → a.leaderEpoch < b.leaderEpoch)) ∧
    ∀ op e, ((empty.played ops).fsmStep op).2 = some e →
      ((empty.played ops).fsmStep op).1 = empty.played ops := by
  refine ⟨?_, fun op e => fsmStep_error⟩
  intro k a ha
  rw [played_append]
  obtain ⟨b, hb, hle, hlt⟩ := played_later ops' ha
  exact ⟨b, hb, hle, fun _ => hlt⟩

end MetadataStore
end Boltq.Cluster
