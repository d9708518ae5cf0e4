import Mathlib

namespace Boltq.Cluster
open Std TreeMap

abbrev NodeID := String

structure PartitionRef where
  topic : String
  partition : Int
  deriving DecidableEq

def PartitionRef.cmp : PartitionRef → PartitionRef → Ordering :=
  compareLex (compareOn PartitionRef.topic) (compareOn PartitionRef.partition)

instance : TransCmp PartitionRef.cmp := inferInstanceAs (TransCmp (compareLex _ _))

theorem PartitionRef.cmp_eq : PartitionRef.cmp a b = .eq ↔ a = b := by
  obtain ⟨t, p⟩ := a
  obtain ⟨u, q⟩ := b
  simp [PartitionRef.cmp, compareLex_eq_eq, compareOn]

instance : LawfulEqCmp PartitionRef.cmp where
  eq_of_compare h := PartitionRef.cmp_eq.mp h

structure BrokerInfo where
  raftAddr : String := ""
  streamAddr : String := ""
  gatewayAddr : String := ""
  adminAddr : String := ""
  rack : String := ""
  session : Nat := 0
  fenced : Bool := false
  registeredAt : Int := 0
  fencedAt : Int := 0
  deriving DecidableEq

def BrokerInfo.live (b : BrokerInfo) : Bool := !b.fenced

structure PartitionAssignment where
  leader : NodeID := ""
  leaderEpoch : Nat := 0
  replicas : List NodeID
  isr : List NodeID
  version : Nat
  deriving DecidableEq

structure TopicMeta where
  partitions : Int
  replicationFactor : Int
  minInSync : Int
  deriving DecidableEq

inductive MetaErr where
  | noSuchBroker
  | noSuchPartition
  | topicExists (name : String)
  | placementCount (name : String) (partitions : Int) (placements : Nat)
  | epochNotNewer (epoch : Nat) (k : PartitionRef) (current : Nat)
  | isrEpoch (k : PartitionRef) (epoch current : Nat)
  | notReplica (id : NodeID) (k : PartitionRef)
  deriving DecidableEq

abbrev Assignments := TreeMap PartitionRef PartitionAssignment PartitionRef.cmp

namespace PartitionAssignment

def isLeader (a : PartitionAssignment) (id : NodeID) : Bool :=
  decide (a.leader ≠ "" ∧ a.leader = id)

def inISR (a : PartitionAssignment) (id : NodeID) : Bool := decide (id ∈ a.isr)

def placed (replicas : List NodeID) : PartitionAssignment where
  replicas := replicas
  isr := replicas
  version := 1

def shrinkISR (id : NodeID) (a : PartitionAssignment) : PartitionAssignment :=
  if a.inISR id then { a with isr := a.isr.filter (fun x => x ≠ id), version := a.version + 1 }
  else a

def assign (leader : NodeID) (epoch : Nat) (isr : Option (List NodeID)) (a : PartitionAssignment) :
    PartitionAssignment :=
  { a with leader, leaderEpoch := epoch, isr := isr.getD a.isr, version := a.version + 1 }

def cleanISR (replicas : List NodeID) : List NodeID → List NodeID → Except NodeID (List NodeID)
  | [], clean => .ok clean
  | id :: isr, clean =>
    if id ∈ clean then cleanISR replicas isr clean
    else if id ∈ replicas then cleanISR replicas isr (clean ++ [id])
    else .error id

def withISR (clean : List NodeID) (a : PartitionAssignment) : PartitionAssignment :=
  { a with
    isr := if a.leader ≠ "" ∧ a.leader ∉ clean then a.leader :: clean else clean
    version := a.version + 1 }

def reassign (replicas : List NodeID) (a : PartitionAssignment) : PartitionAssignment :=
  { a with
    replicas
    isr := a.isr.filter (fun id => id ∈ replicas)
    version := a.version + 1 }

end PartitionAssignment

structure MetadataStore where
  brokers : TreeMap NodeID BrokerInfo
  topics : TreeMap String TopicMeta
  partitions : Assignments
  version : Nat
  known : ∀ k ∈ partitions, k.topic ∈ topics

namespace MetadataStore

def empty : MetadataStore := ⟨∅, ∅, ∅, 0, by simp⟩

section
variable (m : MetadataStore)

def broker (id : NodeID) : Option BrokerInfo := m.brokers[id]?

def liveBrokers : List NodeID :=
  (m.brokers.toList.filter (fun b => b.2.live)).map Prod.fst

def assignment (k : PartitionRef) : Option PartitionAssignment :=
  m.partitions[k]?

def assignments : List (PartitionRef × PartitionAssignment) :=
  m.partitions.toList

def ledBy (id : NodeID) : List (PartitionRef × PartitionAssignment) :=
  m.assignments.filter (fun a => a.2.isLeader id)

def replicatedBy (id : NodeID) : List (PartitionRef × PartitionAssignment) :=
  m.assignments.filter (fun a => !a.2.isLeader id && decide (id ∈ a.2.replicas))

def topic (name : String) : Option TopicMeta := m.topics[name]?

end

theorem mem_assignments {m : MetadataStore} : (k, a) ∈ m.assignments ↔ m.assignment k = some a :=
  mem_toList_iff_getElem?_eq_some

theorem mem_liveBrokers {m : MetadataStore} {id : NodeID} :
    id ∈ m.liveBrokers ↔ ∃ b, m.broker id = some b ∧ b.live = true := by
  simp only [liveBrokers, broker, List.mem_map, List.mem_filter, Prod.exists, exists_and_right,
    exists_eq_right, mem_toList_iff_getElem?_eq_some]

section
variable (m : MetadataStore)

def applyRegisterBroker (id : NodeID) (b : BrokerInfo) : MetadataStore × BrokerInfo :=
  let session := match m.brokers[id]? with
    | some prev => prev.session + 1
    | none => if b.session = 0 then 1 else b.session
  let b := { b with session, fenced := false, fencedAt := 0 }
  ({ m with brokers := m.brokers.insert id b, version := m.version + 1 }, b)

def mapAssignments (f : PartitionAssignment → PartitionAssignment) : MetadataStore :=
  { m with
    partitions := m.partitions.map (fun _ => f)
    known := fun k hk => m.known k (TreeMap.mem_map.mp hk) }

def modifyAssignment (k : PartitionRef)
    (f : PartitionAssignment → PartitionAssignment) : MetadataStore :=
  { m with
    partitions := m.partitions.modify k f
    version := m.version + 1
    known := fun k hk => m.known k (TreeMap.mem_modify.mp hk) }

def applyUnregisterBroker (id : NodeID) : Except MetaErr MetadataStore :=
  if id ∈ m.brokers then
    .ok { m.mapAssignments (.shrinkISR id) with
      brokers := m.brokers.erase id, version := m.version + 1 }
  else .error .noSuchBroker

def applyFenceBroker (id : NodeID) (fenced : Bool) (at_ : Int) :
    Except MetaErr (MetadataStore × Bool) :=
  match m.brokers[id]? with
  | none => .error .noSuchBroker
  | some b =>
    if b.fenced = fenced then .ok (m, false)
    else
      let b := { b with fenced, fencedAt := if fenced then at_ else 0 }
      let m' := if fenced then m.mapAssignments (.shrinkISR id) else m
      .ok ({ m' with brokers := m.brokers.insert id b, version := m.version + 1 }, true)

end

def place (name : String) : Nat → List (List NodeID) → Assignments → Assignments
  | _, [], ps => ps
  | pid, replicas :: rest, ps =>
    place name (pid + 1) rest (ps.insert ⟨name, pid⟩ (.placed replicas))

theorem place_cases (name : String) (pid : Nat) (placements : List (List NodeID)) (ps : Assignments)
    (k : PartitionRef) : (place name pid placements ps)[k]? = ps[k]? ∨
    k.topic = name ∧ ∃ replicas ∈ placements,
      (place name pid placements ps)[k]? = some (.placed replicas) := by
  induction placements generalizing pid ps with
  | nil => exact Or.inl rfl
  | cons replicas rest ih =>
    rw [place]
    rcases ih (pid + 1) (ps.insert ⟨name, pid⟩ (.placed replicas)) with hk | ⟨hn, r, hr, hk⟩
    · rw [hk, getElem?_insert]
      by_cases he : PartitionRef.cmp ⟨name, pid⟩ k = .eq
      · rw [if_pos he]
        refine Or.inr ⟨?_, replicas, List.mem_cons_self, rfl⟩
        rw [← PartitionRef.cmp_eq.mp he]
      · rw [if_neg he]
        exact Or.inl rfl
    · exact Or.inr ⟨hn, r, List.mem_cons_of_mem _ hr, hk⟩

theorem place_known {m : MetadataStore} (name : String) (shape : TopicMeta)
    (placements : List (List NodeID)) :
    ∀ k ∈ place name 0 placements m.partitions, k.topic ∈ m.topics.insert name shape := by
  intro k hk
  rw [mem_insert]
  rcases place_cases name 0 placements m.partitions k with he | ⟨hn, _⟩
  · rw [mem_iff_isSome_getElem?, he, ← mem_iff_isSome_getElem?] at hk
    exact Or.inr (m.known k hk)
  · exact Or.inl (by simp [hn])

section
variable (m : MetadataStore)

def applyCreateTopic (name : String) (shape : TopicMeta)
    (placements : List (List NodeID)) : Except MetaErr MetadataStore :=
  if name ∈ m.topics then .error (.topicExists name)
  else if shape.partitions ≠ placements.length then
    .error (.placementCount name shape.partitions placements.length)
  else .ok { m with
    topics := m.topics.insert name shape
    partitions := place name 0 placements m.partitions
    version := m.version + 1
    known := place_known name shape placements }

def applyAssignLeader (k : PartitionRef) (leader : NodeID) (epoch : Nat)
    (isr : Option (List NodeID)) : Except MetaErr MetadataStore :=
  match m.partitions[k]? with
  | none => .error .noSuchPartition
  | some a =>
    if epoch ≤ a.leaderEpoch then .error (.epochNotNewer epoch k a.leaderEpoch)
    else .ok (m.modifyAssignment k (.assign leader epoch isr))

def applyUpdateISR (k : PartitionRef) (epoch : Nat) (isr : List NodeID) :
    Except MetaErr MetadataStore :=
  match m.partitions[k]? with
  | none => .error .noSuchPartition
  | some a =>
    if epoch ≠ a.leaderEpoch then .error (.isrEpoch k epoch a.leaderEpoch)
    else
      match PartitionAssignment.cleanISR a.replicas isr [] with
      | .error id => .error (.notReplica id k)
      | .ok clean => .ok (m.modifyAssignment k (.withISR clean))

def applyReassign (k : PartitionRef) (replicas : List NodeID) : Except MetaErr MetadataStore :=
  if k ∈ m.partitions then .ok (m.modifyAssignment k (.reassign replicas))
  else .error .noSuchPartition

theorem modifyAssignment_assignment (k k' : PartitionRef)
    (f : PartitionAssignment → PartitionAssignment) : (m.modifyAssignment k f).assignment k' =
      if k = k' then (m.assignment k).map f else m.assignment k' := by
  simp only [assignment, modifyAssignment, getElem?_modify, PartitionRef.cmp_eq]

theorem mapAssignments_assignment (k : PartitionRef)
    (f : PartitionAssignment → PartitionAssignment) :
    (m.mapAssignments f).assignment k = (m.assignment k).map f := by
  simp only [assignment, mapAssignments, getElem?_map]

end

theorem applyAssignLeader_ok {m : MetadataStore}
    (h : m.applyAssignLeader k leader epoch isr = .ok m') :
    ∃ a, m.assignment k = some a ∧ a.leaderEpoch < epoch ∧
      m' = m.modifyAssignment k (.assign leader epoch isr) := by
  unfold applyAssignLeader at h
  cases ha : m.partitions[k]? with
  | none => simp [ha] at h
  | some a =>
    simp only [ha] at h
    split at h
    · cases h
    · simp only [Except.ok.injEq] at h
      exact ⟨a, ha, by omega, h.symm⟩

theorem applyUpdateISR_ok {m : MetadataStore} (h : m.applyUpdateISR k epoch isr = .ok m') :
    ∃ a clean, m.assignment k = some a ∧ epoch = a.leaderEpoch ∧
      PartitionAssignment.cleanISR a.replicas isr [] = .ok clean ∧
      m' = m.modifyAssignment k (.withISR clean) := by
  unfold applyUpdateISR at h
  cases ha : m.partitions[k]? with
  | none => simp [ha] at h
  | some a =>
    simp only [ha] at h
    split at h
    · cases h
    rename_i he
    cases hc : PartitionAssignment.cleanISR a.replicas isr [] with
    | error id => simp [hc] at h
    | ok clean =>
      simp only [hc, Except.ok.injEq] at h
      exact ⟨a, clean, ha, not_not.mp he, hc, h.symm⟩

end MetadataStore

inductive MetaCommand where
  | registerBroker (id : NodeID) (b : BrokerInfo)
  | unregisterBroker (id : NodeID)
  | fenceBroker (id : NodeID) (fenced : Bool) (at_ : Int)
  | createTopic (name : String) (shape : TopicMeta) (placements : List (List NodeID))
  | assignLeader (k : PartitionRef) (leader : NodeID) (epoch : Nat) (isr : Option (List NodeID))
  | updateISR (k : PartitionRef) (epoch : Nat) (isr : List NodeID)
  | reassign (k : PartitionRef) (replicas : List NodeID)
  deriving DecidableEq

def MetaCommand.Changes (cmd : MetaCommand) (k : PartitionRef) (a b : PartitionAssignment) : Prop :=
  match cmd with
  | .registerBroker _ _ | .createTopic _ _ _ => False
  | .unregisterBroker id => b = a.shrinkISR id
  | .fenceBroker id fenced _ => fenced = true ∧ b = a.shrinkISR id
  | .assignLeader k' leader epoch isr =>
      k' = k ∧ a.leaderEpoch < epoch ∧ b = a.assign leader epoch isr
  | .updateISR k' epoch isr => k' = k ∧ epoch = a.leaderEpoch ∧
      ∃ clean, PartitionAssignment.cleanISR a.replicas isr [] = .ok clean ∧ b = a.withISR clean
  | .reassign k' replicas => k' = k ∧ b = a.reassign replicas

def MetaCommand.Places (cmd : MetaCommand) (name : String) (replicas : List NodeID) : Prop :=
  ∃ shape placements, cmd = .createTopic name shape placements ∧ replicas ∈ placements

def PartitionAssignment.Later (a b : PartitionAssignment) : Prop :=
  a.leaderEpoch ≤ b.leaderEpoch ∧ (b.leader ≠ a.leader → a.leaderEpoch < b.leaderEpoch)

theorem PartitionAssignment.Later.refl (a : PartitionAssignment) : a.Later a :=
  ⟨Nat.le_refl _, fun h => absurd rfl h⟩

theorem PartitionAssignment.Later.trans {a : PartitionAssignment} (hab : a.Later b)
    (hbc : b.Later c) : a.Later c := by
  refine ⟨Nat.le_trans hab.1 hbc.1, ?_⟩
  intro hne
  by_cases hb : b.leader = a.leader
  · exact Nat.lt_of_le_of_lt hab.1 (hbc.2 (hb ▸ hne))
  · exact Nat.lt_of_lt_of_le (hab.2 hb) hbc.1

theorem PartitionAssignment.shrinkISR_later (id : NodeID) (a : PartitionAssignment) :
    a.Later (a.shrinkISR id) := by
  unfold PartitionAssignment.shrinkISR
  split
  · exact ⟨Nat.le_refl _, fun h => absurd rfl h⟩
  · exact .refl a

theorem MetaCommand.Changes.later {cmd : MetaCommand} (h : cmd.Changes k a b) : a.Later b := by
  cases cmd with
  | registerBroker | createTopic => exact absurd h id
  | unregisterBroker id =>
    have hb : b = a.shrinkISR id := h
    exact hb ▸ a.shrinkISR_later id
  | fenceBroker id fenced at_ => exact h.2 ▸ a.shrinkISR_later id
  | assignLeader k' leader epoch isr =>
    obtain ⟨_, hlt, rfl⟩ := h
    exact ⟨Nat.le_of_lt hlt, fun _ => hlt⟩
  | updateISR k' epoch isr =>
    obtain ⟨_, _, clean, _, rfl⟩ := h
    exact ⟨Nat.le_refl _, fun h => absurd rfl h⟩
  | reassign k' replicas =>
    obtain ⟨_, rfl⟩ := h
    exact ⟨Nat.le_refl _, fun h => absurd rfl h⟩

namespace MetadataStore

def applyMetaCommand (m : MetadataStore) : MetaCommand → Except MetaErr MetadataStore
  | .registerBroker id b => .ok (m.applyRegisterBroker id b).1
  | .unregisterBroker id => m.applyUnregisterBroker id
  | .fenceBroker id fenced at_ => (m.applyFenceBroker id fenced at_).map Prod.fst
  | .createTopic name shape placements => m.applyCreateTopic name shape placements
  | .assignLeader k leader epoch isr => m.applyAssignLeader k leader epoch isr
  | .updateISR k epoch isr => m.applyUpdateISR k epoch isr
  | .reassign k replicas => m.applyReassign k replicas

def replay (cmds : List MetaCommand) : MetadataStore :=
  cmds.foldl (fun m cmd => (m.applyMetaCommand cmd).toOption.getD m) .empty

def Follows (m m' : MetadataStore) (cmd : MetaCommand) (k : PartitionRef) : Prop :=
  m'.assignment k = m.assignment k ∨
  (m.assignment k = none ∧ k.topic ∉ m.topics ∧
    ∃ replicas, cmd.Places k.topic replicas ∧ m'.assignment k = some (.placed replicas)) ∨
  ∃ a b, m.assignment k = some a ∧ m'.assignment k = some b ∧ cmd.Changes k a b

variable {m m' : MetadataStore} {cmd : MetaCommand}

theorem Follows.later (h : m.Follows m' cmd k) (ha : m.assignment k = some a) :
    ∃ b, m'.assignment k = some b ∧ a.Later b := by
  rcases h with hs | ⟨hn, _⟩ | ⟨a', b, ha', hb, hc⟩
  · exact ⟨a, hs.trans ha, .refl a⟩
  · rw [ha] at hn
    cases hn
  · rw [ha] at ha'
    cases ha'
    exact ⟨b, hb, hc.later⟩

theorem follows_modify (hk : ∀ a, m.assignment k' = some a → k' = k → cmd.Changes k a (f a)) :
    m.Follows (m.modifyAssignment k' f) cmd k := by
  unfold Follows
  rw [modifyAssignment_assignment]
  by_cases he : k' = k
  · subst he
    cases ha : m.assignment k' with
    | none => simp
    | some a => exact Or.inr (Or.inr ⟨a, f a, rfl, by simp, hk a ha rfl⟩)
  · rw [if_neg he]
    exact Or.inl rfl

theorem follows_shrink {k : PartitionRef} {id : NodeID}
    (hs : m'.assignment k = (m.assignment k).map (.shrinkISR id))
    (hk : ∀ a, cmd.Changes k a (a.shrinkISR id)) : m.Follows m' cmd k := by
  unfold Follows
  rw [hs]
  cases m.assignment k with
  | none => exact Or.inl rfl
  | some a => exact Or.inr (Or.inr ⟨a, a.shrinkISR id, rfl, rfl, hk a⟩)

theorem follows_create (h : m.applyCreateTopic name shape placements = .ok m') (k : PartitionRef) :
    m.Follows m' (.createTopic name shape placements) k := by
  unfold applyCreateTopic at h
  split at h
  · cases h
  rename_i hnew
  split at h
  · cases h
  simp only [Except.ok.injEq] at h
  subst h
  rcases place_cases name 0 placements m.partitions k with hk | ⟨rfl, r, hr, hk⟩
  · exact Or.inl hk
  refine Or.inr (Or.inl ⟨?_, hnew, r, ⟨shape, placements, rfl, hr⟩, hk⟩)
  cases ha : m.assignment k with
  | none => rfl
  | some a =>
    have hmem := mem_iff_isSome_getElem?.mpr (Option.isSome_of_eq_some ha)
    exact absurd (m.known k hmem) hnew

theorem applyMetaCommand_follows (h : m.applyMetaCommand cmd = .ok m') (k : PartitionRef) :
    m.Follows m' cmd k := by
  cases cmd with
  | registerBroker id b =>
    simp only [applyMetaCommand, Except.ok.injEq] at h
    subst h
    exact Or.inl rfl
  | unregisterBroker id =>
    simp only [applyMetaCommand, applyUnregisterBroker] at h
    split at h
    · simp only [Except.ok.injEq] at h
      subst h
      exact follows_shrink (mapAssignments_assignment m k _) (fun a => rfl)
    · cases h
  | fenceBroker id fenced at_ =>
    simp only [applyMetaCommand, applyFenceBroker] at h
    cases hb : m.brokers[id]? with
    | none => simp [hb, Except.map] at h
    | some b =>
      simp only [hb] at h
      split at h
      · simp only [Except.map, Except.ok.injEq] at h
        exact Or.inl (h ▸ rfl)
      simp only [Except.map, Except.ok.injEq] at h
      subst h
      cases fenced with
      | false => exact Or.inl rfl
      | true => exact follows_shrink (mapAssignments_assignment m k _) (fun a => ⟨rfl, rfl⟩)
  | createTopic name shape placements => exact follows_create h k
  | assignLeader k' leader epoch isr =>
    obtain ⟨a, ha, hlt, rfl⟩ := applyAssignLeader_ok h
    refine follows_modify ?_
    intro b hb hk
    rw [ha] at hb
    cases hb
    exact ⟨hk, hlt, rfl⟩
  | updateISR k' epoch isr =>
    obtain ⟨a, clean, ha, he, hc, rfl⟩ := applyUpdateISR_ok h
    refine follows_modify ?_
    intro b hb hk
    rw [ha] at hb
    cases hb
    exact ⟨hk, he, clean, hc, rfl⟩
  | reassign k' replicas =>
    simp only [applyMetaCommand, applyReassign] at h
    split at h
    · simp only [Except.ok.injEq] at h
      subst h
      exact follows_modify (fun a _ hk => ⟨hk, rfl⟩)
    · cases h

end MetadataStore
end Boltq.Cluster
