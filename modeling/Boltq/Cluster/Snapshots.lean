import Boltq.Cluster.Fsm

namespace Boltq.Cluster
open Lib Std

namespace MetadataStore

def applyAll (m : MetadataStore) : List (Option RaftCommand) → MetadataStore × List ApplyResponse
  | [] => (m, [])
  | entry :: log =>
    (((m.apply entry).1.applyAll log).1, (m.apply entry).2 :: ((m.apply entry).1.applyAll log).2)

def restoreOver (_old : MetadataStore) (st : MetadataState) : MetadataStore := restore st

/-- The same brokers, topics and assignments under every key, and the same version. -/
structure Same (m m' : MetadataStore) : Prop where
  brokers : m.brokers.Equiv m'.brokers
  topics : m.topics.Equiv m'.topics
  partitions : m.partitions.Equiv m'.partitions
  version : m.version = m'.version

variable {m m' : MetadataStore}

theorem restoreOver_snapshot (old m : MetadataStore) : (old.restoreOver m.snapshot).Same m where
  brokers := .of_forall_constGet?_eq (getElem?_ofList_toList m.brokers)
  topics := .of_forall_constGet?_eq (getElem?_ofList_toList m.topics)
  partitions := .of_forall_constGet?_eq (getElem?_ofList_toList m.partitions)
  version := rfl

theorem Same.modifyAssignment (h : m.Same m') (k : PartitionRef)
    (f : PartitionAssignment → PartitionAssignment) :
    (m.modifyAssignment k f).Same (m'.modifyAssignment k f) where
  brokers := h.brokers
  topics := h.topics
  partitions := h.partitions.modify k f
  version := congrArg (· + 1) h.version

theorem Same.mapAssignments (h : m.Same m') (f : PartitionAssignment → PartitionAssignment) :
    (m.mapAssignments f).Same (m'.mapAssignments f) where
  brokers := h.brokers
  topics := h.topics
  partitions := h.partitions.map (fun _ => f)
  version := h.version

theorem place_equiv (name : String) (pid : Nat) (placements : List (List NodeID)) {ps : Assignments}
    (h : ps.Equiv ps') : (place name pid placements ps).Equiv (place name pid placements ps') := by
  induction placements generalizing pid ps ps' with
  | nil => exact h
  | cons replicas rest ih => exact ih (pid + 1) (h.insert _ _)

inductive SameResult : Except MetaErr MetadataStore → Except MetaErr MetadataStore → Prop where
  | refused (e : MetaErr) : SameResult (.error e) (.error e)
  | done {m m' : MetadataStore} (h : m.Same m') : SameResult (.ok m) (.ok m')

section
variable (h : m.Same m')
include h

theorem Same.applyUnregisterBroker (id : NodeID) :
    SameResult (m.applyUnregisterBroker id) (m'.applyUnregisterBroker id) := by
  simp only [MetadataStore.applyUnregisterBroker, h.brokers.mem_iff]
  split
  · refine .done ⟨h.brokers.erase id, h.topics, ?_, congrArg (· + 1) h.version⟩
    exact (h.mapAssignments (.shrinkISR id)).partitions
  · exact .refused _

theorem Same.applyCreateTopic (name : String) (shape : TopicMeta)
    (placements : List (List NodeID)) : SameResult (m.applyCreateTopic name shape placements)
      (m'.applyCreateTopic name shape placements) := by
  simp only [MetadataStore.applyCreateTopic, h.topics.mem_iff]
  split
  · exact .refused _
  split
  · exact .refused _
  · exact .done ⟨h.brokers, h.topics.insert _ _, place_equiv name 0 placements h.partitions,
      congrArg (· + 1) h.version⟩

theorem Same.applyAssignLeader (k : PartitionRef) (leader : NodeID) (epoch : Nat)
    (isr : Option (List NodeID)) : SameResult (m.applyAssignLeader k leader epoch isr)
      (m'.applyAssignLeader k leader epoch isr) := by
  simp only [MetadataStore.applyAssignLeader, h.partitions.getElem?_eq]
  cases m'.partitions[k]? with
  | none => exact .refused _
  | some a =>
    dsimp only
    split
    · exact .refused _
    · exact .done (h.modifyAssignment k _)

theorem Same.applyUpdateISR (k : PartitionRef) (epoch : Nat) (isr : List NodeID) :
    SameResult (m.applyUpdateISR k epoch isr) (m'.applyUpdateISR k epoch isr) := by
  simp only [MetadataStore.applyUpdateISR, h.partitions.getElem?_eq]
  cases m'.partitions[k]? with
  | none => exact .refused _
  | some a =>
    dsimp only
    split
    · exact .refused _
    cases PartitionAssignment.cleanISR a.replicas isr [] with
    | error id => exact .refused _
    | ok clean => exact .done (h.modifyAssignment k _)

theorem Same.applyReassign (k : PartitionRef) (replicas : List NodeID) :
    SameResult (m.applyReassign k replicas) (m'.applyReassign k replicas) := by
  simp only [MetadataStore.applyReassign, h.partitions.mem_iff]
  split
  · exact .done (h.modifyAssignment k _)
  · exact .refused _

theorem Same.assignment (k : PartitionRef) : m.assignment k = m'.assignment k :=
  h.partitions.getElem?_eq

theorem Same.applyFenceBroker (id : NodeID) (fenced : Bool) (at_ : Int) :
    SameResult ((m.applyFenceBroker id fenced at_).map Prod.fst)
      ((m'.applyFenceBroker id fenced at_).map Prod.fst) := by
  simp only [MetadataStore.applyFenceBroker, h.brokers.getElem?_eq]
  cases m'.brokers[id]? with
  | none => exact .refused _
  | some b =>
    by_cases hb : b.fenced = fenced
    · simp only [if_pos hb]
      exact .done h
    simp only [if_neg hb]
    cases fenced with
    | false => exact .done ⟨h.brokers.insert _ _, h.topics, h.partitions, congrArg (· + 1) h.version⟩
    | true => exact .done ⟨h.brokers.insert _ _, h.topics,
        (h.mapAssignments (.shrinkISR id)).partitions, congrArg (· + 1) h.version⟩

theorem Same.applyMetaCommand (c : MetaCommand) :
    SameResult (m.applyMetaCommand c) (m'.applyMetaCommand c) := by
  cases c with
  | registerBroker id b =>
    simp only [MetadataStore.applyMetaCommand, applyRegisterBroker, h.brokers.getElem?_eq]
    exact .done ⟨h.brokers.insert _ _, h.topics, h.partitions, congrArg (· + 1) h.version⟩
  | unregisterBroker id => exact h.applyUnregisterBroker id
  | fenceBroker id fenced at_ => exact h.applyFenceBroker id fenced at_
  | createTopic name shape placements => exact h.applyCreateTopic name shape placements
  | assignLeader k leader epoch isr => exact h.applyAssignLeader k leader epoch isr
  | updateISR k epoch isr => exact h.applyUpdateISR k epoch isr
  | reassign k replicas => exact h.applyReassign k replicas

theorem Same.reply (hs : a.Same b) (c : MetaCommand) : m.reply a c = m'.reply b c := by
  cases c <;> simp only [MetadataStore.reply, applyRegisterBroker, h.brokers.getElem?_eq, hs.assignment]

theorem Same.apply (entry : Option RaftCommand) :
    (m.apply entry).1.Same (m'.apply entry).1 ∧ (m.apply entry).2 = (m'.apply entry).2 := by
  cases entry with
  | none => exact ⟨h, rfl⟩
  | some cmd =>
    cases hc : cmd.meaning with
    | error e => simpa only [MetadataStore.apply, hc, and_true] using h
    | ok c =>
      rw [apply_command m hc, apply_command m' hc]
      have hr := h.applyMetaCommand c
      generalize m.applyMetaCommand c = r, m'.applyMetaCommand c = r' at hr
      cases hr with
      | refused e => exact ⟨h, rfl⟩
      | done hs => exact ⟨hs, h.reply hs c⟩

theorem Same.applyAll (log : List (Option RaftCommand)) :
    (m.applyAll log).1.Same (m'.applyAll log).1 ∧ (m.applyAll log).2 = (m'.applyAll log).2 := by
  induction log generalizing m m' with
  | nil => exact ⟨h, rfl⟩
  | cons entry log ih =>
    obtain ⟨hs, hr⟩ := h.apply entry
    obtain ⟨hs', hr'⟩ := ih hs
    exact ⟨hs', by simp only [MetadataStore.applyAll, hr, hr']⟩

end

theorem applyAll_append (m : MetadataStore) (log log' : List (Option RaftCommand)) :
    m.applyAll (log ++ log') = (((m.applyAll log).1.applyAll log').1,
        (m.applyAll log).2 ++ ((m.applyAll log).1.applyAll log').2) := by
  induction log generalizing m with
  | nil => rfl
  | cons entry log ih =>
    simp only [List.cons_append, MetadataStore.applyAll, ih]

/-- A snapshot taken anywhere in a log and restored over any store leaves no
trace: the rest of the log ends in the same state and every entry returns what it
would have. -/
theorem snapshot_is_transparent (start old : MetadataStore) (log log' : List (Option RaftCommand)) :
    let resumed := (old.restoreOver (start.applyAll log).1.snapshot).applyAll log'
    resumed.1.Same (start.applyAll (log ++ log')).1 ∧
      (start.applyAll log).2 ++ resumed.2 = (start.applyAll (log ++ log')).2 := by
  intro resumed
  obtain ⟨hs, hr⟩ := (restoreOver_snapshot old (start.applyAll log).1).applyAll log'
  rw [applyAll_append]
  exact ⟨hs, congrArg (_ ++ ·) hr⟩

end MetadataStore
end Boltq.Cluster
