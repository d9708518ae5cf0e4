import Boltq.Cluster.Plane
import Boltq.Stream.Topics
import Boltq.Streamctl.Reconciler

namespace Boltq.Cluster.MetadataStore
open Lib Std

variable {m m' : MetadataStore} {cmd : MetaCommand}

theorem applyMetaCommand_topic (h : m.applyMetaCommand cmd = .ok m') (name : String) :
    m'.topic name = m.topic name ∨
    ∃ shape placements, cmd = .createTopic name shape placements ∧ name ∉ m.topics ∧
      m'.topic name = some shape := by
  cases cmd with
  | createTopic name' shape placements =>
    simp only [applyMetaCommand, applyCreateTopic] at h
    split at h
    · cases h
    rename_i hnew
    split at h
    · cases h
    cases h
    by_cases he : name = name'
    · subst he
      exact Or.inr ⟨shape, placements, rfl, hnew, TreeMap.getElem?_insert_self⟩
    · exact Or.inl (getElem?_insert_other _ he)
  | registerBroker id b =>
    cases h
    exact Or.inl rfl
  | unregisterBroker id =>
    simp only [applyMetaCommand, applyUnregisterBroker] at h
    split at h <;> cases h
    exact Or.inl rfl
  | fenceBroker id fenced at_ =>
    simp only [applyMetaCommand, applyFenceBroker] at h
    cases hb : m.brokers[id]? with
    | none => simp [hb, Except.map] at h
    | some b =>
      simp only [hb] at h
      split at h <;> cases h
      · exact Or.inl rfl
      · cases fenced <;> exact Or.inl rfl
  | assignLeader k leader epoch isr =>
    obtain ⟨_, _, _, rfl⟩ := applyAssignLeader_ok h
    exact Or.inl rfl
  | updateISR k epoch isr =>
    obtain ⟨_, _, _, _, _, rfl⟩ := applyUpdateISR_ok h
    exact Or.inl rfl
  | reassign k replicas =>
    simp only [applyMetaCommand, applyReassign] at h
    split at h <;> cases h
    exact Or.inl rfl

theorem place_range (name : String) (pid : Nat) (placements : List (List NodeID)) (ps : Assignments)
    {k : PartitionRef} (h : (place name pid placements ps)[k]? = some a) :
    ps[k]? = some a ∨ k.topic = name ∧ (pid : Int) ≤ k.partition ∧
      k.partition < pid + placements.length := by
  induction placements generalizing pid ps with
  | nil => exact Or.inl h
  | cons replicas rest ih =>
    rw [place] at h
    rcases ih (pid + 1) _ h with hins | ⟨hn, hlo, hhi⟩
    · rcases insert_cases hins with ⟨rfl, _⟩ | ⟨_, hold⟩
      · refine Or.inr ⟨rfl, Int.le_refl _, ?_⟩
        simp only [List.length_cons]
        omega
      · exact Or.inl hold
    · refine Or.inr ⟨hn, ?_, ?_⟩
      · omega
      · simp only [List.length_cons]
        omega

def Ranged (m : MetadataStore) : Prop :=
  ∀ k a, m.assignment k = some a →
    ∃ t, m.topic k.topic = some t ∧ 0 ≤ k.partition ∧ k.partition < t.partitions

theorem Ranged.after (hr : m.Ranged) (h : m.applyMetaCommand cmd = .ok m') : m'.Ranged := by
  intro k b hb
  have hold : ∀ a, m.assignment k = some a →
      ∃ t, m'.topic k.topic = some t ∧ 0 ≤ k.partition ∧ k.partition < t.partitions := by
    intro a ha
    obtain ⟨t, ht, hrange⟩ := hr k a ha
    rcases applyMetaCommand_topic h k.topic with hs | ⟨_, _, _, hnew, _⟩
    · exact ⟨t, hs.trans ht, hrange⟩
    · exact absurd (mem_of_getElem? ht) hnew
  rcases applyMetaCommand_follows h k with hs | ⟨_, _, replicas, ⟨shape, placements, rfl, _⟩, _⟩ |
    ⟨a, _, ha, _⟩
  · exact hold b (hs ▸ hb)
  · simp only [applyMetaCommand, applyCreateTopic] at h
    split at h
    · cases h
    split at h
    · cases h
    rename_i hcount
    cases h
    rcases place_range k.topic 0 placements m.partitions hb with hin | ⟨_, hlo, hhi⟩
    · exact hold b hin
    · exact ⟨shape, TreeMap.getElem?_insert_self, by omega, by omega⟩
  · exact hold a ha

end Boltq.Cluster.MetadataStore

namespace Boltq.Streamctl
open Lib Cluster Boltq.Stream Std

section
variable {S : Type} [SegmentStore S]

def promote (l : TopicLog S) (k : PartitionRef) (epoch : Nat) : TopicLog S :=
  match l.getOrCreateTopic k.topic with
  | (l, .error _) => l
  | (l, .ok _) => (l.becomeLeaderFor k.topic k.partition epoch).1

theorem promote_learns (l : TopicLog S) (k : PartitionRef) (epoch : Nat) :
    l.Learns (promote l k epoch) k.topic l.defaultPartitions := by
  apply (l.getOrCreateTopic_learns k.topic).after
  intro other
  unfold promote
  split
  · rename_i hf
    rw [hf]
  · rename_i hf
    rw [hf]
    exact TopicLog.becomeLeaderFor_count _ k.topic k.partition epoch other

def openQueue (l : TopicLog S) (name : String) (partitions : Int) : TopicLog S :=
  if partitions > 0 then (l.createTopic name partitions defaultPartitionConfig).1
  else (l.getOrCreateTopic name).1

theorem openQueue_learns (l : TopicLog S) (name : String) (partitions : Int) :
    l.Learns (openQueue l name partitions) name (l.wanted partitions) := by
  unfold openQueue
  split
  · exact l.createTopic_learns name partitions defaultPartitionConfig
  rename_i hp
  have hw : l.wanted partitions = l.defaultPartitions := if_pos (by omega)
  rw [hw]
  exact l.getOrCreateTopic_learns name

inductive Visit where
  | applyLeadership (view : Nat) (k : PartitionRef)
  | applyReplicated (view : Nat) (k : PartitionRef) (rec : Record)
  | subscribe (topic : String)
  | append (topic : String) (rec : Record) (now : Int)
  | ensureTopic (topic : String) (partitions : Int)
  | openQueue (topic : String) (partitions : Int)

namespace Visit

def effect (past : List MetadataStore) (id : NodeID) (l : TopicLog S) : Visit → Option (TopicLog S)
  | .applyLeadership view k =>
      (past[view]?).bind (fun m => ((m.ledBy id).find? (fun a => a.1 = k)).map (fun a =>
        promote l k a.2.leaderEpoch))
  | .applyReplicated view k rec =>
      (past[view]?).bind (fun m => ((m.replicatedBy id).find? (fun a => a.1 = k)).map (fun _ =>
        (l.applyReplicated k.topic (partitionCount m
          (fun name => (l.partitionCount name).map Int.ofNat) k.topic) k.partition rec).1))
  | .subscribe topic => some (l.getOrCreateTopic topic).1
  | .append topic rec now => some (l.appendLocal topic rec now).1
  | .ensureTopic topic partitions => some (l.ensureTopic topic partitions).1
  | .openQueue topic partitions => some (Streamctl.openQueue l topic partitions)

def topic : Visit → String
  | .applyLeadership _ k => k.topic
  | .applyReplicated _ k _ => k.topic
  | .subscribe topic => topic
  | .append topic _ _ => topic
  | .ensureTopic topic _ => topic
  | .openQueue topic _ => topic

def guess (l : TopicLog S) : Visit → Option Nat
  | .applyLeadership _ _ => some l.defaultPartitions
  | .applyReplicated _ _ _ => none
  | .subscribe _ => some l.defaultPartitions
  | .append _ _ _ => some l.defaultPartitions
  | .ensureTopic _ partitions => some (l.wanted partitions)
  | .openQueue _ partitions => some (l.wanted partitions)

theorem effect_learns {past : List MetadataStore} {id : NodeID} {l l' : TopicLog S} {v : Visit}
    (h : v.effect past id l = some l') : ∃ count, l.Learns l' v.topic count ∧
      (v.guess l = some count ∨ ∃ m ∈ past, ∃ k a, m.assignment k = some a ∧ k.topic = v.topic ∧
        ∀ t, m.topic v.topic = some t → count = l.wanted t.partitions) := by
  cases v with
  | applyLeadership view k =>
    simp only [effect, Option.bind_eq_some_iff, Option.map_eq_some_iff] at h
    obtain ⟨m, _, a, _, rfl⟩ := h
    exact ⟨_, promote_learns l k _, Or.inl rfl⟩
  | applyReplicated view k rec =>
    simp only [effect, Option.bind_eq_some_iff, Option.map_eq_some_iff] at h
    obtain ⟨m, hm, ⟨k', a⟩, ha, rfl⟩ := h
    refine ⟨_, l.applyReplicated_learns k.topic _ k.partition rec, Or.inr
      ⟨m, List.mem_of_getElem? hm, k', a, ?_, ?_, ?_⟩⟩
    · exact MetadataStore.mem_assignments.mp (List.mem_filter.mp (List.mem_of_find?_eq_some ha)).1
    · have hk : k' = k := by simpa using List.find?_some ha
      rw [hk]
      rfl
    · intro t ht
      have hk : m.topic k.topic = some t := ht
      simp only [partitionCount, hk]
  | subscribe topic =>
    cases h
    exact ⟨_, l.getOrCreateTopic_learns topic, Or.inl rfl⟩
  | append topic rec now =>
    cases h
    exact ⟨_, l.appendLocal_learns topic rec now, Or.inl rfl⟩
  | ensureTopic topic partitions =>
    cases h
    exact ⟨_, l.ensureTopic_learns topic partitions, Or.inl rfl⟩
  | openQueue topic partitions =>
    cases h
    exact ⟨_, openQueue_learns l topic partitions, Or.inl rfl⟩

end Visit

structure Fleet (S : Type) extends Plane where
  logs : TreeMap NodeID (TopicLog S)

inductive FleetOp where
  | commit (cmd : MetaCommand)
  | visit (id : NodeID) (v : Visit)

namespace Fleet

def start (logs : TreeMap NodeID (TopicLog S)) : Fleet S := ⟨Plane.start, logs⟩

def step (f : Fleet S) : FleetOp → Option (Fleet S)
  | .commit cmd => some { f with toPlane := f.toPlane.commit cmd }
  | .visit id v =>
      (f.logs[id]?).bind (fun l => (v.effect f.past id l).map (fun l' =>
        { f with logs := f.logs.insert id l' }))

def Step (f : Fleet S) (op : FleetOp) (g : Fleet S) : Prop := f.step op = some g

/-- The metadata get a topic only with the partitions it has wherever it is. A
node that has not got it makes it without asking only with the partitions it has
in the metadata. -/
def Agreed (f : Fleet S) : FleetOp → Prop
  | .commit (.createTopic name shape _) => name ∈ f.store.topics ∨ ∀ e ∈ f.logs.toList,
      (e.2.partitionCount name).all (fun count => decide ((count : Int) = shape.partitions)) = true
  | .visit id v => (f.logs[id]?).all (fun l => (l.partitionCount v.topic).isSome ||
      (f.store.topic v.topic).all (fun t =>
        (v.guess l).all (fun count => decide ((count : Int) = t.partitions)))) = true
  | _ => True

instance (f : Fleet S) (op : FleetOp) : Decidable (f.Agreed op) := by
  unfold Agreed
  split <;> infer_instance

structure Inv (f : Fleet S) : Prop where
  counts : ∀ (id : NodeID) (l : TopicLog S), f.logs[id]? = some l → ∀ name count t,
    l.partitionCount name = some count → f.store.topic name = some t → (count : Int) = t.partitions
  kept : ∀ m ∈ f.past, ∀ name t, m.topic name = some t → f.store.topic name = some t
  ranged : ∀ m ∈ f.past, m.Ranged
  current : f.store ∈ f.past

theorem Inv.start {logs : TreeMap NodeID (TopicLog T)}
    (h : ∀ (id : NodeID) (l : TopicLog T), logs[id]? = some l → l.topics = ∅) :
    (Fleet.start logs).Inv where
  counts id l hl name count t hc := by
    simp [TopicLog.partitionCount, h id l hl] at hc
  kept m hm name t ht := by
    cases List.mem_singleton.mp hm
    exact ht
  ranged m hm k a ha := by
    cases List.mem_singleton.mp hm
    simp [MetadataStore.assignment, MetadataStore.empty] at ha
  current := List.mem_singleton.mpr rfl

variable {f g : Fleet S}

theorem Inv.commit (h : f.Inv) (hc : f.Agreed (.commit cmd)) (hs : f.Step (.commit cmd) g) :
    g.Inv := by
  cases hs
  rcases ha : f.store.applyMetaCommand cmd with _ | m
  · simpa only [Plane.commit, ha] using h
  simp only [Plane.commit, ha]
  have hkept : ∀ name t, f.store.topic name = some t → m.topic name = some t := by
    intro name t ht
    rcases MetadataStore.applyMetaCommand_topic ha name with hsame | ⟨_, _, _, hnew, _⟩
    · exact hsame.trans ht
    · exact absurd (mem_of_getElem? ht) hnew
  refine ⟨?_, ?_, ?_, by simp⟩
  · intro id l hl name count t hcount ht
    rcases MetadataStore.applyMetaCommand_topic ha name with
      hsame | ⟨shape, placements, rfl, hnew, hshape⟩
    · exact h.counts id l hl name count t hcount (hsame.symm.trans ht)
    cases hshape.symm.trans ht
    have hall := hc.resolve_left hnew (id, l) (TreeMap.mem_toList_iff_getElem?_eq_some.mpr hl)
    simpa [hcount] using hall
  · intro m' hm' name t ht
    rcases List.mem_append.mp hm' with hold | hlast
    · exact hkept name t (h.kept m' hold name t ht)
    · cases List.mem_singleton.mp hlast
      exact ht
  · intro m' hm'
    rcases List.mem_append.mp hm' with hold | hlast
    · exact h.ranged m' hold
    · cases List.mem_singleton.mp hlast
      exact (h.ranged _ h.current).after ha

theorem Inv.visit {id : NodeID} {v : Visit} (h : f.Inv) (hc : f.Agreed (.visit id v))
    (hs : f.Step (.visit id v) g) : g.Inv := by
  simp only [Step, step, Option.bind_eq_some_iff, Option.map_eq_some_iff] at hs
  obtain ⟨l, hl, l', hv, rfl⟩ := hs
  obtain ⟨made, hlearns, hmade⟩ := Visit.effect_learns hv
  refine ⟨?_, h.kept, h.ranged, h.current⟩
  intro id' k hk name count t hcount ht
  rcases insert_cases hk with ⟨_, rfl⟩ | ⟨_, hold⟩
  · rcases hlearns name with hsame | ⟨rfl, hnone, hsome⟩
    · exact h.counts id l hl name count t (hsame.symm.trans hcount) ht
    cases hsome.symm.trans hcount
    rcases hmade with hguess | ⟨m, hm, ref, a, ha, htopic, hwanted⟩
    · simpa [Agreed, hl, hnone, hguess, show f.store.topic v.topic = some t from ht] using hc
    obtain ⟨t', ht', hlo, hhi⟩ := h.ranged m hm ref a ha
    rw [htopic] at ht'
    cases (h.kept m hm _ t' ht').symm.trans ht
    have hpos : ¬ t.partitions ≤ 0 := by omega
    rw [hwanted t ht', TopicLog.wanted, if_neg hpos]
    omega
  · exact h.counts id' k hold name count t hcount ht

theorem Inv.step (h : f.Inv) (hc : f.Agreed op) (hs : f.Step op g) : g.Inv := by
  cases op with
  | commit cmd => exact h.commit hc hs
  | visit id v => exact h.visit hc hs

/-- While topics are made as `Agreed` says, a topic of the metadata has, on every
node that has it, the partitions recorded: keys go to the same partition on all
of them, and every assigned partition is there. -/
theorem partition_counts_agree {logs : TreeMap NodeID (TopicLog S)} {ops : List FleetOp}
    (hempty : ∀ (id : NodeID) (l : TopicLog S), logs[id]? = some l → l.topics = ∅)
    (hr : Run Step Agreed (Fleet.start logs) ops f) (name : String) (t : TopicMeta)
    (ht : f.store.topic name = some t) :
    (∀ (id : NodeID) (l : TopicLog S) (ps : List (Partition S)), f.logs[id]? = some l →
      l.topics[name]? = some ps → (ps.length : Int) = t.partitions ∧
        (∀ key, partitionForKey ps.length key = partitionForKey t.partitions.toNat key) ∧
        ∀ k a, f.store.assignment k = some a → k.topic = name →
          (partitionAt ps k.partition).isSome) := by
  have hinv := hr.invariant Inv (Inv.start hempty) (fun _ _ _ hi hc hs => hi.step hc hs)
  intro id l ps hl hps
  have hlen : (ps.length : Int) = t.partitions :=
    hinv.counts id l hl name ps.length t (by simp [TopicLog.partitionCount, hps]) ht
  refine ⟨hlen, fun key => by rw [← hlen, Int.toNat_natCast], ?_⟩
  rintro k a ha rfl
  obtain ⟨t', ht', hlo, hhi⟩ := hinv.ranged _ hinv.current k a ha
  cases ht'.symm.trans ht
  have hlt : k.partition.toNat < ps.length := by omega
  rw [partitionAt, if_neg (by omega), List.getElem?_eq_getElem hlt]
  rfl

end Fleet
end

namespace Fleet

def emptyLog (partitions : Nat) : TopicLog RecSegment where
  topics := ∅
  defaultPartitions := partitions
  partition := defaultPartitionConfig
  closed := false
  enforceLeadership := true
  leaderEpoch := undefinedEpoch

def twoLogs (partitions : Nat) : TreeMap NodeID (TopicLog RecSegment) :=
  (TreeMap.empty.insert "n1" (emptyLog partitions)).insert "n2" (emptyLog partitions)

theorem twoLogs_empty (partitions : Nat) (id : NodeID) (l : TopicLog RecSegment)
    (h : (twoLogs partitions)[id]? = some l) : l.topics = ∅ := by
  rcases insert_cases h with ⟨_, rfl⟩ | ⟨_, hfirst⟩
  · rfl
  rcases insert_cases hfirst with ⟨_, rfl⟩ | ⟨_, hnone⟩
  · rfl
  · simp at hnone

def firstContact : List FleetOp :=
  [.commit (.registerBroker "n1" {}), .commit (.registerBroker "n2" {}),
   .commit (.createTopic "orders" ⟨2, 2, 1⟩ [["n1", "n2"], ["n2", "n1"]]),
   .commit (.assignLeader ⟨"orders", 0⟩ "n1" 1 none),
   .visit "n1" (.applyLeadership 4 ⟨"orders", 0⟩),
   .visit "n2" (.applyReplicated 4 ⟨"orders", 0⟩
     { Record.ofPayload [1] with seq := 1, epoch := 1 })]

def countsOf (f : Fleet RecSegment) (name : String) : List (Option Nat) :=
  f.logs.toList.map (fun e => e.2.partitionCount name)

/-- Nodes whose default is the count of the topic learn of it, one by leading it
and one by copying it. -/
theorem partition_counts_agree_first :
    ∃ f, Run Step Agreed (Fleet.start (twoLogs 2)) firstContact f ∧
      f.countsOf "orders" = [some 2, some 2] ∧ ∃ t, f.store.topic "orders" = some t ∧
        ∀ (id : NodeID) (l : TopicLog RecSegment) (ps : List (Partition RecSegment)),
          f.logs[id]? = some l → l.topics["orders"]? = some ps →
            (ps.length : Int) = t.partitions := by
  obtain ⟨f, hr, hcounts, htopic⟩ := Run.executed Agreed step (Fleet.start (twoLogs 2)) firstContact
    (fun f => f.countsOf "orders" = [some 2, some 2] ∧
      (f.store.topic "orders").isSome = true) (by decide +kernel)
  obtain ⟨t, ht⟩ := Option.isSome_iff_exists.mp htopic
  refine ⟨f, hr, hcounts, t, ht, fun id l ps hl hps => ?_⟩
  exact (partition_counts_agree (twoLogs_empty 2) hr "orders" t ht id l ps hl hps).1

/-- The leader makes the topic with its default of sixteen partitions, the
follower with the two of the metadata; a key has its place on one of them only. -/
theorem leader_creates_default_count :
    ∃ f, Run Step always (Fleet.start (twoLogs 16)) firstContact f ∧
      (f.store.topic "orders").map TopicMeta.partitions = some 2 ∧
      f.countsOf "orders" = [some 16, some 2] ∧
      partitionForKey 16 [97] ≠ partitionForKey 2 [97] := by
  refine Run.shown (fun f => (f.store.topic "orders").map TopicMeta.partitions = some 2 ∧
      f.countsOf "orders" = [some 16, some 2]) (by decide +kernel) ?_
  rintro f hr ⟨htopic, hcounts⟩
  exact ⟨htopic, hcounts, by decide +kernel⟩

end Fleet

end Boltq.Streamctl
