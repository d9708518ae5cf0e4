import Boltq.Lib.Run
import Boltq.Lib.Tables
import Boltq.Cluster.Controller

namespace Boltq.Cluster
open Lib Std List

def Moved (replicas moved : List NodeID) : Prop :=
  (∃ target ∈ moved.getLast?, target ∉ replicas ∧ moved = replicas ++ [target]) ∨
  moved = replicas ∨ ∃ source ∈ replicas, moved = replicas.filter (fun id => id ≠ source)

def Proposes (cfg : ControllerConfig) (seen m : MetadataStore) : MetaCommand → Prop
  | .registerBroker id _ => id ≠ ""
  | .unregisterBroker _ => True
  | .fenceBroker _ _ _ => True
  | .createTopic _ _ placements =>
      ∀ replicas ∈ placements, replicas.Nodup ∧ ∀ id ∈ replicas, id ∈ seen.liveBrokers
  | .assignLeader k leader epoch isr =>
      .assignLeader k leader epoch isr ∈ repairLeadership cfg seen.liveBrokers m ∨
      isr = none ∧ (m.assignment k).any (fun a =>
        decide (a.isr.find? (fun id => id ≠ a.leader) = some leader ∧ epoch = nextEpoch a)) = true
  | .updateISR k epoch isr => (m.assignment k).any (fun a =>
      decide (a.leader ≠ "" ∧ epoch = a.leaderEpoch ∧ isr.head? = some a.leader)) = true
  | .reassign k replicas => ∃ a ∈ m.assignment k, Moved a.replicas replicas

instance (replicas moved : List NodeID) : Decidable (Moved replicas moved) :=
  inferInstanceAs (Decidable (_ ∨ _))

instance (cfg : ControllerConfig) (seen m : MetadataStore) (cmd : MetaCommand) :
    Decidable (Proposes cfg seen m cmd) := by
  unfold Proposes
  split <;> infer_instance

structure Plane where
  store : MetadataStore
  past : List MetadataStore

namespace Plane

def start : Plane := ⟨.empty, [.empty]⟩

def commit (p : Plane) (cmd : MetaCommand) : Plane :=
  match p.store.applyMetaCommand cmd with
  | .error _ => p
  | .ok m => ⟨m, p.past ++ [m]⟩

def step (cfg : ControllerConfig) (p : Plane) (cmd : MetaCommand) : Option Plane :=
  if ∃ seen ∈ p.past, ∃ m ∈ p.past, Proposes cfg seen m cmd then some (p.commit cmd) else none

def Step (cfg : ControllerConfig) (p : Plane) (cmd : MetaCommand) (q : Plane) : Prop :=
  p.step cfg cmd = some q

theorem step_cases {p : Plane} (h : p.Step cfg cmd q) :
    (∃ seen ∈ p.past, ∃ m ∈ p.past, Proposes cfg seen m cmd) ∧
    (q = p ∨ ∃ m, p.store.applyMetaCommand cmd = .ok m ∧ q = ⟨m, p.past ++ [m]⟩) := by
  simp only [Step, step] at h
  split at h
  · rename_i hp
    refine ⟨hp, ?_⟩
    simp only [Option.some.injEq, commit] at h
    subst h
    cases hm : p.store.applyMetaCommand cmd with
    | error e => exact .inl rfl
    | ok m => exact .inr ⟨m, rfl, rfl⟩
  · cases h

structure Traced (p : Plane) : Prop where
  later : ∀ m ∈ p.past, ∀ k a, m.assignment k = some a →
    ∃ b, p.store.assignment k = some b ∧ a.Later b
  named : p.store.broker "" = none

end Plane

namespace MetadataStore
variable {m m' : MetadataStore} {cmd : MetaCommand}

theorem applyMetaCommand_broker (h : m.applyMetaCommand cmd = .ok m') (id : NodeID) :
    m'.broker id = m.broker id ∨
    (∃ b, cmd = .registerBroker id b ∧ ∃ b', m'.broker id = some b' ∧ b'.fenced = false) ∨
    (cmd = .unregisterBroker id ∧ m'.broker id = none) ∨
    ∃ fenced at_ b, cmd = .fenceBroker id fenced at_ ∧ m.broker id = some b ∧
      b.fenced ≠ fenced ∧ ∃ b', m'.broker id = some b' ∧ b'.fenced = fenced := by
  cases cmd with
  | registerBroker id' b =>
    simp only [applyMetaCommand, applyRegisterBroker, Except.ok.injEq] at h
    subst h
    by_cases he : id = id'
    · subst he
      exact .inr (.inl ⟨b, rfl, _, TreeMap.getElem?_insert_self, rfl⟩)
    · exact .inl (getElem?_insert_other _ he)
  | unregisterBroker id' =>
    simp only [applyMetaCommand, applyUnregisterBroker] at h
    split at h
    · simp only [Except.ok.injEq] at h
      subst h
      by_cases he : id = id'
      · subst he
        exact .inr (.inr (.inl ⟨rfl, TreeMap.getElem?_erase_self⟩))
      · exact .inl (getElem?_erase_other he)
    · cases h
  | fenceBroker id' fenced at_ =>
    simp only [applyMetaCommand, applyFenceBroker] at h
    cases hb : m.brokers[id']? with
    | none => simp [hb, Except.map] at h
    | some b =>
      simp only [hb] at h
      split at h
      · simp only [Except.map, Except.ok.injEq] at h
        exact .inl (h ▸ rfl)
      rename_i hne
      simp only [Except.map, Except.ok.injEq] at h
      subst h
      by_cases he : id = id'
      · subst he
        exact .inr (.inr (.inr ⟨fenced, at_, b, rfl, hb, hne, _,
          TreeMap.getElem?_insert_self, rfl⟩))
      · exact .inl (getElem?_insert_other _ he)
  | createTopic name shape placements =>
    simp only [applyMetaCommand, applyCreateTopic] at h
    split at h
    · cases h
    split at h
    · cases h
    · simp only [Except.ok.injEq] at h
      exact .inl (h ▸ rfl)
  | assignLeader k leader epoch isr =>
    obtain ⟨_, _, _, rfl⟩ := applyAssignLeader_ok h
    exact .inl rfl
  | updateISR k epoch isr =>
    obtain ⟨_, _, _, _, _, rfl⟩ := applyUpdateISR_ok h
    exact .inl rfl
  | reassign k replicas =>
    simp only [applyMetaCommand, applyReassign] at h
    split at h
    · simp only [Except.ok.injEq] at h
      exact .inl (h ▸ rfl)
    · cases h

end MetadataStore

namespace Plane

theorem Traced.start : Plane.start.Traced where
  later m hm k a ha := by
    cases mem_singleton.mp hm
    exact ⟨a, ha, .refl a⟩
  named := by simp [Plane.start, MetadataStore.empty, MetadataStore.broker]

theorem Traced.step {p : Plane} (h : p.Traced) (hs : p.Step cfg cmd q) : q.Traced := by
  obtain ⟨⟨u, _, v, _, hprop⟩, rfl | ⟨m, hm, rfl⟩⟩ := step_cases hs
  · exact h
  refine ⟨?_, ?_⟩
  · intro m' hm' k a ha
    rcases mem_append.mp hm' with hold | hnew
    · obtain ⟨b, hb, hab⟩ := h.later m' hold k a ha
      obtain ⟨c, hc, hbc⟩ := (MetadataStore.applyMetaCommand_follows hm k).later hb
      exact ⟨c, hc, hab.trans hbc⟩
    · cases mem_singleton.mp hnew
      exact ⟨a, ha, .refl a⟩
  · rcases MetadataStore.applyMetaCommand_broker hm "" with
      hs | ⟨b, rfl, _⟩ | ⟨_, hs⟩ | ⟨_, _, b, _, hb, _⟩
    · exact hs.trans h.named
    · exact absurd rfl hprop
    · exact hs
    · rw [h.named] at hb
      cases hb

end Plane

namespace PartitionAssignment

def Contained (a : PartitionAssignment) : Prop :=
  a.isr.Nodup ∧ ∀ id ∈ a.isr, id ∈ a.replicas

theorem cleanISR_spec {replicas isr clean clean' : List NodeID}
    (h : cleanISR replicas isr clean = .ok clean') (hn : clean.Nodup)
    (hr : ∀ id ∈ clean, id ∈ replicas) : clean'.Nodup ∧ (∀ id ∈ clean', id ∈ replicas) ∧
      ∀ id, id ∈ clean' ↔ id ∈ clean ∨ id ∈ isr := by
  induction isr generalizing clean with
  | nil =>
    simp only [cleanISR, Except.ok.injEq] at h
    subst h
    exact ⟨hn, hr, by simp⟩
  | cons x isr ih =>
    simp only [cleanISR] at h
    split at h
    · rename_i hx
      obtain ⟨h1, h2, h3⟩ := ih h hn hr
      refine ⟨h1, h2, fun id => ?_⟩
      rw [h3, mem_cons]
      constructor
      · rintro (hid | hid)
        · exact .inl hid
        · exact .inr (.inr hid)
      · rintro (hid | rfl | hid)
        · exact .inl hid
        · exact .inl hx
        · exact .inr hid
    · rename_i hx
      split at h
      · rename_i hmem
        have hn' : (clean ++ [x]).Nodup := by
          refine nodup_append.mpr ⟨hn, by simp, fun y hy z hz => ?_⟩
          rintro rfl
          exact hx (mem_singleton.mp hz ▸ hy)
        have hr' : ∀ id ∈ clean ++ [x], id ∈ replicas := by
          intro id hid
          rcases mem_append.mp hid with hid | hid
          · exact hr id hid
          · exact mem_singleton.mp hid ▸ hmem
        obtain ⟨h1, h2, h3⟩ := ih h hn' hr'
        refine ⟨h1, h2, fun id => ?_⟩
        rw [h3, mem_append, mem_singleton, mem_cons, or_assoc]
      · cases h

theorem Contained.placed {replicas : List NodeID} (h : replicas.Nodup) :
    (PartitionAssignment.placed replicas).Contained := ⟨h, fun _ hid => hid⟩

theorem mem_shrinkISR {a : PartitionAssignment} {id x : NodeID} :
    x ∈ (a.shrinkISR id).isr ↔ x ∈ a.isr ∧ x ≠ id := by
  unfold shrinkISR
  split
  · simp
  rename_i hid
  refine ⟨fun hx => ⟨hx, ?_⟩, fun hx => hx.1⟩
  rintro rfl
  exact hid (by simpa [inISR] using hx)

theorem Contained.shrinkISR {a : PartitionAssignment} (h : a.Contained) (id : NodeID) :
    (a.shrinkISR id).Contained := by
  unfold PartitionAssignment.shrinkISR
  split
  · exact ⟨h.1.filter _, fun x hx => h.2 x (mem_filter.mp hx).1⟩
  · exact h

theorem Contained.reassign {a : PartitionAssignment} (h : a.Contained) (replicas : List NodeID) :
    (a.reassign replicas).Contained :=
  ⟨h.1.filter _, fun _ hx => of_decide_eq_true (mem_filter.mp hx).2⟩

theorem mem_withISR {a : PartitionAssignment} {isr clean : List NodeID} {id : NodeID}
    (h : cleanISR a.replicas isr [] = .ok clean) :
    id ∈ (a.withISR clean).isr ↔ id ∈ isr ∨ id = a.leader ∧ id ≠ "" := by
  have hm : id ∈ clean ↔ id ∈ isr := by
    simpa using (cleanISR_spec h nodup_nil (by simp)).2.2 id
  rw [← hm]
  unfold withISR
  split
  · rename_i hl
    rw [mem_cons, Or.comm]
    refine or_congr_right ⟨?_, fun hid => hid.1⟩
    rintro rfl
    exact ⟨rfl, hl.1⟩
  · rename_i hl
    refine ⟨.inl, ?_⟩
    rintro (hid | ⟨rfl, hne⟩)
    · exact hid
    · exact not_not.mp (fun hout => hl ⟨hne, hout⟩)

theorem Contained.withISR {a : PartitionAssignment} {isr clean : List NodeID}
    (h : cleanISR a.replicas isr [] = .ok clean) (hl : a.leader ∈ isr) :
    (a.withISR clean).Contained := by
  obtain ⟨hn, hr, hm⟩ := cleanISR_spec h nodup_nil (by simp)
  have hisr : (a.withISR clean).isr = clean := by
    simp only [PartitionAssignment.withISR]
    rw [if_neg]
    exact fun hc => hc.2 ((hm _).mpr (.inr hl))
  exact ⟨by rw [hisr]; exact hn, by rw [hisr]; exact hr⟩

end PartitionAssignment

def MetaCommand.Mild (cmd : MetaCommand) (leader : NodeID) : Prop :=
  match cmd with
  | .assignLeader _ _ _ isr => isr = none
  | .updateISR _ _ isr => leader ∈ isr
  | _ => True

theorem MetaCommand.Changes.contained {cmd : MetaCommand} (h : cmd.Changes k a b)
    (hm : cmd.Mild a.leader) (ha : a.Contained) : b.Contained := by
  cases cmd with
  | registerBroker | createTopic => exact absurd h id
  | unregisterBroker id =>
    have hb : b = a.shrinkISR id := h
    exact hb ▸ ha.shrinkISR id
  | fenceBroker id fenced at_ => exact h.2 ▸ ha.shrinkISR id
  | assignLeader k' leader epoch isr =>
    obtain ⟨_, _, rfl⟩ := h
    have hisr : isr = none := hm
    subst hisr
    exact ha
  | updateISR k' epoch isr =>
    obtain ⟨_, _, clean, hc, rfl⟩ := h
    exact .withISR hc hm
  | reassign k' replicas => exact h.2 ▸ ha.reassign replicas

theorem MetaCommand.Changes.joins {cmd : MetaCommand} {k : PartitionRef}
    {a b : PartitionAssignment} (h : cmd.Changes k a b) {id : NodeID} (hid : id ∈ b.isr) :
    id ∈ a.isr ∨
    (∃ isr, cmd = .updateISR k a.leaderEpoch isr ∧ (id ∈ isr ∨ id = a.leader ∧ id ≠ "")) ∨
    ∃ leader epoch isr, cmd = .assignLeader k leader epoch (some isr) := by
  cases cmd with
  | registerBroker | createTopic => exact absurd h not_false
  | unregisterBroker x =>
    have hb : b = a.shrinkISR x := h
    exact .inl (PartitionAssignment.mem_shrinkISR.mp (hb ▸ hid)).1
  | fenceBroker x fenced at_ =>
    obtain ⟨_, rfl⟩ := h
    exact .inl (PartitionAssignment.mem_shrinkISR.mp hid).1
  | assignLeader k' leader epoch isr =>
    obtain ⟨rfl, _, rfl⟩ := h
    cases isr with
    | none => exact .inl hid
    | some isr => exact .inr (.inr ⟨leader, epoch, isr, rfl⟩)
  | updateISR k' epoch isr =>
    obtain ⟨rfl, rfl, clean, hc, rfl⟩ := h
    exact .inr (.inl ⟨isr, rfl, (PartitionAssignment.mem_withISR hc).mp hid⟩)
  | reassign k' replicas =>
    obtain ⟨_, rfl⟩ := h
    exact .inl (mem_filter.mp hid).1

def MetaCommand.Drops (cmd : MetaCommand) (id : NodeID) : Prop :=
  cmd = .unregisterBroker id ∨ ∃ at_, cmd = .fenceBroker id true at_

namespace MetadataStore
variable {m m' : MetadataStore} {cmd : MetaCommand}

theorem live_after (h : m.applyMetaCommand cmd = .ok m') {id : NodeID} (hl : id ∈ m.liveBrokers) :
    id ∈ m'.liveBrokers ∨ cmd.Drops id := by
  rw [mem_liveBrokers] at hl ⊢
  rcases applyMetaCommand_broker h id with
    hs | ⟨b, _, b', hb', hf⟩ | ⟨hc, _⟩ | ⟨fenced, at_, b, hc, _, _, b', hb', hf⟩
  · exact .inl (hs ▸ hl)
  · exact .inl ⟨b', hb', by simp [BrokerInfo.live, hf]⟩
  · exact .inr (.inl hc)
  · cases fenced with
    | false => exact .inl ⟨b', hb', by simp [BrokerInfo.live, hf]⟩
    | true => exact .inr (.inr ⟨at_, hc⟩)

theorem dropped_leaves (h : m.applyMetaCommand cmd = .ok m') {id : NodeID}
    (hl : id ∈ m.liveBrokers) (hd : cmd.Drops id) {k : PartitionRef} {a : PartitionAssignment}
    (ha : m'.assignment k = some a) : id ∉ a.isr := by
  have hshrunk : m'.assignment k = (m.assignment k).map (.shrinkISR id) := by
    obtain ⟨b, hb, hlive⟩ := mem_liveBrokers.mp hl
    rcases hd with rfl | ⟨at_, rfl⟩
    · simp only [applyMetaCommand, applyUnregisterBroker] at h
      split at h
      · cases h
        exact mapAssignments_assignment m k _
      · cases h
    · have hfen : b.fenced ≠ true := by simpa [BrokerInfo.live] using hlive
      have hb' : m.brokers[id]? = some b := hb
      simp only [applyMetaCommand, applyFenceBroker, hb', if_neg hfen, Except.map] at h
      cases h
      exact mapAssignments_assignment m k _
  rw [ha] at hshrunk
  obtain ⟨a', _, rfl⟩ := Option.map_eq_some_iff.mp hshrunk.symm
  exact fun hid => (PartitionAssignment.mem_shrinkISR.mp hid).2 rfl

def Contained (m : MetadataStore) : Prop := ∀ k a, m.assignment k = some a → a.Contained

def InSyncLive (m : MetadataStore) : Prop :=
  ∀ k a, m.assignment k = some a → ∀ id ∈ a.isr, id ∈ m.liveBrokers

theorem InSyncLive.after (h : m.applyMetaCommand cmd = .ok m')
    (hin : ∀ k a, m'.assignment k = some a → ∀ id ∈ a.isr, id ∈ m.liveBrokers) : m'.InSyncLive := by
  intro k a ha id hid
  have hl := hin k a ha id hid
  rcases live_after h hl with hlive | hd
  · exact hlive
  · exact absurd hid (dropped_leaves h hl hd ha)

end MetadataStore

namespace Plane
variable {cfg : ControllerConfig} {p q : Plane} {cmd : MetaCommand}

theorem Traced.mild (h : p.Traced) (hv : v ∈ p.past) (hp : Proposes cfg u v cmd)
    (ha : p.store.assignment k = some a) (hc : cmd.Changes k a b) : cmd.Mild a.leader := by
  cases cmd with
  | assignLeader k' leader epoch isr =>
    rcases hp with hmem | ⟨hisr, _⟩
    · obtain ⟨_, _, _, _, he⟩ := mem_repairLeadership.mp hmem
      cases he
      rfl
    · exact hisr
  | updateISR k' epoch isr =>
    obtain ⟨rfl, rfl, _⟩ := hc
    obtain ⟨a', ha', hrep⟩ := (Option.any_eq_true _ _).mp hp
    obtain ⟨_, he, hhead⟩ := of_decide_eq_true hrep
    obtain ⟨b', hb', hlater⟩ := h.later v hv k' a' ha'
    rw [ha] at hb'
    cases hb'
    have hsame : a.leader = a'.leader := by
      by_contra hne
      have := hlater.2 hne
      omega
    exact hsame ▸ mem_of_head? hhead
  | registerBroker | unregisterBroker | fenceBroker | createTopic | reassign => trivial

structure Inv (p : Plane) : Prop where
  traced : p.Traced
  contained : p.store.Contained

theorem Inv.start : Plane.start.Inv :=
  ⟨.start, fun k a ha => by simp [Plane.start, MetadataStore.empty, MetadataStore.assignment] at ha⟩

theorem Inv.step (h : p.Inv) (hs : p.Step cfg cmd q) : q.Inv := by
  refine ⟨h.traced.step hs, ?_⟩
  obtain ⟨⟨u, _, v, hv, hprop⟩, rfl | ⟨m, hm, rfl⟩⟩ := step_cases hs
  · exact h.contained
  intro k a ha
  rcases MetadataStore.applyMetaCommand_follows hm k with
    hsame | ⟨_, _, replicas, ⟨shape, placements, rfl, hr⟩, hk⟩ | ⟨a0, b, ha0, hb, hc⟩
  · exact h.contained k a (hsame ▸ ha)
  · cases ha.symm.trans hk
    exact .placed (hprop replicas hr).1
  · cases ha.symm.trans hb
    exact hc.contained (h.traced.mild hv hprop ha0 hc) (h.contained k a0 ha0)

theorem inv_of_run (hr : Run (Step cfg) ok .start cmds p) : p.Inv :=
  hr.invariant Inv .start (fun _ _ _ hi _ hs => hi.step hs)

/-- Placements and in-sync sets name live brokers only. -/
def NamesLive (p : Plane) : MetaCommand → Prop
  | .createTopic name _ placements => name ∉ p.store.topics →
      ∀ replicas ∈ placements, ∀ id ∈ replicas, id ∈ p.store.liveBrokers
  | .updateISR k epoch isr => ∀ a ∈ p.store.assignment k, a.leaderEpoch = epoch →
      ∀ id ∈ isr, id ∈ p.store.liveBrokers
  | _ => True

instance (p : Plane) (cmd : MetaCommand) : Decidable (p.NamesLive cmd) := by
  unfold NamesLive
  split <;> infer_instance

theorem Inv.in_sync_live (h : p.Inv) (hl : p.store.InSyncLive) (hn : p.NamesLive cmd)
    (hs : p.Step cfg cmd q) : q.store.InSyncLive := by
  obtain ⟨⟨u, _, v, hv, hprop⟩, rfl | ⟨m, hm, rfl⟩⟩ := step_cases hs
  · exact hl
  refine .after hm ?_
  intro k a ha id hid
  rcases MetadataStore.applyMetaCommand_follows hm k with
    hsame | ⟨_, hnew, replicas, ⟨shape, placements, rfl, hr⟩, hk⟩ | ⟨a0, b, ha0, hb, hc⟩
  · exact hl k a (hsame ▸ ha) id hid
  · cases ha.symm.trans hk
    exact hn hnew replicas hr id hid
  cases ha.symm.trans hb
  have hmild := h.traced.mild hv hprop ha0 hc
  rcases hc.joins hid with hold | ⟨isr, rfl, hin⟩ | ⟨_, _, _, rfl⟩
  · exact hl k a0 ha0 id hold
  · rcases hin with hin | ⟨rfl, _⟩
    · exact hn a0 ha0 rfl id hin
    · exact hn a0 ha0 rfl a0.leader hmild
  · cases hmild

/-- While new topics and accepted reports name brokers in service, the in-sync
set of every partition lists replicas, each once, that are registered and not
fenced. -/
theorem in_sync_sets_are_sound {cmds : List MetaCommand}
    (hr : Run (Step cfg) NamesLive .start cmds p) {k : PartitionRef} {a : PartitionAssignment}
    (ha : p.store.assignment k = some a) : a.isr.Nodup ∧ (∀ id ∈ a.isr, id ∈ a.replicas) ∧
      ∀ id ∈ a.isr, ∃ b, p.store.broker id = some b ∧ b.fenced = false := by
  have hall : p.Inv ∧ p.store.InSyncLive := by
    refine hr.invariant (fun p => p.Inv ∧ p.store.InSyncLive) ⟨.start, ?_⟩ ?_
    · intro k a ha
      simp [Plane.start, MetadataStore.empty, MetadataStore.assignment] at ha
    · intro _ _ _ hi hc hs
      exact ⟨hi.1.step hs, hi.1.in_sync_live hi.2 hc hs⟩
  obtain ⟨hn, hsub⟩ := hall.1.contained k a ha
  refine ⟨hn, hsub, fun id hid => ?_⟩
  obtain ⟨b, hb, hlive⟩ := MetadataStore.mem_liveBrokers.mp (hall.2 k a ha id hid)
  exact ⟨b, hb, by simpa [BrokerInfo.live] using hlive⟩

def twoBrokers : List MetaCommand :=
  [.registerBroker "n1" {}, .registerBroker "n2" {},
   .createTopic "orders" ⟨1, 2, 1⟩ [["n1", "n2"]],
   .assignLeader ⟨"orders", 0⟩ "n1" 1 none]

/-- A follower is fenced, comes back and is reported in sync again. -/
theorem in_sync_sets_are_sound_rejoin : ∃ p, Run (Step ⟨false, false⟩) NamesLive .start
        (twoBrokers ++ [.fenceBroker "n2" true 5, .fenceBroker "n2" false 6,
          .updateISR ⟨"orders", 0⟩ 1 ["n1", "n2"]]) p ∧
      ∃ a, p.store.assignment ⟨"orders", 0⟩ = some a ∧ a.isr = ["n1", "n2"] ∧ a.isr.Nodup := by
  refine Run.shown
    (fun p => ((p.store.assignment ⟨"orders", 0⟩).any (fun a => a.isr = ["n1", "n2"])) = true)
    (by decide +kernel) ?_
  rintro p hr ha
  obtain ⟨a, ha, hisr⟩ := (Option.any_eq_true _ _).mp ha
  exact ⟨a, ha, of_decide_eq_true hisr, (in_sync_sets_are_sound hr ha).1⟩

/-- The leader reports a follower in sync after it was fenced: the store takes
it back into the in-sync set. -/
theorem fenced_broker_joins_in_sync_set : ∃ p, Run (Step ⟨false, false⟩) always .start
        (twoBrokers ++ [.fenceBroker "n2" true 5, .updateISR ⟨"orders", 0⟩ 1 ["n1", "n2"]]) p ∧
      (p.store.assignment ⟨"orders", 0⟩).any (fun a => "n2" ∈ a.isr) = true ∧
      (p.store.broker "n2").any (fun b => b.fenced) = true :=
  Run.found (f := step ⟨false, false⟩) _ (by decide +kernel)

end Plane
end Boltq.Cluster
