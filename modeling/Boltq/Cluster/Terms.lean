import Boltq.Cluster.Metadata
import Boltq.Stream.Leadership

namespace Boltq.Cluster
open Lib Boltq.Stream MetadataStore List Partition

def MetaCommand.grants (cmd : MetaCommand) (k : PartitionRef) : List (NodeID × Nat) :=
  match cmd with
  | .assignLeader k' leader epoch _ => if k' = k then [(leader, epoch)] else []
  | _ => []

theorem MetadataStore.grants_newer {m : MetadataStore} (h : m.applyMetaCommand cmd = .ok m')
    (hg : g ∈ cmd.grants k) :
    cmd.grants k = [g] ∧ ∃ a b, m.assignment k = some a ∧ m'.assignment k = some b ∧
      a.leaderEpoch < g.2 ∧ b.leaderEpoch = g.2 := by
  cases cmd with
  | assignLeader k' leader epoch isr =>
    simp only [MetaCommand.grants] at hg ⊢
    split at hg
    · rename_i hk
      subst hk
      cases mem_singleton.mp hg
      obtain ⟨a, ha, hlt, rfl⟩ := applyAssignLeader_ok h
      refine ⟨by simp, a, a.assign leader epoch isr, ha, ?_, hlt, rfl⟩
      simp [modifyAssignment_assignment, ha]
    · simp at hg
  | _ => simp [MetaCommand.grants] at hg

structure World where
  metadata : MetadataStore
  granted : List (NodeID × Nat)
  nodes : NodeID → Partition RecSegment
  held : List Record
  written : List (NodeID × Record)

inductive WorldOp where
  | commit (cmd : MetaCommand)
  | becomeLeaderFor (n : NodeID) (epoch : Nat)
  | resignFor (n : NodeID)
  | enforceLeadership (n : NodeID) (on : Bool)
  | append (n : NodeID) (rec : Record) (now : Int)
  | appendReplicated (n : NodeID) (rec : Record)
  | truncateTo (n : NodeID) (seq : Nat)
  | restart (n : NodeID) (segments records : Nat) (cfg : PartitionConfig)

namespace World

def start (k : PartitionRef) (cfg : NodeID → PartitionConfig) : World where
  metadata := .empty
  granted := []
  nodes n := .fresh k.topic k.partition (cfg n).applyDefaults ⟨[]⟩
  held := []
  written := []

def setNode (w : World) (n : NodeID) (q : Partition RecSegment) : World :=
  { w with nodes := Function.update w.nodes n q, held := w.held ++ q.records }

def step (k : PartitionRef) (w : World) : WorldOp → Option World
  | .commit cmd =>
    match w.metadata.applyMetaCommand cmd with
    | .error _ => some w
    | .ok m => some { w with metadata := m, granted := w.granted ++ cmd.grants k }
  | .becomeLeaderFor n epoch =>
    if (n, epoch) ∈ w.granted then some (w.setNode n ((w.nodes n).becomeLeaderFor epoch).1)
    else none
  | .resignFor n => some (w.setNode n (w.nodes n).resign)
  | .enforceLeadership n on => some (w.setNode n ((w.nodes n).setEnforceLeadership on))
  | .append n rec now =>
    match (w.nodes n).append rec now with
    | (q, .error _) => some (w.setNode n q)
    | (q, .ok _) => some { w.setNode n q with
        written := w.written ++ [(n, ((w.nodes n).stamp rec now).canonical)] }
  | .appendReplicated n rec =>
    if rec ∈ w.held then some (w.setNode n ((w.nodes n).appendReplicated rec).1) else none
  | .truncateTo n seq => some (w.setNode n ((w.nodes n).truncateTo seq).1)
  | .restart n segments records cfg =>
    match Partition.openPartition k.topic k.partition ((w.nodes n).crash segments records) cfg with
    | .error _ => none
    | .ok q => some (w.setNode n q)

def Step (k : PartitionRef) (w : World) (op : WorldOp) (u : World) : Prop := w.step k op = some u

def Unique (w : World) : Prop :=
  ∀ r ∈ w.held, ∀ s ∈ w.held, r.epoch ≠ 0 → r.epoch = s.epoch → r.seq = s.seq → r = s

/-- A node appends under a term it was granted, with all it wrote in it still in its log. -/
def OwnTerm (w : World) : WorldOp → Prop
  | .append n _ _ =>
    ((w.nodes n).enforceLeadership = false ∨ (w.nodes n).isLeader = true) →
    (w.nodes n).curEpoch ≠ 0 →
    (n, (w.nodes n).curEpoch) ∈ w.granted ∧
    ∀ x ∈ w.written, x.1 = n → x.2.epoch = (w.nodes n).curEpoch → x.2 ∈ (w.nodes n).records
  | _ => True

instance (w : World) (op : WorldOp) : Decidable (w.OwnTerm op) := by
  unfold OwnTerm
  split <;> infer_instance

structure Inv (k : PartitionRef) (w : World) : Prop where
  wf : ∀ n, (w.nodes n).WellFormed
  holds : ∀ n, ∀ r ∈ (w.nodes n).records, r ∈ w.held
  canonical : ∀ r ∈ w.held, r.canonical = r
  sourced : ∀ r ∈ w.held, r.epoch ≠ 0 → ∃ n, (n, r) ∈ w.written
  owned : ∀ x ∈ w.written, x.2.epoch ≠ 0 → (x.1, x.2.epoch) ∈ w.granted
  distinct : ∀ x ∈ w.written, ∀ y ∈ w.written, x.2.epoch ≠ 0 → x.2.epoch = y.2.epoch →
    x.2.seq = y.2.seq → x.2 = y.2
  reached : ∀ g ∈ w.granted, ∃ a, w.metadata.assignment k = some a ∧ g.2 ≤ a.leaderEpoch
  single : ∀ g ∈ w.granted, ∀ g' ∈ w.granted, g.2 = g'.2 → g = g'

variable {k : PartitionRef} {w u : World}

theorem Inv.unique (h : w.Inv k) : w.Unique := by
  intro r hr s hs hne he hseq
  obtain ⟨n, hn⟩ := h.sourced r hr hne
  obtain ⟨m, hm⟩ := h.sourced s hs (he ▸ hne)
  exact h.distinct _ hn _ hm hne he hseq

theorem Inv.start (k : PartitionRef) (cfg : NodeID → PartitionConfig) : (start k cfg).Inv k where
  wf n := (Partition.Described.of_empty (open_fresh k.topic k.partition (cfg n))).wf
  holds n r hr := by simp [World.start, records, segments, fresh,
    SegmentStore.createSegment, LawfulSegmentStore.records] at hr
  canonical r hr := by cases hr
  sourced r hr := by cases hr
  owned x hx := by cases hx
  distinct x hx := by cases hx
  reached g hg := by cases hg
  single g hg := by cases hg

theorem wf_setNode {q : Partition RecSegment} (h : ∀ m, (w.nodes m).WellFormed) (hq : q.WellFormed)
    (m : NodeID) : ((w.setNode n q).nodes m).WellFormed := by
  simp only [World.setNode, Function.update_apply]
  split
  · exact hq
  · exact h m

theorem holds_setNode (h : ∀ m, ∀ r ∈ (w.nodes m).records, r ∈ w.held) (m : NodeID) :
    ∀ r ∈ ((w.setNode n q).nodes m).records, r ∈ (w.setNode n q).held := by
  intro r hm
  simp only [World.setNode, Function.update_apply] at hm ⊢
  split at hm
  · exact mem_append_right _ hm
  · exact mem_append_left _ (h m r hm)

theorem Inv.setNode {q : Partition RecSegment} (h : w.Inv k) (hq : q.WellFormed)
    (hr : ∀ r ∈ q.records, r ∈ w.held) : (w.setNode n q).Inv k := by
  have hheld : ∀ r ∈ (w.setNode n q).held, r ∈ w.held := by
    intro r hmem
    exact (mem_append.mp hmem).elim id (hr r)
  exact ⟨wf_setNode h.wf hq, holds_setNode h.holds, fun r hm => h.canonical r (hheld r hm),
    fun r hm => h.sourced r (hheld r hm), h.owned, h.distinct, h.reached, h.single⟩

theorem Inv.call (n : NodeID) (op : Op) (h : w.Inv k)
    (ho : ∀ r ∈ (w.nodes n).offered op, r ∈ w.held) :
    (w.setNode n ((w.nodes n).after op)).Inv k := by
  have hst := storable_rec (w.nodes n) op
  refine h.setNode ((h.wf n).after hst) ?_
  intro r hr
  exact (((h.wf n).accounted hst).gained r hr).elim (h.holds n r) (ho r)

theorem Inv.commit (h : w.Inv k) (hm : w.metadata.applyMetaCommand cmd = .ok m) :
    { w with metadata := m, granted := w.granted ++ cmd.grants k : World }.Inv k := by
  have hmono := applyMetaCommand_follows hm k
  have hnewer : ∀ g ∈ w.granted, ∀ g' ∈ cmd.grants k, g.2 < g'.2 := by
    intro g hg g' hg'
    obtain ⟨a, ha, hle⟩ := h.reached g hg
    obtain ⟨_, a', _, ha', _, hlt, _⟩ := grants_newer hm hg'
    rw [ha] at ha'
    cases ha'
    exact Nat.lt_of_le_of_lt hle hlt
  refine ⟨h.wf, h.holds, h.canonical, h.sourced, ?_, h.distinct, ?_, ?_⟩
  · intro x hx hne
    exact mem_append_left _ (h.owned x hx hne)
  · intro g hg
    rcases mem_append.mp hg with hg | hg
    · obtain ⟨a, ha, hle⟩ := h.reached g hg
      obtain ⟨b, hb, hab⟩ := hmono.later ha
      exact ⟨b, hb, Nat.le_trans hle hab.1⟩
    · obtain ⟨_, _, b, _, hb, _, hbe⟩ := grants_newer hm hg
      exact ⟨b, hb, Nat.le_of_eq hbe.symm⟩
  · intro g hg g' hg' he
    rcases mem_append.mp hg with hg | hg <;> rcases mem_append.mp hg' with hg' | hg'
    · exact h.single g hg g' hg' he
    · exact absurd he (Nat.ne_of_lt (hnewer g hg g' hg'))
    · exact absurd he.symm (Nat.ne_of_lt (hnewer g' hg' g hg))
    · have hone := (grants_newer hm hg).1
      rw [hone, mem_singleton] at hg'
      exact hg'.symm

theorem Inv.below_head {n : NodeID} {rec : Record} {now : Int} {y : NodeID × Record} (h : w.Inv k)
    (ho : w.OwnTerm (.append n rec now))
    (hw : (w.nodes n).enforceLeadership = false ∨ (w.nodes n).isLeader = true)
    (hne : (w.nodes n).curEpoch ≠ 0) (hy : y ∈ w.written)
    (he : y.2.epoch = (w.nodes n).curEpoch) : y.2.seq < (w.nodes n).nextSeq := by
  obtain ⟨hgrant, hstill⟩ := ho hw hne
  have hown : (y.1, (w.nodes n).curEpoch) ∈ w.granted := he ▸ h.owned y hy (he ▸ hne)
  have hnode : y.1 = n := congrArg Prod.fst (h.single _ hown _ hgrant rfl)
  exact ((h.wf n).seq_range (hstill y hy hnode he)).2

theorem Inv.append {n : NodeID} {rec : Record} {now : Int} {q : Partition RecSegment} {seq : Nat}
    (h : w.Inv k) (ho : w.OwnTerm (.append n rec now))
    (ha : (w.nodes n).append rec now = (q, .ok seq)) :
    { w.setNode n q with
      written := w.written ++ [(n, ((w.nodes n).stamp rec now).canonical)] : World }.Inv k := by
  have hw := append_accepted ha
  obtain ⟨hwf, hrec⟩ : q.WellFormed ∧
      q.records = (w.nodes n).records ++ [((w.nodes n).stamp rec now).canonical] := by
    rcases append_cases (h.wf n) (storable_rec _ (.append rec now)) with
      ⟨e, he⟩ | ⟨q', he, hext⟩
    · rw [ha] at he
      cases he
    · rw [ha] at he
      cases he
      exact ⟨hext.wf, hext.records⟩
  generalize hx : ((w.nodes n).stamp rec now).canonical = x at hrec ⊢
  have hxe : x.epoch = (w.nodes n).curEpoch := hx ▸ rfl
  have hxs : x.seq = (w.nodes n).nextSeq := hx ▸ rfl
  have hheld : ∀ r ∈ (w.setNode n q).held, r ∈ w.held ∨ r = x := by
    intro r hr
    rcases mem_append.mp hr with hr | hr
    · exact .inl hr
    rw [hrec] at hr
    rcases mem_append.mp hr with hr | hr
    · exact .inl (h.holds n r hr)
    · exact .inr (mem_singleton.mp hr)
  have hbelow : ∀ y ∈ w.written, x.epoch ≠ 0 → y.2.epoch = x.epoch → y.2.seq < x.seq := by
    intro y hy hne he
    rw [hxs]
    exact h.below_head ho hw (hxe ▸ hne) hy (he.trans hxe)
  refine ⟨wf_setNode h.wf hwf, holds_setNode h.holds, ?_, ?_, ?_, ?_, h.reached, h.single⟩
  · intro r hr
    rcases hheld r hr with hr | rfl
    · exact h.canonical r hr
    · rw [← hx]
      exact canonical_canonical _
  · intro r hr hne
    rcases hheld r hr with hr | rfl
    · obtain ⟨m, hm⟩ := h.sourced r hr hne
      exact ⟨m, mem_append_left _ hm⟩
    · exact ⟨n, mem_append_right _ mem_cons_self⟩
  · intro y hy hne
    rcases mem_append.mp hy with hy | hy
    · exact h.owned y hy hne
    cases mem_singleton.mp hy
    rw [hxe] at hne ⊢
    exact (ho hw hne).1
  · intro y hy z hz hne he hseq
    rcases mem_append.mp hy with hy | hy <;> rcases mem_append.mp hz with hz | hz
    · exact h.distinct y hy z hz hne he hseq
    · cases mem_singleton.mp hz
      exact absurd hseq (Nat.ne_of_lt (hbelow y hy (he ▸ hne) he))
    · cases mem_singleton.mp hy
      exact absurd hseq.symm (Nat.ne_of_lt (hbelow z hz hne he.symm))
    · cases mem_singleton.mp hy
      cases mem_singleton.mp hz
      rfl

theorem Inv.step (h : w.Inv k) (ho : w.OwnTerm op) (hs : w.Step k op u) : u.Inv k := by
  cases op with
  | commit cmd =>
    simp only [Step, World.step] at hs
    cases hm : w.metadata.applyMetaCommand cmd with
    | error e =>
      simp only [hm, Option.some.injEq] at hs
      exact hs ▸ h
    | ok m =>
      simp only [hm, Option.some.injEq] at hs
      exact hs ▸ h.commit hm
  | becomeLeaderFor n epoch =>
    simp only [Step, World.step] at hs
    split at hs
    · cases hs
      obtain ⟨hwf, hrec⟩ := (h.wf n).becomeLeaderFor epoch
      exact h.setNode hwf (fun r hr => h.holds n r ((hrec r).mp hr))
    · cases hs
  | resignFor n =>
    cases hs
    exact h.call n .resign (by simp [offered])
  | enforceLeadership n on =>
    cases hs
    exact h.call n (.enforceLeadership on) (by simp [offered])
  | append n rec now =>
    simp only [Step, World.step] at hs
    split at hs
    · rename_i q e ha
      cases hs
      rcases append_cases (h.wf n) (storable_rec _ (.append rec now)) with
        ⟨e', he⟩ | ⟨q', he, _⟩
      · rw [ha] at he
        cases he
        exact h.setNode (h.wf n) (h.holds n)
      · rw [ha] at he
        cases he
    · rename_i q seq ha
      cases hs
      exact h.append ho ha
  | appendReplicated n rec =>
    simp only [Step, World.step] at hs
    split at hs
    · rename_i hmem
      cases hs
      refine h.call n (.appendReplicated rec) ?_
      intro r hr
      rw [mem_singleton.mp hr, h.canonical rec hmem]
      exact hmem
    · cases hs
  | truncateTo n seq =>
    cases hs
    exact h.call n (.truncateTo seq) (by simp [offered])
  | restart n segments records cfg =>
    simp only [Step, World.step] at hs
    obtain ⟨q, hq, hwf, hpre, _⟩ :=
      crash_opens k.topic k.partition cfg segments records (h.wf n)
    rw [hq] at hs
    cases hs
    exact h.setNode hwf (fun r hr => h.holds n r (hpre.subset hr))

/-- Whatever is committed, opened, appended, replicated, cut or lost in a
restart, epoch and sequence name one record, as long as nodes append only under
their own terms and with everything they appended in them at hand. -/
theorem term_and_sequence_name_one_record {cfg : NodeID → PartitionConfig} {ops : List WorldOp}
    (hr : Run (Step k) OwnTerm (World.start k cfg) ops w) : w.Unique :=
  (hr.invariant (Inv k) (Inv.start k cfg) (fun _ _ _ hi ho hs => hi.step ho hs)).unique

def chat : PartitionRef := ⟨"chat", 0⟩

def twoNodes : World := World.start chat (fun _ => defaultPartitionConfig)

def stored (seq epoch : Nat) (payload : UInt8) : Record :=
  (stampAs seq epoch 5 (.ofPayload [payload])).canonical

def firstTerm : List WorldOp :=
  [.commit (.createTopic "chat" ⟨1, 2, 1⟩ [["n1", "n2"]]),
    .commit (.assignLeader chat "n1" 1 none), .enforceLeadership "n1" true,
    .enforceLeadership "n2" true, .becomeLeaderFor "n1" 1, .append "n1" (.ofPayload [1]) 5,
    .appendReplicated "n2" (stored 1 1 1)]

def twoTerms : List WorldOp :=
  firstTerm ++ [.restart "n1" 1 0 defaultPartitionConfig, .enforceLeadership "n1" true,
    .becomeLeaderFor "n1" 1, .append "n1" (.ofPayload [2]) 5,
    .commit (.assignLeader chat "n2" 2 none), .resignFor "n1", .becomeLeaderFor "n2" 2,
    .append "n2" (.ofPayload [3]) 5]

theorem two_terms_name_one_record :
    ∃ w, Run (Step chat) OwnTerm (World.start chat (fun _ => defaultPartitionConfig)) twoTerms w ∧
      (w.nodes "n1").records = [stored 1 1 1, stored 2 1 2] ∧
      (w.nodes "n2").records = [stored 1 1 1, stored 2 2 3] ∧ w.Unique := by
  refine Run.shown (fun w => (w.nodes "n1").records = [stored 1 1 1, stored 2 1 2] ∧
      (w.nodes "n2").records = [stored 1 1 1, stored 2 2 3]) (by decide +kernel) ?_
  rintro w hr ⟨hn1, hn2⟩
  exact ⟨hn1, hn2, term_and_sequence_name_one_record hr⟩

def lostAndReasserted : List WorldOp :=
  firstTerm ++ [.restart "n1" 0 0 defaultPartitionConfig, .enforceLeadership "n1" true,
    .becomeLeaderFor "n1" 1, .append "n1" (.ofPayload [2]) 5]

theorem reasserted_term_reuses_sequence :
    ∃ w, Run (Step chat) always (World.start chat (fun _ => defaultPartitionConfig))
        lostAndReasserted w ∧
      (w.nodes "n1").records = [stored 1 1 2] ∧ (w.nodes "n2").records = [stored 1 1 1] ∧
      ¬ w.Unique := by
  obtain ⟨w, hr, hn1, hn2, h1, h2⟩ := Run.executed always (step chat) twoNodes lostAndReasserted
    (fun w => (w.nodes "n1").records = [stored 1 1 2] ∧ (w.nodes "n2").records = [stored 1 1 1] ∧
      stored 1 1 1 ∈ w.held ∧ stored 1 1 2 ∈ w.held) (by decide +kernel)
  refine ⟨w, hr, hn1, hn2, ?_⟩
  intro hu
  exact absurd (hu _ h1 _ h2 (by decide) rfl rfl) (by decide)

end World
end Boltq.Cluster
