import Boltq.Cluster.Plane

namespace Boltq.Cluster
open Lib Std List PartitionAssignment Option

structure Ballot (cfg : ControllerConfig) where
  live : List NodeID
  view : MetadataStore
  k : PartitionRef
  leader : NodeID
  epoch : Nat
  proposed : .assignLeader k leader epoch none ∈ repairLeadership cfg live view

namespace Ballot
variable {cfg : ControllerConfig}

def cmd (b : Ballot cfg) : MetaCommand := .assignLeader b.k b.leader b.epoch none

theorem clean (hc : cfg.allowUncleanElection = false) (b : Ballot cfg) (hl : b.leader ≠ "") :
    ∃ a, b.view.assignment b.k = some a ∧ b.leader ∈ b.live ∧ b.leader ∈ a.isr := by
  obtain ⟨k, a, ha, _, he⟩ := mem_repairLeadership.mp b.proposed
  injection he with hk hleader _ _
  refine ⟨a, hk ▸ ha, ?_⟩
  rcases electLeader_clean hc a b.live with hel | ⟨hnone, _⟩
  · exact eligible_iff.mp (hleader ▸ hel)
  · exact absurd (hleader.trans hnone) hl

def Stands (b : Ballot cfg) (m : MetadataStore) : Prop :=
  ∀ a ∈ b.view.assignment b.k, ∀ now ∈ m.assignment b.k, now.leaderEpoch < b.epoch →
    ∀ id ∈ a.isr, id ∈ now.isr ∧ (id ∈ b.live → id ∈ m.liveBrokers)
  deriving Decidable

end Ballot

def ballots (cfg : ControllerConfig) (live : List NodeID) (view : MetadataStore) :
    List (Ballot cfg) :=
  (repairLeadership cfg live view).attach.filterMap (fun
    | ⟨.assignLeader k leader epoch none, h⟩ => some ⟨live, view, k, leader, epoch, h⟩
    | _ => none)

structure Elections (cfg : ControllerConfig) extends Plane where
  pending : List (Ballot cfg)
  won : List (MetadataStore × Ballot cfg)

inductive ElectionOp where
  | repairLeadership (seen view : Nat)
  | commit (ballot : Nat)
  | other (cmd : MetaCommand)
  deriving DecidableEq

namespace Elections
variable {cfg : ControllerConfig} {s t : Elections cfg} {op : ElectionOp}

def start (cfg : ControllerConfig) : Elections cfg := ⟨.start, [], []⟩

def step (s : Elections cfg) : ElectionOp → Option (Elections cfg)
  | .repairLeadership i j => do
    let seen ← s.past[i]?
    let view ← s.past[j]?
    some { s with pending := s.pending ++ ballots cfg seen.liveBrokers view }
  | .commit n => do
    let b ← s.pending[n]?
    match s.store.applyMetaCommand b.cmd with
    | .error _ => some { s with pending := s.pending.eraseIdx n }
    | .ok _ => some {
        toPlane := s.toPlane.commit b.cmd
        pending := s.pending.eraseIdx n
        won := s.won ++ [(s.store, b)] }
  | .other cmd => some { s with toPlane := s.toPlane.commit cmd }

def Step (s : Elections cfg) (op : ElectionOp) (t : Elections cfg) : Prop := s.step op = some t

theorem step_won (h : s.Step op t) :
    t.won = s.won ∨ ∃ n b m, op = .commit n ∧ s.pending[n]? = some b ∧
      s.store.applyMetaCommand b.cmd = .ok m ∧ t.won = s.won ++ [(s.store, b)] := by
  cases op with
  | repairLeadership i j =>
    simp only [Step, step, bind_eq_bind, bind_eq_some_iff] at h
    obtain ⟨_, _, _, _, ht⟩ := h
    cases ht
    exact .inl rfl
  | commit n =>
    simp only [Step, step, bind_eq_bind, bind_eq_some_iff] at h
    obtain ⟨b, hb, ht⟩ := h
    cases hm : s.store.applyMetaCommand b.cmd with
    | error e =>
      simp only [hm, some.injEq] at ht
      subst ht
      exact .inl rfl
    | ok m =>
      simp only [hm, some.injEq] at ht
      subst ht
      exact .inr ⟨n, b, m, rfl, hb, hm, rfl⟩
  | other cmd =>
    cases h
    exact .inl rfl

/-- An election commits on the assignment it was decided on. -/
def Standing (s : Elections cfg) : ElectionOp → Prop
  | .commit n => ∀ b ∈ s.pending[n]?, b.Stands s.store
  | _ => True

instance (s : Elections cfg) (op : ElectionOp) : Decidable (s.Standing op) := by
  unfold Standing
  split <;> infer_instance

def Clean (m : MetadataStore) (b : Ballot cfg) : Prop :=
  b.leader ≠ "" → ∃ a info, m.assignment b.k = some a ∧ b.leader ∈ a.isr ∧
    m.broker b.leader = some info ∧ info.fenced = false

theorem clean_of_stands (hc : cfg.allowUncleanElection = false) {b : Ballot cfg} (hs : b.Stands m)
    (hm : m.applyMetaCommand b.cmd = .ok m') : Clean m b := by
  intro hl
  obtain ⟨a, ha, hlive, hin⟩ := b.clean hc hl
  obtain ⟨now, hnow, hlt, _⟩ := MetadataStore.applyAssignLeader_ok hm
  obtain ⟨hnowin, hnowlive⟩ := hs a ha now hnow hlt b.leader hin
  obtain ⟨info, hinfo, hlv⟩ := MetadataStore.mem_liveBrokers.mp (hnowlive hlive)
  exact ⟨now, info, hnow, hnowin, hinfo, by simpa [BrokerInfo.live] using hlv⟩

/-- Every election that wins while it stands names a broker in the in-sync set
and in service just before its commit. -/
theorem elections_are_clean (hc : cfg.allowUncleanElection = false) {ops : List ElectionOp}
    (hr : Run Step Standing (start cfg) ops s) :
    ∀ e ∈ s.won, e.2.leader ≠ "" → ∃ a info, e.1.assignment e.2.k = some a ∧
      e.2.leader ∈ a.isr ∧ e.1.broker e.2.leader = some info ∧ info.fenced = false := by
  refine hr.invariant (fun s => ∀ e ∈ s.won, Clean e.1 e.2) ?_ ?_
  · intro e he
    simp [start] at he
  intro s op t hi hok hs e he
  rcases step_won hs with hsame | ⟨n, b, m, rfl, hb, hm, ht⟩
  · exact hi e (hsame ▸ he)
  rcases mem_append.mp (ht ▸ he) with hold | hnew
  · exact hi e hold
  · cases mem_singleton.mp hnew
    exact clean_of_stands hc (hok b hb) hm

def placedTopic : List ElectionOp :=
  [.other (.registerBroker "n1" {}), .other (.registerBroker "n2" {}),
   .other (.createTopic "orders" ⟨1, 2, 1⟩ [["n1", "n2"]])]

/-- The first leader is elected while another topic is created. -/
theorem elections_are_clean_first : ∃ s, Run Step Standing (start ⟨false, false⟩)
        (placedTopic ++ [.repairLeadership 3 3,
          .other (.createTopic "audit" ⟨0, 2, 1⟩ []), .commit 0]) s ∧
      s.won.length = 1 ∧ ∀ e ∈ s.won, e.2.leader ≠ "" → ∃ a info,
        e.1.assignment e.2.k = some a ∧ e.2.leader ∈ a.isr ∧
          e.1.broker e.2.leader = some info ∧ info.fenced = false := by
  refine Run.shown (fun s => s.won.length = 1) (by decide +kernel) ?_
  rintro s hr hlen
  exact ⟨hlen, elections_are_clean rfl hr⟩

/-- The elected broker is fenced between the pass and the commit: it wins without
being in the in-sync set or in service. -/
theorem fenced_broker_wins_election : ∃ s, Run Step always (start ⟨false, false⟩)
        (placedTopic ++ [.repairLeadership 3 3, .other (.fenceBroker "n1" true 5), .commit 0]) s ∧
      s.won.any (fun e => e.2.leader = "n1" ∧ (e.1.assignment e.2.k).any (fun a => "n1" ∉ a.isr) ∧
        (e.1.broker "n1").any (fun info => info.fenced)) = true :=
  Run.found (f := step) _ (by decide +kernel)

end Elections

namespace MetadataStore
variable {m m' : MetadataStore}

theorem commitAll_cons (h : m.commitAll (cmd :: cmds) = .ok m') :
    ∃ m1, m.applyMetaCommand cmd = .ok m1 ∧ m1.commitAll cmds = .ok m' := by
  simp only [commitAll, foldlM_cons] at h
  cases hm : m.applyMetaCommand cmd with
  | error e => simp [hm, bind, Except.bind] at h
  | ok m1 =>
    rw [hm] at h
    exact ⟨m1, rfl, h⟩

theorem commitAll_leader {next : NodeID} (h : m.commitAll cmds = .ok m') (ha : m.assignment k = some a)
    (hall : ∀ cmd ∈ cmds, ∃ k' leader epoch, cmd = .assignLeader k' leader epoch none ∧
      (k' = k → leader = next)) : ∃ b, m'.assignment k = some b ∧ (b.leader = next ∨
      b.leader = a.leader ∧ ∀ leader epoch, .assignLeader k leader epoch none ∉ cmds) := by
  induction cmds generalizing m a with
  | nil =>
    cases h
    exact ⟨a, ha, .inr ⟨rfl, by simp⟩⟩
  | cons cmd cmds ih =>
    obtain ⟨k', leader, epoch, rfl, hk⟩ := hall cmd mem_cons_self
    have hrest := fun c hc => hall c (mem_cons_of_mem _ hc)
    obtain ⟨m1, hm, h1⟩ := commitAll_cons h
    obtain ⟨a', ha', _, rfl⟩ := applyAssignLeader_ok hm
    by_cases he : k' = k
    · subst he
      cases ha.symm.trans ha'
      have ha1 : (m.modifyAssignment k' (.assign leader epoch none)).assignment k' =
          some (a.assign leader epoch none) := by
        rw [modifyAssignment_assignment, if_pos rfl, ha]
        rfl
      obtain ⟨b, hb, hnext | ⟨hkeep, _⟩⟩ := ih h1 ha1 hrest
      · exact ⟨b, hb, .inl hnext⟩
      · exact ⟨b, hb, .inl (hkeep.trans (hk rfl))⟩
    · have ha1 : (m.modifyAssignment k' (.assign leader epoch none)).assignment k = some a := by
        rw [modifyAssignment_assignment, if_neg he, ha]
      obtain ⟨b, hb, hnext | ⟨hkeep, hnone⟩⟩ := ih h1 ha1 hrest
      · exact ⟨b, hb, .inl hnext⟩
      refine ⟨b, hb, .inr ⟨hkeep, fun l e hmem => ?_⟩⟩
      rcases mem_cons.mp hmem with heq | hin
      · injection heq with hk' _ _ _
        exact he hk'.symm
      · exact hnone l e hin

theorem repairLeadership_leader (h : m.commitAll (repairLeadership cfg m.liveBrokers m) = .ok m')
    (ha : m.assignment k = some a) :
    ∃ b, m'.assignment k = some b ∧ b.leader = (electLeader cfg a m.liveBrokers).1 := by
  have hall : ∀ cmd ∈ repairLeadership cfg m.liveBrokers m, ∃ k' leader epoch,
      cmd = .assignLeader k' leader epoch none ∧
        (k' = k → leader = (electLeader cfg a m.liveBrokers).1) := by
    intro cmd hcmd
    obtain ⟨k', a', ha', _, rfl⟩ := mem_repairLeadership.mp hcmd
    refine ⟨k', _, _, rfl, ?_⟩
    rintro rfl
    cases ha.symm.trans ha'
    rfl
  obtain ⟨b, hb, hnext | ⟨hkeep, hnone⟩⟩ := commitAll_leader h ha hall
  · exact ⟨b, hb, hnext⟩
  refine ⟨b, hb, ?_⟩
  by_contra hne
  rw [hkeep] at hne
  exact hnone _ _ (mem_repairLeadership.mpr ⟨k, a, ha, fun he => hne he.symm, rfl⟩)

theorem commitAll_keeps (P : MetadataStore → Prop) (h : m.commitAll cmds = .ok m') (h0 : P m)
    (hs : ∀ cmd ∈ cmds, ∀ m m', P m → m.applyMetaCommand cmd = .ok m' → P m') : P m' := by
  induction cmds generalizing m with
  | nil =>
    cases h
    exact h0
  | cons cmd cmds ih =>
    obtain ⟨m1, hm, hrest⟩ := commitAll_cons h
    exact ih hrest (hs cmd mem_cons_self m m1 h0 hm)
      (fun c hc => hs c (mem_cons_of_mem _ hc))

theorem fenceBroker_assignment {id : NodeID} {fenced : Bool} {at_ : Int} {k : PartitionRef}
    {a : PartitionAssignment} (h : m.applyMetaCommand (.fenceBroker id fenced at_) = .ok m')
    (ha : m.assignment k = some a) :
    ∃ b, m'.assignment k = some b ∧ b.replicas = a.replicas ∧ (∀ x ∈ b.isr, x ∈ a.isr) ∧
      ∀ x ∈ a.isr, (x = id → fenced = false) → x ∈ b.isr := by
  rcases applyMetaCommand_follows h k with hs | ⟨hn, _⟩ | ⟨a', b, ha', hb, hf, rfl⟩
  · exact ⟨a, hs.trans ha, rfl, fun _ hx => hx, fun _ hx _ => hx⟩
  · rw [ha] at hn
    cases hn
  cases ha.symm.trans ha'
  refine ⟨_, hb, ?_, fun x hx => (mem_shrinkISR.mp hx).1, ?_⟩
  · unfold shrinkISR
    split <;> rfl
  · intro x hx hne
    refine mem_shrinkISR.mpr ⟨hx, fun he => ?_⟩
    have := hne he
    simp_all

def Fencing (cmds : List MetaCommand) : Prop :=
  ∀ cmd ∈ cmds, ∃ id fenced at_, cmd = .fenceBroker id fenced at_

section Sweep
variable {cmds : List MetaCommand} {k : PartitionRef} {a : PartitionAssignment}

theorem Fencing.shrinks (hf : Fencing cmds) (h : m.commitAll cmds = .ok m')
    (ha : m.assignment k = some a) :
    ∃ b, m'.assignment k = some b ∧ b.replicas = a.replicas ∧ ∀ x ∈ b.isr, x ∈ a.isr := by
  refine commitAll_keeps
    (fun m => ∃ b, m.assignment k = some b ∧ b.replicas = a.replicas ∧ ∀ x ∈ b.isr, x ∈ a.isr)
    h ⟨a, ha, rfl, fun _ hx => hx⟩ ?_
  rintro cmd hcmd m1 m2 ⟨b, hb, hrep, hsub⟩ hm
  obtain ⟨id, fenced, at_, rfl⟩ := hf cmd hcmd
  obtain ⟨c, hc, hrep', hsub', _⟩ := fenceBroker_assignment hm hb
  exact ⟨c, hc, hrep'.trans hrep, fun x hx => hsub x (hsub' x hx)⟩

theorem Fencing.named (hf : Fencing cmds) (h : m.commitAll cmds = .ok m')
    (hn : m.broker "" = none) : m'.broker "" = none := by
  refine commitAll_keeps (fun m => m.broker "" = none) h hn ?_
  intro cmd hcmd m1 m2 h1 hm
  obtain ⟨id, fenced, at_, rfl⟩ := hf cmd hcmd
  rcases applyMetaCommand_broker hm "" with hs | ⟨_, hc, _⟩ | ⟨hc, _⟩ | ⟨_, _, b, _, hb, _⟩
  · exact hs.trans h1
  · cases hc
  · cases hc
  · rw [h1] at hb
    cases hb

theorem Fencing.spares (hf : Fencing cmds) (h : m.commitAll cmds = .ok m')
    (ha : m.assignment k = some a) (hx : x ∈ a.isr) (hl : x ∈ m.liveBrokers)
    (hn : ∀ at_, .fenceBroker x true at_ ∉ cmds) :
    x ∈ m'.liveBrokers ∧ ∃ b, m'.assignment k = some b ∧ x ∈ b.isr := by
  refine commitAll_keeps
    (fun m => x ∈ m.liveBrokers ∧ ∃ b, m.assignment k = some b ∧ x ∈ b.isr) h ⟨hl, a, ha, hx⟩ ?_
  rintro cmd hcmd m1 m2 ⟨hl1, b, hb, hxb⟩ hm
  obtain ⟨id, fenced, at_, rfl⟩ := hf cmd hcmd
  refine ⟨?_, ?_⟩
  · rcases live_after hm hl1 with hlive | hd | ⟨at', hd⟩
    · exact hlive
    · cases hd
    · exact absurd (hd ▸ hcmd) (hn at')
  · obtain ⟨c, hc, _, _, hkeep⟩ := fenceBroker_assignment hm hb
    refine ⟨c, hc, hkeep x hxb ?_⟩
    rintro rfl
    cases fenced with
    | false => rfl
    | true => exact absurd hcmd (hn at_)

theorem fenceBroker_out {id x : NodeID} {fenced : Bool} {at_ : Int}
    (h : m.applyMetaCommand (.fenceBroker id fenced at_) = .ok m') (ha : m.assignment k = some a)
    (hl : x ∈ m.liveBrokers ∨ x ∉ a.isr) :
    ∃ b, m'.assignment k = some b ∧ (x ∈ m'.liveBrokers ∨ x ∉ b.isr) ∧
      (x = id → fenced = true → x ∉ b.isr) := by
  obtain ⟨b, hb, _, hsub, _⟩ := fenceBroker_assignment h ha
  refine ⟨b, hb, ?_⟩
  rcases hl with hlive | hx
  · refine ⟨?_, ?_⟩
    · rcases live_after h hlive with hlive' | hd
      · exact .inl hlive'
      · exact .inr (dropped_leaves h hlive hd hb)
    · rintro rfl rfl
      exact dropped_leaves h hlive (.inr ⟨at_, rfl⟩) hb
  · have hout : x ∉ b.isr := fun hin => hx (hsub x hin)
    exact ⟨.inr hout, fun _ _ => hout⟩

theorem Fencing.removes (hf : Fencing cmds) (h : m.commitAll cmds = .ok m')
    (ha : m.assignment k = some a) (hl : x ∈ m.liveBrokers ∨ x ∉ a.isr)
    (hmem : .fenceBroker x true at_ ∈ cmds) : ∃ b, m'.assignment k = some b ∧ x ∉ b.isr := by
  induction cmds generalizing m a with
  | nil => simp at hmem
  | cons cmd cmds ih =>
    obtain ⟨m1, hm, hrest⟩ := commitAll_cons h
    obtain ⟨id, fenced, at', rfl⟩ := hf cmd mem_cons_self
    have hf' : Fencing cmds := fun c hc => hf c (mem_cons_of_mem _ hc)
    obtain ⟨b, hb, hkeep, hout⟩ := fenceBroker_out hm ha hl
    rcases mem_cons.mp hmem with heq | hin
    · injection heq with hx hfen _
      obtain ⟨c, hc, _, hsub⟩ := hf'.shrinks hrest hb
      exact ⟨c, hc, fun hxc => hout hx hfen.symm (hsub x hxc)⟩
    · exact ih hf' hrest hb hkeep hin

end Sweep

def heard (alive known : NodeID → Bool) (inGrace : Bool) (id : NodeID) : Bool :=
  alive id || (inGrace && !known id)

def reconcile (m : MetadataStore) (cfg : ControllerConfig) (alive known : NodeID → Bool)
    (inGrace : Bool) (now : Int) : Except MetaErr MetadataStore := do
  let swept ← m.commitAll (sweepLiveness m alive known inGrace now)
  swept.commitAll (repairLeadership cfg swept.liveBrokers swept)

section Reconcile
variable {cfg : ControllerConfig} {alive known : NodeID → Bool} {inGrace : Bool} {now : Int}

theorem sweepLiveness_fencing (m : MetadataStore) :
    Fencing (sweepLiveness m alive known inGrace now) := by
  intro cmd hcmd
  obtain ⟨⟨id, b⟩, _, hb⟩ := mem_filterMap.mp hcmd
  dsimp only at hb
  split at hb
  · exact ⟨id, false, now, (some.inj hb).symm⟩
  split at hb
  · exact ⟨id, true, now, (some.inj hb).symm⟩
  · cases hb

theorem mem_sweepLiveness (hx : x ∈ m.liveBrokers) :
    (∃ at_, .fenceBroker x true at_ ∈ sweepLiveness m alive known inGrace now) ↔
      heard alive known inGrace x = false := by
  constructor
  · rintro ⟨at_, hmem⟩
    obtain ⟨⟨id, b⟩, _, hb⟩ := mem_filterMap.mp hmem
    dsimp only at hb
    split at hb
    · cases hb
    split at hb
    · rename_i hcond
      injection some.inj hb with hid _ _
      subst hid
      simp only [Bool.and_eq_true, Bool.not_eq_true'] at hcond
      simp [heard, hcond]
    · cases hb
  · intro hh
    obtain ⟨b, hb, hlive⟩ := mem_liveBrokers.mp hx
    refine ⟨now, mem_filterMap.mpr ⟨(x, b), TreeMap.mem_toList_iff_getElem?_eq_some.mpr hb, ?_⟩⟩
    simp only [heard, Bool.or_eq_false_iff] at hh
    simp only [BrokerInfo.live, Bool.not_eq_true'] at hlive
    simp [hh, hlive]

theorem sweepLiveness_isr (h : m.commitAll (sweepLiveness m alive known inGrace now) = .ok m')
    (ha : m.assignment k = some a) (hlive : ∀ id ∈ a.isr, id ∈ m.liveBrokers) :
    ∃ b, m'.assignment k = some b ∧ b.replicas = a.replicas ∧ ∀ x,
      (x ∈ b.isr ↔ x ∈ a.isr ∧ heard alive known inGrace x = true) ∧
      (x ∈ b.isr → x ∈ m'.liveBrokers) := by
  have hf : Fencing (sweepLiveness m alive known inGrace now) := sweepLiveness_fencing m
  obtain ⟨b, hb, hrep, hsub⟩ := hf.shrinks h ha
  refine ⟨b, hb, hrep, fun x => ?_⟩
  have hfenced : x ∈ a.isr →
      ((∃ at_, .fenceBroker x true at_ ∈ sweepLiveness m alive known inGrace now) ↔
        heard alive known inGrace x = false) := fun hx => mem_sweepLiveness (hlive x hx)
  have hkept : x ∈ a.isr → heard alive known inGrace x = true →
      x ∈ m'.liveBrokers ∧ x ∈ b.isr := by
    intro hx hh
    have hn : ∀ at_, .fenceBroker x true at_ ∉ sweepLiveness m alive known inGrace now := by
      intro at_ hmem
      rw [(hfenced hx).mp ⟨at_, hmem⟩] at hh
      cases hh
    obtain ⟨hl, b', hb', hin⟩ := hf.spares h ha hx (hlive x hx) hn
    cases hb.symm.trans hb'
    exact ⟨hl, hin⟩
  have hheard : x ∈ b.isr → x ∈ a.isr ∧ heard alive known inGrace x = true := by
    intro hx
    refine ⟨hsub x hx, ?_⟩
    by_contra hnot
    obtain ⟨at_, hmem⟩ := (hfenced (hsub x hx)).mpr (by simpa using hnot)
    obtain ⟨b', hb', hout⟩ := hf.removes h ha (.inl (hlive x (hsub x hx))) hmem
    cases hb.symm.trans hb'
    exact hout hx
  exact ⟨⟨hheard, fun hx => (hkept hx.1 hx.2).2⟩, fun hx => (hkept (hheard hx).1 (hheard hx).2).1⟩

theorem electLeader_named (hc : cfg.allowUncleanElection = false) {a : PartitionAssignment}
    (hsub : ∀ id ∈ a.isr, id ∈ a.replicas) (hlive : ∀ id ∈ a.isr, id ∈ live) (hn : "" ∉ live) :
    (electLeader cfg a live).1 ≠ "" ↔ ∃ id, id ∈ a.isr := by
  constructor
  · intro hne
    rcases electLeader_clean hc a live with hel | ⟨hnone, _⟩
    · exact ⟨_, (eligible_iff.mp hel).2⟩
    · exact absurd hnone hne
  · rintro ⟨id, hid⟩ he
    rcases electLeader_clean hc a live with hel | ⟨_, hno, _⟩
    · exact hn (he ▸ (eligible_iff.mp hel).1)
    have := hno id (hsub id hid)
    rw [eligible_iff.mpr ⟨hlive id hid, hid⟩] at this
    cases this

end Reconcile

end MetadataStore

namespace Plane
variable {cfg : ControllerConfig} {p : Plane}

/-- Once all replicas of a partition are in service, a pass gives it a leader
exactly when its in-sync set has a member that is heard from. -/
theorem outage_recovers_iff {cmds : List MetaCommand} {alive known : NodeID → Bool}
    {inGrace : Bool} {now : Int} {m : MetadataStore} {k : PartitionRef} {a : PartitionAssignment}
    (hc : cfg.allowUncleanElection = false) (hr : Run (Step cfg) always .start cmds p)
    (ha : p.store.assignment k = some a) (hlive : ∀ id ∈ a.replicas, id ∈ p.store.liveBrokers)
    (hm : p.store.reconcile cfg alive known inGrace now = .ok m) :
    (∃ b, m.assignment k = some b ∧ b.leader ≠ "") ↔
      ∃ id ∈ a.isr, MetadataStore.heard alive known inGrace id = true := by
  have hinv := inv_of_run hr
  have hsub := (hinv.contained k a ha).2
  simp only [MetadataStore.reconcile] at hm
  cases hs : p.store.commitAll (sweepLiveness p.store alive known inGrace now) with
  | error e => simp [hs, bind, Except.bind] at hm
  | ok swept =>
    rw [hs] at hm
    obtain ⟨b, hb, hrep, hisr⟩ :=
      MetadataStore.sweepLiveness_isr hs ha (fun id hid => hlive id (hsub id hid))
    obtain ⟨c, hc', hleader⟩ := MetadataStore.repairLeadership_leader hm hb
    have hblank : "" ∉ swept.liveBrokers := by
      intro hmem
      obtain ⟨info, hinfo, _⟩ := MetadataStore.mem_liveBrokers.mp hmem
      rw [(MetadataStore.sweepLiveness_fencing p.store).named hs hinv.traced.named] at hinfo
      cases hinfo
    have helect := MetadataStore.electLeader_named hc
      (fun id hid => hrep ▸ hsub id ((hisr id).1.mp hid).1) (fun id => (hisr id).2) hblank
    calc (∃ b, m.assignment k = some b ∧ b.leader ≠ "") ↔ c.leader ≠ "" := by simp [hc']
      _ ↔ ∃ id, id ∈ b.isr := by rw [hleader, helect]
      _ ↔ ∃ id ∈ a.isr, MetadataStore.heard alive known inGrace id = true :=
        exists_congr (fun id => (hisr id).1)

/-- The leader is no longer heard from: the pass fences it and hands over. -/
theorem outage_recovers_iff_handover : ∃ p m, Run (Step ⟨false, false⟩) always .start twoBrokers p ∧
      p.store.reconcile ⟨false, false⟩ (fun id => id = "n2") (fun _ => true) false 9 = .ok m ∧
      ∃ b, m.assignment ⟨"orders", 0⟩ = some b ∧ b.leader ≠ "" := by
  obtain ⟨p, hr, ha, hm⟩ := Run.executed always (step ⟨false, false⟩) .start twoBrokers
    (fun p => (p.store.assignment ⟨"orders", 0⟩).any (fun a =>
        a.isr = ["n1", "n2"] ∧ ∀ id ∈ a.replicas, id ∈ p.store.liveBrokers) = true ∧
      (p.store.reconcile ⟨false, false⟩ (fun id => id = "n2") (fun _ => true) false 9).isOk = true)
    (by decide +kernel)
  obtain ⟨a, ha, hisr⟩ := (any_eq_true _ _).mp ha
  obtain ⟨hisr, hlive⟩ := of_decide_eq_true hisr
  cases hrec : p.store.reconcile ⟨false, false⟩ (fun id => id = "n2") (fun _ => true) false 9 with
  | error e => simp [hrec, Except.isOk, Except.toBool] at hm
  | ok m =>
    refine ⟨p, m, hr, hrec, (outage_recovers_iff rfl hr ha hlive hrec).mpr ⟨"n2", ?_, rfl⟩⟩
    simp [hisr]

/-- Both brokers are fenced one after the other and come back: no pass elects a
leader, although every replica is in service. -/
theorem outage_never_recovers : ∃ p, Run (Step ⟨false, false⟩) always .start
        (twoBrokers ++ [.fenceBroker "n1" true 5, .fenceBroker "n2" true 6,
          .fenceBroker "n1" false 7, .fenceBroker "n2" false 8]) p ∧
      (p.store.assignment ⟨"orders", 0⟩).any (fun a =>
        ∀ id ∈ a.replicas, id ∈ p.store.liveBrokers) = true ∧
      ((p.store.reconcile ⟨false, false⟩ (fun _ => true) (fun _ => true) false 9).toOption.bind
        (fun m => m.assignment ⟨"orders", 0⟩)).any (fun b => b.leader = "") = true :=
  Run.found (f := step ⟨false, false⟩) _ (by decide +kernel)

end Plane
end Boltq.Cluster
