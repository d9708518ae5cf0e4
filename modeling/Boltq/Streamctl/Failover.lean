import Boltq.Cluster.Elections
import Boltq.Replication.Leader
import Boltq.Replication.Reconcile
import Boltq.Streamctl.Reconciler

namespace Boltq.Streamctl
open Lib Cluster Replication Boltq.Stream Std Option List Function

def sameStringSet (a b : List NodeID) : Bool :=
  decide (a.length = b.length) && b.all (fun y => decide (y ∈ a))

structure Elected where
  leader : NodeID
  epoch : Nat
  acked : List Record

structure Failover (cfg : ControllerConfig) extends Plane where
  logs : NodeID → Partition RecSegment
  acks : NodeID → PartitionAcks
  sent : List (NodeID × Record)
  mail : List (NodeID × NodeID × Nat)
  waiting : List (NodeID × Record)
  acked : List Record
  reports : List (Nat × List NodeID)
  ballots : List (Ballot cfg)
  elected : List Elected

inductive FailoverOp where
  | append (n : NodeID) (rec : Record) (now : Int)
  | fetch (f : NodeID) (view seq : Nat)
  | apply (i : Nat)
  | sendAck (f : NodeID) (view : Nat)
  | recordAck (i : Nat)
  | drop (n f : NodeID)
  | waitFor (i connected : Nat)
  | giveUp (i : Nat)
  | reportISR (n : NodeID) (view : Nat)
  | commitReport (i : Nat)
  | repairLeadership (seen view : Nat)
  | commitBallot (i : Nat)
  | other (cmd : MetaCommand)
  | openTerm (n : NodeID) (view : Nat)
  | resign (n : NodeID)
  | exchange (f : NodeID) (view : Nat)

def fetchesFrom (k : PartitionRef) (m : MetadataStore) (f : NodeID) : Option NodeID :=
  (m.assignment k).bind (fun a =>
    if a.isLeader f = false ∧ f ∈ a.replicas ∧ (leaderAddr m a).isSome then some a.leader else none)

def leadsIn (k : PartitionRef) (m : MetadataStore) (n : NodeID) : Option PartitionAssignment :=
  (m.assignment k).filter (fun a => a.isLeader n)

def Bystander (k : PartitionRef) : MetaCommand → Prop
  | .updateISR k' _ _ => k' ≠ k
  | .assignLeader k' _ _ _ => k' ≠ k
  | _ => True

instance (k : PartitionRef) (cmd : MetaCommand) : Decidable (Bystander k cmd) := by
  induction cmd using MetaCommand.casesOn <;> dsimp only [Bystander] <;> infer_instance

namespace Failover
variable {cfg : ControllerConfig}

def start (cfg : ControllerConfig) (logs : NodeID → Partition RecSegment) : Failover cfg where
  toPlane := .start
  logs n := (logs n).setEnforceLeadership true
  acks _ := ∅
  sent := []
  mail := []
  waiting := []
  acked := []
  reports := []
  ballots := []
  elected := []

def relog (w : Failover cfg) (n : NodeID) (p : Partition RecSegment) : Failover cfg :=
  { w with logs := update w.logs n p }

def step (lcfg : LeaderConfig) (k : PartitionRef) (w : Failover cfg) :
    FailoverOp → Option (Failover cfg)
  | .append n rec now =>
    match (w.logs n).append rec now with
    | (q, .error _) => some (w.relog n q)
    | (q, .ok _) => some { w.relog n q with
        waiting := w.waiting ++ [(n, ((w.logs n).stamp rec now).canonical)] }
  | .fetch f view seq => do
    let m ← w.past[view]?
    let l ← fetchesFrom k m f
    let rec ← (w.logs l).records.find? (fun r => r.seq = seq)
    some { w with sent := w.sent ++ [(f, rec)] }
  | .apply i => do
    let (f, rec) ← w.sent[i]?
    some { w.relog f ((w.logs f).after (.appendReplicated rec)) with sent := w.sent.eraseIdx i }
  | .sendAck f view => do
    let m ← w.past[view]?
    let l ← fetchesFrom k m f
    some { w with mail := w.mail ++ [(l, f, (w.logs f).nextSeq - 1)] }
  | .recordAck i => do
    let (l, f, seq) ← w.mail[i]?
    some { w with
      acks := update w.acks l ((w.acks l).record f seq)
      mail := w.mail.eraseIdx i }
  | .drop n f => some { w with acks := update w.acks n ((w.acks n).drop f) }
  | .waitFor i connected => do
    let (n, rec) ← w.waiting[i]?
    match Replication.waitFor lcfg ((w.acks n).countAtLeast rec.seq) connected with
    | some (.ok _) => some { w with
        waiting := w.waiting.eraseIdx i
        acked := w.acked ++ [rec] }
    | _ => none
  | .giveUp i => some { w with waiting := w.waiting.eraseIdx i }
  | .reportISR n view => do
    let m ← w.past[view]?
    let a ← leadsIn k m n
    let isr := n :: inSyncReplicas lcfg (w.logs n).nextSeq (w.acks n)
    if sameStringSet isr a.isr then some w
    else some { w with reports := w.reports ++ [(a.leaderEpoch, isr)] }
  | .commitReport i => do
    let (epoch, isr) ← w.reports[i]?
    some { w with
      toPlane := w.toPlane.commit (.updateISR k epoch isr)
      reports := w.reports.eraseIdx i }
  | .repairLeadership seen view => do
    let seen ← w.past[seen]?
    let view ← w.past[view]?
    some { w with ballots := w.ballots ++ Cluster.ballots cfg seen.liveBrokers view }
  | .commitBallot i => do
    let b ← w.ballots[i]?
    match w.store.applyMetaCommand b.cmd with
    | .error _ => some { w with ballots := w.ballots.eraseIdx i }
    | .ok _ => some { w with
        toPlane := w.toPlane.commit b.cmd
        ballots := w.ballots.eraseIdx i
        elected := if b.k = k ∧ b.leader ≠ "" then w.elected ++ [⟨b.leader, b.epoch, w.acked⟩]
          else w.elected }
  | .other cmd => if Bystander k cmd then some { w with toPlane := w.toPlane.commit cmd } else none
  | .openTerm n view => do
    let m ← w.past[view]?
    let a ← leadsIn k m n
    some (w.relog n ((w.logs n).becomeLeaderFor a.leaderEpoch).1)
  | .resign n => some (w.relog n (w.logs n).resign)
  | .exchange f view => do
    let m ← w.past[view]?
    let l ← fetchesFrom k m f
    some (w.relog f (reconcileEpoch (w.logs f) (some (w.logs l))).1)

def Step (lcfg : LeaderConfig) (k : PartitionRef) (w : Failover cfg) (op : FailoverOp)
    (t : Failover cfg) : Prop :=
  w.step lcfg k op = some t

def Complete (w : Failover cfg) (id : NodeID) : Prop :=
  ∀ r ∈ w.acked, r ∈ (w.logs id).records
  deriving Decidable

/-- An append is answered once every member of the in-sync set has its record. A
report brings in, and an election finds, only nodes that are in sync in this
sense: those brought in have every acknowledged record, and nobody has left the
in-sync set since the controller read it. A follower is given records of its own
term or newer, and truncates only after a leader that has the acknowledged
records it has. -/
def Guarded (k : PartitionRef) (w : Failover cfg) : FailoverOp → Prop
  | .apply i => ∀ x ∈ w.sent[i]?, (w.logs x.1).Fresh (.appendReplicated x.2)
  | .waitFor i _ => ∀ x ∈ w.waiting[i]?, ∃ a ∈ w.store.assignment k,
      ∀ id ∈ a.isr, x.2 ∈ (w.logs id).records
  | .commitReport i => ∀ x ∈ w.reports[i]?, ∀ a ∈ w.store.assignment k, x.1 = a.leaderEpoch →
      ∀ id ∈ a.leader :: x.2, id ∉ a.isr → w.Complete id
  | .commitBallot i => ∀ b ∈ w.ballots[i]?, b.k = k → b.Stands w.store
  | .exchange f view => ∀ m ∈ w.past[view]?, ∀ l ∈ fetchesFrom k m f,
      ∀ r ∈ w.acked, r ∈ (w.logs f).records → r ∈ (w.logs l).records
  | _ => True

instance (k : PartitionRef) (w : Failover cfg) (op : FailoverOp) : Decidable (w.Guarded k op) := by
  unfold Guarded
  split <;> infer_instance

structure Inv (k : PartitionRef) (w : Failover cfg) : Prop where
  described : ∀ n, (w.logs n).Described
  members : ∀ a, w.store.assignment k = some a → ∀ id ∈ a.isr, w.Complete id
  assigned : w.store.assignment k = none → w.acked = []
  within : ∀ e ∈ w.elected, ∀ r ∈ e.acked, r ∈ w.acked
  leaders : ∀ e ∈ w.elected, ∀ r ∈ e.acked, r ∈ (w.logs e.leader).records

section Steps
variable {k : PartitionRef} {lcfg : LeaderConfig} {w t : Failover cfg}

theorem Inv.start {logs : NodeID → Partition RecSegment} (h : ∀ n, (logs n).Described) :
    (Failover.start cfg logs).Inv k where
  described n := (h n).after (Partition.storable_rec _ (.enforceLeadership true)) trivial
  members a ha := by
    simp [Failover.start, Plane.start, MetadataStore.empty, MetadataStore.assignment] at ha
  assigned _ := rfl
  within _ he := by simp [Failover.start] at he
  leaders _ he := by simp [Failover.start] at he

section
variable (h : w.Inv k)
include h

theorem Inv.frame (hs : t.store = w.store) (hl : t.logs = w.logs)
    (ha : t.acked = w.acked) (he : t.elected = w.elected) : t.Inv k := by
  refine ⟨hl ▸ h.described, ?_, by rw [hs, ha]; exact h.assigned, by rw [he, ha]; exact h.within,
    by rw [he, hl]; exact h.leaders⟩
  unfold Complete
  rw [hs, hl, ha]
  exact h.members

theorem Inv.relog {p : Partition RecSegment} (hp : p.Described)
    (hkeep : ∀ r ∈ w.acked, r ∈ (w.logs n).records → r ∈ p.records) : (w.relog n p).Inv k := by
  have hheld : ∀ id, ∀ r ∈ w.acked, r ∈ (w.logs id).records →
      r ∈ ((w.relog n p).logs id).records := by
    intro id r hr hold
    simp only [Failover.relog, update_apply]
    split
    · rename_i hid
      exact hkeep r hr (hid ▸ hold)
    · exact hold
  refine ⟨fun id => ?_, fun a ha id hid r hr => hheld id r hr (h.members a ha id hid r hr),
    h.assigned, h.within, fun e he r hr => hheld e.leader r (h.within e he r hr)
      (h.leaders e he r hr)⟩
  simp only [Failover.relog, update_apply]
  split
  · exact hp
  · exact h.described id

theorem Inv.call (hf : (w.logs n).Fresh op) (ht : ∀ seq, op ≠ .truncateTo seq)
    (hr : ∀ now, op ≠ .enforceRetention now) : (w.relog n ((w.logs n).after op)).Inv k := by
  have hd := h.described n
  have hst := Partition.storable_rec (w.logs n) op
  refine h.relog (hd.after hst hf) (fun r _ hold => ?_)
  exact (hd.wf.accounted hst).kept r hold (fun seq he => absurd he (ht seq)) hr

theorem Inv.commit {cmd : MetaCommand}
    (hjoin : ∀ a b, w.store.assignment k = some a → cmd.Changes k a b →
      ∀ id ∈ b.isr, id ∉ a.isr → w.Complete id) :
    ({ w with toPlane := w.toPlane.commit cmd } : Failover cfg).Inv k := by
  rcases hm : w.store.applyMetaCommand cmd with _ | m
  · exact h.frame (by simp only [Plane.commit, hm]) rfl rfl rfl
  have hstore : (w.toPlane.commit cmd).store = m := by simp only [Plane.commit, hm]
  refine ⟨h.described, ?_, ?_, h.within, h.leaders⟩
  · intro b hb id hid
    rw [hstore] at hb
    rcases MetadataStore.applyMetaCommand_follows hm k with hs | ⟨hnone, _⟩ | ⟨a, b', ha, hb', hc⟩
    · exact h.members b (hs ▸ hb) id hid
    · intro r hr
      rw [h.assigned hnone] at hr
      cases hr
    · cases hb'.symm.trans hb
      by_cases hin : id ∈ a.isr
      · exact h.members a ha id hin
      · exact hjoin a b ha hc id hid hin
  · intro hnone
    apply h.assigned
    rw [hstore] at hnone
    cases ha : w.store.assignment k with
    | none => rfl
    | some a =>
      obtain ⟨b, hb, _⟩ := (MetadataStore.applyMetaCommand_follows hm k).later ha
      rw [hnone] at hb
      cases hb

theorem Inv.append {n : NodeID} {rec : Record} {now : Int}
    (hs : w.Step lcfg k (.append n rec now) t) : t.Inv k := by
  have hcall := h.call (n := n) (show (w.logs n).Fresh (.append rec now) from trivial)
    (fun _ => nofun) (fun _ => nofun)
  simp only [Partition.after] at hcall
  simp only [Step, step] at hs
  split at hs <;> rename_i hq <;> cases hs
  · simpa only [hq] using hcall
  · rw [hq] at hcall
    exact hcall.frame rfl rfl rfl rfl

theorem Inv.waitFor (hg : w.Guarded k (.waitFor i connected))
    (hs : w.Step lcfg k (.waitFor i connected) t) : t.Inv k := by
  simp only [Step, step, bind_eq_bind, bind_eq_some_iff] at hs
  obtain ⟨⟨n, rec⟩, hw, ht⟩ := hs
  obtain ⟨now, hnow, hall⟩ := hg (n, rec) hw
  dsimp only at ht
  split at ht
  · cases ht
    refine ⟨h.described, ?_, ?_, ?_, h.leaders⟩
    · intro a ha id hid r hr
      cases ha.symm.trans hnow
      rcases mem_append.mp hr with hold | hnew
      · exact h.members _ hnow id hid r hold
      · exact mem_singleton.mp hnew ▸ hall id hid
    · intro hnone
      cases hnone.symm.trans hnow
    · intro e he r hr
      exact mem_append_left _ (h.within e he r hr)
  · cases ht

theorem Inv.commitReport (hg : w.Guarded k (.commitReport i))
    (hs : w.Step lcfg k (.commitReport i) t) : t.Inv k := by
  simp only [Step, step, bind_eq_bind, bind_eq_some_iff] at hs
  obtain ⟨⟨epoch, isr⟩, hw, ht⟩ := hs
  cases ht
  have hjoin : ∀ a b, w.store.assignment k = some a →
      (MetaCommand.updateISR k epoch isr).Changes k a b →
        ∀ id ∈ b.isr, id ∉ a.isr → w.Complete id := by
    intro a b ha hc id hid hout
    rcases hc.joins hid with hin | ⟨isr', hcmd, hmem⟩ | ⟨_, _, _, hcmd⟩
    · exact absurd hin hout
    · injection hcmd with _ hepoch hisr
      refine hg (epoch, isr) hw a ha hepoch id ?_ hout
      rcases hisr ▸ hmem with hin | ⟨rfl, _⟩
      · exact mem_cons_of_mem _ hin
      · exact mem_cons_self
    · cases hcmd
  exact (h.commit hjoin).frame rfl rfl rfl rfl

end

theorem Inv.commitBallot (hcfg : cfg.allowUncleanElection = false) (h : w.Inv k)
    (hg : w.Guarded k (.commitBallot i)) (hs : w.Step lcfg k (.commitBallot i) t) : t.Inv k := by
  simp only [Step, step, bind_eq_bind, bind_eq_some_iff] at hs
  obtain ⟨b, hb, ht⟩ := hs
  have hcommit : ({ w with toPlane := w.toPlane.commit b.cmd } : Failover cfg).Inv k := by
    refine h.commit ?_
    intro a a' ha hc id hid hout
    rcases hc.joins hid with hin | ⟨_, hcmd, _⟩ | ⟨_, _, _, hcmd⟩
    · exact absurd hin hout
    · cases hcmd
    · cases hcmd
  cases hm : w.store.applyMetaCommand b.cmd with
  | error e =>
    simp only [hm, some.injEq] at ht
    subst ht
    exact h.frame rfl rfl rfl rfl
  | ok m =>
    simp only [hm, some.injEq] at ht
    subst ht
    refine ⟨hcommit.described, hcommit.members, hcommit.assigned, ?_, ?_⟩
    · intro e he r hr
      dsimp only at he
      split at he
      · rcases mem_append.mp he with hold | hnew
        · exact h.within e hold r hr
        · cases mem_singleton.mp hnew
          exact hr
      · exact h.within e he r hr
    · intro e he r hr
      dsimp only at he
      split at he
      · rename_i hk
        rcases mem_append.mp he with hold | hnew
        · exact h.leaders e hold r hr
        cases mem_singleton.mp hnew
        obtain ⟨a, _, ha, hin, _⟩ := Elections.clean_of_stands hcfg (hg b hb hk.1) hm hk.2
        exact h.members a (hk.1 ▸ ha) b.leader hin r hr
      · exact h.leaders e he r hr

theorem Inv.openTerm (h : w.Inv k) (hs : w.Step lcfg k (.openTerm n view) t) : t.Inv k := by
  simp only [Step, step, bind_eq_bind, bind_eq_some_iff] at hs
  obtain ⟨m, _, a, _, ht⟩ := hs
  cases ht
  rcases Partition.becomeLeaderFor_after (w.logs n) a.leaderEpoch with hq | hq | hq <;> rw [hq]
  · exact h.relog (h.described n) (fun _ _ hold => hold)
  · exact h.call trivial (fun _ => nofun) (fun _ => nofun)
  · exact h.call trivial (fun _ => nofun) (fun _ => nofun)

theorem Inv.exchange (h : w.Inv k) (hg : w.Guarded k (.exchange f view))
    (hs : w.Step lcfg k (.exchange f view) t) : t.Inv k := by
  simp only [Step, step, bind_eq_bind, bind_eq_some_iff] at hs
  obtain ⟨m, hm, l, hl, ht⟩ := hs
  cases ht
  obtain ⟨hd, hkeep⟩ := reconcileEpoch_keeps (h.described f) (h.described l)
  exact h.relog hd (fun r hr hold => hkeep r hold (hg m hm l hl r hr hold))

theorem Inv.step (hcfg : cfg.allowUncleanElection = false) (h : w.Inv k) (hg : w.Guarded k op)
    (hs : w.Step lcfg k op t) : t.Inv k := by
  cases op with
  | append n rec now => exact h.append hs
  | waitFor i connected => exact h.waitFor hg hs
  | commitReport i => exact h.commitReport hg hs
  | commitBallot i => exact h.commitBallot hcfg hg hs
  | openTerm n view => exact h.openTerm hs
  | exchange f view => exact h.exchange hg hs
  | fetch f view seq =>
    simp only [Step, Failover.step, bind_eq_bind, bind_eq_some_iff] at hs
    obtain ⟨_, _, _, _, _, _, ht⟩ := hs
    cases ht
    exact h.frame rfl rfl rfl rfl
  | apply i =>
    simp only [Step, Failover.step, bind_eq_bind, bind_eq_some_iff] at hs
    obtain ⟨⟨f, rec⟩, hx, ht⟩ := hs
    cases ht
    exact (h.call (hg (f, rec) hx) (fun _ => nofun) (fun _ => nofun)).frame rfl rfl rfl rfl
  | sendAck f view =>
    simp only [Step, Failover.step, bind_eq_bind, bind_eq_some_iff] at hs
    obtain ⟨_, _, _, _, ht⟩ := hs
    cases ht
    exact h.frame rfl rfl rfl rfl
  | recordAck i =>
    simp only [Step, Failover.step, bind_eq_bind, bind_eq_some_iff] at hs
    obtain ⟨_, _, ht⟩ := hs
    cases ht
    exact h.frame rfl rfl rfl rfl
  | drop n f | giveUp i =>
    cases hs
    exact h.frame rfl rfl rfl rfl
  | reportISR n view =>
    simp only [Step, Failover.step, bind_eq_bind, bind_eq_some_iff] at hs
    obtain ⟨_, _, _, _, ht⟩ := hs
    split at ht <;> cases ht
    · exact h
    · exact h.frame rfl rfl rfl rfl
  | repairLeadership seen view =>
    simp only [Step, Failover.step, bind_eq_bind, bind_eq_some_iff] at hs
    obtain ⟨_, _, _, _, ht⟩ := hs
    cases ht
    exact h.frame rfl rfl rfl rfl
  | other cmd =>
    simp only [Step, Failover.step] at hs
    split at hs <;> cases hs
    rename_i hby
    refine h.commit (fun a b ha hc id hid hout => ?_)
    rcases hc.joins hid with hin | ⟨_, rfl, _⟩ | ⟨_, _, _, rfl⟩
    · exact absurd hin hout
    · exact absurd rfl hby
    · exact absurd rfl hby
  | resign n =>
    cases hs
    have hfresh : (w.logs n).Fresh .resign := trivial
    exact h.call hfresh (fun _ => nofun) (fun _ => nofun)

/-- Along every run that keeps to `Guarded`, a node elected without unclean
elections has, from the commit of its election on and so when its term opens,
every record acknowledged before. -/
theorem acknowledged_records_survive_failover (hcfg : cfg.allowUncleanElection = false)
    {logs : NodeID → Partition RecSegment} (hlogs : ∀ n, ∃ topic id pcfg,
      Partition.openPartition topic id ⟨[], []⟩ pcfg = .ok (logs n))
    {ops : List FailoverOp} (hr : Run (Step lcfg k) (Guarded k) (Failover.start cfg logs) ops w) :
    ∀ e ∈ w.elected, ∀ r ∈ e.acked, r ∈ (w.logs e.leader).records := by
  have hinit : (Failover.start cfg logs).Inv k := by
    refine .start (fun n => ?_)
    obtain ⟨_, _, _, ho⟩ := hlogs n
    exact .of_empty ho
  exact (hr.invariant (Inv k) hinit (fun _ _ _ hi hg hs => hi.step hcfg hg hs)).leaders

end Steps

def orders : PartitionRef := ⟨"orders", 0⟩

def emptyLogs (_ : NodeID) : Partition RecSegment :=
  .fresh "orders" 0 defaultPartitionConfig.applyDefaults ⟨[]⟩

def firstTerm : List FailoverOp :=
  [.other (.registerBroker "n1" { streamAddr := "a" }),
   .other (.registerBroker "n2" { streamAddr := "b" }),
   .other (.registerBroker "n3" { streamAddr := "c" }),
   .other (.createTopic "orders" ⟨1, 3, 2⟩ [["n1", "n2", "n3"]]),
   .repairLeadership 4 4, .commitBallot 0, .openTerm "n1" 5, .append "n1" (.ofPayload [1]) 5]

def replicate (f : NodeID) : List FailoverOp :=
  [.fetch f 5 1, .apply 0, .sendAck f 5, .recordAck 0]

def failover : List FailoverOp :=
  [.other (.fenceBroker "n1" true 9), .repairLeadership 6 6, .commitBallot 0, .openTerm "n2" 7]

/-- Both followers have the record before the append is answered. -/
theorem acknowledged_records_survive_failover_both :
    ∃ w, Run (Step { minInSync := 2, maxLagInSync := 10000 } orders) (Guarded orders)
        (start ⟨false, false⟩ emptyLogs)
        (firstTerm ++ replicate "n2" ++ replicate "n3" ++ [.waitFor 0 2] ++ failover) w ∧
      (w.elected.map (fun e => (e.leader, e.epoch, e.acked.length))) =
        [("n1", 1, 0), ("n2", 2, 1)] ∧
      ∀ e ∈ w.elected, ∀ r ∈ e.acked, r ∈ (w.logs e.leader).records := by
  obtain ⟨w, hr, helected⟩ := Run.executed (Guarded orders)
    (step { minInSync := 2, maxLagInSync := 10000 } orders) (start ⟨false, false⟩ emptyLogs)
    (firstTerm ++ replicate "n2" ++ replicate "n3" ++ [.waitFor 0 2] ++ failover)
    (fun w : Failover ⟨false, false⟩ => (w.elected.map (fun e =>
      (e.leader, e.epoch, e.acked.length))) = [("n1", 1, 0), ("n2", 2, 1)]) (by decide +kernel)
  refine ⟨w, hr, helected, acknowledged_records_survive_failover rfl (fun n => ?_) hr⟩
  exact ⟨"orders", 0, defaultPartitionConfig, Partition.open_fresh "orders" 0 defaultPartitionConfig⟩

/-- One follower acknowledges, which is enough to answer the append. The other is
in the in-sync set without the record, is elected and opens its term. -/
theorem failover_loses_acknowledged_record :
    ∃ w, Run (Step { minInSync := 2, maxLagInSync := 10000 } orders) always
        (start ⟨false, false⟩ emptyLogs)
        (firstTerm ++ replicate "n3" ++ [.waitFor 0 2] ++ failover) w ∧
      (w.elected.getLast?).any (fun e => e.leader = "n2" ∧ e.epoch = 2 ∧ e.acked = w.acked) = true ∧
      w.acked.length = 1 ∧ (w.logs "n2").isLeader = true ∧ (w.logs "n2").records = [] :=
  Run.found (f := step { minInSync := 2, maxLagInSync := 10000 } orders) _ (by decide +kernel)

end Failover
end Boltq.Streamctl
