import Boltq.Replication.Leader
import Boltq.Stream.Segment
import Boltq.Stream.Topics

namespace Boltq.Streamctl
open Lib Cluster Replication Boltq.Stream Std

inductive ForwardErr where
  | append (e : AppendErr)
  | notReplicated (e : WaitErr)
  | noLeader (k : PartitionRef)
  | notPromoted (k : PartitionRef)
  | noAddress (leader : NodeID) (k : PartitionRef)
  | transport (k : PartitionRef) (leader : NodeID)
  | status (k : PartitionRef) (leader : NodeID) (code : Nat)
  | deadline
  deriving DecidableEq

structure Peer (S : Type) where
  log : TopicLog S
  view : MetadataStore
  forwarder : Bool
  waiter : Option WaitErr

inductive Attempt where
  | done (appended : Bool) (result : Except ForwardErr AppendResult)
  | forward (k : PartitionRef) (leader : NodeID) (addr : String)
  deriving DecidableEq

section Peer
variable {S : Type}

def Peer.route (peer : Peer S) (id : NodeID) (k : PartitionRef) :
    Except ForwardErr (NodeID × String) :=
  match peer.view.assignment k with
  | none => .error (.noLeader k)
  | some a =>
    if a.leader = "" then .error (.noLeader k)
    else if a.leader = id then .error (.notPromoted k)
    else
      match peer.view.broker a.leader with
      | none => .error (.noAddress a.leader k)
      | some b =>
        if b.adminAddr = "" then .error (.noAddress a.leader k) else .ok (a.leader, b.adminAddr)

def Peer.attempt [SegmentStore S] (peer : Peer S) (id : NodeID) (topic : String) (rec : Record)
    (now : Int) : Peer S × Nat × Attempt :=
  match peer.log.appendLocal topic rec now with
  | (log, pid, .ok res) =>
    ({ peer with log }, pid, .done true (peer.waiter.elim (.ok res) (fun e => .error (.notReplicated e))))
  | (log, pid, .error e) =>
    ({ peer with log }, pid,
      match e, peer.forwarder with
      | .partition (.notPartitionLeader _ _), true =>
        match peer.route id ⟨topic, pid⟩ with
        | .ok (leader, addr) => .forward ⟨topic, pid⟩ leader addr
        | .error e => .done false (.error e)
      | e, _ => .done false (.error (.append e)))

end Peer

structure Net (S : Type) where
  peers : TreeMap NodeID (Peer S)
  listeners : TreeMap String NodeID

inductive Fault where
  | none
  | request
  | response
  deriving DecidableEq

structure Outcome (S : Type) where
  net : Net S
  forwards : Nat
  appended : List NodeID
  result : Except ForwardErr AppendResult

def received (rec : Record) : Record := { rec with seq := 0, timestamp := 0, epoch := 0 }

def failureStatus : ForwardErr → Nat
  | .append (.partition (.notPartitionLeader _ _)) => 421
  | _ => 500

def answered (fault : Fault) (k : PartitionRef) (leader : NodeID) :
    Except ForwardErr AppendResult → Except ForwardErr AppendResult
  | .ok res => if fault = .response then .error (.transport k leader) else .ok res
  | .error e =>
    if fault = .response then .error (.transport k leader)
    else .error (.status k leader (failureStatus e))

variable {S : Type} [SegmentStore S]

def Net.set (net : Net S) (id : NodeID) (peer : Peer S) : Net S :=
  { net with peers := net.peers.insert id peer }

def appendContext (now : Int) : Nat → List Fault → Net S → NodeID → String → Record → Outcome S
  | 0, _, net, _, _, _ => ⟨net, 0, [], .error .deadline⟩
  | fuel + 1, faults, net, id, topic, rec =>
    match net.peers[id]? with
    | none => ⟨net, 0, [], .error .deadline⟩
    | some peer =>
      match peer.attempt id topic rec now with
      | (peer, _, .done appended result) =>
        ⟨net.set id peer, 0, if appended then [id] else [], result⟩
      | (peer, _, .forward k leader addr) =>
        let net := net.set id peer
        let fault := faults.head?.getD .none
        match net.listeners[addr]? with
        | none => ⟨net, 1, [], .error (.transport k leader)⟩
        | some m =>
          if fault = .request then ⟨net, 1, [], .error (.transport k leader)⟩
          else
            let o := appendContext now fuel faults.tail net m topic (received rec)
            ⟨o.net, o.forwards + 1, o.appended, answered fault k leader o.result⟩

variable {now : Int} {net : Net S} {id : NodeID} {topic : String} {rec : Record}

theorem Peer.attempt_partition {peer : Peer S}
    (h : peer.attempt id topic rec now = (peer', pid, .done appended (.ok res))) :
    res.partition = pid := by
  unfold Peer.attempt at h
  split at h
  · rename_i log pid' res' hl
    simp only [Prod.mk.injEq, Attempt.done.injEq] at h
    obtain ⟨_, rfl, _, hres⟩ := h
    cases hw : peer.waiter with
    | none =>
      rw [hw] at hres
      cases hres
      exact TopicLog.appendLocal_partition hl
    | some e =>
      rw [hw] at hres
      cases hres
  · simp only [Prod.mk.injEq] at h
    obtain ⟨_, _, hnext⟩ := h
    split at hnext
    · split at hnext <;> cases hnext
    · cases hnext

def chosen (now : Int) (net : Net S) (id : NodeID) (topic : String) (rec : Record) : Option Nat :=
  (net.peers[id]?).map (fun peer => (peer.attempt id topic rec now).2.1)

def Once {T : Type} (pid : Option Nat) (o : Outcome T) : Prop :=
  o.forwards ≤ 1 ∧ o.appended.length ≤ 1 ∧
    ∀ res, o.result = .ok res → ∃ n, pid = some n ∧ res.partition = n

def Attempt.Settles (pid chosen : Nat) : Attempt → Prop
  | .forward _ _ _ => False
  | .done _ (.ok _) => chosen = pid
  | .done _ (.error _) => True

def Attempt.address : Attempt → Option String
  | .done _ _ => none
  | .forward _ _ addr => some addr

/-- Whoever the write is forwarded to settles it. -/
def LastHop (now : Int) (net : Net S) (id : NodeID) (topic : String) (rec : Record) : Prop :=
  ∀ peer ∈ net.peers[id]?, ∀ addr ∈ (peer.attempt id topic rec now).2.2.address,
    ∀ m ∈ net.listeners[addr]?,
      ∀ next ∈ (net.set id (peer.attempt id topic rec now).1).peers[m]?,
        (next.attempt m topic (received rec) now).2.2.Settles (peer.attempt id topic rec now).2.1
          (next.attempt m topic (received rec) now).2.1

section Calls
variable {peer peer' : Peer S} {pid fuel : Nat} {faults : List Fault} {k : PartitionRef}
  {leader m : NodeID} {addr : String}

section
variable (hp : net.peers[id]? = some peer)
include hp

theorem call_done (ha : peer.attempt id topic rec now = (peer', pid, .done appended result)) :
    appendContext now (fuel + 1) faults net id topic rec =
      ⟨net.set id peer', 0, if appended then [id] else [], result⟩ := by
  simp only [appendContext, hp, ha]

section
variable (ha : peer.attempt id topic rec now = (peer', pid, .forward k leader addr))
include ha

theorem call_lost (hl : net.listeners[addr]? = none ∨ faults.head?.getD .none = .request) :
    appendContext now (fuel + 1) faults net id topic rec =
      ⟨net.set id peer', 1, [], .error (.transport k leader)⟩ := by
  simp only [appendContext, hp, ha, Net.set]
  cases hm : net.listeners[addr]? with
  | none => rfl
  | some m =>
    rcases hl with hnone | hfault
    · rw [hm] at hnone
      cases hnone
    · simp only [hfault, ↓reduceIte]

theorem call_sent (hm : net.listeners[addr]? = some m) (hf : faults.head?.getD .none ≠ .request) :
    appendContext now (fuel + 1) faults net id topic rec =
      let o := appendContext now fuel faults.tail (net.set id peer') m topic (received rec)
      ⟨o.net, o.forwards + 1, o.appended,
        answered (faults.head?.getD .none) k leader o.result⟩ := by
  have hm' : (net.set id peer').listeners[addr]? = some m := hm
  simp only [appendContext, hp, ha, hm', if_neg hf]

theorem call_forwards : 1 ≤ (appendContext now (fuel + 1) faults net id topic rec).forwards := by
  cases hm : net.listeners[addr]? with
  | none => rw [call_lost hp ha (Or.inl hm)]
  | some m =>
    by_cases hf : faults.head?.getD .none = .request
    · rw [call_lost hp ha (Or.inr hf)]
    · rw [call_sent hp ha hm hf]
      exact Nat.le_add_left _ _

end

end

end Calls

theorem once_of_failed {o : Outcome T} (hf : o.forwards ≤ 1) (ha : o.appended = [])
    (hr : o.result = .error e) : Once pid o := by
  refine ⟨hf, by simp [ha], fun res hres => ?_⟩
  rw [hr] at hres
  cases hres

theorem call_failed (h : fuel = 0 ∨ net.peers[id]? = none) :
    appendContext now fuel faults net id topic rec = ⟨net, 0, [], .error .deadline⟩ := by
  cases fuel with
  | zero => rfl
  | succ fuel =>
    rcases h with h0 | hn
    · cases h0
    · simp only [appendContext, hn]

theorem length_if_single (b : Bool) (x : NodeID) : (if b then [x] else []).length ≤ 1 := by
  cases b <;> simp

theorem settled_call (fuel : Nat) (faults : List Fault)
    (h : ∀ peer ∈ net.peers[id]?, (peer.attempt id topic rec now).2.2.Settles pid
      (peer.attempt id topic rec now).2.1) : let o := appendContext now fuel faults net id topic rec
    o.forwards = 0 ∧ o.appended.length ≤ 1 ∧
      ∀ res, o.result = .ok res → res.partition = pid := by
  rcases Nat.eq_zero_or_eq_succ_pred fuel with h0 | hs
  · rw [call_failed (Or.inl h0)]
    exact ⟨rfl, by simp, fun _ hres => by cases hres⟩
  cases hp : net.peers[id]? with
  | none =>
    rw [call_failed (Or.inr hp)]
    exact ⟨rfl, by simp, fun _ hres => by cases hres⟩
  | some peer =>
    have hset := h peer hp
    rcases ha : peer.attempt id topic rec now with ⟨peer', chosen, next⟩
    rw [ha] at hset
    cases next with
    | forward k leader addr => exact absurd hset (fun hf => hf)
    | done appended result =>
      rw [hs, call_done hp ha]
      refine ⟨rfl, length_if_single appended id, ?_⟩
      rintro res rfl
      have hsame : chosen = pid := hset
      rw [Peer.attempt_partition ha, hsame]

theorem answered_ok (h : answered fault k leader result = .ok res) : result = .ok res := by
  unfold answered at h
  split at h <;> split at h
  · cases h
  · exact h
  · cases h
  · cases h

theorem once_of_settled (h : LastHop now net id topic rec) (fuel : Nat) (faults : List Fault) :
    Once (chosen now net id topic rec) (appendContext now fuel faults net id topic rec) := by
  rcases Nat.eq_zero_or_eq_succ_pred fuel with h0 | hs
  · rw [call_failed (Or.inl h0)]
    exact once_of_failed (Nat.zero_le _) rfl rfl
  cases hp : net.peers[id]? with
  | none =>
    rw [call_failed (Or.inr hp)]
    exact once_of_failed (Nat.zero_le _) rfl rfl
  | some peer =>
    have hd := h peer hp
    rcases ha : peer.attempt id topic rec now with ⟨peer', pid, next⟩
    have hpid : chosen now net id topic rec = some pid := by
      rw [chosen, hp, Option.map_some, ha]
    rw [ha] at hd
    rw [hpid, hs]
    cases next with
    | done appended result =>
      rw [call_done hp ha]
      refine ⟨Nat.zero_le _, length_if_single appended id, ?_⟩
      rintro res rfl
      exact ⟨pid, rfl, Peer.attempt_partition ha⟩
    | forward k leader addr =>
      cases hm : net.listeners[addr]? with
      | none =>
        rw [call_lost hp ha (Or.inl hm)]
        exact once_of_failed (Nat.le_refl _) rfl rfl
      | some m =>
        by_cases hf : faults.head?.getD .none = .request
        · rw [call_lost hp ha (Or.inr hf)]
          exact once_of_failed (Nat.le_refl _) rfl rfl
        · obtain ⟨hfw, happ, hres⟩ := settled_call fuel.pred faults.tail (hd addr rfl m hm)
          rw [call_sent hp ha hm hf]
          exact ⟨Nat.le_of_eq (congrArg (· + 1) hfw), happ,
            fun res hok => ⟨pid, rfl, hres res (answered_ok hok)⟩⟩

theorem settled_of_once
    (h : Once (chosen now net id topic rec) (appendContext now 2 [] net id topic rec)) :
    LastHop now net id topic rec := by
  intro peer hp addr haddr m hm next hnext
  rcases ha : peer.attempt id topic rec now with ⟨peer', pid, act⟩
  rw [ha] at haddr hnext
  have hpid : chosen now net id topic rec = some pid := by
    rw [chosen, show net.peers[id]? = some peer from hp, Option.map_some, ha]
  cases act with
  | done appended result => cases haddr
  | forward k leader addr' =>
    cases haddr
    rw [hpid, call_sent hp ha hm (by decide)] at h
    obtain ⟨hf, _, hres⟩ := h
    rcases hb : next.attempt m topic (received rec) now with ⟨next', chosen', act'⟩
    cases act' with
    | forward k' leader' addr' =>
      have hmore : 1 ≤ (appendContext now 1 [] (net.set id peer') m topic (received rec)).forwards :=
        call_forwards hnext hb
      have hfew : (appendContext now 1 [] (net.set id peer') m topic (received rec)).forwards + 1
          ≤ 1 := hf
      omega
    | done appended result =>
      cases result with
      | error e => trivial
      | ok res =>
        have hok : (appendContext now 1 [] (net.set id peer') m topic (received rec)).result =
            .ok res := by rw [call_done hnext hb]
        obtain ⟨n, hn, hpart⟩ := hres res (by dsimp only; rw [List.tail_nil, hok]; rfl)
        cases hn
        have hchosen := Peer.attempt_partition hb
        change chosen' = pid
        omega

section Direct
variable {net : Net FileSegment}

/-- The partition of the topic that the record goes to on this node, by the number of
partitions the node has. -/
def Peer.finds (peer : Peer FileSegment) (topic : String) (rec : Record) :
    Option (Nat × Partition FileSegment) :=
  match (peer.log.getOrCreateTopic topic).2 with
  | .error _ => none
  | .ok ps => (ps[partitionForKey ps.length rec.key]?).map (partitionForKey ps.length rec.key, ·)

def Unled (p : Partition FileSegment) (rec : Record) : Prop :=
  rec.flags &&& flagEphemeral = 0 ∧ p.closed = false ∧ p.enforceLeadership = true ∧ p.isLeader = false

/-- The node does not lead the partition it finds, and its view names another that does. -/
structure Peer.SendsOn (peer : Peer FileSegment) (id : NodeID) (topic : String) (rec : Record)
    (pid : Nat) (leader : NodeID) (addr : String) : Prop where
  unled : ∃ p, peer.finds topic rec = some (pid, p) ∧ Unled p rec
  forwarder : peer.forwarder = true
  route : peer.route id ⟨topic, pid⟩ = .ok (leader, addr)

/-- Where the first node's view sends the write, the receiver's view does not send it on; and a
receiver whose number of partitions gives another partition does not accept it there. -/
def Direct (now : Int) (net : Net FileSegment) (id : NodeID) (topic : String) (rec : Record) : Prop :=
  ∀ peer ∈ net.peers[id]?, ∀ pid leader addr, peer.SendsOn id topic rec pid leader addr →
    ∀ m ∈ net.listeners[addr]?, ∀ next ∈ net.peers[m]?,
      (∀ pid' leader' addr', ¬ next.SendsOn m topic rec pid' leader' addr') ∧
      ∀ pid' p, next.finds topic rec = some (pid', p) → pid' ≠ pid → next.waiter = none →
        ∀ seq, (p.append (received rec) now).2 ≠ .ok seq

theorem append_unled_iff {p : Partition FileSegment} (now : Int) : Unled p rec ↔
    ∃ t i, (p.append rec now).2 = .error (.notPartitionLeader t i) := by
  unfold Partition.append Unled
  split_ifs with he hc hl
  · simp [he]
  · simp [hc]
  · simp_all
  · refine iff_of_false (fun h => hl h.2.2) ?_
    rintro ⟨t, i, h⟩
    cases henc : (p.stamp rec now).encode with
    | error e =>
      rw [henc] at h
      unfold Record.encode at henc
      split_ifs at henc
      · cases henc
        cases h
      · cases henc
        cases h
    | ok encoded =>
      simp only [henc, Partition.write, SegmentStore.append, FileSegment.append] at h
      split_ifs at h
      cases h

theorem getOrCreateTopic_finds {l l' : TopicLog FileSegment} {ps : List (Partition FileSegment)}
    (h : l.getOrCreateTopic topic = (l', .ok ps)) : l'.topics[topic]? = some ps := by
  unfold TopicLog.getOrCreateTopic at h
  split at h
  · rename_i hps
    cases h
    exact hps
  rename_i hnone
  unfold TopicLog.createTopic at h
  split at h
  · cases h
  split at h
  · cases h
  rw [hnone] at h
  cases h
  exact TreeMap.getElem?_insert_self

theorem setPartition_same {l : TopicLog FileSegment} {ps : List (Partition FileSegment)}
    (h : l.topics[topic]? = some ps) (hp : ps[pid]? = some p) :
    (l.setPartition topic pid p).getOrCreateTopic topic = (l.setPartition topic pid p, .ok ps) := by
  have hset : ps.set pid p = ps := by
    obtain ⟨hlt, rfl⟩ := List.getElem?_eq_some_iff.mp hp
    exact List.set_getElem_self hlt
  have hlook : (l.setPartition topic pid p).topics[topic]? = some ps := by
    simp [TopicLog.setPartition, h, hset]
  rw [TopicLog.getOrCreateTopic, hlook]

theorem Peer.attempt_missing {peer : Peer FileSegment} (id : NodeID) (now : Int)
    (h : peer.finds topic rec = none) :
    ∃ log pid e, peer.attempt id topic rec now = ({ peer with log }, pid, .done false (.error e)) := by
  unfold Peer.finds at h
  unfold Peer.attempt TopicLog.appendLocal
  rcases hg : peer.log.getOrCreateTopic topic with ⟨l, e | ps⟩
  · exact ⟨l, 0, _, rfl⟩
  · simp only [hg, Option.map_eq_none_iff] at h
    simp only [h]
    exact ⟨l, _, _, rfl⟩

theorem Peer.attempt_unled {peer : Peer FileSegment} (id : NodeID) (now : Int)
    (h : peer.finds topic rec = some (pid, p))
    (hu : Unled p rec) : ∃ log, (∀ other : Peer FileSegment, other.log = log →
      other.finds topic rec = some (pid, p)) ∧ peer.attempt id topic rec now = ({ peer with log }, pid,
        if peer.forwarder then match peer.route id ⟨topic, pid⟩ with
          | .ok (leader, addr) => .forward ⟨topic, pid⟩ leader addr
          | .error e => .done false (.error e)
        else .done false (.error (.append (.partition (.notPartitionLeader p.topic p.id))))) := by
  unfold Peer.finds at h
  unfold Peer.attempt TopicLog.appendLocal
  rcases hg : peer.log.getOrCreateTopic topic with ⟨l, e | ps⟩
  · simp [hg] at h
  simp only [hg, Option.map_eq_some_iff, Prod.mk.injEq] at h
  obtain ⟨p', hp, rfl, rfl⟩ := h
  have happ : p'.append rec now = (p', .error (.notPartitionLeader p'.topic p'.id)) := by
    simp [Partition.append, hu.1, hu.2.1, hu.2.2.1, hu.2.2.2]
  simp only [hp, happ]
  refine ⟨l.setPartition topic (partitionForKey ps.length rec.key) p', fun other ho => ?_, ?_⟩
  · rw [Peer.finds, ho, setPartition_same (getOrCreateTopic_finds hg) hp]
    simp [hp]
  · cases peer.forwarder <;> rfl

theorem Peer.attempt_led {peer : Peer FileSegment} (id : NodeID) (now : Int)
    (h : peer.finds topic rec = some (pid, p))
    (hu : ¬ Unled p rec) : ∃ peer' b r, peer.attempt id topic rec now = (peer', pid, .done b r) ∧
      ((∃ res, r = .ok res) ↔ peer.waiter = none ∧ ∃ seq, (p.append rec now).2 = .ok seq) := by
  unfold Peer.finds at h
  unfold Peer.attempt TopicLog.appendLocal
  rcases hg : peer.log.getOrCreateTopic topic with ⟨l, e | ps⟩
  · simp [hg] at h
  simp only [hg, Option.map_eq_some_iff, Prod.mk.injEq] at h
  obtain ⟨p', hp, rfl, rfl⟩ := h
  rw [append_unled_iff now] at hu
  rcases ha : p'.append rec now with ⟨q, e | seq⟩
  · simp only [hp, ha]
    rw [ha] at hu
    have hother : ∀ t i, e ≠ .notPartitionLeader t i := fun t i he => hu ⟨t, i, congrArg _ he⟩
    refine ⟨{ peer with log := l.setPartition topic (partitionForKey ps.length rec.key) q }, false,
      .error (.append (.partition e)), ?_, by simp⟩
    cases e <;> first | rfl | exact absurd rfl (hother _ _)
  · simp only [hp, ha]
    refine ⟨_, true, _, rfl, ?_⟩
    cases peer.waiter <;> simp

theorem Peer.attempt_sendsOn {peer : Peer FileSegment} (now : Int)
    (h : peer.SendsOn id topic rec pid leader addr) : ∃ log, (∀ other : Peer FileSegment,
      other.log = log → other.finds topic rec = peer.finds topic rec) ∧
        peer.attempt id topic rec now = ({ peer with log }, pid, .forward ⟨topic, pid⟩ leader addr) := by
  obtain ⟨p, hp, hu⟩ := h.unled
  obtain ⟨log, hsame, ha⟩ := Peer.attempt_unled id now hp hu
  rw [if_pos h.forwarder, h.route] at ha
  exact ⟨log, fun other ho => (hsame other ho).trans hp.symm, ha⟩

/-- An attempt forwards, fails, or succeeds on the partition that the node finds. -/
theorem Peer.attempt_rest {peer : Peer FileSegment} (now : Int)
    (h : ∀ pid leader addr, ¬ peer.SendsOn id topic rec pid leader addr) :
    ∃ peer' pid b r, peer.attempt id topic rec now = (peer', pid, .done b r) ∧
      ∀ res, r = .ok res → peer.waiter = none ∧ ∃ p, peer.finds topic rec = some (pid, p) ∧
        ∃ seq, (p.append rec now).2 = .ok seq := by
  cases hf : peer.finds topic rec with
  | none =>
    obtain ⟨log, pid, e, ha⟩ := Peer.attempt_missing id now hf
    exact ⟨_, pid, false, _, ha, nofun⟩
  | some x =>
    obtain ⟨pid, p⟩ := x
    by_cases hu : Unled p rec
    · obtain ⟨log, -, ha⟩ := Peer.attempt_unled id now hf hu
      cases hfw : peer.forwarder with
      | false =>
        rw [hfw] at ha
        exact ⟨_, pid, false, _, ha, nofun⟩
      | true =>
        rw [hfw, if_pos rfl] at ha
        rcases hroute : peer.route id ⟨topic, pid⟩ with e | ⟨leader, addr⟩
        · rw [hroute] at ha
          exact ⟨_, pid, false, _, ha, nofun⟩
        · exact absurd ⟨⟨p, hf, hu⟩, hfw, hroute⟩ (h pid leader addr)
    · obtain ⟨peer', b, r, ha, hok⟩ := Peer.attempt_led id now hf hu
      refine ⟨peer', pid, b, r, ha, fun res hres => ?_⟩
      obtain ⟨hw, hseq⟩ := hok.mp ⟨res, hres⟩
      exact ⟨hw, p, rfl, hseq⟩

theorem sendsOn_received {peer : Peer FileSegment} :
    peer.SendsOn id topic (received rec) pid leader addr ↔ peer.SendsOn id topic rec pid leader addr :=
  ⟨fun h => ⟨h.unled, h.forwarder, h.route⟩, fun h => ⟨h.unled, h.forwarder, h.route⟩⟩

structure Peer.Alike (topic : String) (rec : Record) (a b : Peer FileSegment) : Prop where
  finds : a.finds topic rec = b.finds topic rec
  view : a.view = b.view
  forwarder : a.forwarder = b.forwarder
  waiter : a.waiter = b.waiter

theorem Peer.Alike.sendsOn {a b : Peer FileSegment} (h : a.Alike topic rec b)
    (hs : a.SendsOn id topic rec pid leader addr) : b.SendsOn id topic rec pid leader addr := by
  refine ⟨h.finds ▸ hs.unled, h.forwarder ▸ hs.forwarder, ?_⟩
  have hroute := hs.route
  unfold Peer.route at hroute ⊢
  rwa [← h.view]

/-- Whoever the write reaches is as before the call, even if it is the first node itself. -/
theorem set_alike {peer : Peer FileSegment} {log : TopicLog FileSegment}
    (hp : net.peers[id]? = some peer) (hsame : ∀ other : Peer FileSegment, other.log = log →
      other.finds topic rec = peer.finds topic rec) (m : NodeID) :
    (net.set id { peer with log }).peers[m]? = net.peers[m]? ∨ m = id ∧
      (net.set id { peer with log }).peers[m]? = some { peer with log } ∧
        ({ peer with log } : Peer FileSegment).Alike topic rec peer := by
  by_cases hm : m = id
  · subst hm
    exact .inr ⟨rfl, TreeMap.getElem?_insert_self, hsame _ rfl, rfl, rfl, rfl⟩
  · exact .inl (getElem?_insert_other _ hm)

theorem direct_iff : Direct now net id topic rec ↔ LastHop now net id topic rec := by
  constructor
  · intro h peer hp addr haddr m hm next hnext
    by_cases hs : ∃ pid leader addr, peer.SendsOn id topic rec pid leader addr
    rotate_left
    · simp only [not_exists] at hs
      obtain ⟨peer', pid, b, r, ha, -⟩ := Peer.attempt_rest now hs
      rw [ha] at haddr
      cases haddr
    obtain ⟨pid, leader, addr', hs⟩ := hs
    obtain ⟨log, hsame, ha⟩ := Peer.attempt_sendsOn now hs
    rw [ha] at haddr hnext ⊢
    cases haddr
    obtain ⟨old, hold, halike⟩ : ∃ old, net.peers[m]? = some old ∧ next.Alike topic rec old := by
      rcases set_alike hp hsame m with hset | ⟨rfl, hset, halike⟩
      · exact ⟨next, hset.symm.trans hnext, rfl, rfl, rfl, rfl⟩
      · cases hset.symm.trans hnext
        exact ⟨peer, hp, halike⟩
    obtain ⟨hno, hcount⟩ := h peer hp pid leader addr hs m hm old hold
    obtain ⟨next', pid', b, r, hb, hok⟩ := Peer.attempt_rest now
      (fun _ _ _ hn => hno _ _ _ (halike.sendsOn (sendsOn_received.mp hn)))
    rw [hb]
    cases r with
    | error e => trivial
    | ok res =>
      obtain ⟨hw, p, hfinds, seq, hseq⟩ := hok res rfl
      by_contra hne
      exact hcount pid' p (halike.finds.symm.trans hfinds) hne (halike.waiter.symm.trans hw) seq hseq
  · intro h peer hp pid leader addr hs m hm old hold
    obtain ⟨log, hsame, ha⟩ := Peer.attempt_sendsOn now hs
    have hset := h peer hp addr (by rw [ha]; rfl) m hm
    rw [ha] at hset
    obtain ⟨next, hnext, halike⟩ : ∃ next, (net.set id { peer with log }).peers[m]? = some next ∧
        old.Alike topic rec next := by
      rcases set_alike hp hsame m with hset | ⟨rfl, hset, halike⟩
      · exact ⟨old, hset.trans hold, rfl, rfl, rfl, rfl⟩
      · cases hp.symm.trans hold
        exact ⟨_, hset, halike.finds.symm, rfl, rfl, rfl⟩
    have hsettles := hset next hnext
    constructor
    · intro pid' leader' addr' hn
      obtain ⟨log', -, hb⟩ :=
        Peer.attempt_sendsOn now (sendsOn_received.mpr (halike.sendsOn hn))
      rw [hb] at hsettles
      exact hsettles
    · intro pid' p hfinds hne hw seq hseq
      have hled : ¬ Unled p (received rec) := by
        rw [append_unled_iff now, hseq]
        rintro ⟨t, i, he⟩
        cases he
      have hfinds' : next.finds topic (received rec) = some (pid', p) :=
        halike.finds.symm.trans hfinds
      obtain ⟨next', b, r, hb, hok⟩ := Peer.attempt_led m now hfinds' hled
      obtain ⟨res, rfl⟩ := hok.mpr ⟨halike.waiter.symm.trans hw, seq, hseq⟩
      rw [hb] at hsettles
      exact hne hsettles

end Direct

/-- A write on any node is forwarded at most once, appended at most once and
succeeds only for the partition chosen first, whatever messages are lost,
exactly when the views and partition counts agree as far as it goes. -/
theorem write_is_one_hop_iff {net : Net FileSegment} : (∀ fuel faults,
      Once (chosen now net id topic rec) (appendContext now fuel faults net id topic rec)) ↔ Direct now net id topic rec :=
  (Iff.intro (fun h => settled_of_once (h 2 [])) once_of_settled).trans direct_iff.symm

section Nodes

def oneRecord : Record := { Record.ofPayload [104, 105] with key := [65] }

def hosting (count : Nat) (leads : Bool) : TopicLog FileSegment where
  topics := (∅ : TreeMap String (List (Partition FileSegment))).insert "orders"
    ((List.range count).map (fun id => { Partition.fresh "orders" id
      defaultPartitionConfig.applyDefaults ⟨[]⟩ with enforceLeadership := true, isLeader := leads }))
  defaultPartitions := 16
  partition := defaultPartitionConfig
  closed := false
  enforceLeadership := true
  leaderEpoch := 0

def ledBy (leader : NodeID) : MetadataStore := .replay
  [.registerBroker "a" { adminAddr := "a:9091" }, .registerBroker "b" { adminAddr := "b:9091" },
   .registerBroker "c" { adminAddr := "c:9091" },
   .createTopic "orders" ⟨1, 3, 1⟩ [["a", "b", "c"]],
   .assignLeader ⟨"orders", 0⟩ leader 1 none]

def threeNodes (a b c : TopicLog FileSegment × NodeID) : Net FileSegment where
  peers := ((∅ : TreeMap NodeID (Peer FileSegment)).insert "a" ⟨a.1, ledBy a.2, true, none⟩).insert
    "b" ⟨b.1, ledBy b.2, true, none⟩ |>.insert "c" ⟨c.1, ledBy c.2, true, none⟩
  listeners := (((∅ : TreeMap String NodeID).insert "a:9091" "a").insert "b:9091" "b").insert
    "c:9091" "c"

/-- The first node has heard of one change of leadership, the second of another:
a write goes from the one to the other and on to the third. -/
theorem write_is_forwarded_twice :
    (appendContext 7 3 [] (threeNodes (hosting 1 false, "b") (hosting 1 false, "c")
      (hosting 1 true, "c")) "a" "orders" oneRecord).forwards = 2 := by
  decide +kernel

end Nodes

end Boltq.Streamctl
