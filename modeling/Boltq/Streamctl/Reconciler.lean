import Boltq.Lib.Run
import Boltq.Lib.Tables
import Boltq.Replication.Session

namespace Boltq.Streamctl
open Lib Cluster Replication Boltq.Stream Std

def partitionCount (m : MetadataStore) (localTopic : String → Option Int) (topic : String) : Int :=
  match m.topic topic with
  | some t => t.partitions
  | none => (localTopic topic).getD 1

def leaderAddr (m : MetadataStore) (a : PartitionAssignment) : Option String :=
  if a.leader = "" then none
  else
    match m.broker a.leader with
    | none => none
    | some b => if b.streamAddr = "" ∨ b.fenced = true then none else some b.streamAddr

def want (m : MetadataStore) (id : NodeID) (localTopic : String → Option Int) :
    TreeMap String (List Assignment) :=
  (m.replicatedBy id).foldl (fun want (k, a) =>
    match leaderAddr m a with
    | none => want
    | some addr => want.insert addr
        (want.getD addr [] ++ [⟨k, partitionCount m localTopic k.topic⟩])) ∅

def sameAssignments (a b : List Assignment) : Bool :=
  decide (a.length = b.length) && b.all (fun y => decide (y.ref ∈ a.map Assignment.ref))

def applyFollowership (followers : TreeMap String FollowerSession)
    (want : TreeMap String (List Assignment)) : TreeMap String FollowerSession :=
  want.map (fun addr assignments =>
    match followers[addr]? with
    | none => .start assignments
    | some s => if sameAssignments s.assignments assignments then s else .start assignments)

theorem applyFollowership_session {followers : TreeMap String FollowerSession}
    {want : TreeMap String (List Assignment)} {addr : String} {s : FollowerSession}
    (h : (applyFollowership followers want)[addr]? = some s) :
    followers[addr]? = some s ∨ s.conn = none := by
  rw [applyFollowership, TreeMap.getElem?_map, Option.map_eq_some_iff] at h
  obtain ⟨assignments, _, hs⟩ := h
  split at hs
  · exact Or.inr (hs ▸ rfl)
  rename_i t ht
  split at hs
  · exact Or.inl (hs ▸ ht)
  · exact Or.inr (hs ▸ rfl)

structure Node where
  id : NodeID
  metadata : MetadataStore
  followers : TreeMap String FollowerSession
  history : List Event

inductive NodeOp where
  | observe (m : MetadataStore)
  | reconcile (localTopic : String → Option Int)
  | openTerm (k : PartitionRef) (addr : String) (epoch : Nat)
  | session (addr : String) (op : SessionOp)

namespace Node

def start (id : NodeID) : Node := ⟨id, .empty, ∅, []⟩

def step (n : Node) : NodeOp → Option Node
  | .observe m => some { n with metadata := m }
  | .reconcile localTopic =>
      some { n with followers := applyFollowership n.followers (want n.metadata n.id localTopic) }
  | .openTerm k addr epoch => some { n with history := n.history ++ [.opened k addr epoch] }
  | .session addr op =>
    match n.followers[addr]? with
    | none => none
    | some s => (s.step addr op).map (fun (t, es) =>
        { n with followers := n.followers.insert addr t, history := n.history ++ es })

def Step (n : Node) (op : NodeOp) (m : Node) : Prop := n.step op = some m

def reconciledOn (n : Node) (addr : String) : List PartitionRef :=
  n.followers[addr]?.elim [] FollowerSession.done

/-- No term is opened on a session that has been reconciled for it already. -/
def Quiet (n : Node) : NodeOp → Prop
  | .openTerm k addr _ => k ∉ n.reconciledOn addr
  | _ => True

instance (n : Node) (op : NodeOp) : Decidable (n.Quiet op) := by
  unfold Quiet
  split <;> infer_instance

structure Inv (n : Node) : Prop where
  ready (addr : String) (s : FollowerSession) : n.followers[addr]? = some s → s.Ready
  settled (addr : String) (s : FollowerSession) : n.followers[addr]? = some s →
    ∀ k ∈ s.done, Settled n.history k addr
  followed : Followed n.history

variable {n m : Node}

theorem Inv.reconcile (h : n.Inv) (localTopic : String → Option Int)
    (hs : n.step (.reconcile localTopic) = some m) : m.Inv := by
  cases hs
  refine ⟨?_, ?_, h.followed⟩
  · intro addr s hs
    rcases applyFollowership_session hs with hold | hnew
    · exact h.ready addr s hold
    · exact FollowerSession.ready_of_closed hnew
  · intro addr s hs k hk
    rcases applyFollowership_session hs with hold | hnew
    · exact h.settled addr s hold k hk
    · simp [FollowerSession.done, hnew] at hk

theorem Inv.openTerm (h : n.Inv) (hq : n.Quiet (.openTerm k addr epoch))
    (hs : n.step (.openTerm k addr epoch) = some m) : m.Inv := by
  cases hs
  refine ⟨h.ready, ?_, h.followed.snoc (fun k addr rec he => by cases he)⟩
  intro addr' s hs x hx
  apply (h.settled addr' s hs x hx).append
  intro epoch' he
  cases List.mem_singleton.mp he
  exact hq (by simpa [reconciledOn, hs] using hx)

theorem Inv.session (h : n.Inv) (hs : n.step (.session addr op) = some m) : m.Inv := by
  simp only [step] at hs
  cases hf : n.followers[addr]? with
  | none => simp [hf] at hs
  | some s =>
    simp only [hf, Option.map_eq_some_iff] at hs
    obtain ⟨⟨t, es⟩, ht, rfl⟩ := hs
    obtain ⟨hready, hdone, hes⟩ := FollowerSession.step_cases (h.ready addr s hf) ht
    have hopen : ∀ k addr epoch, .opened k addr epoch ∉ es := by
      intro k addr epoch
      rcases hes with rfl | ⟨_, rfl⟩ | ⟨_, _, _, rfl⟩ <;> simp
    refine ⟨?_, ?_, ?_⟩
    · intro addr' s' hs'
      rcases insert_cases hs' with ⟨_, rfl⟩ | ⟨_, hold⟩
      · exact hready
      · exact h.ready addr' s' hold
    · intro addr' s' hs' k hk
      rcases insert_cases hs' with ⟨rfl, rfl⟩ | ⟨_, hold⟩
      · rcases hdone k hk with hk | rfl
        · exact (h.settled _ s hf k hk).append (hopen k addr')
        · exact settled_reconciled n.history k addr'
      · exact (h.settled addr' s' hold k hk).append (hopen k addr')
    · rcases hes with rfl | ⟨k, rfl⟩ | ⟨k, hk, rec, rfl⟩
      · simpa using h.followed
      · exact h.followed.snoc (fun k addr rec he => by cases he)
      · apply h.followed.snoc
        intro k' addr' rec' he
        cases he
        exact h.settled addr s hf k hk

theorem Inv.step (h : n.Inv) (hq : n.Quiet op) (hs : n.Step op m) : m.Inv := by
  cases op with
  | observe meta_ =>
    cases hs
    exact ⟨h.ready, h.settled, h.followed⟩
  | reconcile localTopic => exact h.reconcile localTopic hs
  | openTerm k addr epoch => exact h.openTerm hq hs
  | session addr op => exact h.session hs

/-- While leaders open terms only as `Quiet` allows, a node appends no record
from a leader unless every term that leader has opened was followed by an
exchange that returned without error. -/
theorem reconciled_before_followed {id : NodeID} {ops : List NodeOp}
    (hr : Run Step Quiet (start id) ops n) : Followed n.history := by
  have hinit : (start id).Inv := by
    refine ⟨?_, ?_, ?_⟩
    · intro addr s hs
      simp [start] at hs
    · intro addr s hs
      simp [start] at hs
    · intro pre k addr rec post hsplit
      simp [start] at hsplit
  exact (hr.invariant Inv hinit (fun _ _ _ hi hq hs => hi.step hq hs)).followed

def chat : PartitionRef := ⟨"chat", 0⟩

def placement : List MetaCommand :=
  [.registerBroker "a" { streamAddr := "a:1" }, .registerBroker "b" { streamAddr := "b:1" },
    .registerBroker "c" { streamAddr := "c:1" }, .createTopic "chat" ⟨1, 3, 2⟩ [["a", "b", "c"]]]

def ledIn (leaders : List NodeID) : MetadataStore :=
  .replay (placement ++ leaders.zipIdx.map (fun (id, i) => .assignLeader chat id (i + 1) none))

def recordOf (seq epoch : Nat) : Record := { Record.ofPayload [1] with seq, epoch }

def reconnection : List NodeOp :=
  [.observe (ledIn ["a"]), .reconcile (fun _ => none), .openTerm chat "a:1" 1,
    .session "a:1" .dial, .session "a:1" (.exchange true), .session "a:1" .fetch,
    .session "a:1" (.deliver chat (recordOf 1 1)), .session "a:1" .hangUp,
    .observe (ledIn ["a", "b", "a"]), .openTerm chat "a:1" 3, .reconcile (fun _ => none),
    .session "a:1" .dial, .session "a:1" (.exchange true), .session "a:1" .fetch,
    .session "a:1" (.deliver chat (recordOf 2 3))]

theorem reconnected_node_reconciles : ∃ n, Run Step Quiet (start "c") reconnection n ∧
      n.history = [.opened chat "a:1" 1, .reconciled chat "a:1", .appended chat "a:1" (recordOf 1 1),
        .opened chat "a:1" 3, .reconciled chat "a:1", .appended chat "a:1" (recordOf 2 3)] ∧
      Followed n.history := by
  refine Run.shown (fun n => n.history = [.opened chat "a:1" 1, .reconciled chat "a:1",
      .appended chat "a:1" (recordOf 1 1), .opened chat "a:1" 3, .reconciled chat "a:1",
      .appended chat "a:1" (recordOf 2 3)]) (by decide +kernel) ?_
  rintro n hr hh
  exact ⟨hh, reconciled_before_followed hr⟩

def awayAndBack : List NodeOp :=
  [.observe (ledIn ["a"]), .reconcile (fun _ => none), .openTerm chat "a:1" 1,
    .session "a:1" .dial, .session "a:1" (.exchange true), .session "a:1" .fetch,
    .session "a:1" (.deliver chat (recordOf 1 1)), .observe (ledIn ["a", "b"]),
    .openTerm chat "b:1" 2, .observe (ledIn ["a", "b", "a"]), .openTerm chat "a:1" 3,
    .reconcile (fun _ => none), .session "a:1" (.deliver chat (recordOf 2 3))]

def firstTerms : List Event :=
  [.opened chat "a:1" 1, .reconciled chat "a:1", .appended chat "a:1" (recordOf 1 1),
    .opened chat "b:1" 2]

theorem kept_session_skips_reconcile : ∃ n, Run Step always (start "c") awayAndBack n ∧
      n.history = firstTerms ++ [.opened chat "a:1" 3] ++ [.appended chat "a:1" (recordOf 2 3)] ∧
      ¬ Followed n.history := by
  obtain ⟨n, hr, hh⟩ := Run.executed always step (start "c") awayAndBack
    (fun n => n.history =
      firstTerms ++ [.opened chat "a:1" 3] ++ [.appended chat "a:1" (recordOf 2 3)])
    (by decide +kernel)
  refine ⟨n, hr, hh, ?_⟩
  intro hf
  have hset : Settled (firstTerms ++ [.opened chat "a:1" 3]) chat "a:1" := hf _ _ _ _ [] hh
  exact absurd (hset firstTerms 3 [] rfl) List.not_mem_nil

end Node
end Boltq.Streamctl
