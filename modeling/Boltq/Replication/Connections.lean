import Boltq.Lib.Run
import Boltq.Replication.Leader

namespace Boltq.Replication
open Lib Cluster Std List

structure FollowerConn where
  node : NodeID
  acks : TreeMap PartitionRef Nat PartitionRef.cmp

structure Connections where
  leader : Leader
  live : List FollowerConn
  cleaning : List (NodeID × List PartitionRef)

inductive ConnOp where
  | hello (node : NodeID) (now : Int)
  | ack (conn : Nat) (k : PartitionRef) (seq : Nat)
  | hangUp (conn : Nat)
  | drop (cleaning cursor : Nat)
  | acksFor (k : PartitionRef)
  deriving DecidableEq

namespace Connections
variable {s t : Connections} {op : ConnOp}

def start : Connections := ⟨.new, [], []⟩

def step (s : Connections) : ConnOp → Option Connections
  | .hello node now =>
    if node = "" then none
    else some { s with leader := s.leader.connect node now, live := s.live ++ [⟨node, ∅⟩] }
  | .ack i k seq => do
    let c ← s.live[i]?
    some { s with
      leader := s.leader.record c.node k seq
      live := s.live.set i { c with acks := c.acks.insert k (max (c.acks[k]?.getD seq) seq) } }
  | .hangUp i => do
    let c ← s.live[i]?
    let (leader, cursors) := s.leader.disconnect c.node
    some { leader, live := s.live.eraseIdx i, cleaning := s.cleaning ++ [(c.node, cursors)] }
  | .drop j n => do
    let (node, cursors) ← s.cleaning[j]?
    let k ← cursors[n]?
    some { s with
      leader := s.leader.drop node k
      cleaning := s.cleaning.set j (node, cursors.eraseIdx n) }
  | .acksFor k => some { s with leader := s.leader.acksFor k }

def Step (s : Connections) (op : ConnOp) (t : Connections) : Prop := s.step op = some t

structure Exact (s : Connections) : Prop where
  connected : ∀ n, n ∈ s.leader.followers ↔ ∃ c ∈ s.live, c.node = n
  counted : ∀ c ∈ s.live, ∀ (k : PartitionRef) v, c.acks[k]? = some v →
    ∃ w, (s.leader.acked k)[c.node]? = some w ∧ v ≤ w

/-- A connection ends only while its node has no other one, and the clean-up drops no key for
which a live connection of the node has acked. -/
def Unshared (s : Connections) : ConnOp → Prop
  | .hangUp i => ∀ c ∈ s.live[i]?, ∀ other ∈ s.live.eraseIdx i, other.node ≠ c.node
  | .drop j n => ∀ e ∈ s.cleaning[j]?, ∀ k ∈ e.2[n]?, ∀ c ∈ s.live, c.node = e.1 →
      c.acks[k]? = none
  | _ => True

instance (s : Connections) (op : ConnOp) : Decidable (s.Unshared op) := by
  unfold Unshared
  split <;> infer_instance

theorem Exact.start : Connections.start.Exact where
  connected n := by simp [Connections.start, Leader.new]
  counted c hc := by simp [Connections.start] at hc

theorem Exact.hello (h : s.Exact) (node : NodeID) (now : Int) :
    Exact { s with leader := s.leader.connect node now, live := s.live ++ [⟨node, ∅⟩] } where
  connected n := by
    simp only [Leader.connect, TreeMap.mem_insert, h.connected, mem_append,
      mem_singleton, Std.compare_eq_iff_eq]
    constructor
    · rintro (rfl | ⟨c, hc, hn⟩)
      · exact ⟨⟨node, ∅⟩, Or.inr rfl, rfl⟩
      · exact ⟨c, Or.inl hc, hn⟩
    · rintro ⟨c, hc | rfl, hn⟩
      · exact Or.inr ⟨c, hc, hn⟩
      · exact Or.inl hn
  counted c hc k v hv := by
    rcases mem_append.mp hc with hold | hnew
    · exact h.counted c hold k v hv
    · cases mem_singleton.mp hnew
      simp at hv

theorem Exact.ack (h : s.Exact) (hc : s.live[i]? = some c) (k : PartitionRef) (seq : Nat) :
    Exact { s with
      leader := s.leader.record c.node k seq
      live := s.live.set i
        { c with acks := c.acks.insert k (max (c.acks[k]?.getD seq) seq) } } where
  connected n := by
    have hi : i < s.live.length := (List.getElem?_eq_some_iff.mp hc).1
    have hmem : c ∈ s.live := mem_of_getElem? hc
    rw [show (s.leader.record c.node k seq).followers = s.leader.followers from rfl, h.connected]
    constructor
    · rintro ⟨d, hd, hn⟩
      obtain ⟨j, hj⟩ := mem_iff_getElem?.mp hd
      by_cases he : i = j
      · subst he
        cases hc.symm.trans hj
        exact ⟨_, mem_set hi _, hn⟩
      · refine ⟨d, mem_iff_getElem?.mpr ⟨j, ?_⟩, hn⟩
        rw [List.getElem?_set_ne he, hj]
    · rintro ⟨d, hd, hn⟩
      rcases mem_or_eq_of_mem_set hd with hold | rfl
      · exact ⟨d, hold, hn⟩
      · exact ⟨c, hmem, hn⟩
  counted d hd k' v hv := by
    have hold : ∀ e ∈ s.live, ∀ v, e.acks[k']? = some v →
        ∃ w, ((s.leader.record c.node k seq).acked k')[e.node]? = some w ∧ v ≤ w := by
      intro e he v hv
      obtain ⟨w, hw, hle⟩ := h.counted e he k' v hv
      rw [Leader.record_acked]
      split
      · rename_i hk
        subst hk
        obtain ⟨w', hw', hle'⟩ := PartitionAcks.record_mono _ c.node e.node seq hw
        exact ⟨w', hw', Nat.le_trans hle hle'⟩
      · exact ⟨w, hw, hle⟩
    have hmem : c ∈ s.live := mem_of_getElem? hc
    rcases mem_or_eq_of_mem_set hd with hin | rfl
    · exact hold d hin v hv
    rcases insert_cases hv with ⟨rfl, rfl⟩ | ⟨_, hv'⟩
    · rw [Leader.record_acked, if_pos rfl]
      refine ⟨_, PartitionAcks.record_self _ c.node seq, ?_⟩
      cases hck : c.acks[k']? with
      | none => simp only [Option.getD_none]; omega
      | some v =>
        obtain ⟨w, hw, hle⟩ := h.counted c hmem k' v hck
        simp only [hw, Option.getD_some]
        omega
    · exact hold c hmem v hv'

theorem Exact.hangUp (h : s.Exact) (hc : s.live[i]? = some c) (hu : s.Unshared (.hangUp i)) :
    Exact {
      leader := (s.leader.disconnect c.node).1
      live := s.live.eraseIdx i
      cleaning := s.cleaning ++ [(c.node, (s.leader.disconnect c.node).2)] } where
  connected n := by
    simp only [Leader.disconnect, TreeMap.mem_erase, h.connected, ne_eq, Std.compare_eq_iff_eq]
    constructor
    · rintro ⟨hne, d, hd, rfl⟩
      obtain ⟨j, hj⟩ := mem_iff_getElem?.mp hd
      refine ⟨d, mem_eraseIdx_iff_getElem?.mpr ⟨j, ?_, hj⟩, rfl⟩
      rintro rfl
      cases hc.symm.trans hj
      exact hne rfl
    · rintro ⟨d, hd, rfl⟩
      exact ⟨fun he => hu c hc d hd he.symm, d, mem_of_mem_eraseIdx hd, rfl⟩
  counted d hd := h.counted d (mem_of_mem_eraseIdx hd)

theorem Exact.drop (h : s.Exact) (hj : s.cleaning[j]? = some (node, cursors))
    (hk : cursors[n]? = some k) (hu : s.Unshared (.drop j n)) :
    Exact { s with
      leader := s.leader.drop node k
      cleaning := s.cleaning.set j (node, cursors.eraseIdx n) } where
  connected := h.connected
  counted c hc k' v hv := by
    obtain ⟨w, hw, hle⟩ := h.counted c hc k' v hv
    refine ⟨w, ?_, hle⟩
    rw [Leader.drop_acked]
    · exact hw
    rintro rfl he
    rw [hu (node, cursors) hj k' hk c hc he] at hv
    cases hv

theorem Exact.acksFor (h : s.Exact) (k : PartitionRef) :
    Exact { s with leader := s.leader.acksFor k } where
  connected := h.connected
  counted c hc k' v hv := by
    obtain ⟨w, hw, hle⟩ := h.counted c hc k' v hv
    exact ⟨w, by rw [Leader.acksFor_acked, hw], hle⟩

theorem Exact.step (h : s.Exact) (hs : s.Step op t) (hu : s.Unshared op) : t.Exact := by
  unfold Step at hs
  cases op with
  | hello node now =>
    simp only [Connections.step] at hs
    split at hs
    · cases hs
    · cases hs
      exact h.hello node now
  | ack i k seq =>
    obtain ⟨c, hc, ht⟩ := Option.bind_eq_some_iff.mp hs
    cases ht
    exact h.ack hc k seq
  | hangUp i =>
    obtain ⟨c, hc, ht⟩ := Option.bind_eq_some_iff.mp hs
    cases ht
    exact h.hangUp hc hu
  | drop j n =>
    obtain ⟨⟨node, cursors⟩, hj, hrest⟩ := Option.bind_eq_some_iff.mp hs
    obtain ⟨k, hk, ht⟩ := Option.bind_eq_some_iff.mp hrest
    cases ht
    exact h.drop hj hk hu
  | acksFor k =>
    cases hs
    exact h.acksFor k

/-- While clean-ups find no live connection of their node, the connected
followers are exactly the nodes with a live connection, no position acknowledged
on a live connection is lost, and an append never fails for want of followers
while enough of them are connected. -/
theorem bookkeeping_is_exact {ops : List ConnOp} (hr : Run Step Unshared .start ops s) :
    (∀ n, n ∈ s.leader.followers ↔ ∃ c ∈ s.live, c.node = n) ∧
    (∀ c ∈ s.live, ∀ (k : PartitionRef) v, c.acks[k]? = some v →
      ∃ w, (s.leader.acked k)[c.node]? = some w ∧ v ≤ w) ∧
    ∀ (cfg : LeaderConfig) (have_ : Nat) (nodes : List NodeID), nodes.Nodup →
      (∀ n ∈ nodes, ∃ c ∈ s.live, c.node = n) → cfg.minInSync - 1 ≤ nodes.length →
      ∀ e, waitFor cfg have_ s.leader.followers.size ≠ some (.error e) := by
  have hx := hr.invariant Exact .start (fun _ _ _ hi hc hs => hi.step hs hc)
  refine ⟨hx.connected, hx.counted, ?_⟩
  intro cfg have_ nodes hn hlive hneed e he
  have hsize := length_le_size hn (fun n hmem => (hx.connected n).mpr (hlive n hmem))
  have hfew := waitFor_fails he
  omega

/-- A follower acknowledges, its connection ends and is cleaned up, and it
connects and acknowledges again. -/
theorem bookkeeping_is_exact_reconnect : ∃ s, Run Step Unshared .start
        [.hello "n2" 1, .ack 0 ⟨"orders", 0⟩ 5, .hangUp 0, .drop 0 0,
          .hello "n2" 2, .ack 0 ⟨"orders", 0⟩ 7] s ∧ s.live.map FollowerConn.node = ["n2"] ∧
      ∀ have_ e, waitFor { minInSync := 2 } have_ s.leader.followers.size ≠ some (.error e) := by
  obtain ⟨s, hr, hlive⟩ := Run.executed Unshared step .start
    [.hello "n2" 1, .ack 0 ⟨"orders", 0⟩ 5, .hangUp 0, .drop 0 0, .hello "n2" 2, .ack 0 ⟨"orders", 0⟩ 7]
    (fun s => s.live.map FollowerConn.node = ["n2"]) (by decide +kernel)
  have hn2 : ∀ n ∈ ["n2"], ∃ c ∈ s.live, c.node = n := fun n hn => mem_map.mp (hlive ▸ hn)
  refine ⟨s, hr, hlive, fun have_ => ?_⟩
  exact (bookkeeping_is_exact hr).2.2 { minInSync := 2 } have_ ["n2"] (by decide) hn2 (by decide)

/-- A follower has a new connection when the old one is cleaned up: it no longer
counts as connected, its acknowledgement is gone, and appends fail. -/
theorem cleanup_forgets_live_follower : ∃ s, Run Step always .start
        [.hello "n2" 1, .ack 0 ⟨"orders", 0⟩ 5, .hello "n2" 2, .ack 1 ⟨"orders", 0⟩ 7,
          .hangUp 0, .drop 0 0] s ∧
      s.live.map FollowerConn.node = ["n2"] ∧ "n2" ∉ s.leader.followers ∧
      (s.leader.acked ⟨"orders", 0⟩)["n2"]? = none ∧
      waitFor { minInSync := 2 } ((s.leader.acked ⟨"orders", 0⟩).countAtLeast 7)
        s.leader.followers.size = some (.error (.notEnoughReplicas 1 0)) :=
  Run.found (f := step) _ (by decide +kernel)

end Connections
end Boltq.Replication
