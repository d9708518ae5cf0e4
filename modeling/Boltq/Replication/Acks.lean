import Boltq.Lib.Run
import Boltq.Stream.Steps

namespace Boltq.Replication
open Lib Boltq.Stream Std

variable {S : Type}

structure Batch where
  applied : Nat
  rest : List Record
  deriving DecidableEq

structure Acker (S : Type) where
  log : Partition S
  synced : Nat
  connected : Bool
  batch : Option Batch
  loops : List (Option Nat)
  acks : List (Nat × Nat)

inductive AckOp where
  | session (cut : Option Nat)
  | tearDown
  | receive (recs : List Record)
  | applyNext
  | finish (synced : Bool)
  | tick (loop : Nat)
  | stop (loop : Nat)
  deriving DecidableEq

namespace Acker

def start (log : Partition S) : Acker S := ⟨log, log.nextSeq - 1, false, none, [], []⟩

def tearDown (s : Acker S) : Acker S := { s with connected := false, batch := none }

def finish (syncOnApply : Bool) (s : Acker S) (applied : Nat) (ok : Bool) : Acker S :=
  if syncOnApply ∧ applied > 0 then
    if ok then { s with synced := s.log.nextSeq - 1, batch := none } else s.tearDown
  else { s with batch := none }

def tick (s : Acker S) (i : Nat) (sent : Option Nat) : Acker S :=
  let next := s.log.nextSeq
  if next = 0 then s
  else if sent.any (fun prev => prev ≥ next - 1) then s
  else { s with loops := s.loops.set i (some (next - 1)), acks := s.acks ++ [(next - 1, s.synced)] }

def Idle (s : Acker S) : Prop := ∀ b ∈ s.batch, b.applied = 0
  deriving Decidable

section Model
variable [SegmentStore S]

def truncate (s : Acker S) (seq : Nat) : Acker S :=
  let log := (s.log.truncateTo seq).1
  { s with log, synced := min s.synced (log.nextSeq - 1) }

def applyNext (s : Acker S) (applied : Nat) (rec : Record) (rest : List Record) : Acker S :=
  match s.log.appendReplicated rec with
  | (log, .ok _) => { s with
      log
      synced := if log.older.length = s.log.older.length then s.synced else s.log.nextSeq - 1
      batch := some ⟨applied + 1, rest⟩ }
  | (log, .error (.replicationGap _ _)) => { s with log, batch := none }
  | (log, .error _) => { s with log, connected := false, batch := none }

def step (syncOnApply : Bool) (s : Acker S) : AckOp → Option (Acker S)
  | .session cut =>
    if s.connected then none
    else
      let s := cut.elim s s.truncate
      some { s with connected := true, loops := s.loops ++ [none] }
  | .tearDown => if s.connected then some s.tearDown else none
  | .receive recs =>
    if s.connected ∧ s.batch = none then some { s with batch := some ⟨0, recs⟩ } else none
  | .applyNext =>
    match s.batch with
    | some ⟨applied, rec :: rest⟩ => some (s.applyNext applied rec rest)
    | _ => none
  | .finish ok =>
    match s.batch with
    | some ⟨applied, []⟩ => some (s.finish syncOnApply applied ok)
    | _ => none
  | .tick i => s.loops[i]?.map (s.tick i)
  | .stop i => some { s with loops := s.loops.eraseIdx i }

def Step (syncOnApply : Bool) (s : Acker S) (op : AckOp) (t : Acker S) : Prop :=
  s.step syncOnApply op = some t

/-- A tick or teardown finds no batch half applied, and no append after the first of a batch
fails, nor a sync. -/
def Orderly (s : Acker S) : AckOp → Prop
  | .tick _ | .tearDown => s.Idle
  | .applyNext => ∀ b ∈ s.batch, b.applied ≠ 0 → ∀ rec ∈ b.rest.head?,
      (s.log.appendReplicated rec).2.isOk = true
  | .finish ok => ok = true
  | _ => True

instance (s : Acker S) (op : AckOp) : Decidable (s.Orderly op) := by
  unfold Orderly
  split <;> infer_instance

end Model

structure Inv (s : Acker S) : Prop where
  covered : s.Idle → s.log.nextSeq - 1 ≤ s.synced
  closed : s.connected = false → s.batch = none
  honest : ∀ a ∈ s.acks, a.1 ≤ a.2

theorem idle_of_none {s : Acker S} (h : s.batch = none) : s.Idle := by
  intro b hb
  rw [h] at hb
  cases hb

theorem Inv.start (log : Partition S) : (Acker.start log).Inv :=
  ⟨fun _ => Nat.le_refl _, fun _ => rfl, by simp [Acker.start]⟩

theorem Inv.finish {s : Acker S} (h : s.Inv) (hb : s.batch = some ⟨applied, []⟩) :
    (s.finish true applied true).Inv := by
  unfold Acker.finish
  split
  · exact ⟨fun _ => Nat.le_refl _, fun _ => rfl, h.honest⟩
  rename_i hno
  refine ⟨fun _ => h.covered (fun b hb' => ?_), fun _ => rfl, h.honest⟩
  rw [hb] at hb'
  cases hb'
  simpa using hno

theorem Inv.tick {s : Acker S} (h : s.Inv) (hi : s.Idle) (i : Nat) (sent : Option Nat) :
    (s.tick i sent).Inv := by
  simp only [Acker.tick]
  split
  · exact h
  split
  · exact h
  refine ⟨h.covered, h.closed, fun a ha => ?_⟩
  rcases List.mem_append.mp ha with hold | hnew
  · exact h.honest a hold
  · cases List.mem_singleton.mp hnew
    exact h.covered hi

section Steps
variable [SegmentStore S] {s t : Acker S} {op : AckOp}

theorem Inv.truncate (h : s.Inv) (hb : s.Idle) (seq : Nat) : (s.truncate seq).Inv := by
  refine ⟨fun _ => ?_, h.closed, h.honest⟩
  have hle := s.log.truncateTo_nextSeq seq
  have hcov := h.covered hb
  simp only [Acker.truncate]
  omega

theorem Inv.applyNext (h : s.Inv) {applied : Nat} {rec : Record} {rest : List Record}
    (hb : s.batch = some ⟨applied, rec :: rest⟩)
    (hok : applied ≠ 0 → (s.log.appendReplicated rec).2.isOk = true) :
    (s.applyNext applied rec rest).Inv := by
  have hrefused : ∀ log e, s.log.appendReplicated rec = (log, .error e) →
      log.nextSeq - 1 ≤ s.synced := by
    intro log e he
    rw [Partition.appendReplicated_refused he]
    refine h.covered (fun b hb' => ?_)
    rw [hb] at hb'
    cases hb'
    by_contra hne
    have hacc := hok hne
    rw [he] at hacc
    cases hacc
  have hup : s.connected = false → False := by
    intro hdown
    rw [h.closed hdown] at hb
    cases hb
  simp only [Acker.applyNext]
  split
  · refine ⟨fun hidle => ?_, fun hdown => absurd hdown hup, h.honest⟩
    exact absurd (hidle _ rfl) (Nat.succ_ne_zero applied)
  · rename_i hr
    exact ⟨fun _ => hrefused _ _ hr, fun _ => rfl, h.honest⟩
  · rename_i hr
    exact ⟨fun _ => hrefused _ _ hr, fun _ => rfl, h.honest⟩

theorem Inv.step (h : s.Inv) (hs : s.Step true op t) (ho : s.Orderly op) : t.Inv := by
  unfold Step at hs
  cases op with
  | session cut =>
    simp only [Acker.step] at hs
    split at hs
    · cases hs
    rename_i hdown
    have hidle : s.Idle := idle_of_none (h.closed (by simpa using hdown))
    cases hs
    cases cut with
    | none => exact ⟨h.covered, nofun, h.honest⟩
    | some seq =>
      have ht := h.truncate hidle seq
      exact ⟨ht.covered, nofun, ht.honest⟩
  | tearDown =>
    simp only [Acker.step] at hs
    split at hs
    · cases hs
      exact ⟨fun _ => h.covered ho, fun _ => rfl, h.honest⟩
    · cases hs
  | receive recs =>
    simp only [Acker.step] at hs
    split at hs
    · rename_i hup
      cases hs
      refine ⟨fun _ => h.covered (idle_of_none hup.2), fun hdown => ?_, h.honest⟩
      exact absurd (hup.1.symm.trans hdown) (by decide)
    · cases hs
  | applyNext =>
    simp only [Acker.step] at hs
    split at hs
    · rename_i applied rec rest hb
      cases hs
      exact h.applyNext hb (fun hne => ho _ hb hne rec rfl)
    · cases hs
  | finish ok =>
    have hok : ok = true := ho
    subst hok
    simp only [Acker.step] at hs
    split at hs
    · rename_i applied hb
      cases hs
      exact h.finish hb
    · cases hs
  | tick i =>
    obtain ⟨sent, _, rfl⟩ := Option.map_eq_some_iff.mp hs
    exact h.tick ho i sent
  | stop i =>
    cases hs
    exact ⟨h.covered, h.closed, h.honest⟩

/-- While ticks and sessions respect batches and syncs succeed, every ack is for
a position up to which the log had been synced. -/
theorem acks_imply_sync {log : Partition S} {ops : List AckOp}
    (hr : Run (Step true) Orderly (start log) ops s) : ∀ a ∈ s.acks, a.1 ≤ a.2 :=
  (hr.invariant Inv (.start log) (fun _ _ _ hi hc hs => hi.step hs hc)).honest

end Steps

def emptyLog : Partition RecSegment :=
  .fresh "orders" 0 defaultPartitionConfig.applyDefaults ⟨[]⟩

def firstRecord : Record := { Record.ofPayload [104, 105] with seq := 1, epoch := 1 }

theorem acks_imply_sync_batch : ∃ s, Run (Step true) Orderly (start emptyLog)
        [.session none, .receive [firstRecord], .applyNext, .finish true, .tick 0] s ∧
      s.acks.map Prod.fst = [1] ∧ ∀ a ∈ s.acks, a.1 ≤ a.2 := by
  refine Run.shown (fun s => s.acks.map Prod.fst = [1]) (by decide +kernel) ?_
  rintro s hr ha
  exact ⟨ha, acks_imply_sync hr⟩

/-- The sync of a batch fails and ends the session. The next session acknowledges
the record although nothing has ever been synced. -/
theorem ack_without_sync : ∃ s, Run (Step true) always (start emptyLog)
        [.session none, .receive [firstRecord], .applyNext, .finish false, .stop 0,
          .session none, .tick 0] s ∧ s.acks = [(1, 0)] :=
  Run.found (f := step true) _ (by decide +kernel)

end Acker
end Boltq.Replication
