import Boltq.Cluster.Plane

namespace Boltq.Cluster
open Lib Std List Option

structure Move where
  k : PartitionRef
  source : NodeID
  target : NodeID
  deriving DecidableEq

inductive MovePhase where
  | expand
  | shrink
  deriving DecidableEq

structure MoveState where
  move : Move
  phase : MovePhase
  started : Int
  before : Nat
  deriving DecidableEq

inductive Awaiting where
  | expand (mv : Move) (replicas : List NodeID) (now : Int)
  | vacate (mv : Move) (before : Nat) (leader : NodeID) (epoch : Nat)
  | reread (mv : Move) (before : Nat)
  | shrink (mv : Move) (before : Nat) (replicas : List NodeID)
  deriving DecidableEq

structure Mover where
  store : MetadataStore
  moves : TreeMap PartitionRef MoveState PartitionRef.cmp
  awaiting : Option Awaiting
  removals : List (Move × MetadataStore)
  steps : List (Move × Nat × MetadataStore)

inductive MoveOp where
  | startMove (mv : Move) (now : Int)
  | advanceMove (k : PartitionRef) (now : Int)
  | commit
  | fail
  | resume
  | other (cmd : MetaCommand)
  | lostLeadership
  deriving DecidableEq

def MetaCommand.Ordinary : MetaCommand → Prop
  | .reassign _ _ => False
  | .createTopic _ _ placements => ∀ replicas ∈ placements, replicas.Nodup
  | _ => True

instance (cmd : MetaCommand) : Decidable cmd.Ordinary := by
  induction cmd using MetaCommand.casesOn <;> dsimp only [MetaCommand.Ordinary] <;> infer_instance

namespace Mover

def start : Mover := ⟨.empty, ∅, none, [], []⟩

def finishMove (s : Mover) (k : PartitionRef) : Mover :=
  { s with moves := s.moves.erase k, awaiting := none }

def shrunk (mv : Move) (a : PartitionAssignment) : List NodeID :=
  a.replicas.filter (fun id => id ≠ mv.source)

def shrinkMove (s : Mover) (st : MoveState) (a : PartitionAssignment) : Mover :=
  let s := { s with moves := s.moves.insert st.move.k { st with phase := .shrink } }
  if a.leader = st.move.source then
    match a.isr.find? (fun id => id ≠ st.move.source) with
    | none => s
    | some next =>
      if next = "" then s
      else { s with awaiting := some (.vacate st.move st.before next (nextEpoch a)) }
  else { s with awaiting := some (.shrink st.move st.before (shrunk st.move a)) }

def advanceMove (s : Mover) (timeout : Int) (k : PartitionRef) (st : MoveState) (now : Int) :
    Mover :=
  match s.store.assignment k with
  | none => s.finishMove k
  | some a =>
    if st.phase = .expand ∧ a.inISR st.move.target = false then
      if now - st.started > timeout then s.finishMove k else s
    else s.shrinkMove st a

def commit (s : Mover) : Awaiting → Mover
  | .expand mv replicas now =>
    match s.store.applyMetaCommand (.reassign mv.k (replicas ++ [mv.target])) with
    | .error _ => { s with awaiting := none }
    | .ok m => { s with
        store := m
        moves := s.moves.insert mv.k ⟨mv, .expand, now, replicas.length⟩
        awaiting := none
        steps := s.steps ++ [(mv, replicas.length, m)] }
  | .vacate mv before leader epoch =>
    match s.store.applyMetaCommand (.assignLeader mv.k leader epoch none) with
    | .error _ => { s with awaiting := none }
    | .ok m => { s with
        store := m
        awaiting := some (.reread mv before)
        steps := s.steps ++ [(mv, before, m)] }
  | .reread _ _ => s
  | .shrink mv before replicas =>
    match s.store.applyMetaCommand (.reassign mv.k replicas) with
    | .error _ => s.finishMove mv.k
    | .ok m => { s.finishMove mv.k with
        store := m
        removals := s.removals ++ [(mv, s.store)]
        steps := s.steps ++ [(mv, before, m)] }

def fail (s : Mover) : Awaiting → Mover
  | .expand _ _ _ | .vacate _ _ _ _ => { s with awaiting := none }
  | .reread _ _ => s
  | .shrink mv _ _ => s.finishMove mv.k

def step (timeout : Int) (s : Mover) : MoveOp → Option Mover
  | .startMove mv now =>
    match s.awaiting, s.moves[mv.k]?, s.store.assignment mv.k with
    | none, none, some a =>
      if mv.target ∈ a.replicas then none
      else some { s with awaiting := some (.expand mv a.replicas now) }
    | _, _, _ => none
  | .advanceMove k now =>
    match s.awaiting, s.moves[k]? with
    | none, some st => some (s.advanceMove timeout k st now)
    | _, _ => none
  | .commit => s.awaiting.map s.commit
  | .fail => s.awaiting.map s.fail
  | .resume =>
    match s.awaiting with
    | some (.reread mv before) =>
      (s.store.assignment mv.k).map (fun a =>
        { s with awaiting := some (.shrink mv before (shrunk mv a)) })
    | _ => none
  | .other cmd =>
    if cmd.Ordinary then
      match s.store.applyMetaCommand cmd with
      | .error _ => some s
      | .ok m => some { s with store := m }
    else none
  | .lostLeadership => some { s with moves := ∅, awaiting := none }

def Step (timeout : Int) (s : Mover) (op : MoveOp) (t : Mover) : Prop := s.step timeout op = some t

end Mover

def MetaCommand.Spares (cmd : MetaCommand) (k : PartitionRef) (epoch : Nat) (id : NodeID) : Prop :=
  match cmd with
  | .unregisterBroker x => x ≠ id
  | .fenceBroker x fenced _ => fenced = true → x ≠ id
  | .assignLeader k' _ _ isr => k' = k → ∀ members ∈ isr, id ∈ members
  | .updateISR k' epoch' isr => k' = k → epoch' = epoch → id ∈ isr
  | _ => True

def MetaCommand.Crowns (cmd : MetaCommand) (k : PartitionRef) (id : NodeID) : Prop :=
  match cmd with
  | .assignLeader k' leader _ _ => k' = k ∧ leader = id
  | _ => False

instance (cmd : MetaCommand) (k : PartitionRef) (epoch : Nat) (id : NodeID) :
    Decidable (cmd.Spares k epoch id) := by
  induction cmd using MetaCommand.casesOn <;> dsimp only [MetaCommand.Spares] <;> infer_instance

instance (cmd : MetaCommand) (k : PartitionRef) (id : NodeID) : Decidable (cmd.Crowns k id) := by
  induction cmd using MetaCommand.casesOn <;> dsimp only [MetaCommand.Crowns] <;> infer_instance

theorem MetaCommand.Changes.ordinary {cmd : MetaCommand} (h : cmd.Changes k a b) (ho : cmd.Ordinary)
    : b.replicas = a.replicas ∧ (∀ id ∈ a.isr, cmd.Spares k a.leaderEpoch id → id ∈ b.isr) ∧
    (b.leader = a.leader ∨ cmd.Crowns k b.leader) := by
  have hshrink : ∀ x, (a.shrinkISR x).replicas = a.replicas ∧
      (a.shrinkISR x).leader = a.leader := by
    intro x
    unfold PartitionAssignment.shrinkISR
    split <;> exact ⟨rfl, rfl⟩
  cases cmd with
  | registerBroker | createTopic => exact absurd h id
  | unregisterBroker x =>
    have hb : b = a.shrinkISR x := h
    subst hb
    exact ⟨(hshrink x).1, fun id hid hs => PartitionAssignment.mem_shrinkISR.mpr ⟨hid, hs.symm⟩,
      .inl (hshrink x).2⟩
  | fenceBroker x fenced at_ =>
    obtain ⟨hf, rfl⟩ := h
    exact ⟨(hshrink x).1,
      fun id hid hs => PartitionAssignment.mem_shrinkISR.mpr ⟨hid, (hs hf).symm⟩,
      .inl (hshrink x).2⟩
  | assignLeader k' leader epoch isr =>
    obtain ⟨hk, _, rfl⟩ := h
    refine ⟨rfl, ?_, .inr ⟨hk, rfl⟩⟩
    intro id hid hs
    cases isr with
    | none => exact hid
    | some members => exact hs hk members rfl
  | updateISR k' epoch isr =>
    obtain ⟨hk, he, clean, hc, rfl⟩ := h
    refine ⟨rfl, ?_, .inl rfl⟩
    intro id _ hs
    exact (PartitionAssignment.mem_withISR hc).mpr (.inl (hs hk he))
  | reassign => exact absurd ho id

theorem MetadataStore.applyReassign_ok {m : MetadataStore}
    (h : m.applyMetaCommand (.reassign k replicas) = .ok m') :
    m' = m.modifyAssignment k (.reassign replicas) := by
  simp only [applyMetaCommand, applyReassign] at h
  split at h
  · exact (Except.ok.inj h).symm
  · cases h

namespace Mover
variable {s t : Mover} {timeout : Int}

def Shrinking (s : Mover) (mv : Move) (before : Nat) : Prop :=
  ∃ st, s.moves[mv.k]? = some st ∧ st.move = mv ∧ st.before = before ∧ st.phase = .shrink

def Covers (m : MetadataStore) (st : MoveState) : Prop :=
  ∃ a, m.assignment st.move.k = some a ∧ st.move.target ∈ a.replicas ∧
    a.replicas.length = st.before + 1 ∧ (st.phase = .shrink → st.move.target ∈ a.isr)

def Safe (mv : Move) (m : MetadataStore) : Prop :=
  ∃ a, m.assignment mv.k = some a ∧ mv.target ∈ a.replicas ∧ mv.target ∈ a.isr ∧
    a.leader ≠ mv.source

def Enough (mv : Move) (before : Nat) (m : MetadataStore) : Prop :=
  ∃ a, m.assignment mv.k = some a ∧ before ≤ a.replicas.length

def Due (s : Mover) : Awaiting → Prop
  | .expand mv replicas _ => s.moves[mv.k]? = none ∧ mv.target ∉ replicas ∧
      ∃ a, s.store.assignment mv.k = some a ∧ a.replicas = replicas
  | .vacate mv before leader _ => leader ≠ mv.source ∧ s.Shrinking mv before
  | .reread mv before => s.Shrinking mv before ∧
      ∃ a, s.store.assignment mv.k = some a ∧ a.leader ≠ mv.source
  | .shrink mv before replicas => s.Shrinking mv before ∧
      ∃ a, s.store.assignment mv.k = some a ∧ a.leader ≠ mv.source ∧ replicas = shrunk mv a

structure Inv (s : Mover) : Prop where
  distinct : ∀ k a, s.store.assignment k = some a → a.replicas.Nodup
  filed : ∀ (k : PartitionRef) (st : MoveState), s.moves[k]? = some st → st.move.k = k
  covered : ∀ (k : PartitionRef) (st : MoveState), s.moves[k]? = some st → Covers s.store st
  due : ∀ w, s.awaiting = some w → s.Due w
  removed : ∀ e ∈ s.removals, Safe e.1 e.2
  counted : ∀ e ∈ s.steps, Enough e.1 e.2.1 e.2.2

theorem Inv.start : Mover.start.Inv where
  distinct k a ha := by simp [Mover.start, MetadataStore.empty, MetadataStore.assignment] at ha
  filed k st h := by simp [Mover.start] at h
  covered k st h := by simp [Mover.start] at h
  due w h := by simp [Mover.start] at h
  removed e h := by simp [Mover.start] at h
  counted e h := by simp [Mover.start] at h

section
variable (h : s.Inv)
include h

theorem Inv.idle : Inv { s with awaiting := none } :=
  { h with due := fun _ hw => by cases hw }

theorem Inv.finishMove (k : PartitionRef) : (s.finishMove k).Inv := by
  have herase : ∀ (k' : PartitionRef) (st : MoveState),
      (s.finishMove k).moves[k']? = some st → s.moves[k']? = some st := by
    intro k' st hst
    simp only [Mover.finishMove, TreeMap.getElem?_erase] at hst
    split at hst
    · cases hst
    · exact hst
  exact {
    distinct := h.distinct
    filed := fun k' st hst => h.filed k' st (herase k' st hst)
    covered := fun k' st hst => h.covered k' st (herase k' st hst)
    due := fun _ hw => by cases hw
    removed := h.removed
    counted := h.counted }

theorem Inv.await (hw : s.Due w) : Inv { s with awaiting := some w } :=
  { h with due := fun w' hw' => by cases hw'; exact hw }

section
variable (ha : s.awaiting = none)
include ha

theorem Inv.shrinks {k : PartitionRef} {st : MoveState}
    (hst : s.moves[k]? = some st)
    (hin : ∀ a, s.store.assignment st.move.k = some a → st.move.target ∈ a.isr) :
    Inv { s with moves := s.moves.insert st.move.k { st with phase := .shrink } } := by
  refine { h with filed := ?_, covered := ?_, due := ?_ }
  · intro k' st' hst'
    rcases insert_cases hst' with ⟨rfl, rfl⟩ | ⟨_, hold⟩
    · rfl
    · exact h.filed k' st' hold
  · intro k' st' hst'
    rcases insert_cases hst' with ⟨rfl, rfl⟩ | ⟨_, hold⟩
    · obtain ⟨a, ha, htgt, hlen, _⟩ := h.covered k st hst
      exact ⟨a, ha, htgt, hlen, fun _ => hin a ha⟩
    · exact h.covered k' st' hold
  · intro w hw
    rw [ha] at hw
    cases hw

theorem Inv.shrinkMove {k : PartitionRef} {st : MoveState}
    {a : PartitionAssignment} (hst : s.moves[k]? = some st) (hk : s.store.assignment k = some a)
    (hin : st.move.target ∈ a.isr) : (s.shrinkMove st a).Inv := by
  have hfiled := h.filed k st hst
  subst hfiled
  have hs := h.shrinks ha hst (fun b hb => by cases hk.symm.trans hb; exact hin)
  have hshr : Shrinking { s with moves := s.moves.insert st.move.k { st with phase := .shrink } }
      st.move st.before := ⟨_, TreeMap.getElem?_insert_self, rfl, rfl, rfl⟩
  simp only [Mover.shrinkMove]
  split
  · rename_i hlead
    cases hf : a.isr.find? (fun id => id ≠ st.move.source) with
    | none => exact hs
    | some next =>
      dsimp only
      split
      · exact hs
      · exact hs.await ⟨by simpa using find?_some hf, hshr⟩
  · rename_i hlead
    exact hs.await ⟨hshr, a, hk, hlead, rfl⟩

theorem Inv.advanceMove (hst : s.moves[k]? = some st)
    (now : Int) : (s.advanceMove timeout k st now).Inv := by
  simp only [Mover.advanceMove]
  cases hk : s.store.assignment k with
  | none => exact h.finishMove k
  | some a =>
    dsimp only
    split
    · split
      · exact h.finishMove k
      · exact h
    · rename_i hgo
      refine h.shrinkMove ha hst hk ?_
      obtain ⟨b, hb, _, _, hshr⟩ := h.covered k st hst
      rw [h.filed k st hst, hk] at hb
      cases hb
      cases hp : st.phase with
      | shrink => exact hshr hp
      | expand => simpa [hp, PartitionAssignment.inISR] using hgo

end

end

theorem Covers.modify (h : Covers m st) (hk : k ≠ st.move.k) :
    Covers (m.modifyAssignment k f) st := by
  obtain ⟨a, ha, hrest⟩ := h
  refine ⟨a, ?_, hrest⟩
  rw [MetadataStore.modifyAssignment_assignment, if_neg hk, ha]

theorem distinct_modify {m : MetadataStore} (h : ∀ k a, m.assignment k = some a → a.replicas.Nodup)
    (hf : ∀ a, m.assignment k = some a → (f a).replicas.Nodup) :
    ∀ k' a, (m.modifyAssignment k f).assignment k' = some a → a.replicas.Nodup := by
  intro k' a ha
  rw [MetadataStore.modifyAssignment_assignment] at ha
  split at ha
  · obtain ⟨b, hb, rfl⟩ := map_eq_some_iff.mp ha
    exact hf b hb
  · exact h k' a ha

theorem modify_self {m : MetadataStore} (ha : m.assignment k = some a)
    (f : PartitionAssignment → PartitionAssignment) :
    (m.modifyAssignment k f).assignment k = some (f a) := by
  rw [MetadataStore.modifyAssignment_assignment, if_pos rfl, ha]
  rfl

theorem Inv.commit_expand (h : s.Inv) (hd : s.Due (.expand mv replicas now)) :
    (s.commit (.expand mv replicas now)).Inv := by
  obtain ⟨hnone, htgt, a, ha, hrep⟩ := hd
  simp only [commit]
  cases hm : s.store.applyMetaCommand (.reassign mv.k (replicas ++ [mv.target])) with
  | error e => exact h.idle
  | ok m =>
    cases MetadataStore.applyReassign_ok hm
    have hself := modify_self ha (.reassign (replicas ++ [mv.target]))
    refine ⟨?_, ?_, ?_, ?_, h.removed, ?_⟩
    · refine distinct_modify h.distinct (fun b hb => ?_)
      refine nodup_append.mpr ⟨hrep ▸ h.distinct mv.k a ha, by simp, fun x hx y hy => ?_⟩
      rintro rfl
      exact htgt (mem_singleton.mp hy ▸ hx)
    · intro k st hst
      rcases insert_cases hst with ⟨rfl, rfl⟩ | ⟨_, hold⟩
      · rfl
      · exact h.filed k st hold
    · intro k st hst
      rcases insert_cases hst with ⟨rfl, rfl⟩ | ⟨hne, hold⟩
      · exact ⟨_, hself, mem_append_right _ (mem_singleton.mpr rfl),
          length_append, fun hp => by cases hp⟩
      · exact (h.covered k st hold).modify (fun he => hne (he.trans (h.filed k st hold)).symm)
    · intro w hw
      cases hw
    · intro e he
      rcases mem_append.mp he with hold | hnew
      · exact h.counted e hold
      · cases mem_singleton.mp hnew
        exact ⟨_, hself, length_append ▸ Nat.le_add_right _ _⟩

theorem Inv.commit_vacate (h : s.Inv) (hd : s.Due (.vacate mv before leader epoch)) :
    (s.commit (.vacate mv before leader epoch)).Inv := by
  obtain ⟨hne, st, hst, rfl, rfl, hph⟩ := hd
  simp only [commit]
  cases hm : s.store.applyMetaCommand (.assignLeader st.move.k leader epoch none) with
  | error e => exact h.idle
  | ok m =>
    obtain ⟨a, ha, _, rfl⟩ := MetadataStore.applyAssignLeader_ok hm
    have hself := modify_self ha (.assign leader epoch none)
    have hcov : ∀ (k : PartitionRef) (st' : MoveState), s.moves[k]? = some st' →
        Covers (s.store.modifyAssignment st.move.k (.assign leader epoch none)) st' := by
      intro k st' hst'
      by_cases he : st.move.k = st'.move.k
      · obtain ⟨b, hb, hrest⟩ := h.covered k st' hst'
        rw [← he, ha] at hb
        cases hb
        exact ⟨a.assign leader epoch none, by rw [← he]; exact hself, hrest⟩
      · exact (h.covered k st' hst').modify he
    refine ⟨?_, h.filed, hcov, ?_, h.removed, ?_⟩
    · exact distinct_modify h.distinct (fun b hb => h.distinct _ b hb)
    · intro w hw
      cases hw
      exact ⟨⟨st, hst, rfl, rfl, hph⟩, _, hself, hne⟩
    · intro e he
      rcases mem_append.mp he with hold | hnew
      · exact h.counted e hold
      cases mem_singleton.mp hnew
      obtain ⟨b, hb, _, hlen, _⟩ := hcov _ st hst
      exact ⟨b, hb, hlen ▸ Nat.le_succ _⟩

theorem length_shrunk (mv : Move) {a : PartitionAssignment} (hn : a.replicas.Nodup) :
    a.replicas.length ≤ (shrunk mv a).length + 1 := by
  have hcount := nodup_iff_count.mp hn mv.source
  have hall := length_eq_countP_add_countP (fun id => id == mv.source) (l := a.replicas)
  have hrest : (shrunk mv a).length = a.replicas.countP (fun id => ¬ (id == mv.source) = true) := by
    rw [countP_eq_length_filter]
    simp [shrunk]
  rw [count] at hcount
  omega

theorem Inv.commit_shrink (h : s.Inv) (hd : s.Due (.shrink mv before replicas)) :
    (s.commit (.shrink mv before replicas)).Inv := by
  obtain ⟨⟨st, hst, rfl, rfl, hph⟩, a, ha, hlead, rfl⟩ := hd
  have hfin := h.finishMove st.move.k
  simp only [commit]
  cases hm : s.store.applyMetaCommand (.reassign st.move.k (shrunk st.move a)) with
  | error e => exact hfin
  | ok m =>
    cases MetadataStore.applyReassign_ok hm
    have hself := modify_self ha (.reassign (shrunk st.move a))
    obtain ⟨b, hb, htgt, hlen, hin⟩ := h.covered _ st hst
    cases ha.symm.trans hb
    refine ⟨?_, hfin.filed, ?_, ?_, ?_, ?_⟩
    · exact distinct_modify h.distinct (fun c hc => (h.distinct _ a ha).filter _)
    · intro k st' hst'
      refine (hfin.covered k st' hst').modify ?_
      intro he
      have hk := hfin.filed k st' hst'
      rw [← hk, ← he] at hst'
      simp [Mover.finishMove] at hst'
    · intro w hw
      cases hw
    · intro e he
      rcases mem_append.mp he with hold | hnew
      · exact h.removed e hold
      · cases mem_singleton.mp hnew
        exact ⟨a, ha, htgt, hin hph, hlead⟩
    · intro e he
      rcases mem_append.mp he with hold | hnew
      · exact h.counted e hold
      cases mem_singleton.mp hnew
      refine ⟨_, hself, ?_⟩
      have hshort := length_shrunk st.move (h.distinct _ a ha)
      change st.before ≤ (shrunk st.move a).length
      omega

theorem Inv.commit (h : s.Inv) (hw : s.awaiting = some w) : (s.commit w).Inv := by
  have hd := h.due w hw
  cases w with
  | expand mv replicas now => exact h.commit_expand hd
  | vacate mv before leader epoch => exact h.commit_vacate hd
  | reread mv before => exact h
  | shrink mv before replicas => exact h.commit_shrink hd

theorem Inv.fail (h : s.Inv) (w : Awaiting) : (s.fail w).Inv := by
  cases w with
  | expand | vacate => exact h.idle
  | reread => exact h
  | shrink mv before replicas => exact h.finishMove mv.k

/-- No other command takes the target of a move out of the in-sync set or makes its source the
leader. -/
def Spared (s : Mover) : MoveOp → Prop
  | .other cmd =>
    (∀ e ∈ s.moves.toList, e.2.phase = .shrink → ∀ a ∈ s.store.assignment e.2.move.k,
      cmd.Spares e.2.move.k a.leaderEpoch e.2.move.target) ∧
    match s.awaiting with
    | some (.reread mv _) | some (.shrink mv _ _) => ¬ cmd.Crowns mv.k mv.source
    | _ => True
  | _ => True

instance (s : Mover) (op : MoveOp) : Decidable (s.Spared op) := by
  unfold Spared
  split
  · refine @instDecidableAnd _ _ inferInstance ?_
    split <;> infer_instance
  · infer_instance

theorem ordinary_assignment {m : MetadataStore} (hm : m.applyMetaCommand cmd = .ok m')
    (ho : cmd.Ordinary) (ha : m.assignment k = some a) :
    ∃ b, m'.assignment k = some b ∧ b.replicas = a.replicas ∧
      (∀ id ∈ a.isr, cmd.Spares k a.leaderEpoch id → id ∈ b.isr) ∧
      (b.leader = a.leader ∨ cmd.Crowns k b.leader) := by
  rcases MetadataStore.applyMetaCommand_follows hm k with hs | ⟨hn, _⟩ | ⟨a', b, ha', hb, hc⟩
  · exact ⟨a, hs.trans ha, rfl, fun _ hid _ => hid, .inl rfl⟩
  · rw [ha] at hn
    cases hn
  · cases ha.symm.trans ha'
    exact ⟨b, hb, hc.ordinary ho⟩

theorem Inv.other (h : s.Inv) (hm : s.store.applyMetaCommand cmd = .ok m) (ho : cmd.Ordinary)
    (hs : s.Spared (.other cmd)) : Inv { s with store := m } := by
  obtain ⟨hspare, hcrown⟩ := hs
  have hled : ∀ {k : PartitionRef} {id : NodeID} {a : PartitionAssignment},
      ¬ cmd.Crowns k id → s.store.assignment k = some a → a.leader ≠ id →
      ∃ b, m.assignment k = some b ∧ b.replicas = a.replicas ∧ b.leader ≠ id := by
    intro k id a hno ha hne
    obtain ⟨b, hb, hrep, _, hlead⟩ := ordinary_assignment hm ho ha
    refine ⟨b, hb, hrep, ?_⟩
    rcases hlead with hsame | hcr
    · exact hsame ▸ hne
    · rintro rfl
      exact hno hcr
  refine { h with distinct := ?_, covered := ?_, due := ?_ }
  · intro k b hb
    rcases MetadataStore.applyMetaCommand_follows hm k with
      hsame | ⟨_, _, replicas, ⟨shape, placements, rfl, hr⟩, hk⟩ | ⟨a, c, ha, hc, hch⟩
    · exact h.distinct k b (hsame ▸ hb)
    · cases hb.symm.trans hk
      exact ho replicas hr
    · cases hb.symm.trans hc
      exact (hch.ordinary ho).1 ▸ h.distinct k a ha
  · intro k st hst
    obtain ⟨a, ha, htgt, hlen, hin⟩ := h.covered k st hst
    obtain ⟨b, hb, hrep, hisr, _⟩ := ordinary_assignment hm ho ha
    refine ⟨b, hb, hrep ▸ htgt, hrep ▸ hlen, fun hp => hisr _ (hin hp) ?_⟩
    exact hspare (k, st) (TreeMap.mem_toList_iff_getElem?_eq_some.mpr hst) hp a ha
  · intro w hw
    have hw' : s.awaiting = some w := hw
    have hd := h.due w hw'
    rw [hw'] at hcrown
    cases w with
    | expand mv replicas now =>
      obtain ⟨hnone, htgt, a, ha, hrep⟩ := hd
      obtain ⟨b, hb, hrep', _⟩ := ordinary_assignment hm ho ha
      exact ⟨hnone, htgt, b, hb, hrep'.trans hrep⟩
    | vacate mv before leader epoch => exact hd
    | reread mv before =>
      obtain ⟨hshr, a, ha, hne⟩ := hd
      obtain ⟨b, hb, _, hne'⟩ := hled hcrown ha hne
      exact ⟨hshr, b, hb, hne'⟩
    | shrink mv before replicas =>
      obtain ⟨hshr, a, ha, hne, hrep⟩ := hd
      obtain ⟨b, hb, hrep', hne'⟩ := hled hcrown ha hne
      exact ⟨hshr, b, hb, hne', by rw [hrep, shrunk, shrunk, hrep']⟩

theorem Inv.step (h : s.Inv) (hs : s.Step timeout op t) (hok : s.Spared op) : t.Inv := by
  unfold Step at hs
  cases op with
  | startMove mv now =>
    simp only [Mover.step] at hs
    split at hs
    · rename_i a hidle hnone ha
      split at hs
      · cases hs
      rename_i htgt
      cases hs
      exact h.await ⟨hnone, htgt, a, ha, rfl⟩
    · cases hs
  | advanceMove k now =>
    simp only [Mover.step] at hs
    split at hs
    · rename_i st hidle hst
      cases hs
      exact h.advanceMove hidle hst now
    · cases hs
  | commit =>
    obtain ⟨w, hw, rfl⟩ := map_eq_some_iff.mp hs
    exact h.commit hw
  | fail =>
    obtain ⟨w, hw, rfl⟩ := map_eq_some_iff.mp hs
    exact h.fail w
  | resume =>
    simp only [Mover.step] at hs
    split at hs
    · rename_i mv before hw
      obtain ⟨a, ha, rfl⟩ := map_eq_some_iff.mp hs
      obtain ⟨hshr, b, hb, hne⟩ := h.due _ hw
      cases ha.symm.trans hb
      exact h.await ⟨hshr, a, ha, hne, rfl⟩
    · cases hs
  | other cmd =>
    simp only [Mover.step] at hs
    split at hs
    · rename_i ho
      cases hm : s.store.applyMetaCommand cmd with
      | error e =>
        simp only [hm, some.injEq] at hs
        exact hs ▸ h
      | ok m =>
        simp only [hm, some.injEq] at hs
        exact hs ▸ h.other hm ho hok
    · cases hs
  | lostLeadership =>
    cases hs
    exact { h with
      filed := fun k st hst => by simp at hst
      covered := fun k st hst => by simp at hst
      due := fun w hw => by cases hw }

/-- While the targets of shrinking moves stay in sync and their sources out of
office, every source removed leaves its target a replica in sync and was not the
leader, and no step of a move leaves fewer replicas than there were. -/
theorem moves_keep_durability {ops : List MoveOp} (hr : Run (Step timeout) Spared .start ops s) :
    (∀ e ∈ s.removals, ∃ a, e.2.assignment e.1.k = some a ∧ e.1.target ∈ a.replicas ∧
      e.1.target ∈ a.isr ∧ a.leader ≠ e.1.source) ∧
    ∀ e ∈ s.steps, ∃ a, e.2.2.assignment e.1.k = some a ∧ e.2.1 ≤ a.replicas.length := by
  have hinv := hr.invariant Inv .start (fun _ _ _ hi hc hs => hi.step hs hc)
  exact ⟨hinv.removed, hinv.counted⟩

def movedOut : List MoveOp :=
  [.other (.registerBroker "n1" {}), .other (.registerBroker "n2" {}),
   .other (.registerBroker "n3" {}),
   .other (.createTopic "orders" ⟨1, 2, 1⟩ [["n1", "n2"]]),
   .other (.assignLeader ⟨"orders", 0⟩ "n1" 1 none),
   .startMove ⟨⟨"orders", 0⟩, "n1", "n3"⟩ 0, .commit,
   .other (.updateISR ⟨"orders", 0⟩ 1 ["n1", "n2", "n3"]),
   .advanceMove ⟨"orders", 0⟩ 1]

theorem moves_keep_durability_moved :
    ∃ s, Run (Step 1800) Spared .start (movedOut ++ [.commit, .resume, .commit]) s ∧
      s.removals.length = 1 ∧ s.steps.length = 3 ∧
      ∀ e ∈ s.steps, ∃ a, e.2.2.assignment e.1.k = some a ∧ e.2.1 ≤ a.replicas.length := by
  refine Run.shown (fun s => s.removals.length = 1 ∧ s.steps.length = 3) (by decide +kernel) ?_
  rintro s hr ⟨hrem, hsteps⟩
  exact ⟨hrem, hsteps, (moves_keep_durability hr).2⟩

/-- Handing leadership on fails, target and source are fenced, and the remaining
replica is elected. The next pass still takes the move for one whose target is
in sync, and removes the source. -/
theorem move_removes_source_early : ∃ s, Run (Step 1800) always .start
        (movedOut ++ [.fail, .other (.fenceBroker "n3" true 2),
          .other (.fenceBroker "n1" true 2), .other (.assignLeader ⟨"orders", 0⟩ "n2" 2 none),
          .advanceMove ⟨"orders", 0⟩ 3, .commit]) s ∧ s.removals.any (fun e =>
        (e.2.assignment e.1.k).any (fun a => e.1.target ∉ a.isr)) = true :=
  Run.found (f := step 1800) _ (by decide +kernel)

end Mover

end Boltq.Cluster
