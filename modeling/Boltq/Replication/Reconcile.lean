import Boltq.Stream.Leadership

namespace Boltq.Replication
open Lib Boltq.Stream List

inductive ReconcileErr where
  | unplaceableEpoch (topic : String) (id : Int) (epoch : Nat)
  | truncate (topic : String) (id : Int) (seq : Nat) (cause : Err)
  deriving DecidableEq

section Exchange
variable {S : Type} [SegmentStore S]

def answerEpoch (leader : Option (Partition S)) (epoch : Nat) : Nat × Nat :=
  leader.elim (undefinedEpoch, 0) (fun p => p.endOffsetForEpoch epoch)

def reconcileEpoch (p : Partition S) (leader : Option (Partition S)) :
    Partition S × Except ReconcileErr Unit :=
  if p.nextSeq ≤ 1 then (p, .ok ())
  else
    let localEpoch := p.leaderEpoch.1
    let resp := answerEpoch leader localEpoch
    if resp.1 = undefinedEpoch then
      if localEpoch = undefinedEpoch then (p, .ok ())
      else (p, .error (.unplaceableEpoch p.topic p.id localEpoch))
    else if p.nextSeq ≤ resp.2 then (p, .ok ())
    else
      match p.truncateTo resp.2 with
      | (q, .error e) => (q, .error (.truncate p.topic p.id resp.2 e))
      | (q, .ok _) => (q, .ok ())

theorem reconcileEpoch_after (p : Partition S) (leader : Option (Partition S)) :
    (reconcileEpoch p leader).1 = p ∨
    (answerEpoch leader p.epochs.latest.1).1 ≠ undefinedEpoch ∧ (reconcileEpoch p leader).1 =
      p.after (.truncateTo (answerEpoch leader p.epochs.latest.1).2) := by
  unfold reconcileEpoch Partition.leaderEpoch
  dsimp only
  split
  · exact Or.inl rfl
  split
  · split <;> exact Or.inl rfl
  rename_i hdef
  split
  · exact Or.inl rfl
  · refine Or.inr ⟨hdef, ?_⟩
    split <;> rename_i hq <;> exact (congrArg Prod.fst hq).symm

end Exchange

structure Matching (a b : List Record) : Prop where
  same : ∀ r ∈ a, ∀ s ∈ b, r.epoch = s.epoch → r.seq = s.seq → r = s
  before : ∀ r ∈ a, ∀ s ∈ b, r.epoch = s.epoch → r.seq = s.seq →
    ∀ r' ∈ a, ∀ s' ∈ b, r'.seq = s'.seq → r'.seq < r.seq → r' = s'

def Agree (a b : List Record) : Prop := ∀ r ∈ a, ∀ s ∈ b, r.seq = s.seq → r = s
  deriving Decidable

section Agreement
variable {S : Type} [LawfulSegmentStore S] {p q leader : Partition S}

def Shared (p leader : Partition S) (seq : Nat) : Prop :=
  p.firstSeq ≤ seq ∧ leader.firstSeq ≤ seq ∧ seq < p.nextSeq ∧ seq < leader.nextSeq

/-- Where the histories have to meet. A follower without epochs shares no
sequence with a term of the leader. Any other gives the same epoch as the leader
to the last shared sequence that is in no newer term than its own last one. -/
def Placeable (p leader : Partition S) : Prop :=
  (p.epochs.latest.1 = undefinedEpoch →
    ∀ seq, Shared p leader seq → leader.epochs.epochForSeq seq = undefinedEpoch) ∧
  (p.epochs.latest.1 ≠ undefinedEpoch →
    ∀ seq, Shared p leader seq → leader.epochs.epochForSeq seq ≤ p.epochs.latest.1 →
      (∀ later, Shared p leader later → seq < later →
        p.epochs.latest.1 < leader.epochs.epochForSeq later) →
      p.epochs.epochForSeq seq = leader.epochs.epochForSeq seq)

structure Kept (p q leader : Partition S) : Prop where
  described : q.Described
  firstSeq : q.firstSeq = p.firstSeq
  records : ∀ r ∈ q.records, r ∈ p.records
  shared : ∀ seq, seq < q.nextSeq ∧ seq < leader.nextSeq ↔ seq < p.nextSeq ∧ seq < leader.nextSeq ∧
    leader.epochs.epochForSeq seq ≤ p.epochs.latest.1

theorem endSeq_iff (hl : leader.Described) (epoch seq : Nat) :
    seq < leader.nextSeq ∧ leader.epochs.epochForSeq seq ≤ epoch ↔ seq < leader.nextSeq ∧
        seq < (leader.epochs.following epoch).elim leader.nextSeq EpochEntry.startSeq := by
  cases hf : leader.epochs.following epoch with
  | none => simp [hl.ordered.epochForSeq_le seq hf]
  | some next => rw [hl.ordered.epochForSeq_le_iff seq hf]; rfl

theorem answerEpoch_cases (hl : leader.Described) (epoch : Nat) :
    (answerEpoch (some leader) epoch).1 = undefinedEpoch ∨
    (answerEpoch (some leader) epoch).1 ≤ epoch ∧ (answerEpoch (some leader) epoch).2 =
      (leader.epochs.following epoch).elim leader.nextSeq EpochEntry.startSeq := by
  have hresp : answerEpoch (some leader) epoch = _ := hl.ordered.endOffsetFor_eq leader.nextSeq
  rw [hresp]
  cases hu : leader.epochs.upto epoch with
  | none => exact Or.inl rfl
  | some prev =>
    have hmem := (mem_filter.mp (mem_of_getLast? hu)).2
    exact Or.inr ⟨by simpa using hmem, rfl⟩

section
variable (h : p.Described)
include h

theorem reconcile_cases (hl : leader.Described)
    (hr : reconcileEpoch p (some leader) = (q, .ok ())) :
    (p.nextSeq ≤ 1 ∧ q = p) ∨ (p.epochs.latest.1 = undefinedEpoch ∧ q = p) ∨
    p.epochs.latest.1 ≠ undefinedEpoch ∧ Kept p q leader := by
  have hans := answerEpoch_cases hl p.epochs.latest.1
  unfold reconcileEpoch Partition.leaderEpoch at hr
  dsimp only at hr
  generalize answerEpoch (some leader) p.epochs.latest.1 = resp at hr hans
  split at hr
  · rename_i hempty
    cases hr
    exact Or.inl ⟨hempty, rfl⟩
  · right
    by_cases hundef : resp.1 = undefinedEpoch
    · simp only [hundef, ↓reduceIte] at hr
      split at hr
      · rename_i he
        cases hr
        exact Or.inl ⟨he, rfl⟩
      · cases hr
    · obtain ⟨hle, hend⟩ := hans.resolve_left hundef
      have he : p.epochs.latest.1 ≠ undefinedEpoch := by
        unfold undefinedEpoch at *
        omega
      have hiff := endSeq_iff hl p.epochs.latest.1
      rw [← hend] at hiff
      simp only [hundef, ↓reduceIte] at hr
      right
      refine ⟨he, ?_⟩
      split at hr
      · rename_i hkeep
        cases hr
        refine ⟨h, rfl, fun r hr => hr, fun seq => ?_⟩
        rw [hiff seq]
        omega
      · rename_i hlong
        rcases Partition.truncateTo_cases resp.2 h.wf with ⟨e, hq⟩ | ⟨hle, _⟩ | ⟨m, hq, hcut⟩
        · rw [hq] at hr
          cases hr
        · exact absurd hle hlong
        rw [hq] at hr
        cases hr
        refine ⟨h.cut hcut, by rw [hcut.same], ?_, fun seq => ?_⟩
        · intro r hr
          rw [hcut.records] at hr
          exact mem_of_mem_take hr
        · rw [hiff seq, hcut.nextSeq]
          omega

theorem reconcileEpoch_keeps (hl : leader.Described) :
    (reconcileEpoch p (some leader)).1.Described ∧
      ∀ r ∈ p.records, r ∈ leader.records → r ∈ (reconcileEpoch p (some leader)).1.records := by
  rcases reconcileEpoch_after p (some leader) with hq | ⟨hdef, hq⟩
  · rw [hq]
    exact ⟨h, fun r hr _ => hr⟩
  rw [hq]
  have hst : p.Storable (.truncateTo (answerEpoch (some leader) p.epochs.latest.1).2) := trivial
  refine ⟨h.after hst trivial, fun r hr hrl => ?_⟩
  refine (h.wf.accounted hst).kept r hr ?_ (fun _ => nofun)
  intro seq hseq
  injection hseq with hseq
  obtain ⟨_, hend⟩ := (answerEpoch_cases hl p.epochs.latest.1).resolve_left hdef
  rw [← hseq, hend]
  refine ((endSeq_iff hl p.epochs.latest.1 r.seq).mp ⟨(hl.wf.seq_range hrl).2, ?_⟩).2
  rw [← hl.epochs r hrl, h.epochs r hr]
  exact h.ordered.epochForSeq_le_latest r.seq

theorem record_at_epoch (hf : p.firstSeq ≤ seq) (hn : seq < p.nextSeq) :
    ∃ r ∈ p.records, r.seq = seq ∧ r.epoch = p.epochs.epochForSeq seq := by
  obtain ⟨r, hr, hs⟩ := h.wf.record_at hf hn
  exact ⟨r, hr, hs, hs ▸ h.epochs r hr⟩

theorem agree_undefined (hl : leader.Described)
    (hm : Matching p.records leader.records) (he : p.epochs.latest.1 = undefinedEpoch) :
    Agree p.records leader.records ↔
      ∀ seq, Shared p leader seq → leader.epochs.epochForSeq seq = undefinedEpoch := by
  have hzero : ∀ r ∈ p.records, r.epoch = undefinedEpoch := by
    intro r hr
    have hle := h.ordered.epochForSeq_le_latest r.seq
    rw [h.epochs r hr]
    unfold undefinedEpoch at *
    omega
  constructor
  · rintro ha seq ⟨hpf, hlf, hpn, hln⟩
    obtain ⟨r, hr, hrs⟩ := h.wf.record_at hpf hpn
    obtain ⟨s, hs, hss, hse⟩ := record_at_epoch hl hlf hln
    rw [← hse, ← ha r hr s hs (hrs.trans hss.symm), hzero r hr]
  · intro hall r hr s hs hseq
    have hp := h.wf.seq_range hr
    have hq := hl.wf.seq_range hs
    have hs0 := hall s.seq ⟨hseq ▸ hp.1, hq.1, hseq ▸ hp.2, hq.2⟩
    exact hm.same r hr s hs (by rw [hzero r hr, hl.epochs s hs, hs0]) hseq

theorem agree_kept (hl : leader.Described)
    (hm : Matching p.records leader.records) (hk : Kept p q leader) :
    Agree q.records leader.records ↔
      ∀ seq, Shared p leader seq → leader.epochs.epochForSeq seq ≤ p.epochs.latest.1 →
        (∀ later, Shared p leader later → seq < later →
          p.epochs.latest.1 < leader.epochs.epochForSeq later) →
        p.epochs.epochForSeq seq = leader.epochs.epochForSeq seq := by
  have hfirst := hk.firstSeq
  constructor
  · rintro ha seq ⟨hpf, hlf, hpn, hln⟩ hle _
    obtain ⟨hqn, _⟩ := (hk.shared seq).mpr ⟨hpn, hln, hle⟩
    obtain ⟨r, hr, hrs⟩ := hk.described.wf.record_at (hfirst.symm ▸ hpf) hqn
    obtain ⟨s, hs, hss, hse⟩ := record_at_epoch hl hlf hln
    rw [← hse, ← ha r hr s hs (hrs.trans hss.symm), h.epochs r (hk.records r hr), hrs]
  · intro hmeet r hr s hs hseq
    obtain ⟨hrf, hrn⟩ := hk.described.wf.seq_range hr
    obtain ⟨hsf, hsn⟩ := hl.wf.seq_range hs
    generalize hlast : min q.nextSeq leader.nextSeq - 1 = last
    have hkept : last < q.nextSeq ∧ last < leader.nextSeq := by omega
    obtain ⟨hpn, hln, hle⟩ := (hk.shared last).mp hkept
    have hsame := hmeet last ⟨by omega, by omega, hpn, hln⟩ hle (by
      rintro later ⟨_, _, hlp, hll⟩ hlt
      by_contra hc
      obtain ⟨hq, _⟩ := (hk.shared later).mpr ⟨hlp, hll, Nat.le_of_not_lt hc⟩
      omega)
    obtain ⟨x, hx, hxs, hxe⟩ := record_at_epoch h (by omega : p.firstSeq ≤ last) hpn
    obtain ⟨y, hy, hys, hye⟩ := record_at_epoch hl (by omega : leader.firstSeq ≤ last) hln
    have hep : x.epoch = y.epoch := by rw [hxe, hye, hsame]
    rcases Nat.lt_or_ge r.seq last with hlt | hge
    · exact hm.before x hx y hy hep (hxs.trans hys.symm) r (hk.records r hr) s hs hseq (by omega)
    have hrlast : r.seq = last := by omega
    refine hm.same r (hk.records r hr) s hs ?_ hseq
    rw [h.epochs r (hk.records r hr), hl.epochs s hs, ← hseq, hrlast, hsame]

end

/-- After a reconciliation that reports no error, the follower agrees with the
leader exactly when their histories met to begin with. -/
theorem reconciled_logs_agree_iff (h : p.Described) (hl : leader.Described)
    (hm : Matching p.records leader.records) (hr : reconcileEpoch p (some leader) = (q, .ok ())) :
    Agree q.records leader.records ↔ Placeable p leader := by
  unfold Placeable
  rcases reconcile_cases h hl hr with ⟨hempty, rfl⟩ | ⟨he, rfl⟩ | ⟨he, hk⟩
  · have hnone : ∀ seq, ¬ Shared q leader seq := by
      rintro seq ⟨hpf, _, hpn, _⟩
      have hpos := h.wf.first_pos
      omega
    have hagree : Agree q.records leader.records := by
      intro r hr
      have hrange := h.wf.seq_range hr
      have hpos := h.wf.first_pos
      omega
    exact ⟨fun _ => ⟨fun _ seq hs => absurd hs (hnone seq), fun _ seq hs => absurd hs (hnone seq)⟩,
      fun _ => hagree⟩
  · rw [agree_undefined h hl hm he]
    exact ⟨fun hall => ⟨fun _ => hall, fun hne => absurd he hne⟩, fun hp => hp.1 he⟩
  · rw [agree_kept h hl hm hk]
    exact ⟨fun hall => ⟨fun heq => absurd heq he, fun _ => hall⟩, fun hp => hp.2 he⟩

end Agreement

instance (a b : List Record) : Decidable (Matching a b) :=
  decidable_of_iff ((∀ r ∈ a, ∀ s ∈ b, r.epoch = s.epoch → r.seq = s.seq → r = s) ∧
    ∀ r ∈ a, ∀ s ∈ b, r.epoch = s.epoch → r.seq = s.seq →
      ∀ r' ∈ a, ∀ s' ∈ b, r'.seq = s'.seq → r'.seq < r.seq → r' = s')
    ⟨fun h => ⟨h.1, h.2⟩, fun h => ⟨h.same, h.before⟩⟩

def played (ops : List Op) : Partition RecSegment :=
  (execAll Partition.Fresh Partition.exec Partition.freshChat ops).getD Partition.freshChat

theorem played_described
    (h : (execAll Partition.Fresh Partition.exec Partition.freshChat ops).isSome = true) :
    (played ops).Described := by
  obtain ⟨p, hp⟩ := Option.isSome_iff_exists.mp h
  have hrun : Run Partition.Succeeds Partition.Fresh Partition.freshChat ops p :=
    .of_execAll (fun _ _ _ h => h) hp
  rw [played, hp]
  exact (Partition.Described.of_empty (Partition.open_fresh "chat" 0 _)).run_fresh hrun

/-- A tail the old leader did not get to replicate is cut off, and nothing else. -/
theorem orphaned_tail_is_cut :
    ∃ p leader q : Partition RecSegment, reconcileEpoch p (some leader) = (q, .ok ()) ∧
      p.records.length = 2 ∧ q.records.length = 1 ∧
      (Agree q.records leader.records ↔ Placeable p leader) :=
  ⟨played [.becomeLeader 1, .append (.ofPayload [1]) 5, .append (.ofPayload [2]) 6],
    played [.becomeLeader 1, .append (.ofPayload [1]) 5, .becomeLeader 2, .append (.ofPayload [3]) 7],
    played [.becomeLeader 1, .append (.ofPayload [1]) 5],
    by decide +kernel, by decide +kernel, by decide +kernel,
    reconciled_logs_agree_iff (played_described (by decide +kernel))
      (played_described (by decide +kernel)) (by decide +kernel) (by decide +kernel)⟩

def followerOps : List Op :=
  [.becomeLeader 1, .append (.ofPayload [1]) 5, .becomeLeader 3, .append (.ofPayload [3]) 6]

def leaderOps : List Op :=
  [.becomeLeader 1, .append (.ofPayload [1]) 5, .becomeLeader 2, .append (.ofPayload [2]) 6,
    .becomeLeader 4]

/-- The leader never had term 3, answers with the end of term 2, and the follower
keeps its own second record. -/
theorem unknown_term_survives_reconcile :
    ∃ q, (played followerOps).Described ∧ (played leaderOps).Described ∧
      Matching (played followerOps).records (played leaderOps).records ∧
      reconcileEpoch (played followerOps) (some (played leaderOps)) = (q, .ok ()) ∧
      ¬ Agree q.records (played leaderOps).records :=
  ⟨played followerOps, played_described (by decide +kernel), played_described (by decide +kernel),
    by decide +kernel, by decide +kernel, by decide +kernel⟩

end Boltq.Replication
