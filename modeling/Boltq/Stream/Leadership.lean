import Boltq.Stream.Checkpoint

namespace Boltq.Stream
open Lib SegmentStore LawfulSegmentStore List

inductive LeadErr where
  | epochZero
  | olderTerm (epoch : Nat) (topic : String) (id : Int) (current : Nat)
  | reassert (e : Err)
  | promote (topic : String) (id : Int) (e : Err)
  deriving DecidableEq

namespace Partition

def becomeLeaderFor {S : Type} [SegmentStore S] (p : Partition S) (epoch : Nat) :
    Partition S × Except LeadErr Unit :=
  let current := p.leaderEpoch.1
  if epoch = undefinedEpoch then (p, .error .epochZero)
  else if epoch = current then
    match p.reassertLeadership epoch with
    | (q, .error e) => (q, .error (.reassert e))
    | (q, .ok _) => (q, .ok ())
  else if epoch < current then (p, .error (.olderTerm epoch p.topic p.id current))
  else
    match p.becomeLeader epoch with
    | (q, .error e) => (q, .error (.promote p.topic p.id e))
    | (q, .ok _) => (q, .ok ())

theorem becomeLeaderFor_after [SegmentStore S] (p : Partition S) (epoch : Nat) :
    (p.becomeLeaderFor epoch).1 = p ∨
    (p.becomeLeaderFor epoch).1 = p.after (.reassertLeadership epoch) ∨
    (p.becomeLeaderFor epoch).1 = p.after (.becomeLeader epoch) := by
  unfold becomeLeaderFor
  dsimp only
  split
  · exact Or.inl rfl
  split
  · right
    left
    split <;> rename_i hq <;> simp [Partition.after, hq]
  · split
    · exact Or.inl rfl
    right
    right
    split <;> rename_i hq <;> simp [Partition.after, hq]

theorem append_accepted [SegmentStore S] {p q : Partition S} {rec : Record} {now : Int} {seq : Nat}
    (h : p.append rec now = (q, .ok seq)) : p.enforceLeadership = false ∨ p.isLeader = true := by
  unfold append at h
  split at h
  · cases h
  split at h
  · cases h
  split at h
  · cases h
  rename_i hlead
  cases he : p.enforceLeadership with
  | false => exact Or.inl rfl
  | true =>
    right
    simpa [he] using hlead

def offered {S : Type} [SegmentStore S] (p : Partition S) : Op → List Record
  | .append rec now => [(p.stamp rec now).canonical]
  | .appendBatch recs now => (stampAll p.curEpoch now p.nextSeq recs).map Record.canonical
  | .appendReplicated rec => [rec.canonical]
  | _ => []

variable {S : Type} [LawfulSegmentStore S] {p q : Partition S}

theorem wf_survives : Survives (S := S) WellFormed (fun _ _ => True) where
  wf h := h
  stamped _ := trivial
  push _ _ _ _ he := he.wf
  term h _ _ := h.setEpochs _ _
  lead _ _ h := ⟨h.covers, h.writable, h.filled, h.count⟩
  cut _ hc := hc.wf
  drop h ho := (dropOldest_effect h ho).1
  reopen cfg h := by
    obtain ⟨q, hq, hw, _⟩ := reopen_effect cfg h
    simpa [Partition.after, hq, Except.toOption] using hw

theorem WellFormed.after (h : p.WellFormed) (hst : p.Storable op) : (p.after op).WellFormed :=
  wf_survives.after h hst (fun _ _ _ _ => trivial)

structure Accounted (p : Partition S) (op : Op) (q : Partition S) : Prop where
  gained : ∀ r ∈ q.records, r ∈ p.records ∨ r ∈ p.offered op
  kept : ∀ r ∈ p.records, (∀ seq, op = .truncateTo seq → r.seq < seq) →
    (∀ now, op ≠ .enforceRetention now) → r ∈ q.records

theorem Accounted.same (h : q.records = p.records) : Accounted p op q where
  gained _ hr := Or.inl (h ▸ hr)
  kept _ hr _ _ := h ▸ hr

theorem Accounted.grown (h : q.records = p.records ++ rs) (hrs : ∀ r ∈ rs, r ∈ p.offered op) :
    Accounted p op q where
  gained r hr := (mem_append.mp (h ▸ hr)).imp_right (hrs r)
  kept _ hr _ _ := h ▸ mem_append_left rs hr

theorem WellFormed.accounted (h : p.WellFormed) (hst : p.Storable op) :
    Accounted p op (p.after op) := by
  cases op with
  | append rec now =>
    rcases append_cases h hst with ⟨e, hq⟩ | ⟨q, hq, hext⟩
    · rw [show p.after (.append rec now) = p from congrArg Prod.fst hq]
      exact .same rfl
    · rw [show p.after (.append rec now) = q from congrArg Prod.fst hq]
      exact .grown hext.records (fun r hr => hr)
  | appendBatch recs now =>
    obtain ⟨rs, hext, hpre, _⟩ := appendBatch_cases h hst
    refine .grown hext.records ?_
    intro r hr
    obtain ⟨x, hx, rfl⟩ := mem_map.mp hr
    exact mem_map.mpr ⟨x, hpre.subset hx, rfl⟩
  | appendReplicated rec =>
    rcases appendReplicated_cases h hst with ⟨e, hq⟩ | ⟨_, hq⟩ | ⟨m, hseq, hm, hres⟩
    · rw [show p.after (.appendReplicated rec) = p from congrArg Prod.fst hq]
      exact .same rfl
    · rw [show p.after (.appendReplicated rec) = p from congrArg Prod.fst hq]
      exact .same rfl
    have hrec : m.records = p.records := (noteEpoch_wf h hm).2.1
    rcases hres with ⟨e, hq⟩ | ⟨q, hq, hext⟩
    · rw [show p.after (.appendReplicated rec) = m from congrArg Prod.fst hq]
      exact .same hrec
    · rw [show p.after (.appendReplicated rec) = q from congrArg Prod.fst hq]
      exact .grown (hrec ▸ hext.records) (fun r hr => hr)
  | becomeLeader epoch =>
    rcases becomeLeader_cases p epoch with ⟨e, hq⟩ | ⟨epochs, _, _, hq⟩
    · rw [show p.after (.becomeLeader epoch) = p from congrArg Prod.fst hq]
      exact .same rfl
    · rw [show p.after (.becomeLeader epoch) = _ from congrArg Prod.fst hq]
      exact .same rfl
  | reassertLeadership epoch =>
    rcases reassertLeadership_cases p epoch with ⟨e, hq⟩ | ⟨_, hq⟩
    · rw [show p.after (.reassertLeadership epoch) = p from congrArg Prod.fst hq]
      exact .same rfl
    · rw [show p.after (.reassertLeadership epoch) = _ from congrArg Prod.fst hq]
      exact .same rfl
  | resign => exact .same rfl
  | enforceLeadership on => exact .same rfl
  | truncateTo seq =>
    rcases truncateTo_cases seq h with ⟨e, hq⟩ | ⟨_, hq⟩ | ⟨q, hq, hcut⟩
    · rw [show p.after (.truncateTo seq) = p from congrArg Prod.fst hq]
      exact .same rfl
    · rw [show p.after (.truncateTo seq) = p from congrArg Prod.fst hq]
      exact .same rfl
    rw [show p.after (.truncateTo seq) = q from congrArg Prod.fst hq]
    refine ⟨fun r hr => Or.inl (mem_of_mem_take (hcut.records ▸ hr)), ?_⟩
    intro r hr hlt _
    rw [hcut.records, ← h.dense.filter_lt]
    exact mem_filter.mpr ⟨hr, by simpa using hlt seq rfl⟩
  | enforceRetention now =>
    obtain ⟨_, dropped, hr, _⟩ := enforceRetention_effect now h
    refine ⟨fun r hmem => Or.inl ?_, fun r _ _ hno => absurd rfl (hno now)⟩
    rw [hr]
    exact mem_append_right _ hmem
  | reopen cfg =>
    obtain ⟨q, hq, _, hr, _⟩ := reopen_effect cfg h
    have hafter : p.after (.reopen cfg) = q := by simp [Partition.after, hq, Except.toOption]
    rw [hafter]
    exact .same hr

theorem WellFormed.becomeLeaderFor (h : p.WellFormed) (epoch : Nat) :
    (p.becomeLeaderFor epoch).1.WellFormed ∧
      ∀ r, r ∈ (p.becomeLeaderFor epoch).1.records ↔ r ∈ p.records := by
  have same : ∀ op, p.Storable op → p.offered op = [] → (∀ seq, op ≠ .truncateTo seq) →
      (∀ now, op ≠ .enforceRetention now) →
      (p.after op).WellFormed ∧ ∀ r, r ∈ (p.after op).records ↔ r ∈ p.records := by
    intro op hst hnew htrunc hret
    have hacc := h.accounted hst
    refine ⟨h.after hst, fun r => ⟨?_, ?_⟩⟩
    · intro hr
      simpa [hnew] using hacc.gained r hr
    · intro hr
      exact hacc.kept r hr (fun seq he => absurd he (htrunc seq)) hret
  rcases becomeLeaderFor_after p epoch with hq | hq | hq
  · rw [hq]
    exact ⟨h, fun r => Iff.rfl⟩
  · rw [hq]
    exact same _ trivial rfl (fun _ => nofun) (fun _ => nofun)
  · rw [hq]
    exact same _ trivial rfl (fun _ => nofun) (fun _ => nofun)

end Partition
end Boltq.Stream
