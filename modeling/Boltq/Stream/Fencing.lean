import Boltq.Stream.History

namespace Boltq.Stream
open Lib SegmentStore LawfulSegmentStore

namespace Partition
variable {p q : Partition RecSegment}

section
variable (p : Partition RecSegment)

def Called (op : Op) (q : Partition RecSegment) : Prop := p.after op = q

theorem called_of_after (op : Op) (q : Partition RecSegment)
    (h : some (p.after op) = some q) : Called p op q := Option.some.inj h

def Fenced (rec : Record) : Prop :=
  (p.appendReplicated rec).1.records = p.records ++ [rec.canonical] →
    p.curEpoch ≤ rec.epoch ∧
      (p.enforceLeadership = true → p.isLeader = true → rec.epoch = p.curEpoch)

def Follows (rec : Record) : Prop :=
  p.closed = false ∧ rec.seq = p.nextSeq ∧ rec.flags &&& flagEphemeral = 0 ∧
    rec.bodyLen ≤ maxRecordSize ∧ rec.key.length ≤ 0xFFFF

def Outdated (rec : Record) : Prop :=
  rec.epoch < p.curEpoch ∨
    p.enforceLeadership = true ∧ p.isLeader = true ∧ rec.epoch ≠ p.curEpoch

end

theorem Placed.appends_iff (h : p.Placed) (rec : Record) :
    (p.appendReplicated rec).1.records = p.records ++ [rec.canonical] ↔ p.Follows rec := by
  constructor
  · intro hrec
    have hstay : ∀ m : Partition RecSegment, m.records = p.records →
        m.records ≠ p.records ++ [rec.canonical] := by
      intro m hm he
      rw [hm] at he
      exact List.cons_ne_nil _ _ (List.self_eq_append_right.mp he)
    unfold appendReplicated at hrec
    split at hrec
    · exact absurd hrec (hstay p rfl)
    rename_i hfl
    split at hrec
    · exact absurd hrec (hstay p rfl)
    split at hrec
    · exact absurd hrec (hstay p rfl)
    rename_i hcl
    split at hrec
    · exact absurd hrec (hstay p rfl)
    split at hrec
    · exact absurd hrec (hstay p rfl)
    cases hm : p.noteEpoch rec with
    | error e =>
      rw [hm] at hrec
      exact absurd hrec (hstay p rfl)
    | ok m =>
      rw [hm] at hrec
      cases he : rec.encode with
      | error e =>
        simp only [he] at hrec
        exact absurd hrec (hstay m (noteEpoch_wf h.wf hm).2.1)
      | ok bs =>
        obtain ⟨_, hl, hk⟩ := encode_ok he
        exact ⟨by simpa using hcl, by omega, not_not.mp hfl, hl, hk⟩
  · rintro ⟨hcl, hseq, hfl, hl, hk⟩
    obtain ⟨m, q, hm, hq, hext⟩ :=
      h.appendReplicated_ok hcl trivial hseq hfl (encode_of_sizes hl hk)
    rw [hq]
    change q.records = _
    rw [hext.records, (noteEpoch_wf h.wf hm).2.1]

theorem Placed.fenced_iff (h : p.Placed) (rec : Record) :
    p.Fenced rec ↔ ¬ (p.Follows rec ∧ p.Outdated rec) := by
  rw [Fenced, h.appends_iff]
  constructor
  · rintro hf ⟨hfol, hout⟩
    obtain ⟨hge, hlead⟩ := hf hfol
    rcases hout with hlt | ⟨hon, hl, hne⟩
    · omega
    · exact hne (hlead hon hl)
  · intro hn hfol
    have hnot : ¬ p.Outdated rec := fun hout => hn ⟨hfol, hout⟩
    refine ⟨?_, ?_⟩
    · by_contra hc
      exact hnot (Or.inl (by omega))
    · intro hon hl
      by_contra hc
      exact hnot (Or.inr ⟨hon, hl, hc⟩)

def FencedCall (p : Partition RecSegment) (op : Op) : Prop :=
  match op with
  | .appendReplicated rec => p.Fenced rec
  | _ => True

def InTerm (p : Partition RecSegment) (op : Op) : Prop :=
  match op with
  | .appendReplicated rec => ¬ (p.Follows rec ∧ p.Outdated rec)
  | _ => True

/-- Every replicated append of a run is fenced exactly when no call of the run
delivers an outdated record at the head of the log: nothing but its position
keeps a record out. -/
theorem replicated_appends_fenced_iff {topic : String} {id : Int} {cfg : PartitionConfig}
    {p₀ p : Partition RecSegment} {ops : List Op}
    (h0 : openPartition topic id ⟨[], []⟩ cfg = .ok p₀) :
    Run Called FencedCall p₀ ops p ↔ Run Called InTerm p₀ ops p := by
  apply Run.congr Placed (Described.of_empty h0).toPlaced
  · intro t op u ht hs
    exact hs ▸ ht.after (storable_rec t op)
  · intro t op ht
    cases op with
    | appendReplicated rec => exact ht.fenced_iff rec
    | _ => exact Iff.rfl

def promotion : List Op :=
  [.enforceLeadership true,
    .appendReplicated { Record.ofPayload [1] with seq := 1, epoch := 1 }, .becomeLeader 2]

def leftover : Record := { Record.ofPayload [2] with seq := 2, epoch := 1 }

instance (p : Partition RecSegment) (rec : Record) : Decidable (p.Outdated rec) := by
  unfold Outdated
  infer_instance

/-- A session still open at promotion writes a record of the old term into the
new one. -/
theorem promoted_replica_appends_old_term :
    ∃ p, Run Called always freshChat promotion p ∧ p.isLeader = true ∧ p.curEpoch = 2 ∧
      (p.appendReplicated leftover).2 = .ok () ∧ ¬ p.Fenced leftover := by
  obtain ⟨p, hp, hl, hc, hok, hrec⟩ := Run.found_of called_of_after
    (fun p : Partition RecSegment => p.isLeader = true ∧ p.curEpoch = 2 ∧
      (p.appendReplicated leftover).2 = .ok () ∧
      (p.appendReplicated leftover).1.records = p.records ++ [leftover.canonical])
    (by decide +kernel : (execAll always _ freshChat promotion).any _ = true)
  refine ⟨p, hp, hl, hc, hok, ?_⟩
  intro hf
  have hle : p.curEpoch ≤ leftover.epoch := (hf hrec).1
  rw [hc] at hle
  exact absurd hle (by decide)

instance (p : Partition RecSegment) (op : Op) : Decidable (p.InTerm op) := by
  induction op using Op.casesOn <;> dsimp only [InTerm, Follows] <;> infer_instance

/-- A resigned leader that follows the next term: every append is fenced. -/
theorem resigned_leader_follows : ∃ p, Run Called FencedCall freshChat
      (promotion ++ [.resign, .appendReplicated { leftover with epoch := 3 }]) p ∧
      p.records.map Record.epoch = [1, 3] := by
  obtain ⟨p, hp, hrec⟩ := Run.found_of called_of_after
    (fun p : Partition RecSegment => p.records.map Record.epoch = [1, 3])
    (by decide +kernel : (execAll InTerm _ freshChat
      (promotion ++ [.resign, .appendReplicated { leftover with epoch := 3 }])).any _ = true)
  exact ⟨p, (replicated_appends_fenced_iff (open_fresh "chat" 0 defaultPartitionConfig)).mpr hp, hrec⟩

end Partition
end Boltq.Stream
