import Boltq.Stream.History
import Boltq.Stream.Refinement

namespace Boltq.Stream
open Lib SegmentStore LawfulSegmentStore List

namespace Partition

inductive Sheds {S : Type} [SegmentStore S] (cutoff : Int) :
    Partition S → List S → Partition S → Prop where
  | stop (p : Partition S) : Sheds cutoff p [] p
  | drop {p q : Partition S} {oldest : S} {rest dropped : List S} (ho : p.older = oldest :: rest)
      (hx : p.expired cutoff (rest.head?.getD p.active) = true)
      (h : Sheds cutoff (p.dropOldest oldest (rest.head?.getD p.active) rest) dropped q) :
      Sheds cutoff p (oldest :: dropped) q

def Kept {S : Type} [SegmentStore S] (cutoff : Int) (p : Partition S) : Prop :=
  p.older = [] ∨ p.expired cutoff (p.older.tail.head?.getD p.active) = false

theorem retain_sheds [SegmentStore S] {p : Partition S} (cutoff : Int) (older : List S)
    (removed : Nat) (ho : p.older = older) (hc : p.closed = false) :
    ∃ dropped, Sheds cutoff p dropped (retain cutoff older p removed).1 ∧
      (retain cutoff older p removed).1.Kept cutoff := by
  induction older generalizing p removed with
  | nil => exact ⟨[], .stop p, Or.inl ho⟩
  | cons oldest rest ih =>
    simp only [retain, hc, Bool.false_eq_true, if_false]
    cases hx : p.expired cutoff (rest.head?.getD p.active) with
    | true =>
      obtain ⟨dropped, hs, hk⟩ := ih (p := p.dropOldest oldest (rest.head?.getD p.active) rest)
        (removed + 1) rfl hc
      exact ⟨oldest :: dropped, .drop ho hx hs, hk⟩
    | false =>
      refine ⟨[], .stop p, Or.inr ?_⟩
      change p.expired cutoff (p.older.tail.head?.getD p.active) = false
      rw [ho]
      exact hx

section Shedding
variable {S : Type} [LawfulSegmentStore S] {p q : Partition S} {cutoff : Int} {dropped : List S}

section
variable (h : Sheds cutoff p dropped q)
include h

theorem Sheds.segments : p.segments = dropped ++ q.segments := by
  induction h with
  | stop p => rfl
  | drop ho _ _ ih =>
    rw [cons_append, ← ih]
    simp [Partition.segments, ho, Partition.dropOldest]

theorem Sheds.cfg : q.cfg = p.cfg := by
  induction h with
  | stop p => rfl
  | drop _ _ _ ih => exact ih

theorem Sheds.placed (hp : p.Placed) : q.Placed := by
  induction h with
  | stop p => exact hp
  | drop ho _ _ ih => exact ih (hp.dropOldest ho)

theorem Sheds.epochForSeq (hp : p.Placed) :
    ∀ r ∈ q.records, q.epochs.epochForSeq r.seq = p.epochs.epochForSeq r.seq := by
  induction h with
  | stop p => intro r _; rfl
  | @drop p q oldest rest dropped ho _ h ih =>
    intro r hr
    have hmem : r ∈ (p.dropOldest oldest (rest.head?.getD p.active) rest).records := by
      rw [records, h.segments, flatMap_append]
      exact mem_append_right _ hr
    have hge := (hp.dropOldest ho).wf.seq_range hmem
    rw [ih (hp.dropOldest ho) r hr]
    exact hp.ordered.epochForSeq_truncateBeforeSeq hge.1

theorem Sheds.oversize (hw : p.WellFormed) (hc : cutoff ≤ 0) : ∀ s, dropped.getLast? = some s →
      p.cfg.retentionBytes < bytes s + (q.segments.map bytes).sum := by
  induction h with
  | stop p => intro s hs; cases hs
  | @drop p q oldest rest dropped ho hx h ih =>
    intro s hs
    cases dropped with
    | cons t dropped => exact ih (dropOldest_effect hw ho).1 s hs
    | nil =>
      cases h
      obtain rfl : oldest = s := by simpa using hs
      have hcount := hw.count
      rw [Partition.segments, ho] at hcount
      have hover : p.cfg.retentionBytes < p.byteCount := by
        simp only [expired, Bool.or_eq_true, decide_eq_true_eq] at hx
        omega
      rw [hcount] at hover
      simpa [Partition.segments, Partition.dropOldest] using hover

end

/-- As long as each next segment, from the oldest on, begins with a record stamped before the
cutoff, all records of the segment before it are stamped before the cutoff too. -/
def Seasoned (cutoff : Int) : List S → Prop
  | s :: t :: rest => ∀ b ∈ (LawfulSegmentStore.records t).head?, 0 < b.timestamp →
      b.timestamp < cutoff → (∀ r ∈ LawfulSegmentStore.records s, r.timestamp < cutoff) ∧
        Seasoned cutoff (t :: rest)
  | _ => True

instance decidableSeasoned (cutoff : Int) : (l : List S) → Decidable (Seasoned cutoff l)
  | [] | [_] => .isTrue trivial
  | s :: t :: rest =>
    have := decidableSeasoned cutoff (t :: rest)
    decidable_of_iff (∀ b ∈ (LawfulSegmentStore.records t).head?, 0 < b.timestamp →
      b.timestamp < cutoff → (∀ r ∈ LawfulSegmentStore.records s, r.timestamp < cutoff) ∧
        Seasoned cutoff (t :: rest)) .rfl

theorem firstTimestamp_eq {s : S} (h : Valid s) :
    firstTimestamp s = (LawfulSegmentStore.records s).head?.elim 0 Record.timestamp := by
  unfold firstTimestamp
  rw [read_ok _ _ _ h, Nat.sub_self, drop_zero]
  cases LawfulSegmentStore.records s with
  | nil => rfl
  | cons r rs => simp [readRecords]

theorem expired_iff (hb : p.cfg.retentionBytes ≤ 0) {next : S} (hv : Valid next) :
    p.expired cutoff next = true ↔ ∃ b ∈ (LawfulSegmentStore.records next).head?,
      0 < b.timestamp ∧ b.timestamp < cutoff := by
  simp only [expired, Bool.or_eq_true, decide_eq_true_eq, firstTimestamp_eq hv]
  cases (LawfulSegmentStore.records next).head? with
  | none => simp; omega
  | some b => simp; omega

theorem Sheds.aged_iff (h : Sheds cutoff p dropped q) (hk : q.Kept cutoff) (hw : p.WellFormed)
    (hb : p.cfg.retentionBytes ≤ 0) :
    (∀ r ∈ dropped.flatMap LawfulSegmentStore.records, r.timestamp < cutoff) ↔
      Seasoned cutoff p.segments := by
  have hnext : ∀ (p : Partition S) oldest rest, p.older = oldest :: rest → ∃ more,
      p.segments = oldest :: rest.head?.getD p.active :: more ∧
        (p.dropOldest oldest (rest.head?.getD p.active) rest).segments =
          rest.head?.getD p.active :: more := by
    intro p oldest rest ho
    cases rest with
    | nil => exact ⟨[], by simp [Partition.segments, ho, dropOldest]⟩
    | cons t rest => exact ⟨rest ++ [p.active], by simp [Partition.segments, ho, dropOldest]⟩
  induction h with
  | stop p =>
    refine iff_of_true (by simp) ?_
    cases ho : p.older with
    | nil => simp [Partition.segments, ho, Seasoned]
    | cons oldest rest =>
      obtain ⟨more, hseg, -⟩ := hnext p oldest rest ho
      have hv : Valid (rest.head?.getD p.active) := hw.covers.valid _ (by simp [hseg])
      rw [hseg]
      intro b hin hpos hlt
      have hkept : p.expired cutoff (rest.head?.getD p.active) = false := by
        simpa [Kept, ho] using hk
      rw [(expired_iff hb hv).mpr ⟨b, hin, hpos, hlt⟩] at hkept
      cases hkept
  | @drop p q oldest rest dropped ho hx h ih =>
    obtain ⟨more, hseg, hdrop⟩ := hnext p oldest rest ho
    have hv : Valid (rest.head?.getD p.active) := hw.covers.valid _ (by simp [hseg])
    obtain ⟨b, hin, hpos, hlt⟩ := (expired_iff hb hv).mp hx
    have hrest := ih hk (dropOldest_effect hw ho).1 hb
    rw [hdrop] at hrest
    rw [hseg, flatMap_cons, forall_mem_append]
    exact ⟨fun h _ _ _ _ => h.imp_right hrest.mp, fun h => (h b hin hpos hlt).imp_right hrest.mpr⟩

theorem Kept.fits (hk : q.Kept cutoff) (hb : 0 < q.cfg.retentionBytes) :
    q.byteCount ≤ q.cfg.retentionBytes ∨ q.older = [] := by
  rcases hk with hk | hk
  · exact Or.inr hk
  · simp only [expired, Bool.or_eq_false_iff, decide_eq_false_iff_not] at hk
    omega

end Shedding

theorem enforceRetention_sheds [SegmentStore S] {p : Partition S} (now : Int)
    (hc : p.closed = false) :
    ∃ dropped, Sheds (if 0 < p.cfg.retentionAge then now - p.cfg.retentionAge else 0) p dropped
        (p.enforceRetention now).1 ∧ (0 < p.cfg.retentionBytes ∨ 0 < p.cfg.retentionAge →
        (p.enforceRetention now).1.Kept
          (if 0 < p.cfg.retentionAge then now - p.cfg.retentionAge else 0)) := by
  unfold enforceRetention
  generalize (if 0 < p.cfg.retentionAge then now - p.cfg.retentionAge else 0) = cutoff
  by_cases hoff : p.cfg.retentionBytes ≤ 0 ∧ p.cfg.retentionAge ≤ 0
  · rw [if_pos hoff]
    exact ⟨[], .stop p, by omega⟩
  · obtain ⟨dropped, hs, hk⟩ := retain_sheds cutoff p.older 0 rfl hc
    rw [if_neg hoff]
    exact ⟨dropped, hs, fun _ => hk⟩

section Reached
variable {S : Type} [LawfulSegmentStore S] {p₀ p : Partition S}

/-- Retention by size stops at the size and gives up no segment that fits it.
Retention by age gives up no record younger than the cutoff exactly if the
segments that begin before it follow on segments that lie before it. Both keep
the bookkeeping and the epochs of what remains. -/
theorem retention_drops_what_policy_allows {topic : String} {id : Int} {cfg : PartitionConfig}
    {ops : List Op} (ho : openPartition topic id ⟨[], []⟩ cfg = .ok p₀)
    (hr : Run Succeeds Storable p₀ ops p) (now : Int) :
    ∃ dropped, p.segments = dropped ++ (p.enforceRetention now).1.segments ∧
      (0 < p.cfg.retentionBytes → p.cfg.retentionAge ≤ 0 →
        ((p.enforceRetention now).1.byteCount ≤ p.cfg.retentionBytes ∨
          (p.enforceRetention now).1.segments.length = 1) ∧
        ∀ s, dropped.getLast? = some s → p.cfg.retentionBytes <
          bytes s + ((p.enforceRetention now).1.segments.map bytes).sum) ∧
      (p.cfg.retentionBytes ≤ 0 → 0 < p.cfg.retentionAge →
        ((∀ r ∈ dropped.flatMap LawfulSegmentStore.records,
          r.timestamp < now - p.cfg.retentionAge) ↔
            Seasoned (now - p.cfg.retentionAge) p.segments)) ∧
      (p.enforceRetention now).1.segments.head?.map baseSeq =
        some (p.enforceRetention now).1.firstSeq ∧ (p.enforceRetention now).1.byteCount =
        ((p.enforceRetention now).1.segments.map bytes).sum ∧
      ∀ r ∈ (p.enforceRetention now).1.records,
        (p.enforceRetention now).1.epochs.epochForSeq r.seq = p.epochs.epochForSeq r.seq := by
  have hp : p.Placed := hr.invariant Placed (Described.of_empty ho).toPlaced
    (fun _ _ _ h hst hs => hs.after ▸ h.after hst)
  have hopen : p.Open := hr.invariant Open (Open.fresh topic id cfg ho).1
    (fun _ _ _ h hst hs => (h.refines hst hs).1)
  obtain ⟨dropped, hsheds, hkept⟩ := enforceRetention_sheds now hopen.closed
  have hq := hsheds.placed hp
  generalize (p.enforceRetention now).1 = q at hsheds hkept hq ⊢
  refine ⟨dropped, hsheds.segments, ?_, ?_, ?_, hq.wf.count, hsheds.epochForSeq hp⟩
  · intro hb ha
    rw [if_neg (by omega)] at hsheds hkept
    refine ⟨?_, hsheds.oversize hp.wf (Int.le_refl 0)⟩
    rw [← hsheds.cfg]
    rcases (hkept (Or.inl hb)).fits (by rw [hsheds.cfg]; exact hb) with hfits | hlast
    · exact Or.inl hfits
    · exact Or.inr (by simp [Partition.segments, hlast])
  · intro hb ha
    rw [if_pos ha] at hsheds hkept
    exact hsheds.aged_iff (hkept (Or.inr ha)) hp.wf hb
  · have hcov := hq.wf.covers
    cases hseg : q.segments with
    | nil => simp [Partition.segments] at hseg
    | cons s rest =>
      rw [hseg] at hcov
      rw [head?_cons, Option.map_some, hcov.2.1]

end Reached

def keepTenTicks : PartitionConfig :=
  { smallSegments with retentionAge := 10 }

def fourTicks : List Op :=
  [.append (.ofPayload [1]) 5, .append (.ofPayload [2]) 20, .append (.ofPayload [3]) 47,
    .append { Record.ofPayload [4] with timestamp := 5 } 48]

/-- The last record is stamped before the cutoff, but a segment before it is not. -/
theorem retention_drops_four_ticks : ∃ p : Partition FileSegment,
      Run Succeeds Storable (fresh "chat" 0 keepTenTicks.applyDefaults ⟨[]⟩) fourTicks p ∧
      (p.enforceRetention 50).1.records.map Record.timestamp = [20, 47, 5] ∧
      ∃ dropped, p.segments = dropped ++ (p.enforceRetention 50).1.segments ∧
        ∀ r ∈ dropped.flatMap LawfulSegmentStore.records, r.timestamp < 50 - 10 := by
  obtain ⟨p, hrun, hb, ha, hord, hq⟩ := Run.executed Storable exec
    (fresh "chat" 0 keepTenTicks.applyDefaults ⟨[]⟩) fourTicks
    (fun p : Partition FileSegment => p.cfg.retentionBytes = 0 ∧ p.cfg.retentionAge = 10 ∧
      Seasoned (50 - 10) p.segments ∧
        (p.enforceRetention 50).1.records.map Record.timestamp = [20, 47, 5])
    (by decide +kernel)
  obtain ⟨dropped, hseg, _, hage, _⟩ :=
    retention_drops_what_policy_allows (open_fresh "chat" 0 keepTenTicks) hrun 50
  rw [ha] at hage
  exact ⟨p, hrun, hq, dropped, hseg, (hage (by omega) (by omega)).mpr hord⟩

def futureFirst : List Op :=
  [.append { Record.ofPayload [1] with timestamp := 100 } 45,
    .append { Record.ofPayload [2] with timestamp := 5 } 46, .append (.ofPayload [3]) 47]

/-- The client's own timestamps decide what age means: a record stamped after
the cutoff goes with its segment because the next record is stamped before it. -/
theorem retention_drops_record_after_cutoff : ∃ p : Partition FileSegment,
      Run Succeeds Storable (fresh "chat" 0 keepTenTicks.applyDefaults ⟨[]⟩) futureFirst p ∧
      p.cfg.retentionBytes = 0 ∧ p.cfg.retentionAge = 10 ∧
      ∃ r ∈ p.records, 50 - p.cfg.retentionAge ≤ r.timestamp ∧
        r ∉ (p.enforceRetention 50).1.records := by
  obtain ⟨p, hrun, hp⟩ := Run.executed Storable exec
    (fresh "chat" 0 keepTenTicks.applyDefaults ⟨[]⟩) futureFirst
    (fun p : Partition FileSegment => p.cfg.retentionBytes = 0 ∧ p.cfg.retentionAge = 10 ∧
      ∃ r ∈ p.records, 50 - p.cfg.retentionAge ≤ r.timestamp ∧
        r ∉ (p.enforceRetention 50).1.records) (by decide +kernel)
  exact ⟨p, hrun, hp⟩

end Partition
end Boltq.Stream
