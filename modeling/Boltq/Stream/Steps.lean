import Boltq.Stream.Layout

namespace Boltq.Stream
open Lib SegmentStore LawfulSegmentStore List

inductive Op where
  | append (rec : Record) (now : Int)
  | appendBatch (recs : List Record) (now : Int)
  | appendReplicated (rec : Record)
  | becomeLeader (epoch : Nat)
  | reassertLeadership (epoch : Nat)
  | resign
  | enforceLeadership (on : Bool)
  | truncateTo (seq : Nat)
  | enforceRetention (now : Int)
  | reopen (cfg : PartitionConfig)
  deriving DecidableEq

def stampAll (epoch : Nat) (now : Int) : Nat → List Record → List Record
  | _, [] => []
  | seq, r :: rs => stampAs seq epoch now r :: stampAll epoch now (seq + 1) rs

namespace Partition

def okState (r : σ × Except Err β) : Option σ :=
  match r with
  | (s, .ok _) => some s
  | (_, .error _) => none

theorem okState_some : okState r = some s ↔ ∃ b, r = (s, .ok b) := by
  obtain ⟨t, e | b⟩ := r <;> simp [okState]

theorem toOption_some {e : Except Err σ} : e.toOption = some s ↔ e = .ok s := by
  cases e <;> simp [Except.toOption]

def exec {S : Type} [SegmentStore S] (p : Partition S) (op : Op) : Option (Partition S) :=
  match op with
  | .append rec now => okState (p.append rec now)
  | .appendBatch recs now => okState (p.appendBatch recs now)
  | .appendReplicated rec => okState (p.appendReplicated rec)
  | .becomeLeader epoch => okState (p.becomeLeader epoch)
  | .reassertLeadership epoch => okState (p.reassertLeadership epoch)
  | .resign => some p.resign
  | .enforceLeadership on => some (p.setEnforceLeadership on)
  | .truncateTo seq => okState (p.truncateTo seq)
  | .enforceRetention now => some (p.enforceRetention now).1
  | .reopen cfg => (openPartition p.topic p.id p.close.disk cfg).toOption

def Succeeds {S : Type} [SegmentStore S] (p : Partition S) (op : Op) (q : Partition S) : Prop :=
  p.exec op = some q

theorem open_fresh [SegmentStore S] (topic : String) (id : Int) (cfg : PartitionConfig) :
    openPartition (S := S) topic id ⟨[], []⟩ cfg = .ok (fresh topic id cfg.applyDefaults ⟨[]⟩) := rfl

/-- The records of the call fit the fields of the file format. -/
def Storable {S : Type} [LawfulSegmentStore S] (p : Partition S) (op : Op) : Prop :=
  match op with
  | .append rec now => Fits S (p.stamp rec now)
  | .appendBatch recs now => ∀ r ∈ stampAll p.curEpoch now p.nextSeq recs, Fits S r
  | .appendReplicated rec => Fits S rec
  | _ => True

def after {S : Type} [SegmentStore S] (p : Partition S) (op : Op) : Partition S :=
  match op with
  | .append rec now => (p.append rec now).1
  | .appendBatch recs now => (p.appendBatch recs now).1
  | .appendReplicated rec => (p.appendReplicated rec).1
  | .becomeLeader epoch => (p.becomeLeader epoch).1
  | .reassertLeadership epoch => (p.reassertLeadership epoch).1
  | .resign => p.resign
  | .enforceLeadership on => p.setEnforceLeadership on
  | .truncateTo seq => (p.truncateTo seq).1
  | .enforceRetention now => (p.enforceRetention now).1
  | .reopen cfg => (openPartition p.topic p.id p.close.disk cfg).toOption.getD p

theorem Succeeds.after [SegmentStore S] {p : Partition S} (h : p.Succeeds op q) :
    p.after op = q := by
  cases op with
  | append | appendBatch | appendReplicated | becomeLeader | reassertLeadership | truncateTo =>
    obtain ⟨_, hs⟩ := okState_some.mp h
    exact congrArg Prod.fst hs
  | resign | enforceLeadership | enforceRetention => exact Option.some.inj h
  | reopen cfg =>
    have hs : (openPartition p.topic p.id p.close.disk cfg).toOption = some q := h
    simp [Partition.after, hs]

theorem noteEpoch_effect [SegmentStore S] {p : Partition S} {rec : Record}
    (hs : p.noteEpoch rec = .ok q) : (rec.epoch ≤ p.curEpoch ∧ q = p) ∨
    ∃ epochs, p.curEpoch < rec.epoch ∧ p.epochs.assign rec.epoch rec.seq = .ok epochs ∧
      q = { p with epochs, curEpoch := rec.epoch } := by
  unfold noteEpoch at hs
  split at hs
  · rename_i hlt
    right
    cases ha : p.epochs.assign rec.epoch rec.seq with
    | error e => rw [ha] at hs; cases hs
    | ok epochs =>
      rw [ha] at hs
      simp only [Except.ok.injEq] at hs
      exact ⟨epochs, hlt, rfl, hs.symm⟩
  · rename_i hle
    simp only [Except.ok.injEq] at hs
    exact .inl ⟨by omega, hs.symm⟩

theorem makeRoom_nextSeq [SegmentStore S] (p : Partition S) (seq n : Nat) :
    (p.makeRoom seq n).nextSeq = p.nextSeq := by
  unfold makeRoom
  split <;> rfl

theorem appendReplicated_refused [SegmentStore S] {p q : Partition S} {rec : Record} {e : Err}
    (h : p.appendReplicated rec = (q, .error e)) : q.nextSeq = p.nextSeq := by
  unfold appendReplicated at h
  split at h
  · cases h; rfl
  split at h
  · cases h; rfl
  split at h
  · cases h; rfl
  split at h
  · cases h
  split at h
  · cases h; rfl
  cases hn : p.noteEpoch rec with
  | error e =>
    simp only [hn] at h
    cases h
    rfl
  | ok p' =>
    have hp' : p'.nextSeq = p.nextSeq := by
      rcases noteEpoch_effect hn with ⟨_, rfl⟩ | ⟨_, _, _, rfl⟩ <;> rfl
    simp only [hn] at h
    cases henc : rec.encode with
    | error e =>
      simp only [henc] at h
      cases h
      exact hp'
    | ok bs =>
      simp only [henc, write] at h
      split at h
      · cases h
        exact (makeRoom_nextSeq p' _ _).trans hp'
      · cases h

theorem truncateTo_nextSeq [SegmentStore S] (p : Partition S) (seq : Nat) :
    (p.truncateTo seq).1.nextSeq ≤ p.nextSeq := by
  unfold truncateTo
  split
  · exact Nat.le_refl _
  split
  · exact Nat.le_refl _
  rename_i hlt
  split
  · exact Nat.le_refl _
  dsimp only
  split
  · exact Nat.le_refl _
  · exact Nat.le_of_lt (Nat.lt_of_not_le hlt)

theorem becomeLeader_cases [SegmentStore S] (p : Partition S) (epoch : Nat) :
    (∃ e, p.becomeLeader epoch = (p, .error e)) ∨
    ∃ epochs, p.curEpoch < epoch ∧ p.epochs.assign epoch p.nextSeq = .ok epochs ∧
      p.becomeLeader epoch = ({ p with epochs, curEpoch := epoch, isLeader := true }, .ok ()) := by
  unfold becomeLeader
  split
  · exact .inl ⟨_, rfl⟩
  split
  · exact .inl ⟨_, rfl⟩
  split
  · exact .inl ⟨_, rfl⟩
  cases ha : p.epochs.assign epoch p.nextSeq with
  | error e => exact .inl ⟨e, rfl⟩
  | ok epochs => exact .inr ⟨epochs, by omega, rfl, rfl⟩

theorem reassertLeadership_cases [SegmentStore S] (p : Partition S) (epoch : Nat) :
    (∃ e, p.reassertLeadership epoch = (p, .error e)) ∨
    epoch = p.curEpoch ∧ p.reassertLeadership epoch = ({ p with isLeader := true }, .ok ()) := by
  unfold reassertLeadership
  split
  · exact .inl ⟨_, rfl⟩
  split
  · exact .inl ⟨_, rfl⟩
  · exact .inr ⟨by omega, rfl⟩

variable {S : Type} [LawfulSegmentStore S] {p q : Partition S}

theorem append_cases {rec : Record} {now : Int} (h : p.WellFormed) (hf : Fits S (p.stamp rec now)) :
    (∃ e, p.append rec now = (p, .error e)) ∨
    ∃ q, p.append rec now = (q, .ok p.nextSeq) ∧ Extended p q [(p.stamp rec now).canonical] := by
  unfold append
  split
  · exact .inl ⟨_, rfl⟩
  split
  · exact .inl ⟨_, rfl⟩
  split
  · exact .inl ⟨_, rfl⟩
  cases he : (p.stamp rec now).encode with
  | error e => exact .inl ⟨e, rfl⟩
  | ok bs =>
    obtain ⟨q, hq, hext⟩ := h.write hf he rfl
    exact .inr ⟨q, by simp only [hq], hext⟩

theorem append_written {S : Type} [SegmentStore S] {p q : Partition S} {rec : Record} {now : Int} {n : Nat}
    (h : p.append rec now = (q, .ok n)) : (p.stamp rec now).Written := by
  unfold append at h
  split at h
  · cases h
  rename_i hfl
  split at h
  · cases h
  split at h
  · cases h
  cases he : (p.stamp rec now).encode with
  | error e =>
    simp only [he] at h
    cases h
  | ok bs => exact ⟨not_not.mp hfl, bs, he⟩

theorem appendReplicated_written {S : Type} [SegmentStore S] {p q : Partition S} {rec : Record}
    (h : p.appendReplicated rec = (q, .ok ())) (hseq : rec.seq = p.nextSeq) : rec.Written := by
  unfold appendReplicated at h
  split at h
  · cases h
  rename_i hfl
  split at h
  · cases h
  split at h
  · cases h
  rw [if_neg (by omega), if_neg (by omega)] at h
  cases hn : p.noteEpoch rec with
  | error e =>
    simp only [hn] at h
    cases h
  | ok m =>
    cases he : rec.encode with
    | error e =>
      simp only [hn, he] at h
      cases h
    | ok bs => exact ⟨not_not.mp hfl, bs, he⟩

theorem appendEach_cases (seqs : List Nat) (h : p.WellFormed)
    (hf : ∀ r ∈ stampAll p.curEpoch now p.nextSeq recs, Fits S r) :
    ∃ rs, Extended p (appendEach now recs p seqs).1 (rs.map Record.canonical) ∧
      rs <+: stampAll p.curEpoch now p.nextSeq recs ∧
      ∀ out, (appendEach now recs p seqs).2 = .ok out →
        rs = stampAll p.curEpoch now p.nextSeq recs := by
  induction recs generalizing p seqs with
  | nil => exact ⟨[], .refl h, nil_prefix, fun _ _ => rfl⟩
  | cons rec recs ih =>
    simp only [appendEach]
    split
    · exact ⟨[], .refl h, nil_prefix, fun _ hok => by cases hok⟩
    cases he : (p.stamp rec now).encode with
    | error e => exact ⟨[], .refl h, nil_prefix, fun _ hok => by cases hok⟩
    | ok bs =>
      have hfit : Fits S (p.stamp rec now) := hf _ mem_cons_self
      obtain ⟨m, hm, hext⟩ := h.write hfit he rfl
      have hnext : m.nextSeq = p.nextSeq + 1 := hext.nextSeq h
      have hcur := hext.curEpoch
      simp only [hm]
      obtain ⟨rs, hrs, hpre, hall⟩ := ih (p := m) (seqs ++ [p.nextSeq]) hext.wf (by
        rw [hcur, hnext]
        exact fun r hr => hf r (mem_cons_of_mem _ hr))
      rw [hcur, hnext] at hpre hall
      refine ⟨p.stamp rec now :: rs, hext.trans hrs, ?_, ?_⟩
      · exact cons_prefix_cons.mpr ⟨rfl, hpre⟩
      intro out hok
      rw [hall out hok]
      rfl

section
variable (h : p.WellFormed)
include h

theorem appendBatch_cases
    (hf : ∀ r ∈ stampAll p.curEpoch now p.nextSeq recs, Fits S r) :
    ∃ rs, Extended p (p.appendBatch recs now).1 (rs.map Record.canonical) ∧
      rs <+: stampAll p.curEpoch now p.nextSeq recs ∧ ∀ out, (p.appendBatch recs now).2 = .ok out →
        rs = stampAll p.curEpoch now p.nextSeq recs := by
  unfold appendBatch
  split
  · rename_i hnil
    exact ⟨[], .refl h, nil_prefix, fun _ _ => by rw [hnil]; rfl⟩
  split
  · exact ⟨[], .refl h, nil_prefix, fun _ hok => by cases hok⟩
  split
  · exact ⟨[], .refl h, nil_prefix, fun _ hok => by cases hok⟩
  · exact appendEach_cases [] h hf

theorem WellFormed.setEpochs (epochs : LeaderEpochCache) (e : Nat) :
    { p with epochs, curEpoch := e : Partition S }.WellFormed :=
  ⟨h.covers, h.writable, h.filled, h.count⟩

theorem noteEpoch_wf {rec : Record} (hs : p.noteEpoch rec = .ok q) :
    q.WellFormed ∧ q.records = p.records ∧ q.nextSeq = p.nextSeq := by
  rcases noteEpoch_effect hs with ⟨_, rfl⟩ | ⟨epochs, _, _, rfl⟩
  · exact ⟨h, rfl, rfl⟩
  · exact ⟨h.setEpochs epochs rec.epoch, rfl, rfl⟩

theorem appendReplicated_cases {rec : Record} (hf : Fits S rec) :
    (∃ e, p.appendReplicated rec = (p, .error e)) ∨
    (rec.seq < p.nextSeq ∧ p.appendReplicated rec = (p, .ok ())) ∨
    ∃ m, rec.seq = p.nextSeq ∧ p.noteEpoch rec = .ok m ∧
      ((∃ e, p.appendReplicated rec = (m, .error e)) ∨
        ∃ q, p.appendReplicated rec = (q, .ok ()) ∧ Extended m q [rec.canonical]) := by
  unfold appendReplicated
  split
  · exact .inl ⟨_, rfl⟩
  split
  · exact .inl ⟨_, rfl⟩
  split
  · exact .inl ⟨_, rfl⟩
  split
  · exact .inr (.inl ⟨by assumption, rfl⟩)
  split
  · exact .inl ⟨_, rfl⟩
  have hseq : rec.seq = p.nextSeq := by omega
  cases hm : p.noteEpoch rec with
  | error e => exact .inl ⟨e, rfl⟩
  | ok m =>
    obtain ⟨hw, _, hn⟩ := noteEpoch_wf h hm
    refine .inr (.inr ⟨m, hseq, rfl, ?_⟩)
    cases he : rec.encode with
    | error e => exact .inl ⟨e, rfl⟩
    | ok bs =>
      obtain ⟨t, ht, hext⟩ := hw.write hf he (hseq.trans hn.symm)
      exact .inr ⟨t, ht, hext⟩

end

theorem dropTail_split (older : List S) (active : S) (count : Int)
    (hc : Covers first older.reverse (baseSeq active)) (hf : first < seq) :
    ∃ dropped, older.reverse ++ [active] = (dropTail seq older active count).1.reverse ++
        (dropTail seq older active count).2.1 :: dropped ∧
      baseSeq (dropTail seq older active count).2.1 < seq ∧ (∀ s ∈ dropped.head?, seq ≤ baseSeq s) ∧
      (∀ s ∈ (dropTail seq older active count).1, s ∈ older) ∧
      (dropTail seq older active count).2.2 = count - (dropped.map bytes).sum := by
  induction older generalizing active count with
  | nil =>
    simp only [reverse_nil, Covers] at hc
    exact ⟨[], by simp [dropTail], by simpa [dropTail, ← hc] using hf, by simp,
      by simp [dropTail], by simp [dropTail]⟩
  | cons s older ih =>
    by_cases hb : baseSeq active < seq
    · exact ⟨[], by simp [dropTail, hb], by simp [dropTail, hb], by simp,
        by simp [dropTail, hb], by simp [dropTail, hb]⟩
    rw [reverse_cons] at hc
    obtain ⟨hcs, _, _⟩ := (covers_snoc _ _ _ _).mp hc
    obtain ⟨dropped, hsplit, hlast, hge, hold, hcount⟩ := ih s (count - bytes active) hcs
    have hstep : dropTail seq (s :: older) active count =
        dropTail seq older s (count - bytes active) := by simp [dropTail, hb]
    rw [hstep]
    refine ⟨dropped ++ [active], ?_, hlast, ?_, fun t ht => mem_cons_of_mem _ (hold t ht), ?_⟩
    · rw [reverse_cons, hsplit]
      simp
    · cases dropped with
      | nil => simpa using Nat.le_of_not_lt hb
      | cons d ds => simpa using hge
    · rw [hcount]
      simp
      omega

theorem truncate_layout {first next seq : Nat} {kept dropped : List S} {last cut : S}
    (hc : Covers first (kept ++ last :: dropped) next) (hb : baseSeq last < seq) (hn : seq ≤ next)
    (hge : ∀ s ∈ dropped.head?, seq ≤ baseSeq s) (hv : Valid cut)
    (hbase : baseSeq cut = baseSeq last) (hr : LawfulSegmentStore.records cut =
      (LawfulSegmentStore.records last).take (seq - baseSeq last)) :
    Covers first (kept ++ [cut]) seq ∧ (kept ++ [cut]).flatMap LawfulSegmentStore.records =
        ((kept ++ last :: dropped).flatMap LawfulSegmentStore.records).take (seq - first) := by
  obtain ⟨mid, hk, hlv, hlb, hd⟩ := (covers_append _ _ _ _).mp hc
  subst hlb
  have hfull : seq ≤ baseSeq last + (LawfulSegmentStore.records last).length := by
    cases dropped with
    | nil =>
      simp only [Covers] at hd
      omega
    | cons d ds =>
      have := hge d (by simp)
      rw [hd.2.1] at this
      exact this
  have hlen : (LawfulSegmentStore.records cut).length = seq - baseSeq last := by
    rw [hr, length_take]
    omega
  refine ⟨(covers_snoc _ _ _ _).mpr ⟨hbase ▸ hk, hv, by rw [hbase, hlen]; omega⟩, ?_⟩
  have hkl := hk.length
  have hkeep : (kept.flatMap LawfulSegmentStore.records).take (seq - first) =
      kept.flatMap LawfulSegmentStore.records := take_of_length_le (by omega)
  rw [flatMap_append, flatMap_append, flatMap_cons, flatMap_cons, hr,
    take_append, hkeep, take_append]
  simp only [flatMap_nil, append_nil]
  rw [show seq - first - (kept.flatMap LawfulSegmentStore.records).length =
      seq - baseSeq last by omega,
    show seq - baseSeq last - (LawfulSegmentStore.records last).length = 0 by omega]
  simp

structure Cut (p q : Partition S) (seq : Nat) : Prop where
  above : p.firstSeq < seq
  below : seq < p.nextSeq
  wf : q.WellFormed
  records : q.records = p.records.take (seq - p.firstSeq)
  nextSeq : q.nextSeq = seq
  same : q = { p with
    older := q.older, active := q.active, nextSeq := q.nextSeq, byteCount := q.byteCount,
    epochs := p.epochs.truncateFromSeq seq,
    curEpoch := (p.epochs.truncateFromSeq seq).latest.1 }

theorem truncateTo_cases (seq : Nat) (h : p.WellFormed) : (∃ e, p.truncateTo seq = (p, .error e)) ∨
    (p.nextSeq ≤ seq ∧ p.truncateTo seq = (p, .ok 0)) ∨
    ∃ q, p.truncateTo seq = (q, .ok (p.nextSeq - seq)) ∧ Cut p q seq := by
  unfold truncateTo
  split
  · exact .inl ⟨_, rfl⟩
  split
  · exact .inr (.inl ⟨by assumption, rfl⟩)
  split
  · exact .inl ⟨_, rfl⟩
  right
  right
  obtain ⟨hc, hv, hn⟩ := h.active
  have hcr : Covers p.firstSeq p.older.reverse.reverse (baseSeq p.active) := by
    rw [reverse_reverse]
    exact hc
  obtain ⟨dropped, hsplit, hlast, hge, hold, hcount⟩ :=
    dropTail_split p.older.reverse p.active p.byteCount hcr (by omega : p.firstSeq < seq)
  rw [reverse_reverse] at hsplit
  generalize dropTail seq p.older.reverse p.active p.byteCount = dt at *
  obtain ⟨older, last, count⟩ := dt
  simp only at hsplit hlast hcount hold ⊢
  have hcov : Covers p.firstSeq (older.reverse ++ last :: dropped) p.nextSeq := hsplit ▸ h.covers
  have hlv : Valid last := hcov.valid last (by simp)
  obtain ⟨hrv, hrw, hrb, hrr⟩ := reopen hlv
  obtain ⟨cut, hcut, hcv, hcw, hcb, hcr⟩ := truncate hrv hrw (by rw [hrb]; exact hlast)
  rw [hrb, hrr] at hcr
  obtain ⟨hcov', hrec⟩ := truncate_layout hcov hlast (by omega) hge hcv (hcb.trans hrb) hcr
  rw [hcut]
  refine ⟨_, rfl, by omega, by omega, ⟨hcov', hcw, ?_, ?_⟩, ?_, rfl, rfl⟩
  · intro s hs
    exact h.filled s (by simpa using hold s (by simpa using hs))
  · have hp : p.byteCount = ((older.reverse ++ last :: dropped).map bytes).sum := hsplit ▸ h.count
    have hlast_size : bytes (SegmentStore.reopenWritable last) = bytes last := by
      rw [LawfulSegmentStore.size hrv, LawfulSegmentStore.size hlv, hrr]
    change count + (bytes cut - bytes (SegmentStore.reopenWritable last)) =
      ((older.reverse ++ [cut]).map bytes).sum
    rw [hcount, hp, hlast_size]
    simp only [map_append, map_cons, map_nil, sum_append, sum_cons,
      sum_nil]
    omega
  · change (older.reverse ++ [cut]).flatMap _ = _
    rw [hrec, ← hsplit]
    rfl

theorem dropOldest_effect (h : p.WellFormed) (ho : p.older = oldest :: rest) :
    (p.dropOldest oldest (rest.head?.getD p.active) rest).WellFormed ∧
      (p.dropOldest oldest (rest.head?.getD p.active) rest).firstSeq =
        p.firstSeq + (LawfulSegmentStore.records oldest).length ∧
      p.records = LawfulSegmentStore.records oldest ++
        (p.dropOldest oldest (rest.head?.getD p.active) rest).records := by
  have hseg : p.segments = oldest :: (rest ++ [p.active]) := by simp [segments, ho]
  have hc := h.covers
  rw [hseg] at hc
  obtain ⟨hv, hb, ht⟩ := hc
  have hnext : baseSeq (rest.head?.getD p.active) =
      p.firstSeq + (LawfulSegmentStore.records oldest).length := by
    cases rest with
    | nil => exact ht.2.1
    | cons s rest => exact ht.2.1
  refine ⟨⟨?_, h.writable, ?_, ?_⟩, hnext, ?_⟩
  · change Covers (baseSeq (rest.head?.getD p.active)) (rest ++ [p.active]) p.nextSeq
    rw [hnext]
    exact ht
  · intro s hs
    exact h.filled s (by rw [ho]; exact mem_cons_of_mem _ hs)
  · change p.byteCount - bytes oldest = ((rest ++ [p.active]).map bytes).sum
    rw [h.count, hseg, map_cons, sum_cons]
    omega
  · change p.segments.flatMap _ = _ ++ (rest ++ [p.active]).flatMap _
    rw [hseg, flatMap_cons]

theorem retain_invariant (P : Partition S → Prop)
    (hstep : ∀ (p : Partition S) (oldest : S) (rest : List S), p.WellFormed →
      p.older = oldest :: rest → P p → P (p.dropOldest oldest (rest.head?.getD p.active) rest))
    (cutoff : Int) (older : List S) (removed : Nat) (h : p.WellFormed) (ho : p.older = older)
    (hp : P p) :
    (retain cutoff older p removed).1.WellFormed ∧ P (retain cutoff older p removed).1 := by
  induction older generalizing p removed with
  | nil => exact ⟨h, hp⟩
  | cons oldest rest ih =>
    simp only [retain]
    split
    · exact ⟨h, hp⟩
    split
    · exact ih (removed + 1) (dropOldest_effect h ho).1 rfl (hstep p oldest rest h ho hp)
    · exact ⟨h, hp⟩

theorem enforceRetention_invariant (P : Partition S → Prop)
    (hstep : ∀ (p : Partition S) (oldest : S) (rest : List S), p.WellFormed →
      p.older = oldest :: rest → P p → P (p.dropOldest oldest (rest.head?.getD p.active) rest))
    (now : Int) (h : p.WellFormed) (hp : P p) :
    (p.enforceRetention now).1.WellFormed ∧ P (p.enforceRetention now).1 := by
  unfold enforceRetention
  split
  · exact ⟨h, hp⟩
  · exact retain_invariant P hstep _ p.older 0 h rfl hp

theorem enforceRetention_effect (now : Int) (h : p.WellFormed) :
    (p.enforceRetention now).1.WellFormed ∧
      ∃ dropped, p.records = dropped ++ (p.enforceRetention now).1.records ∧
        (p.enforceRetention now).1.firstSeq = p.firstSeq + dropped.length ∧
        (p.enforceRetention now).1.nextSeq = p.nextSeq ∧
        (p.enforceRetention now).1.curEpoch = p.curEpoch ∧
        (p.enforceRetention now).1.closed = p.closed := by
  apply enforceRetention_invariant (fun q => ∃ dropped, p.records = dropped ++ q.records ∧
    q.firstSeq = p.firstSeq + dropped.length ∧ q.nextSeq = p.nextSeq ∧
    q.curEpoch = p.curEpoch ∧ q.closed = p.closed) _ now h ⟨[], by simp⟩
  rintro q oldest rest hq ho ⟨dropped, hr, hf, hn, hcur⟩
  obtain ⟨_, hfirst, hrec⟩ := dropOldest_effect hq ho
  refine ⟨dropped ++ LawfulSegmentStore.records oldest, ?_, ?_, hn, hcur⟩
  · rw [hr, hrec, append_assoc]
  · rw [hfirst, hf, length_append]
    omega

def SameContents (s t : S) : Prop :=
  Valid t ∧ baseSeq t = baseSeq s ∧ LawfulSegmentStore.records t = LawfulSegmentStore.records s

theorem openSegments_effect (iv : Int) {xs : List S} (hv : ∀ s ∈ xs, Valid s) :
    ∃ ys, openSegments iv xs = .ok ys ∧ List.Forall₂ SameContents xs ys ∧
      ∀ t ∈ ys.getLast?, Writable t := by
  induction xs with
  | nil => exact ⟨[], rfl, .nil, by simp⟩
  | cons s xs ih =>
    obtain ⟨t, ht, htv, htw, htb, htr⟩ := open_ok iv (!xs.isEmpty) (hv s mem_cons_self)
    obtain ⟨ys, hys, hall, hlast⟩ := ih (fun x hx => hv x (mem_cons_of_mem _ hx))
    refine ⟨t :: ys, by simp [openSegments, ht, hys], .cons ⟨htv, htb, htr⟩ hall, ?_⟩
    cases hall with
    | nil => simpa using htw (by simp)
    | cons hxy hrest => simpa using hlast

theorem sameContents_covers {next : Nat} {xs ys : List S} (h : Covers base xs next)
    (hs : List.Forall₂ SameContents xs ys) :
    Covers base ys next ∧ ys.flatMap LawfulSegmentStore.records =
      xs.flatMap LawfulSegmentStore.records := by
  induction hs generalizing base with
  | nil => exact ⟨h, rfl⟩
  | cons hxy _ ih =>
    obtain ⟨hv, hb, hr⟩ := hxy
    obtain ⟨hc, hrec⟩ := ih h.2.2
    exact ⟨⟨hv, hb.trans h.2.1, by rw [hr]; exact hc⟩, by simp [hr, hrec]⟩

theorem sameContents_filled {xs ys : List S} (hs : List.Forall₂ SameContents xs ys)
    (hf : ∀ s ∈ xs.dropLast, LawfulSegmentStore.records s ≠ []) :
    ∀ t ∈ ys.dropLast, LawfulSegmentStore.records t ≠ [] := by
  induction hs with
  | nil => simp
  | cons hxy hrest ih =>
    cases hrest with
    | nil => simp
    | cons hab hr =>
      simp only [dropLast_cons_cons, mem_cons, forall_eq_or_imp] at hf ih ⊢
      exact ⟨hxy.2.2 ▸ hf.1, ih hf.2⟩

theorem open_effect (topic : String) (id : Int) (cfg : PartitionConfig) {disk : Disk S}
    {first next : Nat} (hc : Covers first disk.files next) (hne : disk.files ≠ [])
    (hf : ∀ s ∈ disk.files.dropLast, LawfulSegmentStore.records s ≠ []) :
    ∃ q, openPartition topic id disk cfg = .ok q ∧ q.WellFormed ∧
      q.records = disk.files.flatMap LawfulSegmentStore.records ∧
      q.firstSeq = first ∧ q.nextSeq = next ∧ q.closed = false ∧
      q.epochs = .openEpochCache disk.checkpoint ∧ q.curEpoch = q.epochs.latest.1 ∧
      q.enforceLeadership = false := by
  have hsort : disk.files.insertionSort (fun a b => baseSeq a ≤ baseSeq b) = disk.files :=
    hc.sorted.2.insertionSort_eq
  obtain ⟨ys, hys, hall, hlast⟩ := openSegments_effect cfg.applyDefaults.indexInterval hc.valid
  obtain ⟨hcy, hry⟩ := sameContents_covers hc hall
  have hfy := sameContents_filled hall hf
  have hyne : ys ≠ [] := by
    intro hnil
    rw [hnil] at hall
    exact hne (forall₂_nil_right_iff.mp hall)
  obtain ⟨init, active, rfl⟩ : ∃ init a, ys = init ++ [a] :=
    ⟨_, _, (dropLast_append_getLast hyne).symm⟩
  obtain ⟨hci, hva, hna⟩ := (covers_snoc _ _ _ _).mp hcy
  rw [dropLast_concat] at hfy
  have hfirst : (init ++ [active]).head?.elim 1 baseSeq = first := by
    cases init with
    | nil => exact hcy.2.1
    | cons s init => exact hcy.2.1
  have hnext : lastSequence active + 1 = next := by
    rw [LawfulSegmentStore.last hva, hna]
  unfold openPartition
  simp only [hsort, hys, getLast?_concat, dropLast_concat, hfirst, hnext]
  refine ⟨_, rfl, ⟨hcy, hlast active (by simp), hfy, rfl⟩, ?_, rfl, rfl, rfl, rfl, rfl, rfl⟩
  exact hry

theorem open_empty (topic : String) (id : Int) (cfg : PartitionConfig)
    (checkpoint : List EpochEntry) :
    ∃ q : Partition S, openPartition topic id ⟨[], checkpoint⟩ cfg = .ok q ∧ q.WellFormed ∧
      q.records = [] ∧ q.firstSeq = 1 ∧ q.nextSeq = 1 ∧ q.closed = false ∧
      q.epochs = .openEpochCache checkpoint ∧ q.curEpoch = q.epochs.latest.1 ∧
      q.enforceLeadership = false := by
  obtain ⟨hv, hw, hb, hr⟩ := create (S := S) cfg.applyDefaults.indexInterval (Nat.one_pos)
  have hsz := LawfulSegmentStore.size hv
  rw [hr] at hsz
  refine ⟨_, rfl, ⟨?_, hw, by simp [fresh], ?_⟩, ?_, rfl, rfl, rfl, rfl, rfl, rfl⟩
  · exact ⟨hv, hb, by simp [fresh, hr, Covers]⟩
  · simp [fresh, segments, hsz]
  · simp [fresh, records, segments, hr]

theorem reopen_effect (cfg : PartitionConfig) (h : p.WellFormed) :
    ∃ q, openPartition p.topic p.id p.close.disk cfg = .ok q ∧ q.WellFormed ∧
      q.records = p.records ∧ q.firstSeq = p.firstSeq ∧ q.nextSeq = p.nextSeq ∧
      q.epochs = .openEpochCache p.epochs.entries ∧ q.curEpoch = q.epochs.latest.1 ∧
      q.closed = false := by
  have hf : ∀ s ∈ p.segments.dropLast, LawfulSegmentStore.records s ≠ [] := by
    rw [segments, dropLast_concat]
    exact h.filled
  have hc : Covers p.firstSeq p.close.disk.files p.nextSeq := h.covers
  obtain ⟨q, hq, hw, hr, hfirst, hnext, hcl, he, hcur, _⟩ :=
    open_effect p.topic p.id cfg hc (by simp [disk, close, segments]) hf
  exact ⟨q, hq, hw, hr, hfirst, hnext, he, hcur, hcl⟩

theorem reopen_after (cfg : PartitionConfig) (h : p.WellFormed) :
    openPartition p.topic p.id p.close.disk cfg = .ok (p.after (.reopen cfg)) := by
  obtain ⟨m, hm, _⟩ := reopen_effect cfg h
  simp [after, hm, Except.toOption]

structure Survives (P : Partition S → Prop) (ok : Partition S → Record → Prop) : Prop where
  wf {p : Partition S} (h : P p) : p.WellFormed
  stamped {p : Partition S} {rec : Record} (h : rec.epoch = p.curEpoch) : ok p rec
  push {p q : Partition S} {rec : Record} (h : P p) (hok : ok p rec) (hs : rec.seq = p.nextSeq)
    (hw : rec.Written) (he : Extended p q [rec.canonical]) : P q
  term {p : Partition S} {epoch : Nat} {epochs : LeaderEpochCache} (h : P p)
    (hn : p.curEpoch < epoch) (ha : p.epochs.assign epoch p.nextSeq = .ok epochs) :
    P { p with epochs, curEpoch := epoch }
  lead {p : Partition S} (on lead : Bool) (h : P p) :
    P { p with enforceLeadership := on, isLeader := lead }
  cut {p q : Partition S} {seq : Nat} (h : P p) (hc : Cut p q seq) : P q
  drop {p : Partition S} {oldest : S} {rest : List S} (h : P p) (ho : p.older = oldest :: rest) :
    P (p.dropOldest oldest (rest.head?.getD p.active) rest)
  reopen {p : Partition S} (cfg : PartitionConfig) (h : P p) : P (p.after (.reopen cfg))

section Surviving
variable {P : Partition S → Prop} {ok : Partition S → Record → Prop}

theorem Survives.appendEach (hs : Survives P ok) (seqs : List Nat) (h : P p)
    (hf : ∀ r ∈ stampAll p.curEpoch now p.nextSeq recs, Fits S r) :
    P (appendEach now recs p seqs).1 := by
  induction recs generalizing p seqs with
  | nil => exact h
  | cons rec recs ih =>
    simp only [Partition.appendEach]
    split
    · exact h
    rename_i hfl
    cases he : (p.stamp rec now).encode with
    | error e => exact h
    | ok bs =>
      have hfit : Fits S (p.stamp rec now) := hf _ mem_cons_self
      obtain ⟨m, hm, hext⟩ := (hs.wf h).write hfit he rfl
      simp only [hm]
      have hwr : (p.stamp rec now).Written := ⟨not_not.mp hfl, bs, he⟩
      refine ih _ (hs.push h (hs.stamped rfl) rfl hwr hext) ?_
      rw [hext.curEpoch, hext.nextSeq (hs.wf h)]
      exact fun r hr => hf r (mem_cons_of_mem _ hr)

theorem Survives.noteEpoch (hs : Survives P ok) {rec : Record} (h : P p)
    (hseq : rec.seq = p.nextSeq) (hm : p.noteEpoch rec = .ok q) : P q := by
  rcases noteEpoch_effect hm with ⟨_, rfl⟩ | ⟨epochs, hlt, ha, rfl⟩
  · exact h
  · exact hs.term h hlt (hseq ▸ ha)

theorem Survives.after (hs : Survives P ok) {op : Op} (h : P p) (hst : p.Storable op)
    (hok : ∀ rec m, op = .appendReplicated rec → p.noteEpoch rec = .ok m → ok m rec) :
    P (p.after op) := by
  have hw := hs.wf h
  cases op with
  | append rec now =>
    rcases append_cases hw hst with ⟨e, hq⟩ | ⟨q, hq, hext⟩
    · simpa only [Partition.after, hq] using h
    · simpa only [Partition.after, hq] using hs.push h (hs.stamped rfl) rfl (append_written hq) hext
  | appendBatch recs now =>
    simp only [Partition.after, appendBatch]
    split
    · exact h
    split
    · exact h
    split
    · exact h
    · exact hs.appendEach [] h hst
  | appendReplicated rec =>
    rcases appendReplicated_cases hw hst with ⟨e, hq⟩ | ⟨_, hq⟩ | ⟨m, hseq, hm, hres⟩
    · simpa only [Partition.after, hq] using h
    · simpa only [Partition.after, hq] using h
    have hp := hs.noteEpoch h hseq hm
    have hn : m.nextSeq = p.nextSeq := (noteEpoch_wf hw hm).2.2
    rcases hres with ⟨e, hq⟩ | ⟨q, hq, hext⟩
    · simpa only [Partition.after, hq] using hp
    · simpa only [Partition.after, hq] using
        hs.push hp (hok rec m rfl hm) (hseq.trans hn.symm) (appendReplicated_written hq hseq) hext
  | becomeLeader epoch =>
    rcases becomeLeader_cases p epoch with ⟨e, hq⟩ | ⟨epochs, hlt, ha, hq⟩
    · simpa only [Partition.after, hq] using h
    · simpa only [Partition.after, hq] using hs.lead p.enforceLeadership true (hs.term h hlt ha)
  | reassertLeadership epoch =>
    rcases reassertLeadership_cases p epoch with ⟨e, hq⟩ | ⟨_, hq⟩
    · simpa only [Partition.after, hq] using h
    · simpa only [Partition.after, hq] using hs.lead p.enforceLeadership true h
  | resign => exact hs.lead p.enforceLeadership false h
  | enforceLeadership on => exact hs.lead on p.isLeader h
  | truncateTo seq =>
    rcases truncateTo_cases seq hw with ⟨e, hq⟩ | ⟨_, hq⟩ | ⟨q, hq, hcut⟩
    · simpa only [Partition.after, hq] using h
    · simpa only [Partition.after, hq] using h
    · simpa only [Partition.after, hq] using hs.cut h hcut
  | enforceRetention now =>
    exact (enforceRetention_invariant P (fun _ _ _ _ ho hp => hs.drop hp ho) now hw h).2
  | reopen cfg => exact hs.reopen cfg h

end Surviving

end Partition
end Boltq.Stream
