import Boltq.Lib.Run
import Boltq.Stream.FileStore

namespace Boltq.Stream
open Lib List

inductive SegOp where
  | append (rec : Record)
  | reopen (indexInterval : Int)
  | crash (logBytes idxBytes : Nat) (indexInterval : Int)
  deriving DecidableEq

structure Tracked where
  seg : Except Err FileSegment
  held : List Record

namespace Tracked

def numbered (s : FileSegment) (rec : Record) : Record := { rec with seq := s.lastSeq + 1 }

def crashed (s : FileSegment) (logBytes idxBytes : Nat) : FileSegment :=
  { s with log := s.log.take logBytes, idx := s.idx.take idxBytes }

def after (st : Tracked) (op : SegOp) : Tracked :=
  match st.seg with
  | .error _ => st
  | .ok s =>
    match op with
    | .append rec =>
      match (numbered s rec).encode with
      | .error _ => st
      | .ok bs => ⟨s.append bs (numbered s rec).seq, st.held ++ [(numbered s rec).canonical]⟩
    | .reopen iv => ⟨s.openSegment iv false, st.held⟩
    | .crash n j iv => ⟨(crashed s n j).openSegment iv false, whole encoded n st.held⟩

def Step (st : Tracked) (op : SegOp) (st' : Tracked) : Prop := st.after op = st'

def Level (st : Tracked) (op : SegOp) : Prop :=
  match st.seg, op with
  | .ok s, .append rec =>
    (numbered s rec).InRange ∧ rec.headers.Fit ∧ s.size + rec.encodedSize < 2 ^ 63
  | .ok s, .crash n j _ =>
    indexEntrySize ∣ (s.idx.take j).length ∧
      ∀ e ∈ s.index.take (j / indexEntrySize), e.pos < (stored encoded (whole encoded n st.held)).length
  | _, _ => True

instance (st : Tracked) (op : SegOp) : Decidable (st.Level op) := by
  unfold Level
  split <;> infer_instance

end Tracked

namespace FileSegment
variable {s : FileSegment} {rs : List Record}

structure Exact (s : FileSegment) (rs : List Record) : Prop where
  log : s.log = stored encoded rs
  last : s.lastSeq + 1 = s.baseSeq + rs.length
  sorted : s.index.Pairwise (fun a b => a.seq < b.seq)
  points : ∀ e ∈ s.index, ∃ r ∈ rs, r.seq = e.seq ∧ 0 ≤ e.pos ∧ encoded r <+: s.log.drop e.pos.toNat
  read : ∀ r ∈ rs, s.read r.seq 1 0 = ([r], none)

theorem Holds.exact (h : Holds s rs) : Exact s rs := by
  refine ⟨h.log, h.last, h.index.sorted, ?_, ?_⟩
  · intro e he
    obtain ⟨hlow, hhigh, hpos⟩ := h.index.points e he
    have hi : e.seq - s.baseSeq < rs.length := by omega
    have hget := List.getElem?_eq_getElem hi
    have hseq := h.dense _ _ hget
    refine ⟨_, List.getElem_mem hi, by omega, by omega, ?_⟩
    rw [hpos, Int.toNat_natCast, h.log, drop_stored, List.drop_eq_getElem_cons hi, stored_cons]
    exact List.prefix_append _ _
  · intro r hr
    obtain ⟨i, hi⟩ := List.getElem?_of_mem hr
    have hseq := h.dense i r hi
    have hlt := (List.getElem?_eq_some_iff.mp hi).1
    have hget : rs.drop (r.seq - s.baseSeq) = r :: rs.drop (i + 1) := by
      rw [show r.seq - s.baseSeq = i by omega, List.drop_eq_getElem_cons hlt]
      congr 1
      exact (List.getElem?_eq_some_iff.mp hi).2
    rw [h.read, hget]
    simp [readRecords]

theorem length_encodeIndexEntry (e : IndexEntry) : (encodeIndexEntry e).length = 16 := by
  simp [encodeIndexEntry]

theorem Holds.idx_take (h : Holds s rs) (hj : indexEntrySize ∣ (s.idx.take j).length) :
    s.idx.take j = stored encodeIndexEntry (s.index.take (j / indexEntrySize)) := by
  have hfixed := take_stored_fixed length_encodeIndexEntry s.index
  have hlen : s.idx.length = 16 * s.index.length := by
    rw [h.idx, length_stored]
    simp [length_encodeIndexEntry, Nat.mul_comm]
  rw [length_take] at hj
  unfold indexEntrySize at hj ⊢
  rw [← hfixed, ← h.idx]
  rcases Nat.le_total j s.idx.length with hle | hle
  · rw [Nat.min_eq_left hle] at hj
    rw [Nat.mul_div_cancel' hj]
  · rw [take_of_length_le hle, take_of_length_le]
    omega

theorem points_prefix (h : Points base rs e) (hp : e.pos < (offset encoded rs k : Nat)) :
    Points base (rs.take k) e := by
  obtain ⟨hlow, hhigh, hpos⟩ := h
  have hk : e.seq - base < k :=
    lt_of_offset_lt (show offset encoded rs (e.seq - base) < offset encoded rs k by omega)
  refine ⟨hlow, by rw [length_take]; omega, ?_⟩
  rw [hpos, offset_take (Nat.le_of_lt hk)]

theorem Holds.crash (h : Holds s rs) (iv : Int) (hj : indexEntrySize ∣ (s.idx.take j).length)
    (hp : ∀ e ∈ s.index.take (j / indexEntrySize),
      e.pos < (stored encoded (whole encoded n rs)).length) :
    ∃ t, (Tracked.crashed s n j).openSegment iv false = .ok t ∧
      Holds t (whole encoded n rs) ∧ t.readOnly = false := by
  obtain ⟨tail, htail, htorn⟩ : ∃ t, (stored encoded rs).take n = _ ∧ _ := cut_stored n rs
  have hnone : nextIntact tail = none := by
    rcases htorn with rfl | ⟨r, hr, hpre, hne⟩
    · exact nextIntact_nil
    · exact (h.sound r hr).nextIntact_cut hpre hne
  have hwhole : whole encoded n rs = rs.take (whole encoded n rs).length :=
    prefix_iff_eq_take.mp (whole_initial n rs)
  generalize (whole encoded n rs).length = k at hwhole
  rw [hwhole] at htail hp ⊢
  have hlen : ((stored encoded (rs.take k)).length : Int) < 2 ^ 63 := by
    have hle : offset encoded rs k + _ = (stored encoded rs).length := offset_add_drop rs k
    have hsize := h.size
    have hlimit := h.limit
    unfold offset at hle
    omega
  have hindex : Indexes s.baseSeq (rs.take k) (s.index.take (j / indexEntrySize)) :=
    ⟨h.index.sorted.sublist (take_sublist _ _),
      fun e he => points_prefix (h.index.points e (mem_of_mem_take he)) (hp e he)⟩
  obtain ⟨t, ht, hh, hr, _⟩ := openSegment_level (Tracked.crashed s n j) h.base
    (fun r hr => h.sound r (mem_of_mem_take hr)) (h.dense.take k)
    (show s.log.take n = _ by rw [h.log, htail]) hnone (h.idx_take hj) hindex hlen iv (Or.inr rfl)
  exact ⟨t, ht, hh, hr⟩

end FileSegment

namespace Tracked

def Sound (st : Tracked) : Prop :=
  ∃ s, st.seg = .ok s ∧ s.Holds st.held ∧ s.readOnly = false

theorem Sound.after {st : Tracked} (h : st.Sound) (hl : st.Level op) : (st.after op).Sound := by
  obtain ⟨s, hs, hh, hro⟩ := h
  unfold Tracked.after
  simp only [hs]
  cases op with
  | append rec =>
    simp only [Level, hs] at hl
    obtain ⟨hrange, hfit, hroom⟩ := hl
    cases he : (numbered s rec).encode with
    | error e =>
      simp only [he]
      exact ⟨s, hs, hh, hro⟩
    | ok bs =>
      simp only [he]
      obtain ⟨hsound, rfl⟩ := sound_canonical hrange hfit he
      have hlen := length_encode he
      obtain ⟨t, ht, hht, hrt, _⟩ := hh.append hsound hro hh.last (by rw [hlen]; exact hroom)
      exact ⟨t, ht, hht, hrt⟩
  | reopen iv =>
    obtain ⟨t, ht, hht, hrt, _⟩ := hh.openSegment iv false
    exact ⟨t, ht, hht, hrt⟩
  | crash n j iv =>
    simp only [Level, hs] at hl
    obtain ⟨t, ht, hht, hrt⟩ := hh.crash iv hl.1 hl.2
    exact ⟨t, ht, hht, hrt⟩

def created (base : Nat) (indexInterval : Int) : Tracked :=
  ⟨.ok (.createSegment base indexInterval), []⟩

/-- Through any number of appends, clean reopens and crashes that leave the index
level with the log, a segment holds exactly what reached the disk whole. -/
theorem recovery_stays_exact {base : Nat} (hb : 0 < base) (indexInterval : Int)
    {ops : List SegOp} {st : Tracked} (hr : Run Step Level (created base indexInterval) ops st) :
    ∃ s, st.seg = .ok s ∧ s.Exact st.held := by
  have hstart : (created base indexInterval).Sound :=
    ⟨_, rfl, FileSegment.Holds.createSegment indexInterval hb, rfl⟩
  obtain ⟨s, hs, hh, _⟩ := hr.invariant Sound hstart (fun t a u ht hl hst => hst ▸ ht.after hl)
  exact ⟨s, hs, hh.exact⟩

def levelCrash : List SegOp :=
  [.append (.ofPayload [1]), .append (.ofPayload [2]), .append (.ofPayload [3]),
    .crash 50 16 60, .append (.ofPayload [4, 5]), .reopen 60]

theorem level_crash_stays_exact : ∃ st : Tracked, Run Step Level (created 1 60) levelCrash st ∧
      st.held.map Record.payload = [[1], [4, 5]] ∧ ∃ s, st.seg = .ok s ∧ s.Exact st.held := by
  obtain ⟨st, hrun, hheld⟩ := Run.found_of (f := fun st op => some (after st op))
    (fun _ _ _ h => Option.some.inj h)
    (fun st : Tracked => st.held.map Record.payload = [[1], [4, 5]])
    (by decide +kernel : (execAll Level _ (created 1 60) levelCrash).any _ = true)
  exact ⟨st, hrun, hheld, recovery_stays_exact Nat.one_pos 60 hrun⟩

def indexAhead : List SegOp :=
  [.append (.ofPayload [1]), .append (.ofPayload [2]), .append (.ofPayload [3]),
    .crash 36 32 60, .append (.ofPayload [4, 5]), .append (.ofPayload [6]), .reopen 60]

/-- The next open trusts that entry and cuts the log in the middle of a record. -/
theorem index_ahead_loses_records : ∃ st : Tracked, Run Step always (created 1 60) indexAhead st ∧
      st.held.map Record.payload = [[1], [4, 5], [6]] ∧
      ∃ s, st.seg = .ok s ∧ s.log = (stored encoded st.held).take 72 ∧ s.read 2 1 0 = ([], none) := by
  obtain ⟨st, hrun, hheld, hseg⟩ := Run.found_of (f := fun st op => some (after st op))
    (fun _ _ _ h => Option.some.inj h)
    (fun st : Tracked => st.held.map Record.payload = [[1], [4, 5], [6]] ∧
      st.seg.toOption.any (fun s => decide (s.log = (stored encoded st.held).take 72 ∧
        s.read 2 1 0 = ([], none))) = true)
    (by decide +kernel : (execAll always _ (created 1 60) indexAhead).any _ = true)
  obtain ⟨s, hs, hp⟩ := (Option.any_eq_true _ _).mp hseg
  refine ⟨st, hrun, hheld, s, ?_, of_decide_eq_true hp⟩
  cases hst : st.seg with
  | error e => rw [hst] at hs; cases hs
  | ok t => rw [hst] at hs; cases hs; rfl

end Tracked
end Boltq.Stream
