import Boltq.Stream.Partition

namespace Boltq.Stream
open Lib SegmentStore LawfulSegmentStore List

section Covering
variable {S : Type} [LawfulSegmentStore S]

def Covers : Nat → List S → Nat → Prop
  | base, [], next => base = next
  | base, s :: rest, next =>
    Valid s ∧ baseSeq s = base ∧ Covers (base + (records s).length) rest next

theorem covers_append (base next : Nat) (xs ys : List S) :
    Covers base (xs ++ ys) next ↔ ∃ mid, Covers base xs mid ∧ Covers mid ys next := by
  induction xs generalizing base with
  | nil => simp [Covers]
  | cons s xs ih =>
    simp only [cons_append, Covers, ih]
    constructor
    · rintro ⟨hv, hb, mid, hx, hy⟩
      exact ⟨mid, ⟨hv, hb, hx⟩, hy⟩
    · rintro ⟨mid, ⟨hv, hb, hx⟩, hy⟩
      exact ⟨hv, hb, mid, hx, hy⟩

theorem covers_snoc (base next : Nat) (xs : List S) (s : S) : Covers base (xs ++ [s]) next ↔
      Covers base xs (baseSeq s) ∧ Valid s ∧ next = baseSeq s + (records s).length := by
  rw [covers_append]
  constructor
  · rintro ⟨mid, hx, hv, hb, hn⟩
    simp only [Covers] at hn
    subst hb
    exact ⟨hx, hv, hn.symm⟩
  · rintro ⟨hx, hv, hn⟩
    exact ⟨baseSeq s, hx, hv, rfl, hn.symm⟩

theorem Covers.valid {base next : Nat} {xs : List S} (h : Covers base xs next) :
    ∀ s ∈ xs, Valid s := by
  induction xs generalizing base with
  | nil => simp
  | cons s xs ih =>
    intro t ht
    rcases mem_cons.mp ht with rfl | ht
    · exact h.1
    · exact ih h.2.2 t ht

theorem Covers.length {next : Nat} {xs : List S} (h : Covers base xs next) :
    next = base + (xs.flatMap records).length := by
  induction xs generalizing base with
  | nil => exact h.symm
  | cons s xs ih =>
    rw [ih h.2.2, flatMap_cons, length_append]
    omega

theorem Covers.dense {next : Nat} {xs : List S} (h : Covers base xs next) :
    Dense base (xs.flatMap records) := by
  induction xs generalizing base with
  | nil => intro i r hr; simp at hr
  | cons s xs ih =>
    intro i r hr
    rw [flatMap_cons] at hr
    by_cases hi : i < (records s).length
    · rw [getElem?_append_left hi] at hr
      rw [← h.2.1]
      exact LawfulSegmentStore.dense h.1 i r hr
    · rw [getElem?_append_right (Nat.le_of_not_lt hi)] at hr
      have := ih h.2.2 _ r hr
      omega

theorem Covers.seq_range {next : Nat} {xs : List S} (h : Covers base xs next) {r : Record}
    (hr : r ∈ xs.flatMap records) : base ≤ r.seq ∧ r.seq < next := by
  obtain ⟨i, hi⟩ := List.getElem?_of_mem hr
  have hs := h.dense i r hi
  have hl := (List.getElem?_eq_some_iff.mp hi).1
  have hn := h.length
  omega

theorem Covers.le {base next : Nat} {xs : List S} (h : Covers base xs next) : base ≤ next := by
  have := h.length
  omega

theorem Covers.sorted {next : Nat} {xs : List S} (h : Covers base xs next) :
    (∀ s ∈ xs, base ≤ baseSeq s) ∧ xs.Pairwise (fun a b => baseSeq a ≤ baseSeq b) := by
  induction xs generalizing base with
  | nil => exact ⟨by simp, .nil⟩
  | cons s xs ih =>
    obtain ⟨hge, hp⟩ := ih h.2.2
    have hb := h.2.1
    refine ⟨?_, pairwise_cons.mpr ⟨?_, hp⟩⟩
    · intro t ht
      rcases mem_cons.mp ht with rfl | ht
      · exact Nat.le_of_eq hb.symm
      · have := hge t ht
        omega
    · intro t ht
      have := hge t ht
      omega

theorem Covers.chained {base next : Nat} {xs : List S} (h : Covers base xs next) (i : Nat) :
    ∀ a b, xs[i]? = some a → xs[i + 1]? = some b → baseSeq b = lastSequence a + 1 := by
  induction xs generalizing base i with
  | nil => intro a b ha; simp at ha
  | cons s xs ih =>
    cases i with
    | succ i =>
      intro a b ha hb
      exact ih h.2.2 i a b (by simpa using ha) (by simpa using hb)
    | zero =>
      intro a b ha hb
      simp only [getElem?_cons_zero, Option.some.injEq] at ha
      subst ha
      cases xs with
      | nil => simp at hb
      | cons t xs =>
        simp only [Nat.zero_add, getElem?_cons_succ, getElem?_cons_zero,
          Option.some.injEq] at hb
        subst hb
        rw [h.2.2.2.1, LawfulSegmentStore.last h.1, h.2.1]

end Covering

namespace Partition
variable {S : Type} [LawfulSegmentStore S]

def records (p : Partition S) : List Record := p.segments.flatMap LawfulSegmentStore.records

structure WellFormed (p : Partition S) : Prop where
  covers : Covers p.firstSeq p.segments p.nextSeq
  writable : Writable p.active
  filled : ∀ s ∈ p.older, LawfulSegmentStore.records s ≠ []
  count : p.byteCount = (p.segments.map bytes).sum

variable {p q : Partition S}

section
variable (h : p.WellFormed)
include h

theorem WellFormed.active : Covers p.firstSeq p.older (baseSeq p.active) ∧ Valid p.active ∧
      p.nextSeq = baseSeq p.active + (LawfulSegmentStore.records p.active).length :=
  (covers_snoc _ _ _ _).mp h.covers

theorem WellFormed.fits : ∀ r ∈ p.records, Fits S r := by
  intro r hr
  obtain ⟨s, hs, hr⟩ := mem_flatMap.mp hr
  exact LawfulSegmentStore.fits (h.covers.valid s hs) r hr

theorem WellFormed.next : p.nextSeq = lastSequence p.active + 1 := by
  obtain ⟨_, hv, hn⟩ := h.active
  rw [hn, LawfulSegmentStore.last hv]

theorem WellFormed.next_eq : p.nextSeq = p.firstSeq + p.records.length :=
  h.covers.length

theorem WellFormed.dense : Dense p.firstSeq p.records := h.covers.dense

theorem WellFormed.next_pos : 0 < p.nextSeq := by
  have := h.next
  omega

end

theorem covers_first_pos {base next : Nat} {s : S} {xs : List S}
    (h : Covers base (s :: xs) next) : 0 < base := h.2.1 ▸ base_pos h.1

theorem WellFormed.first_pos (h : p.WellFormed) : 0 < p.firstSeq := by
  have hc := h.covers
  unfold segments at hc
  cases ho : p.older with
  | nil => rw [ho] at hc; exact covers_first_pos hc
  | cons s xs => rw [ho] at hc; exact covers_first_pos hc

theorem WellFormed.seq_range (h : p.WellFormed) {r : Record} (hr : r ∈ p.records) :
    p.firstSeq ≤ r.seq ∧ r.seq < p.nextSeq :=
  h.covers.seq_range hr

theorem WellFormed.record_at (h : p.WellFormed) (hf : p.firstSeq ≤ seq) (hn : seq < p.nextSeq) :
    ∃ r ∈ p.records, r.seq = seq := by
  have hl := h.next_eq
  have hi : seq - p.firstSeq < p.records.length := by omega
  have hg := getElem?_eq_getElem hi
  refine ⟨_, mem_of_getElem? hg, ?_⟩
  rw [h.dense _ _ hg]
  omega

theorem isEmpty_iff {s : S} (h : Valid s) :
    SegmentStore.isEmpty s = true ↔ LawfulSegmentStore.records s = [] := by
  have hl := LawfulSegmentStore.last h
  rw [SegmentStore.isEmpty, decide_eq_true_eq, ← length_eq_zero_iff]
  omega

theorem WellFormed.rollLocked (h : p.WellFormed) (he : SegmentStore.isEmpty p.active = false) :
    (p.rollLocked p.nextSeq).WellFormed ∧ (p.rollLocked p.nextSeq).records = p.records := by
  obtain ⟨hv, hw, hb, hr⟩ := create (S := S) p.cfg.indexInterval h.next_pos
  have hsz := LawfulSegmentStore.size hv
  rw [hr] at hsz
  refine ⟨⟨?_, hw, ?_, ?_⟩, ?_⟩
  · refine (covers_snoc _ _ _ _).mpr ⟨?_, hv, ?_⟩
    · rw [show (p.rollLocked p.nextSeq).active = createSegment p.nextSeq p.cfg.indexInterval from rfl,
        hb]
      exact h.covers
    · change p.nextSeq = baseSeq (createSegment p.nextSeq p.cfg.indexInterval) + _
      rw [hb]
      change p.nextSeq = p.nextSeq + (LawfulSegmentStore.records
        (createSegment (S := S) p.nextSeq p.cfg.indexInterval)).length
      rw [hr]
      rfl
  · intro s hs
    rcases mem_append.mp hs with hs | hs
    · exact h.filled s hs
    simp only [mem_singleton] at hs
    subst hs
    intro hnil
    rw [(isEmpty_iff h.active.2.1).mpr hnil] at he
    cases he
  · change p.byteCount = ((p.segments ++ [createSegment p.nextSeq p.cfg.indexInterval]).map bytes).sum
    rw [h.count]
    simp [hsz]
  · change (p.segments ++ [createSegment p.nextSeq p.cfg.indexInterval]).flatMap _ = _
    simp [records, hr]

structure Extended (p q : Partition S) (rs : List Record) : Prop where
  wf : q.WellFormed
  records : q.records = p.records ++ rs
  same : q = { p with
    older := q.older, active := q.active, nextSeq := q.nextSeq, byteCount := q.byteCount }

theorem Extended.refl (h : p.WellFormed) : Extended p p [] := ⟨h, by simp, rfl⟩

theorem Extended.trans (h : Extended p m rs) (k : Extended m q ts) : Extended p q (rs ++ ts) := by
  refine ⟨k.wf, by rw [k.records, h.records, append_assoc], ?_⟩
  have := k.same
  rw [h.same] at this
  exact this

theorem Extended.firstSeq (h : Extended p q rs) : q.firstSeq = p.firstSeq := by
  rw [h.same]

theorem Extended.nextSeq (hp : p.WellFormed) (h : Extended p q rs) :
    q.nextSeq = p.nextSeq + rs.length := by
  rw [h.wf.next_eq, hp.next_eq, h.records, h.firstSeq, length_append]
  omega

theorem Extended.epochs (h : Extended p q rs) : q.epochs = p.epochs := by
  rw [h.same]

theorem Extended.curEpoch (h : Extended p q rs) : q.curEpoch = p.curEpoch := by
  rw [h.same]

theorem Extended.closed (h : Extended p q rs) : q.closed = p.closed := by
  rw [h.same]

theorem WellFormed.append_active (h : p.WellFormed) {rec : Record} {bs : Bytes} (hf : Fits S rec)
    (he : rec.encode = .ok bs) (hs : rec.seq = p.nextSeq)
    (hroom : bytes p.active + bs.length < 2 ^ 63 ∨ LawfulSegmentStore.records p.active = []) :
    ∃ t, SegmentStore.append p.active rec bs = .ok t ∧ Extended p { p with
        active := t, nextSeq := rec.seq + 1, byteCount := p.byteCount + bs.length }
        [rec.canonical] := by
  obtain ⟨hc, hv, hn⟩ := h.active
  obtain ⟨t, ht, hvt, hwt, hbt, hrt⟩ := append_ok hv h.writable hf he (hs.trans h.next) hroom
  have hsz := LawfulSegmentStore.size hv
  have hszt := LawfulSegmentStore.size hvt
  refine ⟨t, ht, ⟨?_, hwt, h.filled, ?_⟩, ?_, rfl⟩
  · refine (covers_snoc _ _ _ _).mpr ⟨?_, hvt, ?_⟩
    · change Covers p.firstSeq p.older (baseSeq t)
      rw [hbt]
      exact hc
    · change rec.seq + 1 = baseSeq t + _
      change rec.seq + 1 = baseSeq t + (LawfulSegmentStore.records t).length
      rw [hbt, hrt, hs, hn, length_append]
      rfl
  · change p.byteCount + (bs.length : Int) = ((p.older ++ [t]).map bytes).sum
    have hcount := h.count
    simp only [segments, map_append, map_cons, map_nil, sum_append,
      sum_cons, sum_nil] at hcount ⊢
    rw [hcount, hszt, hsz, hrt, length_encode he]
    simp only [map_append, map_cons, map_nil, sum_append, sum_cons,
      sum_nil, Int.natCast_add]
    change _ + (rec.canonical.encodedSize : Int) = _
    omega
  · change (p.older ++ [t]).flatMap _ = (p.older ++ [p.active]).flatMap _ ++ _
    simp [hrt]

theorem WellFormed.makeRoom (h : p.WellFormed) (n : Nat) : Extended p (p.makeRoom p.nextSeq n) [] ∧
      (bytes (p.makeRoom p.nextSeq n).active + n < 2 ^ 63 ∨
        LawfulSegmentStore.records (p.makeRoom p.nextSeq n).active = []) := by
  unfold Partition.makeRoom
  split
  · rename_i hroll
    obtain ⟨hw, hr⟩ := h.rollLocked hroll.2
    obtain ⟨_, _, _, hnew⟩ := create (S := S) p.cfg.indexInterval h.next_pos
    exact ⟨⟨hw, by rw [hr, append_nil], rfl⟩, .inr hnew⟩
  · rename_i hroll
    refine ⟨.refl h, ?_⟩
    by_cases he : SegmentStore.isEmpty p.active = true
    · exact .inr ((isEmpty_iff h.active.2.1).mp he)
    left
    have hfit : ¬ bytes p.active + n > p.cfg.segmentBytes :=
      fun hgt => hroll ⟨hgt, by simpa using he⟩
    have := p.cfg.int64
    omega

theorem WellFormed.write (h : p.WellFormed) {rec : Record} (hf : Fits S rec)
    (he : rec.encode = .ok bs) (hs : rec.seq = p.nextSeq) :
    ∃ q, p.write rec bs = (q, .ok ()) ∧ Extended p q [rec.canonical] := by
  obtain ⟨hroom, hfree⟩ := h.makeRoom bs.length
  have hnext := hroom.nextSeq h
  obtain ⟨t, ht, hext⟩ := hroom.wf.append_active hf he (hs.trans hnext.symm) hfree
  refine ⟨_, ?_, hroom.trans hext⟩
  unfold Partition.write
  simp only [hs, ht]

end Partition
end Boltq.Stream
