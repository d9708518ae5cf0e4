import Boltq.Stream.Segment

namespace Boltq.Stream
open Lib List

def encoded (r : Record) : Bytes := frame r.body

structure Sound (r : Record) : Prop where
  range : r.InRange
  headers : r.headers.Fit
  key : r.key.length ≤ 0xFFFF
  size : r.bodyLen ≤ maxRecordSize
  canonical : r.canonical = r

theorem body_canonical (r : Record) : r.canonical.body = r.body := by
  have hw : r.canonical.wireFlags = r.wireFlags := by
    unfold Record.wireFlags Record.canonical
    split
    · apply UInt8.eq_of_toBitVec_eq
      ext i hi
      simp only [UInt8.toBitVec_and, UInt8.toBitVec_or, UInt8.toBitVec_not, BitVec.getElem_and,
        BitVec.getElem_or, BitVec.getElem_not]
      cases r.flags.toBitVec[i] <;> cases flagHasEpoch.toBitVec[i] <;> rfl
    · exact flag_clear_idem _ _
  unfold Record.body
  rw [hw]
  rfl

theorem sound_canonical {r : Record} (hr : r.InRange) (hh : r.headers.Fit) (he : r.encode = .ok bs) :
    Sound r.canonical ∧ bs = encoded r.canonical := by
  obtain ⟨hb, hl, hk⟩ := encode_ok he
  refine ⟨⟨⟨hr.seq, hr.timestamp_low, hr.timestamp_high, hr.epoch⟩, hh, hk, hl,
    canonical_canonical r⟩, ?_⟩
  rw [encoded, body_canonical]
  exact hb

theorem maxRecordSize_lt : maxRecordSize < 256 ^ 4 := by decide

theorem Sound.readFrame (h : Sound r) (rest : Bytes) :
    readFrame recordBodyHeaderSize maxRecordSize (encoded r ++ rest) =
      .body (crc32 r.body) r.body rest :=
  readFrame_frame r.body rest (length_body r ▸ bodyLen_ge r) (length_body r ▸ h.size)
    maxRecordSize_lt

theorem Sound.nextIntact (h : Sound r) (rest : Bytes) :
    nextIntact (encoded r ++ rest) = some (r.body, rest) := by
  rw [Stream.nextIntact, h.readFrame]
  exact if_pos rfl

theorem Sound.bodySeq (h : Sound r) : bodySeq r.body = r.seq := by
  simpa using bodySeq_body h.range.seq []

theorem Sound.decode (h : Sound r) : decodeRecordBody r.body = .ok r := by
  rw [decodeRecordBody_body h.range h.headers h.key h.size, h.canonical]

theorem Sound.nextIntact_cut (h : Sound r) (ht : t <+: encoded r) (hne : t ≠ encoded r) :
    Stream.nextIntact t = none := by
  unfold Stream.nextIntact
  rcases readFrame_cut r.body t (length_body r ▸ bodyLen_ge r) (length_body r ▸ h.size)
    maxRecordSize_lt ht hne with he | he
  · rw [he]
  · rw [he]

theorem nextIntact_nil : nextIntact [] = none := rfl

theorem encoded_ne_nil (r : Record) : encoded r ≠ [] := frame_ne_nil _

theorem length_encoded (r : Record) : (encoded r).length = 8 + r.bodyLen := by
  rw [encoded, length_frame, length_body]

theorem scan_intact (t : Bytes) (hs : ∀ r ∈ rs, Sound r) (ht : nextIntact t = none) (fuel : Nat)
    (hf : rs.length ≤ fuel) :
    (scan nextIntact fuel (stored encoded rs ++ t)).1 = rs.map Record.body := by
  have hst : stored encoded rs = stored frame (rs.map Record.body) :=
    (stored_map Record.body rs).symm
  rw [hst, scan_stored frame nextIntact _ t fuel (by simpa using hf) _ ht]
  intro b hb rest
  obtain ⟨r, hr, rfl⟩ := mem_map.mp hb
  exact (hs r hr).nextIntact rest

structure Points (base : Nat) (rs : List Record) (e : IndexEntry) : Prop where
  low : base ≤ e.seq
  high : e.seq < base + rs.length
  pos : e.pos = offset encoded rs (e.seq - base)

structure Indexes (base : Nat) (rs : List Record) (index : List IndexEntry) : Prop where
  sorted : index.Pairwise (fun a b => a.seq < b.seq)
  points : ∀ e ∈ index, Points base rs e

theorem Points.append (h : Points base rs e) : Points base (rs ++ ts) e := by
  have hh := h.high
  refine ⟨h.low, by rw [length_append]; omega, ?_⟩
  rw [h.pos, offset_append ts (by have := h.low; omega)]

theorem Points.lt_size (h : Points base rs e) : e.pos < ((stored encoded rs).length : Int) := by
  have hlt := offset_lt (fun r (_ : r ∈ rs) => encoded_ne_nil r)
    (show e.seq - base < rs.length by have := h.low; have := h.high; omega) (Nat.le_refl _)
  rw [offset_length] at hlt
  rw [h.pos]
  exact Int.ofNat_lt.mpr hlt

theorem Points.pos_nonneg (h : Points base rs e) : 0 ≤ e.pos := h.pos ▸ Int.natCast_nonneg _

theorem Points.seq_lt (h : Points base rs e) (hs : ∀ r ∈ rs, Sound r) (hd : Dense base rs) :
    e.seq < 2 ^ 64 := by
  obtain ⟨hlow, hhigh, _⟩ := h
  have hi : e.seq - base < rs.length := by omega
  have hseq := hd _ _ (getElem?_eq_getElem hi)
  have hr := (hs _ (getElem_mem hi)).range.seq
  omega

theorem Indexes.append (h : Indexes base rs index) : Indexes base (rs ++ ts) index :=
  ⟨h.sorted, fun e he => (h.points e he).append⟩

theorem Indexes.snoc (h : Indexes base rs index) : Indexes base (rs ++ [r])
      (index ++ [⟨base + rs.length, ((stored encoded rs).length : Nat)⟩]) := by
  refine ⟨pairwise_append.mpr ⟨h.sorted, by simp, ?_⟩, ?_⟩
  · intro a ha b hb
    simp only [mem_singleton] at hb
    subst hb
    exact (h.points a ha).high
  · intro e he
    rcases mem_append.mp he with he | he
    · exact (h.points e he).append
    simp only [mem_singleton] at he
    subst he
    refine ⟨Nat.le_add_right _ _, by simp, ?_⟩
    simp only [Nat.add_sub_cancel_left]
    rw [offset_append [r] (Nat.le_refl _), offset_length]

theorem Indexes.take (h : Indexes base rs index) (hb : base ≤ seq) :
    Indexes base (rs.take (seq - base)) (index.filter (fun e => decide (e.seq < seq))) := by
  refine ⟨h.sorted.sublist filter_sublist, ?_⟩
  intro e he
  obtain ⟨hm, hlt⟩ := mem_filter.mp he
  simp only [decide_eq_true_eq] at hlt
  obtain ⟨hlow, hhigh, hpos⟩ := h.points e hm
  refine ⟨hlow, by rw [length_take]; omega, ?_⟩
  rw [hpos, offset_take (by omega)]

theorem loadIndex_stored (t : Bytes) (ht : t.length < 16)
    (hr : ∀ e ∈ index, e.seq < 2 ^ 64 ∧ -2 ^ 63 ≤ e.pos ∧ e.pos < 2 ^ 63) :
    loadIndex (stored encodeIndexEntry index ++ t) = index := by
  have hne : ∀ e ∈ index, encodeIndexEntry e ≠ [] := by
    intro e _ h
    have := congrArg length h
    simp [encodeIndexEntry] at this
  unfold loadIndex
  rw [scan_stored encodeIndexEntry nextIndexEntry index t _
    (Nat.le_trans (length_le_stored hne) (by simp))]
  · intro e he rest
    obtain ⟨hseq, hlo, hhi⟩ := hr e he
    have hl : ∀ n, (le 8 n).length = 8 := length_le 8
    simp [nextIndexEntry, encodeIndexEntry, indexEntrySize, hl, unle_le_of_lt (w := 8) hseq,
      unle_le_of_lt (wordOfInt_lt _), int_of_word_of_int hlo hhi]
    omega
  · simp [nextIndexEntry, indexEntrySize, ht]

namespace FileSegment
variable {s : FileSegment} {rs : List Record}

structure Holds (s : FileSegment) (rs : List Record) : Prop where
  base : 0 < s.baseSeq
  sound : ∀ r ∈ rs, Sound r
  dense : Dense s.baseSeq rs
  log : s.log = stored encoded rs
  size : s.size = (stored encoded rs).length
  limit : s.size < 2 ^ 63
  last : s.lastSeq + 1 = s.baseSeq + rs.length
  index : Indexes s.baseSeq rs s.index
  idx : s.idx = stored encodeIndexEntry s.index

theorem seekPos_spec (h : Indexes s.baseSeq rs s.index) (seq : Nat) :
    ∃ j, s.seekPos seq = (offset encoded rs j : Nat) ∧ j ≤ seq - s.baseSeq ∧
      (j = 0 ∨ j < rs.length) := by
  have hsp : Split (fun e : IndexEntry => decide (seq < e.seq)) s.index :=
    List.Pairwise.imp (fun hab => by simp only [decide_eq_true_eq]; omega) h.sorted
  unfold seekPos
  simp only []
  split
  · exact ⟨0, by simp, Nat.zero_le _, .inl rfl⟩
  rename_i hi
  obtain ⟨old, e, rest, hsplit, hp, hdrop⟩ := hsp.drop_before hi
  have hget : s.index[searchList s.index (fun e => decide (seq < e.seq)) - 1]? = some e := by
    rw [← head?_drop, hdrop]
    rfl
  obtain ⟨hlow, hhigh, hpos⟩ := h.points e (by simp [hsplit])
  simp only [decide_eq_false_iff_not] at hp
  rw [hget]
  exact ⟨e.seq - s.baseSeq, hpos, by omega, .inr (by omega)⟩

theorem Holds.fileSection (h : Holds s rs) (j : Nat) :
    fileSection s.log (offset encoded rs j : Nat) s.size = stored encoded (rs.drop j) := by
  have hadd : _ = (stored encoded rs).length := offset_add_drop rs j
  rw [Stream.fileSection, if_neg (by omega), Int.toNat_natCast, h.log, drop_stored, h.size,
    take_of_length_le (by omega)]

theorem readLoop_stored (fromSeq : Nat) (maxBytes : Int) (hs : ∀ r ∈ ys, Sound r) (fuel max : Nat)
    (bytesRead : Int) (out : List Record) (hf : ys.length ≤ fuel) :
    readLoop fromSeq maxBytes fuel max (stored encoded ys) bytesRead out =
      (out ++ readRecords maxBytes max bytesRead
        (ys.filter (fun r => decide (fromSeq ≤ r.seq))), none) := by
  induction ys generalizing fuel max bytesRead out with
  | nil =>
    cases max with
    | zero => cases fuel <;> simp [readLoop, readRecords]
    | succ max =>
      cases fuel with
      | zero => simp [readLoop, readRecords]
      | succ fuel => simp [readLoop, readRecords, readFrame]
  | cons r ys ih =>
    have hr := hs r mem_cons_self
    have ht := fun y hy => hs y (mem_cons_of_mem r hy)
    cases max with
    | zero => cases fuel <;> simp [readLoop, readRecords]
    | succ max =>
      cases fuel with
      | zero => simp at hf
      | succ fuel =>
        have hf' : ys.length ≤ fuel := by simpa using hf
        simp only [readLoop, stored_cons, hr.readFrame, ne_eq, not_true_eq_false, ↓reduceIte,
          hr.bodySeq, hr.decode, length_body, filter_cons]
        by_cases hlt : r.seq < fromSeq
        · rw [if_pos hlt, ih ht fuel (max + 1) bytesRead out hf']
          simp [Nat.not_le.mpr hlt]
        rw [if_neg hlt]
        simp only [Nat.le_of_not_lt hlt, decide_true, ↓reduceIte, readRecords]
        split
        · rfl
        · rw [ih ht fuel max _ _ hf', append_assoc]
          rfl

theorem nil_of_seek_end (hj : j = 0 ∨ j < rs.length)
    (hle : (stored encoded rs).length ≤ offset encoded rs j) : rs = [] := by
  by_contra hne
  have hlen : 0 < rs.length := length_pos_iff.mpr hne
  have hlt := offset_lt (fun r (_ : r ∈ rs) => encoded_ne_nil r)
    (show j < rs.length by omega) (Nat.le_refl _)
  rw [offset_length] at hlt
  omega

theorem Holds.read (h : Holds s rs) (fromSeq max : Nat) (maxBytes : Int) :
    s.read fromSeq max maxBytes =
      (readRecords maxBytes max 0 (rs.drop (fromSeq - s.baseSeq)), none) := by
  obtain ⟨j, hpos, hj, hlt⟩ := seekPos_spec h.index fromSeq
  unfold FileSegment.read
  simp only [hpos]
  split
  · rename_i hle
    rw [h.size] at hle
    obtain rfl := nil_of_seek_end hlt (Int.ofNat_le.mp hle)
    cases max <;> simp [readRecords]
  · rw [h.fileSection j, readLoop_stored fromSeq maxBytes
      (fun r hr => h.sound r (mem_of_mem_drop hr)) _ max 0 []
      (length_le_stored (fun r _ => encoded_ne_nil r)), (h.dense.drop j).filter_ge fromSeq,
      drop_drop, nil_append]
    congr 3
    omega

theorem Holds.noteIndex (h : Holds s rs) (r : Record) (hseq : seq = s.baseSeq + rs.length) :
    Indexes s.baseSeq (rs ++ [r]) (s.noteIndex seq).index ∧
      (s.noteIndex seq).idx = stored encodeIndexEntry (s.noteIndex seq).index ∧
      s.noteIndex seq = { s with
        index := (s.noteIndex seq).index
        idx := (s.noteIndex seq).idx
        sinceIdx := (s.noteIndex seq).sinceIdx } := by
  unfold FileSegment.noteIndex
  split
  · refine ⟨?_, ?_, rfl⟩
    · simp only [h.size, hseq]
      exact h.index.snoc
    · simp only [h.idx, stored_append, stored_cons, stored_nil, append_nil]
  · exact ⟨h.index.append, h.idx, rfl⟩

theorem Holds.append (h : Holds s rs) (hr : Sound r) (hro : s.readOnly = false)
    (hseq : r.seq = s.baseSeq + rs.length) (hroom : s.size + (encoded r).length < 2 ^ 63) :
    ∃ t, s.append (encoded r) r.seq = .ok t ∧ Holds t (rs ++ [r]) ∧ t.readOnly = false ∧
      t.baseSeq = s.baseSeq := by
  obtain ⟨hindex, hidx, hsame⟩ := h.noteIndex r hseq
  have hlog : (s.noteIndex r.seq).log = s.log := by rw [hsame]
  have hsize : (s.noteIndex r.seq).size = s.size := by rw [hsame]
  have hbase : (s.noteIndex r.seq).baseSeq = s.baseSeq := by rw [hsame]
  have hread : (s.noteIndex r.seq).readOnly = false := by rw [hsame]; exact hro
  unfold FileSegment.append
  rw [hro, if_neg (by decide)]
  refine ⟨_, rfl, ?_, hread, hbase⟩
  refine ⟨?_, ?_, ?_, ?_, ?_, ?_, ?_, ?_, hidx⟩
  · simpa only [hbase] using h.base
  · intro x hx
    rcases mem_append.mp hx with hx | hx
    · exact h.sound x hx
    · simp only [mem_singleton] at hx
      exact hx ▸ hr
  · simpa only [hbase] using h.dense.append hseq
  · simp only [hlog, h.log, stored_append, stored_cons, stored_nil, append_nil]
  · simp only [hsize, h.size, stored_append, stored_cons, stored_nil, append_nil,
      length_append, Int.natCast_add]
  · simpa only [hsize] using hroom
  · simp only [hbase, length_append, length_singleton]
    omega
  · simpa only [hbase] using hindex

theorem scanLoop_stored (size : Int) (hs : ∀ r ∈ ys, Sound r) (hd : Dense base ys)
    (hlo : base ≤ seq) (hhi : seq < base + ys.length) (pos : Int)
    (hsize : size = pos + (stored encoded ys).length) (fuel : Nat) (hf : ys.length ≤ fuel) :
    scanLoop seq size fuel (stored encoded ys) pos =
      .ok (pos + (offset encoded ys (seq - base) : Nat)) := by
  induction ys generalizing base pos fuel with
  | nil => simp at hhi; omega
  | cons r ys ih =>
    have hr := hs r mem_cons_self
    have h0 := hd.head
    have hlen := length_encoded r
    cases fuel with
    | zero => simp at hf
    | succ fuel =>
      rw [stored_cons, length_append, hlen] at hsize
      simp only [scanLoop, stored_cons, hr.readFrame, hr.bodySeq, length_body]
      rw [if_neg (by omega)]
      by_cases he : seq ≤ r.seq
      · rw [if_pos he, show seq - base = 0 by omega]
        simp
      rw [if_neg he]
      rw [ih (fun y hy => hs y (mem_cons_of_mem r hy)) (hd.drop 1) (by omega)
        (by rw [length_cons] at hhi; omega) _ (by unfold recordFrameHeaderSize; omega) fuel
        (by simpa using hf)]
      rw [show seq - base = seq - (base + 1) + 1 by omega]
      simp only [offset, take_succ_cons, stored_cons, length_append, hlen,
        recordFrameHeaderSize, Int.natCast_add]
      congr 1
      omega

theorem Holds.truncateTo (h : Holds s rs) (hro : s.readOnly = false) (hb : s.baseSeq < seq) :
    ∃ t, s.truncateTo seq = .ok t ∧ Holds t (rs.take (seq - s.baseSeq)) ∧ t.readOnly = false ∧
      t.baseSeq = s.baseSeq := by
  have hlast := h.last
  unfold FileSegment.truncateTo
  rw [hro, if_neg (by decide)]
  by_cases hge : s.lastSeq < seq
  · rw [if_pos hge, take_of_length_le (by omega)]
    exact ⟨s, rfl, h, hro, rfl⟩
  rw [if_neg hge]
  obtain ⟨j, hpos, hj, hlt⟩ := seekPos_spec h.index seq
  have hadd : _ = (stored encoded rs).length := offset_add_drop rs j
  have hscan : s.scanForOffset seq = .ok (offset encoded rs (seq - s.baseSeq) : Nat) := by
    unfold scanForOffset
    simp only [hpos, h.fileSection j]
    rw [scanLoop_stored s.size (fun r hr => h.sound r (mem_of_mem_drop hr))
      (h.dense.drop j) (by omega) (by rw [length_drop]; omega) _
      (by rw [h.size]; omega) _
      (Nat.le_trans (length_le_stored (fun r _ => encoded_ne_nil r)) (Nat.le_succ _))]
    congr 1
    rw [← Int.natCast_add]
    congr 1
    rw [offset, offset, offset, ← length_append, ← stored_append, ← take_add]
    congr 3
    omega
  have hin : offset encoded rs (seq - s.baseSeq) < (stored encoded rs).length := by
    rw [← offset_length rs]
    exact offset_lt (fun r _ => encoded_ne_nil r) (by omega) (Nat.le_refl _)
  have hkeep : s.index.take (searchList s.index (fun e => decide (seq ≤ e.seq))) =
      s.index.filter (fun e => decide (e.seq < seq)) := by
    have hsp : Split (fun e : IndexEntry => decide (seq ≤ e.seq)) s.index :=
      List.Pairwise.imp (fun hab => by simp only [decide_eq_true_eq]; omega) h.index.sorted
    rw [hsp.take_eq_filter]
    apply filter_congr
    intro e _
    by_cases hlt : e.seq < seq
    · simp [hlt]
    · simp [hlt, Nat.le_of_not_lt hlt]
  have hsz := h.size
  have hlim := h.limit
  simp only [hscan]
  rw [if_neg (by omega)]
  refine ⟨_, rfl, ⟨h.base, fun r hr => h.sound r (mem_of_mem_take hr), h.dense.take _, ?_, ?_,
    ?_, ?_, ?_, ?_⟩, rfl, rfl⟩
  · simp only [Int.toNat_natCast, h.log, take_stored]
  · rfl
  · simp only
    omega
  · simp only [length_take]
    omega
  · simp only [hkeep]
    exact h.index.take (Nat.le_of_lt hb)
  · rfl

theorem recover_start {kept : List IndexEntry} (hb : 0 < base) (hl : last0 + 1 = base)
    (hp : ∀ e ∈ kept.getLast?, Points base rs e) :
    ∃ j, j ≤ rs.length ∧ kept.getLast?.elim 0 IndexEntry.pos = (offset encoded rs j : Nat) ∧
      kept.getLast?.elim last0 (fun e => prevSeq e.seq) + 1 = base + j := by
  cases hk : kept.getLast? with
  | none => exact ⟨0, Nat.zero_le _, by simp, hl⟩
  | some e =>
    obtain ⟨hlow, hhigh, hpos⟩ := hp e (by simp [hk])
    have hprev : prevSeq e.seq + 1 = e.seq := prevSeq_succ (by omega)
    refine ⟨e.seq - base, by omega, hpos, ?_⟩
    rw [Option.elim_some, hprev]
    omega

theorem last_scanned (hs : ∀ r ∈ rs, Sound r) (hd : Dense base rs) (hj : j ≤ rs.length)
    (hl : last0 + 1 = base + j) :
    ((rs.drop j).map Record.body).getLast?.elim last0 bodySeq = base + rs.length - 1 := by
  cases hk : (rs.drop j).getLast? with
  | none =>
    have hnil := List.getLast?_eq_none_iff.mp hk
    have hlen := congrArg List.length hnil
    simp only [length_drop, length_nil] at hlen
    simp only [List.getLast?_map, hk, Option.map_none, Option.elim_none]
    omega
  | some r =>
    have hr := hs r (mem_of_mem_drop (mem_of_getLast? hk))
    simp only [List.getLast?_map, hk, Option.map_some, Option.elim_some, hr.bodySeq]
    rw [List.getLast?_eq_getElem?, List.getElem?_drop] at hk
    have hseq := hd _ r hk
    have hlt := (List.getElem?_eq_some_iff.mp hk).1
    rw [length_drop] at hseq hlt
    omega

theorem sum_frames (ys : List Record) :
    ((ys.map Record.body).map (fun b => recordFrameHeaderSize + b.length)).sum =
      (stored encoded ys).length := by
  rw [length_stored, map_map]
  congr 1
  apply map_congr_left
  intro r _
  simp [encoded, recordFrameHeaderSize]

theorem recover_eq (hb : 0 < s.baseSeq) (hs : ∀ r ∈ rs, Sound r) (hd : Dense s.baseSeq rs)
    (hlog : s.log = stored encoded rs ++ t) (ht : nextIntact t = none)
    (hl : s.lastSeq + 1 = s.baseSeq)
    (hkept : s.index.rdropWhile (fun e => decide ((s.log.length : Int) ≤ e.pos)) = kept)
    (hp : ∀ e ∈ kept.getLast?, Points s.baseSeq rs e) (hro : t = [] ∨ s.readOnly = false) :
    s.recover = .ok { s with
      index := kept
      size := (stored encoded rs).length
      lastSeq := s.baseSeq + rs.length - 1
      log := stored encoded rs } := by
  obtain ⟨j, hj, hpos, hlast⟩ := recover_start hb hl hp
  have hadd : _ = (stored encoded rs).length := offset_add_drop rs j
  have htail : fileSection s.log (offset encoded rs j : Nat) s.log.length =
      stored encoded (rs.drop j) ++ t := by
    have hlen : s.log.length = (stored encoded rs).length + t.length := by
      rw [hlog, length_append]
    rw [Stream.fileSection, if_neg (by omega), Int.toNat_natCast, hlen, hlog,
      drop_append_of_le_length (by omega), drop_stored, take_of_length_le]
    rw [length_append]
    omega
  have hscan : (scan nextIntact (stored encoded (rs.drop j) ++ t).length
      (stored encoded (rs.drop j) ++ t)).1 = (rs.drop j).map Record.body :=
    scan_intact t (fun r hr => hs r (mem_of_mem_drop hr)) ht _
      (Nat.le_trans (length_le_stored (fun r _ => encoded_ne_nil r)) (by simp))
  unfold FileSegment.recover
  simp only [hkept, hpos, htail, hscan, last_scanned hs hd hj hlast, sum_frames]
  rw [← Int.natCast_add, hadd]
  rcases hro with rfl | hro
  · rw [if_pos (.inl (by rw [hlog, append_nil]))]
    simp only [hlog, append_nil]
  by_cases hnil : t = []
  · subst hnil
    rw [if_pos (.inl (by rw [hlog, append_nil]))]
    simp only [hlog, append_nil]
  · have hpos : 0 < t.length := length_pos_iff.mpr hnil
    rw [if_neg (by rw [hro, hlog, length_append]; simp; omega), if_neg (by omega)]
    simp only [hlog, Int.toNat_natCast, take_left]

theorem openSegment_level (files : FileSegment) {t : Bytes} {index : List IndexEntry}
    (hb : 0 < files.baseSeq) (hs : ∀ r ∈ rs, Sound r) (hd : Dense files.baseSeq rs)
    (hlog : files.log = stored encoded rs ++ t) (ht : nextIntact t = none)
    (hidx : files.idx = stored encodeIndexEntry index) (hi : Indexes files.baseSeq rs index)
    (hlim : ((stored encoded rs).length : Int) < 2 ^ 63) (iv : Int) {ro : Bool}
    (hro : t = [] ∨ ro = false) :
    ∃ u, files.openSegment iv ro = .ok u ∧ Holds u rs ∧ u.readOnly = ro ∧
      u.baseSeq = files.baseSeq := by
  have hload : loadIndex files.idx = index := by
    rw [hidx, ← append_nil (stored encodeIndexEntry index)]
    apply loadIndex_stored [] (by simp)
    intro e he
    have hpt := hi.points e he
    have hlt := hpt.lt_size
    have hge := hpt.pos_nonneg
    exact ⟨hpt.seq_lt hs hd, by omega, by omega⟩
  have hkept : (files.load iv ro).index.rdropWhile
      (fun e => decide (((files.load iv ro).log.length : Int) ≤ e.pos)) = index := by
    change (loadIndex files.idx).rdropWhile (fun e => decide ((files.log.length : Int) ≤ e.pos)) = _
    rw [hload]
    apply rdropWhile_eq_self_iff.mpr
    intro hne
    have hlt := (hi.points _ (getLast_mem hne)).lt_size
    simp only [decide_eq_true_eq, hlog, length_append]
    omega
  have hbase : (files.load iv ro).lastSeq + 1 = (files.load iv ro).baseSeq := Nat.sub_add_cancel hb
  rw [FileSegment.openSegment, recover_eq (s := files.load iv ro) hb hs hd hlog ht hbase hkept
    (fun e he => hi.points e (mem_of_getLast? he)) hro]
  refine ⟨_, rfl, ⟨hb, hs, hd, rfl, rfl, hlim, ?_, hi, hidx⟩, rfl, rfl⟩
  change files.baseSeq + rs.length - 1 + 1 = files.baseSeq + rs.length
  omega

theorem Holds.openSegment (h : Holds s rs) (iv : Int) (ro : Bool) :
    ∃ t, s.openSegment iv ro = .ok t ∧ Holds t rs ∧ t.readOnly = ro ∧ t.baseSeq = s.baseSeq :=
  openSegment_level s h.base h.sound h.dense (by rw [append_nil]; exact h.log) nextIntact_nil
    h.idx h.index (h.size ▸ h.limit) iv (.inl rfl)

theorem Holds.createSegment {base : Nat} (iv : Int) (hb : 0 < base) :
    Holds (createSegment base iv) [] where
  base := hb
  sound := by simp
  dense := fun i r hr => by simp at hr
  log := rfl
  size := rfl
  limit := by
    change (0 : Int) < 2 ^ 63
    decide
  last := Nat.sub_add_cancel hb
  index := ⟨List.Pairwise.nil, by simp [FileSegment.createSegment]⟩
  idx := rfl

theorem Holds.reopenWritable (h : Holds s rs) : Holds s.reopenWritable rs :=
  ⟨h.base, h.sound, h.dense, h.log, h.size, h.limit, h.last, h.index, h.idx⟩

def nextRecord (bs : Bytes) : Option (Record × Bytes) :=
  match nextIntact bs with
  | none => none
  | some (body, rest) =>
    match decodeRecordBody body with
    | .error _ => none
    | .ok r => some (r, rest)

def records (s : FileSegment) : List Record := (scan nextRecord s.log.length s.log).1

theorem records_stored (t : Bytes) (hs : ∀ r ∈ rs, Sound r) (ht : nextIntact t = none) (fuel : Nat)
    (hf : rs.length ≤ fuel) : (scan nextRecord fuel (stored encoded rs ++ t)).1 = rs := by
  rw [scan_stored encoded nextRecord rs t fuel hf]
  · intro r hr rest
    rw [nextRecord, (hs r hr).nextIntact]
    simp only [(hs r hr).decode]
  · rw [nextRecord, ht]

theorem Holds.records (h : Holds s rs) : s.records = rs := by
  have hlen : rs.length ≤ s.log.length := by
    rw [h.log]
    exact length_le_stored (fun r _ => encoded_ne_nil r)
  have hscan := records_stored [] h.sound nextIntact_nil s.log.length hlen
  rw [append_nil, ← h.log] at hscan
  exact hscan

theorem Holds.self (h : Holds s rs) : Holds s s.records := h.records.symm ▸ h

theorem Holds.bytes (h : Holds s rs) : s.size = (rs.map Record.encodedSize).sum := by
  rw [h.size, length_stored]
  congr 2
  apply map_congr_left
  intro r _
  rw [length_encoded]
  rfl

/-- The file segments store faithfully every record whose fields fit. -/
instance : LawfulSegmentStore FileSegment where
  Valid s := s.Holds s.records
  Writable s := s.readOnly = false
  Fits r := r.InRange ∧ r.headers.Fit
  records := FileSegment.records
  base_pos h := h.base
  dense h := h.dense
  last h := h.last
  size h := h.bytes
  fits h r hr := ⟨(h.sound r hr).range, (h.sound r hr).headers⟩
  create iv hb := by
    have h := Holds.createSegment iv hb
    exact ⟨h.self, rfl, rfl, h.records⟩
  append_ok := by
    intro s r bs h hw hf he hseq hroom
    obtain ⟨hsound, rfl⟩ := sound_canonical hf.1 hf.2 he
    have hlim : s.size + (encoded r.canonical).length < 2 ^ 63 := by
      rcases hroom with hroom | hnil
      · exact hroom
      have hsize : s.size = 0 := by rw [h.bytes, hnil]; rfl
      have hmax := hsound.size
      have hbound : maxRecordSize < 2 ^ 32 := by decide
      rw [hsize, length_encoded]
      omega
    have hlast : r.canonical.seq = s.baseSeq + s.records.length := hseq.trans h.last
    obtain ⟨t, ht, hh, hr, hb⟩ := h.append hsound hw hlast hlim
    exact ⟨t, ht, hh.self, hr, hb, hh.records⟩
  reopen h := by
    have hr := h.reopenWritable
    exact ⟨hr.self, rfl, rfl, hr.records⟩
  truncate h hw hb := by
    obtain ⟨t, ht, hh, hr, hbase⟩ := h.truncateTo hw hb
    exact ⟨t, ht, hh.self, hr, hbase, hh.records⟩
  open_ok iv ro h := by
    obtain ⟨t, ht, hh, hr, hbase⟩ := h.openSegment iv ro
    exact ⟨t, ht, hh.self, fun hro => hr.trans hro, hbase, hh.records⟩
  read_ok fromSeq max maxBytes h := h.read fromSeq max maxBytes

end FileSegment
end Boltq.Stream
