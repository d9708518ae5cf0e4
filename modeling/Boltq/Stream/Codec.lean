import Boltq.Stream.Refinement

namespace Boltq.Stream
open Lib List

inductive FrameErr where
  | header
  | bodyLength (n : Nat)
  | shortBody
  | checksum
  | body (e : Err)
  deriving DecidableEq

def decodeRecord (bs : Bytes) : Except FrameErr Record :=
  match readFrame recordBodyHeaderSize maxRecordSize bs with
  | .eof => .error .header
  | .badLength => .error (.bodyLength (unle ((bs.drop 4).take 4)))
  | .shortBody => .error .shortBody
  | .body sum body _ =>
    if crc32 body ≠ sum then .error .checksum
    else (decodeRecordBody body).mapError .body

theorem nextHeader_fit (h : nextHeader buf = some (e, rest)) :
    e.1.length < 2 ^ 16 ∧ e.2.length < 2 ^ 16 := by
  have hlen : ∀ bs : Bytes, unle (bs.take 2) < 2 ^ 16 := by
    intro bs
    have hlt := unle_lt (bs.take 2)
    have hle : (256 : Nat) ^ (bs.take 2).length ≤ 256 ^ 2 :=
      Nat.pow_le_pow_right (by decide) (length_take_le 2 bs)
    omega
  unfold nextHeader at h
  split at h
  · cases h
  dsimp only at h
  split at h
  · cases h
  split at h
  · cases h
  cases h
  exact ⟨Nat.lt_of_le_of_lt (length_take_le _ _) (hlen _),
    Nat.lt_of_le_of_lt (length_take_le _ _) (hlen _)⟩

theorem Headers.Fit.set {h : Headers} {k v : Bytes} (hf : h.Fit) (hk : k.length < 2 ^ 16)
    (hv : v.length < 2 ^ 16) : (h.set k v).Fit := by
  intro e he
  rcases mem_append.mp he with hm | hm
  · exact hf e (mem_filter.mp hm).1
  · cases mem_singleton.mp hm
    exact ⟨hk, hv⟩

theorem Headers.Fit.set_all {h : Headers} {kvs : List (Bytes × Bytes)} (hf : h.Fit)
    (hs : ∀ e ∈ kvs, e.1.length < 2 ^ 16 ∧ e.2.length < 2 ^ 16) :
    (kvs.foldl (fun h e => h.set e.1 e.2) h).Fit := by
  induction kvs generalizing h with
  | nil => exact hf
  | cons e kvs ih =>
    obtain ⟨hk, hv⟩ := hs e mem_cons_self
    exact ih (hf.set hk hv) (fun d hd => hs d (mem_cons_of_mem _ hd))

theorem decodeHeaders_fit {h : Headers} (hd : decodeHeaders buf = .ok h) : h.Fit := by
  unfold decodeHeaders at hd
  dsimp only at hd
  split at hd
  · cases hd
    exact Headers.Fit.set_all (by simp [Headers.Fit, Headers.empty])
      (scan_forall (fun _ _ _ => nextHeader_fit) _ _)
  · cases hd

theorem decodeRecord_encode {r : Record} (he : r.encode = .ok bs) (rest : Bytes) :
    decodeRecord (bs ++ rest) = (decodeRecordBody r.body).mapError .body := by
  obtain ⟨rfl, hl, _⟩ := encode_ok he
  have hf := readFrame_frame r.body rest (length_body r ▸ bodyLen_ge r) (length_body r ▸ hl)
    maxRecordSize_lt
  simp [decodeRecord, hf]

theorem decodeRecord_cut {r : Record} (he : r.encode = .ok bs) (ht : t <+: bs) (hne : t ≠ bs) :
    ∃ e, decodeRecord t = .error e := by
  obtain ⟨rfl, hl, _⟩ := encode_ok he
  rcases readFrame_cut r.body t (length_body r ▸ bodyLen_ge r) (length_body r ▸ hl)
    maxRecordSize_lt ht hne with hf | hf
  · exact ⟨.header, by simp only [decodeRecord, hf]⟩
  · exact ⟨.shortBody, by simp only [decodeRecord, hf]⟩

structure Record.RoundTrips (r : Record) (bs : Bytes) : Prop where
  decoded : ∃ back, decodeRecord bs = .ok back ∧ back.headers.entries.Perm r.headers.entries ∧
    { back with headers := r.headers } = r.canonical
  nothingBehind : ∀ rest, decodeRecord (bs ++ rest) = decodeRecord bs
  all : ∀ t, t <+: bs → t ≠ bs → ∃ e, decodeRecord t = .error e

theorem Record.RoundTrips.iff_fit {r : Record} (hr : r.InRange) (he : r.encode = .ok bs) :
    r.RoundTrips bs ↔ r.headers.Fit := by
  obtain ⟨_, hl, hk⟩ := encode_ok he
  have hd := decodeRecord_encode he []
  rw [append_nil] at hd
  constructor
  · intro h
    obtain ⟨back, hb, hperm, _⟩ := h.decoded
    rw [hd, decodeRecordBody_headers hr hk hl] at hb
    cases hh : decodeHeaders (encodeHeaders r.headers) with
    | error e =>
      rw [hh] at hb
      cases hb
    | ok headers =>
      rw [hh] at hb
      cases hb
      exact fun e hm => decodeHeaders_fit hh e (hperm.symm.subset hm)
  · intro hf
    have hok : decodeRecord bs = .ok r.canonical := by
      rw [hd, decodeRecordBody_body hr hf hk hl]
      rfl
    refine ⟨⟨r.canonical, hok, .refl _, rfl⟩, ?_, fun t => decodeRecord_cut he⟩
    intro rest
    rw [decodeRecord_encode he rest, hd]

namespace Partition

/-- An encoded record comes back as it was exactly when each header text is short
enough for its length field, and reads of a partition that was only given such
records do not fail. -/
theorem records_round_trip_iff_headers_fit {r : Record} {bs : Bytes} (hr : r.InRange)
    (he : r.encode = .ok bs) : (r.RoundTrips bs ↔ r.headers.Fit) ∧
    ∀ (topic : String) (id : Int) (cfg : PartitionConfig) (p₀ p : Partition FileSegment)
      (ops : List Op), openPartition topic id ⟨[], []⟩ cfg = .ok p₀ →
      Run Succeeds Storable p₀ ops p → ∀ fromSeq maxRecords maxBytes, p.firstSeq ≤ fromSeq →
        ∃ out, p.read fromSeq maxRecords maxBytes = (out, none) := by
  refine ⟨Record.RoundTrips.iff_fit hr he, ?_⟩
  intro topic id cfg p₀ p ops ho hrun fromSeq maxRecords maxBytes hf
  have hopen : p.Open := hrun.invariant Open (Open.fresh topic id cfg ho).1
    (fun _ _ _ h hst hs => (h.refines hst hs).1)
  obtain ⟨out, hout, _⟩ := hopen.read hf maxRecords maxBytes
  exact ⟨out, hout⟩

def fullRecord : Record where
  seq := 7
  timestamp := -3
  key := [1, 2]
  headers := ⟨[([9], [8, 8]), ([], [4])], by decide⟩
  payload := [5, 6]
  flags := 1
  epoch := 2

theorem full_record_round_trips : fullRecord.RoundTrips (frame fullRecord.body) ∧
    ∃ p : Partition FileSegment, Run Succeeds Storable freshFiles threeAppends p ∧
      ∃ out, p.read 1 10 0 = (out, none) := by
  have henc : fullRecord.encode = .ok (frame fullRecord.body) :=
    encode_of_sizes (by decide) (by decide)
  obtain ⟨hiff, hreads⟩ := records_round_trip_iff_headers_fit (by decide) henc
  refine ⟨hiff.mpr (by decide), ?_⟩
  obtain ⟨p, hrun, hfirst⟩ := Run.executed Storable exec freshFiles threeAppends
    (fun p : Partition FileSegment => p.firstSeq ≤ 1) (by decide +kernel)
  exact ⟨p, hrun, hreads "chat" 0 smallSegments _ p threeAppends (open_fresh "chat" 0 smallSegments)
    hrun 1 10 0 hfirst⟩

/-- A record with a header of 65536 bytes is encoded and appended, and can be
neither decoded nor read. -/
theorem long_header_does_not_round_trip : longHeader.InRange ∧
    (∃ bs, longHeader.encode = .ok bs ∧ decodeRecord bs = .error (.body .corruptRecord)) ∧
    ∃ p : Partition FileSegment, Run Succeeds always freshFiles [.append longHeader 1] p ∧
      p.firstSeq ≤ 1 ∧ p.read 1 1 0 = ([], some .corruptRecord) := by
  have hrange : longHeader.InRange :=
    ⟨(by decide : (0 : Nat) < 2 ^ 64), (by decide : -2 ^ 63 ≤ (0 : Int)),
      (by decide : (0 : Int) < 2 ^ 63), (by decide : (0 : Nat) < 2 ^ 32)⟩
  have hlen : longHeader.bodyLen ≤ maxRecordSize := bodyLen_long rfl rfl rfl rfl
  have henc : longHeader.encode = .ok (frame longHeader.body) :=
    encode_of_sizes hlen (Nat.zero_le _)
  refine ⟨hrange, ⟨_, henc, ?_⟩, ?_⟩
  · have hd := decodeRecord_encode henc []
    rw [append_nil] at hd
    rw [hd, decodeRecordBody_headers hrange (Nat.zero_le _) hlen, decodeHeaders_long]
    rfl
  · obtain ⟨p, hp, hf, _, hread⟩ := append_longHeader
    exact ⟨p, .snoc [] _ _ _ .nil trivial hp, by omega, hread 0⟩

end Partition
end Boltq.Stream
