import Boltq.Stream.Codec
import Boltq.Stream.KeyedReads

namespace Boltq.Stream
open Lib List Option

/-! The decoders with every slice checked against the bytes it is cut from.
`none` stands for a slice that reaches outside. -/

namespace Checked

def nextHeader (buf : Bytes) : Option (Option ((Bytes × Bytes) × Bytes)) :=
  if buf.length < 2 then some none
  else do
    let kl := unle (← slice buf 0 2)
    let buf ← slice buf 2 buf.length
    if buf.length < kl + 2 then some none
    else do
      let k ← slice buf 0 kl
      let buf ← slice buf kl buf.length
      let vl := unle (← slice buf 0 2)
      let buf ← slice buf 2 buf.length
      if buf.length < vl then some none
      else do
        let v ← slice buf 0 vl
        let rest ← slice buf vl buf.length
        some (some ((k, v), rest))

def headersLoop : Nat → Bytes → Headers → Option (Except Err Headers)
  | 0, buf, h => some (if buf = [] then .ok h else .error .corruptRecord)
  | turns+1, buf, h =>
    if buf = [] then some (.ok h)
    else do
      match ← nextHeader buf with
      | none => some (.error .corruptRecord)
      | some (e, rest) => headersLoop turns rest (h.set e.1 e.2)

def decodeHeaders (buf : Bytes) : Option (Except Err Headers) :=
  headersLoop buf.length buf .empty

def field (body : Bytes) (lo hi : Nat) : Option Nat := (slice body lo hi).map unle

def epochField (flags : UInt8) (body : Bytes) : Option Nat :=
  if flags &&& flagHasEpoch ≠ 0 then field body 27 31 else some 0

def decodeRecordBody (body : Bytes) : Option (Except Err Record) :=
  if body.length < recordBodyHeaderSize then some (.error .corruptRecord)
  else do
    let flags := (← slice body 16 17).headD 0
    let keyLen ← field body 17 19
    let hdrLen ← field body 19 23
    let payLen ← field body 23 27
    let hasEpoch := flags &&& flagHasEpoch ≠ 0
    let bodyHdr := if hasEpoch then recordBodyHeaderSize + recordEpochSize else recordBodyHeaderSize
    if hasEpoch ∧ body.length < bodyHdr then some (.error .corruptRecord)
    else do
      let epoch ← epochField flags body
      if bodyHdr + keyLen + hdrLen + payLen ≠ body.length then some (.error .corruptRecord)
      else do
        let key ← slice body bodyHdr (bodyHdr + keyLen)
        let hdr ← slice body (bodyHdr + keyLen) (bodyHdr + keyLen + hdrLen)
        match ← decodeHeaders hdr with
        | .error e => some (.error e)
        | .ok headers => do
          let payload ← slice body (bodyHdr + keyLen + hdrLen) (bodyHdr + keyLen + hdrLen + payLen)
          let seq ← field body 0 8
          let timestamp ← field body 8 16
          some (.ok {
            seq
            timestamp := intOfWord timestamp
            flags := flags &&& ~~~flagHasEpoch
            epoch, key, headers, payload })

def decodeRecord (frame : Bytes) : Option (Except FrameErr Record) :=
  if frame.length < recordFrameHeaderSize then some (.error .header)
  else do
    let checksum ← field frame 0 4
    let bodyLen ← field frame 4 8
    if bodyLen < recordBodyHeaderSize ∨ bodyLen > maxRecordSize then
      some (.error (.bodyLength bodyLen))
    else if frame.length < recordFrameHeaderSize + bodyLen then some (.error .shortBody)
    else do
      let body ← slice frame recordFrameHeaderSize (recordFrameHeaderSize + bodyLen)
      if crc32 body ≠ checksum then some (.error .checksum)
      else (decodeRecordBody body).map (·.mapError .body)

theorem nextHeader_eq (buf : Bytes) : nextHeader buf = some (Stream.nextHeader buf) := by
  unfold nextHeader Stream.nextHeader
  by_cases h2 : buf.length < 2
  · rw [if_pos h2, if_pos h2]
  rw [if_neg h2, if_neg h2, slice_of_le (by omega) (by omega), slice_to_end (by omega)]
  simp only [bind_eq_bind, bind_some, drop_zero, Nat.sub_zero]
  generalize unle (buf.take 2) = kl
  by_cases hk : (buf.drop 2).length < kl + 2
  · rw [if_pos hk, if_pos hk]
  rw [if_neg hk, if_neg hk, slice_of_le (by omega) (by omega), slice_to_end (by omega)]
  have hrest : 2 ≤ ((buf.drop 2).drop kl).length := by
    rw [length_drop]
    omega
  simp only [bind_some, drop_zero, Nat.sub_zero]
  rw [slice_of_le (by omega) hrest, slice_to_end hrest]
  simp only [bind_some, drop_zero, Nat.sub_zero]
  generalize unle (((buf.drop 2).drop kl).take 2) = vl
  by_cases hv : (((buf.drop 2).drop kl).drop 2).length < vl
  · rw [if_pos hv, if_pos hv]
  rw [if_neg hv, if_neg hv, slice_of_le (by omega) (by omega), slice_to_end (by omega)]
  simp only [bind_some, drop_zero, Nat.sub_zero]

theorem headersLoop_eq (turns : Nat) (buf : Bytes) (h : Headers) : headersLoop turns buf h = some (
      if (scan Stream.nextHeader turns buf).2 = [] then
        .ok ((scan Stream.nextHeader turns buf).1.foldl (fun h e => h.set e.1 e.2) h)
      else .error .corruptRecord) := by
  induction turns generalizing buf h with
  | zero => rfl
  | succ turns ih =>
    unfold headersLoop scan
    by_cases hnil : buf = []
    · subst hnil
      simp [Stream.nextHeader]
    rw [if_neg hnil, nextHeader_eq]
    cases hn : Stream.nextHeader buf with
    | none => simp [hnil]
    | some p =>
      obtain ⟨e, rest⟩ := p
      simp only [bind_eq_bind, bind_some, ih, foldl_cons]

theorem decodeHeaders_eq (buf : Bytes) : decodeHeaders buf = some (Stream.decodeHeaders buf) :=
  headersLoop_eq buf.length buf .empty

theorem field_eq {body : Bytes} (h : lo ≤ hi) (hb : hi ≤ body.length) :
    field body lo hi = some (Stream.field lo (hi - lo) body) := by
  rw [field, slice_of_le h hb]
  rfl

theorem epochField_eq {body : Bytes} (h : flags &&& flagHasEpoch ≠ 0 → 31 ≤ body.length) :
    epochField flags body =
      some (if flags &&& flagHasEpoch ≠ 0 then Stream.field 27 4 body else 0) := by
  unfold epochField
  split
  · rename_i he
    rw [field_eq (by omega) (h he)]
  · rfl

theorem decodeRecordBody_eq (body : Bytes) :
    decodeRecordBody body = some (Stream.decodeRecordBody body) := by
  unfold decodeRecordBody Stream.decodeRecordBody
  by_cases h27 : body.length < recordBodyHeaderSize
  · rw [if_pos h27, if_pos h27]
  have hlen : 27 ≤ body.length := Nat.le_of_not_lt h27
  have hflags : ((body.drop 16).take 1).headD 0 = (body.drop 16).headD 0 := by
    cases body.drop 16 <;> rfl
  rw [if_neg h27, if_neg h27, slice_of_le (by omega) (by omega)]
  simp only [bind_eq_bind, bind_some, Nat.reduceSub, hflags,
    field_eq (show 17 ≤ 19 by omega) (show 19 ≤ body.length by omega),
    field_eq (show 19 ≤ 23 by omega) (show 23 ≤ body.length by omega),
    field_eq (show 23 ≤ 27 by omega) hlen, field_eq (show 0 ≤ 8 by omega) (show 8 ≤ body.length by omega),
    field_eq (show 8 ≤ 16 by omega) (show 16 ≤ body.length by omega)]
  generalize (body.drop 16).headD 0 = flags
  generalize Stream.field 17 2 body = keyLen
  generalize Stream.field 19 4 body = hdrLen
  generalize Stream.field 23 4 body = payLen
  generalize hb : (if flags &&& flagHasEpoch ≠ 0 then recordBodyHeaderSize + recordEpochSize
    else recordBodyHeaderSize) = bodyHdr
  by_cases hshort : flags &&& flagHasEpoch ≠ 0 ∧ body.length < bodyHdr
  · rw [if_pos hshort, if_pos hshort]
  have hepoch : flags &&& flagHasEpoch ≠ 0 → 31 ≤ body.length := by
    intro he
    rw [if_pos he] at hb
    have := not_and.mp hshort he
    unfold recordBodyHeaderSize recordEpochSize at hb
    omega
  rw [if_neg hshort, if_neg hshort, epochField_eq hepoch, bind_some]
  by_cases hsum : bodyHdr + keyLen + hdrLen + payLen ≠ body.length
  · rw [if_pos hsum, if_pos hsum]
  rw [if_neg hsum, if_neg hsum, slice_of_le (by omega) (by omega), slice_of_le (by omega) (by omega),
    slice_of_le (by omega) (by omega)]
  simp only [bind_some, Nat.add_sub_cancel_left, decodeHeaders_eq]
  cases Stream.decodeHeaders ((body.drop (bodyHdr + keyLen)).take hdrLen) with
  | error e => rfl
  | ok headers => rfl

theorem decodeRecord_eq (frame : Bytes) : decodeRecord frame = some (Stream.decodeRecord frame) := by
  unfold decodeRecord Stream.decodeRecord readFrame recordFrameHeaderSize
  by_cases h8 : frame.length < 8
  · rw [if_pos h8, if_pos h8]
  rw [if_neg h8, if_neg h8, field_eq (by omega) (by omega), field_eq (by omega) (by omega)]
  simp only [bind_eq_bind, bind_some, Nat.reduceSub, Stream.field, drop_zero]
  generalize unle ((frame.drop 4).take 4) = bodyLen
  by_cases hbad : bodyLen < recordBodyHeaderSize ∨ bodyLen > maxRecordSize
  · rw [if_pos hbad, if_pos hbad]
  rw [if_neg hbad, if_neg hbad]
  have hiff : (frame.drop 8).length < bodyLen ↔ frame.length < 8 + bodyLen := by
    rw [length_drop]
    omega
  by_cases hshort : frame.length < 8 + bodyLen
  · rw [if_pos hshort, if_pos (hiff.mpr hshort)]
  rw [if_neg hshort, if_neg (mt hiff.mp hshort), slice_of_le (by omega) (by omega),
    Nat.add_sub_cancel_left, bind_some]
  simp only [decodeRecordBody_eq, map_some]
  split <;> rfl

end Checked

theorem scan_length {next : Bytes → Option (α × Bytes)}
    (h : ∀ bs x rest, next bs = some (x, rest) → (enc x).length + rest.length ≤ bs.length)
    (fuel : Nat) (bs : Bytes) :
    (stored enc (scan next fuel bs).1).length + (scan next fuel bs).2.length ≤ bs.length := by
  induction fuel generalizing bs with
  | zero => simp [scan]
  | succ fuel ih =>
    unfold scan
    cases hn : next bs with
    | none => simp
    | some p =>
      obtain ⟨x, rest⟩ := p
      have hx := h bs x rest hn
      have hrest := ih rest
      simp only [stored_cons, length_append]
      omega

theorem length_stored_filter (enc : α → Bytes) (p : α → Bool) (xs : List α) :
    (stored enc (xs.filter p)).length ≤ (stored enc xs).length := by
  induction xs with
  | nil => exact Nat.le_refl _
  | cons x xs ih =>
    rw [filter_cons]
    split <;> simp only [stored_cons, length_append] <;> omega

theorem nextHeader_length (h : nextHeader buf = some (e, rest)) :
    (encodeHeader e).length + rest.length ≤ buf.length := by
  unfold nextHeader at h
  split at h
  · cases h
  dsimp only at h
  split at h
  · cases h
  split at h
  · cases h
  cases h
  simp only [encodeHeader, length_append, length_le, length_take, length_drop] at *
  omega

theorem decodeHeaders_length (hd : decodeHeaders buf = .ok h) :
    (encodeHeaders h).length ≤ buf.length := by
  have hset : ∀ (kvs : List (Bytes × Bytes)) (h : Headers),
      (encodeHeaders (kvs.foldl (fun h e => h.set e.1 e.2) h)).length ≤
        (encodeHeaders h).length + (stored encodeHeader kvs).length := by
    intro kvs
    induction kvs with
    | nil => exact fun h => Nat.le_refl _
    | cons e kvs ih =>
      intro h
      have hone : (encodeHeaders (h.set e.1 e.2)).length ≤
          (encodeHeaders h).length + (encodeHeader e).length := by
        have hf := length_stored_filter encodeHeader (fun x => x.1 ≠ e.1) h.entries
        simp only [encodeHeaders, Headers.set, stored_append, stored_cons, stored_nil,
          append_nil, length_append, Prod.mk.eta]
        omega
      have hrest := ih (h.set e.1 e.2)
      simp only [foldl_cons, stored_cons, length_append]
      omega
  have hnext : ∀ bs e rest, nextHeader bs = some (e, rest) →
      (encodeHeader e).length + rest.length ≤ bs.length := fun _ _ _ => nextHeader_length
  have hscan := scan_length hnext buf.length buf
  unfold decodeHeaders at hd
  dsimp only at hd
  split at hd
  · cases hd
    have hall := hset (scan nextHeader buf.length buf).1 .empty
    have hempty : (encodeHeaders .empty).length = 0 := rfl
    omega
  · cases hd

theorem field_lt (off w : Nat) (body : Bytes) : field off w body < 256 ^ w := by
  have hlt := unle_lt ((body.drop off).take w)
  have hle : 256 ^ ((body.drop off).take w).length ≤ 256 ^ w :=
    Nat.pow_le_pow_right (by decide) (length_take_le _ _)
  exact Nat.lt_of_lt_of_le hlt hle

theorem intOfWord_range (h : n < 256 ^ 8) : -2 ^ 63 ≤ intOfWord n ∧ intOfWord n < 2 ^ 63 := by
  unfold intOfWord
  split <;> omega

theorem decodeRecordBody_fits (h : decodeRecordBody body = .ok r) (hl : body.length ≤ maxRecordSize) :
    r.bodyLen ≤ body.length ∧ Sound r := by
  unfold decodeRecordBody at h
  split at h
  · cases h
  dsimp only at h
  generalize (body.drop 16).headD 0 = flags at h
  generalize hb : (if flags &&& flagHasEpoch ≠ 0 then recordBodyHeaderSize + recordEpochSize
    else recordBodyHeaderSize) = bodyHdr at h
  by_cases hshort : flags &&& flagHasEpoch ≠ 0 ∧ body.length < bodyHdr
  · rw [if_pos hshort] at h
    cases h
  by_cases hsum : bodyHdr + field 17 2 body + field 19 4 body + field 23 4 body ≠ body.length
  · rw [if_neg hshort, if_pos hsum] at h
    cases h
  rw [if_neg hshort, if_neg hsum] at h
  cases hheaders : decodeHeaders ((body.drop (bodyHdr + field 17 2 body)).take (field 19 4 body)) with
  | error e =>
    rw [hheaders] at h
    cases h
  | ok headers =>
    rw [hheaders] at h
    cases h
    have hhl := decodeHeaders_length hheaders
    have hts := intOfWord_range (field_lt 8 8 body)
    have hkey := field_lt 17 2 body
    have hepoch := field_lt 27 4 body
    have hhdr : (if 0 < (if flags &&& flagHasEpoch ≠ 0 then field 27 4 body else 0) then
        recordBodyHeaderSize + recordEpochSize else recordBodyHeaderSize) ≤ bodyHdr := by
      by_cases he : flags &&& flagHasEpoch ≠ 0
      · rw [if_pos he] at hb ⊢
        split <;> omega
      · rw [if_neg he] at hb ⊢
        rw [if_neg (Nat.lt_irrefl 0)]
        exact Nat.le_of_eq hb
    refine (and_iff_left_of_imp fun hlen => ⟨⟨field_lt 0 8 body, hts.1, hts.2, ?_⟩,
      decodeHeaders_fit hheaders, ?_, hlen.trans hl, ?_⟩).mpr ?_
    · unfold Record.bodyLen Record.bodyHeaderSize
      simp only [length_take, length_drop] at hhl ⊢
      omega
    · dsimp only
      split <;> omega
    · dsimp only
      rw [length_take]
      omega
    · simp only [Record.canonical, flag_clear_idem]

theorem FileSegment.readLoop_sound (fromSeq : Nat) (maxBytes : Int) (fuel max : Nat) (bs : Bytes)
    (bytesRead : Int) (out : List Record) (hout : ∀ r ∈ out, Sound r) :
    ∀ r ∈ (readLoop fromSeq maxBytes fuel max bs bytesRead out).1, Sound r := by
  induction fuel generalizing max bs bytesRead out with
  | zero =>
    cases max <;> exact hout
  | succ fuel ih =>
    cases max with
    | zero => exact hout
    | succ max =>
      unfold readLoop
      cases hf : readFrame recordBodyHeaderSize maxRecordSize bs with
      | eof | badLength | shortBody => exact hout
      | body sum body rest =>
        dsimp only
        split
        · exact hout
        split
        · exact ih _ _ _ _ hout
        cases hd : decodeRecordBody body with
        | error e => exact hout
        | ok r =>
          have hr := (decodeRecordBody_fits hd (readFrame_length hf).2).2
          have hall : ∀ x ∈ out ++ [r], Sound x := by
            intro x hx
            rcases mem_append.mp hx with hx | hx
            · exact hout x hx
            · cases mem_singleton.mp hx
              exact hr
          dsimp only
          split
          · exact hall
          · exact ih _ _ _ _ hall

def batchBytes (rs : List Record) : Nat := (rs.map Record.encodedSize).sum

theorem batchBytes_append (rs ts : List Record) :
    batchBytes (rs ++ ts) = batchBytes rs + batchBytes ts := by
  rw [batchBytes, map_append, sum_append]
  rfl

theorem batchBytes_concat (rs : List Record) (r : Record) :
    batchBytes (rs ++ [r]) = batchBytes rs + (8 + r.bodyLen) := by
  rw [batchBytes_append]
  rfl

theorem FileSegment.readLoop_bytes (fromSeq : Nat) (fuel max : Nat) (bs : Bytes) (out : List Record)
    (hpos : 0 < maxBytes) (hb : bytesRead ≤ maxBytes) :
    27 * (batchBytes (readLoop fromSeq maxBytes fuel max bs bytesRead out).1 : Int) ≤
      27 * batchBytes out + 35 * (maxBytes - bytesRead) + 27 * (maxRecordSize + 8) := by
  induction fuel generalizing max bs bytesRead out with
  | zero =>
    cases max <;> simp only [readLoop] <;> omega
  | succ fuel ih =>
    cases max with
    | zero =>
      simp only [readLoop]
      omega
    | succ max =>
      unfold readLoop
      cases hf : readFrame recordBodyHeaderSize maxRecordSize bs with
      | eof | badLength | shortBody =>
        dsimp only
        omega
      | body sum body rest =>
        obtain ⟨hmin, hmax⟩ : 27 ≤ body.length ∧ body.length ≤ maxRecordSize := readFrame_length hf
        dsimp only
        split
        · dsimp only
          omega
        split
        · exact ih _ _ _ hb
        cases hd : decodeRecordBody body with
        | error e =>
          dsimp only
          omega
        | ok r =>
          have hfits := (decodeRecordBody_fits hd hmax).1
          have hone := batchBytes_concat out r
          dsimp only
          split
          · dsimp only
            omega
          · have hrest := ih max rest (out ++ [r])
              (show bytesRead + body.length ≤ maxBytes by omega)
            omega

theorem FileSegment.read_sound (s : FileSegment) (fromSeq maxRecords : Nat) (maxBytes : Int) :
    ∀ r ∈ (s.read fromSeq maxRecords maxBytes).1, Sound r := by
  unfold read
  dsimp only
  split
  · exact forall_mem_nil _
  · exact readLoop_sound _ _ _ _ _ _ _ (forall_mem_nil _)

theorem FileSegment.read_bytes (s : FileSegment) (fromSeq maxRecords : Nat) (hpos : 0 < maxBytes) :
    27 * (batchBytes (s.read fromSeq maxRecords maxBytes).1 : Int) ≤
      35 * maxBytes + 27 * (maxRecordSize + 8) := by
  unfold read
  dsimp only
  split
  · rw [show batchBytes [] = 0 from rfl]
    omega
  · have hloop := readLoop_bytes fromSeq (fileSection s.log (s.seekPos fromSeq) s.size).length
      maxRecords (fileSection s.log (s.seekPos fromSeq) s.size) [] hpos (Int.le_of_lt hpos)
    simpa [batchBytes] using hloop

namespace Partition

theorem read_cases [SegmentStore S] (p : Partition S) (fromSeq : Nat) (maxRecords maxBytes : Int) :
    (∃ e, p.read fromSeq maxRecords maxBytes = ([], some e)) ∨
    ∃ room n, p.read fromSeq maxRecords maxBytes = readLoop room maxBytes p.segments n [] 0 := by
  unfold Partition.read
  dsimp only
  generalize (if fromSeq = 0 then p.firstSeq else fromSeq) = n
  split
  · exact .inl ⟨_, rfl⟩
  split
  · exact .inl ⟨_, rfl⟩
  · exact .inr ⟨_, _, rfl⟩

theorem readLoop_sound (maxRecords : Nat) (maxBytes : Int) (segs : List FileSegment) (fromSeq : Nat)
    (out : List Record) (bytesRead : Int) (hout : ∀ r ∈ out, Sound r) :
    ∀ r ∈ (readLoop maxRecords maxBytes segs fromSeq out bytesRead).1, Sound r := by
  induction segs generalizing fromSeq out bytesRead with
  | nil => exact hout
  | cons seg rest ih =>
    unfold readLoop
    split
    · exact ih _ _ _ hout
    split
    · exact hout
    split
    · exact hout
    generalize hb : (if 0 < maxBytes then maxBytes - bytesRead else 0) = budget
    have hseg := seg.read_sound fromSeq (maxRecords - out.length) budget
    change ∀ r ∈ (SegmentStore.read seg fromSeq (maxRecords - out.length) budget).1, Sound r at hseg
    split
    · exact hout
    rename_i recs hrecs
    rw [hrecs] at hseg
    apply ih
    intro r hr
    rcases mem_append.mp hr with hr | hr
    · exact hout r hr
    · exact hseg r hr

theorem readFrom_sound (p : Partition FileSegment) (fromSeq : Nat) (maxRecords : Int) :
    ∀ r ∈ (p.readFrom fromSeq maxRecords).1, Sound r := by
  rcases p.read_cases fromSeq maxRecords (4 * 2 ^ 20) with ⟨e, he⟩ | ⟨room, n, hloop⟩
  · rw [readFrom, he]
    exact forall_mem_nil _
  · rw [readFrom, hloop]
    exact readLoop_sound _ _ _ _ _ _ (forall_mem_nil _)

theorem readLoop_bytes (maxRecords : Nat) (segs : List FileSegment) (fromSeq : Nat)
    (out : List Record) (hpos : 0 < maxBytes)
    (hout : 27 * (batchBytes out : Int) ≤ 35 * maxBytes + 27 * (maxRecordSize + 8)) :
    27 * (batchBytes (readLoop maxRecords maxBytes segs fromSeq out (batchBytes out)).1 : Int) ≤
      35 * maxBytes + 27 * (maxRecordSize + 8) := by
  induction segs generalizing fromSeq out with
  | nil => exact hout
  | cons seg rest ih =>
    unfold readLoop
    split
    · exact ih _ _ hout
    split
    · exact hout
    split
    · exact hout
    have hseg := seg.read_bytes fromSeq (maxRecords - out.length)
      (show 0 < maxBytes - batchBytes out by omega)
    change 27 * (batchBytes (SegmentStore.read seg fromSeq (maxRecords - out.length)
      (maxBytes - batchBytes out)).1 : Int) ≤ _ at hseg
    cases hread : SegmentStore.read seg fromSeq (maxRecords - out.length)
      (maxBytes - batchBytes out) with
    | mk recs e =>
      cases e with
      | some e => exact hout
      | none =>
        rw [hread] at hseg
        have hsum := batchBytes_append out recs
        have hspent : (batchBytes out : Int) + (recs.map Record.encodedSize).sum =
            batchBytes (out ++ recs) := by
          rw [hsum]
          exact (Int.natCast_add _ _).symm
        dsimp only at hseg ⊢
        rw [hspent]
        apply ih
        omega

theorem readFrom_bytes (p : Partition FileSegment) (fromSeq : Nat) (maxRecords : Int) :
    27 * batchBytes (p.readFrom fromSeq maxRecords).1 ≤
      35 * (4 * 2 ^ 20) + 27 * (maxRecordSize + 8) := by
  rcases p.read_cases fromSeq maxRecords (4 * 2 ^ 20) with ⟨e, he⟩ | ⟨room, n, hloop⟩
  · rw [readFrom, he]
    exact Nat.zero_le _
  · have hbytes := readLoop_bytes room p.segments n [] (by decide : (0 : Int) < 4 * 2 ^ 20)
      (by decide)
    rw [readFrom, hloop]
    exact Int.ofNat_le.mp hbytes

theorem length_le_batchBytes (rs : List Record) : rs.length ≤ batchBytes rs := by
  induction rs with
  | nil => exact Nat.zero_le _
  | cons r rs ih =>
    simp only [batchBytes, length_cons, map_cons, sum_cons, Record.encodedSize,
      recordFrameHeaderSize] at ih ⊢
    omega

theorem readFrom_count (p : Partition FileSegment) (fromSeq : Nat) (maxRecords : Int) :
    (p.readFrom fromSeq maxRecords).1.length < 256 ^ 4 := by
  have hbytes := p.readFrom_bytes fromSeq maxRecords
  have hlen := length_le_batchBytes (p.readFrom fromSeq maxRecords).1
  unfold maxRecordSize at hbytes
  omega

end Partition
end Boltq.Stream
