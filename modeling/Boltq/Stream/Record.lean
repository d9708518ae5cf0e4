import Boltq.Lib.Frames

namespace Boltq.Stream
open Lib List

inductive Err where
  | corruptRecord
  | recordTooLarge (bytes : Nat)
  | keyTooLong (bytes : Nat)
  | persistEphemeral
  | replicateEphemeral
  | noSequence
  | closed
  | notPartitionLeader (topic : String) (id : Int)
  | replicationGap (got expected : Nat)
  | seqTruncated (requested oldest : Nat)
  | epochOrder (epoch startSeq lastEpoch lastStart : Nat)
  | epochZero
  | epochNotNewer (epoch current : Nat)
  | cannotReassert (epoch current : Nat)
  | refuseTruncate (topic : String) (id : Int) (seq first : Nat)
  | appendReadOnly (baseSeq : Nat)
  | truncateReadOnly (baseSeq : Nat)
  | truncateTorn (pos : Int)
  deriving DecidableEq, Repr

def maxRecordSize : Nat := 8 * 2 ^ 20

/-- A header map, listed in the order an iteration over it visits. -/
@[ext] structure Headers where
  entries : List (Bytes × Bytes)
  distinct : (entries.map Prod.fst).Nodup
  deriving DecidableEq

def Headers.empty : Headers := ⟨[], by simp⟩

def Headers.set (h : Headers) (k v : Bytes) : Headers where
  entries := h.entries.filter (fun e => e.1 ≠ k) ++ [(k, v)]
  distinct := by
    rw [map_append, nodup_append]
    refine ⟨(h.distinct.sublist (filter_sublist.map Prod.fst)), by simp, ?_⟩
    intro a ha b hb
    obtain ⟨e, he, rfl⟩ := mem_map.mp ha
    simp only [map_cons, map_nil, mem_singleton] at hb
    subst hb
    simpa using (mem_filter.mp he).2

theorem Headers.set_new {h : Headers} (v : Bytes) (hk : k ∉ h.entries.map Prod.fst) :
    (h.set k v).entries = h.entries ++ [(k, v)] := by
  have hf : h.entries.filter (fun e => e.1 ≠ k) = h.entries := by
    apply filter_eq_self.mpr
    intro e he
    have hne : e.1 ≠ k := fun hx => hk (mem_map.mpr ⟨e, he, hx⟩)
    simpa using hne
  simp only [Headers.set, hf]

structure Record where
  seq : Nat
  timestamp : Int
  key : Bytes
  headers : Headers
  payload : Bytes
  flags : UInt8
  epoch : Nat
  deriving DecidableEq

def flagEphemeral : UInt8 := 2
def flagHasEpoch : UInt8 := 4

def recordFrameHeaderSize : Nat := 8
def recordBodyHeaderSize : Nat := 27
def recordEpochSize : Nat := 4

def encodeHeader (e : Bytes × Bytes) : Bytes :=
  le 2 e.1.length ++ e.1 ++ le 2 e.2.length ++ e.2

def encodeHeaders (h : Headers) : Bytes := stored encodeHeader h.entries

def nextHeader (buf : Bytes) : Option ((Bytes × Bytes) × Bytes) :=
  if buf.length < 2 then none
  else
    let kl := unle (buf.take 2)
    let buf := buf.drop 2
    if buf.length < kl + 2 then none
    else
      let k := buf.take kl
      let buf := buf.drop kl
      let vl := unle (buf.take 2)
      let buf := buf.drop 2
      if buf.length < vl then none
      else some ((k, buf.take vl), buf.drop vl)

def decodeHeaders (buf : Bytes) : Except Err Headers :=
  let (kvs, left) := scan nextHeader buf.length buf
  if left = [] then .ok (kvs.foldl (fun h e => h.set e.1 e.2) .empty)
  else .error .corruptRecord

section
variable (r : Record)

def Record.bodyHeaderSize : Nat :=
  if 0 < r.epoch then recordBodyHeaderSize + recordEpochSize else recordBodyHeaderSize

def Record.bodyLen : Nat :=
  r.bodyHeaderSize + r.key.length + (encodeHeaders r.headers).length + r.payload.length

def Record.encodedSize : Nat := recordFrameHeaderSize + r.bodyLen

def Record.wireFlags : UInt8 :=
  if 0 < r.epoch then r.flags ||| flagHasEpoch else r.flags &&& ~~~flagHasEpoch

def Record.body : Bytes :=
  le 8 r.seq ++ (le 8 (wordOfInt r.timestamp) ++ (r.wireFlags :: (le 2 r.key.length ++
    (le 4 (encodeHeaders r.headers).length ++ (le 4 r.payload.length ++
      ((if 0 < r.epoch then le 4 r.epoch else []) ++
        (r.key ++ (encodeHeaders r.headers ++ r.payload))))))))

def Record.encode : Except Err Bytes :=
  if r.bodyLen > maxRecordSize then .error (.recordTooLarge r.bodyLen)
  else if r.key.length > 0xFFFF then .error (.keyTooLong r.key.length)
  else .ok (frame r.body)

def field (off w : Nat) (body : Bytes) : Nat := unle ((body.drop off).take w)

def bodySeq (body : Bytes) : Nat := field 0 8 body

def decodeRecordBody (body : Bytes) : Except Err Record :=
  if body.length < recordBodyHeaderSize then .error .corruptRecord
  else
    let flags := (body.drop 16).headD 0
    let keyLen := field 17 2 body
    let hdrLen := field 19 4 body
    let payLen := field 23 4 body
    let hasEpoch := flags &&& flagHasEpoch ≠ 0
    let bodyHdr := if hasEpoch then recordBodyHeaderSize + recordEpochSize else recordBodyHeaderSize
    if hasEpoch ∧ body.length < bodyHdr then .error .corruptRecord
    else if bodyHdr + keyLen + hdrLen + payLen ≠ body.length then .error .corruptRecord
    else
      match decodeHeaders ((body.drop (bodyHdr + keyLen)).take hdrLen) with
      | .error e => .error e
      | .ok headers => .ok {
          seq := bodySeq body
          timestamp := intOfWord (field 8 8 body)
          flags := flags &&& ~~~flagHasEpoch
          epoch := if hasEpoch then field 27 4 body else 0
          key := (body.drop bodyHdr).take keyLen
          headers := headers
          payload := (body.drop (bodyHdr + keyLen + hdrLen)).take payLen }

def Record.ofPayload (payload : Bytes) : Record where
  seq := 0
  timestamp := 0
  key := []
  headers := .empty
  payload := payload
  flags := 0
  epoch := 0

def Record.canonical : Record := { r with flags := r.flags &&& ~~~flagHasEpoch }

def Record.Written : Prop :=
  r.flags &&& flagEphemeral = 0 ∧ ∃ bs, r.encode = .ok bs

@[simp] theorem canonical_seq : r.canonical.seq = r.seq := rfl

@[simp] theorem canonical_epoch : r.canonical.epoch = r.epoch := rfl

theorem flag_cleared (f g : UInt8) : (f ||| g) &&& ~~~g = f &&& ~~~g := by
  apply UInt8.eq_of_toBitVec_eq
  ext i hi
  simp only [UInt8.toBitVec_and, UInt8.toBitVec_or, UInt8.toBitVec_not, BitVec.getElem_and,
    BitVec.getElem_or, BitVec.getElem_not]
  cases f.toBitVec[i] <;> cases g.toBitVec[i] <;> rfl

theorem flag_clear_idem (f g : UInt8) : (f &&& ~~~g) &&& ~~~g = f &&& ~~~g := by
  rw [UInt8.and_assoc, UInt8.and_self]

@[simp] theorem canonical_canonical : r.canonical.canonical = r.canonical := by
  simp only [Record.canonical, flag_clear_idem]

theorem wireFlags_hasEpoch : r.wireFlags &&& flagHasEpoch ≠ 0 ↔ 0 < r.epoch := by
  unfold Record.wireFlags flagHasEpoch
  split
  · rename_i he
    refine ⟨fun _ => he, ?_⟩
    intro _ h
    have hb := congrArg (fun x : UInt8 => x.toBitVec.getLsbD 2) h
    simp at hb
  · rename_i he
    refine ⟨?_, fun h => absurd h he⟩
    intro h
    exact absurd (by rw [UInt8.and_assoc]; exact UInt8.and_zero) h

theorem wireFlags_cleared : r.wireFlags &&& ~~~flagHasEpoch = r.flags &&& ~~~flagHasEpoch := by
  unfold Record.wireFlags
  split
  · exact flag_cleared _ _
  · exact flag_clear_idem _ _

end

structure Record.InRange (r : Record) : Prop where
  seq : r.seq < 2 ^ 64
  timestamp_low : -2 ^ 63 ≤ r.timestamp
  timestamp_high : r.timestamp < 2 ^ 63
  epoch : r.epoch < 2 ^ 32

instance (r : Record) : Decidable r.InRange :=
  decidable_of_iff (r.seq < 2 ^ 64 ∧ -2 ^ 63 ≤ r.timestamp ∧ r.timestamp < 2 ^ 63 ∧ r.epoch < 2 ^ 32)
    ⟨fun ⟨a, b, c, d⟩ => ⟨a, b, c, d⟩, fun ⟨a, b, c, d⟩ => ⟨a, b, c, d⟩⟩

def Headers.Fit (h : Headers) : Prop :=
  ∀ e ∈ h.entries, e.1.length < 2 ^ 16 ∧ e.2.length < 2 ^ 16
  deriving Decidable

theorem nextHeader_encodeHeader (e : Bytes × Bytes) (rest : Bytes) (hk : e.1.length < 2 ^ 16)
    (hv : e.2.length < 2 ^ 16) : nextHeader (encodeHeader e ++ rest) = some (e, rest) := by
  obtain ⟨k, v⟩ := e
  have h2 : ∀ n, (le 2 n).length = 2 := length_le 2
  have hkl : unle (le 2 k.length) = k.length := unle_le_of_lt hk
  have hvl : unle (le 2 v.length) = v.length := unle_le_of_lt hv
  have htake : ∀ n (xs : Bytes), (le 2 n ++ xs).take 2 = le 2 n := fun n _ => take_left' (h2 n)
  have hdrop : ∀ n (xs : Bytes), (le 2 n ++ xs).drop 2 = xs := fun n _ => drop_left' (h2 n)
  have hbuf : encodeHeader (k, v) ++ rest =
      le 2 k.length ++ (k ++ (le 2 v.length ++ (v ++ rest))) := by
    simp only [encodeHeader, append_assoc]
  rw [hbuf, nextHeader, if_neg (by rw [length_append, h2]; omega)]
  simp only [htake, hdrop, hkl]
  rw [if_neg (by simp only [length_append, h2]; omega)]
  simp only [take_left, drop_left, htake, hdrop, hvl]
  rw [if_neg (by rw [length_append]; omega)]

theorem encodeHeader_ne_nil (e : Bytes × Bytes) : encodeHeader e ≠ [] := by
  intro h
  have := congrArg length h
  simp [encodeHeader] at this

theorem set_all (h : Headers) (es : List (Bytes × Bytes))
    (hd : ((h.entries ++ es).map Prod.fst).Nodup) :
    (es.foldl (fun h e => h.set e.1 e.2) h).entries = h.entries ++ es := by
  induction es generalizing h with
  | nil => simp
  | cons e es ih =>
    have hn : e.1 ∉ h.entries.map Prod.fst := by
      rw [map_append, nodup_append] at hd
      intro hm
      exact hd.2.2 e.1 hm e.1 (by simp) rfl
    have hs := Headers.set_new e.2 hn
    rw [foldl_cons, ih (h.set e.1 e.2) (by simpa [hs] using hd), hs]
    simp

theorem decodeHeaders_encodeHeaders (h : Headers) (hf : h.Fit) :
    decodeHeaders (encodeHeaders h) = .ok h := by
  have hlen : h.entries.length ≤ (encodeHeaders h).length :=
    length_le_stored (fun e _ => encodeHeader_ne_nil e)
  have hs := scan_stored encodeHeader nextHeader h.entries [] (encodeHeaders h).length hlen
    (fun e he rest => nextHeader_encodeHeader e rest (hf e he).1 (hf e he).2) (by simp [nextHeader])
  rw [append_nil] at hs
  have ha := set_all .empty h.entries (by simpa [Headers.empty] using h.distinct)
  unfold decodeHeaders
  rw [show stored encodeHeader h.entries = encodeHeaders h from rfl] at hs
  rw [hs]
  simp only [↓reduceIte, Except.ok.injEq]
  exact Headers.ext ha

theorem length_body (r : Record) : r.body.length = r.bodyLen := by
  unfold Record.body Record.bodyLen Record.bodyHeaderSize recordBodyHeaderSize recordEpochSize
  split
  all_goals
    simp only [length_append, length_cons, length_le, length_nil]
    omega

theorem encode_ok {r : Record} (h : r.encode = .ok bs) :
    bs = frame r.body ∧ r.bodyLen ≤ maxRecordSize ∧ r.key.length ≤ 0xFFFF := by
  unfold Record.encode at h
  split at h
  · cases h
  split at h
  · cases h
  · cases h
    exact ⟨rfl, by omega, by omega⟩

theorem encode_of_sizes {r : Record} (hl : r.bodyLen ≤ maxRecordSize)
    (hk : r.key.length ≤ 0xFFFF) : r.encode = .ok (frame r.body) := by
  unfold Record.encode
  rw [if_neg (by omega), if_neg (by omega)]

theorem length_encode {r : Record} (h : r.encode = .ok bs) : bs.length = r.encodedSize := by
  rw [(encode_ok h).1, length_frame, length_body]
  rfl

theorem bodyLen_ge (r : Record) : recordBodyHeaderSize ≤ r.bodyLen := by
  unfold Record.bodyLen Record.bodyHeaderSize recordBodyHeaderSize
  split <;> omega

theorem bodySeq_body {r : Record} (h : r.seq < 2 ^ 64) (rest : Bytes) :
    bodySeq (r.body ++ rest) = r.seq := by
  simp [bodySeq, field, Record.body, unle_le_of_lt (w := 8) h]

theorem body_fields {r : Record} (hr : r.InRange) (hk : r.key.length ≤ 0xFFFF)
    (hl : r.bodyLen ≤ maxRecordSize) :
    (r.body.drop 16).headD 0 = r.wireFlags ∧ field 17 2 r.body = r.key.length ∧
    field 19 4 r.body = (encodeHeaders r.headers).length ∧
    field 23 4 r.body = r.payload.length ∧ bodySeq r.body = r.seq ∧
    intOfWord (field 8 8 r.body) = r.timestamp := by
  have hlen : ∀ w n, (le w n).length = w := length_le
  have hh : (encodeHeaders r.headers).length < 256 ^ 4 ∧ r.payload.length < 256 ^ 4 := by
    unfold Record.bodyLen maxRecordSize at hl
    omega
  have hts : intOfWord (wordOfInt r.timestamp) = r.timestamp :=
    int_of_word_of_int hr.timestamp_low hr.timestamp_high
  refine ⟨?_, ?_, ?_, ?_, ?_, ?_⟩
  · simp [Record.body]
  · simp [field, Record.body, unle_le_of_lt (w := 2) (n := r.key.length) (by omega)]
  · simp [field, Record.body, unle_le_of_lt hh.1]
  · simp [field, Record.body, unle_le_of_lt hh.2]
  · simpa using bodySeq_body hr.seq []
  · simp [field, Record.body, unle_le_of_lt (wordOfInt_lt _), hts]

theorem body_epoch {r : Record} (hr : r.InRange) (he : 0 < r.epoch) :
    field 27 4 r.body = r.epoch := by
  simp [field, Record.body, he, unle_le_of_lt (w := 4) hr.epoch]

theorem drop_body (r : Record) :
    r.body.drop r.bodyHeaderSize = r.key ++ (encodeHeaders r.headers ++ r.payload) := by
  unfold Record.bodyHeaderSize recordBodyHeaderSize recordEpochSize
  split
  · rename_i he
    simp [Record.body, he]
  · rename_i he
    simp [Record.body, he]

theorem decodeRecordBody_headers {r : Record} (hr : r.InRange) (hk : r.key.length ≤ 0xFFFF)
    (hl : r.bodyLen ≤ maxRecordSize) :
    decodeRecordBody r.body = (decodeHeaders (encodeHeaders r.headers)).map
      (fun headers => { r.canonical with headers }) := by
  obtain ⟨hf, hkl, hhl, hpl, hs, ht⟩ := body_fields hr hk hl
  have hge := bodyLen_ge r
  have hsize : (if 0 < r.epoch then recordBodyHeaderSize + recordEpochSize
      else recordBodyHeaderSize) = r.bodyHeaderSize := rfl
  have hdrop : ∀ n, r.body.drop (r.bodyHeaderSize + n) =
      (r.key ++ (encodeHeaders r.headers ++ r.payload)).drop n := by
    intro n
    rw [← drop_drop, drop_body]
  have hbh : r.bodyHeaderSize ≤ r.bodyLen := by
    unfold Record.bodyLen
    omega
  have hhd : ((r.body.drop (r.bodyHeaderSize + r.key.length)).take
      (encodeHeaders r.headers).length) = encodeHeaders r.headers := by
    rw [hdrop, drop_left, take_left]
  have hpd : (r.body.drop (r.bodyHeaderSize + r.key.length + (encodeHeaders r.headers).length)).take
      r.payload.length = r.payload := by
    rw [Nat.add_assoc, hdrop, ← drop_drop, drop_left, drop_left, take_length]
  have hep : (if 0 < r.epoch then field 27 4 r.body else 0) = r.epoch := by
    split
    · exact body_epoch hr ‹_›
    · omega
  have hkd : (r.body.drop r.bodyHeaderSize).take r.key.length = r.key := by
    rw [drop_body, take_left]
  unfold decodeRecordBody
  simp only [hf, hkl, hhl, hpl, hs, ht, wireFlags_hasEpoch, length_body, hsize,
    wireFlags_cleared, hhd, hpd, hep, hkd]
  rw [if_neg (by omega), if_neg (by omega), if_neg (by unfold Record.bodyLen; omega)]
  cases decodeHeaders (encodeHeaders r.headers) with
  | error e => rfl
  | ok headers => rfl

theorem decodeRecordBody_body {r : Record} (hr : r.InRange) (hh : r.headers.Fit)
    (hk : r.key.length ≤ 0xFFFF) (hl : r.bodyLen ≤ maxRecordSize) :
    decodeRecordBody r.body = .ok r.canonical := by
  rw [decodeRecordBody_headers hr hk hl, decodeHeaders_encodeHeaders _ hh]
  rfl

end Boltq.Stream
