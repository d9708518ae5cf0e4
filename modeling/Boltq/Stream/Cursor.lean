import Boltq.Lib.Digits
import Boltq.Lib.Replay
import Boltq.Stream.Record

namespace Boltq.Stream
open Lib Std List

structure CursorKey where
  topic : Bytes
  partition : Int
  group : Bytes
  member : Bytes
  deriving DecidableEq

def signedDecimal (i : Int) : Bytes := if i < 0 then 45 :: decimal i.natAbs else decimal i.natAbs

def CursorKey.string (k : CursorKey) : Bytes :=
  k.topic ++ 0 :: (signedDecimal k.partition ++ 0 :: (k.group ++ 0 :: k.member))

def readerOf (topic : UInt8) : CursorKey := ⟨[topic], 0, [103], []⟩

def minCursorBody : Nat := 10
def maxCursorBody : Nat := 64 * 2 ^ 10

def cursorBody (key : Bytes) (seq : Nat) : Bytes := le 8 seq ++ (le 2 key.length ++ key)

def encodeCursorRecord (r : Bytes × Nat) : Bytes := frame (cursorBody r.1 r.2)

def readCursorRecord (bs : Bytes) : Option ((Bytes × Nat) × Bytes) :=
  match readFrame minCursorBody maxCursorBody bs with
  | .body sum body rest =>
    if crc32 body ≠ sum then none
    else if 10 + unle ((body.drop 8).take 2) ≠ body.length then none
    else some ((body.drop 10, unle (body.take 8)), rest)
  | _ => none

def cursorRecords (file : Bytes) : List (Bytes × Nat) := (scan readCursorRecord file.length file).1

def loadCursors (file : Bytes) : TreeMap Bytes Nat := replay (cursorRecords file)

def bufferedWrite (cap : Nat) (file buffer bs : Bytes) : Bytes × Bytes :=
  if bs.length ≤ cap - buffer.length then (file, buffer ++ bs)
  else if buffer = [] then (file ++ bs, [])
  else
    let n := cap - buffer.length
    if (bs.drop n).length ≤ cap then (file ++ (buffer ++ bs.take n), bs.drop n)
    else (file ++ (buffer ++ bs), [])

theorem bufferedWrite_spec (cap : Nat) (file buffer bs : Bytes) :
    file <+: (bufferedWrite cap file buffer bs).1 ∧
    (bufferedWrite cap file buffer bs).1 ++ (bufferedWrite cap file buffer bs).2 =
      file ++ (buffer ++ bs) := by
  unfold bufferedWrite
  split
  · exact ⟨prefix_rfl, rfl⟩
  split
  · rename_i hb
    subst hb
    exact ⟨prefix_append _ _, append_nil _⟩
  dsimp only
  split
  · refine ⟨prefix_append _ _, ?_⟩
    rw [append_assoc, append_assoc, take_append_drop]
  · exact ⟨prefix_append _ _, append_nil _⟩

structure CursorStore where
  positions : TreeMap Bytes Nat := ∅
  file : Bytes
  buffer : Bytes := []
  closed : Bool := false

def openCursorStore (file : Bytes) : CursorStore := { positions := loadCursors file, file }

namespace CursorStore

def writerSize : Nat := 64 * 2 ^ 10

section
variable (c : CursorStore)

def write (bs : Bytes) : CursorStore :=
  let (file, buffer) := bufferedWrite writerSize c.file c.buffer bs
  { c with file, buffer }

def written : Bytes := c.file ++ c.buffer

def passOn : CursorStore := { c with file := c.written, buffer := [] }

def Moves (key : CursorKey) (seq : Nat) : Prop :=
  c.closed = false ∧ ∀ cur ∈ c.positions[key.string]?, cur < seq
  deriving Decidable

def commit (key : CursorKey) (seq : Nat) : CursorStore × Option Err :=
  if c.closed then (c, some .closed)
  else if c.positions[key.string]?.any (fun cur => decide (seq ≤ cur)) then (c, none)
  else
    ({ c with positions := c.positions.insert key.string seq }.write
      (encodeCursorRecord (key.string, seq)), none)

def position (key : CursorKey) : Option Nat := c.positions[key.string]?

def flush : CursorStore := if c.closed then c else c.passOn

def close : CursorStore :=
  if c.closed then c else { c.passOn with closed := true }

def compactBegin : Except Err (CursorStore × TreeMap Bytes Nat) :=
  if c.closed then .error .closed else .ok (c.passOn, c.positions)

def compacted (snapshot : TreeMap Bytes Nat) : Bytes := stored encodeCursorRecord snapshot.toList

def missed (snapshot : TreeMap Bytes Nat) : List (Bytes × Nat) :=
  c.positions.toList.filter (fun r => decide (snapshot[r.1]? ≠ some r.2))

def compactSwap (snapshot : TreeMap Bytes Nat) (file : Bytes) : CursorStore :=
  ((c.missed snapshot).foldl (fun (c : CursorStore) r => c.write (encodeCursorRecord r))
    { c with file, buffer := [] }).passOn

def compact : CursorStore × Option Err :=
  match c.compactBegin with
  | .error e => (c, some e)
  | .ok (c, snapshot) => (c.compactSwap snapshot (compacted snapshot), none)

def remove (key : CursorKey) : Except Err (CursorStore × Bool) :=
  if c.closed then .error .closed
  else if key.string ∈ c.positions then
    .ok ({ c with positions := c.positions.erase key.string }, true)
  else .ok (c, false)

def delete (key : CursorKey) : CursorStore × Option Err :=
  match c.remove key with
  | .error e => (c, some e)
  | .ok (c, true) => c.compact
  | .ok (c, false) => (c, none)

theorem write_written (bs : Bytes) : (c.write bs).written = c.written ++ bs := by
  have h := (bufferedWrite_spec writerSize c.file c.buffer bs).2
  unfold write written
  dsimp only
  rw [h, append_assoc]

theorem write_grows (bs : Bytes) : c.file <+: (c.write bs).file :=
  (bufferedWrite_spec writerSize c.file c.buffer bs).1

end

theorem commit_moves {c : CursorStore} (h : c.Moves key seq) :
    c.commit key seq = ({ c with positions := c.positions.insert key.string seq }.write
      (encodeCursorRecord (key.string, seq)), none) := by
  obtain ⟨hc, hlt⟩ := h
  unfold commit
  rw [if_neg (by simp [hc]), if_neg]
  intro hany
  obtain ⟨cur, hcur, hle⟩ := (Option.any_eq_true _ _).mp hany
  exact absurd (of_decide_eq_true hle) (Nat.not_le_of_lt (hlt cur hcur))

theorem commit_stays {c : CursorStore} (h : ¬ c.Moves key seq) : (c.commit key seq).1 = c := by
  unfold commit
  split
  · rfl
  split
  · rfl
  rename_i hc hany
  refine absurd ⟨by simpa using hc, ?_⟩ h
  intro cur hcur
  apply Nat.lt_of_not_le
  intro hle
  exact hany ((Option.any_eq_true _ _).mpr ⟨cur, hcur, decide_eq_true hle⟩)

theorem compactSwap_eq (c : CursorStore) (snapshot : TreeMap Bytes Nat) (file : Bytes) :
    c.compactSwap snapshot file =
      { c with file := file ++ stored encodeCursorRecord (c.missed snapshot), buffer := [] } := by
  have hfold : ∀ (rs : List (Bytes × Nat)) (c : CursorStore),
      (rs.foldl (fun (c : CursorStore) r => c.write (encodeCursorRecord r)) c).passOn =
        { c with file := c.written ++ stored encodeCursorRecord rs, buffer := [] } := by
    intro rs
    induction rs with
    | nil =>
      intro c
      rw [stored_nil, append_nil]
      rfl
    | cons r rs ih =>
      intro c
      rw [foldl_cons, ih, write_written, stored_cons, append_assoc]
      rfl
  unfold compactSwap
  rw [hfold]
  simp only [written, append_nil]

theorem compact_eq {c : CursorStore} (h : c.closed = false) :
    c.compact = ({ c with file := compacted c.positions, buffer := [] }, none) := by
  have hnone : c.passOn.missed c.positions = [] := by
    apply filter_eq_nil_iff.mpr
    intro r hr
    rw [decide_eq_true_eq, not_not]
    exact TreeMap.mem_toList_iff_getElem?_eq_some.mp hr
  unfold compact compactBegin
  rw [if_neg (by simp [h])]
  dsimp only
  rw [compactSwap_eq, hnone, stored_nil, append_nil]
  rfl

end CursorStore

structure CursorFits (r : Bytes × Nat) : Prop where
  key : r.1.length ≤ 65526
  seq : r.2 < 2 ^ 64

theorem cursorBody_length (key : Bytes) (seq : Nat) :
    (cursorBody key seq).length = 10 + key.length := by
  simp only [cursorBody, length_append, length_le]
  omega

theorem encodeCursorRecord_ne_nil (r : Bytes × Nat) : encodeCursorRecord r ≠ [] := frame_ne_nil _

theorem readCursorRecord_encode (h : CursorFits r) (rest : Bytes) :
    readCursorRecord (encodeCursorRecord r ++ rest) = some (r, rest) := by
  obtain ⟨key, seq⟩ := r
  have hk : key.length ≤ 65526 := h.key
  have hs : seq < 2 ^ 64 := h.seq
  have hlen := cursorBody_length key seq
  unfold readCursorRecord encodeCursorRecord
  rw [readFrame_frame _ _ (by rw [hlen]; unfold minCursorBody; omega)
    (by rw [hlen]; unfold maxCursorBody; omega) (by decide)]
  dsimp only
  have hkey : unle (((cursorBody key seq).drop 8).take 2) = key.length := by
    unfold cursorBody
    rw [drop_le_append _ _ (Nat.le_refl 8), Nat.sub_self, drop_zero,
      take_append_of_le_length (by simp), take_of_length_le (by simp),
      unle_le_of_lt (by omega)]
  have hseq : unle ((cursorBody key seq).take 8) = seq := by
    unfold cursorBody
    rw [take_append_of_le_length (by simp), take_of_length_le (by simp),
      unle_le_of_lt (by omega)]
  have hdrop : (cursorBody key seq).drop 10 = key := by
    unfold cursorBody
    rw [drop_le_append _ _ (by omega), drop_le_append _ _ (by omega)]
    rfl
  rw [if_neg (by simp), hkey, if_neg (by rw [hlen]; simp), hdrop, hseq]

theorem readCursorRecord_cut (h : CursorFits r) (ht : t <+: encodeCursorRecord r)
    (hne : t ≠ encodeCursorRecord r) : readCursorRecord t = none := by
  have hk := h.key
  have hlen := cursorBody_length r.1 r.2
  have hcut : readFrame minCursorBody maxCursorBody t = .eof ∨
      readFrame minCursorBody maxCursorBody t = .shortBody :=
    readFrame_cut (cursorBody r.1 r.2) t (by rw [hlen]; unfold minCursorBody; omega)
      (by rw [hlen]; unfold maxCursorBody; omega) (by decide) ht hne
  unfold readCursorRecord
  rcases hcut with he | he
  · rw [he]
  · rw [he]

theorem cursorRecords_stored (h : ∀ r ∈ rs, CursorFits r) (ht : readCursorRecord t = none) :
    cursorRecords (stored encodeCursorRecord rs ++ t) = rs := by
  unfold cursorRecords
  rw [scan_stored encodeCursorRecord readCursorRecord rs t]
  · have hle := length_le_stored (fun r (_ : r ∈ rs) => encodeCursorRecord_ne_nil r)
    rw [length_append]
    omega
  · exact fun r hr rest => readCursorRecord_encode (h r hr) rest
  · exact ht

theorem readCursorRecord_fits (h : readCursorRecord bs = some (r, rest)) : CursorFits r := by
  unfold readCursorRecord at h
  split at h
  case h_2 => cases h
  rename_i sum body rest' hf
  split at h
  · cases h
  split at h
  · cases h
  cases h
  have hlen := readFrame_length hf
  have hseq := unle_lt (body.take 8)
  have h8 : (body.take 8).length ≤ 8 := length_take_le _ _
  have hpow : 256 ^ (body.take 8).length ≤ 256 ^ 8 := Nat.pow_le_pow_right (by decide) h8
  refine ⟨?_, ?_⟩
  · rw [length_drop]
    unfold maxCursorBody at hlen
    omega
  · exact Nat.lt_of_lt_of_le hseq hpow

end Boltq.Stream
