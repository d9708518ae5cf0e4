import Boltq.Lib.Run
import Boltq.Stream.Cursor

namespace Boltq.Stream
open Lib Std List CursorStore

inductive Chunk where
  | record (r : Bytes × Nat)
  | torn (bs : Bytes)
  deriving DecidableEq

namespace Chunk

def bytes : Chunk → Bytes
  | .record r => encodeCursorRecord r
  | .torn bs => bs

def intact : List Chunk → List (Bytes × Nat)
  | [] => []
  | .record r :: cs => r :: intact cs
  | .torn _ :: cs => intact cs

def cutAt : Nat → List Chunk → List Chunk
  | _, [] => []
  | n, c :: cs =>
    if c.bytes.length ≤ n then c :: cutAt (n - c.bytes.length) cs
    else if n = 0 then []
    else [.torn (c.bytes.take n)]

def Whole (cs : List Chunk) : Prop := ∀ c ∈ cs, ∀ bs, c ≠ .torn bs

instance (cs : List Chunk) : Decidable (Whole cs) :=
  decidable_of_iff (cs.all (fun c => match c with | .record _ => true | .torn _ => false) = true) (by
    rw [all_eq_true]
    apply forall₂_congr
    intro c _
    cases c <;> simp)

def Part (t : Bytes) : Prop :=
  ∃ r, CursorFits r ∧ t <+: encodeCursorRecord r ∧ t ≠ encodeCursorRecord r

inductive Shaped : List Chunk → Prop where
  | nil : Shaped []
  | torn (t : Bytes) (part : Part t) : Shaped [.torn t]
  | record (r : Bytes × Nat) (cs : List Chunk) (fits : CursorFits r) (rest : Shaped cs) :
      Shaped (.record r :: cs)

variable {cs : List Chunk} {r : Bytes × Nat}

@[simp] theorem intact_append (cs ds : List Chunk) : intact (cs ++ ds) = intact cs ++ intact ds := by
  induction cs with
  | nil => rfl
  | cons c cs ih => cases c <;> simp [intact, ih]

@[simp] theorem intact_records (rs : List (Bytes × Nat)) : intact (rs.map .record) = rs := by
  induction rs with
  | nil => rfl
  | cons r rs ih => simp [intact, ih]

theorem stored_records (rs : List (Bytes × Nat)) :
    stored bytes (rs.map .record) = stored encodeCursorRecord rs := stored_map _ _

theorem stored_cutAt (n : Nat) (cs : List Chunk) :
    stored bytes (cutAt n cs) = (stored bytes cs).take n := by
  induction cs generalizing n with
  | nil => simp [cutAt]
  | cons c cs ih =>
    unfold cutAt
    split
    · rename_i hn
      rw [stored_cons, ih, stored_cons, take_append, take_of_length_le hn]
    rw [stored_cons, take_append, Nat.sub_eq_zero_of_le (by omega), take_zero,
      append_nil]
    split
    · rename_i h0
      rw [h0]
      rfl
    · simp [bytes]

theorem cutAt_all (h : (stored bytes cs).length ≤ n) : cutAt n cs = cs := by
  induction cs generalizing n with
  | nil => rfl
  | cons c cs ih =>
    rw [stored_cons, length_append] at h
    rw [cutAt, if_pos (by omega), ih (by omega)]

theorem intact_cutAt_mono (h : n ≤ m) (cs ds : List Chunk) :
    intact (cutAt n cs) <+: intact (cutAt m (cs ++ ds)) := by
  induction cs generalizing n m with
  | nil => exact nil_prefix
  | cons c cs ih =>
    rw [cons_append]
    unfold cutAt
    by_cases hc : c.bytes.length ≤ n
    · rw [if_pos hc, if_pos (by omega)]
      have hrest := ih (n := n - c.bytes.length) (m := m - c.bytes.length) (by omega)
      cases c with
      | record r => exact cons_prefix_cons.mpr ⟨rfl, hrest⟩
      | torn bs => exact hrest
    · rw [if_neg hc]
      split <;> exact nil_prefix

theorem intact_cutAt (n : Nat) (cs : List Chunk) : intact (cutAt n cs) <+: intact cs := by
  have h := intact_cutAt_mono (Nat.le_max_left n (stored bytes cs).length) cs []
  rwa [append_nil, cutAt_all (Nat.le_max_right _ _)] at h

theorem Part.take (h : Part t) (n : Nat) : Part (t.take n) := by
  obtain ⟨r, hf, hp, hne⟩ := h
  refine ⟨r, hf, (List.take_prefix n t).trans hp, ?_⟩
  intro he
  exact hne (List.IsPrefix.eq_of_length_le hp (by
    rw [← he]
    exact length_take_le' n t))

theorem Part.unreadable (h : Part t) : readCursorRecord t = none := by
  obtain ⟨r, hf, hp, hne⟩ := h
  exact readCursorRecord_cut hf hp hne

theorem Shaped.cutAt (h : Shaped cs) (n : Nat) : Shaped (cutAt n cs) := by
  induction h generalizing n with
  | nil => exact .nil
  | torn t part =>
    unfold Chunk.cutAt
    split
    · exact .torn t part
    split
    · exact .nil
    · exact .torn _ (part.take n)
  | record r cs fits rest ih =>
    unfold Chunk.cutAt
    split
    · exact .record r _ fits (ih _)
    split
    · exact .nil
    rename_i hn _
    refine .torn _ ⟨r, fits, take_prefix n _, ?_⟩
    intro he
    have hlen := congrArg length he
    rw [length_take] at hlen
    simp only [bytes] at hn
    omega

theorem Shaped.fits (h : Shaped cs) : ∀ r ∈ intact cs, CursorFits r := by
  induction h with
  | nil => exact fun _ hr => absurd hr not_mem_nil
  | torn t part => exact fun _ hr => absurd hr not_mem_nil
  | record r cs fits rest ih =>
    intro x hx
    rcases mem_cons.mp hx with rfl | hx
    · exact fits
    · exact ih x hx

theorem Shaped.of_records {rs : List (Bytes × Nat)} (h : ∀ r ∈ rs, CursorFits r) :
    Shaped (rs.map .record) := by
  induction rs with
  | nil => exact .nil
  | cons r rs ih =>
    exact .record r _ (h r mem_cons_self) (ih (fun x hx => h x (mem_cons_of_mem r hx)))

theorem Shaped.snoc (h : Shaped cs) (hw : Whole cs) (hr : CursorFits r) : Shaped (cs ++ [.record r]) := by
  induction h with
  | nil => exact .record r [] hr .nil
  | torn t part => exact absurd rfl (hw _ mem_cons_self t)
  | record x cs fits rest ih =>
    exact .record x _ fits (ih (fun c hc => hw c (mem_cons_of_mem _ hc)))

theorem Shaped.read (h : Shaped cs) : cursorRecords (stored bytes cs) = intact cs := by
  have hsplit : ∃ t, stored bytes cs = stored encodeCursorRecord (intact cs) ++ t ∧
      readCursorRecord t = none := by
    induction h with
    | nil => exact ⟨[], rfl, rfl⟩
    | torn t part => exact ⟨t, by simp [bytes, intact], part.unreadable⟩
    | record r cs fits rest ih =>
      obtain ⟨t, ht, hn⟩ := ih
      refine ⟨t, ?_, hn⟩
      rw [stored_cons, ht, intact, stored_cons, append_assoc]
      rfl
  obtain ⟨t, ht, hn⟩ := hsplit
  rw [ht, cursorRecords_stored h.fits hn]

end Chunk

structure CursorLog where
  store : CursorStore
  chunks : List Chunk

namespace CursorLog
open Chunk

inductive Op where
  | reopen
  | commit (key : CursorKey) (seq : UInt64)
  | delete (key : CursorKey)
  | compact
  | flush
  | close
  | crash (n : Nat)

def recordsOf (positions : TreeMap Bytes Nat) : List Chunk := positions.toList.map .record

def step (w : CursorLog) : Op → Option CursorLog
  | .reopen => if w.store.closed then some { w with store := openCursorStore w.store.file } else none
  | .commit key seq => some
    { store := (w.store.commit key seq.toNat).1
      chunks := if w.store.Moves key seq.toNat then w.chunks ++ [.record (key.string, seq.toNat)]
        else w.chunks }
  | .delete key => some
    { store := (w.store.delete key).1
      chunks := if w.store.closed = false ∧ key.string ∈ w.store.positions then
          recordsOf (w.store.positions.erase key.string)
        else w.chunks }
  | .compact => some
    { store := w.store.compact.1
      chunks := if w.store.closed then w.chunks else recordsOf w.store.positions }
  | .flush => some { w with store := w.store.flush }
  | .close => some { w with store := w.store.close }
  | .crash n => some
    { store := { file := w.store.file.take n, closed := true }
      chunks := cutAt (min n w.store.file.length) w.chunks }

def Step (w : CursorLog) (op : Op) (w' : CursorLog) : Prop := w.step op = some w'

/-- A commit's key fits, and the file has no torn record. -/
def Safe (w : CursorLog) : Op → Prop
  | .commit key seq =>
    w.store.Moves key seq.toNat → key.string.length ≤ 65526 ∧ Whole w.chunks
  | _ => True

instance (w : CursorLog) (op : Op) : Decidable (w.Safe op) := by
  unfold Safe
  split <;> infer_instance

def Spares (k : Bytes) (w : CursorLog) : Op → Prop
  | .delete key => key.string ≠ k
  | .crash n => w.store.file.length ≤ n
  | _ => True

instance (k : Bytes) (w : CursorLog) (op : Op) : Decidable (Spares k w op) := by
  unfold Spares
  split <;> infer_instance

structure Inv (w : CursorLog) : Prop where
  bytes : w.store.written = stored bytes w.chunks
  shaped : Shaped w.chunks
  rising : Rising (intact w.chunks)
  memory : w.store.closed = false → ∀ k, w.store.positions[k]? = latest k (intact w.chunks)
  shut : w.store.closed = true → w.store.buffer = []

variable {w w' : CursorLog} {k : Bytes}

theorem Inv.rewritten {c : CursorStore} (hf : c.file = compacted c.positions)
    (hb : c.buffer = []) (hc : c.closed = false)
    (hfits : ∀ k v, c.positions[k]? = some v → CursorFits (k, v)) :
    Inv ⟨c, recordsOf c.positions⟩ where
  bytes := by
    unfold written recordsOf
    rw [hf, hb, append_nil, stored_records]
    rfl
  shaped := .of_records (fun r hr => hfits r.1 r.2 (TreeMap.mem_toList_iff_getElem?_eq_some.mp hr))
  rising := by
    unfold recordsOf
    rw [intact_records]
    exact .toList _
  memory := by
    intro _ k
    unfold recordsOf
    rw [intact_records, latest_toList]
  shut := fun h => absurd h (by simp [hc])

theorem Inv.fits (h : Inv w) (hc : w.store.closed = false) (hk : w.store.positions[k]? = some v) :
    CursorFits (k, v) :=
  h.shaped.fits _ (mem_of_latest ((h.memory hc k).symm.trans hk))

theorem Inv.commit (h : Inv w) (hs : w.Safe (.commit key seq)) (ht : w.Step (.commit key seq) w') :
    Inv w' := by
  cases ht
  by_cases hm : w.store.Moves key seq.toNat
  · obtain ⟨hk, hw⟩ := hs hm
    have hfits : CursorFits (key.string, seq.toNat) := ⟨hk, seq.toNat_lt⟩
    rw [if_pos hm, commit_moves hm]
    refine ⟨?_, h.shaped.snoc hw hfits, ?_, ?_, fun hc => absurd hc (by simp [write, hm.1])⟩
    · rw [write_written, stored_append]
      show w.store.written ++ _ = _
      rw [h.bytes]
      simp [Chunk.bytes]
    · rw [intact_append]
      exact h.rising.snoc (fun b hb => hm.2 b ((h.memory hm.1 _).trans hb))
    · intro hc k
      show (w.store.positions.insert key.string seq.toNat)[k]? = _
      rw [intact_append, latest_append]
      by_cases he : key.string = k
      · subst he
        simp [intact, latest]
      · rw [getElem?_insert_other _ (Ne.symm he), h.memory hm.1 k]
        simp [intact, latest, he]
  · rw [if_neg hm, commit_stays hm]
    exact h

theorem compact_stays {c : CursorStore} (hc : c.closed = true) : c.compact.1 = c := by
  simp [compact, compactBegin, hc]

theorem Inv.compact (h : Inv w) (ht : w.Step .compact w') : Inv w' := by
  cases ht
  by_cases hc : w.store.closed
  · rw [if_pos hc, compact_stays hc]
    exact h
  · rw [Bool.not_eq_true] at hc
    rw [if_neg (by simp [hc]), compact_eq hc]
    exact .rewritten rfl rfl hc (fun k v hk => h.fits hc hk)

theorem delete_eq {c : CursorStore} {key : CursorKey} (hc : c.closed = false)
    (hk : key.string ∈ c.positions) :
    (c.delete key).1 = { c with
      positions := c.positions.erase key.string
      file := compacted (c.positions.erase key.string)
      buffer := [] } := by
  unfold delete remove
  rw [if_neg (by simp [hc]), if_pos hk]
  exact congrArg Prod.fst (compact_eq
    (c := { c with positions := c.positions.erase key.string }) hc)

theorem delete_stays {c : CursorStore} {key : CursorKey}
    (h : ¬ (c.closed = false ∧ key.string ∈ c.positions)) : (c.delete key).1 = c := by
  unfold delete remove
  by_cases hc : c.closed
  · rw [if_pos hc]
  · rw [if_neg hc, if_neg (fun hk => h ⟨by simpa using hc, hk⟩)]

theorem Inv.delete (h : Inv w) (ht : w.Step (.delete key) w') : Inv w' := by
  cases ht
  by_cases hk : w.store.closed = false ∧ key.string ∈ w.store.positions
  · rw [if_pos hk, delete_eq hk.1 hk.2]
    exact .rewritten rfl rfl hk.1 (fun k v hv => h.fits hk.1 (getElem?_of_erase hv))
  · rw [if_neg hk, delete_stays hk]
    exact h

theorem Inv.file_eq (h : Inv w) (hn : n ≤ w.store.file.length) :
    w.store.file.take n = (stored Chunk.bytes w.chunks).take n := by
  rw [← h.bytes, written, take_append_of_le_length hn]

theorem Inv.crash (h : Inv w) (ht : w.Step (.crash n) w') : Inv w' := by
  cases ht
  refine ⟨?_, h.shaped.cutAt _, ?_, fun hc => absurd hc (by simp), fun _ => rfl⟩
  · rw [stored_cutAt, ← h.file_eq (Nat.min_le_right _ _), ← take_eq_take_min]
    exact append_nil _
  · exact List.Pairwise.sublist (intact_cutAt _ _).sublist h.rising

theorem Inv.step (h : Inv w) (hs : w.Safe op) (ht : w.Step op w') : Inv w' := by
  cases op with
  | reopen =>
    simp only [Step, CursorLog.step] at ht
    split at ht
    · rename_i hc
      cases ht
      have hfile : w.store.file = stored Chunk.bytes w.chunks := by
        rw [← h.bytes, written, h.shut hc, append_nil]
      refine ⟨?_, h.shaped, h.rising, ?_, fun hc => absurd hc (by simp [openCursorStore])⟩
      · rw [← hfile]
        exact append_nil _
      · intro _ k
        show (loadCursors w.store.file)[k]? = _
        rw [loadCursors, getElem?_replay, hfile, h.shaped.read]
    · cases ht
  | commit key seq => exact h.commit hs ht
  | delete key => exact h.delete ht
  | compact => exact h.compact ht
  | flush =>
    cases ht
    unfold flush
    split
    · exact h
    · exact ⟨by rw [← h.bytes]; exact append_nil _, h.shaped, h.rising, h.memory, fun _ => rfl⟩
  | close =>
    cases ht
    unfold close
    split
    · exact h
    · exact ⟨by rw [← h.bytes]; exact append_nil _, h.shaped, h.rising,
        fun hc => absurd hc (by simp), fun _ => rfl⟩
  | crash n => exact h.crash ht

def Kept (w : CursorLog) (k : Bytes) (v : Nat) : Prop :=
  ∃ v', v ≤ v' ∧ (k, v') ∈ intact (cutAt w.store.file.length w.chunks)

theorem Kept.grows (h : w.Kept k v) (hf : w.store.file.length ≤ w'.store.file.length)
    (hc : w.chunks <+: w'.chunks) : w'.Kept k v := by
  obtain ⟨v', hle, hm⟩ := h
  obtain ⟨ds, hds⟩ := hc
  refine ⟨v', hle, ?_⟩
  rw [← hds]
  exact (intact_cutAt_mono hf w.chunks ds).subset hm

theorem Kept.position (h : w.Kept k v) (hi : Inv w) (hc : w.store.closed = false) :
    ∃ v', v ≤ v' ∧ w.store.positions[k]? = some v' := by
  obtain ⟨v', hle, hm⟩ := h
  have hin := (intact_cutAt _ _).subset hm
  obtain ⟨b, hb⟩ := latest_of_mem hin
  exact ⟨b, Nat.le_trans hle (hi.rising.le_latest hin hb), (hi.memory hc k).trans hb⟩

theorem kept_rewritten {c : CursorStore} (hf : c.file = compacted c.positions)
    (hle : v ≤ v') (hk : c.positions[k]? = some v') :
    (⟨c, recordsOf c.positions⟩ : CursorLog).Kept k v := by
  refine ⟨v', hle, ?_⟩
  rw [cutAt_all]
  · unfold recordsOf
    rw [intact_records]
    exact TreeMap.mem_toList_iff_getElem?_eq_some.mpr hk
  · unfold recordsOf
    rw [stored_records, hf]
    exact Nat.le_refl _

theorem Kept.step (h : w.Kept k v) (hi : Inv w) (hs : Spares k w op) (ht : w.Step op w') :
    w'.Kept k v := by
  cases op with
  | reopen =>
    simp only [Step, CursorLog.step] at ht
    split at ht
    · cases ht
      exact h
    · cases ht
  | commit key seq =>
    cases ht
    by_cases hm : w.store.Moves key seq.toNat
    · rw [if_pos hm, commit_moves hm]
      refine h.grows ?_ (prefix_append _ _)
      exact (write_grows { w.store with
        positions := w.store.positions.insert key.string seq.toNat } _).length_le
    · rw [if_neg hm, commit_stays hm]
      exact h
  | delete key =>
    cases ht
    by_cases hk : w.store.closed = false ∧ key.string ∈ w.store.positions
    · rw [if_pos hk, delete_eq hk.1 hk.2]
      obtain ⟨v', hle, hv⟩ := h.position hi hk.1
      exact kept_rewritten rfl hle ((getElem?_erase_other (Ne.symm hs)).trans hv)
    · rw [if_neg hk, delete_stays hk]
      exact h
  | compact =>
    cases ht
    by_cases hc : w.store.closed
    · rw [if_pos hc, compact_stays hc]
      exact h
    · rw [Bool.not_eq_true] at hc
      rw [if_neg (by simp [hc]), compact_eq hc]
      obtain ⟨v', hle, hv⟩ := h.position hi hc
      exact kept_rewritten rfl hle hv
  | flush =>
    cases ht
    refine h.grows ?_ prefix_rfl
    unfold flush
    split
    · exact Nat.le_refl _
    · exact (prefix_append _ _).length_le
  | close =>
    cases ht
    refine h.grows ?_ prefix_rfl
    unfold close
    split
    · exact Nat.le_refl _
    · exact (prefix_append _ _).length_le
  | crash n =>
    cases ht
    obtain ⟨v', hle, hm⟩ := h
    refine ⟨v', hle, ?_⟩
    have hn : w.store.file.length ≤ n := hs
    rw [Nat.min_eq_right hn, take_of_length_le hn, cutAt_all]
    · exact hm
    · rw [stored_cutAt]
      exact length_take_le _ _

def fresh : CursorLog := ⟨{ file := [], closed := true }, []⟩

theorem fresh_inv : Inv fresh :=
  ⟨rfl, .nil, List.Pairwise.nil, fun h => absurd h (by simp [fresh]), fun _ => rfl⟩

/-- While no record is written behind a torn one and the keys are not too long,
opening the store gives each key the last value among the whole records of the file,
and a position that was flushed is found, or a later one, as long as it is not
deleted and no crash takes it off the file. -/
theorem flushed_is_recovered {ops : List Op} (hr : Run Step Safe fresh ops w) :
    (∀ w', w.Step .reopen w' → ∀ k, w'.store.positions[k]? = latest k (intact w.chunks)) ∧
    ∀ k v, w.store.closed = false → w.store.buffer = [] → w.store.positions[k]? = some v →
      ∀ ops' w', Run Step (fun s op => s.Safe op ∧ Spares k s op) w ops' w' →
        w'.store.closed = false → ∃ v', v ≤ v' ∧ w'.store.positions[k]? = some v' := by
  have hi : Inv w := hr.invariant Inv fresh_inv (fun _ _ _ hi hs ht => hi.step hs ht)
  refine ⟨?_, ?_⟩
  · intro w' ht k
    have hi' := hi.step (show w.Safe .reopen from trivial) ht
    simp only [Step, CursorLog.step] at ht
    split at ht
    · cases ht
      exact hi'.memory rfl k
    · cases ht
  · intro k v hc hb hv ops' w' hr' hc'
    have hkept : w.Kept k v := by
      refine ⟨v, Nat.le_refl v, ?_⟩
      rw [cutAt_all]
      · exact mem_of_latest ((hi.memory hc k).symm.trans hv)
      · rw [← hi.bytes, written, hb, append_nil]
    have hend := hr'.invariant (fun s => Inv s ∧ s.Kept k v) ⟨hi, hkept⟩
      (fun _ _ _ h hs ht => ⟨h.1.step hs.1 ht, h.2.step h.1 hs.2 ht⟩)
    exact hend.2.position hend.1 hc'

def mended : List Op :=
  [.reopen, .commit (readerOf 97) 5, .commit (readerOf 98) 6, .flush, .crash 30, .reopen, .compact,
    .commit (readerOf 99) 7, .flush]

theorem mended_is_recovered :
    ∃ w w', Run Step Safe fresh mended w ∧ w.store.positions[(readerOf 99).string]? = some 7 ∧
      Run Step (fun s op => s.Safe op ∧ Spares (readerOf 99).string s op) w
        [.crash 100, .reopen] w' ∧
      ∃ v', 7 ≤ v' ∧ w'.store.positions[(readerOf 99).string]? = some v' := by
  obtain ⟨w, hr, hc, hb, hv, hnext⟩ := Run.executed Safe step fresh mended
    (fun w => w.store.closed = false ∧ w.store.buffer = [] ∧
      w.store.positions[(readerOf 99).string]? = some 7 ∧
      (execAll (fun s op => s.Safe op ∧ Spares (readerOf 99).string s op) step w
        [.crash 100, .reopen]).any (fun w' => decide (w'.store.closed = false)) = true)
    (by decide +kernel)
  obtain ⟨w', hr', hc'⟩ := Run.found (fun w' : CursorLog => w'.store.closed = false) hnext
  exact ⟨w, w', hr, hv, hr', (flushed_is_recovered hr).2 _ 7 hc hb hv _ w' hr' hc'⟩

def torn : List Op :=
  [.reopen, .commit (readerOf 97) 5, .flush, .crash 10, .reopen, .commit (readerOf 98) 6, .flush,
    .close, .reopen]

/-- The commit was flushed, its record is whole in the file, and it is not found. -/
theorem behind_torn_is_lost :
    ∃ w, Run Step always fresh torn w ∧ w.store.positions[(readerOf 98).string]? = none ∧
      latest (readerOf 98).string (intact w.chunks) = some 6 :=
  Run.found _ (by decide +kernel)

end CursorLog
end Boltq.Stream
