import Boltq.Lib.Run
import Boltq.Stream.Cursor

namespace Boltq.Stream
open Lib Std List CursorStore TreeMap Option

def writeAt (file : Bytes) (offset : Nat) (bs : Bytes) : Bytes :=
  (file ++ List.replicate (offset - file.length) 0).take offset ++ bs ++
    file.drop (offset + bs.length)

theorem writeAt_end (file bs : Bytes) : writeAt file file.length bs = file ++ bs := by
  simp [writeAt]

structure Compactor where
  snapshot : TreeMap Bytes Nat
  fd : Option Nat := none
  offset : Nat := 0
  pending : Bytes := []

structure CursorFiles where
  store : CursorStore
  live : Nat
  temp : Option (Nat × Bytes) := none
  nextFile : Nat
  calls : TreeMap Nat Compactor := ∅
  settled : Bool := false

namespace CursorFiles

inductive Op where
  | commit (key : CursorKey) (seq : UInt64)
  | remove (key : CursorKey)
  | flush
  | start (call : Nat)
  | openTemp (call : Nat)
  | writeTemp (call : Nat) (n : Nat)
  | fail (call : Nat)
  | swap (call : Nat) (renamed : Bool)

section
variable (w : CursorFiles)

def writeTo (fd offset : Nat) (bs : Bytes) : CursorFiles :=
  if w.live = fd then { w with store := { w.store with file := writeAt w.store.file offset bs } }
  else { w with temp := w.temp.map (fun f => if f.1 = fd then (f.1, writeAt f.2 offset bs) else f) }

def rename (snapshot : TreeMap Bytes Nat) (renamed : Bool) : CursorFiles :=
  match w.temp, renamed with
  | some (fd, file), true =>
    { w with
      store := w.store.compactSwap snapshot file
      live := fd
      temp := none
      settled := true }
  | _, _ => { w with store := w.store.passOn }

def step : Op → Option CursorFiles
  | .commit key seq => some { w with store := (w.store.commit key seq.toNat).1 }
  | .remove key =>
    match w.store.remove key with
    | .error _ => some w
    | .ok (store, removed) => some { w with store, settled := w.settled && !removed }
  | .flush => some { w with store := w.store.flush }
  | .start call =>
    if call ∈ w.calls then none
    else
      match w.store.compactBegin with
      | .error _ => some w
      | .ok (store, snapshot) => some { w with store, calls := w.calls.insert call { snapshot } }
  | .openTemp call =>
    match w.calls[call]? with
    | none => none
    | some c =>
      if c.fd.isSome then none
      else
        let fd := w.temp.elim w.nextFile Prod.fst
        some { w with
          temp := some (fd, [])
          nextFile := w.nextFile + 1
          calls := w.calls.insert call
            { c with fd := some fd, offset := 0, pending := CursorStore.compacted c.snapshot } }
  | .writeTemp call n =>
    match w.calls[call]? with
    | none => none
    | some c =>
      match c.fd with
      | none => none
      | some fd =>
        let bs := c.pending.take n
        some { w.writeTo fd c.offset bs with
          calls := w.calls.insert call
            { c with offset := c.offset + bs.length, pending := c.pending.drop n } }
  | .fail call =>
    match w.calls[call]? with
    | none => none
    | some c =>
      some { w with
        temp := if c.fd.isSome then none else w.temp
        calls := w.calls.erase call }
  | .swap call renamed =>
    match w.calls[call]? with
    | none => none
    | some c =>
      if c.fd.isSome ∧ c.pending = [] then
        some { w.rename c.snapshot renamed with calls := w.calls.erase call }
      else none

def Step (op : Op) (w' : CursorFiles) : Prop := w.step op = some w'

def Unopened : Prop := ∀ x ∈ w.calls.toList, x.2.fd = none

/-- Keys fit, nothing is removed during a compaction, and there is one temporary file at a time. -/
def Apart : Op → Prop
  | .commit key _ => key.string.length ≤ 65526
  | .remove key => key.string ∈ w.store.positions → w.calls.isEmpty = true
  | .openTemp _ => w.Unopened
  | _ => True

end

instance (w : CursorFiles) (op : Op) : Decidable (w.Apart op) := by
  unfold Apart Unopened
  split <;> infer_instance

structure Sound (w : CursorFiles) (c : Compactor) : Prop where
  known : ∀ k, k ∈ c.snapshot → k ∈ w.store.positions
  fits : ∀ k v, c.snapshot[k]? = some v → CursorFits (k, v)
  file : ∀ fd, c.fd = some fd → ∃ file, w.temp = some (fd, file) ∧ c.offset = file.length ∧
    file ++ c.pending = CursorStore.compacted c.snapshot

def Exact (c : CursorStore) : Prop :=
  ∃ rs, c.written = stored encodeCursorRecord rs ∧ (∀ r ∈ rs, CursorFits r) ∧
    ∀ k, c.positions[k]? = latest k rs

structure Inv (w : CursorFiles) : Prop where
  running : w.store.closed = false
  fits : ∀ (k : Bytes) (v : Nat), w.store.positions[k]? = some v → CursorFits (k, v)
  temp : ∀ f ∈ w.temp, f.1 ≠ w.live
  numbered : w.live < w.nextFile ∧ ∀ f ∈ w.temp, f.1 < w.nextFile
  calls : ∀ (i : Nat) (c : Compactor), w.calls[i]? = some c → w.Sound c
  alone : ∀ (i : Nat) (c : Compactor) (j : Nat) (d : Compactor), w.calls[i]? = some c →
    w.calls[j]? = some d → c.fd.isSome → d.fd.isSome → i = j
  exact : w.settled = true → Exact w.store

variable {w w' : CursorFiles}

theorem Sound.congr (h : w.Sound c) (hp : ∀ k, k ∈ w.store.positions → k ∈ w'.store.positions)
    (ht : c.fd.isSome → w'.temp = w.temp) : w'.Sound c where
  known k hk := hp k (h.known k hk)
  fits := h.fits
  file fd hfd := by
    rw [ht (by rw [hfd]; rfl)]
    exact h.file fd hfd

theorem Sound.unopened (h : w.Sound c) (hp : ∀ k, k ∈ w.store.positions → k ∈ w'.store.positions)
    (hfd : ¬ c.fd.isSome) : w'.Sound c := h.congr hp (fun hs => absurd hs hfd)

theorem Inv.onStore (h : Inv w) {store : CursorStore} (hc : store.closed = false)
    (hf : ∀ k v, store.positions[k]? = some v → CursorFits (k, v))
    (hp : ∀ k, k ∈ w.store.positions → k ∈ store.positions)
    (he : w.settled = true → Exact store) : Inv { w with store } where
  running := hc
  fits := hf
  temp := h.temp
  numbered := h.numbered
  calls i c hi := (h.calls i c hi).congr hp (fun _ => rfl)
  alone := h.alone
  exact := he

theorem Exact.passOn (h : Exact c) : Exact c.passOn := by
  obtain ⟨rs, hw, hf, hk⟩ := h
  refine ⟨rs, ?_, hf, hk⟩
  rw [← hw]
  exact append_nil _

theorem Exact.commit (h : Exact c) (hm : c.Moves key seq) (hf : CursorFits (key.string, seq)) :
    Exact (c.commit key seq).1 := by
  obtain ⟨rs, hw, hfits, hk⟩ := h
  rw [commit_moves hm]
  refine ⟨rs ++ [(key.string, seq)], ?_, ?_, ?_⟩
  · rw [write_written, stored_append]
    show c.written ++ _ = _
    rw [hw]
    simp
  · intro r hr
    rcases mem_append.mp hr with hr | hr
    · exact hfits r hr
    · exact mem_singleton.mp hr ▸ hf
  · intro k
    show (c.positions.insert key.string seq)[k]? = _
    rw [latest_append]
    by_cases he : key.string = k
    · subst he
      simp [latest]
    · rw [getElem?_insert_other _ (Ne.symm he), hk k]
      simp [latest, he]

section
variable (h : Inv w)
include h

theorem Inv.commit {key : CursorKey} (hk : key.string.length ≤ 65526)
    (ht : w.Step (.commit key seq) w') : Inv w' := by
  cases ht
  have hfits : CursorFits (key.string, seq.toNat) := ⟨hk, seq.toNat_lt⟩
  by_cases hm : w.store.Moves key seq.toNat
  · have hp : (w.store.commit key seq.toNat).1.positions =
        w.store.positions.insert key.string seq.toNat := by
      rw [commit_moves hm]
      rfl
    apply h.onStore
    · rw [commit_moves hm]
      exact hm.1
    · intro k v hv
      rw [hp] at hv
      rcases insert_cases hv with ⟨rfl, rfl⟩ | ⟨_, hv⟩
      · exact hfits
      · exact h.fits k v hv
    · intro k hk
      rw [hp]
      exact mem_insert_iff.mpr (.inr hk)
    · exact fun hs => (h.exact hs).commit hm hfits
  · rw [commit_stays hm]
    exact h

theorem Inv.remove {key : CursorKey} (ha : key.string ∈ w.store.positions → w.calls.isEmpty = true)
    (ht : w.Step (.remove key) w') : Inv w' := by
  by_cases hk : key.string ∈ w.store.positions
  · have hr : w.store.remove key =
        .ok ({ w.store with positions := w.store.positions.erase key.string }, true) := by
      unfold CursorStore.remove
      rw [if_neg (by simp [h.running]), if_pos hk]
    simp only [Step, step, hr] at ht
    cases ht
    have hnone : ∀ (i : Nat) (c : Compactor), w.calls[i]? ≠ some c := by
      intro i c hi
      rw [getElem?_of_isEmpty (ha hk)] at hi
      cases hi
    exact ⟨h.running, fun k v hv => h.fits k v (getElem?_of_erase hv), h.temp, h.numbered,
      fun i c hi => absurd hi (hnone i c), h.alone, fun hs => absurd hs (by simp)⟩
  · have hr : w.store.remove key = .ok (w.store, false) := by
      unfold CursorStore.remove
      rw [if_neg (by simp [h.running]), if_neg hk]
    simp only [Step, step, hr] at ht
    cases ht
    simpa using h

theorem Inv.start (ht : w.Step (.start call) w') : Inv w' := by
  simp only [Step, step] at ht
  split at ht
  · cases ht
  have hb : w.store.compactBegin = .ok (w.store.passOn, w.store.positions) := by
    unfold compactBegin
    rw [if_neg (by simp [h.running])]
  simp only [hb] at ht
  cases ht
  refine ⟨h.running, h.fits, h.temp, h.numbered, ?_, ?_, fun hs => (h.exact hs).passOn⟩
  · intro i c hi
    rcases insert_cases hi with ⟨_, rfl⟩ | ⟨_, hi⟩
    · exact ⟨fun _ hk => hk, h.fits, fun fd hfd => by cases hfd⟩
    · exact (h.calls i c hi).congr (fun _ hk => hk) (fun _ => rfl)
  · intro i c j d hi hj hc hd
    rcases insert_cases hi with ⟨_, rfl⟩ | ⟨_, hi⟩
    · cases hc
    rcases insert_cases hj with ⟨_, rfl⟩ | ⟨_, hj⟩
    · cases hd
    · exact h.alone i c j d hi hj hc hd

theorem Inv.openTemp (hu : w.Unopened) (ht : w.Step (.openTemp call) w') : Inv w' := by
  simp only [Step, step] at ht
  split at ht
  · cases ht
  rename_i c hcall
  split at ht
  · cases ht
  cases ht
  have hnone : ∀ (i : Nat) (d : Compactor), w.calls[i]? = some d → ¬ d.fd.isSome := by
    intro i d hi hs
    rw [hu (i, d) (mem_toList_iff_getElem?_eq_some.mpr hi)] at hs
    cases hs
  have hfd : w.temp.elim w.nextFile Prod.fst ≠ w.live ∧
      w.temp.elim w.nextFile Prod.fst < w.nextFile + 1 := by
    have hn := h.numbered
    cases htemp : w.temp with
    | none => exact ⟨Nat.ne_of_gt hn.1, Nat.lt_succ_self _⟩
    | some f => exact ⟨h.temp f htemp, Nat.lt_succ_of_lt (hn.2 f htemp)⟩
  refine ⟨h.running, h.fits, ?_, ⟨Nat.lt_succ_of_lt h.numbered.1, ?_⟩, ?_, ?_, h.exact⟩
  · intro f hf
    cases hf
    exact hfd.1
  · intro f hf
    cases hf
    exact hfd.2
  · intro i d hi
    rcases insert_cases hi with ⟨_, rfl⟩ | ⟨_, hi⟩
    · refine ⟨(h.calls call c hcall).known, (h.calls call c hcall).fits, ?_⟩
      intro fd hfd
      cases hfd
      exact ⟨[], rfl, rfl, rfl⟩
    · exact (h.calls i d hi).unopened (fun _ hk => hk) (hnone i d hi)
  · intro i d j e hi hj hd he
    rcases insert_cases hi with ⟨rfl, _⟩ | ⟨_, hi⟩
    · rcases insert_cases hj with ⟨rfl, _⟩ | ⟨_, hj⟩
      · rfl
      · exact absurd he (hnone j e hj)
    · exact absurd hd (hnone i d hi)

theorem Inv.writeTemp (ht : w.Step (.writeTemp call n) w') : Inv w' := by
  simp only [Step, step] at ht
  split at ht
  · cases ht
  rename_i c hcall
  split at ht
  · cases ht
  rename_i fd hfd
  cases ht
  obtain ⟨file, htemp, hoff, hrest⟩ := (h.calls call c hcall).file fd hfd
  have hlive : ¬ w.live = fd := fun he => h.temp (fd, file) htemp he.symm
  have hwrite : w.writeTo fd c.offset (c.pending.take n) =
      { w with temp := some (fd, file ++ c.pending.take n) } := by
    unfold writeTo
    rw [if_neg hlive, htemp, hoff, map_some, if_pos rfl, writeAt_end]
  rw [hwrite]
  have hother : ∀ (i : Nat) (d : Compactor), i ≠ call → w.calls[i]? = some d → ¬ d.fd.isSome :=
    fun i d hne hi hs => hne (h.alone i d call c hi hcall hs (by rw [hfd]; rfl))
  refine ⟨h.running, h.fits, ?_, ⟨h.numbered.1, ?_⟩, ?_, ?_, h.exact⟩
  · intro f hf
    cases hf
    exact h.temp (fd, file) htemp
  · intro f hf
    cases hf
    exact h.numbered.2 (fd, file) htemp
  · intro i d hi
    rcases insert_cases hi with ⟨_, rfl⟩ | ⟨hne, hi⟩
    · refine ⟨(h.calls call c hcall).known, (h.calls call c hcall).fits, ?_⟩
      intro fd' hfd'
      cases hfd.symm.trans hfd'
      refine ⟨_, rfl, ?_, ?_⟩
      · rw [length_append, hoff]
      · rw [append_assoc, take_append_drop]
        exact hrest
    · exact (h.calls i d hi).unopened (fun _ hk => hk) (hother i d hne hi)
  · intro i d j e hi hj hd he
    rcases insert_cases hi with ⟨rfl, _⟩ | ⟨hne, hi⟩
    · rcases insert_cases hj with ⟨rfl, _⟩ | ⟨hne, hj⟩
      · rfl
      · exact absurd he (hother j e hne hj)
    · exact absurd hd (hother i d hne hi)

theorem Inv.ended (hcall : w.calls[call]? = some c) (ht : ¬ c.fd.isSome → w'.temp = w.temp)
    (hp : ∀ k, k ∈ w.store.positions → k ∈ w'.store.positions) :
    ∀ (i : Nat) (d : Compactor), (w.calls.erase call)[i]? = some d → w'.Sound d := by
  intro i d hi
  have hold := getElem?_of_erase hi
  by_cases hc : c.fd.isSome
  · refine (h.calls i d hold).unopened hp ?_
    intro hd
    cases h.alone i d call c hold hcall hd hc
    rw [getElem?_erase_self] at hi
    cases hi
  · exact (h.calls i d hold).congr hp (fun _ => ht hc)

theorem Inv.fail (ht : w.Step (.fail call) w') : Inv w' := by
  simp only [Step, step] at ht
  split at ht
  · cases ht
  rename_i c hcall
  cases ht
  have htemp : ∀ f ∈ (if c.fd.isSome then none else w.temp), f ∈ w.temp := by
    intro f hf
    split at hf
    · cases hf
    · exact hf
  exact ⟨h.running, h.fits, fun f hf => h.temp f (htemp f hf),
    ⟨h.numbered.1, fun f hf => h.numbered.2 f (htemp f hf)⟩,
    h.ended hcall (fun hc => if_neg hc) (fun _ hk => hk),
    fun i d j e hi hj => h.alone i d j e (getElem?_of_erase hi) (getElem?_of_erase hj), h.exact⟩

end

theorem exact_compactSwap {c : CursorStore}
    (hc : ∀ k v, c.positions[k]? = some v → CursorFits (k, v))
    (hs : ∀ k v, snapshot[k]? = some v → CursorFits (k, v))
    (hk : ∀ k, k ∈ snapshot → k ∈ c.positions) :
    Exact (c.compactSwap snapshot (CursorStore.compacted snapshot)) := by
  rw [CursorStore.compactSwap_eq]
  refine ⟨snapshot.toList ++ c.missed snapshot, ?_, ?_, ?_⟩
  · rw [stored_append]
    exact append_nil _
  · intro r hr
    rcases mem_append.mp hr with hr | hr
    · exact hs r.1 r.2 (TreeMap.mem_toList_iff_getElem?_eq_some.mp hr)
    · exact hc r.1 r.2 (TreeMap.mem_toList_iff_getElem?_eq_some.mp (mem_filter.mp hr).1)
  · intro k
    show c.positions[k]? = _
    unfold CursorStore.missed
    rw [latest_append, latest_filter_toList, latest_toList]
    cases hp : c.positions[k]? with
    | none =>
      have hnone : snapshot[k]? = none := by
        apply TreeMap.getElem?_eq_none
        intro hm
        have hin := TreeMap.mem_iff_isSome_getElem?.mp (hk k hm)
        rw [hp] at hin
        cases hin
      rw [hnone]
      rfl
    | some v =>
      by_cases he : snapshot[k]? = some v
      · rw [Option.filter_some, if_neg (by simp [he]), he]
        rfl
      · rw [Option.filter_some, if_pos (by simp [he])]
        rfl

theorem Inv.swap (h : Inv w) (ht : w.Step (.swap call renamed) w') : Inv w' := by
  simp only [Step, step] at ht
  split at ht
  · cases ht
  rename_i c hcall
  split at ht
  case isFalse => cases ht
  rename_i hdone
  cases ht
  obtain ⟨hfd, hpend⟩ := hdone
  obtain ⟨fd, hfd'⟩ := isSome_iff_exists.mp hfd
  obtain ⟨file, htemp, _, hfile⟩ := (h.calls call c hcall).file fd hfd'
  rw [hpend, append_nil] at hfile
  have halone : ∀ (i : Nat) (d : Compactor) (j : Nat) (e : Compactor),
      (w.calls.erase call)[i]? = some d → (w.calls.erase call)[j]? = some e →
        d.fd.isSome → e.fd.isSome → i = j :=
    fun i d j e hi hj => h.alone i d j e (getElem?_of_erase hi) (getElem?_of_erase hj)
  cases renamed with
  | false =>
    unfold rename
    simp only [htemp]
    exact ⟨h.running, h.fits, htemp ▸ h.temp, htemp ▸ h.numbered,
      h.ended hcall (fun hc => absurd hfd hc) (fun _ hk => hk), halone,
      fun hs => (h.exact hs).passOn⟩
  | true =>
    unfold rename
    simp only [htemp]
    have hs := h.calls call c hcall
    have heq := compactSwap_eq w.store c.snapshot file
    refine ⟨?_, ?_, (fun f hf => by cases hf),
      ⟨h.numbered.2 (fd, file) htemp, (fun f hf => by cases hf)⟩, h.ended hcall (fun hc => absurd hfd hc) ?_,
      halone, ?_⟩
    · rw [heq]
      exact h.running
    · rw [heq]
      exact h.fits
    · rw [heq]
      exact fun _ hk => hk
    · intro _
      rw [hfile]
      exact exact_compactSwap h.fits hs.fits hs.known

theorem Inv.step (h : Inv w) (ha : w.Apart op) (ht : w.Step op w') : Inv w' := by
  cases op with
  | commit key seq => exact h.commit ha ht
  | remove key => exact h.remove ha ht
  | flush =>
    cases ht
    have hf : w.store.flush = w.store.passOn := by
      unfold flush
      rw [if_neg (by simp [h.running])]
    rw [hf]
    exact h.onStore h.running h.fits (fun _ hk => hk) (fun hs => (h.exact hs).passOn)
  | start call => exact h.start ht
  | openTemp call => exact h.openTemp ha ht
  | writeTemp call n => exact h.writeTemp ht
  | fail call => exact h.fail ht
  | swap call renamed => exact h.swap ht

def opened (file : Bytes) (temp : Option Bytes) : CursorFiles where
  store := openCursorStore file
  live := 0
  temp := temp.map (fun bs => (1, bs))
  nextFile := 2

theorem opened_inv (file : Bytes) (temp : Option Bytes) : Inv (opened file temp) := by
  refine ⟨rfl, ?_, ?_, ⟨Nat.zero_lt_two, ?_⟩, ?_, ?_, fun hs => by cases hs⟩
  · intro k v hk
    have hl : latest k (cursorRecords file) = some v := (getElem?_replay _ _).symm.trans hk
    exact scan_forall (fun bs x rest => readCursorRecord_fits) file.length file _ (mem_of_latest hl)
  · intro f hf
    obtain ⟨bs, _, rfl⟩ := map_eq_some_iff.mp hf
    exact Nat.one_ne_zero
  · intro f hf
    obtain ⟨bs, _, rfl⟩ := map_eq_some_iff.mp hf
    exact Nat.lt_succ_self 1
  · intro i c hi
    rw [show (opened file temp).calls = ∅ from rfl, getElem?_emptyc] at hi
    cases hi
  · intro i c j d hi
    rw [show (opened file temp).calls = ∅ from rfl, getElem?_emptyc] at hi
    cases hi

/-- While keys can be read back, nothing is removed during a compaction and one
compaction at a time has the temporary file open, the log replays to the positions
in memory once it has been swapped and flushed. -/
theorem swapped_log_replays (file : Bytes) (temp : Option Bytes) {ops : List Op}
    (hr : Run Step Apart (opened file temp) ops w) (hs : w.settled = true) :
    ∀ k : Bytes, (loadCursors w.store.flush.file)[k]? = w.store.positions[k]? := by
  have hi := hr.invariant Inv (opened_inv file temp) (fun _ _ _ hi ha ht => hi.step ha ht)
  obtain ⟨rs, hw, hf, hk⟩ := hi.exact hs
  intro k
  have hfile : w.store.flush.file = stored encodeCursorRecord rs := by
    unfold flush
    rw [if_neg (by simp [hi.running]), ← hw]
    rfl
  have hread : cursorRecords w.store.flush.file = rs := by
    have h := cursorRecords_stored hf (show readCursorRecord [] = none from rfl)
    rwa [append_nil, ← hfile] at h
  rw [loadCursors, hread, getElem?_replay, hk k]

def committed : List Op :=
  [.commit (readerOf 97) 5, .start 1, .commit (readerOf 98) 6, .openTemp 1, .writeTemp 1 100,
    .swap 1 true, .flush]

theorem committed_log_replays : ∃ w, Run Step Apart (opened [] none) committed w ∧
      w.store.positions[(readerOf 98).string]? = some 6 ∧
      ∀ k : Bytes, (loadCursors w.store.flush.file)[k]? = w.store.positions[k]? := by
  refine Run.shown (fun w => w.settled = true ∧ w.store.positions[(readerOf 98).string]? = some 6)
    (by decide +kernel) ?_
  rintro w hr ⟨hs, hk⟩
  exact ⟨hk, swapped_log_replays [] none hr hs⟩

def removed : List Op :=
  [.commit (readerOf 97) 5, .start 1, .remove (readerOf 97), .openTemp 1, .writeTemp 1 100,
    .swap 1 true, .flush]

/-- The log brings the position back. -/
theorem removed_is_in_log : ∃ w, Run Step always (opened [] none) removed w ∧ w.settled = true ∧
      w.store.positions[(readerOf 97).string]? = none ∧
      (loadCursors w.store.flush.file)[(readerOf 97).string]? = some 5 :=
  Run.found _ (by decide +kernel)

end CursorFiles
end Boltq.Stream
