import Boltq.Stream.Damage

namespace Boltq.Stream
open Lib List

structure Reading where
  asked : Nat
  maxRecords : Nat
  maxBytes : Int
  rest : List Nat
  fromSeq : Nat
  out : List Record
  bytesRead : Int
  deriving DecidableEq

inductive ReadCall where
  | idle
  | going (r : Reading)
  | done (asked : Nat) (out : List Record) (err : Option Err)
  deriving DecidableEq

section Calls
variable {S : Type} [SegmentStore S]

def Partition.startRead (p : Partition S) (gone fromSeq : Nat) (maxRecords maxBytes : Int) :
    ReadCall :=
  let maxRecords := if maxRecords ≤ 0 then 100 else maxRecords
  if p.closed then .done fromSeq [] (some .closed)
  else
    let start := if fromSeq = 0 then p.firstSeq else fromSeq
    if start < p.firstSeq then .done fromSeq [] (some (.seqTruncated start p.firstSeq))
    else .going {
      asked := fromSeq
      maxRecords := maxRecords.toNat
      maxBytes
      rest := List.range' gone p.segments.length
      fromSeq := start
      out := []
      bytesRead := 0 }

def Reading.next (r : Reading) (find : Nat → Option S)
    (read : Nat → S → Nat → Nat → Int → List Record × Option Err) : ReadCall :=
  match r.rest with
  | [] => .done r.asked r.out none
  | i :: rest =>
    match find i with
    | none => .going { r with rest }
    | some seg =>
      if rest.isEmpty = false ∧ SegmentStore.lastSequence seg < r.fromSeq then .going { r with rest }
      else if r.maxRecords ≤ r.out.length then .done r.asked r.out none
      else if 0 < r.maxBytes ∧ r.maxBytes - r.bytesRead ≤ 0 then .done r.asked r.out none
      else
        match read i seg r.fromSeq (r.maxRecords - r.out.length)
            (if 0 < r.maxBytes then r.maxBytes - r.bytesRead else 0) with
        | (_, some e) => .done r.asked r.out (some e)
        | (recs, none) => .going { r with
            rest
            fromSeq := recs.getLast?.elim r.fromSeq (fun x => x.seq + 1)
            out := r.out ++ recs
            bytesRead := r.bytesRead + (recs.map Record.encodedSize).sum }

def ReadCall.finish (find : Nat → Option S) : Nat → ReadCall → ReadCall
  | 0, c => c
  | n+1, .going r => (r.next find (fun _ => SegmentStore.read)).finish find n
  | _+1, c => c

theorem ReadCall.finish_done (find : Nat → Option S) (n asked : Nat) (out : List Record)
    (err : Option Err) : (ReadCall.done asked out err).finish find n = .done asked out err := by
  cases n <;> rfl

theorem finish_readLoop (find : Nat → Option S) (segs : List S) (k : Nat)
    (hfind : ∀ i s, segs[i]? = some s → find (k + i) = some s) (r : Reading)
    (hrest : r.rest = range' k segs.length) : (ReadCall.going r).finish find (segs.length + 1) =
      .done r.asked (Partition.readLoop r.maxRecords r.maxBytes segs r.fromSeq r.out r.bytesRead).1
        (Partition.readLoop r.maxRecords r.maxBytes segs r.fromSeq r.out r.bytesRead).2 := by
  induction segs generalizing k r with
  | nil =>
    have hnil : r.rest = [] := hrest
    rw [ReadCall.finish, Reading.next, hnil]
    rfl
  | cons seg segs ih =>
    rw [length_cons, range'_succ] at hrest
    have hseg : find k = some seg := hfind 0 seg rfl
    have hnext : ∀ i s, segs[i]? = some s → find (k + 1 + i) = some s := by
      intro i s hs
      rw [Nat.add_assoc, Nat.add_comm 1 i]
      exact hfind (i + 1) s hs
    have hempty : (range' (k + 1) segs.length).isEmpty = segs.isEmpty := by
      cases segs <;> rfl
    rw [length_cons, ReadCall.finish, Reading.next, hrest]
    simp only [hseg, hempty]
    rw [Partition.readLoop]
    split
    · exact ih (k + 1) hnext { r with rest := range' (k + 1) segs.length } rfl
    split
    · exact ReadCall.finish_done find _ _ _ _
    split
    · exact ReadCall.finish_done find _ _ _ _
    generalize SegmentStore.read seg r.fromSeq (r.maxRecords - r.out.length)
      (if 0 < r.maxBytes then r.maxBytes - r.bytesRead else 0) = got
    obtain ⟨recs, err⟩ := got
    cases err with
    | some e => exact ReadCall.finish_done find _ _ _ _
    | none => exact ih (k + 1) hnext _ rfl

theorem Partition.startRead_finish (p : Partition S) (fromSeq : Nat) (maxRecords maxBytes : Int) :
    (p.startRead 0 fromSeq maxRecords maxBytes).finish (fun i => p.segments[i]?)
        (p.segments.length + 1) =
      .done fromSeq (p.read fromSeq maxRecords maxBytes).1 (p.read fromSeq maxRecords maxBytes).2 := by
  unfold Partition.startRead Partition.read
  generalize (if fromSeq = 0 then p.firstSeq else fromSeq) = start
  by_cases hc : p.closed = true
  · simp only [hc, ↓reduceIte]
    exact ReadCall.finish_done (fun i => p.segments[i]?) _ _ _ _
  by_cases hlt : start < p.firstSeq
  · simp only [if_neg hc, if_pos hlt]
    exact ReadCall.finish_done (fun i => p.segments[i]?) _ _ _ _
  · simp only [if_neg hc, if_neg hlt]
    exact finish_readLoop (fun i => p.segments[i]?) p.segments 0
      (fun i s hs => by rwa [Nat.zero_add]) ⟨_, _, _, _, _, _, _⟩ rfl

end Calls

def FileSegment.readSome (s : FileSegment) (n fromSeq maxRecords : Nat) (maxBytes : Int) :
    List Record × Option Err :=
  let start := s.seekPos fromSeq
  if s.size ≤ start then ([], none)
  else
    let bs := (fileSection s.log start s.size).take n
    readLoop fromSeq maxBytes bs.length maxRecords bs 0 []

theorem FileSegment.readSome_zero (s : FileSegment) (fromSeq maxRecords : Nat) (maxBytes : Int) :
    s.readSome 0 fromSeq maxRecords maxBytes = ([], none) := by
  unfold readSome
  by_cases hle : s.size ≤ s.seekPos fromSeq
  · simp only [if_pos hle]
  · simp only [if_neg hle, take_zero]
    cases maxRecords <;> rfl

def Partition.retainTurn (p : Partition FileSegment) (now : Int) :
    Option (FileSegment × Partition FileSegment) :=
  if p.cfg.retentionBytes ≤ 0 ∧ p.cfg.retentionAge ≤ 0 then none
  else if p.closed then none
  else
    match p.older with
    | [] => none
    | oldest :: rest =>
      let next := rest.head?.getD p.active
      if p.expired (if 0 < p.cfg.retentionAge then now - p.cfg.retentionAge else 0) next then
        some (oldest, { p with
          older := rest
          firstSeq := next.baseSeq
          epochs := p.epochs.truncateBeforeSeq next.baseSeq })
      else none

theorem Partition.retainTurn_cases {p : Partition FileSegment} (h : p.retainTurn now = some (s, q))
    : p.segments = s :: q.segments ∧ q.firstSeq = (q.segments.head?.getD q.active).baseSeq ∧
      { q with byteCount := q.byteCount - SegmentStore.bytes s } =
        p.dropOldest s (q.older.head?.getD p.active) q.older := by
  unfold Partition.retainTurn at h
  generalize (if 0 < p.cfg.retentionAge then now - p.cfg.retentionAge else 0) = cutoff at h
  split at h
  · cases h
  split at h
  · cases h
  split at h
  · cases h
  rename_i oldest rest hold
  dsimp only at h
  split at h
  · cases h
    refine ⟨by rw [Partition.segments, hold]; rfl, ?_, rfl⟩
    cases rest <;> rfl
  · cases h

inductive ReadOp where
  | retain (now : Int)
  | remove (i : Nat)
  | read (fromSeq : Nat) (maxRecords maxBytes : Int)
  | next (cut : Option Nat)
  deriving DecidableEq

structure Readers where
  part : Partition FileSegment
  gone : List FileSegment
  removed : List Nat
  call : ReadCall
  deriving DecidableEq

namespace Readers

def start (p : Partition FileSegment) : Readers := ⟨p, [], [], .idle⟩

section
variable (w : Readers)

def all : List FileSegment := w.gone ++ w.part.segments

def readAt (cut : Option Nat) (i : Nat) (s : FileSegment) :
    Nat → Nat → Int → List Record × Option Err :=
  if i ∈ w.removed then s.readSome 0
  else
    match cut with
    | none => s.read
    | some n => s.readSome n

def remove (i : Nat) : Option Readers :=
  match w.gone[i]? with
  | none => none
  | some s =>
    if i ∈ w.removed then none
    else some { w with
      part := { w.part with byteCount := w.part.byteCount - SegmentStore.bytes s }
      removed := i :: w.removed }

def step : ReadOp → Option Readers
  | .retain now =>
    match w.part.retainTurn now with
    | none => some w
    | some (s, part) => some { w with part, gone := w.gone ++ [s] }
  | .remove i => w.remove i
  | .read fromSeq maxRecords maxBytes =>
    match w.call with
    | .going _ => none
    | _ => some { w with call := w.part.startRead w.gone.length fromSeq maxRecords maxBytes }
  | .next cut =>
    match w.call with
    | .going r =>
      let call := r.next (fun i => w.all[i]?) (w.readAt cut)
      match cut with
      | none => some { w with call }
      | some _ => (w.remove (r.rest.headD 0)).map (fun v => { v with call })
    | _ => none

def Step (op : ReadOp) (w' : Readers) : Prop := w.step op = some w'

/-- No file is removed while a read still needs it, and no read is cut short. -/
def Unhurried : ReadOp → Prop
  | .remove i =>
    match w.call with
    | .going r => i ∈ r.rest → ∀ s ∈ w.all[i]?, s.lastSeq < r.fromSeq
    | _ => True
  | .next cut => cut = none
  | .retain _ | .read _ _ _ => True

end

instance (w : Readers) (op : ReadOp) : Decidable (w.Unhurried op) :=
  match op with
  | .remove i =>
    match h : w.call with
    | .going r => decidable_of_iff (i ∈ r.rest → ∀ s ∈ w.all[i]?, s.lastSeq < r.fromSeq)
        (by simp only [Unhurried, h])
    | .idle => isTrue (by simp only [Unhurried, h])
    | .done _ _ _ => isTrue (by simp only [Unhurried, h])
  | .next cut => inferInstanceAs (Decidable (cut = none))
  | .retain _ | .read _ _ _ => inferInstanceAs (Decidable True)

end Readers

def TellsAll : Nat → List FileSegment → Prop
  | _, [] => True
  | base, s :: rest => s.baseSeq = base ∧ ∃ rs, s.Tells rs ∧ TellsAll (base + rs.length) rest

theorem tellsAll_of_covers {next : Nat} (h : Covers base segs next) : TellsAll base segs := by
  induction segs generalizing base with
  | nil => trivial
  | cons s segs ih =>
    have hv : s.Holds s.records := h.1
    exact ⟨h.2.1, s.records, hv.tells, ih h.2.2⟩

def Partition.Tells (p : Partition FileSegment) : Prop := TellsAll p.firstSeq p.segments

theorem Partition.Open.tells {p : Partition FileSegment} (h : p.Open) : p.Tells :=
  tellsAll_of_covers h.wf.covers

theorem Partition.Open.tells_damage {p : Partition FileSegment} (h : p.Open)
    {before after : List FileSegment} {seg : FileSegment}
    (hseg : p.segments = before ++ seg :: after) {d : Nat} {r : Record}
    (hd : seg.records[d]? = some r) {f : Bytes} (hl : f.length = (encoded r).length)
    (hc : corrupt (f ++ stored encoded (seg.records.drop (d + 1))) = true) :
    (p.damage before.length (offset encoded seg.records d) f).Tells := by
  have hcov := h.wf.covers
  rw [hseg] at hcov
  change TellsAll p.firstSeq _
  rw [Partition.damage_segments hseg]
  generalize p.firstSeq = base at hcov
  clear hseg
  induction before generalizing base with
  | nil =>
    obtain ⟨hv, hbase, hafter⟩ := hcov
    have hv : seg.Holds seg.records := hv
    exact ⟨hbase, seg.records, hv.overwrite hd hl hc, tellsAll_of_covers hafter⟩
  | cons s before ih =>
    obtain ⟨hv, hbase, hrest⟩ := hcov
    have hv : s.Holds s.records := hv
    exact ⟨hbase, s.records, hv.tells, ih _ hrest⟩

def Reading.Full (r : Reading) : Prop :=
  r.maxRecords ≤ r.out.length ∨ 0 < r.maxBytes ∧ r.maxBytes ≤ r.bytesRead

structure Reading.InOrder (segs : List FileSegment) (r : Reading) : Prop where
  run : 1 ≤ r.asked → Dense r.asked r.out ∧ r.fromSeq = r.asked + r.out.length
  rest : r.Full ∨ ∃ k base, r.rest = List.range' k (segs.length - k) ∧
    TellsAll base (segs.drop k) ∧ base ≤ r.fromSeq

def Reading.Leads (segs : List FileSegment) (r : Reading) : ReadCall → Prop
  | .idle => True
  | .going r' => r'.InOrder segs ∧ r'.rest ⊆ r.rest ∧ r.fromSeq ≤ r'.fromSeq
  | .done asked out err => err = none → 1 ≤ asked → Dense asked out

theorem Reading.InOrder.take {segs : List FileSegment} {r : Reading} (h : r.InOrder segs)
    {k base : Nat} {i : Nat} {rest : List Nat} {s : FileSegment} {rs recs : List Record}
    (hrest : r.rest = i :: rest) (hk : rest = List.range' (k + 1) (segs.length - (k + 1)))
    (hs : s.Tells rs) (hbase : s.baseSeq = base)
    (htail : TellsAll (base + rs.length) (segs.drop (k + 1))) (hle : base ≤ r.fromSeq)
    (hrecs : recs = readRecords (if 0 < r.maxBytes then r.maxBytes - r.bytesRead else 0)
        (r.maxRecords - r.out.length) 0 (rs.drop (r.fromSeq - s.baseSeq)) ∨
      recs = [] ∧ s.lastSeq < r.fromSeq) :
    r.Leads segs (.going { r with
      rest
      fromSeq := recs.getLast?.elim r.fromSeq (fun x => x.seq + 1)
      out := r.out ++ recs
      bytesRead := r.bytesRead + (recs.map Record.encodedSize).sum }) := by
  have hlast := hs.last
  have hsub : rest ⊆ r.rest := by
    rw [hrest]
    exact subset_cons_self _ _
  have hafter : Dense r.fromSeq (rs.drop (r.fromSeq - s.baseSeq)) := by
    have hd := hs.dense.drop (r.fromSeq - s.baseSeq)
    rwa [show s.baseSeq + (r.fromSeq - s.baseSeq) = r.fromSeq by omega] at hd
  -- either the segment is used up or the call has enough
  have hgot : Dense r.fromSeq recs ∧ (base + rs.length ≤ r.fromSeq + recs.length ∨
      r.maxRecords ≤ (r.out ++ recs).length ∨
      0 < r.maxBytes ∧ r.maxBytes ≤ r.bytesRead + (recs.map Record.encodedSize).sum) := by
    rcases hrecs with hread | ⟨rfl, hpast⟩
    · obtain ⟨n, hn, hmost, hlen, _, hstop⟩ := Partition.readRecords_budget r.maxBytes r.bytesRead
        (r.maxRecords - r.out.length) (rs.drop (r.fromSeq - s.baseSeq))
      have htake : (List.take n (rs.drop (r.fromSeq - s.baseSeq))).length = n :=
        length_take_of_le hlen
      rw [hn] at hread
      subst hread
      refine ⟨hafter.take n, ?_⟩
      rcases hstop with hall | hroom | hbytes
      · rw [htake, hall, length_drop]
        exact .inl (by omega)
      · rw [length_append, htake]
        exact .inr (.inl (by omega))
      · exact .inr (.inr hbytes)
    · exact ⟨fun i x hx => by simp at hx, .inl (by rw [length_nil]; omega)⟩
  have hnext := hgot.1.next_seq
  refine ⟨⟨fun ha => ?_, ?_⟩, hsub, by rw [hnext]; exact Nat.le_add_right _ _⟩
  · obtain ⟨hrun, hfrom⟩ := h.run ha
    refine ⟨hrun.concat (hfrom ▸ hgot.1), ?_⟩
    rw [hnext, hfrom, length_append, Nat.add_assoc]
  · rcases hgot.2 with hused | hfull
    · exact .inr ⟨k + 1, base + rs.length, hk, htail, by rw [hnext]; exact hused⟩
    · exact .inl hfull

theorem range_cons (h : i :: rest = range' k (n - k)) :
    i = k ∧ i < n ∧ rest = range' (i + 1) (n - (i + 1)) := by
  cases hn : n - k with
  | zero =>
    rw [hn] at h
    cases h
  | succ m =>
    rw [hn, range'_succ] at h
    obtain ⟨rfl, hrest⟩ := cons.inj h
    have hm : n - (i + 1) = m := by omega
    exact ⟨rfl, by omega, hm ▸ hrest⟩

theorem Reading.InOrder.next {segs : List FileSegment} {r : Reading} (h : r.InOrder segs)
    {read : Nat → FileSegment → Nat → Nat → Int → List Record × Option Err}
    (hread : ∀ i ∈ r.rest, ∀ s ∈ segs[i]?, read i s = s.read ∨
      read i s = s.readSome 0 ∧ s.lastSeq < r.fromSeq) :
    r.Leads segs (r.next (fun i => segs[i]?) read) := by
  unfold Reading.next
  cases hrest : r.rest with
  | nil => exact fun _ ha => (h.run ha).1
  | cons i rest =>
    dsimp only
    have hsub : rest ⊆ r.rest := by
      rw [hrest]
      exact subset_cons_self _ _
    -- with enough already, nothing but the places left matters
    have hskip : (r.Full ∨ ∃ k base, rest = range' k (segs.length - k) ∧
        TellsAll base (segs.drop k) ∧ base ≤ r.fromSeq) → r.Leads segs (.going { r with rest }) :=
      fun hr => ⟨⟨h.run, hr⟩, hsub, Nat.le_refl _⟩
    rcases h.rest with hfull | ⟨k, base, hplaces, htells, hle⟩
    · cases hseg : segs[i]? with
      | none => exact hskip (.inl hfull)
      | some s =>
        dsimp only
        split
        · exact hskip (.inl hfull)
        split
        · exact fun _ ha => (h.run ha).1
        split
        · exact fun _ ha => (h.run ha).1
        rename_i hcount hbytes
        rcases hfull with hc | hb
        · exact absurd hc hcount
        · exact absurd ⟨hb.1, by omega⟩ hbytes
    · rw [hrest] at hplaces
      obtain ⟨rfl, hi, hk⟩ := range_cons hplaces
      have hget := getElem?_eq_getElem hi
      rw [drop_eq_getElem_cons hi] at htells
      obtain ⟨hbase, rs, hs, htail⟩ := htells
      have hlast := hs.last
      rw [hget]
      dsimp only
      split
      · rename_i hpast
        have hpast : segs[i].lastSeq < r.fromSeq := hpast.2
        exact hskip (.inr ⟨i + 1, _, hk, htail, by omega⟩)
      split
      · exact fun _ ha => (h.run ha).1
      split
      · exact fun _ ha => (h.run ha).1
      rcases hread i (by rw [hrest]; exact mem_cons_self) _ hget with hfile | ⟨hclosed, hpast⟩
      · rw [hfile]
        rcases hs.read r.fromSeq (r.maxRecords - r.out.length)
          (if 0 < r.maxBytes then r.maxBytes - r.bytesRead else 0) with hok | ⟨out, herr⟩
        · rw [hok]
          exact h.take hrest hk hs hbase htail hle (.inl rfl)
        · rw [herr]
          exact fun hnone => by cases hnone
      · rw [hclosed, FileSegment.readSome_zero]
        exact h.take hrest hk hs hbase htail hle (.inr ⟨rfl, hpast⟩)

namespace Readers
variable {segs : List FileSegment} {w w' : Readers}

def Knows (segs : List FileSegment) (removed : List Nat) : ReadCall → Prop
  | .idle => True
  | .going r => r.InOrder segs ∧
      ∀ i ∈ r.rest, i ∈ removed → ∀ s ∈ segs[i]?, s.lastSeq < r.fromSeq
  | .done asked out err => err = none → 1 ≤ asked → Dense asked out

structure Orderly (segs : List FileSegment) (w : Readers) : Prop where
  all : w.all = segs
  tells : w.part.Tells
  removed : ∀ i ∈ w.removed, i < w.gone.length
  call : Knows segs w.removed w.call

theorem Orderly.start {p : Partition FileSegment} (h : p.Tells) : Orderly p.segments (start p) :=
  ⟨rfl, h, forall_mem_nil _, trivial⟩

theorem Orderly.retain (h : Orderly segs w) (ht : w.part.retainTurn now = some (s, q)) :
    Orderly segs { w with part := q, gone := w.gone ++ [s] } := by
  obtain ⟨hsegs, hfirst, _⟩ := Partition.retainTurn_cases ht
  have htells := h.tells
  rw [Partition.Tells, hsegs] at htells
  obtain ⟨_, rs, _, hrest⟩ := htells
  refine ⟨?_, ?_, fun i hi => ?_, h.call⟩
  · rw [← h.all, Readers.all, Readers.all, hsegs, append_assoc, singleton_append]
  · rw [Partition.Tells, hfirst]
    cases hq : q.segments with
    | nil => trivial
    | cons t rest =>
      rw [hq] at hrest
      obtain ⟨hbase, hmore⟩ := hrest
      rw [head?_cons, Option.getD_some, hbase]
      exact ⟨hbase, hmore⟩
  · rw [length_append]
    exact Nat.lt_add_right _ (h.removed i hi)

theorem remove_cases (h : w.remove i = some w') : ∃ s, w.gone[i]? = some s ∧ w' = { w with
      part := { w.part with byteCount := w.part.byteCount - SegmentStore.bytes s }
      removed := i :: w.removed } := by
  unfold Readers.remove at h
  split at h
  · cases h
  rename_i s hs
  split at h
  · cases h
  · exact ⟨s, hs, (Option.some.inj h).symm⟩

theorem Orderly.remove (h : Orderly segs w) (hu : w.Unhurried (.remove i))
    (hr : w.remove i = some w') : Orderly segs w' := by
  obtain ⟨s, hs, rfl⟩ := remove_cases hr
  refine ⟨h.all, h.tells, ?_, ?_⟩
  · exact forall_mem_cons.mpr ⟨(List.getElem?_eq_some_iff.mp hs).1, h.removed⟩
  have hcall := h.call
  cases hc : w.call with
  | idle => trivial
  | done asked out err =>
    rw [hc] at hcall
    exact hcall
  | going r =>
    simp only [Unhurried, hc, h.all] at hu
    rw [hc] at hcall
    refine ⟨hcall.1, fun j hj hmem => ?_⟩
    rcases mem_cons.mp hmem with rfl | hmem
    · exact hu hj
    · exact hcall.2 j hj hmem

theorem Orderly.read (h : Orderly segs w) (fromSeq : Nat) (maxRecords maxBytes : Int) :
    Orderly segs { w with call := w.part.startRead w.gone.length fromSeq maxRecords maxBytes } := by
  refine ⟨h.all, h.tells, h.removed, ?_⟩
  unfold Partition.startRead
  generalize hstart : (if fromSeq = 0 then w.part.firstSeq else fromSeq) = start
  by_cases hc : w.part.closed = true
  · simp only [hc, ↓reduceIte]
    exact fun hnone => by cases hnone
  by_cases hlt : start < w.part.firstSeq
  · simp only [if_neg hc, if_pos hlt]
    exact fun hnone => by cases hnone
  simp only [if_neg hc, if_neg hlt]
  have hlen : segs.length - w.gone.length = w.part.segments.length := by
    rw [← h.all, Readers.all, length_append, Nat.add_sub_cancel_left]
  have hdrop : segs.drop w.gone.length = w.part.segments := by
    rw [← h.all, Readers.all, drop_left]
  refine ⟨⟨fun ha => ⟨fun i r hr => by simp at hr, ?_⟩, .inr ⟨w.gone.length, w.part.firstSeq,
    by rw [hlen], ?_, Nat.le_of_not_lt hlt⟩⟩, ?_⟩
  · have ha : 1 ≤ fromSeq := ha
    rw [if_neg (by omega)] at hstart
    exact hstart.symm
  · rw [hdrop]
    exact h.tells
  · intro i hi hmem
    have hge := (mem_range'_1.mp hi).1
    have hlt := h.removed i hmem
    omega

theorem Orderly.next (h : Orderly segs w) {r : Reading} (hc : w.call = .going r) :
    Orderly segs { w with call := r.next (fun i => w.all[i]?) (w.readAt none) } := by
  refine ⟨h.all, h.tells, h.removed, ?_⟩
  have hcall := h.call
  rw [hc] at hcall
  obtain ⟨hin, hclear⟩ := hcall
  rw [h.all]
  have hread : ∀ i ∈ r.rest, ∀ s ∈ segs[i]?, w.readAt none i s = s.read ∨
      w.readAt none i s = s.readSome 0 ∧ s.lastSeq < r.fromSeq := by
    intro i hi s hs
    unfold readAt
    by_cases hmem : i ∈ w.removed
    · rw [if_pos hmem]
      exact .inr ⟨rfl, hclear i hi hmem s hs⟩
    · rw [if_neg hmem]
      exact .inl rfl
  have hlead := hin.next hread
  generalize r.next (fun i => segs[i]?) (w.readAt none) = c at hlead
  cases c with
  | idle => trivial
  | done asked out err => exact hlead
  | going r' =>
    obtain ⟨horder, hsub, hle⟩ := hlead
    exact ⟨horder, fun i hi hmem s hs => Nat.lt_of_lt_of_le (hclear i (hsub hi) hmem s hs) hle⟩

theorem Orderly.step (h : Orderly segs w) (hu : w.Unhurried op) (hs : Step w op w') :
    Orderly segs w' := by
  cases op with
  | retain now =>
    unfold Step Readers.step at hs
    dsimp only at hs
    cases ht : w.part.retainTurn now with
    | none =>
      rw [ht] at hs
      cases hs
      exact h
    | some x =>
      rw [ht] at hs
      cases hs
      exact h.retain ht
  | remove i => exact h.remove hu hs
  | read fromSeq maxRecords maxBytes =>
    unfold Step Readers.step at hs
    dsimp only at hs
    split at hs
    · cases hs
    · cases hs
      exact h.read fromSeq maxRecords maxBytes
  | next cut =>
    have hcut : cut = none := hu
    subst hcut
    unfold Step Readers.step at hs
    dsimp only at hs
    split at hs
    · rename_i r hc
      cases hs
      exact h.next hc
    · cases hs

/-- As long as damage shows and no segment is removed that a call still has to
read, a call that ends without an error has returned a run of records that starts
at the one it was asked for. -/
theorem reads_without_error_skip_nothing {p : Partition FileSegment} (hp : p.Tells)
    {ops : List ReadOp} (hr : Run Step Unhurried (start p) ops w) {asked : Nat}
    {out : List Record} (hpos : 1 ≤ asked) (hdone : w.call = .done asked out none) :
    ∀ i r, out[i]? = some r → r.seq = asked + i := by
  have h : Orderly p.segments w := hr.invariant (Orderly p.segments) (Orderly.start hp)
    (fun _ _ _ h hu hs => h.step hu hs)
  have hcall := h.call
  rw [hdone] at hcall
  exact hcall rfl hpos

def keepFifty : PartitionConfig := { Partition.smallSegments with retentionBytes := 50 }

def threeRecords : List Op :=
  [.append (.ofPayload [1]) 5, .append (.ofPayload [2]) 6, .append (.ofPayload [3]) 7]

def readAndRetain (fromSeq : Nat) : List ReadOp :=
  [.read fromSeq 10 0, .retain 0, .remove 0, .next none, .next none, .next none, .next none]

def Returned (asked n : Nat) (w : Readers) : Prop :=
  match w.call with
  | .done a out err => a = asked ∧ out.length = n ∧ err = none
  | _ => False

instance (asked n : Nat) (w : Readers) : Decidable (Returned asked n w) :=
  match h : w.call with
  | .done a out err => decidable_of_iff (a = asked ∧ out.length = n ∧ err = none)
      (by simp only [Returned, h])
  | .idle => isFalse (by simp only [Returned, h, not_false_eq_true])
  | .going _ => isFalse (by simp only [Returned, h, not_false_eq_true])

theorem Returned.call (h : Returned asked n w) :
    ∃ out, w.call = .done asked out none ∧ out.length = n := by
  unfold Returned at h
  split at h
  · rename_i a out err hc
    obtain ⟨rfl, hlen, rfl⟩ := h
    exact ⟨out, hc, hlen⟩
  · exact h.elim

/-- The first of three segments is damaged, and removed while a call reads the
others. -/
theorem read_past_damage_and_retention_skips_nothing :
    ∃ (p : Partition FileSegment) (w : Readers), p.Tells ∧
      Run Step Unhurried (start p) (readAndRetain 2) w ∧
      ∃ out, w.call = .done 2 out none ∧ out.length = 2 ∧
        ∀ i r, out[i]? = some r → r.seq = 2 + i := by
  obtain ⟨p, hrun, hfirst, hcall⟩ := Run.executed Partition.Storable Partition.exec
    (Partition.fresh "chat" 0 keepFifty.applyDefaults ⟨[]⟩) threeRecords
    (fun p : Partition FileSegment =>
      (∃ s ∈ p.segments.head?, s.records.length = 1 ∧
        ∃ r ∈ s.records[0]?, (encoded r).length = 36) ∧
      (execAll Unhurried step (start (p.damage 0 0 (Partition.zeros 36))) (readAndRetain 2)).any
        (fun w => decide (Returned 2 2 w)) = true) (by decide +kernel)
  obtain ⟨s, hs, hlen, r, hr, hsize⟩ := hfirst
  have hopen : p.Open := hrun.invariant Partition.Open
    (Partition.Open.fresh "chat" 0 keepFifty (Partition.open_fresh "chat" 0 keepFifty)).1
    (fun _ _ _ h hst hs => (h.refines hst hs).1)
  obtain ⟨after, hseg⟩ : ∃ after, p.segments = [] ++ s :: after := by
    cases hsegs : p.segments with
    | nil =>
      rw [hsegs] at hs
      cases hs
    | cons t rest =>
      rw [hsegs] at hs
      cases hs
      exact ⟨rest, rfl⟩
  have hc : corrupt (Partition.zeros 36 ++ stored encoded (s.records.drop (0 + 1))) = true := by
    rw [drop_eq_nil_of_le (Nat.le_of_eq hlen)]
    decide
  have htells := hopen.tells_damage hseg hr (by rw [hsize]; rfl) hc
  obtain ⟨w, hw, hreturned⟩ := Run.found (Returned 2 2) hcall
  obtain ⟨out, hout, hcount⟩ := hreturned.call
  exact ⟨_, w, htells, hw, out, hout, hcount,
    reads_without_error_skip_nothing htells hw (by decide) hout⟩

/-- A call asked for record 1 returns records 2 and 3 without an error: when
retention removes the first segment under it, when the length of record 1 is
damaged, and when the partition is opened over a damaged checksum. -/
theorem reads_skip_removed_and_damaged_segments :
    ∃ p : Partition FileSegment, Run Partition.Succeeds Partition.Storable
        (Partition.fresh "chat" 0 keepFifty.applyDefaults ⟨[]⟩) threeRecords p ∧
      (∃ w, Run Step always (start p) (readAndRetain 1) w ∧ Returned 1 2 w) ∧
      ((p.damage 0 4 [100]).read 1 10 0).1.map Record.seq = [2, 3] ∧
      ((p.damage 0 4 [100]).read 1 10 0).2 = none ∧
      (Partition.openPartition "chat" 0 (p.damage 0 0 [0]).disk keepFifty).toOption.any (fun q =>
        decide ((q.read 1 10 0).1.map Record.seq = [2, 3] ∧ (q.read 1 10 0).2 = none)) = true := by
  obtain ⟨p, hrun, hcall, hdamage⟩ := Run.executed Partition.Storable Partition.exec
    (Partition.fresh "chat" 0 keepFifty.applyDefaults ⟨[]⟩) threeRecords
    (fun p : Partition FileSegment =>
      (execAll always step (start p) (readAndRetain 1)).any
        (fun w => decide (Returned 1 2 w)) = true ∧
      ((p.damage 0 4 [100]).read 1 10 0).1.map Record.seq = [2, 3] ∧
      ((p.damage 0 4 [100]).read 1 10 0).2 = none ∧
      (Partition.openPartition "chat" 0 (p.damage 0 0 [0]).disk keepFifty).toOption.any (fun q =>
        decide ((q.read 1 10 0).1.map Record.seq = [2, 3] ∧ (q.read 1 10 0).2 = none)) = true)
    (by decide +kernel)
  exact ⟨p, hrun, Run.found (Returned 1 2) hcall, hdamage⟩

end Readers

end Boltq.Stream
