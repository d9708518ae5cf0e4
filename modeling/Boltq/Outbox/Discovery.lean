import Boltq.Outbox.Dispatch

namespace Boltq.Outbox
open Lib Boltq.Stream Queuelog Fanout Std List TreeMap

structure Slot where
  push : Push
  owed : Nat

def Slot.watch (s : Slot) (cancelled : Bool) : Slot :=
  { s with push := { s.push with phase := .starting, cancelled } }

def Slot.cancel (s : Slot) : Slot := { s with push := { s.push with cancelled := true } }

def Slot.mark (s : Slot) : Slot := { s with owed := s.push.log.next }

def isInbox (name : String) : Bool :=
  (nameBytes topicInboxPrefix).isPrefixOf (nameBytes name) &&
    decide ((nameBytes topicInboxPrefix).length < (nameBytes name).length)

structure Dispatcher where
  cfg : Config
  presence : Bool
  started : Bool := false
  stopped : Bool := true
  watching : List String := []
  topics : TreeMap String (List Slot) := ∅

namespace Dispatcher

inductive Op where
  | create (name : String) (partitions : Nat)
  | start
  | watch (name : String)
  | stop
  | part (name : String) (i : Nat) (op : Push.Op)

def Quiet (d : Dispatcher) : Prop :=
  ∀ e ∈ d.topics.toList, ∀ s ∈ e.2, s.push.phase = .done
  deriving Decidable

def step (d : Dispatcher) : Op → Option Dispatcher
  | .create name partitions =>
    if name ∈ d.topics then none
    else
      let slot : Slot := ⟨.new d.cfg d.presence Push.noPointers, 1⟩
      some { d with topics := d.topics.insert name (List.replicate partitions slot) }
  | .start =>
    if d.stopped ∧ d.Quiet then
      some { d with
        started := true
        stopped := false
        watching := []
        topics := if d.started then d.topics else d.topics.map (fun _ slots => slots.map Slot.mark) }
    else none
  | .watch name =>
    match d.topics[name]? with
    | none => none
    | some slots =>
      if d.started ∧ isInbox name ∧ name ∉ d.watching then
        some { d with
          watching := d.watching ++ [name]
          topics := d.topics.insert name (slots.map (·.watch d.stopped)) }
      else none
  | .stop =>
    if d.stopped then none
    else some { d with
      stopped := true
      topics := d.topics.map (fun _ slots => slots.map Slot.cancel) }
  | .part name i op =>
    match op with
    | .spawn | .cancel => none
    | op =>
      match d.topics[name]? with
      | none => none
      | some slots =>
        match slots[i]? with
        | none => none
        | some s =>
          match s.push.step op with
          | none => none
          | some push =>
            some { d with topics := d.topics.insert name (slots.set i { s with push }) }

def Step (d : Dispatcher) (op : Op) (d' : Dispatcher) : Prop := d.step op = some d'

/-- A dispatcher without a cursor begins only after all it owes has been seen. -/
def Caught (d : Dispatcher) : Op → Prop
  | .part name i .begin => ∀ slots ∈ d.topics[name]?, ∀ s ∈ slots[i]?,
      s.push.cursor.position = none →
        ∀ r ∈ s.push.log.records, s.owed ≤ r.seq → r.seq ∈ s.push.seen
  | _ => True

instance (d : Dispatcher) (op : Op) : Decidable (d.Caught op) := by
  unfold Caught
  split <;> infer_instance

end Dispatcher

def Slot.Read (s : Slot) (seq : Nat) : Prop := seq < s.owed ∨ seq ∈ s.push.seen

structure Slot.Inv (s : Slot) : Prop where
  past : s.push.Past s.Read
  batch : ∀ n, s.push.phase.last = some n → s.push.Behind s.Read (n + 1)

namespace Slot
variable {s : Slot} {push : Push} {op : Push.Op}

theorem Inv.step (hi : s.Inv) (h : s.push.step op = some push)
    (hbegin : op = .begin → s.push.cursor.position = none →
      ∀ r ∈ s.push.log.records, s.owed ≤ r.seq → r.seq ∈ s.push.seen) : Inv { s with push } := by
  have hb := hi.past.toBounded.step h
  cases Push.happens h with
  | log l he =>
    exact ⟨hi.past.evolve he, fun n hn => (hi.batch n hn).evolve he (hi.past.toBounded.last n hn).2⟩
  | begin hop hph =>
    refine ⟨⟨hb, hi.past.passed, fun _ => ?_⟩, fun n hn => (by cases hn)⟩
    unfold Cursor.positionOr
    cases hp : s.push.cursor.position with
    | none =>
      intro r hr _
      rcases Nat.lt_or_ge r.seq s.owed with hlt | hge
      · exact .inl hlt
      · exact .inr (hbegin hop hp r hr hge)
    | some v => exact hi.past.passed v hp
  | read view now hph he =>
    have hseen := Push.afterRead_seen { s.push with log := view.log } now
      (view.readFrom s.push.frm s.push.cfg.batchSize)
    have hgrow : ∀ n, s.Read n → n < s.owed ∨ n ∈ ({ s.push with log := view.log }.afterRead now
        (view.readFrom s.push.frm s.push.cfg.batchSize)).seen := by
      rintro n (hold | hn)
      · exact .inl hold
      · exact .inr (hseen n hn)
    refine ⟨(hi.past.read now hph he).mono hgrow, ?_⟩
    intro n hn x hx hlt
    rw [Push.afterRead_log] at hx
    obtain ⟨r, rest, hread, hall⟩ := Push.read_batch hi.past hph he hn
    rcases hall x hx (Nat.le_of_lt_succ hlt) with hok | hmem
    · exact hgrow _ hok
    right
    rw [hread]
    exact mem_append_right _ (mem_map.mpr ⟨x, hmem, rfl⟩)
  | commit last hph =>
    exact ⟨hi.past.commit (hi.batch last (by rw [hph]; rfl)) hb, fun n hn => (by cases hn)⟩
  | move ph more cancelled closed hm =>
    exact ⟨⟨hb, hi.past.passed, fun hl => hi.past.behind (hm.live hl)⟩,
      fun n hn => hi.batch n (hm.last n hn).1⟩

def Fresh (s : Slot) : Prop := s.push.phase = .done ∧ s.push.cursor.position = none

theorem Inv.of_fresh (hb : s.push.Bounded) (h : s.Fresh) : s.Inv where
  past := ⟨hb, fun v hv => (by cases h.2.symm.trans hv), fun hl => (by rw [h.1] at hl; cases hl)⟩
  batch n hn := by
    rw [h.1] at hn
    cases hn

theorem Fresh.step (hf : s.Fresh) (h : s.push.step op = some push) (hop : op ≠ .spawn) :
    Fresh { s with push } := by
  obtain ⟨hph, hcur⟩ := hf
  cases Push.happens h with
  | log l he => exact ⟨hph, hcur⟩
  | begin _ hstart => cases hph.symm.trans hstart
  | read view now hread he => cases hph.symm.trans hread
  | commit last hcommit => cases hph.symm.trans hcommit
  | move ph more cancelled closed hm =>
    refine ⟨?_, hcur⟩
    cases ph with
    | done => rfl
    | starting =>
      rcases hm.starting rfl with hspawn | hstart
      · exact absurd hspawn hop
      · cases hph.symm.trans hstart
    | _ =>
      have hlive := hm.live rfl
      rw [hph] at hlive
      cases hlive

theorem Inv.watch (hi : s.Inv) (cancelled : Bool) : Inv (s.watch cancelled) :=
  ⟨⟨⟨fun hl => (by cases hl), fun n hn => (by cases hn), hi.past.cursor⟩, hi.past.passed,
    fun hl => (by cases hl)⟩, fun n hn => (by cases hn)⟩

theorem Inv.cancel (hi : s.Inv) : Inv s.cancel :=
  ⟨⟨⟨hi.past.toBounded.frm, hi.past.toBounded.last, hi.past.cursor⟩, hi.past.passed,
    hi.past.behind⟩, hi.batch⟩

end Slot

namespace Dispatcher

structure Inv (d : Dispatcher) : Prop where
  slots : ∀ (name : String) slots, d.topics[name]? = some slots → ∀ s ∈ slots, s.Inv
  before : d.started = false → ∀ (name : String) slots, d.topics[name]? = some slots →
    ∀ s ∈ slots, s.Fresh

section Steps
variable {d d' : Dispatcher} {op : Op}

theorem Inv.create {slots : List Slot} (hi : Inv d) (name : String)
    (hnew : ∀ s ∈ slots, s.push.Bounded ∧ s.Fresh) :
    Inv { d with topics := d.topics.insert name slots } := by
  refine ⟨?_, ?_⟩
  · intro k slots' hk s hs
    rcases insert_cases hk with ⟨-, rfl⟩ | ⟨-, hold⟩
    · exact .of_fresh (hnew s hs).1 (hnew s hs).2
    · exact hi.slots k slots' hold s hs
  · intro hstart k slots' hk s hs
    rcases insert_cases hk with ⟨-, rfl⟩ | ⟨-, hold⟩
    · exact (hnew s hs).2
    · exact hi.before hstart k slots' hold s hs

theorem Inv.step (hi : Inv d) (hc : d.Caught op) (h : d.step op = some d') : Inv d' := by
  cases op with
  | create name partitions =>
    simp only [Dispatcher.step] at h
    split at h
    · cases h
    cases h
    refine hi.create name ?_
    intro s hs
    rw [eq_of_mem_replicate hs]
    exact ⟨.new d.cfg d.presence Push.noPointers, rfl, rfl⟩
  | start =>
    simp only [Dispatcher.step] at h
    split at h
    · cases h
      refine ⟨?_, fun hs => (by cases hs)⟩
      intro k slots hk
      dsimp only at hk
      split at hk
      · exact hi.slots k slots hk
      rename_i hstart
      rw [Bool.not_eq_true] at hstart
      rw [TreeMap.getElem?_map] at hk
      obtain ⟨old, hold, rfl⟩ := Option.map_eq_some_iff.mp hk
      intro s hs
      obtain ⟨s0, hs0, rfl⟩ := mem_map.mp hs
      exact .of_fresh (hi.slots k old hold s0 hs0).past.toBounded (hi.before hstart k old hold s0 hs0)
    · cases h
  | watch name =>
    simp only [Dispatcher.step] at h
    split at h
    · cases h
    rename_i slots hslots
    split at h
    · rename_i hcond
      cases h
      refine ⟨?_, fun hs => ?_⟩
      · intro k slots' hk s hs
        rcases insert_cases hk with ⟨-, rfl⟩ | ⟨-, hold⟩
        · obtain ⟨s0, hs0, rfl⟩ := mem_map.mp hs
          exact (hi.slots name slots hslots s0 hs0).watch d.stopped
        · exact hi.slots k slots' hold s hs
      · cases hcond.1.symm.trans hs
    · cases h
  | stop =>
    simp only [Dispatcher.step] at h
    split at h
    · cases h
    cases h
    refine ⟨?_, ?_⟩
    · intro k slots hk s hs
      rw [TreeMap.getElem?_map] at hk
      obtain ⟨old, hold, rfl⟩ := Option.map_eq_some_iff.mp hk
      obtain ⟨s0, hs0, rfl⟩ := mem_map.mp hs
      exact (hi.slots k old hold s0 hs0).cancel
    · intro hstart k slots hk s hs
      rw [TreeMap.getElem?_map] at hk
      obtain ⟨old, hold, rfl⟩ := Option.map_eq_some_iff.mp hk
      obtain ⟨s0, hs0, rfl⟩ := mem_map.mp hs
      exact hi.before hstart k old hold s0 hs0
  | part name i op =>
    simp only [Dispatcher.step] at h
    split at h
    · cases h
    · cases h
    rename_i hspawn _
    split at h
    · cases h
    rename_i slots hslots
    split at h
    · cases h
    rename_i s hs
    split at h
    · cases h
    rename_i push hpush
    cases h
    have hmem := mem_of_getElem? hs
    refine ⟨?_, ?_⟩
    · intro k slots' hk x hx
      rcases insert_cases hk with ⟨-, rfl⟩ | ⟨-, hold⟩
      · rcases mem_or_eq_of_mem_set hx with hx | rfl
        · exact hi.slots name slots hslots x hx
        refine (hi.slots name slots hslots s hmem).step hpush ?_
        rintro rfl
        exact hc slots hslots s hs
      · exact hi.slots k slots' hold x hx
    · intro hstart k slots' hk x hx
      rcases insert_cases hk with ⟨-, rfl⟩ | ⟨-, hold⟩
      · rcases mem_or_eq_of_mem_set hx with hx | rfl
        · exact hi.before hstart name slots hslots x hx
        · exact (hi.before hstart name slots hslots s hmem).step hpush hspawn
      · exact hi.before hstart k slots' hold x hx

end Steps

end Dispatcher

namespace Push

def Own (_ : Push) : Op → Prop
  | .log _ | .spawn | .begin | .cancel | .closeCursor => False
  | _ => True

def Reads (w : Push) (seq : Nat) : Prop := ∃ ops w', Run Step Own w ops w' ∧ seq ∈ w'.seen

section ReadingOn
variable {w w' : Push} {op : Op} {seq last : Nat} {l : Queuelog.Log}

theorem Reads.of_step (h : w.step op = some w') (ho : w.Own op) (hr : w'.Reads seq) :
    w.Reads seq := by
  obtain ⟨ops, u, hrun, hseen⟩ := hr
  exact ⟨op :: ops, u, Run.append (.snoc [] op w w' .nil ho h) hrun, hseen⟩

theorem reads_committing (hph : w.phase = .committing last) (hc : w.cancelled = false)
    (hl : w.log = l) (hnext : ∀ u : Push, u.phase = .top → u.cancelled = false →
      u.frm = last + 1 → u.log = l → u.Reads seq) : w.Reads seq := by
  have hstep : w.step .commit = some { w with
      frm := last + 1, cursor := (w.cursor.commit (last + 1)).1, phase := .top } := by
    simp only [step, hph]
  exact .of_step hstep trivial (hnext _ rfl hc rfl hl)

theorem reads_delivering (hph : w.phase = .delivering last batch attempt) (hc : w.cancelled = false)
    (hl : w.log = l) (hnext : ∀ u : Push, u.phase = .top → u.cancelled = false →
      u.frm = last + 1 → u.log = l → u.Reads seq) : w.Reads seq := by
  have hstep : w.step (.notify (fun _ => true)) =
      some ({ w with phase := .committing last }.settle .accepted batch) := by
    simp only [step, hph, if_true]
  exact .of_step hstep trivial (reads_committing rfl hc hl hnext)

theorem reads_building (hph : w.phase = .building now last rest batch slept)
    (hc : w.cancelled = false) (hl : w.log = l)
    (hnext : ∀ u : Push, u.phase = .top → u.cancelled = false →
      u.frm = last + 1 → u.log = l → u.Reads seq) : w.Reads seq := by
  induction rest generalizing w batch slept with
  | nil =>
    have hstep : w.step .deliver = some { w with
        phase := if batch = [] then .committing last else .delivering last batch 1 } := by
      simp only [step, hph]
    refine .of_step hstep trivial ?_
    split
    · exact reads_committing rfl hc hl hnext
    · exact reads_delivering rfl hc hl hnext
  | cons r rest ih =>
    by_cases hkey : r.key = []
    · have hstep : w.step .keyless =
          some ({ w with phase := .building now last rest batch false }.settle .keyless [r]) := by
        simp only [step, hph, if_pos hkey]
      exact .of_step hstep trivial (ih rfl hc hl)
    · have hlook : ∀ {u : Push} {slept : Bool}, u.phase = .building now last (r :: rest) batch slept →
          (slept = true ∨ ¬ u.Young now r) → u.cancelled = false → u.log = l → u.Reads seq := by
        intro u slept hu hs hcu hlu
        have hstep : u.step (.look false) =
            some { u with phase := .building now last rest (batch ++ [r]) false } := by
          simp only [step, hu, if_pos (And.intro hkey hs), Bool.false_eq_true, and_false, if_false]
        exact .of_step hstep trivial (ih rfl hcu hlu)
      by_cases hyoung : slept = false ∧ w.Young now r
      · obtain ⟨rfl, hyoung⟩ := hyoung
        have hstep : w.step (.grace true) =
            some { w with phase := .building now last (r :: rest) batch true } := by
          simp only [step, hph, if_pos (And.intro hkey hyoung), if_true]
        exact .of_step hstep trivial (hlook rfl (.inl rfl) hc hl)
      · refine hlook hph ?_ hc hl
        cases slept with
        | true => exact .inl rfl
        | false => exact .inr (fun h => hyoung ⟨rfl, h⟩)

theorem evolves_self (l : Queuelog.Log) : l.Evolves l :=
  ⟨Nat.le_refl _, Nat.le_refl _, by rw [Nat.sub_self, drop_zero]⟩

theorem reads_top (hph : w.phase = .top) (hc : w.cancelled = false)
    (h : Reads { w with phase := .reading } seq) : w.Reads seq := by
  have hstep : w.step .check = some { w with phase := .reading } := by
    simp only [step, hph, if_true, hc, Bool.false_eq_true, if_false]
  exact .of_step hstep trivial h

theorem reads_reading (hr : r ∈ l.records) (k : Nat) : ∀ w : Push,
    w.phase = .reading → w.cancelled = false → w.log = l → 0 < w.frm → w.frm ≤ r.seq →
    r.seq - w.frm < k → w.Reads r.seq := by
  induction k with
  | zero => exact fun w _ _ _ _ _ hk => absurd hk (Nat.not_lt_zero _)
  | succ k ih =>
    intro w hph hc hl hpos hle hk
    subst hl
    have hread : w.step (.read w.log.view 0) =
        some (w.afterRead 0 (w.log.view.readFrom w.frm w.cfg.batchSize)) := by
      simp only [step]
      exact if_pos ⟨hph, evolves_self w.log⟩
    refine .of_step hread trivial ?_
    have hseq := seq_lt_next hr
    by_cases hfirst : w.frm < w.log.first
    · have hres : w.log.view.readFrom w.frm w.cfg.batchSize =
          .error (.seqTruncated w.frm w.log.first) := if_pos hfirst
      rw [hres]
      refine reads_top rfl hc (ih _ rfl hc rfl w.log.positive hseq.1 ?_)
      show r.seq - w.log.first < k
      omega
    · have hres : w.log.view.readFrom w.frm w.cfg.batchSize =
          .ok ((w.log.records.drop (w.frm - w.log.first)).take w.cfg.batchSize.toNat) :=
        if_neg hfirst
      obtain ⟨hnum, -, hall⟩ := read_records hres hpos w.cfg.batch
      rw [hres]
      cases hrecs : (w.log.records.drop (w.frm - w.log.first)).take w.cfg.batchSize.toNat with
      | nil =>
        have hsize := w.cfg.batch
        have hlen := congrArg length hrecs
        rw [length_take, length_drop, length_nil] at hlen
        unfold SeqLog.next at hseq
        omega
      | cons x rest =>
        rw [hrecs] at hnum hall
        by_cases hin : r.seq < w.frm + (x :: rest).length
        · refine ⟨[], _, .nil, mem_append_right _ (mem_map.mpr ⟨r, ?_, rfl⟩)⟩
          exact hall r hr hle hin
        refine reads_building rfl hc rfl ?_
        intro u hu hcu hfrm hlu
        rw [last_seq hnum] at hfrm
        rw [length_cons] at hin
        have hahead : 0 < u.frm ∧ u.frm ≤ r.seq ∧ r.seq - u.frm < k := by omega
        exact reads_top hu hcu (ih _ rfl hcu hlu hahead.1 hahead.2.1 hahead.2.2)

theorem reads_ahead (hb : w.Bounded) (hl : w.phase.live = true) (hc : w.cancelled = false)
    (hr : r ∈ w.log.records) (hfrm : w.frm ≤ r.seq) (hlast : ∀ n, w.phase.last = some n → n < r.seq) :
    w.Reads r.seq := by
  have hpos := (hb.frm hl).1
  have hreading : ∀ u : Push, u.phase = .reading → u.cancelled = false → u.log = w.log →
      0 < u.frm → u.frm ≤ r.seq → u.Reads r.seq := fun u hu hcu hlu hpu hfu =>
    reads_reading hr (r.seq - u.frm + 1) u hu hcu hlu hpu hfu (Nat.lt_succ_self _)
  have htop : ∀ u : Push, u.phase = .top → u.cancelled = false → u.log = w.log → 0 < u.frm →
      u.frm ≤ r.seq → u.Reads r.seq := fun u hu hcu hlu hpu hfu =>
    reads_top hu hcu (hreading _ rfl hcu hlu hpu hfu)
  have hnext : ∀ n, w.phase.last = some n → ∀ u : Push, u.phase = .top → u.cancelled = false →
      u.frm = n + 1 → u.log = w.log → u.Reads r.seq := by
    intro n hn u hu hcu hfu hlu
    have := hlast n hn
    exact htop u hu hcu hlu (by omega) (by omega)
  cases hph : w.phase with
  | done =>
    rw [hph] at hl
    cases hl
  | starting =>
    rw [hph] at hl
    cases hl
  | top => exact htop w hph hc rfl hpos hfrm
  | reading => exact hreading w hph hc rfl hpos hfrm
  | waiting =>
    have hstep : w.step .wake = some { w with phase := .top } := by
      simp only [step, hph, true_or, if_true]
    exact .of_step hstep trivial (htop _ rfl hc rfl hpos hfrm)
  | retrying =>
    have hstep : w.step .wake = some { w with phase := .top } := by
      simp only [step, hph, or_true, if_true]
    exact .of_step hstep trivial (htop _ rfl hc rfl hpos hfrm)
  | building now n rest batch slept =>
    exact reads_building hph hc rfl (hnext n (by rw [hph]; rfl))
  | delivering n batch attempt =>
    exact reads_delivering hph hc rfl (hnext n (by rw [hph]; rfl))
  | backoff n batch attempt =>
    have hstep : w.step (.backoff true) =
        some { w with phase := .delivering n batch (attempt + 1) } := by
      simp only [step, hph, if_true]
    exact .of_step hstep trivial (reads_delivering rfl hc rfl (hnext n (by rw [hph]; rfl)))
  | committing n => exact reads_committing hph hc rfl (hnext n (by rw [hph]; rfl))

end ReadingOn
end Push

namespace Dispatcher

/-- A record that was appended to a partition after the first start is read by its
loop, or is still ahead of the cursor and of the loop, which then can go on to read
it as long as it is not cancelled; a loop that waits at the end of the log has
read them all. -/
theorem owed_is_read {cfg : Config} {presence : Bool} {ops : List Op} {d : Dispatcher}
    (hr : Run Step Caught { cfg, presence } ops d) {name : String} {slots : List Slot}
    (hd : d.topics[name]? = some slots) {s : Slot} (hs : s ∈ slots) {r : Record}
    (hrec : r ∈ s.push.log.records) (howed : s.owed ≤ r.seq) :
    (r.seq ∈ s.push.seen ∨ (∀ v, s.push.cursor.position = some v → v ≤ r.seq) ∧
      (s.push.phase.live = true → s.push.frm ≤ r.seq)) ∧
    (s.push.phase.live = true → s.push.cancelled = false → s.push.Reads r.seq) ∧
    (s.push.phase = .waiting → s.push.log.next ≤ s.push.frm → r.seq ∈ s.push.seen) := by
  have hnone : ∀ k : String, (∅ : TreeMap String (List Slot))[k]? = none :=
    fun _ => getElem?_emptyc
  have hi := hr.invariant Inv ⟨fun k slots hk => (by cases (hnone k).symm.trans hk),
    fun _ k slots hk => (by cases (hnone k).symm.trans hk)⟩ (fun _ _ _ hi hc hs => hi.step hc hs)
  have hinv := hi.slots name slots hd s hs
  have hahead : ∀ {n : Nat}, s.push.Behind s.Read n → r.seq ∉ s.push.seen → n ≤ r.seq := by
    intro n hbehind hno
    rcases Nat.lt_or_ge r.seq n with hlt | hge
    · rcases hbehind r hrec hlt with hbefore | hseen
      · exact absurd howed (Nat.not_le.mpr hbefore)
      · exact absurd hseen hno
    · exact hge
  by_cases hseen : r.seq ∈ s.push.seen
  · exact ⟨.inl hseen, fun _ _ => ⟨[], s.push, .nil, hseen⟩, fun _ _ => hseen⟩
  have hfrm : s.push.phase.live = true → s.push.frm ≤ r.seq :=
    fun hl => hahead (hinv.past.behind hl) hseen
  refine ⟨.inr ⟨fun v hv => hahead (hinv.past.passed v hv) hseen, hfrm⟩, ?_, ?_⟩
  · intro hl hc
    exact Push.reads_ahead hinv.past.toBounded hl hc hrec (hfrm hl)
      (fun n hn => hahead (hinv.batch n hn) hseen)
  · intro hwait hend
    have hle := hfrm (by rw [hwait]; rfl)
    have hlt := (seq_lt_next hrec).2
    omega

def inbox : String := inboxTopic "u"

def round : List Op :=
  [.check, .read Push.twoPointers.view 5, .look false, .look false, .deliver,
    .notify (fun _ => true), .commit].map (Op.part inbox 0)

def early : List Op :=
  [.create inbox 1, .start, .watch inbox, .part inbox 0 .begin,
    .part inbox 0 (.log Push.twoPointers)] ++ round

theorem early_is_read : ∃ d, Run Step Caught { cfg := {}, presence := false } early d ∧
    ∃ s, d.topics[inbox]? = some [s] ∧ s.owed = 1 ∧ s.push.log.records.length = 2 ∧
      ∀ r ∈ s.push.log.records, r.seq ∈ s.push.seen ∨
        ∀ v, s.push.cursor.position = some v → v ≤ r.seq := by
  obtain ⟨d, hr, hlen, hall⟩ := Run.executed Caught step { cfg := {}, presence := false } early
    (fun d => (d.topics[inbox]?.getD []).length = 1 ∧
      ∀ s ∈ d.topics[inbox]?.getD [], s.owed = 1 ∧ s.push.log.records.length = 2)
    (by decide +kernel)
  cases hd : d.topics[inbox]? with
  | none =>
    rw [hd] at hlen
    cases hlen
  | some slots =>
    rw [hd] at hlen hall
    obtain ⟨s, rfl⟩ := length_eq_one_iff.mp hlen
    obtain ⟨howed, hrecs⟩ := hall s (mem_singleton_self s)
    refine ⟨d, hr, s, hd, howed, hrecs, ?_⟩
    intro r hrec
    have hfirst : s.owed ≤ r.seq := by
      have := (seq_lt_next hrec).1
      have := s.push.log.positive
      omega
    rcases (owed_is_read hr hd (mem_singleton_self s) hrec hfirst).1 with hseen | ⟨hahead, -⟩
    · exact .inl hseen
    · exact .inr hahead

def late : List Op :=
  [.start, .create inbox 1, .part inbox 0 (.log Push.twoPointers), .watch inbox,
    .part inbox 0 .begin]

/-- The loop begins behind both of them and has read neither. -/
theorem late_is_skipped : ∃ d, Run Step always { cfg := {}, presence := false } late d ∧
    (d.topics[inbox]?.getD []).map (fun s => (s.owed, s.push.log.records.map Record.seq, s.push.frm,
      s.push.seen)) = [(1, [1, 2], 3, [])] :=
  Run.found _ (by decide +kernel)

end Dispatcher
end Boltq.Outbox
