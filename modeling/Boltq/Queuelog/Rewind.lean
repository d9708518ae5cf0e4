import Boltq.Queuelog.Acquire

namespace Boltq.Queuelog
open Lib Boltq.Stream Std List

inductive LogOp where
  | append (record : Record) (now : Int) (epoch : Nat)
  | appendReplicated (record : Record)
  | truncateTo (seq : Nat)

def LogOp.Appends : LogOp → Prop
  | .append _ _ _ | .appendReplicated _ => True
  | .truncateTo _ => False

instance (op : LogOp) : Decidable (op.Appends) := by
  unfold LogOp.Appends
  split <;> infer_instance

namespace Log

def push (l : Log) (r : Record) (h : r.seq = l.next) : Log where
  toSeqLog := l.toSeqLog.push [r]
  positive := l.positive
  numbered := l.numbered.append h

def cut (l : Log) (seq : Nat) : Log where
  toSeqLog := l.toSeqLog.cut seq
  positive := l.positive
  numbered := l.numbered.take _

def apply (l : Log) : LogOp → Option Log
  | .append r now epoch => some (l.push (stampAs l.next epoch now r).canonical rfl)
  | .appendReplicated r =>
    if h : r.seq = l.next then some (l.push r.canonical h)
    else if r.seq < l.next then some l
    else none
  | .truncateTo seq =>
    if l.next ≤ seq then some l else if l.first < seq then some (l.cut seq) else none

def applyAll (l : Log) : List LogOp → Option Log
  | [] => some l
  | op :: ops => (l.apply op).bind (fun l => l.applyAll ops)

/-- Each step of the partition's log is a call of `apply` with the same outcome. -/
theorem apply_of_step {l : Log} (h : l.toSeqLog.Step op l') : (∀ r now, op = .append r now →
      ∃ epoch m, l.apply (.append r now epoch) = some m ∧ m.toSeqLog = l') ∧
    (∀ r, op = .appendReplicated r →
      ∃ m, l.apply (.appendReplicated r) = some m ∧ m.toSeqLog = l') ∧
    ∀ seq, op = .truncateTo seq → ∃ m, l.apply (.truncateTo seq) = some m ∧ m.toSeqLog = l' := by
  refine ⟨?_, ?_, ?_⟩
  · rintro r now rfl
    cases h with
    | append _ _ epoch => exact ⟨epoch, _, rfl, rfl⟩
  · rintro r rfl
    cases h with
    | appendReplicated _ hn => exact ⟨_, dif_pos hn, rfl⟩
    | duplicate _ held =>
      exact ⟨l, by rw [apply, dif_neg (Nat.ne_of_lt held), if_pos held], rfl⟩
  · rintro seq rfl
    cases h with
    | truncateTo _ above below =>
      exact ⟨_, by rw [apply, if_neg (Nat.not_le_of_lt below), if_pos above], rfl⟩
    | truncateNothing _ above => exact ⟨l, if_pos above, rfl⟩

def Extends (l' l : Log) : Prop := l'.first = l.first ∧ l.records <+: l'.records

theorem Extends.next {l' : Log} (h : l'.Extends l) : l.next ≤ l'.next := by
  have := h.2.length_le
  have := h.1
  simp only [SeqLog.next]
  omega

theorem Extends.mem_old {l' : Log} (h : l'.Extends l) (hr : r ∈ l'.records) (hlt : r.seq < l.next) :
    r ∈ l.records := by
  obtain ⟨i, hi⟩ := getElem?_of_mem hr
  have hseq := l'.numbered i r hi
  obtain ⟨rest, hrest⟩ := h.2
  have hin : i < l.records.length := by
    have := h.1
    simp only [SeqLog.next] at hlt
    omega
  rw [← hrest, getElem?_append_left hin] at hi
  exact mem_of_getElem? hi

theorem Extends.trans {l2 l3 : Log} (h : l2.Extends l1) (h' : l3.Extends l2) : l3.Extends l1 :=
  ⟨h'.1.trans h.1, h.2.trans h'.2⟩

theorem apply_extends {l : Log} {op : LogOp} (ho : op.Appends) (h : l.apply op = some l') :
    l'.Extends l := by
  cases op with
  | append r now epoch =>
    cases h
    exact ⟨rfl, prefix_append _ _⟩
  | appendReplicated r =>
    simp only [apply] at h
    split at h
    · cases h
      exact ⟨rfl, prefix_append _ _⟩
    · split at h
      · cases h
        exact ⟨rfl, prefix_rfl⟩
      · cases h
  | truncateTo seq => exact absurd ho id

theorem applyAll_extends {l : Log} (ho : ∀ op ∈ ops, op.Appends) (h : l.applyAll ops = some l') :
    l'.Extends l := by
  induction ops generalizing l with
  | nil =>
    cases h
    exact ⟨rfl, prefix_rfl⟩
  | cons op ops ih =>
    obtain ⟨m, hm, hrest⟩ := Option.bind_eq_some_iff.mp h
    exact (apply_extends (ho op mem_cons_self) hm).trans
      (ih (fun o hm => ho o (mem_cons_of_mem _ hm)) hrest)

end Log

namespace SharePartition
variable {start first : Nat} {sp : SharePartition}

theorem redeliver_base (consumer : String) (max : Nat) (now : Int) (heap : List Nat)
    (sp : SharePartition) (out : List Delivery) :
    (redeliver consumer max now heap sp out).1.base = sp.base := by
  fun_induction redeliver consumer max now heap sp out with
  | case1 | case2 => rfl
  | case3 _ _ _ _ _ _ ih | case5 _ _ _ _ _ _ _ _ ih => exact ih
  | case4 seq heap sp out _ e _ _ sp' d hl ih =>
    rw [ih]
    exact (congrArg (fun r => r.1.base) hl).symm

theorem enterAll_records (consumer : String) (max : Nat) (now : Int) {out : List Delivery}
    (hd : Dense sp.next recs) (hm : out.length + recs.length ≤ max) :
    (enterAll consumer max now recs sp out).2.map Delivery.record =
      out.map Delivery.record ++ recs ∧
    (enterAll consumer max now recs sp out).1.next = sp.next + recs.length ∧
    (enterAll consumer max now recs sp out).1.base = sp.base := by
  induction recs generalizing sp out with
  | nil => simp [enterAll]
  | cons r recs ih =>
    rw [length_cons] at hm
    have hn : (enter consumer now sp r).1.next = sp.next + 1 := by
      have hr : r.seq = sp.next := hd 0 r rfl
      simp only [enter, lease]
      rw [hr, if_pos (Nat.le_refl _)]
    have hd' : Dense (enter consumer now sp r).1.next recs := by
      intro i x hx
      rw [hn, hd (i + 1) x hx]
      omega
    rw [enterAll, if_neg (by omega)]
    have hm' : (out ++ [(enter consumer now sp r).2]).length + recs.length ≤ max := by
      rw [length_append, length_singleton]
      omega
    obtain ⟨hrec, hnext, hbase⟩ := ih hd' hm'
    refine ⟨?_, ?_, hbase⟩
    · rw [hrec, map_append, append_assoc]
      rfl
    · rw [hnext, hn, length_cons]
      omega

theorem dense_index {base : Nat} {rs : List Record} (h : Dense base rs) {x : Record} (hx : x ∈ rs) :
    base ≤ x.seq ∧ rs[x.seq - base]? = some x := by
  obtain ⟨i, hi⟩ := getElem?_of_mem hx
  have hs := h i x hi
  exact ⟨by omega, by rw [hs, Nat.add_sub_cancel_left]; exact hi⟩

theorem read_within {l : Log} {view : LogView} (hv : l.Extends view.log)
    (hr : view.readFrom seq want = .ok recs) (hs : 0 < seq) (hw : 0 < want) (hne : recs ≠ []) :
    seq + recs.length ≤ l.next := by
  obtain ⟨hlow, hrun, _⟩ := view.served hr hs hw
  have hlen := hrun.length_le
  have hpos := length_pos_iff.mpr hne
  have hnext := hv.next
  rw [length_drop] at hlen
  simp only [SeqLog.next] at hnext ⊢
  omega

theorem mem_of_read {l : Log} {view : LogView} (hv : l.Extends view.log)
    (hr : view.readFrom seq want = .ok recs) (hs : 0 < seq) (hw : 0 < want) (hx : x ∈ l.records)
    (hlo : seq ≤ x.seq) (hhi : x.seq < seq + recs.length) : x ∈ recs := by
  obtain ⟨hlow, ⟨rest, hrest⟩, _⟩ := view.served hr hs hw
  obtain ⟨_, hget⟩ := dense_index l.numbered hx
  have hi : x.seq - seq < recs.length := by omega
  have hrec : recs[x.seq - seq]? = l.records[x.seq - l.first]? := by
    obtain ⟨more, hmore⟩ := hv.2
    have hin : (view.log.records.drop (seq - view.log.first))[x.seq - seq]? = recs[x.seq - seq]? := by
      rw [← hrest, List.getElem?_append_left hi]
    rw [List.getElem?_drop, ← hv.1] at hin
    have hidx : seq - l.first + (x.seq - seq) = x.seq - l.first := by
      have := hv.1
      omega
    rw [hidx] at hin
    have hlen : x.seq - l.first < view.log.records.length := by
      have hsome := List.getElem?_eq_getElem hi
      rw [← hin] at hsome
      exact (List.getElem?_eq_some_iff.mp hsome).1
    rw [← hin, ← hmore, List.getElem?_append_left hlen]
  exact mem_of_getElem? (hrec.trans hget)

theorem readFresh_records {l : Log} (consumer : String) (max : Nat) (now : Int)
    (h : Inv start first sp) (hb : l.first ≤ sp.base)
    (hv : ∀ v ∈ views, l.Extends v.log ∧ v.log.first ≤ first)
    (hr : readFresh consumer max now views sp out = some (sp', r)) :
    sp'.base = sp.base ∧ (sp'.next = sp.next ∨ sp'.next ≤ l.next) ∧
    ∀ x ∈ l.records, sp.next ≤ x.seq → x.seq < sp'.next → ∃ d ∈ given r, d.record = x := by
  fun_induction readFresh consumer max now views sp out with
  | case1 sp out | case3 view views sp out | case7 view views sp out =>
    cases hr
    exact ⟨rfl, .inl rfl, fun x _ hlo hhi => absurd hhi (Nat.not_lt.mpr hlo)⟩
  | case2 | case4 => cases hr
  | case5 view sp out hroom requested oldest hread later views ih =>
    have hlater := (hv later (by simp)).1.1
    have hskip : sp.skipTo later.log.first = sp := if_pos (by omega)
    rw [hskip] at ih hr
    exact ih h hb (fun v hm => hv v (by simp [hm])) hr
  | case6 view views sp out hroom e hother hread =>
    cases hr
    exact ⟨rfl, .inl rfl, fun x _ hlo hhi => absurd hhi (Nat.not_lt.mpr hlo)⟩
  | case8 view views sp out hroom recs hne hread sp1 out1 hall ih =>
    have hpos : 0 < sp.next := Nat.lt_of_lt_of_le h.positive h.ordered
    obtain ⟨hd, hlen⟩ := LogView.numbered_read hread hpos (by omega)
    obtain ⟨hi, _⟩ := enterAll_spec consumer max now out h hd (by omega)
    obtain ⟨hrec, hnext, hbase⟩ := enterAll_records consumer max now hd
      (by omega : out.length + recs.length ≤ max)
    simp only [hall] at hi hrec hnext hbase
    have hsub : ∀ v ∈ views, l.Extends v.log ∧ v.log.first ≤ first :=
      fun v hm => hv v (mem_cons_of_mem _ hm)
    have hview := (hv view mem_cons_self).1
    obtain ⟨hbase', hend, hcov⟩ := ih hi (hbase ▸ hb) hsub hr
    have hwithin := read_within hview hread hpos (by omega) hne
    refine ⟨hbase'.trans hbase, .inr (by omega), ?_⟩
    intro x hx hlo hhi
    by_cases hlt : x.seq < sp1.next
    · have hmem := mem_of_read hview hread hpos (by omega) hx hlo (by omega)
      obtain ⟨d, hd, rfl⟩ : ∃ d ∈ out1, d.record = x := by
        apply mem_map.mp
        rw [hrec]
        exact mem_append_right _ hmem
      obtain ⟨_, new, _, hgiven⟩ := readFresh_spec consumer max now hi (fun v hm => (hsub v hm).2) hr
      exact ⟨d, by rw [hgiven]; exact mem_append_left _ hd, rfl⟩
    · exact hcov x hx (Nat.le_of_not_lt hlt) hhi

theorem acquire_records {l : Log} {route : DeadLetterFunc} {views : List LogView}
    {consumer : String} {max now : Int} {sp' : SharePartition} {r : Except ShareErr (List Delivery)}
    (h : Inv start first sp) (hb : l.first ≤ sp.base)
    (hv : ∀ v ∈ views, l.Extends v.log ∧ v.log.first ≤ first)
    (hr : sp.acquire route views consumer max now = some (sp', r)) :
    (sp.base ≤ sp'.base ∧ sp'.base ≤ sp.next) ∧ (sp'.next = sp.next ∨ sp'.next ≤ l.next) ∧
    ∀ x ∈ l.records, sp.next ≤ x.seq → x.seq < sp'.next → ∃ d ∈ given r, d.record = x := by
  have hsame : (sp.base ≤ sp.base ∧ sp.base ≤ sp.next) ∧ (sp.next = sp.next ∨ sp.next ≤ l.next) ∧
      ∀ x ∈ l.records, sp.next ≤ x.seq → x.seq < sp.next → ∃ d ∈ given r, d.record = x :=
    ⟨⟨Nat.le_refl _, h.ordered⟩, .inl rfl, fun x _ hlo hhi => absurd hhi (Nat.not_lt.mpr hlo)⟩
  unfold acquire at hr
  split at hr
  · cases hr
    exact hsame
  split at hr
  · cases hr
    exact hsame
  have hi := inv_stable.reapExpired h route now
  obtain ⟨_, hnext, hbase⟩ := frame_stable.reapExpired (.refl sp) route now
  generalize sp.reapExpired route now = sp1 at hr hi hnext hbase
  obtain ⟨hi2, _, hnext2, _⟩ := redeliver_spec consumer max.toNat now [] hi
  have hbase2 := redeliver_base consumer max.toNat now sp1.available sp1 []
  have hb2 : l.first ≤ (redeliver consumer max.toNat now sp1.available sp1 []).1.base := by omega
  obtain ⟨hbase3, hend, hcov⟩ := readFresh_records consumer max.toNat now hi2 hb2 hv hr
  have hle := hi.ordered
  rw [hnext2, hnext] at hend hcov
  exact ⟨by omega, hend, hcov⟩

end SharePartition

structure Rewind where
  log : Log
  sp : SharePartition
  given : List (Delivery × Nat) := []

namespace Rewind
open SharePartition

abbrev Look := List LogOp × LogView

inductive Op where
  | log (op : LogOp)
  | acquire (route : DeadLetterFunc) (looks : List Look) (consumer : String) (max now : Int)
  | ack (consumer : String) (seq : Nat)

def follow : Log → List Look → Option Log
  | l, [] => some l
  | l, (ops, view) :: looks =>
    (l.applyAll ops).bind (fun l =>
      if view.log.first = l.first ∧ view.log.records = l.records then follow l looks else none)

def step (w : Rewind) : Op → Option Rewind
  | .log op => (w.log.apply op).map (fun log => { w with log })
  | .acquire route looks consumer max now =>
    (follow w.log looks).bind (fun log =>
      (w.sp.acquire route (looks.map Prod.snd) consumer max now).map (fun r =>
        { log, sp := r.1, given := w.given ++ (SharePartition.given r.2).map (·, r.1.base) }))
  | .ack consumer seq => some { w with sp := (w.sp.ack consumer seq).1 }

def Step (w : Rewind) (op : Op) (w' : Rewind) : Prop := w.step op = some w'

/-- The log is cut only ahead of the window, and only grows during an acquire. -/
def Ahead (start : Nat) (w : Rewind) : Op → Prop
  | .log (.truncateTo seq) => w.log.next ≤ seq ∨ w.sp.next ≤ max start seq
  | .log _ => True
  | .acquire _ looks _ _ _ => ∀ look ∈ looks, ∀ op ∈ look.1, op.Appends
  | .ack _ _ => True

instance (start : Nat) (w : Rewind) (op : Op) : Decidable (Ahead start w op) := by
  unfold Ahead
  split <;> infer_instance

theorem follow_extends (ha : ∀ look ∈ looks, ∀ op ∈ look.1, op.Appends)
    (h : follow l looks = some l') : l'.Extends l ∧ ∀ look ∈ looks, l'.Extends look.2.log := by
  induction looks generalizing l with
  | nil =>
    cases h
    exact ⟨⟨rfl, prefix_rfl⟩, nofun⟩
  | cons look looks ih =>
    obtain ⟨ops, view⟩ := look
    obtain ⟨m, hm, hrest⟩ := Option.bind_eq_some_iff.mp h
    split at hrest
    · rename_i hsame
      have hlm := Log.applyAll_extends (ha _ mem_cons_self) hm
      obtain ⟨hml, hviews⟩ := ih (fun x hx => ha x (mem_cons_of_mem _ hx)) hrest
      refine ⟨hlm.trans hml, ?_⟩
      intro x hx
      rcases mem_cons.mp hx with rfl | hx
      · exact ⟨hml.1.trans hsame.1.symm, hsame.2 ▸ hml.2⟩
      · exact hviews x hx
    · cases hrest

def Delivered (w : Rewind) (r : Record) : Prop :=
  ∃ d base, (d, base) ∈ w.given ∧ d.record = r ∧ base ≤ r.seq

structure Inv (start : Nat) (w : Rewind) : Prop where
  window : SharePartition.Inv start w.log.first w.sp
  head : w.log.first ≤ w.sp.base
  reached : w.sp.next ≤ start ∨ w.sp.next ≤ w.log.next
  read : ∀ r ∈ w.log.records, start ≤ r.seq → r.seq < w.sp.next → w.Delivered r

variable {start : Nat} {w w' : Rewind}

theorem Inv.extend (h : Inv start w) {l : Log} (hl : l.Extends w.log) :
    Inv start { w with log := l } := by
  refine ⟨hl.1 ▸ h.window, hl.1 ▸ h.head, h.reached.imp_right (Nat.le_trans · hl.next), ?_⟩
  intro r hr hs hlt
  have hpast : ¬ w.sp.next ≤ start := Nat.not_le_of_lt (Nat.lt_of_le_of_lt hs hlt)
  have hold : r.seq < w.log.next := Nat.lt_of_lt_of_le hlt (h.reached.resolve_left hpast)
  exact h.read r (hl.mem_old hr hold) hs hlt

theorem Inv.cut (h : Inv start w) (hlt : seq < w.log.next) (hf : w.log.first < seq)
    (hc : w.sp.next ≤ max start seq) : Inv start { w with log := w.log.cut seq } := by
  have hend : (w.log.cut seq).next = seq := by
    simp only [Log.cut, SeqLog.cut, SeqLog.next, length_take] at hlt ⊢
    omega
  refine ⟨h.window, h.head, ?_, fun r hr => h.read r (mem_of_mem_take hr)⟩
  dsimp only
  rw [hend]
  omega

theorem Inv.step (h : Inv start w) (hc : w.Ahead start op) (hs : w.Step op w') : Inv start w' := by
  cases op with
  | log op =>
    obtain ⟨l, hl, rfl⟩ := Option.map_eq_some_iff.mp hs
    cases op with
    | append r now epoch =>
      have ha : (LogOp.append r now epoch).Appends := trivial
      exact h.extend (Log.apply_extends ha hl)
    | appendReplicated r =>
      have ha : (LogOp.appendReplicated r).Appends := trivial
      exact h.extend (Log.apply_extends ha hl)
    | truncateTo seq =>
      simp only [Log.apply] at hl
      split at hl
      · cases hl
        exact h
      rename_i hlt
      split at hl
      · rename_i hfirst
        cases hl
        exact h.cut (Nat.lt_of_not_le hlt) hfirst (hc.resolve_left hlt)
      · cases hl
  | acquire route looks consumer max now =>
    obtain ⟨l, hl, hrest⟩ := Option.bind_eq_some_iff.mp hs
    obtain ⟨⟨sp', r⟩, hr, rfl⟩ := Option.map_eq_some_iff.mp hrest
    obtain ⟨hext, hlooks⟩ := follow_extends hc hl
    have hi := h.extend hext
    have hviews : ∀ v ∈ looks.map Prod.snd, l.Extends v.log ∧ v.log.first ≤ l.first := by
      intro v hv
      obtain ⟨look, hlook, rfl⟩ := mem_map.mp hv
      exact ⟨hlooks look hlook, Nat.le_of_eq (hlooks look hlook).1.symm⟩
    obtain ⟨⟨hlo, hhi⟩, hend, hcov⟩ := acquire_records hi.window hi.head hviews hr
    refine ⟨(acquire_leases hi.window (fun v hv => (hviews v hv).2) hr).1,
      Nat.le_trans hi.head hlo, ?_, ?_⟩
    · have := hi.reached
      dsimp only at this hend ⊢
      omega
    · intro x hx hstart hlt
      by_cases hold : x.seq < w.sp.next
      · obtain ⟨d, base, hd, hrec⟩ := hi.read x hx hstart hold
        exact ⟨d, base, mem_append_left _ hd, hrec⟩
      · obtain ⟨d, hd, hrec⟩ := hcov x hx (Nat.le_of_not_lt hold) hlt
        exact ⟨d, sp'.base, mem_append_right _ (mem_map.mpr ⟨d, hd, rfl⟩), hrec,
          Nat.le_trans hhi (Nat.le_of_not_lt hold)⟩
  | ack consumer seq =>
    cases hs
    obtain ⟨_, hnext, hbase⟩ := SharePartition.frame_stable.ack (.refl w.sp) consumer seq
    refine ⟨SharePartition.inv_stable.ack h.window consumer seq, Nat.le_trans h.head hbase, ?_, ?_⟩
    · dsimp only
      rw [hnext]
      exact h.reached
    · intro x hx hstart hlt
      exact h.read x hx hstart (hnext ▸ hlt)

def opened (topic : String) (id : Int) (l : Log) (cursors : Option Cursor) (cfg : ShareConfig) :
    Rewind := ⟨l, openSharePartition topic id l.first cursors cfg, []⟩

theorem opened_inv (topic : String) (id : Int) (l : Log) (cursors : Option Cursor)
    (cfg : ShareConfig) :
    Inv (opened topic id l cursors cfg).sp.base (opened topic id l cursors cfg) := by
  refine ⟨openSharePartition_inv topic id l.positive cursors cfg, ?_, .inl (Nat.le_refl _), ?_⟩
  · simp only [opened, openSharePartition]
    split <;> omega
  · intro r _ hlo hhi
    exact absurd hhi (Nat.not_lt.mpr hlo)

/-- While the log is not cut back over what the window has read, the base passes no
record that is in the log and was not handed out before. -/
theorem base_passes_delivered (topic : String) (id : Int) (l : Log) (cursors : Option Cursor)
    (cfg : ShareConfig) {ops : List Op} {w : Rewind}
    (hr : Run Step (Ahead (opened topic id l cursors cfg).sp.base) (opened topic id l cursors cfg)
      ops w) :
    ∀ r ∈ w.log.records, (opened topic id l cursors cfg).sp.base ≤ r.seq → r.seq < w.sp.base →
      w.Delivered r := by
  have hi := hr.invariant (Inv (opened topic id l cursors cfg).sp.base)
    (opened_inv topic id l cursors cfg) (fun _ _ _ hi hc hs => hi.step hc hs)
  intro r hm hs hb
  exact hi.read r hm hs (Nat.lt_of_lt_of_le hb hi.window.ordered)

def emptyLog : Log where
  first := 1
  records := []
  positive := Nat.one_pos
  numbered := nofun

def fresh : Rewind := opened "jobs" 0 emptyLog (some {}) {}

def appends (payload : UInt8) : Op := .log (.append (Record.ofPayload [payload]) 1 1)

def logOf (payloads : List UInt8) : Option Log :=
  emptyLog.applyAll (payloads.map (fun p => .append (Record.ofPayload [p]) 1 1))

def acquires (l : Log) (max : Int) : Op := .acquire (fun _ _ => true) [([], l.view)] "a" max 5

def replacedUnread : List Op :=
  [appends 1, appends 2] ++ (logOf [1, 2]).toList.map (acquires · 1) ++
    [.log (.truncateTo 2), appends 3] ++ (logOf [1, 3]).toList.map (acquires · 1) ++
    [.ack "a" 1, .ack "a" 2]

theorem replaced_unread_is_delivered :
    ∃ w, Run Step (Ahead 1) fresh replacedUnread w ∧ w.sp.base = 3 ∧
      ∀ r ∈ w.log.records, 1 ≤ r.seq → r.seq < 3 → w.Delivered r := by
  refine Run.shown (fun w => w.sp.base = 3) (by decide +kernel) ?_
  rintro w hr hb
  exact ⟨hb, hb ▸ base_passes_delivered "jobs" 0 emptyLog (some {}) {} hr⟩

def replacedRead : List Op :=
  [appends 1, appends 2] ++ (logOf [1, 2]).toList.map (acquires · 2) ++
    [.log (.truncateTo 2), appends 3, .ack "a" 1, .ack "a" 2]

/-- The base passes a record that was never handed out: the window still had the
one that was cut away. -/
theorem replaced_read_is_skipped : ∃ w, Run Step always fresh replacedRead w ∧ w.sp.base = 3 ∧
      ∃ r ∈ w.log.records, 1 ≤ r.seq ∧ r.seq < 3 ∧ ¬ w.Delivered r := by
  refine Run.shown (fun w => w.sp.base = 3 ∧ ∃ r ∈ w.log.records, 1 ≤ r.seq ∧ r.seq < 3 ∧
      ∀ x ∈ w.given, x.1.record ≠ r) (by decide +kernel) ?_
  rintro w hr ⟨hb, hskip⟩
  obtain ⟨r, hm, hlo, hhi, hnone⟩ := hskip
  exact ⟨hb, r, hm, hlo, hhi, fun ⟨d, base, hd, hrec, _⟩ => hnone (d, base) hd hrec⟩

end Rewind
end Boltq.Queuelog
