import Boltq.Queuelog.Acquire

namespace Boltq.Queuelog
open Lib Boltq.Stream Std List Delivery

theorem heapPush_eq (seq : Nat) (heap : List Nat) :
    heapPush seq heap = heap.orderedInsert (· ≤ ·) seq := by
  induction heap with
  | nil => rfl
  | cons s heap ih => simp only [heapPush, orderedInsert, ih]

theorem sorted_heapPush {heap : List Nat} (h : heap.Pairwise (· ≤ ·)) (seq : Nat) :
    (heapPush seq heap).Pairwise (· ≤ ·) := by
  rw [heapPush_eq]
  exact h.orderedInsert seq heap

namespace SharePartition
variable {start first : Nat} {sp : SharePartition}

structure InOrder (max : Nat) (heap : List Nat) (sp : SharePartition) (out new : List Delivery) :
    Prop where
  rising : (new.map Delivery.seq).Pairwise (· < ·)
  from_heap : ∀ d ∈ new, d.seq ∈ heap ∧
    ∃ e, sp.entries[d.seq]? = some e ∧ e.state = .available
  passed : ∀ (seq : Nat) (e : Entry), seq ∈ heap → sp.entries[seq]? = some e →
    e.state = .available →
    seq ∈ new.map Delivery.seq ∨ max ≤ (out ++ new).length ∧ ∀ d ∈ new, d.seq ≤ seq

theorem InOrder.skip {max : Nat} {heap : List Nat} {out new : List Delivery} {s : Nat}
    (h : InOrder max heap sp out new) (hna : ∀ e, sp.entries[s]? = some e → e.state ≠ .available) :
    InOrder max (s :: heap) sp out new := by
  refine ⟨h.rising, ?_, ?_⟩
  · intro d hd
    exact ⟨mem_cons_of_mem s (h.from_heap d hd).1, (h.from_heap d hd).2⟩
  · intro seq e hseq he hav
    rcases mem_cons.mp hseq with rfl | hseq
    · exact absurd hav (hna e he)
    · exact h.passed seq e hseq he hav

theorem InOrder.lease {max : Nat} {heap : List Nat} {out new : List Delivery} {s : Nat} {e : Entry}
    {consumer : String} {now : Int} (hle : ∀ seq ∈ heap, s ≤ seq)
    (he : sp.entries[s]? = some e) (hav : e.state = .available)
    (h : InOrder max heap (sp.lease s e consumer now).1
      (out ++ [(sp.lease s e consumer now).2]) new) :
    InOrder max (s :: heap) sp out ((sp.lease s e consumer now).2 :: new) := by
  have hother : ∀ seq : Nat, seq ≠ s →
      (sp.lease s e consumer now).1.entries[seq]? = sp.entries[seq]? :=
    fun seq hne => getElem?_insert_other _ hne
  have hne : ∀ d ∈ new, d.seq ≠ s := by
    intro d hd heq
    obtain ⟨_, e', he', hav'⟩ := h.from_heap d hd
    rw [heq, lease_entry] at he'
    cases he'
    cases hav'
  refine ⟨?_, ?_, ?_⟩
  · refine pairwise_cons.mpr ⟨fun seq hseq => ?_, h.rising⟩
    obtain ⟨d, hd, rfl⟩ := mem_map.mp hseq
    exact Nat.lt_of_le_of_ne (hle d.seq (h.from_heap d hd).1) (hne d hd).symm
  · refine forall_mem_cons.mpr ⟨⟨mem_cons_self, e, he, hav⟩, fun d hd => ?_⟩
    obtain ⟨hin, e', he', hav'⟩ := h.from_heap d hd
    exact ⟨mem_cons_of_mem s hin, e', (hother _ (hne d hd)).symm.trans he', hav'⟩
  · intro seq e' hseq he' hav'
    by_cases heq : seq = s
    · exact .inl (heq ▸ mem_cons_self)
    have hin := (mem_cons.mp hseq).resolve_left heq
    rcases h.passed seq e' hin ((hother seq heq).trans he') hav' with hin' | ⟨hfull, hbelow⟩
    · exact .inl (mem_cons_of_mem _ hin')
    · rw [append_assoc, singleton_append] at hfull
      exact .inr ⟨hfull, forall_mem_cons.mpr ⟨hle seq hin, hbelow⟩⟩

theorem redeliver_order (consumer : String) (max : Nat) (now : Int) {heap : List Nat}
    (hs : heap.Pairwise (· ≤ ·)) (sp : SharePartition) (out : List Delivery) :
    ∃ new, (redeliver consumer max now heap sp out).2 = out ++ new ∧
      InOrder max heap sp out new := by
  induction heap generalizing sp out with
  | nil => exact ⟨[], (append_nil _).symm, .nil, forall_mem_nil _, nofun⟩
  | cons s heap ih =>
    obtain ⟨hle, hs⟩ := pairwise_cons.mp hs
    unfold redeliver
    split
    · rename_i hmax
      refine ⟨[], (append_nil _).symm, .nil, forall_mem_nil _, fun _ _ _ _ _ => ?_⟩
      exact .inr ⟨by rwa [append_nil], forall_mem_nil _⟩
    cases he : sp.entries[s]? with
    | none =>
      obtain ⟨new, hnew, ho⟩ := ih hs sp out
      exact ⟨new, hnew, ho.skip (by simp [he])⟩
    | some e =>
      dsimp only
      split
      · rename_i hav
        obtain ⟨new, hnew, ho⟩ :=
          ih hs (sp.lease s e consumer now).1 (out ++ [(sp.lease s e consumer now).2])
        refine ⟨(sp.lease s e consumer now).2 :: new, ?_, ho.lease hle he hav⟩
        rw [hnew, append_assoc, singleton_append]
      · rename_i hna
        obtain ⟨new, hnew, ho⟩ := ih hs sp out
        exact ⟨new, hnew, ho.skip (by simp [he, hna])⟩

theorem redeliver_sorted (consumer : String) (max : Nat) (now : Int) {heap : List Nat}
    (hs : heap.Pairwise (· ≤ ·)) (sp : SharePartition) (out : List Delivery) :
    (redeliver consumer max now heap sp out).1.available.Pairwise (· ≤ ·) := by
  induction heap generalizing sp out with
  | nil => exact .nil
  | cons s heap ih =>
    have hrest := (pairwise_cons.mp hs).2
    unfold redeliver
    split
    · exact hs
    cases sp.entries[s]? with
    | none => exact ih hrest sp out
    | some e =>
      dsimp only
      split
      · exact ih hrest _ _
      · exact ih hrest sp out

theorem skipTo_available (sp : SharePartition) (seq : Nat) :
    (sp.skipTo seq).available = sp.available := by
  obtain ⟨_, _, _, _, _, h⟩ := sp.skipTo_same seq
  rw [h]

theorem enterAll_seqs (consumer : String) (max : Nat) (now : Int) (recs : List Record)
    (sp : SharePartition) (out : List Delivery) :
    (enterAll consumer max now recs sp out).1.available = sp.available ∧
    ∃ k, (enterAll consumer max now recs sp out).2.map seq =
      out.map seq ++ (recs.take k).map Record.seq := by
  induction recs generalizing sp out with
  | nil => exact ⟨rfl, 0, by simp [enterAll]⟩
  | cons r recs ih =>
    unfold enterAll
    split
    · exact ⟨rfl, 0, by simp⟩
    obtain ⟨hav, k, hk⟩ := ih (enter consumer now sp r).1 (out ++ [(enter consumer now sp r).2])
    refine ⟨hav, k + 1, hk.trans ?_⟩
    rw [map_append, append_assoc]
    rfl

theorem readFresh_order (consumer : String) (max : Nat) (now : Int) (h : Inv start first sp)
    (hv : ∀ v ∈ views, v.log.first ≤ first)
    (hr : readFresh consumer max now views sp out = some (sp', r)) :
    sp'.available = sp.available ∧ ∀ new, given r = out ++ new →
      (new.map seq).Pairwise (· < ·) := by
  have hnone : ∀ (out new : List Delivery), out = out ++ new →
      (new.map seq).Pairwise (· < ·) := by
    intro out new hnew
    rw [self_eq_append_right.mp hnew]
    exact .nil
  fun_induction readFresh consumer max now views sp out with
  | case1 sp out | case3 view views sp out | case7 view views sp out =>
    cases hr
    exact ⟨rfl, hnone out⟩
  | case2 | case4 => cases hr
  | case5 view sp out hroom requested oldest hread later views ih =>
    obtain ⟨hav, hrise⟩ := ih (h.skip_gives (hv later (by simp))).1
      (fun v hm => hv v (by simp [hm])) hr
    exact ⟨hav.trans (skipTo_available sp later.log.first), hrise⟩
  | case6 view views sp out hroom e hother hread =>
    cases hr
    refine ⟨rfl, fun new hnew => hnone out new ?_⟩
    split at hnew
    · rename_i hnil
      rw [hnil] at hnew ⊢
      exact hnew
    · exact hnew
  | case8 view views sp out hroom recs hne hread sp1 out1 hall ih =>
    have hpos : 0 < sp.next := Nat.lt_of_lt_of_le h.positive h.ordered
    obtain ⟨hd, hlen⟩ := LogView.numbered_read hread hpos (by omega)
    obtain ⟨hi, old, hold, hg⟩ := enterAll_spec consumer max now out h hd (by omega)
    obtain ⟨hav, k, hk⟩ := enterAll_seqs consumer max now recs sp out
    rw [hold, map_append, append_cancel_left_eq] at hk
    simp only [hall] at hi hold hg hav
    have hv' : ∀ v ∈ views, v.log.first ≤ first := fun v hm => hv v (by simp [hm])
    obtain ⟨hav', hrise⟩ := ih hi hv' hr
    obtain ⟨_, late, hg', hlate⟩ := readFresh_spec consumer max now hi hv' hr
    refine ⟨hav'.trans hav, fun new hnew => ?_⟩
    rw [hlate, hold, append_assoc, append_cancel_left_eq] at hnew
    rw [← hnew, map_append, hk]
    refine pairwise_append.mpr ⟨?_, hrise late hlate, ?_⟩
    · exact pairwise_map.mpr (hd.take k).increasing
    intro s hs t ht
    rw [← hk] at hs
    obtain ⟨d, hdel, rfl⟩ := mem_map.mp hs
    obtain ⟨d', hdel', rfl⟩ := mem_map.mp ht
    exact Nat.lt_of_lt_of_le (hg.fresh d hdel).2.1 (hg'.fresh d' hdel').1

theorem readFresh_full {consumer : String} {max : Nat} {now : Int} {views : List LogView}
    {out : List Delivery} {sp' : SharePartition} {r : Except ShareErr (List Delivery)}
    (hfull : max ≤ out.length)
    (hr : readFresh consumer max now views sp out = some (sp', r)) : given r = out := by
  cases views with
  | nil =>
    rw [readFresh.eq_1, if_pos (.inl hfull)] at hr
    cases hr
    rfl
  | cons view views =>
    unfold readFresh at hr
    rw [if_pos (.inl hfull)] at hr
    cases hr
    rfl

structure Ready (sp : SharePartition) : Prop where
  window : ∃ start first, Inv start first sp
  sorted : sp.available.Pairwise (· ≤ ·)

theorem advance_available (sp : SharePartition) : sp.advance.1.available = sp.available := by
  obtain ⟨_, _, _, _, h⟩ := sp.advance_same
  rw [h]

theorem ready_stable : Stable Ready where
  counted := fun ⟨⟨start, first, hi⟩, hs⟩ _ _ _ _ => ⟨⟨start, first, inv_stable.counted hi _ _ _ _⟩, hs⟩
  release := fun ⟨⟨start, first, hi⟩, hs⟩ he =>
    ⟨⟨start, first, inv_stable.release hi he⟩, sorted_heapPush hs _⟩
  retire := fun ⟨⟨start, first, hi⟩, hs⟩ he => ⟨⟨start, first, inv_stable.retire hi he⟩, hs⟩
  advance := fun ⟨⟨start, first, hi⟩, hs⟩ =>
    ⟨⟨start, first, hi.advance⟩, by rw [advance_available]; exact hs⟩

theorem exists_first (first : Nat) (views : List LogView) :
    ∃ later, first ≤ later ∧ ∀ v ∈ views, v.log.first ≤ later := by
  induction views with
  | nil => exact ⟨first, Nat.le_refl _, forall_mem_nil _⟩
  | cons v views ih =>
    obtain ⟨later, hle, hall⟩ := ih
    refine ⟨max later v.log.first, by omega, forall_mem_cons.mpr ⟨by omega, fun w hw => ?_⟩⟩
    exact (hall w hw).trans (Nat.le_max_left _ _)

/-- The record waits to be redelivered, or its lease is over and it goes to no dead-letter
topic: it has deliveries left, or there is such a topic and it does not take the record. -/
def Redeliverable (sp : SharePartition) (route : DeadLetterFunc) (now : Int) (seq : Nat) : Prop :=
  ∃ e, sp.entries[seq]? = some e ∧ (e.state = .available ∨ e.deadline ≤ now ∧ (sp.Exhausted e →
    sp.cfg.deadLetter = true ∧
      route e.record s!"lease expired after {e.count} deliveries" = false))

theorem reapOne_cfg (route : DeadLetterFunc) (now : Int) (sp : SharePartition) (seq : Nat)
    (e : Entry) : (reapOne route now sp seq e).cfg = sp.cfg := by
  unfold reapOne deadLetter
  dsimp only
  split_ifs <;> rfl

theorem reapOne_frees {route : DeadLetterFunc} {now : Int} {seq : Nat} {e : Entry}
    (he : sp.entries[seq]? = some e)
    (hfree : e.state = .available ∨ e.deadline ≤ now ∧ (sp.Exhausted e → sp.cfg.deadLetter = true ∧
      route e.record s!"lease expired after {e.count} deliveries" = false)) :
    ∃ e', (reapOne route now sp seq e).entries[seq]? = some e' ∧ e'.state = .available := by
  unfold reapOne
  split
  · rename_i hkeep
    refine ⟨e, he, ?_⟩
    rcases hfree with hav | ⟨hdue, _⟩
    · exact hav
    cases hst : e.state with
    | available => rfl
    | acquired =>
      rcases hkeep with hne | hlt
      · exact absurd hst hne
      · exact absurd hdue (Int.not_le.mpr hlt)
  rename_i hdue
  obtain ⟨hst, -⟩ := not_or.mp hdue
  have hroute := (hfree.resolve_left (by rw [not_not.mp hst]; nofun)).2
  have hreleased : ∀ sp : SharePartition,
      ∃ e', (sp.release seq e).entries[seq]? = some e' ∧ e'.state = .available :=
    fun sp => ⟨_, TreeMap.getElem?_insert_self, rfl⟩
  dsimp only
  split
  · rename_i hex
    obtain ⟨hdl, hno⟩ := hroute hex
    rw [deadLetter, if_pos (by rw [hdl, hno]; rfl)]
    exact hreleased _
  · exact hreleased _

theorem Redeliverable.reaped {seq : Nat} (h : sp.Redeliverable route now seq) :
    ∃ e, (sp.reapExpired route now).entries[seq]? = some e ∧ e.state = .available := by
  obtain ⟨e, he, hfree⟩ := h
  unfold reapExpired
  rw [advance_entries]
  -- until the walk comes to the entry it is as it was, and afterwards it is available
  have hwalk := fold_rest (P := fun xs sp' => sp'.cfg = sp.cfg ∧
      ((seq, e) ∈ xs ∧ sp'.entries[seq]? = some e ∨
        ∃ e', sp'.entries[seq]? = some e' ∧ e'.state = .available))
    (reapOne_other route now) ?_ ⟨rfl, .inl ⟨TreeMap.mem_toList_iff_getElem?_eq_some.mpr he, he⟩⟩
  · exact hwalk.2.resolve_left (fun h => absurd h.1 not_mem_nil)
  rintro ⟨s, e'⟩ xs sp' ⟨hcfg, hp⟩ hs
  refine ⟨(reapOne_cfg route now sp' s e').trans hcfg, ?_⟩
  by_cases hse : seq = s
  · subst hse
    refine .inr (reapOne_frees hs ?_)
    rcases hp with ⟨-, he'⟩ | ⟨e'', he'', hav⟩
    · cases he'.symm.trans hs
      simpa only [Exhausted, hcfg] using hfree
    · cases he''.symm.trans hs
      exact .inl hav
  · rw [reapOne_other route now sp' s e' seq hse]
    refine hp.imp_left fun ⟨hin, he'⟩ => ⟨(mem_cons.mp hin).resolve_left ?_, he'⟩
    exact fun heq => hse (congrArg Prod.fst heq)

theorem reapExpired_new (route : DeadLetterFunc) (now : Int) {seq : Nat} (h : seq ∉ sp.entries) :
    seq ∉ (sp.reapExpired route now).entries := by
  unfold reapExpired
  rw [advance_entries]
  refine fold_entries (P := fun sp => seq ∉ sp.entries) (reapOne_other route now) ?_ h
  intro sp s e hn hs
  have hne : seq ≠ s := fun heq => hn (heq ▸ mem_of_getElem? hs)
  rw [TreeMap.mem_iff_isSome_getElem?, reapOne_other route now sp s e seq hne,
    ← TreeMap.mem_iff_isSome_getElem?]
  exact hn

/-- What one call hands out, from the window it finds: in rising order, no redeliverable record
passed over, and no new record while a redeliverable one is left. -/
structure Ordered (sp : SharePartition) (route : DeadLetterFunc) (now : Int) (out : List Delivery) :
    Prop where
  rising : (out.map Delivery.seq).Pairwise (· < ·)
  oldest : ∀ seq, sp.Redeliverable route now seq →
    (∃ d ∈ out, seq < d.seq) → ∃ d ∈ out, d.seq = seq
  fresh : ∀ d ∈ out, d.seq ∉ sp.entries → ∀ seq, sp.Redeliverable route now seq →
    ∃ d' ∈ out, d'.seq = seq

theorem Ready.acquire (h : Ready sp) {route : DeadLetterFunc} {views : List LogView}
    {consumer : String} {max now : Int} {sp' : SharePartition} {r : Except ShareErr (List Delivery)}
    (hr : sp.acquire route views consumer max now = some (sp', r)) :
    Ready sp' ∧ Ordered sp route now (given r) := by
  have hnone : Ordered sp route now [] :=
    ⟨.nil, fun _ _ hd => absurd hd (by simp), forall_mem_nil _⟩
  unfold SharePartition.acquire at hr
  split at hr
  · cases hr
    exact ⟨h, hnone⟩
  split at hr
  · cases hr
    exact ⟨h, hnone⟩
  dsimp only at hr
  obtain ⟨⟨start, first, hi⟩, hsorted⟩ := ready_stable.reapExpired h route now
  have hfreed := fun seq (hs : sp.Redeliverable route now seq) => hs.reaped
  have hnot := fun seq (hs : seq ∉ sp.entries) => reapExpired_new route now hs
  generalize sp.reapExpired route now = sp1 at hr hi hsorted hfreed hnot
  obtain ⟨later, hle, hv⟩ := exists_first first views
  have hi1 := hi.later hle
  obtain ⟨hi2, _, hnext, _⟩ := redeliver_spec consumer max.toNat now [] hi1
  have hsorted2 := redeliver_sorted consumer max.toNat now hsorted sp1 []
  obtain ⟨old, hold, ho⟩ := redeliver_order consumer max.toNat now hsorted sp1 []
  generalize redeliver consumer max.toNat now sp1.available sp1 [] = p
    at hr hi2 hnext hsorted2 hold
  obtain ⟨sp2, out⟩ := p
  rw [nil_append] at hold
  obtain rfl : out = old := hold
  dsimp only at hr hi2 hnext hsorted2
  obtain ⟨hi3, new, hg, hout⟩ := readFresh_spec consumer max.toNat now hi2 hv hr
  obtain ⟨hav, hrise⟩ := readFresh_order consumer max.toNat now hi2 hv hr
  refine ⟨⟨⟨start, later, hi3⟩, hav ▸ hsorted2⟩, ?_⟩
  have hwindow : ∀ d ∈ out, d.seq ∈ sp1.entries := by
    intro d hd
    obtain ⟨_, e, he, _⟩ := ho.from_heap d hd
    exact mem_of_getElem? he
  have hfull : max.toNat ≤ out.length → new = [] := by
    intro hm
    have hgiven := readFresh_full hm hr
    rw [hout] at hgiven
    exact append_right_eq_self.mp hgiven
  rw [hout]
  refine ⟨?_, ?_, ?_⟩
  · rw [map_append]
    refine pairwise_append.mpr ⟨ho.rising, hrise new hout, ?_⟩
    intro s hs t ht
    obtain ⟨d, hd, rfl⟩ := mem_map.mp hs
    obtain ⟨d', hd', rfl⟩ := mem_map.mp ht
    have hlt := (hi1.entry_range (hwindow d hd)).2
    have hge := (hg.fresh d' hd').1
    omega
  · rintro seq hseq ⟨d, hd, hlt⟩
    obtain ⟨e, he, hst⟩ := hfreed seq hseq
    rcases ho.passed seq e (hi1.heaped seq e he hst) he hst with hin | ⟨hm, hbelow⟩
    · obtain ⟨d', hd', hseq⟩ := mem_map.mp hin
      exact ⟨d', mem_append_left new hd', hseq⟩
    · rw [hfull hm, append_nil] at hd
      exact absurd (hbelow d hd) (Nat.not_le_of_lt hlt)
  · intro d hd hfresh seq hseq
    obtain ⟨e, he, hst⟩ := hfreed seq hseq
    have hnew : d ∈ new :=
      (mem_append.mp hd).resolve_left (fun hin => hnot d.seq hfresh (hwindow d hin))
    rcases ho.passed seq e (hi1.heaped seq e he hst) he hst with hin | ⟨hm, _⟩
    · obtain ⟨d', hd', hseq⟩ := mem_map.mp hin
      exact ⟨d', mem_append_left new hd', hseq⟩
    · rw [hfull hm] at hnew
      cases hnew

inductive Call where
  | acquire (route : DeadLetterFunc) (views : List LogView) (consumer : String) (max now : Int)
  | ack (consumer : String) (seq : Nat)
  | nack (route : DeadLetterFunc) (consumer : String) (seq : Nat) (requeue : Bool)
  | sweep (route : DeadLetterFunc) (now : Int)
  | releaseConsumer (consumer : String)
  | releaseAll
  | close

def call (sp : SharePartition) : Call → Option SharePartition
  | .acquire route views consumer max now =>
    (sp.acquire route views consumer max now).map Prod.fst
  | .ack consumer seq => some (sp.ack consumer seq).1
  | .nack route consumer seq requeue => some (sp.nack route consumer seq requeue).1
  | .sweep route now => some (sp.sweep route now)
  | .releaseConsumer consumer => some (sp.releaseConsumer consumer).1
  | .releaseAll => some sp.releaseAll.1
  | .close => some { sp with closed := true }

def Called (sp : SharePartition) (c : Call) (sp' : SharePartition) : Prop := sp.call c = some sp'

theorem Ready.called (h : Ready sp) (hc : sp.Called c sp') : Ready sp' := by
  cases c with
  | acquire route views consumer max now =>
    obtain ⟨⟨sp1, r⟩, hr, rfl⟩ := Option.map_eq_some_iff.mp hc
    exact (h.acquire hr).1
  | ack consumer seq =>
    cases hc
    exact ready_stable.ack h consumer seq
  | nack route consumer seq requeue =>
    cases hc
    exact ready_stable.nack h route consumer seq requeue
  | sweep route now =>
    cases hc
    exact ready_stable.sweep h route now
  | releaseConsumer consumer =>
    cases hc
    exact ready_stable.releaseWhere h _
  | releaseAll =>
    cases hc
    exact ready_stable.releaseWhere h _
  | close =>
    cases hc
    obtain ⟨start, first, hi⟩ := h.window
    exact ⟨⟨start, first, { hi with }⟩, h.sorted⟩

theorem openSharePartition_ready (topic : String) (id : Int) (l : Log) (cursors : Option Cursor)
    (cfg : ShareConfig) : Ready (openSharePartition topic id l.first cursors cfg) :=
  ⟨⟨_, l.first, openSharePartition_inv topic id l.positive cursors cfg⟩, .nil⟩

/-- Whatever was done with a window, and whatever the log is found to be, a call
that acquires records hands them out in strictly rising order, no older record that
could be redelivered is left out, and a fresh one comes only after all of those. -/
theorem acquired_in_order (topic : String) (id : Int) (l : Log) (cursors : Option Cursor)
    (cfg : ShareConfig) {calls : List Call} {sp : SharePartition}
    (hrun : Run Called always (openSharePartition topic id l.first cursors cfg) calls sp)
    {route : DeadLetterFunc} {views : List LogView} {consumer : String} {max now : Int}
    {sp' : SharePartition} {r : Except ShareErr (List Delivery)}
    (hr : sp.acquire route views consumer max now = some (sp', r)) :
    Ordered sp route now (given r) := by
  have hready := hrun.invariant Ready (openSharePartition_ready topic id l cursors cfg)
    (fun _ _ _ h _ hs => h.called hs)
  exact (hready.acquire hr).2

def threeRecords : Log where
  first := 1
  records := [{ Record.ofPayload [1] with seq := 1 }, { Record.ofPayload [2] with seq := 2 },
    { Record.ofPayload [3] with seq := 3 }]
  positive := Nat.one_pos
  numbered := by
    intro i r hr
    match i with
    | 0 | 1 | 2 =>
      cases hr
      rfl
    | _ + 3 => cases hr

def givenBack : List Call :=
  [.acquire (fun _ _ => true) [threeRecords.view] "a" 2 5, .nack (fun _ _ => true) "a" 2 true,
    .nack (fun _ _ => true) "a" 1 true]

theorem given_back_in_order :
    ∃ sp sp' r, Run Called always (openSharePartition "jobs" 0 1 none {}) givenBack sp ∧
      sp.acquire (fun _ _ => true) [threeRecords.view] "b" 3 6 = some (sp', r) ∧
      (given r).map Delivery.seq = [1, 2, 3] ∧
      Ordered sp (fun _ _ => true) 6 (given r) := by
  obtain ⟨sp, hrun, hsome⟩ := Run.executed always call (openSharePartition "jobs" 0 1 none {})
    givenBack
    (fun sp =>
      (sp.acquire (fun _ _ => true) [threeRecords.view] "b" 3 6).map
        (fun p => (given p.2).map seq) = some [1, 2, 3]) (by decide +kernel)
  obtain ⟨⟨sp', r⟩, hr, hseqs⟩ := Option.map_eq_some_iff.mp hsome
  exact ⟨sp, sp', r, hrun, hr, hseqs, acquired_in_order "jobs" 0 threeRecords none {} hrun hr⟩

end SharePartition
end Boltq.Queuelog
