import Boltq.Queuelog.Acquire

namespace Boltq.Queuelog
open Lib Boltq.Stream Std List

structure Log.Evolves (l l' : Log) : Prop where
  first : l.first ≤ l'.first
  next : l.next ≤ l'.next
  same : l.records.drop (l'.first - l.first) <+: l'.records

instance (l l' : Log) : Decidable (l.Evolves l') :=
  decidable_of_iff (l.first ≤ l'.first ∧ l.next ≤ l'.next ∧
      l.records.drop (l'.first - l.first) <+: l'.records)
    ⟨fun ⟨hf, hn, hs⟩ => ⟨hf, hn, hs⟩, fun ⟨hf, hn, hs⟩ => ⟨hf, hn, hs⟩⟩

structure Share where
  log : Log
  sp : SharePartition

namespace Share
open SharePartition

inductive Op where
  | log (l : Log)
  | acquire (route : DeadLetterFunc) (views : List LogView) (consumer : String) (max now : Int)
  | ack (consumer : String) (seq : Nat)
  | nack (route : DeadLetterFunc) (consumer : String) (seq : Nat) (requeue : Bool)
  | sweep (route : DeadLetterFunc) (now : Int)
  | releaseConsumer (consumer : String)
  | releaseAll

def logAfter (l : Log) (views : List LogView) : Log := (views.map LogView.log).getLastD l

def step (w : Share) : Op → Option Share
  | .log l => if w.log.Evolves l then some { w with log := l } else none
  | .acquire route views consumer max now =>
    if (w.log :: views.map LogView.log).IsChain Log.Evolves then
      (w.sp.acquire route views consumer max now).map (fun r => ⟨logAfter w.log views, r.1⟩)
    else none
  | .ack consumer seq => some { w with sp := (w.sp.ack consumer seq).1 }
  | .nack route consumer seq requeue => some { w with sp := (w.sp.nack route consumer seq requeue).1 }
  | .sweep route now => some { w with sp := w.sp.sweep route now }
  | .releaseConsumer consumer => some { w with sp := (w.sp.releaseConsumer consumer).1 }
  | .releaseAll => some { w with sp := w.sp.releaseAll.1 }

def Step (w : Share) (op : Op) (w' : Share) : Prop := w.step op = some w'

def deliveries (w : Share) : Op → List Delivery
  | .acquire route views consumer max now =>
    (w.sp.acquire route views consumer max now).elim [] (fun r => given r.2)
  | _ => []

def Op.Ends (op : Op) (seq : Nat) (e : Entry) : Prop :=
  match op with
  | .log _ => False
  | .acquire _ _ _ _ now | .sweep _ now => e.deadline ≤ now
  | .ack consumer s | .nack _ consumer s _ => s = seq ∧ e.holder = consumer
  | .releaseConsumer consumer => e.holder = consumer
  | .releaseAll => True

theorem evolves_first (h : (l :: ls).IsChain Log.Evolves) :
    ∀ x ∈ l :: ls, x.first ≤ (ls.getLastD l).first := by
  induction ls generalizing l with
  | nil =>
    intro x hx
    cases mem_singleton.mp hx
    exact Nat.le_refl _
  | cons m ls ih =>
    obtain ⟨hlm, hrest⟩ := isChain_cons_cons.mp h
    intro x hx
    rw [getLastD_cons]
    rcases mem_cons.mp hx with rfl | hx
    · exact Nat.le_trans hlm.first (ih hrest m mem_cons_self)
    · exact ih hrest x hx

structure Leases (w : Share) (op : Op) (w' : Share) : Prop where
  kept : ∀ (seq : Nat) (e : Entry), w.sp.entries[seq]? = some e → e.state = .acquired →
    ¬ op.Ends seq e →
    (w'.sp.entries[seq]? = some e ∨ seq < w'.log.first) ∧ ∀ d ∈ w.deliveries op, d.seq ≠ seq
  given : ∀ d ∈ w.deliveries op, d.seq ∉ w'.sp.done ∧
    (w'.sp.entries[d.seq]? = some d.entry ∨ d.seq < w'.log.first)
  done : ∀ seq ∈ w.sp.done, seq ∈ w'.sp.done

theorem Leases.quiet {w : Share} {sp : SharePartition} (hd : w.deliveries op = [])
    (hk : ∀ (seq : Nat) (e : Entry), w.sp.entries[seq]? = some e → ¬ op.Ends seq e →
      sp.entries[seq]? = some e) (hdone : ∀ seq ∈ w.sp.done, seq ∈ sp.done) :
    Leases w op { w with sp } := by
  refine ⟨?_, ?_, hdone⟩
  · intro seq e he _ hend
    rw [hd]
    exact ⟨Or.inl (hk seq e he hend), nofun⟩
  · rw [hd]
    nofun

theorem Step.spec {w : Share} (h : Inv start w.log.first w.sp) (hs : w.Step op w') :
    Inv start w'.log.first w'.sp ∧ Leases w op w' := by
  cases op with
  | log l =>
    simp only [Step, step] at hs
    split at hs
    · rename_i he
      cases hs
      exact ⟨h.later he.first, fun _ _ he _ _ => ⟨Or.inl he, nofun⟩, nofun, fun _ hd => hd⟩
    · cases hs
  | acquire route views consumer max now =>
    simp only [Step, step] at hs
    split at hs
    case isFalse => cases hs
    rename_i hc
    obtain ⟨⟨sp', r⟩, hr, rfl⟩ := Option.map_eq_some_iff.mp hs
    have hfirst := evolves_first hc
    rw [← logAfter] at hfirst
    obtain ⟨hi, hlease⟩ := acquire_leases (h.later (hfirst w.log mem_cons_self))
      (fun v hv => hfirst v.log (mem_cons_of_mem _ (mem_map.mpr ⟨v, hv, rfl⟩))) hr
    have hdel : w.deliveries (.acquire route views consumer max now) = SharePartition.given r := by
      simp only [deliveries, hr, Option.elim_some]
    refine ⟨hi, ?_, ?_, hlease.done⟩
    · intro seq e he hacq hend
      have hd : now < e.deadline := Int.lt_of_not_ge hend
      rw [hdel]
      exact ⟨hlease.kept seq e he hacq hd, hlease.other seq e he hacq hd⟩
    · rw [hdel]
      exact hlease.given
  | ack consumer seq =>
    cases hs
    exact ⟨inv_stable.ack h consumer seq,
      .quiet rfl (fun _ _ => ack_keeps) (done_stable.ack (fun _ hd => hd) consumer seq)⟩
  | nack route consumer seq requeue =>
    cases hs
    exact ⟨inv_stable.nack h route consumer seq requeue, .quiet rfl
      (fun _ _ => nack_keeps route requeue) (done_stable.nack (fun _ hd => hd) route consumer seq requeue)⟩
  | sweep route now =>
    cases hs
    unfold sweep
    split
    · exact ⟨h, .quiet rfl (fun _ _ he _ => he) (fun _ hd => hd)⟩
    exact ⟨inv_stable.reapExpired h route now,
      .quiet rfl (fun _ _ he hend => reapExpired_keeps route he (Int.lt_of_not_ge hend))
        (done_stable.reapExpired (fun _ hd => hd) route now)⟩
  | releaseConsumer consumer =>
    cases hs
    exact ⟨inv_stable.releaseWhere h _,
      .quiet rfl (fun _ _ he hend => releaseWhere_keeps he (decide_eq_false hend))
        (fun _ hd => (releaseWhere_done _).symm ▸ hd)⟩
  | releaseAll =>
    cases hs
    exact ⟨inv_stable.releaseWhere h _,
      .quiet rfl (fun _ _ _ hend => absurd trivial hend) (fun _ hd => (releaseWhere_done _).symm ▸ hd)⟩

structure Sound (start : Nat) (w : Share) : Prop where
  window : ∀ seq, (seq ∈ w.sp.entries ∨ seq ∈ w.sp.retired) ↔ w.sp.base ≤ seq ∧ seq < w.sp.next
  apart : ∀ seq, ¬ (seq ∈ w.sp.entries ∧ seq ∈ w.sp.retired)
  bounded : (w.sp.next : Int) - w.sp.base ≤ w.sp.cfg.maxInFlight
  heaped : ∀ (seq : Nat) (e : Entry), w.sp.entries[seq]? = some e → e.state = .available →
    seq ∈ w.sp.available
  committed : ∀ c ∈ w.sp.cursors, ∀ pos ∈ c.position,
    ∀ seq, start ≤ seq → seq ∉ w.sp.done → w.log.first ≤ seq → pos ≤ seq

theorem sound_of_inv {w : Share} (h : Inv start w.log.first w.sp) : w.Sound start := by
  refine ⟨h.covered, fun seq hb => h.apart seq hb.1 hb.2, h.bounded, h.heaped, ?_⟩
  intro c hc pos hp seq hst hnd hf
  have hle := h.cursor c hc pos hp
  by_cases hb : seq < w.sp.base
  · rcases h.below seq hst hb with hd | hlt
    · exact absurd hd hnd
    · omega
  · omega

/-- Whatever happens to a window, its parts agree, and in every step a lease that
nothing ends stays with its holder while the record is in the log, nobody else
is handed the record, and what is handed out was never acknowledged or
dead-lettered and is leased to the one it is handed to. -/
theorem window_is_sound (topic : String) (id : Int) (l : Log) (cursors : Option Cursor)
    (cfg : ShareConfig) {ops : List Op} {w : Share}
    (hr : Run Step always ⟨l, openSharePartition topic id l.first cursors cfg⟩ ops w) :
    w.Sound (openSharePartition topic id l.first cursors cfg).base ∧
      ∀ op w', w.Step op w' → Leases w op w' := by
  have hi := hr.invariant
    (fun w => Inv (openSharePartition topic id l.first cursors cfg).base w.log.first w.sp)
    (openSharePartition_inv topic id l.positive cursors cfg) (fun _ _ _ hi _ hs => (hs.spec hi).1)
  exact ⟨sound_of_inv hi, fun op w' hs => (hs.spec hi).2⟩

def twoDeliveries : List Op :=
  [.acquire (fun _ _ => true) [(oneRecord 1).view] "a" 1 5, .releaseConsumer "a",
    .log (oneRecord 1), .acquire (fun _ _ => true) [] "b" 1 6, .ack "b" 1]

def freshShare : Share := ⟨oneRecord 1, openSharePartition "jobs" 0 1 (some {}) {}⟩

theorem two_deliveries_are_sound : ∃ w, Run Step always freshShare twoDeliveries w ∧
      w.sp.base = 2 ∧ w.sp.cursors = some { position := some 2 } ∧ w.Sound 1 := by
  refine Run.shown (fun w => w.sp.base = 2 ∧ w.sp.cursors = some { position := some 2 })
    (by decide +kernel) ?_
  rintro w hr ⟨hb, hc⟩
  exact ⟨hb, hc, (window_is_sound "jobs" 0 (oneRecord 1) (some {}) {} hr).1⟩

/-- Whatever commits a crash loses, a restarted queue goes back to every record that
was not settled before and that the log still holds. -/
theorem restart_skips_nothing (topic : String) (id : Int) (l : Log) (cursors : Option Cursor)
    (cfg : ShareConfig) {ops : List Op} {w : Share}
    (hr : Run Step always ⟨l, openSharePartition topic id l.first cursors cfg⟩ ops w)
    {left : Option Cursor} (hl : ∀ c ∈ left, ∀ pos ∈ c.position, pos ≤ w.sp.base)
    (cfg' : ShareConfig) (hs : (openSharePartition topic id l.first cursors cfg).base ≤ seq)
    (hf : w.log.first ≤ seq) (hd : seq ∉ w.sp.done) :
    (openSharePartition topic id w.log.first left cfg').base ≤ seq := by
  have hi := hr.invariant (fun w => Inv _ w.log.first w.sp)
    (openSharePartition_inv topic id l.positive cursors cfg) (fun _ _ _ hi _ hs => (hs.spec hi).1)
  by_cases hb : seq < w.sp.base
  · exact ((hi.below seq hs hb).elim hd (Nat.not_lt_of_le hf)).elim
  have hpos : left.elim w.log.first (·.positionOr w.log.first) ≤ seq := by
    rcases left with _ | ⟨_ | pos, _⟩
    · exact hf
    · exact hf
    · exact (hl _ rfl pos rfl).trans (Nat.le_of_not_lt hb)
  simp only [openSharePartition]
  split
  · exact hf
  · exact hpos

theorem unacked_record_comes_back : ∃ w, Run Step always freshShare (twoDeliveries.take 1) w ∧
    (openSharePartition "jobs" 0 w.log.first (some { position := some w.sp.base }) {}).base ≤ 1 := by
  refine Run.shown (fun w => w.log.first ≤ 1 ∧ 1 ∉ w.sp.done) (by decide +kernel) ?_
  rintro w hr ⟨hf, hd⟩
  exact restart_skips_nothing "jobs" 0 (oneRecord 1) (some {}) {} hr (by simp) {} (by decide) hf hd

end Share
end Boltq.Queuelog
