import Boltq.Outbox.Dispatch

namespace Boltq.Outbox.Push
open Lib Boltq.Stream Queuelog List

/-- The grace period is slept through. -/
def Unbroken (_ : Push) : Op → Prop
  | .grace slept => slept = true
  | _ => True

instance (w : Push) (op : Op) : Decidable (w.Unbroken op) := by
  unfold Unbroken
  split <;> infer_instance

def Passable (w : Push) (seq : Nat) : Prop := seq < w.base ∨ ∃ fate, (seq, fate) ∈ w.fates

structure Inv (w : Push) : Prop extends Past w w.Passable where
  batch : ∀ n, w.phase.last = some n → ∀ r ∈ w.log.records, r.seq ≤ n →
    w.Passable r.seq ∨ ∃ x ∈ w.phase.pending, x.seq = r.seq

section Steps
variable {w w' : Push} {op : Op}

theorem Inv.step (hi : Inv w) (ho : w.Unbroken op) (h : w.step op = some w') : Inv w' := by
  have hb := hi.toBounded.step h
  cases happens h with
  | log l he =>
    refine ⟨hi.toPast.evolve he, ?_⟩
    intro n hn r hr hle
    have hlt := Nat.lt_of_le_of_lt hle (hi.toBounded.last n hn).2
    exact hi.batch n hn r (mem_of_evolves he hr hlt) hle
  | begin hop hph =>
    refine ⟨⟨hb, ?_, fun _ => ?_⟩, fun n hn => (by cases hn)⟩
    · intro v hv r hr hlt
      rcases hi.passed v hv r hr hlt with hbase | hfate
      · left
        have hsome : w.cursor.position = some v := hv
        rw [hsome]
        exact hbase
      · exact .inr hfate
    · unfold Cursor.positionOr
      cases hp : w.cursor.position with
      | none => exact fun r hr hlt => .inl hlt
      | some v => exact hi.passed v hp
  | read view now hph he =>
    have hsame : ∀ s, w.Passable s → ({ w with log := view.log }.afterRead now
        (view.readFrom w.frm w.cfg.batchSize)).Passable s := by
      intro s hs
      unfold Passable
      rw [afterRead_base, afterRead_fates]
      exact hs
    refine ⟨(hi.toPast.read now hph he).mono hsame, ?_⟩
    intro n hn x hx hle
    rw [afterRead_log] at hx
    obtain ⟨r, rest, hread, hall⟩ := read_batch hi.toPast hph he hn
    rcases hall x hx hle with hok | hmem
    · exact .inl (hsame _ hok)
    right
    rw [hread]
    exact ⟨x, hmem, rfl⟩
  | commit last hph =>
    have hbehind : w.Behind w.Passable (last + 1) := by
      intro r hr hlt
      rcases hi.batch last (by rw [hph]; rfl) r hr (Nat.le_of_lt_succ hlt) with hok | ⟨x, hx, -⟩
      · exact hok
      · rw [hph] at hx
        exact absurd hx not_mem_nil
    exact ⟨hi.toPast.commit hbehind hb, fun n hn => (by cases hn)⟩
  | move ph more cancelled closed hm =>
    have hgrow : ∀ s, w.Passable s → s < w.base ∨ ∃ fate, (s, fate) ∈ w.fates ++ more := by
      rintro s (hbase | ⟨fate, hfate⟩)
      · exact .inl hbase
      · exact .inr ⟨fate, mem_append_left _ hfate⟩
    have hp := hi.toPast.mono hgrow
    refine ⟨⟨hb, hp.passed, fun hl => hp.behind (hm.live hl)⟩, ?_⟩
    intro n hn r hr hle
    obtain ⟨hlast, hkept⟩ := hm.last n hn
    have hne : op ≠ .grace false := by
      rintro rfl
      cases ho
    rcases hi.batch n hlast r hr hle with hok | ⟨x, hx, hseq⟩
    · exact .inl (hgrow _ hok)
    rcases hkept hne x hx with hpend | hnoted
    · exact .inr ⟨x, hpend, hseq⟩
    obtain ⟨⟨s, fate⟩, hmem, hs⟩ := mem_map.mp hnoted
    refine .inl (.inr ⟨fate, mem_append_right _ ?_⟩)
    rw [← hseq, ← hs]
    exact hmem

end Steps

theorem Inv.new (cfg : Config) (presence : Bool) (log : Queuelog.Log) :
    Inv (new cfg presence log) :=
  ⟨⟨.new cfg presence log, fun v hv => (by cases hv), fun hl => (by cases hl)⟩,
    fun n hn => (by cases hn)⟩

/-- Every record that the committed position has passed was accepted with a batch,
suppressed, skipped for having no key or dropped after the last attempt, unless it
was there when the loop began without a cursor, at the head. -/
theorem cursor_passes_settled {cfg : Config} {presence : Bool} {log : Queuelog.Log}
    {ops : List Op} {w : Push} (hr : Run Step Unbroken (new cfg presence log) ops w) {v : Nat}
    (hv : w.cursor.position = some v) {r : Record} (hmem : r ∈ w.log.records) (hlt : r.seq < v) :
    r.seq < w.base ∨ ∃ fate, (r.seq, fate) ∈ w.fates := by
  have hi := hr.invariant Inv (.new cfg presence log) (fun _ _ _ hi ho hs => hi.step ho hs)
  exact hi.passed v hv r hmem hlt

def pushed (second : List Op) : List Op :=
  [.spawn, .begin, .log twoPointers, .check, .read twoPointers.view 5, .grace true, .look false] ++
    second ++ [.deliver, .notify (fun _ => true), .commit]

theorem pushed_passes_settled : ∃ w, Run Step Unbroken (new { graceDelay := 10 } false noPointers)
        (pushed [.grace true, .look false]) w ∧ w.cursor.position = some 3 ∧ w.base = 1 ∧
      ∀ r ∈ w.log.records, r.seq < 3 → r.seq < 1 ∨ ∃ fate, (r.seq, fate) ∈ w.fates := by
  obtain ⟨w, hr, hv, hbase⟩ := Run.executed Unbroken step
    (new { graceDelay := 10 } false noPointers) (pushed [.grace true, .look false])
    (fun w => w.cursor.position = some 3 ∧ w.base = 1) (by decide +kernel)
  refine ⟨w, hr, hv, hbase, ?_⟩
  intro r hmem hlt
  have hpass := cursor_passes_settled hr hv hmem hlt
  rw [hbase] at hpass
  exact hpass

/-- Stopped in the second grace delay the loop commits past both pointers, having
notified for one. -/
theorem stopped_passes_unsettled :
    ∃ w, Run Step always (new { graceDelay := 10 } false noPointers) (pushed [.cancel, .grace false]) w ∧
      w.cursor.position = some 3 ∧ w.base = 1 ∧ w.log.records.map Record.seq = [1, 2] ∧
      w.fates = [(1, .accepted)] :=
  Run.found _ (by decide +kernel)

end Boltq.Outbox.Push
