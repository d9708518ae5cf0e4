import Boltq.Presence.Registry
import Boltq.Lib.Run

namespace Boltq.Presence
open Lib List

inductive EventType where
  | bound
  | unbound
  | expired
  | stateChanged
  deriving DecidableEq

structure Event where
  type : EventType
  userID : String
  deviceID : String
  nodeID : String
  state : State
  userOnline : Bool
  deriving DecidableEq

inductive Cancel where
  | idle
  | deleted
  | done
  deriving DecidableEq

structure Watcher where
  filter : Option (Event → Bool)
  queue : List Event := []
  dropped : Nat := 0
  registered : Bool := true
  closes : Nat := 0
  cancel : Cancel := .idle

def Watcher.wants (w : Watcher) (e : Event) : Bool := w.registered && w.filter.all (· e)

def Watcher.offer (buffer : Nat) (e : Event) (w : Watcher) : Watcher :=
  if w.wants e then
    if w.queue.length < buffer then { w with queue := w.queue ++ [e] }
    else { w with dropped := w.dropped + 1 }
  else w

def Watcher.Released (w : Watcher) : Prop :=
  w.cancel = .done ∨ w.registered = false ∧ w.cancel = .idle

inductive Fault where
  | sendOnClosed
  | closeOfClosed
  deriving DecidableEq

structure Watching where
  buffer : Nat
  watchers : List Watcher := []
  stopped : Bool := false
  faults : List Fault := []

namespace Watching

inductive Op where
  | watch (filter : Option (Event → Bool))
  | receive (i : Nat)
  | emit (e : Event)
  | cancel (i : Nat)
  | closeCh (i : Nat)
  | close

section
variable (s : Watching)

def emit (e : Event) : Watching :=
  { s with
    watchers := s.watchers.map (·.offer s.buffer e)
    faults := s.faults ++
      if s.watchers.any (fun w => w.wants e && 0 < w.closes) then [.sendOnClosed] else [] }

def closing (ws : List Watcher) : Watching :=
  { s with faults := s.faults ++ if ws.any (0 < ·.closes) then [.closeOfClosed] else [] }

def close : Watching :=
  if s.stopped then s
  else
    { s.closing (s.watchers.filter (·.registered)) with
      watchers := s.watchers.map (fun w =>
        if w.registered then { w with registered := false, closes := w.closes + 1 } else w)
      stopped := true }

def step : Op → Option Watching
  | .watch filter => some { s with watchers := s.watchers ++ [{ filter }] }
  | .receive i => s.watchers[i]?.map (fun w =>
      { s with watchers := s.watchers.set i { w with queue := w.queue.tail } })
  | .emit e => some (s.emit e)
  | .cancel i => s.watchers[i]?.bind (fun w =>
      match w.cancel with
      | .idle => some
        { s with watchers := s.watchers.set i { w with registered := false, cancel := .deleted } }
      | .deleted => none
      | .done => some s)
  | .closeCh i => s.watchers[i]?.bind (fun w =>
      if w.cancel = .deleted then
        some { s.closing [w] with
          watchers := s.watchers.set i { w with closes := w.closes + 1, cancel := .done } }
      else none)
  | .close => some s.close

def Step (op : Op) (s' : Watching) : Prop := s.step op = some s'

/-- A watcher is cancelled only once it is registered. -/
def InTime : Op → Prop
  | .cancel i => ∀ w ∈ s.watchers[i]?, w.cancel = .idle → w.registered = true
  | _ => True

end

instance (s : Watching) (op : Op) : Decidable (s.InTime op) := by
  unfold InTime
  split <;> infer_instance

structure Settled (w : Watcher) : Prop where
  held : w.registered = true → w.cancel = .idle ∧ w.closes = 0
  deleted : w.cancel = .deleted → w.registered = false ∧ w.closes = 0
  released : w.Released → w.closes = 1

theorem Settled.offer (h : Settled w) : Settled (w.offer n e) := by
  unfold Watcher.offer
  split
  · split <;> exact ⟨h.held, h.deleted, h.released⟩
  · exact h

structure Inv (s : Watching) : Prop where
  faults : s.faults = []
  settled : ∀ w ∈ s.watchers, Settled w

section
variable (h : Inv s)
include h

theorem Inv.open (hw : w ∈ s.watchers) (hr : w.registered = true) : ¬ 0 < w.closes := by
  rw [((h.settled w hw).held hr).2]
  exact Nat.lt_irrefl 0

theorem Inv.set (hf : s'.faults = []) (hs : s'.watchers = s.watchers.set i w)
    (hw : Settled w) : Inv s' := by
  refine ⟨hf, fun x hx => ?_⟩
  rw [hs] at hx
  rcases mem_or_eq_of_mem_set hx with hold | rfl
  · exact h.settled x hold
  · exact hw

theorem Inv.emit (e : Event) : Inv (s.emit e) := by
  have hno : s.watchers.any (fun w => w.wants e && 0 < w.closes) = false := by
    rw [any_eq_false]
    intro w hw hp
    rw [Bool.and_eq_true, decide_eq_true_eq] at hp
    exact h.open hw (Bool.and_eq_true_iff.mp hp.1).1 hp.2
  refine ⟨?_, fun w hw => ?_⟩
  · unfold Watching.emit
    rw [hno, h.faults]
    rfl
  · obtain ⟨x, hx, rfl⟩ := mem_map.mp hw
    exact (h.settled x hx).offer

theorem Inv.close : Inv s.close := by
  unfold Watching.close
  split
  · exact h
  have hno : (s.watchers.filter (·.registered)).any (0 < ·.closes) = false := by
    rw [any_eq_false]
    intro w hw hp
    obtain ⟨hin, hr⟩ := mem_filter.mp hw
    exact h.open hin hr (of_decide_eq_true hp)
  refine ⟨?_, fun w hw => ?_⟩
  · unfold closing
    rw [hno, h.faults]
    rfl
  · obtain ⟨x, hx, rfl⟩ := mem_map.mp hw
    have hs := h.settled x hx
    split
    · rename_i hr
      obtain ⟨hidle, hzero⟩ := hs.held hr
      exact ⟨nofun, fun hd => (nomatch hidle.symm.trans hd), fun _ => congrArg (· + 1) hzero⟩
    · exact hs

theorem Inv.step (ht : s.InTime op) (hs : s.step op = some s') : Inv s' := by
  cases op with
  | watch filter =>
    cases hs
    refine ⟨h.faults, fun w hw => ?_⟩
    rcases mem_append.mp hw with hold | hnew
    · exact h.settled w hold
    rw [mem_singleton.mp hnew]
    exact ⟨fun _ => ⟨rfl, rfl⟩, nofun, fun hr => by rcases hr with hr | ⟨hr, -⟩ <;> cases hr⟩
  | receive i =>
    obtain ⟨w, hw, rfl⟩ := Option.map_eq_some_iff.mp hs
    have hset := h.settled w (mem_of_getElem? hw)
    exact h.set h.faults rfl ⟨hset.held, hset.deleted, hset.released⟩
  | emit e =>
    cases hs
    exact h.emit e
  | cancel i =>
    obtain ⟨w, hw, hs⟩ := Option.bind_eq_some_iff.mp hs
    split at hs
    · rename_i hidle
      cases hs
      have hz := ((h.settled w (mem_of_getElem? hw)).held (ht w hw hidle)).2
      exact h.set h.faults rfl ⟨nofun, fun _ => ⟨rfl, hz⟩,
        fun hr => by rcases hr with hr | ⟨-, hr⟩ <;> cases hr⟩
    · cases hs
    · cases hs
      exact h
  | closeCh i =>
    obtain ⟨w, hw, hs⟩ := Option.bind_eq_some_iff.mp hs
    split at hs
    · rename_i hd
      cases hs
      obtain ⟨hreg, hz⟩ := (h.settled w (mem_of_getElem? hw)).deleted hd
      refine h.set ?_ rfl ⟨fun hr => (nomatch hreg.symm.trans hr), nofun, fun _ => congrArg (· + 1) hz⟩
      simp [closing, hz, h.faults]
    · cases hs
  | close =>
    cases hs
    exact h.close

end

/-- When no cancel function is first called after Close has removed its watcher, nothing
is sent on or closes a closed channel; the channel of a registered watcher is open and
that of one released was closed once, and Close releases every watcher there is. -/
theorem watchers_close_once (buffer : Nat) {ops : List Op} {s : Watching}
    (hr : Run Step InTime { buffer } ops s) : s.faults = [] ∧
    (∀ w ∈ s.watchers, (w.registered = true → w.closes = 0) ∧ (w.Released → w.closes = 1)) ∧
    (s.stopped = false → ∀ w ∈ s.close.watchers, w.registered = false) := by
  have hi := hr.invariant Inv ⟨rfl, nofun⟩ (fun _ _ _ hi hc hs => hi.step hc hs)
  refine ⟨hi.faults, fun w hw => ?_, fun hstop w hw => ?_⟩
  · exact ⟨fun hreg => ((hi.settled w hw).held hreg).2, (hi.settled w hw).released⟩
  · unfold close at hw
    rw [if_neg (by rw [hstop]; decide)] at hw
    obtain ⟨x, -, rfl⟩ := mem_map.mp hw
    split
    · rfl
    · rename_i hno
      exact Bool.eq_false_iff.mpr hno

theorem watchers_close_once_cancelled : ∃ s, Run Step InTime { buffer := 1 }
    [.watch none, .watch none, .cancel 0, .closeCh 0, .cancel 0, .close] s ∧
    s.watchers.length = 2 ∧ ∀ w ∈ s.watchers, w.closes = 1 := by
  refine Run.shown (fun s => s.watchers.length = 2 ∧ ∀ w ∈ s.watchers, w.cancel = .done ∨
      w.registered = false ∧ w.cancel = .idle) (by decide +kernel) ?_
  rintro s hr ⟨hlen, hrel⟩
  exact ⟨hlen, fun w hw => ((watchers_close_once 1 hr).2.1 w hw).2 (hrel w hw)⟩

/-- The registry is closed, and then a connection cancels its watch. -/
theorem late_cancel_panics : ∃ s, Run Step always { buffer := 1 }
    [.watch none, .close, .cancel 0, .closeCh 0] s ∧ s.faults = [.closeOfClosed] ∧
    ∃ w ∈ s.watchers, w.closes = 2 :=
  Run.found _ (by decide +kernel)

end Watching
end Boltq.Presence
