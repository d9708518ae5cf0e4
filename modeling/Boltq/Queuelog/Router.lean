import Boltq.Queuelog.Leases
import Boltq.Queuelog.Queue

namespace Boltq.Queuelog
open Lib Boltq.Stream Std List

structure QueueSpec where
  name : String
  group : String := ""
  ackTimeout : Int := 0
  maxDelivery : Int := 0
  maxInFlight : Int := 0
  deadLetterExchange : String := ""
  deriving DecidableEq

inductive RouterErr where
  | nameRequired
  | closed
  | noPartitions (name : String)
  deriving DecidableEq

structure Router where
  queues : TreeMap String Queue := ∅
  closed : Bool := false

def deadLetterFunc (spec : QueueSpec) : Bool := spec.deadLetterExchange != ""

def QueueSpec.config (spec : QueueSpec) : ShareConfig where
  group := spec.group
  ackTimeout := spec.ackTimeout
  maxDelivery := spec.maxDelivery
  maxInFlight := spec.maxInFlight
  deadLetter := deadLetterFunc spec

def Router.declareQueue (r : Router) (spec : QueueSpec) (logs : List (Nat × Option Cursor)) :
    Router × Except RouterErr Queue :=
  if spec.name = "" then (r, .error .nameRequired)
  else if r.closed then (r, .error .closed)
  else
    match r.queues[spec.name]? with
    | some q => (r, .ok q)
    | none =>
      if logs = [] then (r, .error (.noPartitions spec.name))
      else
        let q := Queue.opened spec.name logs spec.config
        ({ r with queues := r.queues.insert spec.name q }, .ok q)

theorem Router.declareQueue_new {r : Router} (h : r.declareQueue spec logs = (r', .ok q))
    (hnew : spec.name ∉ r.queues) : q = Queue.opened spec.name logs spec.config := by
  unfold declareQueue at h
  rw [TreeMap.getElem?_eq_none hnew] at h
  split at h
  · cases h
  split at h
  · cases h
  dsimp only at h
  split at h
  · cases h
  · cases h
    rfl

theorem Queue.opened_part {name : String} {logs : List (Nat × Option Cursor)} {cfg : ShareConfig}
    {i : Nat} {sp : SharePartition} (h : (Queue.opened name logs cfg).parts[i]? = some sp) :
    ∃ first cursors cfg', logs[i]? = some (first, cursors) ∧
      sp = openSharePartition name i first cursors cfg' := by
  simp only [Queue.opened, getElem?_mapIdx, Option.map_eq_some_iff] at h
  obtain ⟨⟨first, cursors⟩, hl, rfl⟩ := h
  exact ⟨first, cursors, _, hl, rfl⟩

namespace SharePartition
variable {sp : SharePartition}

def Answers (sp : SharePartition) (consumer : String) (seq : Nat) : Prop :=
  sp.closed = false ∧ ∃ e ∈ sp.entries[seq]?, e.state = .acquired ∧ e.holder = consumer

instance (sp : SharePartition) (consumer : String) (seq : Nat) :
    Decidable (sp.Answers consumer seq) :=
  inferInstanceAs (Decidable (_ ∧ _))

def Expires (sp : SharePartition) (now : Int) : Prop :=
  ∀ x ∈ sp.entries.toList, x.2.state = .acquired → x.2.deadline ≤ now → ¬ sp.Exhausted x.2
  deriving Decidable

theorem Expires.reapExpired (h : sp.Expires now) (route : DeadLetterFunc) :
    (sp.reapExpired route now).done = sp.done := by
  unfold SharePartition.reapExpired
  rw [advance_done]
  refine (fold_entries
    (P := fun sp' => sp'.done = sp.done ∧ sp'.cfg = sp.cfg ∧
      ∀ (seq : Nat) (e : Entry), sp'.entries[seq]? = some e →
        e.state = .available ∨ sp.entries[seq]? = some e)
    (reapOne_other route now) ?_ ⟨rfl, rfl, fun _ _ he => Or.inr he⟩).1
  rintro sp' seq e ⟨hdone, hcfg, hsame⟩ he
  unfold reapOne
  split
  · exact ⟨hdone, hcfg, hsame⟩
  rename_i hlate
  obtain ⟨hacq, hdead⟩ := not_or.mp hlate
  have hold : sp.entries[seq]? = some e :=
    (hsame seq e he).resolve_left (fun hav => hacq (by rw [hav]; nofun))
  have hmore : ¬ sp.Exhausted e := h (seq, e) (TreeMap.mem_toList_iff_getElem?_eq_some.mpr hold)
    (not_not.mp hacq) (Int.not_lt.mp hdead)
  have hmore' : ¬ ({ sp' with expired := sp'.expired + 1 } : SharePartition).Exhausted e := by
    unfold Exhausted at hmore ⊢
    rwa [show ({ sp' with expired := sp'.expired + 1 } : SharePartition).cfg = sp.cfg from hcfg]
  dsimp only
  rw [if_neg hmore']
  refine ⟨hdone, hcfg, fun s e' hs => ?_⟩
  rcases insert_cases hs with ⟨_, rfl⟩ | ⟨_, hs⟩
  · exact Or.inl rfl
  · exact hsame s e' hs

theorem acquire_done {start first : Nat} (h : Inv start first sp) {route : DeadLetterFunc}
    {views : List LogView} {consumer : String} {max now : Int} {sp' : SharePartition}
    {r : Except ShareErr (List Delivery)} (hv : ∀ v ∈ views, v.log.first ≤ first)
    (hr : sp.acquire route views consumer max now = some (sp', r)) : sp'.done = sp.done ∨
      0 < max ∧ sp.closed = false ∧ sp'.done = (sp.reapExpired route now).done := by
  unfold acquire at hr
  split at hr
  · cases hr
    exact Or.inl rfl
  rename_i hmax
  split at hr
  · cases hr
    exact Or.inl rfl
  rename_i hopen
  dsimp only at hr
  obtain ⟨hi, hdone, _⟩ := redeliver_spec consumer max.toNat now [] (inv_stable.reapExpired h route now)
  obtain ⟨_, _, hg, _⟩ := readFresh_spec consumer max.toNat now hi hv hr
  exact Or.inr ⟨by omega, Bool.eq_false_iff.mpr hopen, hg.done.trans hdone⟩

theorem ack_done_eq (sp : SharePartition) (consumer : String) (seq : Nat) :
    (sp.ack consumer seq).1.done = if sp.Answers consumer seq then seq :: sp.done else sp.done := by
  unfold ack
  by_cases hc : sp.closed = true
  · rw [if_pos hc, if_neg (fun h => by simp [h.1] at hc)]
  rw [if_neg hc]
  cases he : sp.entries[seq]? with
  | none => rw [if_neg (fun h => by simp [Answers, he] at h)]
  | some e =>
    have hiff : sp.Answers consumer seq ↔ e.state = .acquired ∧ e.holder = consumer := by
      simp [Answers, hc, he]
    dsimp only
    split
    · rename_i hst
      rw [if_neg (fun h => hst (hiff.mp h).1)]
    rename_i hst
    split
    · rename_i hholder
      rw [if_neg (fun h => hholder (hiff.mp h).2)]
    · rename_i hholder
      rw [advance_done, if_pos (hiff.mpr ⟨not_not.mp hst, not_not.mp hholder⟩)]
      rfl

def Requeues (sp : SharePartition) (consumer : String) (seq : Nat) (requeue : Bool) : Prop :=
  sp.Answers consumer seq → requeue = true ∧ ∀ e ∈ sp.entries[seq]?, ¬ sp.Exhausted e

instance (sp : SharePartition) (consumer : String) (seq : Nat) (requeue : Bool) :
    Decidable (sp.Requeues consumer seq requeue) :=
  inferInstanceAs (Decidable (_ → _))

theorem Requeues.nack (h : sp.Requeues consumer seq requeue) (route : DeadLetterFunc) :
    (sp.nack route consumer seq requeue).1.done = sp.done := by
  unfold SharePartition.nack
  split
  · rfl
  rename_i hc
  cases he : sp.entries[seq]? with
  | none => rfl
  | some e =>
    dsimp only
    split
    · rfl
    rename_i hst
    split
    · rfl
    rename_i hholder
    obtain ⟨rfl, hmore⟩ := h ⟨Bool.eq_false_iff.mpr hc, e, he, not_not.mp hst, not_not.mp hholder⟩
    have hmore' : ¬ ({ sp with nacked := sp.nacked + 1 } : SharePartition).Exhausted e := hmore e he
    rw [if_neg (by decide), if_neg hmore']
    rfl

end SharePartition

structure Audit where
  share : Share
  acked : List Nat := []

namespace Audit
open SharePartition

def acks (w : Share) : Share.Op → List Nat
  | .ack consumer seq => if w.sp.Answers consumer seq then [seq] else []
  | _ => []

def step (a : Audit) (op : Share.Op) : Option Audit :=
  (a.share.step op).map (fun w => ⟨w, acks a.share op ++ a.acked⟩)

def Step (a : Audit) (op : Share.Op) (a' : Audit) : Prop := a.step op = some a'

/-- No record at its last delivery is nacked or expires, and none is rejected. -/
def Spares (a : Audit) : Share.Op → Prop
  | .acquire _ _ _ max now => 0 < max → a.share.sp.closed = false → a.share.sp.Expires now
  | .sweep _ now => a.share.sp.closed = false → a.share.sp.Expires now
  | .nack _ consumer seq requeue => a.share.sp.Requeues consumer seq requeue
  | _ => True

instance (a : Audit) (op : Share.Op) : Decidable (a.Spares op) := by
  unfold Spares
  split <;> infer_instance

structure Inv (start : Nat) (a : Audit) : Prop where
  window : SharePartition.Inv start a.share.log.first a.share.sp
  acked : ∀ seq ∈ a.share.sp.done, seq ∈ a.acked

theorem Inv.step (h : Inv start a) (hc : a.Spares op) (hs : a.Step op a') : Inv start a' := by
  obtain ⟨w', hw, rfl⟩ := Option.map_eq_some_iff.mp hs
  refine ⟨(Share.Step.spec h.window hw).1, ?_⟩
  have hkeep : w'.sp.done = a.share.sp.done → acks a.share op = [] →
      ∀ seq ∈ w'.sp.done, seq ∈ acks a.share op ++ a.acked := by
    intro hdone hacks seq hseq
    rw [hacks, nil_append]
    exact h.acked seq (hdone ▸ hseq)
  cases op with
  | log l =>
    refine hkeep ?_ rfl
    simp only [Share.step] at hw
    split at hw
    · cases hw
      rfl
    · cases hw
  | acquire route views consumer max now =>
    refine hkeep ?_ rfl
    simp only [Share.step] at hw
    split at hw
    case isFalse => cases hw
    rename_i hchain
    obtain ⟨⟨sp', r⟩, hr, rfl⟩ := Option.map_eq_some_iff.mp hw
    have hfirst := Share.evolves_first hchain
    rcases acquire_done (h.window.later (hfirst a.share.log mem_cons_self))
      (fun v hv => hfirst v.log (mem_cons_of_mem _ (mem_map.mpr ⟨v, hv, rfl⟩))) hr with
      hsame | ⟨hmax, hopen, hreap⟩
    · exact hsame
    · exact hreap.trans ((hc hmax hopen).reapExpired route)
  | ack consumer seq =>
    cases hw
    intro s hs
    rw [ack_done_eq] at hs
    simp only [acks]
    split at hs
    · rename_i hans
      rw [if_pos hans]
      exact (mem_cons.mp hs).elim (fun he => mem_append_left _ (mem_singleton.mpr he))
        (fun hs => mem_append_right _ (h.acked s hs))
    · exact mem_append_right _ (h.acked s hs)
  | nack route consumer seq requeue =>
    cases hw
    exact hkeep (Requeues.nack hc route) rfl
  | sweep route now =>
    cases hw
    refine hkeep ?_ rfl
    unfold sweep
    split
    · rfl
    · rename_i hopen
      exact (hc (Bool.eq_false_iff.mpr hopen)).reapExpired route
  | releaseConsumer consumer =>
    cases hw
    exact hkeep (releaseWhere_done _) rfl
  | releaseAll =>
    cases hw
    exact hkeep (releaseWhere_done _) rfl

def plainQueue : QueueSpec := { name := "jobs" }

def plainPartition : SharePartition :=
  openSharePartition "jobs" 0 1 (some {}) { group := "jobs" }

theorem plainQueue_declared : ∃ r' q, Router.declareQueue {} plainQueue
        ([(oneRecord 1, some {})].map (fun x => (x.1.first, x.2))) = (r', .ok q) ∧
      q.parts[0]? = some plainPartition := ⟨_, _, rfl, rfl⟩

def thirdTime : List Share.Op :=
  [.acquire (fun _ _ => true) [(oneRecord 1).view] "a" 1 5,
    .nack (fun _ _ => true) "a" 1 true,
    .acquire (fun _ _ => true) [] "b" 1 6,
    .sweep (fun _ _ => true) 40000000000,
    .acquire (fun _ _ => true) [] "a" 1 40000000001,
    .ack "a" 1]

def rejected : List Share.Op :=
  [.acquire (fun _ _ => true) [(oneRecord 1).view] "a" 1 5, .nack (fun _ _ => true) "a" 1 false]

end Audit
end Boltq.Queuelog
