import Boltq.Lib.Run
import Boltq.QueuePlane.Log
import Boltq.QueuePlane.Memory

namespace Boltq.QueuePlane
open Lib Std List

structure Rewrite where
  msgs : List Held
  truncated : Bool := false

structure Compaction where
  broker : Broker
  popped : List (String × Held) := []
  rewrites : List Rewrite := []

namespace Compaction
open Broker

inductive Op where
  | publish (e : Env) (topic : String) (m : Message)
  | pop (e : Env) (topic : String)
  | pend (e : Env) (i : Nat)
  | ack (e : Env) (id : String)
  | capture (msgs : List Held)
  | truncate (i : Nat)
  | write (i : Nat)

section
variable (s : Compaction)

def pop (e : Env) (topic : String) : Compaction :=
  match (s.broker.queue topic).tryPop with
  | none => { s with broker := s.broker.setQueue topic (s.broker.queue topic) }
  | some (h, q) =>
    if h.msg.Expired e.now then
      { s with broker := { s.broker.setQueue topic q with
          expired := ⟨topic, h.msg.id⟩ :: s.broker.expired } }
    else { s with broker := s.broker.setQueue topic q, popped := s.popped ++ [(topic, h)] }

def setLog (b : Broker) (f : List WALRecord → List WALRecord) : Broker :=
  { b with store := b.store.map f }

def step : Op → Option Compaction
  | .publish e topic m => some { s with broker := (s.broker.publish e topic m).1 }
  | .pop e topic => some (s.pop e topic)
  | .pend e i =>
    match s.popped[i]? with
    | none => none
    | some x => some { s with broker := s.broker.pend e x.1 x.2, popped := s.popped.eraseIdx i }
  | .ack e id => some { s with broker := (s.broker.ack e id).1 }
  | .capture msgs =>
    if msgs.Perm s.broker.captured then some { s with rewrites := s.rewrites ++ [{ msgs }] } else none
  | .truncate i =>
    match s.rewrites[i]? with
    | some ⟨msgs, false⟩ =>
      some { s with
        broker := setLog s.broker (fun _ => [])
        rewrites := s.rewrites.set i ⟨msgs, true⟩ }
    | _ => none
  | .write i =>
    match s.rewrites[i]? with
    | some ⟨h :: msgs, true⟩ =>
      some { s with
        broker := setLog s.broker (· ++ [.publish (s.broker.encode h)])
        rewrites := s.rewrites.set i ⟨msgs, true⟩ }
    | _ => none

def Step (op : Op) (s' : Compaction) : Prop := s.step op = some s'

/-- No message is published between a capture and its truncation, spilled or found
expired, ids are not used twice, a message is acknowledged, and the log says so, only
when no checkpoint is still to write it, and none is captured while a consumer is
taking one. -/
def Safe : Op → Prop
  | .publish e topic m =>
    (∀ x ∈ s.broker.accepted, x.2.id ≠ m.id) ∧ (∀ r ∈ s.rewrites, r.truncated = true) ∧
      (e.now < (s.broker.stamp e topic m).deliverAt ∨
        (s.broker.queue topic).Room (clampPriority m.priority))
  | .pop e topic => ∀ r ∈ (s.broker.queue topic).tryPop, ¬ r.1.msg.Expired e.now
  | .ack e id => e.writeErr = none ∧ ∀ r ∈ s.rewrites, ∀ h ∈ r.msgs, h.msg.id ≠ id
  | .capture _ => s.popped = []
  | _ => True

end

instance (s : Compaction) (op : Op) : Decidable (s.Safe op) := by
  unfold Safe
  split <;> infer_instance

def Quiet (s : Compaction) : Prop := ∀ r ∈ s.rewrites, r.truncated = true → r.msgs = []
  deriving Decidable

variable {s s' : Compaction} {b b' : Broker} {popped popped' : List (String × Held)}
  {records : List WALRecord} {e : Env}

def inFlight (popped : List (String × Held)) (c : Copy) : Nat :=
  popped.countP (fun x => x.1 = c.queue ∧ x.2.msg.id = c.id)

def Live (b : Broker) (x : String × Message) : Prop :=
  x ∈ b.accepted ∧ ∀ c ∈ b.acked, c.id ≠ x.2.id

structure Stocked (b : Broker) (popped : List (String × Held)) : Prop where
  keyed : b.Keyed
  dead : b.deadLetters = ∅
  unspilled : b.spill = ∅
  balanced : ∀ c, b.acceptances c = b.acked.count c + b.places c + inFlight popped c
  once : ∀ c, b.acceptances c ≤ 1
  distinct : ∀ x ∈ b.accepted, ∀ y ∈ b.accepted, x.2.id = y.2.id → x = y
  held : ∀ name h, b.Holds name h ∨ (name, h) ∈ popped → (name, h.msg) ∈ b.accepted

theorem inFlight_pos : 0 < inFlight popped c ↔ ∃ x ∈ popped, x.1 = c.queue ∧ x.2.msg.id = c.id := by
  unfold inFlight
  simp only [countP_pos_iff, decide_eq_true_eq]

theorem inFlight_append (x : String × Held) (c : Copy) :
    inFlight (popped ++ [x]) c = inFlight popped c + c.is x.1 x.2.msg.id := by
  unfold inFlight
  rw [countP_append, countP_singleton, Copy.is_eq]
  simp only [decide_eq_true_eq]

theorem inFlight_eraseIdx (h : popped[i]? = some x) (c : Copy) :
    inFlight popped c = inFlight (popped.eraseIdx i) c + c.is x.1 x.2.msg.id := by
  obtain ⟨hi, rfl⟩ := List.getElem?_eq_some_iff.mp h
  unfold inFlight
  rw [← (getElem_cons_eraseIdx_perm hi).countP_eq, countP_cons, Copy.is_eq]
  simp only [decide_eq_true_eq]

theorem Stocked.live (h : Stocked b popped) (hx : b.Holds name x ∨ (name, x) ∈ popped) :
    Live b (name, x.msg) := by
  have hacc := h.held name x hx
  refine ⟨hacc, fun c hc hid => ?_⟩
  have hpos : 0 < b.places ⟨name, x.msg.id⟩ + inFlight popped ⟨name, x.msg.id⟩ := by
    rcases hx with hx | hx
    · have hin := (inMemory_pos (c := ⟨name, x.msg.id⟩) h.keyed).mpr ⟨x, hx, rfl⟩
      have hle := b.inMemory_le ⟨name, x.msg.id⟩
      omega
    · have hin := (inFlight_pos (c := ⟨name, x.msg.id⟩)).mpr ⟨(name, x), hx, rfl, rfl⟩
      omega
  -- the acknowledged copy was accepted, so it is the same
  have hcount := count_pos_iff.mpr hc
  have hbal := h.balanced c
  obtain ⟨y, hy, hyq, hyid⟩ := exists_accepted (b := b) (c := c) (by omega)
  have heq : y = (name, x.msg) := h.distinct y hy _ hacc (hyid.trans hid)
  have hc' : c = ⟨name, x.msg.id⟩ := by
    cases c
    subst heq
    exact (Copy.mk.injEq ..).mpr ⟨hyq.symm, hid⟩
  have hone := h.once c
  rw [hc'] at hcount hbal hone
  omega

theorem Stocked.place (h : Stocked b popped) (hx : Live b x) :
    ∃ y, (b.Holds x.1 y ∨ (x.1, y) ∈ popped) ∧ y.msg = x.2 := by
  have hacc : 0 < b.acceptances ⟨x.1, x.2.id⟩ :=
    countP_pos_iff.mpr ⟨x, hx.1, decide_eq_true ⟨rfl, rfl⟩⟩
  have hacked : b.acked.count ⟨x.1, x.2.id⟩ = 0 := count_eq_zero.mpr (fun hm => hx.2 _ hm rfl)
  have hbal := h.balanced ⟨x.1, x.2.id⟩
  have hspill : b.inSpill ⟨x.1, x.2.id⟩ = 0 := by
    unfold inSpill spilled
    rw [h.unspilled]
    rfl
  have hdead : b.inDeadLetters ⟨x.1, x.2.id⟩ = 0 := by
    unfold inDeadLetters deadLetter
    rw [h.dead]
    rfl
  have hsame : ∀ y : Held, y.msg.id = x.2.id → (x.1, y.msg) ∈ b.accepted → y.msg = x.2 := by
    intro y hid hy
    exact congrArg Prod.snd (h.distinct _ hy x hx.1 hid)
  by_cases hfly : 0 < inFlight popped ⟨x.1, x.2.id⟩
  · obtain ⟨y, hy, hyq, hyid⟩ := inFlight_pos.mp hfly
    have hy' : (x.1, y.2) ∈ popped := by
      rw [← show y.1 = x.1 from hyq]
      exact hy
    exact ⟨y.2, .inr hy', hsame y.2 hyid (h.held _ _ (.inr hy'))⟩
  · have hpos : 0 < b.inMemory ⟨x.1, x.2.id⟩ := by
      unfold places at hbal
      unfold inMemory
      omega
    obtain ⟨y, hy, hyid⟩ := (inMemory_pos h.keyed).mp hpos
    exact ⟨y, .inl hy, hsame y hyid (h.held _ _ (.inl hy))⟩

theorem deliver_fits (b : Broker) (name : String) (h : Held)
    (hf : e.now < h.msg.deliverAt ∨ (b.queue name).Room (clampPriority h.msg.priority)) :
    (b.deliver e name h).2 = none ∧
      ∃ queues delayed, (b.deliver e name h).1 = { b with queues, delayed } := by
  unfold deliver
  split
  · exact ⟨rfl, _, _, rfl⟩
  rename_i hlt
  obtain ⟨⟨queues, hb⟩, _⟩ := b.push_spec name h
  have hok : (b.push name h).2 = true := push_of_room (hf.resolve_left hlt)
  unfold pushOrSpill
  split
  · rename_i b1 hp
    rw [hp] at hb
    exact ⟨rfl, queues, b.delayed, hb⟩
  · rename_i b1 hp
    rw [hp] at hok
    cases hok

theorem publish_fits (hs : b.store = some records)
    (hf : e.now < (b.stamp e topic m).deliverAt ∨ (b.queue topic).Room (clampPriority m.priority)) :
    (b.publish e topic m).1 = b ∨
    (∃ queues delayed, (b.publish e topic m).1 = { b with
      queues, delayed
      store := some (records ++ [.publish (b.stamp e topic m)])
      nextRef := b.nextRef + 1
      accepted := (topic, b.stamp e topic m) :: b.accepted }) ∧
    (∀ c, (b.publish e topic m).1.places c = b.places c + c.is topic m.id) ∧
    ∀ n x, (b.publish e topic m).1.Holds n x →
      b.Holds n x ∨ (n = topic ∧ x.msg = b.stamp e topic m) := by
  have hholds : ∀ n x, (b.publish e topic m).1.Holds n x → _ := fun n x => holds_publish
  rw [publish_eq] at hholds ⊢
  cases hr : b.refusal e with
  | some err => exact .inl rfl
  | none =>
    rw [hr] at hholds
    obtain ⟨hok, queues, delayed, hb⟩ := deliver_fits (b.log (b.stamp e topic m)) topic
      ⟨b.nextRef, b.stamp e topic m⟩ hf
    obtain ⟨-, hplaces⟩ := (b.log (b.stamp e topic m)).deliver_spec e topic
      ⟨b.nextRef, b.stamp e topic m⟩ rfl
    dsimp only [put] at hholds ⊢
    simp only [hok, if_true] at hholds hplaces ⊢
    rw [hb] at hplaces hholds ⊢
    refine .inr ⟨⟨queues, delayed, ?_⟩, hplaces, fun n x hx => ?_⟩
    · rw [log, hs]
      rfl
    · exact (hholds n x hx).imp_right fun ⟨hn, hx, _⟩ => ⟨hn, hx ▸ rfl⟩

theorem Stocked.publish (h : Stocked b popped) (hs : b.store = some records) {m : Message}
    (hnew : ∀ x ∈ b.accepted, x.2.id ≠ m.id)
    (hf : e.now < (b.stamp e topic m).deliverAt ∨ (b.queue topic).Room (clampPriority m.priority)) :
    Stocked (b.publish e topic m).1 popped := by
  rcases publish_fits hs hf with hb | ⟨⟨queues, delayed, hb⟩, hplaces, hholds⟩
  · rw [hb]
    exact h
  have hcount : ∀ c, (b.publish e topic m).1.acceptances c = b.acceptances c + c.is topic m.id := by
    intro c
    rw [hb]
    exact acceptances_accept b topic (b.stamp e topic m) c
  have hacc : (b.publish e topic m).1.accepted = (topic, b.stamp e topic m) :: b.accepted := by
    rw [hb]
  refine ⟨h.keyed.congr (by rw [hb]), ?_, ?_, fun c => ?_, fun c => ?_, ?_, ?_⟩
  · rw [hb]
    exact h.dead
  · rw [hb]
    exact h.unspilled
  · have hbal := h.balanced c
    have hacked : (b.publish e topic m).1.acked = b.acked := by rw [hb]
    rw [hcount, hplaces, hacked]
    omega
  · have hone := h.once c
    rw [hcount]
    unfold Copy.is
    split
    · rename_i hc
      subst hc
      exact Nat.le_of_eq (congrArg (· + 1) (acceptances_zero hnew))
    · omega
  · rw [hacc]
    intro x hx y hy hid
    rcases mem_cons.mp hx with rfl | hx <;> rcases mem_cons.mp hy with rfl | hy
    · rfl
    · exact absurd hid.symm (hnew y hy)
    · exact absurd hid (hnew x hx)
    · exact h.distinct x hx y hy hid
  · intro n x hx
    rw [hacc]
    have hold : b.Holds n x ∨ (n, x) ∈ popped → (n, x.msg) ∈ (topic, b.stamp e topic m) :: b.accepted :=
      fun hx => mem_cons_of_mem _ (h.held n x hx)
    rcases hx with hx | hx
    · rcases hholds n x hx with hx | ⟨rfl, hm⟩
      · exact hold (.inl hx)
      · rw [hm]
        exact mem_cons_self
    · exact hold (.inr hx)

theorem Stocked.move (h : Stocked b popped) (hk : b'.Keyed) (hdead : b'.deadLetters = b.deadLetters)
    (hspill : b'.spill = b.spill) (hacc : b'.accepted = b.accepted) (hack : b'.acked = b.acked)
    (hp : ∀ c, b'.places c + inFlight popped' c = b.places c + inFlight popped c)
    (hh : ∀ name x, b'.Holds name x ∨ (name, x) ∈ popped' → b.Holds name x ∨ (name, x) ∈ popped) :
    Stocked b' popped' := by
  have hcount : ∀ c, b'.acceptances c = b.acceptances c := by
    intro c
    unfold acceptances
    rw [hacc]
  refine ⟨hk, hdead.trans h.dead, hspill.trans h.unspilled, fun c => ?_, fun c => ?_, ?_, ?_⟩
  · have hbal := h.balanced c
    have hmove := hp c
    rw [hcount, hack]
    omega
  · rw [hcount]
    exact h.once c
  · rw [hacc]
    exact h.distinct
  · intro name x hx
    rw [hacc]
    exact h.held name x (hh name x hx)

theorem Stocked.pop (h : Stocked s.broker s.popped)
    (hfresh : ∀ r ∈ (s.broker.queue topic).tryPop, ¬ r.1.msg.Expired e.now) :
    Stocked (s.pop e topic).broker (s.pop e topic).popped := by
  unfold Compaction.pop
  cases hp : (s.broker.queue topic).tryPop with
  | none =>
    refine h.move (h.keyed.congr rfl) rfl rfl rfl rfl (fun c => ?_) ?_
    · have hset := s.broker.places_setQueue topic (s.broker.queue topic) c
      have htouch : (s.broker.setQueue topic (s.broker.queue topic)).inQueue c = s.broker.inQueue c := by
        unfold inQueue
        rw [queue_touch]
      dsimp only
      omega
    · intro name x hx
      unfold Holds at hx
      dsimp only at hx
      rw [queue_touch] at hx
      exact hx
  | some r =>
    obtain ⟨x, q⟩ := r
    have hdrain := PriorityQueue.tryPop_drain hp
    dsimp only
    rw [if_neg (hfresh (x, q) hp)]
    refine h.move (h.keyed.congr rfl) rfl rfl rfl rfl (fun c => ?_) ?_
    · have hset := s.broker.places_setQueue topic q c
      have hin := inQueue_pop hdrain c
      rw [inFlight_append]
      dsimp only
      omega
    · rintro name y (hy | hy)
      · rcases hy with hq | hrest
        · left
          left
          rw [queue_setQueue] at hq
          split at hq
          · rename_i hn
            subst hn
            rw [hdrain]
            exact mem_cons_of_mem _ hq
          · exact hq
        · exact .inl (.inr hrest)
      · rcases mem_append.mp hy with hy | hy
        · exact .inr hy
        cases mem_singleton.mp hy
        refine .inl (.inl ?_)
        rw [hdrain]
        exact mem_cons_self

theorem Stocked.not_pending (h : Stocked b popped) (hx : x ∈ popped) : x.2.msg.id ∉ b.pending := by
  intro hm
  obtain ⟨pm, hp⟩ := Option.isSome_iff_exists.mp (TreeMap.mem_iff_isSome_getElem?.mp hm)
  have hid := h.keyed _ pm hp
  have hholds : b.Holds pm.queueName pm.held := .inr (.inr ⟨_, pm, hp, rfl, rfl⟩)
  have heq := h.distinct _ (h.held x.1 x.2 (.inr hx)) _ (h.held _ _ (.inl hholds)) hid.symm
  have hq : x.1 = pm.queueName := congrArg Prod.fst heq
  have hfly := (inFlight_pos (c := ⟨x.1, x.2.msg.id⟩)).mpr ⟨x, hx, rfl, rfl⟩
  have hmem := (inMemory_pos (c := ⟨x.1, x.2.msg.id⟩) h.keyed).mpr ⟨pm.held, hq ▸ hholds, hid⟩
  have hle := b.inMemory_le ⟨x.1, x.2.msg.id⟩
  have hbal := h.balanced ⟨x.1, x.2.msg.id⟩
  have hone := h.once ⟨x.1, x.2.msg.id⟩
  omega

theorem Stocked.pend (h : Stocked b popped) (e : Env) (hx : popped[i]? = some x) :
    Stocked (b.pend e x.1 x.2) (popped.eraseIdx i) := by
  have hin : x ∈ popped := mem_of_getElem? hx
  refine h.move ?_ rfl rfl rfl rfl (fun c => ?_) ?_
  · intro id pm hp
    rcases insert_cases hp with ⟨rfl, rfl⟩ | ⟨_, hp⟩
    · rfl
    · exact h.keyed id pm hp
  · have hset := b.places_setPending (b.pend e x.1 x.2).pending c
    have hins := pendingIn_insert (h.not_pending hin) (PendingMessage.mk x.2 x.1 e.now (e.now + b.ackTimeout)) c
    have herase := inFlight_eraseIdx hx c
    have hpl : (b.pend e x.1 x.2).places c = places { b with pending := (b.pend e x.1 x.2).pending } c := rfl
    have hpend : (b.pend e x.1 x.2).pending =
      b.pending.insert x.2.msg.id (PendingMessage.mk x.2 x.1 e.now (e.now + b.ackTimeout)) := rfl
    rw [hpend] at hset hpl
    dsimp only at hins
    omega
  · rintro name y (hy | hy)
    · rcases hy with hq | hd | ⟨id, pm, hp, rfl, rfl⟩
      · exact .inl (.inl hq)
      · exact .inl (.inr (.inl hd))
      · rcases insert_cases hp with ⟨rfl, rfl⟩ | ⟨_, hp⟩
        · exact .inr hin
        · exact .inl (.inr (.inr ⟨id, pm, hp, rfl, rfl⟩))
    · exact .inr (mem_of_mem_eraseIdx hy)

theorem Stocked.ack (h : Stocked b popped) (hs : b.store = some records) (he : e.writeErr = none)
    (id : String) : Stocked (b.ack e id).1 popped := by
  rcases ack_logged hs he id with hb | ⟨pm, hp, hb⟩
  · rw [hb]
    exact h
  rw [hb]
  refine ⟨h.keyed.erase rfl, h.dead, h.unspilled, fun c => ?_, h.once, h.distinct, ?_⟩
  · have hbal := h.balanced c
    have hset := b.places_setPending (b.pending.erase id) c
    have herase := pendingIn_erase hp c
    show b.acceptances c = (⟨pm.queueName, id⟩ :: b.acked).count c +
      places { b with pending := b.pending.erase id } c + _
    rw [Copy.count_cons]
    omega
  · rintro name x (hx | hx)
    · exact h.held name x (.inl (hx.of_erase rfl rfl))
    · exact h.held name x (.inr hx)

structure Inv (s : Compaction) (records : List WALRecord) : Prop where
  stocked : Stocked s.broker s.popped
  stored : s.broker.store = some records
  logs : ∀ (id : String) (m : Message), (logged records)[id]? = some m →
    ∃ x, Live s.broker x ∧ x.2.id = id ∧ m.Same x.2
  covered : ∀ x, Live s.broker x → (∃ m, (logged records)[x.2.id]? = some m) ∨
    ∃ r ∈ s.rewrites, r.truncated = true ∧ ∃ h ∈ r.msgs, h.msg = x.2
  ahead : ∀ r ∈ s.rewrites, r.truncated = false → ∀ x, Live s.broker x → ∃ h ∈ r.msgs, h.msg = x.2
  current : ∀ r ∈ s.rewrites, ∀ h ∈ r.msgs, ∃ x, Live s.broker x ∧ h.msg = x.2

theorem Live.congr (h : Live b x) (hacc : b'.accepted = b.accepted) (hack : b'.acked = b.acked) :
    Live b' x := by
  unfold Live
  rw [hacc, hack]
  exact h

theorem Inv.quiet (h : Inv s records) (hst : Stocked s'.broker s'.popped)
    (hstore : s'.broker.store = s.broker.store) (hacc : s'.broker.accepted = s.broker.accepted)
    (hack : s'.broker.acked = s.broker.acked) (hr : s'.rewrites = s.rewrites) : Inv s' records := by
  have hlive : ∀ x, Live s'.broker x → Live s.broker x := fun x hx => hx.congr hacc.symm hack.symm
  refine ⟨hst, hstore.trans h.stored, ?_, ?_, ?_, ?_⟩
  · intro id m hm
    obtain ⟨x, hx, hid, hsame⟩ := h.logs id m hm
    exact ⟨x, hx.congr hacc hack, hid, hsame⟩
  · rw [hr]
    exact fun x hx => h.covered x (hlive x hx)
  · rw [hr]
    exact fun r hr ht x hx => h.ahead r hr ht x (hlive x hx)
  · rw [hr]
    intro r hr y hy
    obtain ⟨x, hx, hm⟩ := h.current r hr y hy
    exact ⟨x, hx.congr hacc hack, hm⟩

theorem Stocked.accepted_of_acked (h : Stocked b popped) (hc : c ∈ b.acked) :
    ∃ x ∈ b.accepted, x.2.id = c.id := by
  have hpos := count_pos_iff.mpr hc
  have hbal := h.balanced c
  obtain ⟨x, hx, _, hid⟩ := exists_accepted (b := b) (c := c) (by omega)
  exact ⟨x, hx, hid⟩

theorem Inv.publish (h : Inv s records) {m : Message}
    (hnew : ∀ x ∈ s.broker.accepted, x.2.id ≠ m.id) (hno : ∀ r ∈ s.rewrites, r.truncated = true)
    (hf : e.now < (s.broker.stamp e topic m).deliverAt ∨
      (s.broker.queue topic).Room (clampPriority m.priority)) :
    ∃ records', Inv { s with broker := (s.broker.publish e topic m).1 } records' := by
  have hst := h.stocked.publish h.stored hnew hf
  rcases publish_fits h.stored hf with hb | ⟨⟨queues, delayed, hb⟩, _, _⟩
  · rw [hb]
    exact ⟨records, h⟩
  rw [hb] at hst ⊢
  have hid : (s.broker.stamp e topic m).id = m.id := rfl
  generalize s.broker.stamp e topic m = m' at hst hid
  rw [← hid] at hnew
  have hlive : ∀ x, Live s.broker x → Live { s.broker with
      queues, delayed, store := some (records ++ [.publish m']), nextRef := s.broker.nextRef + 1,
      accepted := (topic, m') :: s.broker.accepted } x :=
    fun x hx => ⟨mem_cons_of_mem _ hx.1, hx.2⟩
  refine ⟨records ++ [.publish m'], hst, rfl, ?_, ?_, ?_, ?_⟩
  · intro id m0 hm
    rw [logged_append] at hm
    rcases insert_cases hm with ⟨heq, rfl⟩ | ⟨_, hm⟩
    · refine ⟨(topic, m0), ⟨mem_cons_self, fun c hc hcid => ?_⟩, heq.symm, rfl⟩
      obtain ⟨x, hx, hx'⟩ := h.stocked.accepted_of_acked hc
      exact hnew x hx (hx'.trans hcid)
    · obtain ⟨x, hx, hid, hsame⟩ := h.logs id m0 hm
      exact ⟨x, hlive x hx, hid, hsame⟩
  · intro x hx
    rw [logged_append]
    rcases mem_cons.mp hx.1 with heq | hold
    · rw [heq]
      exact .inl ⟨m', TreeMap.getElem?_insert_self⟩
    · rcases h.covered x ⟨hold, hx.2⟩ with ⟨m0, hm⟩ | hr
      · exact .inl ⟨m0, (getElem?_insert_other m' (hnew x hold)).trans hm⟩
      · exact .inr hr
  · intro r hr ht
    cases (hno r hr).symm.trans ht
  · intro r hr y hy
    obtain ⟨x, hx, hm⟩ := h.current r hr y hy
    exact ⟨x, hlive x hx, hm⟩

theorem Inv.ack (h : Inv s records) (he : e.writeErr = none) {id : String}
    (hno : ∀ r ∈ s.rewrites, ∀ h ∈ r.msgs, h.msg.id ≠ id) :
    ∃ records', Inv { s with broker := (s.broker.ack e id).1 } records' := by
  have hst := h.stocked.ack h.stored he id
  rcases ack_logged h.stored he id with hb | ⟨pm, hp, hb⟩
  · rw [hb]
    exact ⟨records, h⟩
  rw [hb] at hst ⊢
  have hlive : ∀ x, Live { s.broker with
      pending := s.broker.pending.erase id, acked := ⟨pm.queueName, id⟩ :: s.broker.acked,
      store := some (records ++ [.ack id]) } x ↔ Live s.broker x ∧ x.2.id ≠ id := by
    intro x
    unfold Live
    rw [forall_mem_cons]
    exact ⟨fun hx => ⟨⟨hx.1, hx.2.2⟩, fun he => hx.2.1 he.symm⟩,
      fun hx => ⟨hx.1.1, fun he => hx.2 he.symm, hx.1.2⟩⟩
  refine ⟨records ++ [.ack id], hst, rfl, ?_, ?_, ?_, ?_⟩
  · intro id' m hm
    rw [logged_append] at hm
    obtain ⟨x, hx, hid, hsame⟩ := h.logs id' m (getElem?_of_erase hm)
    refine ⟨x, (hlive x).mpr ⟨hx, fun hxid => ?_⟩, hid, hsame⟩
    rw [← hid, hxid] at hm
    cases hm.symm.trans TreeMap.getElem?_erase_self
  · intro x hx
    obtain ⟨hx, hxid⟩ := (hlive x).mp hx
    rw [logged_append]
    rcases h.covered x hx with ⟨m, hm⟩ | hr
    · exact .inl ⟨m, (getElem?_erase_other hxid).trans hm⟩
    · exact .inr hr
  · exact fun r hr ht x hx => h.ahead r hr ht x ((hlive x).mp hx).1
  · intro r hr y hy
    obtain ⟨x, hx, hm⟩ := h.current r hr y hy
    exact ⟨x, (hlive x).mpr ⟨hx, by rw [← hm]; exact hno r hr y hy⟩, hm⟩

theorem Inv.capture (h : Inv s records) {msgs : List Held} (hp : msgs.Perm s.broker.captured)
    (hno : s.popped = []) : Inv { s with rewrites := s.rewrites ++ [{ msgs }] } records := by
  have hmem : ∀ y, y ∈ msgs ↔ ∃ name, s.broker.Holds name y := by
    intro y
    rw [hp.mem_iff, captured_eq h.stocked.dead, mem_memory]
  refine ⟨h.stocked, h.stored, h.logs, ?_, ?_, ?_⟩
  · intro x hx
    rcases h.covered x hx with hm | ⟨r, hr, hrest⟩
    · exact .inl hm
    · exact .inr ⟨r, mem_append_left _ hr, hrest⟩
  · intro r hr ht x hx
    rcases mem_append.mp hr with hr | hr
    · exact h.ahead r hr ht x hx
    cases mem_singleton.mp hr
    obtain ⟨y, hy, hm⟩ := h.stocked.place hx
    rw [hno] at hy
    exact ⟨y, (hmem y).mpr ⟨x.1, hy.resolve_right not_mem_nil⟩, hm⟩
  · intro r hr y hy
    rcases mem_append.mp hr with hr | hr
    · exact h.current r hr y hy
    cases mem_singleton.mp hr
    obtain ⟨name, hy⟩ := (hmem y).mp hy
    exact ⟨(name, y.msg), h.stocked.live (.inl hy), rfl⟩

theorem Inv.truncate (h : Inv s records) (hi : s.rewrites[i]? = some ⟨msgs, false⟩) : Inv { s with
      broker := setLog s.broker (fun _ => [])
      rewrites := s.rewrites.set i ⟨msgs, true⟩ } [] := by
  have hr : ⟨msgs, false⟩ ∈ s.rewrites := mem_of_getElem? hi
  have hlt : i < s.rewrites.length := (List.getElem?_eq_some_iff.mp hi).1
  refine ⟨?_, ?_, fun _ _ hm => ?_, ?_, ?_, ?_⟩
  · exact h.stocked.move (h.stocked.keyed.congr rfl) rfl rfl rfl rfl (fun _ => rfl) (fun _ _ hx => hx)
  · unfold setLog
    rw [h.stored]
    rfl
  · cases hm
  · intro x hx
    exact .inr ⟨⟨msgs, true⟩, mem_set hlt _, rfl, h.ahead _ hr rfl x hx⟩
  · intro r hr' ht x hx
    rcases mem_or_eq_of_mem_set hr' with hr' | rfl
    · exact h.ahead r hr' ht x hx
    · cases ht
  · intro r hr' y hy
    rcases mem_or_eq_of_mem_set hr' with hr' | rfl
    · exact h.current r hr' y hy
    · exact h.current _ hr y hy

theorem mem_set_of_mem {l : List α} (h : a ∈ l) (i : Nat) (b : α) :
    a ∈ l.set i b ∨ l[i]? = some a := by
  obtain ⟨j, hj⟩ := mem_iff_getElem?.mp h
  by_cases hij : i = j
  · exact .inr (hij ▸ hj)
  · exact .inl (mem_of_getElem? ((getElem?_set_ne hij).trans hj))

theorem Inv.write (h : Inv s records) (hi : s.rewrites[i]? = some ⟨y :: msgs, true⟩) : Inv { s with
      broker := setLog s.broker (· ++ [.publish (s.broker.encode y)])
      rewrites := s.rewrites.set i ⟨msgs, true⟩ } (records ++ [.publish (s.broker.encode y)]) := by
  have hr : ⟨y :: msgs, true⟩ ∈ s.rewrites := mem_of_getElem? hi
  have hlt : i < s.rewrites.length := (List.getElem?_eq_some_iff.mp hi).1
  have hsome : ∀ id : String, id = y.msg.id ∨ (∃ m, (logged records)[id]? = some m) →
      ∃ m, (logged (records ++ [.publish (s.broker.encode y)]))[id]? = some m := by
    intro id hid
    rw [logged_append]
    by_cases heq : id = y.msg.id
    · exact ⟨s.broker.encode y, heq ▸ TreeMap.getElem?_insert_self⟩
    · obtain ⟨m, hm⟩ := hid.resolve_left heq
      exact ⟨m, (getElem?_insert_other _ heq).trans hm⟩
  refine ⟨?_, ?_, ?_, ?_, ?_, ?_⟩
  · exact h.stocked.move (h.stocked.keyed.congr rfl) rfl rfl rfl rfl (fun _ => rfl) (fun _ _ hx => hx)
  · unfold setLog
    rw [h.stored]
    rfl
  · intro id m hm
    rw [logged_append] at hm
    rcases insert_cases hm with ⟨rfl, rfl⟩ | ⟨_, hm⟩
    · obtain ⟨x, hx, hy⟩ := h.current _ hr y mem_cons_self
      exact ⟨x, hx, (congrArg Message.id hy).symm, hy ▸ rfl⟩
    · exact h.logs id m hm
  · intro x hx
    rcases h.covered x hx with hm | ⟨r, hr', ht, z, hz, hzx⟩
    · exact .inl (hsome _ (.inr hm))
    rcases mem_set_of_mem hr' i ⟨msgs, true⟩ with hr' | heq
    · exact .inr ⟨r, hr', ht, z, hz, hzx⟩
    cases hi.symm.trans heq
    rcases mem_cons.mp hz with rfl | hz
    · exact .inl (hsome _ (.inl (congrArg Message.id hzx.symm)))
    · exact .inr ⟨⟨msgs, true⟩, mem_set hlt _, rfl, z, hz, hzx⟩
  · intro r hr' ht x hx
    rcases mem_or_eq_of_mem_set hr' with hr' | rfl
    · exact h.ahead r hr' ht x hx
    · cases ht
  · intro r hr' z hz
    rcases mem_or_eq_of_mem_set hr' with hr' | rfl
    · exact h.current r hr' z hz
    · exact h.current _ hr z (mem_cons_of_mem _ hz)

theorem Inv.step (h : Inv s records) (hc : s.Safe op) (hs : s.Step op s') :
    ∃ records', Inv s' records' := by
  cases op with
  | publish e topic m =>
    cases hs
    exact h.publish hc.1 hc.2.1 hc.2.2
  | pop e topic =>
    cases hs
    refine ⟨records, h.quiet (h.stocked.pop hc) ?_ ?_ ?_ ?_⟩ <;>
    · unfold Compaction.pop
      split
      · rfl
      · split <;> rfl
  | pend e i =>
    simp only [Step, Compaction.step] at hs
    split at hs
    · cases hs
    rename_i x hx
    cases hs
    exact ⟨records, h.quiet (h.stocked.pend e hx) rfl rfl rfl rfl⟩
  | ack e id =>
    cases hs
    exact h.ack hc.1 hc.2
  | capture msgs =>
    simp only [Step, Compaction.step] at hs
    split at hs
    · rename_i hp
      cases hs
      exact ⟨records, h.capture hp hc⟩
    · cases hs
  | truncate i =>
    simp only [Step, Compaction.step] at hs
    split at hs
    · rename_i msgs hi
      cases hs
      exact ⟨[], h.truncate hi⟩
    · cases hs
  | write i =>
    simp only [Step, Compaction.step] at hs
    split at hs
    · rename_i y msgs hi
      cases hs
      exact ⟨_, h.write hi⟩
    · cases hs

theorem new_stocked (cfg : Config) : Stocked (.new cfg (some []) ∅) [] := by
  refine ⟨?_, rfl, rfl, fun c => ?_, fun c => ?_, fun _ hx => absurd hx not_mem_nil, ?_⟩
  · intro id pm hp
    cases hp
  · rw [new_places]
    rfl
  · exact Nat.zero_le 1
  · rintro name x (hx | hx)
    · exact absurd hx (not_holds_new cfg _ _ name x)
    · cases hx

def start (cfg : Config) : Compaction := { broker := .new cfg (some []) ∅ }

/-- Whatever checkpoints run, and wherever they are stopped, what the server gathers
from the log are the messages that were published and not acknowledged. -/
theorem checkpoints_are_safe (cfg : Config) {ops : List Op} {s : Compaction}
    (hr : Run Step Safe (start cfg) ops s) (hq : s.Quiet) (b : Broker) :
    ∃ records, s.broker.store = some records ∧
      (∀ x ∈ s.broker.accepted, (∀ c ∈ s.broker.acked, c.id ≠ x.2.id) → ∃ m : Message, m.Same x.2 ∧
        ((readAllRecords records).foldl Replay.record { broker := b }).Yields m) ∧
      ∀ m, ((readAllRecords records).foldl Replay.record { broker := b }).Yields m →
        ∀ c ∈ s.broker.acked, c.id ≠ m.id := by
  have h0 : Inv (start cfg) [] := by
    refine ⟨new_stocked cfg, rfl, (fun _ _ hm => nomatch hm), fun _ hx => ?_, ?_, ?_⟩
    · exact absurd hx.1 not_mem_nil
    · exact fun _ hr => absurd hr not_mem_nil
    · exact fun _ hr => absurd hr not_mem_nil
  obtain ⟨records, h⟩ := hr.invariant (fun s => ∃ records, Inv s records) ⟨[], h0⟩
    (fun _ _ _ ⟨_, hi⟩ hc hs => hi.step hc hs)
  refine ⟨records, h.stored, ?_, ?_⟩
  · intro x hx hack
    rcases h.covered x ⟨hx, hack⟩ with ⟨m, hm⟩ | ⟨r, hr, ht, y, hy, _⟩
    · obtain ⟨x', hx', hid, hsame⟩ := h.logs _ m hm
      rw [h.stocked.distinct x' hx'.1 x hx hid] at hsame
      refine ⟨m, hsame, (replay_yields b records m).mpr ?_⟩
      rw [(logged_id hm).1]
      exact hm
    · rw [hq r hr ht] at hy
      cases hy
  · intro m hm c hc
    obtain ⟨x, hx, hid, _⟩ := h.logs m.id m ((replay_yields b records m).mp hm)
    rw [← hid]
    exact hx.2 c hc

def orderly : List Op :=
  [.publish { now := 1 } "jobs" { id := "a" }, .publish { now := 2 } "jobs" { id := "b" },
    .pop { now := 3 } "jobs", .pend { now := 3 } 0,
    .capture [⟨1, { id := "b", topic := "jobs" }⟩, ⟨0, { id := "a", topic := "jobs" }⟩],
    .truncate 0, .write 0, .publish { now := 4 } "jobs" { id := "c" }, .write 0, .ack { now := 5 } "a"]

theorem orderly_is_safe :
    ∃ s records, Run Step Safe (start {}) orderly s ∧ s.broker.store = some records ∧
      s.broker.acked = [⟨"jobs", "a"⟩] ∧
      (∀ x ∈ s.broker.accepted, (∀ c ∈ s.broker.acked, c.id ≠ x.2.id) → ∃ m : Message, m.Same x.2 ∧
        ((readAllRecords records).foldl Replay.record { broker := (start {}).broker }).Yields m) := by
  obtain ⟨s, hr, hq, ha⟩ := Run.executed Safe step (start {}) orderly
    (fun s => s.Quiet ∧ s.broker.acked = [⟨"jobs", "a"⟩]) (by decide +kernel)
  obtain ⟨records, hs, hlive, _⟩ := checkpoints_are_safe {} hr hq (start {}).broker
  exact ⟨s, records, hr, hs, ha, hlive⟩

def hasty : List Op :=
  [.publish { now := 1 } "jobs" { id := "a" }, .publish { now := 2 } "jobs" { id := "b" },
    .pop { now := 3 } "jobs", .pend { now := 3 } 0,
    .capture [⟨1, { id := "b", topic := "jobs" }⟩, ⟨0, { id := "a", topic := "jobs" }⟩],
    .publish { now := 4 } "jobs" { id := "c" }, .ack { now := 5 } "a", .truncate 0, .write 0, .write 0]

/-- The acknowledged message is in the log again and the one that was published is not,
although the checkpoint ended. -/
theorem hasty_is_unsafe :
    ∃ s records, Run Step always (start {}) hasty s ∧ s.broker.store = some records ∧ s.Quiet ∧
      s.broker.acked = [⟨"jobs", "a"⟩] ∧ s.broker.accepted.map (fun x => x.2.id) = ["c", "b", "a"] ∧
      (((readAllRecords records).foldl Replay.record { broker := (start {}).broker }).Yields
        { id := "a", topic := "jobs" }) ∧
      ((readAllRecords records).foldl Replay.record { broker := (start {}).broker }).msgs["c"]? = none := by
  obtain ⟨s, hr, hsome, hrest⟩ := Run.executed always step (start {}) hasty
    (fun s => s.broker.store.isSome = true ∧ s.Quiet ∧
      s.broker.acked = [⟨"jobs", "a"⟩] ∧ s.broker.accepted.map (fun x => x.2.id) = ["c", "b", "a"] ∧
      (((readAllRecords (s.broker.store.getD [])).foldl Replay.record { broker := (start {}).broker }).Yields
        { id := "a", topic := "jobs" }) ∧
      ((readAllRecords (s.broker.store.getD [])).foldl Replay.record
        { broker := (start {}).broker }).msgs["c"]? = none) (by decide +kernel)
  obtain ⟨records, hs⟩ := Option.isSome_iff_exists.mp hsome
  rw [hs] at hrest
  exact ⟨s, records, hr, hs, hrest⟩

end Compaction
end Boltq.QueuePlane
