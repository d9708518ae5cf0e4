import Boltq.QueuePlane.Conservation
import Boltq.QueuePlane.Fsm
import Boltq.QueuePlane.Memory

namespace Boltq.QueuePlane
open Lib Std List

namespace Broker
variable {b b' : Broker} {e : Env} {id : String}

theorem push_le (b : Broker) (name : String) (h : Held) (c : Copy) :
    (b.push name h).1.places c ≤ b.places c + c.is name h.msg.id := by
  obtain ⟨⟨queues, hb⟩, hin⟩ := b.push_spec name h
  have hq := hin c
  rw [places_eq, places_eq, hq, hb]
  change b.inQueue c + _ + b.inSpill c + b.elsewhere c ≤ b.inQueue c + b.inSpill c + b.elsewhere c + _
  split <;> omega

theorem pushDeadLetter_le (b : Broker) (name : String) (h : Held) (c : Copy) :
    (b.pushDeadLetter name h).places c ≤ b.places c + c.is name h.msg.id := by
  by_cases hroom : (b.deadLetter name).length < nextPowerOfTwo b.queueCap
  · exact Nat.le_of_eq ((b.pushDeadLetter_spec h hroom).2 c)
  have hdead : (b.pushDeadLetter name h).inDeadLetters c = b.inDeadLetters c := by
    unfold inDeadLetters
    rw [deadLetter_pushDeadLetter, if_neg hroom]
    split <;> simp_all
  change b.inQueue c + b.inSpill c + b.inPending c + b.inDelayed c + _ ≤ _
  rw [hdead]
  exact Nat.le_add_right _ _

theorem pushOrSpill_le (b : Broker) (e : Env) (name : String) (h : Held) (c : Copy) :
    (b.pushOrSpill e name h).1.places c ≤ b.places c + c.is name h.msg.id := by
  rw [(b.pushOrSpill_spec e name h).2]
  split <;> omega

theorem publish_le (b : Broker) (e : Env) (topic : String) (m : Message) :
    (b.publish e topic m).1.pending = b.pending ∧
    ∀ c, (b.publish e topic m).1.places c ≤ b.places c + c.is topic m.id := by
  obtain hb | ⟨queues, spill, delayed, hp, hb⟩ := b.publish_spec e topic m
  · rw [hb]
    exact ⟨rfl, fun c => Nat.le_add_right _ _⟩
  · have hle : ∀ c, places { b with queues, spill, delayed } c ≤ b.places c + c.is topic m.id :=
      fun c => Nat.le_trans (Nat.le_of_eq (hp c)) (Nat.add_le_add_left (by split <;> omega) _)
    rw [hb]
    split <;> exact ⟨rfl, hle⟩

structure Shrinks (id : String) (b b' : Broker) : Prop where
  places : ∀ name, b'.places ⟨name, id⟩ ≤ b.places ⟨name, id⟩
  keyed : b.Keyed → b'.Keyed

theorem Shrinks.refl (b : Broker) : Shrinks id b b := ⟨fun _ => Nat.le_refl _, fun h => h⟩

theorem Shrinks.trans (h : Shrinks id b b') (h' : Shrinks id b' b'') : Shrinks id b b'' :=
  ⟨fun name => Nat.le_trans (h'.places name) (h.places name), fun hk => h'.keyed (h.keyed hk)⟩

theorem Quiet.shrinks (h : Quiet b b') : Shrinks id b b' :=
  ⟨fun _ => Nat.le_of_eq (h.places _), fun hk => hk.congr h.pending⟩

theorem Shrinks.other (hm : mid ≠ id) (hp : ∀ c, b'.places c ≤ b.places c + c.is topic mid)
    (hk : b'.pending = b.pending) : Shrinks id b b' := by
  refine ⟨fun name => ?_, fun h => h.congr hk⟩
  have hc := hp ⟨name, id⟩
  rw [Copy.is_eq, if_neg (fun h => hm h.2)] at hc
  exact hc

theorem publishTopic_shrinks (b : Broker) (e : Env) (topic : String) (m : Message) (hm : m.id ≠ id) :
    Shrinks id b (b.publishTopic e topic m).1 := by
  refine publishTopic_rule (.refl b) ⟨fun _ => Nat.le_refl _, fun hk => hk⟩ (fun b1 sub _ h1 => ?_)
  refine h1.trans (.other hm (b1.pushOrSpill_le e (durableName topic sub) _) ?_)
  obtain ⟨⟨queues, spill, hb⟩, -⟩ := b1.pushOrSpill_spec e (durableName topic sub)
    ⟨b.nextRef, { m with topic }⟩
  rw [hb]
  rfl

theorem pendingIn_insert_le (t : TreeMap String PendingMessage) (mid : String) (pm : PendingMessage)
    (c : Copy) : pendingIn (t.insert mid pm) c ≤ pendingIn t c + c.is pm.queueName mid := by
  unfold pendingIn
  by_cases hid : mid = c.id
  · simp [← hid, Copy.is_eq]
  · rw [getElem?_insert_other _ (fun he => hid he.symm)]
    exact Nat.le_add_right _ _

theorem tryConsume_shrinks (b : Broker) (e : Env) (topic : String) :
    Shrinks id b (b.tryConsume e topic).1 := by
  obtain ⟨q, skipped, hdrain, -, -, hb⟩ := b.tryConsume_spec e topic
  generalize (b.tryConsume e topic).2 = got at hdrain hb
  generalize hpend : got.elim b.pending _ = t at hb
  have ht : (∀ c, pendingIn t c ≤ b.inPending c + (copies topic got.toList).count c) ∧
      (b.Keyed → Keyed { b with pending := t }) := by
    cases got with
    | none =>
      subst hpend
      exact ⟨fun c => Nat.le_refl _, fun hk => hk⟩
    | some x =>
      subst hpend
      refine ⟨fun c => ?_, fun hk mid pm hpm => ?_⟩
      · exact Nat.le_trans (pendingIn_insert_le _ _ _ c) (by simp [copies, Copy.count_cons, inPending])
      rcases insert_cases hpm with ⟨rfl, rfl⟩ | ⟨_, hpm⟩
      · rfl
      · exact hk mid pm hpm
  rw [hb]
  refine ⟨fun name => ?_, ht.2⟩
  have hq := inQueue_taken hdrain ⟨name, id⟩
  have hp := ht.1 ⟨name, id⟩
  change (b.setQueue topic q).inQueue _ + b.inSpill _ + pendingIn t _ + b.inDelayed _ + b.inDeadLetters _ ≤
    b.inQueue _ + b.inSpill _ + b.inPending _ + b.inDelayed _ + b.inDeadLetters _
  omega

theorem places_take (hp : b.pending[mid]? = some pm) (c : Copy) :
    places { b with pending := b.pending.erase mid } c + c.is pm.queueName mid = b.places c := by
  have he := pendingIn_erase hp c
  have hset := b.places_setPending (b.pending.erase mid) c
  omega

section
variable (b : Broker)

theorem ack_shrinks (e : Env) (mid : String) : Shrinks id b (b.ack e mid).1 := by
  rw [ack_eq]
  cases hp : b.pending[mid]? with
  | none => exact .refl b
  | some pm =>
    exact ⟨fun name => Nat.le_trans (Nat.le_add_right _ _) (Nat.le_of_eq (places_take hp ⟨name, id⟩)),
      fun hk => hk.erase rfl⟩

theorem retryOrDeadLetter_le (h : Held) (name : String) :
    (b.retryOrDeadLetter h name).1.pending = b.pending ∧
    ∀ c, (b.retryOrDeadLetter h name).1.places c ≤ b.places c + c.is name h.msg.id := by
  rw [retryOrDeadLetter_eq]
  split
  · exact ⟨rfl, (b.retried h).pushDeadLetter_le name h⟩
  have hpush := (b.retried h).push_le name h
  obtain ⟨⟨queues, hb⟩, -⟩ := (b.retried h).push_spec name h
  rw [hb] at hpush ⊢
  exact ⟨rfl, hpush⟩

theorem nack_shrinks (mid : String) (hk : b.Keyed) : Shrinks id b (b.nack mid).1 := by
  unfold nack retryPending
  cases hp : b.pending[mid]? with
  | none => exact .refl b
  | some pm =>
    obtain ⟨hpend, hle⟩ :=
      retryOrDeadLetter_le { b with pending := b.pending.erase mid } pm.held pm.queueName
    rw [hk mid pm hp] at hle
    exact ⟨fun name => Nat.le_trans (hle _) (Nat.le_of_eq (places_take hp _)), fun _ => hk.erase hpend⟩

theorem promoteDelayed_shrinks (e : Env) (mid : String) :
    Shrinks id b (b.promoteDelayed e mid).1 := by
  unfold promoteDelayed
  cases hf : b.delayed.find? (fun h => h.msg.id = mid) with
  | none => exact .refl b
  | some x =>
    have hle := pushOrSpill_le { b with delayed := b.delayed.eraseP (fun h => h.msg.id = mid) } e
      x.msg.topic x
    obtain ⟨⟨queues, spill, hb⟩, -⟩ := pushOrSpill_spec
      { b with delayed := b.delayed.eraseP (fun h => h.msg.id = mid) } e x.msg.topic x
    refine ⟨fun name => ?_, fun hk => hk.congr (by dsimp only; rw [hb])⟩
    have hd := delayedIn_eraseP hf ⟨name, id⟩
    have hset := b.places_setDelayed (b.delayed.eraseP (fun h => h.msg.id = mid)) ⟨name, id⟩
    have hc := hle ⟨name, id⟩
    dsimp only
    omega

theorem purgeQueue_shrinks (topic : String) : Shrinks id b (b.purgeQueue topic).1 := by
  obtain ⟨-, heq⟩ | ⟨store, -, heq⟩ := b.purgeQueue_cases topic
  · rw [heq]
    exact .refl b
  rw [heq]
  refine ⟨fun name => ?_, fun hk => hk⟩
  have hset := b.places_setQueue topic (b.queue topic).purge ⟨name, id⟩
  have hin := b.inQueue_setQueue topic (b.queue topic).purge ⟨name, id⟩
  rw [PriorityQueue.drain_purge, countP_nil] at hin
  change (b.setQueue topic (b.queue topic).purge).places _ ≤ _
  split at hin <;> omega

theorem purgeDeadLetters_shrinks (topic : String) : Shrinks id b (b.purgeDeadLetters topic).1 := by
  obtain ⟨-, heq⟩ | ⟨store, -, heq⟩ := b.purgeDeadLetters_cases topic
  · rw [heq]
    exact .refl b
  rw [heq]
  refine ⟨fun name => Nat.add_le_add_left ?_ _, fun hk => hk⟩
  change (deadLetter { b with deadLetters := b.deadLetters.insert (deadLetterName topic) [] } name).countP _ ≤ _
  rw [deadLetter_insert]
  split
  · exact Nat.zero_le _
  · exact Nat.le_refl _

def Stowed (id : String) : Prop :=
  (∃ x ∈ b.spill.toList, ∃ m ∈ x.2, m.id = id) ∨ ∃ x ∈ b.deadLetters.toList, ∃ h ∈ x.2, h.msg.id = id
  deriving Decidable

end

theorem places_zero (hm : b.hasMessage id = false) (hs : ¬ b.Stowed id) (name : String) :
    b.places ⟨name, id⟩ = 0 := by
  rw [← Bool.not_eq_true, hasMessage_iff, not_or, not_or] at hm
  obtain ⟨hpend, hqueue, hdelayed⟩ := hm
  obtain ⟨hspill, hdead⟩ := not_or.mp hs
  have h1 : b.inQueue ⟨name, id⟩ = 0 := countP_eq_zero.mpr fun h hh hid =>
    hqueue ⟨name, h, hh, of_decide_eq_true hid⟩
  have h2 : b.inSpill ⟨name, id⟩ = 0 := countP_eq_zero.mpr fun m hm hid => by
    unfold spilled at hm
    cases hn : b.spill[name]? with
    | none => simp [hn] at hm
    | some ms =>
      rw [hn] at hm
      exact hspill ⟨_, TreeMap.mem_toList_iff_getElem?_eq_some.mpr hn, m, hm, of_decide_eq_true hid⟩
  have h3 : b.inPending ⟨name, id⟩ = 0 := by
    unfold inPending pendingIn
    cases hp : b.pending[id]? with
    | none => rfl
    | some pm => exact absurd ⟨pm, hp⟩ hpend
  have h4 : b.inDelayed ⟨name, id⟩ = 0 := countP_eq_zero.mpr fun h hh hid =>
    hdelayed ⟨h, hh, (of_decide_eq_true hid).2⟩
  have h5 : b.inDeadLetters ⟨name, id⟩ = 0 := countP_eq_zero.mpr fun h hh hid => by
    unfold deadLetter at hh
    cases hn : b.deadLetters[deadLetterName name]? with
    | none => simp [hn] at hh
    | some hs =>
      rw [hn] at hh
      exact hdead ⟨_, TreeMap.mem_toList_iff_getElem?_eq_some.mpr hn, h, hh, of_decide_eq_true hid⟩
  unfold places
  omega

structure Single (id : String) (b : Broker) : Prop where
  keyed : b.Keyed
  place : ∃ name, ∀ n, b.places ⟨n, id⟩ ≤ if n = name then 1 else 0

theorem Single.shrinks (h : Single id b) (hs : Shrinks id b b') : Single id b' := by
  obtain ⟨name, hp⟩ := h.place
  exact ⟨hs.keyed h.keyed, name, fun n => Nat.le_trans (hs.places n) (hp n)⟩

theorem Single.exclusive (h : Single id b) (hp : b.pending[id]? = some pm)
    (hgot : (b.tryConsume e topic).2 = some x) : x.msg.id ≠ id := by
  intro hid
  obtain ⟨name, hplace⟩ := h.place
  have hpend : b.inPending ⟨pm.queueName, id⟩ = 1 := by simp [inPending, pendingIn, hp]
  obtain ⟨q, skipped, hdrain, -⟩ := b.tryConsume_spec e topic
  have hqueue : 0 < b.inQueue ⟨topic, id⟩ := by
    refine countP_pos_iff.mpr ⟨x, ?_, decide_eq_true hid⟩
    rw [hdrain, hgot]
    simp
  have h1 := hplace pm.queueName
  have h2 := hplace topic
  unfold places at h1 h2
  split at h1 <;> split at h2
  · subst name
    rename_i he
    subst he
    omega
  all_goals omega

end Broker

namespace BrokerFSM

/-- The id is not published again while the broker keeps it, and never to a topic or by an
exchange. -/
def Once (id : String) (f : BrokerFSM) : Env × List String × RaftCommand → Prop
  | (_, _, .publish _ m) => m.id = id → ¬ f.broker.Stowed id
  | (_, _, .publishTopic _ m) => m.id ≠ id
  | (_, ids, .publishExchange exchange _ m) => (exchange = "" → m.id ≠ id) ∧ id ∉ ids
  | _ => True

instance (id : String) (f : BrokerFSM) (c : Env × List String × RaftCommand) : Decidable (f.Once id c) := by
  unfold Once
  split <;> infer_instance

def step (f : BrokerFSM) (c : Env × List String × RaftCommand) : Option BrokerFSM :=
  some (f.applyCommand c.1 c.2.1 c.2.2).1

def Step (f : BrokerFSM) (c : Env × List String × RaftCommand) (f' : BrokerFSM) : Prop :=
  f.step c = some f'

theorem purged_broker (f : BrokerFSM) (r : Broker × Except BrokerErr Nat) :
    (f.purged r).1.broker = r.1 := by
  unfold purged
  split <;> rfl

theorem single_step {id : String} {f : BrokerFSM} (h : f.broker.Single id)
    (hc : f.Once id c) (hs : f.Step c f') : f'.broker.Single id := by
  obtain ⟨e, ids, cmd⟩ := c
  cases hs
  cases cmd with
  | publish topic m =>
    obtain ⟨hpend, hle⟩ := f.broker.publish_le e topic m
    simp only [applyCommand]
    split
    · exact h
    rename_i hm
    by_cases hid : m.id = id
    · subst hid
      refine ⟨h.keyed.congr hpend, topic, fun n => Nat.le_trans (hle _) ?_⟩
      rw [Broker.places_zero (Bool.not_eq_true _ ▸ hm) (hc rfl), Copy.is_eq]
      simp [eq_comm]
    · exact h.shrinks (.other hid hle hpend)
  | publishTopic topic m => exact h.shrinks (f.broker.publishTopic_shrinks e topic m hc)
  | consume topic => exact h.shrinks (f.broker.tryConsume_shrinks e topic)
  | ack mid => exact h.shrinks (f.broker.ack_shrinks e mid)
  | nack mid => exact h.shrinks (f.broker.nack_shrinks mid h.keyed)
  | promote mid =>
    simp only [applyCommand]
    split
    · exact h.shrinks (f.broker.promoteDelayed_shrinks e mid)
    · exact h
  | purge topic =>
    rw [applyCommand, purged_broker]
    exact h.shrinks (f.broker.purgeQueue_shrinks topic)
  | purgeDeadLetters topic =>
    rw [applyCommand, purged_broker]
    exact h.shrinks (f.broker.purgeDeadLetters_shrinks topic)
  | subscribe topic sub => exact h.shrinks (Broker.Quiet.topology _ _ _ _).shrinks
  | unsubscribe topic sub => exact h.shrinks (f.broker.unregisterDurableSub_quiet topic sub).shrinks
  | exchangeDeclare name type durable =>
    exact h.shrinks (f.broker.exchangeDeclare_quiet e name type durable).shrinks
  | exchangeDelete name => exact h.shrinks (f.broker.exchangeDelete_quiet e name).shrinks
  | bindQueue binding => exact h.shrinks (f.broker.bindQueue_quiet e binding).shrinks
  | unbindQueue exchange queue bindingKey =>
    exact h.shrinks (f.broker.unbindQueue_quiet e exchange queue bindingKey).shrinks
  | publishExchange exchange routingKey m =>
    refine Broker.publishExchange_rule (P := Broker.Single id) (fun b queue m' hid hb => ?_) h routingKey
    obtain ⟨hpend, hle⟩ := b.publish_le e queue m'
    refine hb.shrinks (.other ?_ hle hpend)
    rcases hid with hin | ⟨hx, hid⟩
    · exact fun he => hc.2 (he ▸ hin)
    · exact hid ▸ hc.1 hx
  | control cmd => exact h
  | unknown type => exact h

/-- While a message is held, publishing it again changes nothing, and while it is pending it is
given to nobody else, as long as it is not published again from a spill file or the dead letters. -/
theorem republish_is_idempotent (id : String) (f : BrokerFSM) (hk : f.broker.Keyed)
    (hnew : ∀ name, f.broker.places ⟨name, id⟩ = 0) {cmds : List (Env × List String × RaftCommand)}
    {f' : BrokerFSM} (hr : Run Step (Once id) f cmds f') :
    (∀ e ids topic m, m.id = id → (∃ name, 0 < f'.broker.places ⟨name, id⟩) → ¬ f'.broker.Stowed id →
      f'.applyCommand e ids (.publish topic m) = (f', {})) ∧
    ∀ pm, f'.broker.pending[id]? = some pm → ∀ e topic x,
      (f'.broker.tryConsume e topic).2 = some x → x.msg.id ≠ id := by
  have hs : f'.broker.Single id := hr.invariant (fun f => f.broker.Single id)
    ⟨hk, "", fun n => by rw [hnew]; exact Nat.zero_le _⟩ (fun _ _ _ hi hc hs => single_step hi hc hs)
  refine ⟨fun e ids topic m hid hheld hst => ?_, fun pm hp e topic x hgot => hs.exclusive hp hgot⟩
  obtain ⟨name, hpos⟩ := hheld
  have hm : f'.broker.hasMessage m.id = true := by
    by_contra hm
    rw [hid, Bool.not_eq_true] at hm
    rw [Broker.places_zero hm hst] at hpos
    cases hpos
  simp [applyCommand, hm]

def publishedTwice : List (Env × List String × RaftCommand) :=
  [(⟨1, none, none⟩, [], .publish "jobs" { id := "a" }), (⟨2, none, none⟩, [], .consume "jobs"),
    (⟨3, none, none⟩, [], .publish "jobs" { id := "a" })]

theorem republish_is_idempotent_pending :
    ∃ f, Run Step (Once "a") { broker := .new {} none ∅ } publishedTwice f ∧
      f.broker.inPending ⟨"jobs", "a"⟩ = 1 ∧
      f.applyCommand ⟨4, none, none⟩ [] (.publish "jobs" { id := "a" }) = (f, {}) := by
  refine Run.shown (fun f => f.broker.inPending ⟨"jobs", "a"⟩ = 1 ∧ ¬ f.broker.Stowed "a")
    (by decide +kernel) ?_
  rintro f hr ⟨hp, hs⟩
  have hheld : 0 < f.broker.places ⟨"jobs", "a"⟩ := by
    unfold Broker.places
    omega
  exact ⟨hp, (republish_is_idempotent "a" { broker := .new {} none ∅ }
    (Broker.new_sound {} none).keyed (fun _ => Broker.places_new {} none _) hr).1 _ _ _ _ rfl
      ⟨"jobs", hheld⟩ hs⟩

/-- A message that was spilled, or given up, is published again and held twice. -/
theorem republish_doubles : (∃ f, Run Step always { broker := .new { queueCap := 1 } none ∅ }
        [(⟨1, none, none⟩, [], .publish "jobs" { id := "a" }),
          (⟨2, none, none⟩, [], .publish "jobs" { id := "b" })] f ∧
      f.broker.inSpill ⟨"jobs", "b"⟩ = 1 ∧
      (f.applyCommand ⟨3, none, none⟩ [] (.publish "jobs" { id := "b" })).1.broker.inSpill ⟨"jobs", "b"⟩ = 2) ∧
    ∃ f, Run Step always { broker := .new { maxRetry := 1 } none ∅ }
        [(⟨1, none, none⟩, [], .publish "jobs" { id := "a" }), (⟨2, none, none⟩, [], .consume "jobs"),
          (⟨3, none, none⟩, [], .nack "a"), (⟨4, none, none⟩, [], .consume "jobs"),
          (⟨5, none, none⟩, [], .nack "a")] f ∧
      f.broker.inDeadLetters ⟨"jobs", "a"⟩ = 1 ∧
      (f.applyCommand ⟨6, none, none⟩ [] (.publish "jobs" { id := "a" })).1.broker.inQueue ⟨"jobs", "a"⟩ = 1 :=
  ⟨Run.found _ (by decide +kernel), Run.found _ (by decide +kernel)⟩

end BrokerFSM
end Boltq.QueuePlane
