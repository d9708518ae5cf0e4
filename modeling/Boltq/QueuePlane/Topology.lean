import Boltq.Lib.Run
import Boltq.QueuePlane.Log

namespace Boltq.QueuePlane
open Lib Std Option TreeMap

structure Exchange.Same (x y : Exchange) : Prop where
  name : x.name = y.name
  type : x.type = y.type
  durable : x.durable = y.durable
  bindings : x.bindings.Perm y.bindings

namespace Broker
variable {b b' : Broker}

def durable (b : Broker) (name : String) : Option Exchange :=
  (b.exchanges[name]?).filter Exchange.durable

def Survives (b r : Broker) : Prop :=
  ∀ name, Option.Rel Exchange.Same (b.durable name) (r.exchanges[name]?)

structure Keeps (b b' : Broker) : Prop where
  exchanges : b'.exchanges = b.exchanges
  stored : b'.store.isSome = b.store.isSome

section
variable (b : Broker)

theorem Keeps.refl : Keeps b b := ⟨rfl, rfl⟩

theorem Keeps.trans (h : Keeps b1 b2) (h' : Keeps b2 b3) : Keeps b1 b3 :=
  ⟨h'.exchanges.trans h.exchanges, h'.stored.trans h.stored⟩

theorem pushOrSpill_keeps (e : Env) (name : String) (h : Held) :
    Keeps b (b.pushOrSpill e name h).1 := by
  obtain ⟨⟨queues, spill, hb⟩, _⟩ := b.pushOrSpill_spec e name h
  rw [hb]
  exact ⟨rfl, rfl⟩

theorem push_keeps (name : String) (h : Held) : Keeps b (b.push name h).1 := by
  obtain ⟨⟨queues, hb⟩, _⟩ := b.push_spec name h
  rw [hb]
  exact ⟨rfl, rfl⟩

theorem rewrite_keeps (msgs : List Message) : Keeps b (b.rewrite msgs) := by
  refine ⟨rfl, ?_⟩
  unfold rewrite
  cases b.store <;> rfl

theorem publish_keeps (e : Env) (topic : String) (m : Message) :
    Keeps b (b.publish e topic m).1 := by
  obtain hb | ⟨queues, spill, delayed, -, hb⟩ := b.publish_spec e topic m
  · rw [hb]
    exact .refl b
  · rw [hb]
    split <;> exact ⟨rfl, isSome_map⟩

theorem publishTopic_keeps (e : Env) (topic : String) (m : Message) :
    Keeps b (b.publishTopic e topic m).1 :=
  publishTopic_rule (.refl b) ⟨rfl, isSome_map⟩
    (fun b' _ _ hb => (hb.trans (b'.pushOrSpill_keeps e _ _)).trans ⟨rfl, rfl⟩)

theorem retryPending_keeps (id : String) (missing : BrokerErr) :
    Keeps b (b.retryPending id missing).1 := by
  obtain ⟨-, hb⟩ | ⟨pm, -, hb | hb⟩ := b.retryPending_cases id missing
  · rw [hb]
    exact .refl b
  · rw [hb]
    exact ⟨rfl, rfl⟩
  · rw [hb]
    have hp := push_keeps (retried { b with pending := b.pending.erase id } pm.held) pm.queueName pm.held
    exact ⟨hp.exchanges, hp.stored⟩

theorem promoteReady_keeps (now : Int) : Keeps b (b.promoteReady now) :=
  promoteReady_rule ⟨rfl, rfl⟩ (fun b' h _ _ hb => hb.trans (b'.push_keeps h.msg.topic h))

theorem purgeQueue_keeps (topic : String) : Keeps b (b.purgeQueue topic).1 := by
  obtain ⟨-, heq⟩ | ⟨store, hs, heq⟩ := b.purgeQueue_cases topic
  · rw [heq]
    exact .refl b
  · rw [heq]
    exact ⟨rfl, hs⟩

theorem purgeDeadLetters_keeps (topic : String) : Keeps b (b.purgeDeadLetters topic).1 := by
  obtain ⟨-, heq⟩ | ⟨store, hs, heq⟩ := b.purgeDeadLetters_cases topic
  · rw [heq]
    exact .refl b
  · rw [heq]
    exact ⟨rfl, hs⟩

end

structure Rooted (b : Broker) : Prop where
  default : ∃ bindings, b.exchanges[""]? = some { defaultExchange with bindings }
  stored : b.store.isSome = true

section
variable (h : Rooted b)
include h

theorem Rooted.keeps (hk : Keeps b b') : Rooted b' :=
  ⟨hk.exchanges ▸ h.default, hk.stored.trans h.stored⟩

theorem Rooted.writeMetadata (e : Env) (d : Metadata) :
    Rooted (b.writeMetadata e d) := by
  rw [writeMetadata_eq]
  exact h.keeps ⟨rfl, isSome_written _ _ _⟩

theorem Rooted.insert (hn : name ≠ "") (x : Exchange) :
    Rooted { b with exchanges := b.exchanges.insert name x } := by
  obtain ⟨bindings, hd⟩ := h.default
  exact ⟨⟨bindings, (getElem?_insert_other x (fun he => hn he.symm)).trans hd⟩, h.stored⟩

theorem Rooted.rebind (hx : b.exchanges[name]? = some x) (bindings : List Binding) :
    Rooted { b with exchanges := b.exchanges.insert name { x with bindings } } := by
  by_cases hn : name = ""
  · obtain ⟨old, hd⟩ := h.default
    subst hn
    cases hd.symm.trans hx
    exact ⟨⟨bindings, getElem?_insert_self⟩, h.stored⟩
  · exact h.insert hn _

theorem Rooted.step (hs : b.Step op b') : Rooted b' := by
  cases op with
  | publish e topic m =>
    cases hs
    exact h.keeps (b.publish_keeps e topic m)
  | publishTopic e topic m =>
    cases hs
    exact h.keeps (b.publishTopic_keeps e topic m)
  | publishExchange e ids exchange routingKey m =>
    simp only [Step, Broker.step] at hs
    split at hs
    · cases hs
      exact publishExchange_rule (fun b queue m _ h => h.keeps (b.publish_keeps e queue m)) h routingKey
    · cases hs
  | registerDurableSub topic sub =>
    cases hs
    exact ⟨h.default, h.stored⟩
  | unregisterDurableSub topic sub =>
    cases hs
    unfold unregisterDurableSub
    split
    · exact h
    · exact ⟨h.default, h.stored⟩
  | exchangeDeclare e name type durable =>
    cases hs
    unfold exchangeDeclare
    cases hx : b.exchanges[name]? with
    | some x => exact h
    | none =>
      have hn : name ≠ "" := by
        rintro rfl
        obtain ⟨_, hd⟩ := h.default
        cases hd.symm.trans hx
      dsimp only
      split
      · exact (h.insert hn _).writeMetadata e _
      · exact h.insert hn _
  | exchangeDelete e name =>
    cases hs
    unfold exchangeDelete
    split
    · exact h
    rename_i hn
    split
    · obtain ⟨bindings, hd⟩ := h.default
      have herase : Rooted { b with exchanges := b.exchanges.erase name } :=
        ⟨⟨bindings, (getElem?_erase_other (fun he => hn he.symm)).trans hd⟩, h.stored⟩
      exact herase.writeMetadata e _
    · exact h
  | bindQueue e binding =>
    cases hs
    unfold bindQueue
    cases hx : b.exchanges[binding.exchange]? with
    | none => exact h
    | some x =>
      have hbind := h.rebind hx (x.bindings ++ [binding])
      refine Rooted.writeMetadata ?_ e _
      exact ⟨hbind.default, hbind.stored⟩
  | unbindQueue e exchange queue bindingKey =>
    cases hs
    unfold unbindQueue
    cases hx : b.exchanges[exchange]? with
    | none => exact h
    | some x => exact (h.rebind hx _).writeMetadata e _
  | tryConsume e topic =>
    cases hs
    obtain ⟨q, skipped, _, _, _, hb⟩ := b.tryConsume_spec e topic
    rw [hb]
    exact ⟨h.default, h.stored⟩
  | ack e id =>
    cases hs
    rw [ack_eq]
    cases b.pending[id]? with
    | none => exact h
    | some pm => exact h.keeps ⟨rfl, isSome_written _ _ _⟩
  | nack id =>
    cases hs
    exact h.keeps (b.retryPending_keeps id _)
  | requeueTimedOut id =>
    cases hs
    exact h.keeps (b.retryPending_keeps id _)
  | promoteDelayed e id =>
    cases hs
    unfold promoteDelayed
    split
    · exact h
    · refine Rooted.keeps ?_ (pushOrSpill_keeps _ e _ _)
      exact ⟨h.default, h.stored⟩
  | processAdvancedFeatures e =>
    cases hs
    have hdrop : Keeps (b.promoteReady e.now) ((b.promoteReady e.now).dropExpired e.now) := ⟨rfl, rfl⟩
    obtain ⟨⟨queues, spill, nextRef, hb⟩, -⟩ :=
      ((b.promoteReady e.now).dropExpired e.now).reloadFromDisk_spec
    rw [processAdvancedFeatures, hb]
    exact (h.keeps ((b.promoteReady_keeps e.now).trans hdrop)).keeps ⟨rfl, rfl⟩
  | reloadFromDisk =>
    cases hs
    obtain ⟨⟨queues, spill, nextRef, hb⟩, -⟩ := b.reloadFromDisk_spec
    rw [hb]
    exact h.keeps ⟨rfl, rfl⟩
  | purgeQueue topic =>
    cases hs
    exact h.keeps (b.purgeQueue_keeps topic)
  | purgeDeadLetters topic =>
    cases hs
    exact h.keeps (b.purgeDeadLetters_keeps topic)
  | checkpoint msgs =>
    simp only [Step, Broker.step] at hs
    split at hs
    · cases hs
      exact h.keeps (b.rewrite_keeps msgs)
    · cases hs

end

theorem ingestRecovered_keeps (b : Broker) (e : Env) (m : Message) :
    Keeps b (b.ingestRecovered e m) := by
  unfold ingestRecovered
  split
  · exact .refl b
  split
  · exact .refl b
  obtain ⟨⟨queues, spill, delayed, hb⟩, -⟩ :=
    (b.alloc m).2.deliver_spec e m.topic (b.alloc m).1 rfl
  dsimp only
  rw [hb]
  exact ⟨rfl, rfl⟩

theorem recover_exchanges (cfg : Config) (e : Env) (records : List WALRecord)
    (spill : TreeMap String (List Message)) :
    (recover cfg e records spill).exchanges = (Broker.new cfg none ∅).exchanges := by
  unfold recover
  dsimp only
  split
  · rfl
  refine (rewrite_keeps _ _).exchanges.trans ?_
  rw [replay_spec]
  unfold Replay.ingest
  dsimp only
  refine (List.foldlRecOn _ _ (Keeps.refl _) ?_ : Keeps _ _).exchanges
  intro b hb id _
  split
  · exact hb
  · exact hb.trans (b.ingestRecovered_keeps e _)

theorem new_exchanges (cfg : Config) (store : Option (List WALRecord))
    (spill : TreeMap String (List Message)) (name : String) :
    (Broker.new cfg store spill).exchanges[name]? = if name = "" then some defaultExchange else none := by
  split
  · rename_i hn
    subst hn
    exact getElem?_insert_self
  · rename_i hn
    exact (getElem?_insert_other defaultExchange hn).trans getElem?_emptyc

/-- What survives a restart is the default exchange without bindings: the durable
exchanges of a broker do if and only if that is all there is. -/
theorem topology_survives_iff (cfg : Config) {ops : List Op} {b : Broker}
    (hr : Run Step always (.new cfg (some []) ∅) ops b) (e : Env) :
    ∃ records, b.store = some records ∧ (b.Survives (recover cfg e records b.spill) ↔
        ∀ name x, b.exchanges[name]? = some x → x.durable = true → name = "" ∧ x.bindings = []) := by
  have hi : Rooted b := hr.invariant Rooted ⟨⟨[], rfl⟩, rfl⟩ (fun _ _ _ hi _ hs => hi.step hs)
  obtain ⟨records, hstore⟩ := isSome_iff_exists.mp hi.stored
  refine ⟨records, hstore, ?_⟩
  unfold Survives durable
  simp only [recover_exchanges, new_exchanges]
  constructor
  · intro h name x hx hd
    have hrel := h name
    rw [hx, filter_some_pos hd] at hrel
    split at hrel
    · rename_i hn
      cases hrel with
      | some hsame => exact ⟨hn, hsame.bindings.eq_nil⟩
    · cases hrel
  · intro h name
    split
    · rename_i hn
      subst hn
      obtain ⟨bindings, hd⟩ := hi.default
      obtain ⟨_, hb⟩ := h _ _ hd rfl
      rw [hd, filter_some_pos rfl]
      exact .some ⟨rfl, rfl, rfl, .of_eq hb⟩
    · rename_i hn
      cases hx : b.exchanges[name]? with
      | none => exact .none
      | some x =>
        cases hd : x.durable with
        | true => exact absurd (h name x hx hd).1 hn
        | false =>
          rw [filter_some_neg hd]
          exact .none

def stored : Broker := .new {} (some []) ∅

def mail : Binding := { exchange := "news", queue := "mail", bindingKey := "" }

def passing : List Op :=
  [.exchangeDeclare { now := 1 } "news" .fanout false,
    .bindQueue { now := 2 } mail,
    .publishExchange { now := 3 } ["a"] "news" "" { id := "m" }]

theorem passing_survives : ∃ b records, Run Step always stored passing b ∧ b.store = some records ∧
      b.Survives (recover {} { now := 4 } records b.spill) := by
  obtain ⟨b, hr, hx⟩ := Run.executed always step stored passing
    (fun b => ∀ x ∈ b.exchanges.toList, x.2.durable = true → x.1 = "" ∧ x.2.bindings = [])
    (by decide +kernel)
  obtain ⟨records, hs, hiff⟩ := topology_survives_iff {} hr { now := 4 }
  refine ⟨b, records, hr, hs, hiff.mpr ?_⟩
  intro name x hmem hd
  exact hx (name, x) (mem_toList_iff_getElem?_eq_some.mpr hmem) hd

def lasting : List Op :=
  [.exchangeDeclare { now := 1 } "news" .fanout true,
    .bindQueue { now := 2 } mail]

/-- The exchange is there before the restart and not after it. -/
theorem lasting_is_lost : ∃ b records, Run Step always stored lasting b ∧ b.store = some records ∧
      b.durable "news" = some { name := "news", type := .fanout, durable := true, bindings := [mail] } ∧
      (recover {} { now := 3 } records b.spill).exchanges["news"]? = none := by
  obtain ⟨b, hr, hd, hsome, hrec⟩ := Run.executed always step stored lasting
    (fun b =>
      b.durable "news" = some { name := "news", type := .fanout, durable := true, bindings := [mail] } ∧
      b.store.isSome = true ∧
      (recover {} { now := 3 } (b.store.getD []) b.spill).exchanges["news"]? = none)
    (by decide +kernel)
  obtain ⟨records, hs⟩ := isSome_iff_exists.mp hsome
  rw [hs] at hrec
  exact ⟨b, records, hr, hs, hd, hrec⟩

end Broker
end Boltq.QueuePlane
