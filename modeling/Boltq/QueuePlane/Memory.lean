import Boltq.QueuePlane.Places

namespace Boltq.QueuePlane
open Lib Std List

namespace Broker
variable {b b' : Broker} {c : Copy} {e : Env}

def Holds (b : Broker) (name : String) (h : Held) : Prop :=
  h ∈ (b.queue name).drain ∨ (h ∈ b.delayed ∧ h.msg.topic = name) ∨
    ∃ (id : String) (pm : PendingMessage), b.pending[id]? = some pm ∧ pm.queueName = name ∧ pm.held = h

theorem not_holds_new (cfg : Config) (store : Option (List WALRecord))
    (spill : TreeMap String (List Message)) (name : String) (h : Held) :
    ¬ (Broker.new cfg store spill).Holds name h := by
  rintro (hq | ⟨hd, _⟩ | ⟨id, pm, hp, _⟩)
  · have hnil : ((Broker.new cfg store spill).queue name).drain = [] := PriorityQueue.drain_new _ _
    rw [hnil] at hq
    cases hq
  · cases hd
  · cases hp

def inMemory (b : Broker) (c : Copy) : Nat := b.inQueue c + b.inPending c + b.inDelayed c

theorem inMemory_pos (hk : b.Keyed) : 0 < b.inMemory c ↔ ∃ h, b.Holds c.queue h ∧ h.msg.id = c.id := by
  constructor
  · intro hpos
    rcases Nat.add_pos_iff_pos_or_pos.mp hpos with hpos | hd
    · rcases Nat.add_pos_iff_pos_or_pos.mp hpos with hq | hp
      · obtain ⟨h, hm, hid⟩ := countP_pos_iff.mp hq
        exact ⟨h, .inl hm, of_decide_eq_true hid⟩
      unfold inPending pendingIn at hp
      cases hpm : b.pending[c.id]? with
      | none => simp [hpm] at hp
      | some pm =>
        rw [hpm, Option.elim_some] at hp
        split at hp
        · rename_i hn
          exact ⟨pm.held, .inr (.inr ⟨c.id, pm, hpm, hn, rfl⟩), hk c.id pm hpm⟩
        · cases hp
    · obtain ⟨h, hm, hid⟩ := countP_pos_iff.mp hd
      obtain ⟨ht, hid⟩ := of_decide_eq_true hid
      exact ⟨h, .inr (.inl ⟨hm, ht⟩), hid⟩
  · rintro ⟨h, hholds, hid⟩
    unfold inMemory
    rcases hholds with hq | ⟨hd, ht⟩ | ⟨id, pm, hp, hn, rfl⟩
    · have hpos : 0 < b.inQueue c := countP_pos_iff.mpr ⟨h, hq, decide_eq_true hid⟩
      omega
    · have hpos : 0 < b.inDelayed c := countP_pos_iff.mpr ⟨h, hd, decide_eq_true ⟨ht, hid⟩⟩
      omega
    have hkey : id = c.id := (hk id pm hp).symm.trans hid
    have hpos : b.inPending c = 1 := by
      unfold inPending pendingIn
      rw [← hkey, hp, Option.elim_some, if_pos hn]
    omega

theorem inMemory_le (b : Broker) (c : Copy) : b.inMemory c ≤ b.places c := by
  unfold inMemory places
  omega

def memory (b : Broker) : List Held :=
  b.queues.toList.flatMap (fun x => x.2.drain) ++ b.delayed ++ b.pending.toList.map (fun x => x.2.held)

theorem captured_eq (hd : b.deadLetters = ∅) : b.captured = b.memory := by
  have hnil : b.deadLetters.toList.flatMap Prod.snd = [] := by
    rw [hd]
    rfl
  unfold captured memory
  rw [hnil, append_nil]

theorem queue_of_mem (h : x ∈ b.queues.toList) : b.queue x.1 = x.2 := by
  unfold queue
  rw [TreeMap.mem_toList_iff_getElem?_eq_some.mp h]
  rfl

theorem mem_queues_of_queued (hq : h ∈ (b.queue name).drain) :
    (name, b.queue name) ∈ b.queues.toList := by
  unfold queue at hq ⊢
  cases hn : b.queues[name]? with
  | none =>
    rw [hn, Option.getD_none, PriorityQueue.drain_new] at hq
    cases hq
  | some q => exact TreeMap.mem_toList_iff_getElem?_eq_some.mpr hn

theorem mem_memory : h ∈ b.memory ↔ ∃ name, b.Holds name h := by
  unfold memory
  simp only [mem_append, mem_flatMap, mem_map]
  constructor
  · rintro ((⟨x, hx, hm⟩ | hd) | ⟨x, hx, rfl⟩)
    · exact ⟨x.1, .inl (by rw [queue_of_mem hx]; exact hm)⟩
    · exact ⟨h.msg.topic, .inr (.inl ⟨hd, rfl⟩)⟩
    · exact ⟨x.2.queueName, .inr (.inr ⟨x.1, x.2, TreeMap.mem_toList_iff_getElem?_eq_some.mp hx, rfl, rfl⟩)⟩
  · rintro ⟨name, hq | ⟨hd, _⟩ | ⟨id, pm, hp, _, rfl⟩⟩
    · exact .inl (.inl ⟨_, mem_queues_of_queued hq, hq⟩)
    · exact .inl (.inr hd)
    · exact .inr ⟨(id, pm), TreeMap.mem_toList_iff_getElem?_eq_some.mpr hp, rfl⟩

theorem hasMessage_iff {id : String} : b.hasMessage id = true ↔
    (∃ pm, b.pending[id]? = some pm) ∨ (∃ name, ∃ h ∈ (b.queue name).drain, h.msg.id = id) ∨
      ∃ h ∈ b.delayed, h.msg.id = id := by
  unfold hasMessage hasDelayedMessage
  simp only [Bool.or_eq_true, any_eq_true, decide_eq_true_eq, or_assoc]
  refine or_congr ?_ (or_congr ?_ Iff.rfl)
  · rw [TreeMap.contains_eq_isSome_getElem?, Option.isSome_iff_exists]
  constructor
  · rintro ⟨x, hx, h, hm, hid⟩
    exact ⟨x.1, h, by rw [queue_of_mem hx]; exact hm, hid⟩
  · rintro ⟨name, h, hm, hid⟩
    exact ⟨_, mem_queues_of_queued hm, h, hm, hid⟩

theorem count_memory (hk : b.Keyed) (c : Copy)
    (hc : ∀ name h, b.Holds name h → h.msg.id = c.id → name = c.queue) :
    b.memory.countP (fun h => h.msg.id = c.id) = b.inMemory c := by
  unfold memory inMemory
  rw [countP_append, countP_append]
  have hqueue : (b.queues.toList.flatMap (fun x => x.2.drain)).countP (fun h => h.msg.id = c.id) =
      b.inQueue c := by
    rw [countP_flatMap, sum_toList b.queues c.queue]
    · unfold inQueue queue
      cases b.queues[c.queue]? with
      | none => rw [Option.getD_none, PriorityQueue.drain_new]; rfl
      | some q => rfl
    · intro x hx hne
      rw [Function.comp, countP_eq_zero]
      intro h hm hid
      exact hne (hc x.1 h (.inl (by rw [queue_of_mem hx]; exact hm)) (of_decide_eq_true hid))
  have hdelayed : b.delayed.countP (fun h => h.msg.id = c.id) = b.inDelayed c := by
    apply countP_congr
    intro h hm
    simp only [decide_eq_true_eq]
    exact ⟨fun hid => ⟨hc h.msg.topic h (.inr (.inl ⟨hm, rfl⟩)) hid, hid⟩, fun hx => hx.2⟩
  have hpending : (b.pending.toList.map (fun x => x.2.held)).countP (fun h => h.msg.id = c.id) =
      b.inPending c := by
    have hcount := countP_toList b.pending c.id (fun pm => pm.queueName = c.queue)
    simp only [decide_eq_true_eq] at hcount
    unfold inPending pendingIn
    rw [countP_map, ← hcount]
    apply countP_congr
    intro x hx
    have hp : b.pending[x.1]? = some x.2 := TreeMap.mem_toList_iff_getElem?_eq_some.mp hx
    have hkey := hk x.1 x.2 hp
    simp only [Function.comp, decide_eq_true_eq]
    constructor
    · intro hid
      exact ⟨hkey.symm.trans hid, hc x.2.queueName x.2.held (.inr (.inr ⟨x.1, x.2, hp, rfl, rfl⟩)) hid⟩
    · exact fun hx => hkey.trans hx.1
  rw [hqueue, hdelayed, hpending]
  omega

theorem holds_push (hx : (b.push name h).1.Holds n x) :
    b.Holds n x ∨ (n = name ∧ x = h ∧ (b.push name h).2 = true) := by
  obtain ⟨⟨queues, hb⟩, _⟩ := b.push_spec name h
  have hrest : (b.push name h).1.delayed = b.delayed ∧ (b.push name h).1.pending = b.pending := by
    rw [hb]
    exact ⟨rfl, rfl⟩
  rcases hx with hq | hd | hp
  · unfold push at hq ⊢
    cases hpush : (b.queue name).push (clampPriority h.msg.priority) h with
    | none =>
      rw [hpush] at hq
      dsimp only at hq
      rw [queue_touch] at hq
      exact .inl (.inl hq)
    | some q =>
      rw [hpush] at hq
      dsimp only at hq
      rw [queue_setQueue] at hq
      split at hq
      · rename_i hn
        subst hn
        rcases mem_cons.mp ((PriorityQueue.push_perm hpush).mem_iff.mp hq) with rfl | hq
        · exact .inr ⟨rfl, rfl, rfl⟩
        · exact .inl (.inl hq)
      · exact .inl (.inl hq)
  · rw [hrest.1] at hd
    exact .inl (.inr (.inl hd))
  · rw [hrest.2] at hp
    exact .inl (.inr (.inr hp))

theorem holds_pushOrSpill (hx : (b.pushOrSpill e name h).1.Holds n x) :
    b.Holds n x ∨ (n = name ∧ x = h ∧ (b.pushOrSpill e name h).2 = none) := by
  have hpair : b.push name h = ((b.push name h).1, (b.push name h).2) := rfl
  unfold pushOrSpill at hx ⊢
  rw [hpair] at hx ⊢
  cases hok : (b.push name h).2 with
  | true =>
    rw [hok] at hx
    rcases holds_push hx with hx | ⟨hn, hx, _⟩
    · exact .inl hx
    · exact .inr ⟨hn, hx, rfl⟩
  | false =>
    have hpush : (b.push name h).1.Holds n x := by
      rw [hok] at hx
      dsimp only at hx
      unfold spillToDisk at hx
      split at hx
      · exact hx
      · exact hx
    rcases holds_push hpush with hx | ⟨_, _, hroom⟩
    · exact .inl hx
    · cases hok.symm.trans hroom

theorem holds_deliver (hx : (b.deliver e name h).1.Holds n x) (hn : h.msg.topic = name) :
    b.Holds n x ∨ (n = name ∧ x = h ∧ (b.deliver e name h).2 = none) := by
  unfold deliver at hx ⊢
  split at hx
  · rename_i hlt
    rcases hx with hq | ⟨hd, ht⟩ | hp
    · exact .inl (.inl hq)
    · rcases mem_append.mp hd with hd | hd
      · exact .inl (.inr (.inl ⟨hd, ht⟩))
      · obtain rfl := mem_singleton.mp hd
        exact .inr ⟨ht.symm.trans hn, rfl, by rw [if_pos hlt]⟩
    · exact .inl (.inr (.inr hp))
  · rename_i hlt
    rw [if_neg hlt]
    exact holds_pushOrSpill hx

theorem holds_publish (hx : (b.publish e topic m).1.Holds n x) : b.Holds n x ∨
      (n = topic ∧ x = ⟨b.nextRef, b.stamp e topic m⟩ ∧ (b.publish e topic m).2 = none) := by
  rw [publish_eq] at hx ⊢
  cases hr : b.refusal e with
  | some err =>
    rw [hr] at hx
    exact .inl hx
  | none =>
    rw [hr] at hx
    have hsame : ((b.log (b.stamp e topic m)).deliver e topic
        ⟨b.nextRef, b.stamp e topic m⟩).1.Holds n x := by
      dsimp only [put] at hx
      split at hx <;> exact hx
    exact holds_deliver hsame rfl

theorem Holds.of_erase {id : String} (hx : Holds { b' with pending := b.pending.erase id } name h)
    (hq : b'.queue name = b.queue name) (hd : b'.delayed = b.delayed) : b.Holds name h := by
  rcases hx with hx | ⟨hx, hn⟩ | ⟨id', pm, hp, hn, rfl⟩
  · exact .inl (hq ▸ hx)
  · exact .inr (.inl ⟨hd ▸ hx, hn⟩)
  · exact .inr (.inr ⟨id', pm, getElem?_of_erase hp, hn, rfl⟩)

end Broker
end Boltq.QueuePlane
