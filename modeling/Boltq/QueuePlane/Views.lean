import Boltq.QueuePlane.Memory

namespace Boltq.QueuePlane
open Lib Std List

namespace Broker
variable {α : Type} {label : α → String × String × Int} {f g : Held → α}
variable {b b' : Broker} {h h' : Held}

structure Shows (label : α → String × String × Int) (f g : Held → α) (b b' : Broker) : Prop where
  left : ∀ h, label (f h) = (h.msg.id, h.msg.topic, h.msg.priority)
  right : ∀ h, label (g h) = (h.msg.id, h.msg.topic, h.msg.priority)
  queues : ∀ name, (b.queue name).map f = (b'.queue name).map g
  deadLetters : ∀ name, (b.deadLetter name).map f = (b'.deadLetter name).map g
  pending : ∀ id : String, (b.pending[id]?).map (fun pm => (f pm.held, pm.queueName)) =
    (b'.pending[id]?).map (fun pm => (g pm.held, pm.queueName))
  delayed : b.delayed.map f = b'.delayed.map g

namespace Shows

section
variable (hb : Shows label f g b b')
include hb

theorem fields (hh : f h = g h') :
    h.msg.id = h'.msg.id ∧ h.msg.topic = h'.msg.topic ∧ h.msg.priority = h'.msg.priority := by
  have heq := (hb.left h).symm.trans ((congrArg label hh).trans (hb.right h'))
  simpa only [Prod.mk.injEq] using heq

theorem setQueue (name : String) {q q' : PriorityQueue Held}
    (hq : q.map f = q'.map g) (n : String) :
    ((b.setQueue name q).queue n).map f = ((b'.setQueue name q').queue n).map g := by
  rw [queue_setQueue, queue_setQueue]
  split
  · exact hq
  · exact hb.queues n

theorem push (hh : f h = g h') (name : String) :
    ∃ q q' ok, b.push name h = (b.setQueue name q, ok) ∧ b'.push name h' = (b'.setQueue name q', ok) ∧
      q.map f = q'.map g := by
  unfold Broker.push
  rw [← (hb.fields hh).2.2]
  rcases PriorityQueue.push_cases (hb.queues name) hh (clampPriority h.msg.priority) with
    ⟨hn, hn'⟩ | ⟨q, q', hq, hq', hmap⟩
  · rw [hn, hn']
    exact ⟨_, _, false, rfl, rfl, hb.queues name⟩
  · rw [hq, hq']
    exact ⟨q, q', true, rfl, rfl, hmap⟩

theorem pend (hh : f h = g h') (e e' : Env) (name id : String) :
    ((b.pend e name h).pending[id]?).map (fun pm => (f pm.held, pm.queueName)) =
      ((b'.pend e' name h').pending[id]?).map (fun pm => (g pm.held, pm.queueName)) := by
  unfold Broker.pend
  rw [← (hb.fields hh).1]
  by_cases hid : id = h.msg.id
  · simp [hid, hh]
  · rw [getElem?_insert_other _ hid, getElem?_insert_other _ hid]
    exact hb.pending id

theorem erase (id id' : String) :
    ((b.pending.erase id)[id']?).map (fun pm => (f pm.held, pm.queueName)) =
      ((b'.pending.erase id)[id']?).map (fun pm => (g pm.held, pm.queueName)) := by
  by_cases hid : id' = id
  · simp [hid]
  · rw [getElem?_erase_other hid, getElem?_erase_other hid]
    exact hb.pending id'

theorem lookup (id : String) : (b.pending[id]? = none ∧ b'.pending[id]? = none) ∨
    ∃ pm pm', b.pending[id]? = some pm ∧ b'.pending[id]? = some pm' ∧
      f pm.held = g pm'.held ∧ pm.queueName = pm'.queueName := by
  rcases map_eq_map_cases (hb.pending id) with hn | ⟨pm, pm', hp, hp', hmap⟩
  · exact .inl hn
  · obtain ⟨hh, hq⟩ := Prod.mk.inj hmap
    exact .inr ⟨pm, pm', hp, hp', hh, hq⟩

theorem pushDeadLetter (hh : f h = g h') (hcap : b.queueCap = b'.queueCap)
    (name n : String) : ((b.pushDeadLetter name h).deadLetter n).map f =
      ((b'.pushDeadLetter name h').deadLetter n).map g := by
  have hold := hb.deadLetters name
  have hlen := congrArg length hold
  rw [length_map, length_map] at hlen
  rw [deadLetter_pushDeadLetter, deadLetter_pushDeadLetter, hlen, hcap]
  split
  · split
    · rw [map_append, map_append, hold, map_singleton, map_singleton, hh]
    · exact hold
  · exact hb.deadLetters n

theorem find_delayed (id : String) : (b.delayed.find? (fun h => h.msg.id = id)).map f =
      (b'.delayed.find? (fun h => h.msg.id = id)).map g ∧
    (b.delayed.eraseP (fun h => h.msg.id = id)).map f =
      (b'.delayed.eraseP (fun h => h.msg.id = id)).map g := by
  have hleft : (fun x => decide ((label x).1 = id)) ∘ f = fun h => decide (h.msg.id = id) := by
    funext h
    simp only [Function.comp_apply, hb.left]
  have hright : (fun x => decide ((label x).1 = id)) ∘ g = fun h => decide (h.msg.id = id) := by
    funext h
    simp only [Function.comp_apply, hb.right]
  constructor
  · rw [← hleft, ← find?_map, hb.delayed, find?_map, hright, hleft]
  · rw [← hleft, ← eraseP_map, hb.delayed, eraseP_map, hright, hleft]

theorem drain (name : String) : (b.queue name).drain.map f = (b'.queue name).drain.map g := by
  rw [← PriorityQueue.map_drain, ← PriorityQueue.map_drain, hb.queues]

theorem ids {hs hs' : List Held} (heq : hs.map f = hs'.map g) :
    hs.map (fun h => h.msg.id) = hs'.map (fun h => h.msg.id) :=
  list_map_congr (fun _ _ hh => (hb.fields hh).1) heq

theorem exists_id {hs hs' : List Held} (heq : hs.map f = hs'.map g)
    {id : String} : (∃ h ∈ hs, h.msg.id = id) ↔ ∃ h ∈ hs', h.msg.id = id := by
  rw [← mem_map, ← mem_map, hb.ids heq]

theorem hasDelayedMessage (id : String) : b.hasDelayedMessage id = b'.hasDelayedMessage id := by
  unfold Broker.hasDelayedMessage
  rw [Bool.eq_iff_iff]
  simp only [any_eq_true, decide_eq_true_eq]
  exact hb.exists_id hb.delayed

theorem hasMessage (id : String) : b.hasMessage id = b'.hasMessage id := by
  rw [Bool.eq_iff_iff, hasMessage_iff, hasMessage_iff]
  refine or_congr ?_ (or_congr (exists_congr fun name => hb.exists_id (hb.drain name))
    (hb.exists_id hb.delayed))
  rcases hb.lookup id with ⟨hn, hn'⟩ | ⟨pm, pm', hp, hp', _⟩
  · rw [hn, hn']
  · exact ⟨fun _ => ⟨pm', hp'⟩, fun _ => ⟨pm, hp⟩⟩

end

end Shows
end Broker
end Boltq.QueuePlane
