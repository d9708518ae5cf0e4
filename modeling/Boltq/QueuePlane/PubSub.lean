import Boltq.QueuePlane.Conservation

namespace Boltq.QueuePlane
open Lib Std List Function

abbrev SubKey := String × String

structure Channel where
  key : SubKey
  cap : Nat
  buffer : List Held := []
  closed : Bool := false
  ended : Bool := false

def Channel.new (key : SubKey) (bufSize : Int) : Channel where
  key
  cap := if bufSize ≤ 0 then 256 else bufSize.toNat

def Channel.put (h : Held) (ch : Channel) : Channel := { ch with buffer := ch.buffer ++ [h] }

def Channel.wiring (ch : Channel) : SubKey × Bool × Bool := (ch.key, ch.closed, ch.ended)

inductive Phase where
  | checking
  | popping
  | sending (h : Held)
  deriving DecidableEq

def Phase.held : Phase → Option Held
  | .sending h => some h
  | _ => none

structure CatchUp where
  key : SubKey
  chan : Nat
  phase : Phase := .checking

structure PubSub where
  broker : Broker
  subs : SubKey → Option Nat := fun _ => none
  chans : List Channel := []
  registering : List (SubKey × Nat) := []
  catchUps : List CatchUp := []
  panicked : Bool := false
  hijacked : List (Nat × Nat) := []
  owed : List (SubKey × Nat) := []
  handed : List (SubKey × Nat) := []

namespace PubSub

inductive Op where
  | subscribe (key : SubKey) (bufSize : Int) (durable : Bool)
  | register (i : Nat)
  | check (j : Nat)
  | pop (j : Nat)
  | send (j : Nat)
  | putBack (j : Nat)
  | receive (c : Nat)
  | publish (e : Env) (topic : String) (m : Message)
  | unsubscribe (c : Nat)
  | close

def start (cfg : Config) (store : Option (List WALRecord)) : PubSub where
  broker := .new cfg store ∅

section
variable (s : PubSub)

def Listed (c : Nat) (ch : Channel) : Prop := s.subs ch.key = some c
  deriving Decidable

def durableQueue (key : SubKey) : String := durableName key.1 key.2

def Durable (key : SubKey) : Prop := key.2 ∈ s.broker.subscribers key.1
  deriving Decidable

def setPhase (j : Nat) (u : CatchUp) (phase : Phase) : PubSub :=
  { s with catchUps := s.catchUps.set j { u with phase } }

def leave (j : Nat) : PubSub := { s with catchUps := s.catchUps.eraseIdx j }

def panic : PubSub := { s with panicked := true }

def Takes (topic : String) (c : Nat) (ch : Channel) : Prop :=
  ch.key.1 = topic ∧ s.Listed c ch ∧ ch.buffer.length < ch.cap
  deriving Decidable

def sendLive (topic : String) (h : Held) : PubSub :=
  { s with
    chans := s.chans.mapIdx (fun c ch => if s.Takes topic c ch then Channel.put h ch else ch)
    handed := s.handed ++ (s.chans.zipIdx.filter (fun x => s.Takes topic x.2 x.1)).map
      (fun x => (x.1.key, h.ref)) }

def publish (e : Env) (topic : String) (m : Message) : PubSub :=
  match s.broker.publishTopic e topic m with
  | (_, some _) => s
  | (b, none) =>
    if s.chans.zipIdx.any (fun x => x.1.key.1 = topic ∧ s.Listed x.2 x.1 ∧ x.1.closed = true) then
      s.panic
    else
      { s.sendLive topic ⟨s.broker.nextRef, { m with topic }⟩ with
        broker := b
        owed := s.owed ++ (s.broker.subscribers topic).map (fun sub => ((topic, sub), s.broker.nextRef)) }

def unsubscribe (c : Nat) (ch : Channel) : PubSub :=
  let s := { s with chans := s.chans.set c { ch with ended := true } }
  match s.subs ch.key with
  | none => s
  | some c' =>
    match s.chans[c']? with
    | none => s
    | some ch' =>
      if ch'.closed then s.panic
      else { s with
        chans := s.chans.set c' { ch' with closed := true }
        subs := update s.subs ch.key none
        hijacked := if c' = c then s.hijacked else s.hijacked ++ [(c, c')] }

def close : PubSub :=
  if s.chans.zipIdx.any (fun x => s.Listed x.2 x.1 ∧ x.1.closed = true) then s.panic
  else { s with chans := s.chans.mapIdx (fun c ch =>
    if s.Listed c ch then { ch with closed := true } else ch) }

def catchUp (op : Op) : Option PubSub :=
  match op with
  | .check j =>
    match s.catchUps[j]? with
    | some ⟨key, c, .checking⟩ =>
      if s.subs key = some c then some (s.setPhase j ⟨key, c, .checking⟩ .popping) else some (s.leave j)
    | _ => none
  | .pop j =>
    match s.catchUps[j]? with
    | some ⟨key, c, .popping⟩ =>
      match (s.broker.queue (durableQueue key)).tryPop with
      | none => some (s.leave j)
      | some (h, q) =>
        some { s.setPhase j ⟨key, c, .popping⟩ (.sending h) with
          broker := s.broker.setQueue (durableQueue key) q }
    | _ => none
  | .send j =>
    match s.catchUps[j]? with
    | some ⟨key, c, .sending h⟩ =>
      match s.chans[c]? with
      | none => none
      | some ch =>
        if ch.closed then some s.panic
        else if ch.buffer.length < ch.cap then
          some { s.setPhase j ⟨key, c, .sending h⟩ .checking with
            chans := s.chans.set c (Channel.put h ch)
            handed := s.handed ++ [(key, h.ref)] }
        else none
    | _ => none
  | .putBack j =>
    match s.catchUps[j]? with
    | some ⟨key, c, .sending h⟩ =>
      match s.chans[c]? with
      | none => none
      | some ch =>
        if ch.closed then some s.panic
        else some { s.leave j with broker := (s.broker.push (durableQueue key) h).1 }
    | _ => none
  | _ => none

def step (op : Op) : Option PubSub :=
  if s.panicked then none
  else
    match op with
    | .subscribe key bufSize durable =>
      some { s with
        subs := update s.subs key (some s.chans.length)
        chans := s.chans ++ [.new key bufSize]
        registering := if durable then s.registering ++ [(key, s.chans.length)] else s.registering }
    | .register i =>
      (s.registering[i]?).map (fun x => { s with
        broker := s.broker.registerDurableSub x.1.1 x.1.2
        registering := s.registering.eraseIdx i
        catchUps := s.catchUps ++ [{ key := x.1, chan := x.2 }] })
    | .receive c =>
      (s.chans[c]?).map (fun ch => { s with
        chans := s.chans.set c { ch with buffer := ch.buffer.tail } })
    | .publish e topic m => some (s.publish e topic m)
    | .unsubscribe c =>
      match s.chans[c]? with
      | none => none
      | some ch => if ch.ended then none else some (s.unsubscribe c ch)
    | .close => some s.close
    | op => s.catchUp op

def Step (op : Op) (t : PubSub) : Prop := s.step op = some t

/-- An id is subscribed again only after its connection has ended, durable queues have
names of their own, a message is published when no durable subscriber of the topic is
listening with room and their queues have, it is put back when there is room for it, and no
connection ends while a catch-up is past its check, nor does the broker close while there
are connections. -/
def Orderly : Op → Prop
  | .subscribe key _ _ => s.subs key = none
  | .register i => ∀ x ∈ s.registering[i]?, ∀ topic ∈ s.broker.durableSubs.keys,
      ∀ sub ∈ s.broker.subscribers topic, durableName topic sub = durableQueue x.1 → (topic, sub) = x.1
  | .publish _ topic m => ∀ sub ∈ s.broker.subscribers topic,
      (∀ x ∈ s.chans.zipIdx, x.1.key = (topic, sub) → ¬ s.Takes topic x.2 x.1) ∧
      (s.broker.queue (durableName topic sub)).Room (clampPriority m.priority)
  | .putBack j => ∀ u ∈ s.catchUps[j]?, ∀ h ∈ u.phase.held,
      (s.broker.queue (durableQueue u.key)).Room (clampPriority h.msg.priority)
  | .unsubscribe c => ∀ u ∈ s.catchUps, u.chan = c → u.phase = .checking
  | .close => ∀ ch ∈ s.chans, ch.ended = true
  | _ => True

end

instance (s : PubSub) (op : Op) : Decidable (s.Orderly op) := by
  unfold Orderly
  split <;> infer_instance

structure Wired (s : PubSub) : Prop where
  live : ∀ k c, s.subs k = some c ↔ ∃ ch, s.chans[c]? = some ch ∧ ch.key = k ∧ ch.ended = false
  opened : ∀ (c : Nat) (ch : Channel), s.chans[c]? = some ch → ch.closed = true → ch.ended = true
  busy : ∀ u ∈ s.catchUps, u.phase ≠ .checking → ∃ ch, s.chans[u.chan]? = some ch ∧ ch.closed = false

section Wired
variable {s t : PubSub}

theorem wired_start (cfg : Config) (store : Option (List WALRecord)) : (start cfg store).Wired where
  live := fun k c => ⟨fun h => (by cases h), fun ⟨_, h, _⟩ => (by cases h)⟩
  opened := fun c ch h => by cases h
  busy := forall_mem_nil _

theorem Wired.congr (h : s.Wired) (hsubs : t.subs = s.subs)
    (hch : ∀ c : Nat, (t.chans[c]?).map Channel.wiring = (s.chans[c]?).map Channel.wiring)
    (hbusy : ∀ u ∈ t.catchUps, u.phase ≠ .checking →
      ∃ ch, s.chans[u.chan]? = some ch ∧ ch.closed = false) : t.Wired := by
  refine ⟨fun k c => ?_, fun c ch hc hcl => ?_, fun u hu hp => ?_⟩
  · rw [hsubs, h.live]
    rcases map_eq_map_cases (hch c) with ⟨ht, hs⟩ | ⟨ch', ch, ht, hs, hw⟩
    · simp [ht, hs]
    · simp_all [Channel.wiring]
  · have hopen := h.opened c
    rcases map_eq_map_cases (hch c) with ⟨ht, hs⟩ | ⟨ch', ch, ht, hs, hw⟩
    · simp_all
    · simp_all [Channel.wiring]
  · obtain ⟨ch, hc, hcl⟩ := hbusy u hu hp
    rcases map_eq_map_cases (hch u.chan) with ⟨ht, hs⟩ | ⟨ch', ch, ht, hs, hw⟩
    · simp_all
    · simp_all [Channel.wiring]

theorem wiring_set {l : List Channel} {ch ch' : Channel} (hc : l[c]? = some ch)
    (hw : ch'.wiring = ch.wiring) (i : Nat) :
    ((l.set c ch')[i]?).map Channel.wiring = (l[i]?).map Channel.wiring := by
  by_cases hi : c = i
  · subst hi
    have hlt := (List.getElem?_eq_some_iff.mp hc).1
    rw [List.getElem?_set_self hlt, hc, Option.map_some, Option.map_some, hw]
  · rw [List.getElem?_set_ne hi]

theorem wiring_mapIdx {l : List Channel} (hw : ∀ c ch, (f c ch).wiring = ch.wiring) (i : Nat) :
    ((l.mapIdx f)[i]?).map Channel.wiring = (l[i]?).map Channel.wiring := by
  rw [getElem?_mapIdx, Option.map_map]
  cases l[i]? with
  | none => rfl
  | some ch => exact congrArg some (hw i ch)

theorem Wired.busy_set (h : s.Wired) {u : CatchUp}
    (hu : u.phase ≠ .checking → ∃ ch, s.chans[u.chan]? = some ch ∧ ch.closed = false) :
    ∀ v ∈ s.catchUps.set j u, v.phase ≠ .checking →
      ∃ ch, s.chans[v.chan]? = some ch ∧ ch.closed = false := by
  intro v hv hp
  rcases mem_or_eq_of_mem_set hv with hv | rfl
  · exact h.busy v hv hp
  · exact hu hp

theorem Wired.subscribe (h : s.Wired) (hnone : s.subs key = none) (bufSize : Int)
    (registering : List (SubKey × Nat)) :
    Wired { s with
      subs := update s.subs key (some s.chans.length)
      chans := s.chans ++ [.new key bufSize]
      registering } := by
  obtain ⟨live, opened, busy⟩ := h
  refine ⟨fun k c => ?_, fun c ch hc hcl => ?_, fun u hu hp => ?_⟩
  · dsimp only
    by_cases hk : k = key
    · -- the channel of the subscription is the new one
      subst hk
      rw [update_self]
      constructor
      · rintro ⟨⟩
        exact ⟨.new k bufSize, by simp, rfl, rfl⟩
      · grind
    · grind [Channel.new]
  · grind [Channel.new]
  · grind

theorem Wired.unsubscribe_eq (h : s.Wired) (hc : s.chans[c]? = some ch) (he : ch.ended = false) :
    s.unsubscribe c ch = { s with
      chans := s.chans.set c { ch with closed := true, ended := true }
      subs := update s.subs ch.key none } := by
  have hsub : s.subs ch.key = some c := (h.live _ _).mpr ⟨ch, hc, rfl, he⟩
  have hopen : ch.closed = false := by grind [h.opened c ch hc]
  have hlt := (List.getElem?_eq_some_iff.mp hc).1
  simp [PubSub.unsubscribe, hsub, hopen, hlt]

theorem Wired.unsubscribe (h : s.Wired) (hc : s.chans[c]? = some ch) (he : ch.ended = false)
    (hidle : ∀ u ∈ s.catchUps, u.chan = c → u.phase = .checking) :
    Wired { s with
      chans := s.chans.set c { ch with closed := true, ended := true }
      subs := update s.subs ch.key none } := by
  have hsub : s.subs ch.key = some c := (h.live _ _).mpr ⟨ch, hc, rfl, he⟩
  obtain ⟨live, opened, busy⟩ := h
  refine ⟨fun k c' => ?_, fun c' ch' hc' hcl => ?_, fun u hu hp => ?_⟩
  · grind [update_apply]
  · grind
  · have hcc : c ≠ u.chan := fun hcc => hp (hidle u hu hcc.symm)
    rw [getElem?_set_ne hcc]
    exact busy u hu hp

theorem Wired.close_eq (h : s.Wired) (hended : ∀ ch ∈ s.chans, ch.ended = true) : s.close = s := by
  have hnone : ∀ (c : Nat) (ch : Channel), s.chans[c]? = some ch → ¬ s.Listed c ch := by
    intro c ch hc hin
    obtain ⟨ch', hc', _, he⟩ := (h.live _ _).mp hin
    rw [hended ch' (mem_of_getElem? hc')] at he
    cases he
  have hany : s.chans.zipIdx.any (fun x => decide (s.Listed x.2 x.1 ∧ x.1.closed = true)) = false := by
    rw [any_eq_false]
    rintro ⟨ch, c⟩ hx hin
    exact hnone c ch (mem_zipIdx_iff_getElem?.mp hx) (of_decide_eq_true hin).1
  have hmap : s.chans.mapIdx (fun c ch => if s.Listed c ch then { ch with closed := true } else ch) =
      s.chans := by
    apply ext_getElem?
    intro c
    rw [getElem?_mapIdx]
    cases hc : s.chans[c]? with
    | none => rfl
    | some ch => exact congrArg some (if_neg (hnone c ch hc))
  unfold PubSub.close
  rw [hany, if_neg Bool.false_ne_true, hmap]

theorem Wired.no_closed (h : s.Wired) (topic : String) :
    s.chans.zipIdx.any (fun x => decide (x.1.key.1 = topic ∧ s.Listed x.2 x.1 ∧ x.1.closed = true)) =
      false := by
  rw [any_eq_false]
  rintro ⟨ch, c⟩ hx hin
  obtain ⟨_, hlisted, hcl⟩ := of_decide_eq_true hin
  have hc := mem_zipIdx_iff_getElem?.mp hx
  obtain ⟨ch', hc', _, he⟩ := (h.live _ _).mp hlisted
  cases hc.symm.trans hc'
  rw [h.opened c ch hc hcl] at he
  cases he

end Wired

end PubSub
end Boltq.QueuePlane
