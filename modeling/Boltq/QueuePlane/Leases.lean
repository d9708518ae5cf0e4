import Boltq.QueuePlane.Conservation

namespace Boltq.QueuePlane
open Lib Std List Function

structure Check where
  began : Int
  late : Option (List (String × PendingMessage)) := none

structure Check.Fair (c : Check) (now : Int) : Prop where
  began : c.began ≤ now
  late : ∀ late ∈ c.late, ∀ x ∈ late, x.2.ackDeadline < c.began

structure Leases where
  broker : Broker
  now : Int := 0
  popped : List (String × Held) := []
  returned : List PendingMessage := []
  check : Option Check := none
  granted : List PendingMessage := []
  stolen : List PendingMessage := []
  doubled : List Held := []

namespace Leases

inductive Op where
  | tick (d : Nat)
  | pop (topic : String)
  | pend (i : Nat)
  | ack (writeErr : Option String) (id : String)
  | nack (id : String)
  | giveBack (i : Nat)
  | look
  | snapshot
  | requeue (i : Nat)
  | done
  deriving DecidableEq

def pop (s : Leases) (topic : String) : Leases :=
  match (s.broker.queue topic).tryPop with
  | none => { s with broker := s.broker.setQueue topic (s.broker.queue topic) }
  | some (h, q) =>
    if h.msg.Expired s.now then
      { s with broker := { s.broker.setQueue topic q with
          expired := ⟨topic, h.msg.id⟩ :: s.broker.expired } }
    else { s with broker := s.broker.setQueue topic q, popped := s.popped ++ [(topic, h)] }

def lease (s : Leases) (topic : String) (h : Held) : PendingMessage where
  held := h
  queueName := topic
  deliverAt := s.now
  ackDeadline := s.now + s.broker.ackTimeout

def Running (s : Leases) (h : Held) : Prop :=
  ∃ g ∈ s.granted, g.held.ref = h.ref ∧ s.now ≤ g.ackDeadline
  deriving Decidable

def pend (s : Leases) (i : Nat) (topic : String) (h : Held) : Leases :=
  { s with
    broker := s.broker.pend { now := s.now } topic h
    popped := s.popped.eraseIdx i
    granted := s.granted ++ [s.lease topic h]
    doubled := if s.Running h then s.doubled ++ [h] else s.doubled }

def takeBack (s : Leases) (id : String) (pm : PendingMessage) : Leases :=
  { s with
    broker := { s.broker with pending := s.broker.pending.erase id }
    returned := s.returned ++ [pm] }

def step (s : Leases) : Op → Option Leases
  | .tick d => some { s with now := s.now + d }
  | .pop topic => some (s.pop topic)
  | .pend i => (s.popped[i]?).map (fun x => s.pend i x.1 x.2)
  | .ack writeErr id =>
    let s' := { s with broker := (s.broker.ack { now := s.now, writeErr } id).1 }
    match s.broker.pending[id]? with
    | none => some s'
    | some pm => some { s' with granted := s.granted.filter (fun g => g ≠ pm) }
  | .nack id =>
    match s.broker.pending[id]? with
    | none => some s
    | some pm => some { s.takeBack id pm with granted := s.granted.filter (fun g => g ≠ pm) }
  | .giveBack i =>
    (s.returned[i]?).map (fun pm => { s with
      broker := (s.broker.retryOrDeadLetter pm.held pm.queueName).1
      returned := s.returned.eraseIdx i })
  | .look => if s.check.isNone then some { s with check := some ⟨s.now, none⟩ } else none
  | .snapshot =>
    match s.check with
    | some ⟨began, none⟩ =>
      some { s with check := some ⟨began, some (s.broker.pending.toList.filter (fun x =>
        x.2.ackDeadline < began))⟩ }
    | _ => none
  | .requeue i =>
    match s.check with
    | some ⟨began, some late⟩ =>
      (late[i]?).map (fun x =>
        let s := { s with check := some ⟨began, some (late.eraseIdx i)⟩ }
        match s.broker.pending[x.1]? with
        | none => s
        | some pm => { s.takeBack x.1 pm with
            stolen := if s.now ≤ pm.ackDeadline then s.stolen ++ [pm] else s.stolen })
    | _ => none
  | .done =>
    match s.check with
    | some ⟨_, some []⟩ => some { s with check := none }
    | _ => none

def Step (s : Leases) (op : Op) (t : Leases) : Prop := s.step op = some t

/-- A lease is requeued only while it is the one the check found late. -/
def SameLease (s : Leases) : Op → Prop
  | .requeue i => ∀ c ∈ s.check, ∀ late ∈ c.late, ∀ x ∈ late[i]?,
      ∀ pm ∈ s.broker.pending[x.1]?, pm = x.2
  | _ => True

instance (s : Leases) (op : Op) : Decidable (s.SameLease op) := by
  unfold SameLease
  split <;> infer_instance

inductive Place where
  | queued (name : String)
  | popped
  | pending (id : String)
  | returned
  | gone
  deriving DecidableEq

structure Located (place : Nat → Place) (s : Leases) : Prop where
  queued : ∀ name, ∀ h ∈ (s.broker.queue name).drain, place h.ref = .queued name
  queuedOnce : ∀ name, ((s.broker.queue name).drain.map Held.ref).Nodup
  popped : ∀ x ∈ s.popped, place x.2.ref = .popped
  poppedOnce : (s.popped.map (fun x => x.2.ref)).Nodup
  pending : ∀ (id : String) (pm : PendingMessage), s.broker.pending[id]? = some pm →
    place pm.held.ref = .pending id
  returned : ∀ pm ∈ s.returned, place pm.held.ref = .returned
  returnedOnce : (s.returned.map (fun pm => pm.held.ref)).Nodup
  granted : ∀ g ∈ s.granted, s.now ≤ g.ackDeadline →
    (∃ id, place g.held.ref = .pending id ∧ s.broker.pending[id]? = some g) ∨
      place g.held.ref = .gone

theorem nodup_map_concat {l : List α} (h : (l.map f).Nodup) (ha : ∀ b ∈ l, f b ≠ f a) :
    ((l ++ [a]).map f).Nodup := by
  rw [map_append, map_singleton, ← concat_eq_append, nodup_concat]
  refine ⟨fun hin => ?_, h⟩
  obtain ⟨b, hb, he⟩ := mem_map.mp hin
  exact ha b hb he

theorem ne_of_mem_eraseIdx {l : List α} (h : (l.map f).Nodup) (hi : l[i]? = some a)
    (hb : b ∈ l.eraseIdx i) : f b ≠ f a := by
  obtain ⟨hlt, rfl⟩ := List.getElem?_eq_some_iff.mp hi
  have hperm := (getElem_cons_eraseIdx_perm hlt).map f
  rw [← hperm.nodup_iff, map_cons, nodup_cons] at h
  exact fun he => h.1 (he ▸ mem_map_of_mem hb)

section Located
variable {place : Nat → Place} {s : Leases}

theorem update_other (hr : place r = p) (hx : place x = q) (hne : q ≠ p) (p' : Place) :
    update place r p' x = q := by
  rw [update_of_ne, hx]
  rintro rfl
  exact hne (hx.symm.trans hr)

theorem Located.frame (h : s.Located place) {t : Leases}
    (hq : ∀ name, (t.broker.queue name).drain = (s.broker.queue name).drain)
    (hp : t.broker.pending = s.broker.pending) (hpop : t.popped = s.popped)
    (hret : t.returned = s.returned) (hg : t.granted = s.granted) (hnow : s.now ≤ t.now) :
    t.Located place where
  queued := fun name x hx => h.queued name x (hq name ▸ hx)
  queuedOnce := fun name => by rw [hq name]; exact h.queuedOnce name
  popped := by rw [hpop]; exact h.popped
  poppedOnce := by rw [hpop]; exact h.poppedOnce
  pending := by rw [hp]; exact h.pending
  returned := by rw [hret]; exact h.returned
  returnedOnce := by rw [hret]; exact h.returnedOnce
  granted := by
    rw [hg, hp]
    exact fun g hin hle => h.granted g hin (Int.le_trans hnow hle)

theorem Located.pop (h : s.Located place) (topic : String) :
    ∃ place', (s.pop topic).Located place' := by
  unfold Leases.pop
  cases hpop : (s.broker.queue topic).tryPop with
  | none =>
    exact ⟨place, h.frame (fun name => by rw [Broker.queue_touch]) rfl rfl rfl rfl (Int.le_refl _)⟩
  | some r =>
    obtain ⟨x, q⟩ := r
    have hdrain := PriorityQueue.tryPop_drain hpop
    have hx : place x.ref = .queued topic := h.queued topic x (hdrain ▸ mem_cons_self)
    have honce := h.queuedOnce topic
    rw [hdrain, map_cons, nodup_cons] at honce
    have hsub : ∀ name, ((s.broker.setQueue topic q).queue name).drain.Sublist
        (s.broker.queue name).drain := by
      intro name
      rw [Broker.queue_setQueue]
      split
      · next he =>
        subst he
        rw [hdrain]
        exact sublist_cons_self _ _
      · exact List.Sublist.refl _
    dsimp only
    split
    · exact ⟨place, { h with
        queued := fun name y hy => h.queued name y ((hsub name).subset hy)
        queuedOnce := fun name => (h.queuedOnce name).sublist ((hsub name).map _) }⟩
    · refine ⟨update place x.ref .popped, ?_, ?_, ?_, ?_, ?_, ?_, h.returnedOnce, ?_⟩
      · intro name y hy
        have hold := h.queued name y ((hsub name).subset hy)
        by_cases hn : topic = name
        · subst hn
          rw [update_of_ne, hold]
          intro he
          dsimp only at hy
          rw [Broker.queue_setQueue, if_pos rfl] at hy
          exact honce.1 (he ▸ mem_map_of_mem hy)
        · exact update_other hx hold (fun he => hn (Place.queued.inj he).symm) _
      · exact fun name => (h.queuedOnce name).sublist ((hsub name).map _)
      · intro y hy
        rcases mem_append.mp hy with hy | hy
        · exact update_other hx (h.popped y hy) Place.noConfusion _
        · rw [mem_singleton.mp hy, update_self]
      · refine nodup_map_concat h.poppedOnce (fun y hy he => ?_)
        have hold := h.popped y hy
        rw [he, hx] at hold
        cases hold
      · exact fun id pm hpm => update_other hx (h.pending id pm hpm) Place.noConfusion _
      · exact fun pm hpm => update_other hx (h.returned pm hpm) Place.noConfusion _
      · intro g hg hle
        rcases h.granted g hg hle with ⟨id, hid, hrec⟩ | hgone
        · exact .inl ⟨id, update_other hx hid Place.noConfusion _, hrec⟩
        · exact .inr (update_other hx hgone Place.noConfusion _)

theorem Located.pend (h : s.Located place) (hi : s.popped[i]? = some (topic, x)) :
    (∃ place', (s.pend i topic x).Located place') ∧ ¬ s.Running x := by
  have hin : (topic, x) ∈ s.popped := mem_of_getElem? hi
  have hx : place x.ref = .popped := h.popped _ hin
  have hrun : ¬ s.Running x := by
    rintro ⟨g, hg, he, hle⟩
    rcases h.granted g hg hle with ⟨id, hid, _⟩ | hgone
    · rw [he, hx] at hid
      cases hid
    · rw [he, hx] at hgone
      cases hgone
  refine ⟨?_, hrun⟩
  -- The lease that is overwritten, if the id is in use, is on another message.
  have hold : ∃ place₁ : Nat → Place, place₁ x.ref = .popped ∧
      (∀ r p, place r = p → p ≠ .pending x.msg.id → place₁ r = p) ∧
      ∀ g, s.broker.pending[x.msg.id]? = some g → place₁ g.held.ref = .gone := by
    cases hp : s.broker.pending[x.msg.id]? with
    | none => exact ⟨place, hx, fun r p hr _ => hr, fun g hg => by cases hg⟩
    | some old =>
      have ho := h.pending _ old hp
      refine ⟨update place old.held.ref .gone, update_other ho hx Place.noConfusion _,
        fun r p hr hne => update_other ho hr hne _, ?_⟩
      intro g hg
      cases hg
      exact update_self _ _ _
  obtain ⟨place₁, hx₁, hother, hgone⟩ := hold
  have hmoved : ∀ r p, place r = p → p ≠ .pending x.msg.id → p ≠ .popped →
      update place₁ x.ref (.pending x.msg.id) r = p :=
    fun r p hr hne hpop => update_other hx₁ (hother r p hr hne) hpop _
  refine ⟨update place₁ x.ref (.pending x.msg.id), ?_, h.queuedOnce, ?_, ?_, ?_, ?_,
    h.returnedOnce, ?_⟩
  · exact fun name y hy => hmoved _ _ (h.queued name y hy) Place.noConfusion Place.noConfusion
  · intro y hy
    rw [update_of_ne (ne_of_mem_eraseIdx h.poppedOnce hi hy)]
    exact hother _ _ (h.popped y (mem_of_mem_eraseIdx hy)) Place.noConfusion
  · exact h.poppedOnce.sublist ((eraseIdx_sublist _ _).map _)
  · intro id pm hpm
    rcases insert_cases hpm with ⟨rfl, rfl⟩ | ⟨hne, hpm⟩
    · exact update_self _ _ _
    · exact hmoved _ _ (h.pending id pm hpm) (fun he => hne (Place.pending.inj he)) Place.noConfusion
  · exact fun pm hpm => hmoved _ _ (h.returned pm hpm) Place.noConfusion Place.noConfusion
  · intro g hg hle
    rcases mem_append.mp hg with hg | hg
    · rcases h.granted g hg hle with ⟨id, hid, hrec⟩ | hg
      · by_cases he : id = x.msg.id
        · subst he
          exact .inr (update_other hx₁ (hgone g hrec) Place.noConfusion _)
        · refine .inl ⟨id, hmoved _ _ hid (fun hc => he (Place.pending.inj hc)) Place.noConfusion, ?_⟩
          exact (getElem?_insert_other _ he).trans hrec
      · exact .inr (hmoved _ _ hg Place.noConfusion Place.noConfusion)
    · rw [mem_singleton.mp hg]
      exact .inl ⟨x.msg.id, update_self _ _ _, TreeMap.getElem?_insert_self⟩

theorem Located.takeBack (h : s.Located place) {id : String} {pm : PendingMessage}
    (hpm : s.broker.pending[id]? = some pm) {granted : List PendingMessage}
    (hsub : ∀ g ∈ granted, g ∈ s.granted) (hend : ∀ g ∈ granted, s.now ≤ g.ackDeadline → g ≠ pm) :
    ∃ place', Located place' { s.takeBack id pm with granted } := by
  have hx := h.pending id pm hpm
  refine ⟨update place pm.held.ref .returned, ?_, h.queuedOnce, ?_, h.poppedOnce, ?_, ?_, ?_,
    ?_⟩
  · exact fun name y hy => update_other hx (h.queued name y hy) Place.noConfusion _
  · exact fun y hy => update_other hx (h.popped y hy) Place.noConfusion _
  · intro id' pm' hpm'
    have hne : id' ≠ id := by
      rintro rfl
      exact absurd hpm' (by simp [Leases.takeBack])
    exact update_other hx (h.pending id' pm' (getElem?_of_erase hpm'))
      (fun he => hne (Place.pending.inj he)) _
  · intro y hy
    rcases mem_append.mp hy with hy | hy
    · exact update_other hx (h.returned y hy) Place.noConfusion _
    · rw [mem_singleton.mp hy, update_self]
  · refine nodup_map_concat h.returnedOnce (fun y hy he => ?_)
    have hold := h.returned y hy
    rw [he, hx] at hold
    cases hold
  · intro g hg hle
    rcases h.granted g (hsub g hg) hle with ⟨id', hid, hrec⟩ | hgone
    · have hne : id' ≠ id := by
        rintro rfl
        exact hend g hg hle (Option.some.inj (hrec.symm.trans hpm))
      exact .inl ⟨id', update_other hx hid (fun he => hne (Place.pending.inj he)) _,
        (getElem?_erase_other hne).trans hrec⟩
    · exact .inr (update_other hx hgone Place.noConfusion _)

theorem retryOrDeadLetter_queue (b : Broker) (h : Held) (name : String) :
    (b.retryOrDeadLetter h name).1.pending = b.pending ∧ ∀ n,
      ((b.retryOrDeadLetter h name).1.queue n).drain.Perm (b.queue n).drain ∨
        n = name ∧ ((b.retryOrDeadLetter h name).1.queue n).drain.Perm (h :: (b.queue n).drain) := by
  have hsame : ∀ n, (b.retried h).queue n = b.queue n := fun _ => rfl
  rw [Broker.retryOrDeadLetter_eq]
  split
  · exact ⟨rfl, fun n => .inl (List.Perm.refl _)⟩
  unfold Broker.push
  cases hq : ((b.retried h).queue name).push (clampPriority h.msg.priority) h with
  | none =>
    refine ⟨rfl, fun n => .inl ?_⟩
    rw [Broker.queue_touch]
    exact List.Perm.refl _
  | some q =>
    refine ⟨rfl, fun n => ?_⟩
    rw [Broker.queue_setQueue]
    by_cases hn : name = n
    · subst hn
      rw [if_pos rfl]
      exact .inr ⟨rfl, PriorityQueue.push_perm hq⟩
    · rw [if_neg hn]
      exact .inl (List.Perm.refl _)

theorem Located.giveBack (h : s.Located place) (hi : s.returned[i]? = some pm) :
    ∃ place', Located place' { s with
      broker := (s.broker.retryOrDeadLetter pm.held pm.queueName).1
      returned := s.returned.eraseIdx i } := by
  have hx := h.returned pm (mem_of_getElem? hi)
  obtain ⟨hpend, hqueue⟩ := retryOrDeadLetter_queue s.broker pm.held pm.queueName
  have hfresh : ∀ n, ∀ y ∈ (s.broker.queue n).drain, y.ref ≠ pm.held.ref := by
    intro n y hy he
    have hold := h.queued n y hy
    rw [he, hx] at hold
    cases hold
  refine ⟨update place pm.held.ref (.queued pm.queueName), ?_, ?_, ?_, h.poppedOnce, ?_, ?_,
    h.returnedOnce.sublist ((eraseIdx_sublist _ _).map _), ?_⟩
  · intro n y hy
    rcases hqueue n with hperm | ⟨rfl, hperm⟩
    · exact update_other hx (h.queued n y (hperm.subset hy)) Place.noConfusion _
    rcases mem_cons.mp (hperm.subset hy) with rfl | hy
    · exact update_self _ _ _
    · exact update_other hx (h.queued _ y hy) Place.noConfusion _
  · intro n
    rcases hqueue n with hperm | ⟨rfl, hperm⟩
    · exact (hperm.map _).nodup_iff.mpr (h.queuedOnce n)
    rw [(hperm.map _).nodup_iff, map_cons, nodup_cons]
    refine ⟨fun hin => ?_, h.queuedOnce _⟩
    obtain ⟨y, hy, he⟩ := mem_map.mp hin
    exact hfresh _ y hy he
  · exact fun y hy => update_other hx (h.popped y hy) Place.noConfusion _
  · intro id pm' hpm'
    rw [hpend] at hpm'
    exact update_other hx (h.pending id pm' hpm') Place.noConfusion _
  · intro y hy
    rw [update_of_ne (ne_of_mem_eraseIdx h.returnedOnce hi hy)]
    exact h.returned y (mem_of_mem_eraseIdx hy)
  · intro g hg hle
    rw [hpend]
    rcases h.granted g hg hle with ⟨id, hid, hrec⟩ | hgone
    · exact .inl ⟨id, update_other hx hid Place.noConfusion _, hrec⟩
    · exact .inr (update_other hx hgone Place.noConfusion _)

theorem Located.ack (h : s.Located place) {e : Env} {id : String} {pm : PendingMessage}
    (hpm : s.broker.pending[id]? = some pm) :
    Located place { s with
      broker := (s.broker.ack e id).1
      granted := s.granted.filter (fun g => g ≠ pm) } := by
  rw [Broker.ack_eq, hpm]
  refine { h with
    pending := fun id' pm' hpm' => h.pending id' pm' (getElem?_of_erase hpm')
    granted := ?_ }
  intro g hg hle
  obtain ⟨hg, hne⟩ := mem_filter.mp hg
  refine (h.granted g hg hle).imp_left ?_
  rintro ⟨id', hid, hrec⟩
  have hother : id' ≠ id := by
    rintro rfl
    exact of_decide_eq_true hne (Option.some.inj (hrec.symm.trans hpm))
  exact ⟨id', hid, (getElem?_erase_other hother).trans hrec⟩

end Located

structure Inv (s : Leases) : Prop where
  located : ∃ place, s.Located place
  check : ∀ c ∈ s.check, c.Fair s.now
  stolen : s.stolen = []
  doubled : s.doubled = []

section Inv
variable {s t : Leases}

section
variable (h : s.Inv)
include h

theorem Inv.withCheck {check : Option Check} (hc : ∀ c ∈ check, c.Fair s.now) :
    Inv { s with check } := by
  obtain ⟨place, hl⟩ := h.located
  exact ⟨⟨place, hl.frame (fun _ => rfl) rfl rfl rfl rfl (Int.le_refl _)⟩, hc, h.stolen, h.doubled⟩

theorem Inv.tick (d : Nat) : Inv { s with now := s.now + d } := by
  obtain ⟨place, hl⟩ := h.located
  have hle : s.now ≤ s.now + d := by omega
  refine ⟨⟨place, hl.frame (fun _ => rfl) rfl rfl rfl rfl hle⟩, fun c hc => ?_, h.stolen, h.doubled⟩
  exact ⟨Int.le_trans (h.check c hc).began hle, (h.check c hc).late⟩

theorem Inv.pop (topic : String) : (s.pop topic).Inv := by
  obtain ⟨place, hl⟩ := h.located
  have hsame : (s.pop topic).check = s.check ∧ (s.pop topic).now = s.now ∧
      (s.pop topic).stolen = s.stolen ∧ (s.pop topic).doubled = s.doubled := by
    unfold Leases.pop
    split
    · exact ⟨rfl, rfl, rfl, rfl⟩
    · split <;> exact ⟨rfl, rfl, rfl, rfl⟩
  obtain ⟨hc, hn, hst, hd⟩ := hsame
  exact ⟨hl.pop topic, by rw [hc, hn]; exact h.check, hst.trans h.stolen, hd.trans h.doubled⟩

theorem Inv.ack {writeErr : Option String} {id : String}
    (hs : s.Step (.ack writeErr id) t) : t.Inv := by
  obtain ⟨place, hl⟩ := h.located
  unfold Leases.Step Leases.step at hs
  dsimp only at hs
  cases hp : s.broker.pending[id]? with
  | none =>
    have hb : (s.broker.ack { now := s.now, writeErr } id).1 = s.broker := by
      unfold Broker.ack
      rw [hp]
    rw [hp, hb] at hs
    cases hs
    exact h
  | some pm =>
    rw [hp] at hs
    cases hs
    exact ⟨⟨place, hl.ack hp⟩, h.check, h.stolen, h.doubled⟩

theorem Inv.nack {id : String} (hs : s.Step (.nack id) t) : t.Inv := by
  obtain ⟨place, hl⟩ := h.located
  unfold Leases.Step Leases.step at hs
  dsimp only at hs
  cases hp : s.broker.pending[id]? with
  | none =>
    rw [hp] at hs
    cases hs
    exact h
  | some pm =>
    rw [hp] at hs
    cases hs
    have hback := hl.takeBack hp (fun g hg => (mem_filter.mp hg).1)
      (fun g hg _ => of_decide_eq_true (mem_filter.mp hg).2)
    exact ⟨hback, h.check, h.stolen, h.doubled⟩

theorem Inv.takeBack {id : String} {pm : PendingMessage}
    (hp : s.broker.pending[id]? = some pm) (hpassed : ¬ s.now ≤ pm.ackDeadline) :
    Inv { s.takeBack id pm with
      stolen := if s.now ≤ pm.ackDeadline then s.stolen ++ [pm] else s.stolen } := by
  obtain ⟨place, hl⟩ := h.located
  obtain ⟨place', hl'⟩ := hl.takeBack hp (fun g hg => hg) (fun g _ hle he => hpassed (he ▸ hle))
  refine ⟨⟨place', hl'.frame (fun _ => rfl) rfl rfl rfl rfl (Int.le_refl _)⟩, h.check, ?_, h.doubled⟩
  exact (if_neg hpassed).trans h.stolen

theorem Inv.requeue {i : Nat} (hok : s.SameLease (.requeue i))
    (hs : s.Step (.requeue i) t) : t.Inv := by
  unfold Leases.Step Leases.step at hs
  dsimp only at hs
  split at hs
  · next began late hc =>
    obtain ⟨x, hx, rfl⟩ := Option.map_eq_some_iff.mp hs
    have hfair := h.check _ hc
    have hrest : Inv { s with check := some ⟨began, some (late.eraseIdx i)⟩ } := by
      refine h.withCheck (fun c hc' => ?_)
      cases hc'
      refine ⟨hfair.began, fun late' hl' y hy => ?_⟩
      cases hl'
      exact hfair.late late rfl y (mem_of_mem_eraseIdx hy)
    cases hp : s.broker.pending[x.1]? with
    | none => exact hrest
    | some pm =>
      obtain rfl : pm = x.2 := hok _ hc late rfl x hx pm hp
      refine hrest.takeBack hp (fun hle => ?_)
      have hbegan := hfair.began
      have hlate := hfair.late late rfl x (mem_of_getElem? hx)
      dsimp only at hbegan hlate hle
      omega
  · cases hs

theorem Inv.step {op : Op} (hok : s.SameLease op) (hs : s.Step op t) : t.Inv := by
  obtain ⟨place, hl⟩ := h.located
  cases op with
  | tick d =>
    cases hs
    exact h.tick d
  | pop topic =>
    cases hs
    exact h.pop topic
  | pend i =>
    obtain ⟨⟨topic, x⟩, hi, rfl⟩ := Option.map_eq_some_iff.mp hs
    obtain ⟨hloc, hrun⟩ := hl.pend hi
    exact ⟨hloc, h.check, h.stolen, (if_neg hrun).trans h.doubled⟩
  | ack writeErr id => exact h.ack hs
  | nack id => exact h.nack hs
  | giveBack i =>
    obtain ⟨pm, hi, rfl⟩ := Option.map_eq_some_iff.mp hs
    exact ⟨hl.giveBack hi, h.check, h.stolen, h.doubled⟩
  | look =>
    unfold Leases.Step Leases.step at hs
    dsimp only at hs
    split at hs
    · cases hs
      refine h.withCheck (fun c hc => ?_)
      cases hc
      exact ⟨Int.le_refl _, fun _ hnone => by cases hnone⟩
    · cases hs
  | snapshot =>
    unfold Leases.Step Leases.step at hs
    dsimp only at hs
    split at hs
    · next began hc =>
      cases hs
      refine h.withCheck (fun c hc' => ?_)
      cases hc'
      refine ⟨(h.check _ hc).began, fun late hlate x hx => ?_⟩
      cases hlate
      exact of_decide_eq_true (mem_filter.mp hx).2
    · cases hs
  | requeue i => exact h.requeue hok hs
  | done =>
    unfold Leases.Step Leases.step at hs
    dsimp only at hs
    split at hs
    · cases hs
      exact h.withCheck (fun c hc => by cases hc)
    · cases hs

end

end Inv

/-- For every run from a state in which each message is in one place and no pass is under
way: as long as each lease that the scheduler finds is the one it found late, it ends none
before its deadline, and no message is handed out while a lease on it runs. -/
theorem leases_are_exclusive {s : Leases} (hplace : ∃ place, s.Located place)
    (hcheck : s.check = none) (hstolen : s.stolen = []) (hdoubled : s.doubled = [])
    {ops : List Op} {w : Leases} (hr : Run Step SameLease s ops w) :
    w.stolen = [] ∧ w.doubled = [] := by
  have hnone : ∀ c ∈ s.check, c.Fair s.now := by
    intro c hc
    rw [hcheck] at hc
    cases hc
  have h0 : s.Inv := ⟨hplace, hnone, hstolen, hdoubled⟩
  have h := hr.invariant Inv h0 (fun _ _ _ hi hc hs => hi.step hc hs)
  exact ⟨h.stolen, h.doubled⟩

def oneJob : Leases where
  broker := ((Broker.new { ackTimeout := 10 } none ∅).push "jobs" ⟨0, { id := "m" }⟩).1

theorem oneJob_other (hn : name ≠ "jobs") : (oneJob.broker.queue name).drain = [] := by
  have hother : oneJob.broker.queue name = (Broker.new { ackTimeout := 10 } none ∅).queue name :=
    (Broker.queue_setQueue _ _ _ _).trans (if_neg (Ne.symm hn))
  rw [hother]
  exact PriorityQueue.drain_new _ _

theorem oneJob_located : oneJob.Located (fun _ => .queued "jobs") where
  queued := by
    intro name h hin
    by_cases hn : name = "jobs"
    · rw [hn]
    · rw [oneJob_other hn] at hin
      cases hin
  queuedOnce := by
    intro name
    by_cases hn : name = "jobs"
    · subst hn
      decide +kernel
    · rw [oneJob_other hn]
      exact nodup_nil
  popped := forall_mem_nil _
  poppedOnce := nodup_nil
  pending := fun id pm hpm => by cases hpm
  returned := forall_mem_nil _
  returnedOnce := nodup_nil
  granted := forall_mem_nil _

def ranOut : List Op :=
  [.pop "jobs", .pend 0, .tick 11, .look, .snapshot, .requeue 0, .giveBack 0, .done, .pop "jobs",
    .pend 0]

theorem ran_out_exclusive : ∃ w, Run Step SameLease oneJob ranOut w ∧ w.granted.length = 2 ∧
      w.stolen = [] ∧ w.doubled = [] := by
  refine Run.shown (fun w => w.granted.length = 2) (by decide +kernel) ?_
  rintro w hr hlen
  exact ⟨hlen, leases_are_exclusive ⟨_, oneJob_located⟩ rfl rfl rfl hr⟩

def overtaken : List Op :=
  [.pop "jobs", .pend 0, .tick 11, .look, .snapshot, .nack "m", .giveBack 0, .pop "jobs", .pend 0,
    .requeue 0, .giveBack 0, .pop "jobs", .pend 0]

theorem running_lease_is_stolen :
    ∃ w, Run Step always oneJob overtaken w ∧ w.stolen.map (fun pm => pm.ackDeadline) = [21] ∧
      w.now = 11 ∧ w.doubled.map (fun h => h.msg.id) = ["m"] := by
  exact Run.found _ (by decide +kernel)

end Leases
end Boltq.QueuePlane
