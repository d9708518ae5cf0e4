import Boltq.Gateway.Session

namespace Boltq.Gateway
open Lib Identity Std List

inductive Item where
  | records (lo n : Nat)
  | other
  deriving DecidableEq

def Item.seqs : Item → List Nat
  | .records lo n => List.range' lo n
  | .other => []

inductive TailPhase where
  | top
  | checked
  | holding (n : Nat)
  | queued (n : Nat)
  | ended
  deriving DecidableEq

structure Tail where
  start : Nat
  next : Nat
  cancelled : Bool := false
  phase : TailPhase := .top
  deriving DecidableEq

structure Conn where
  capacity : Nat
  queue : List Item := []
  closed : Bool := false
  running : Bool := true
  tails : List Tail := []
  current : Option Nat := none
  deriving DecidableEq

namespace Conn

def send (c : Conn) (item : Item) : Conn × Bool :=
  if c.closed then (c, false)
  else if c.queue.length < c.capacity then ({ c with queue := c.queue ++ [item] }, true)
  else ({ c with closed := true }, false)

def cancel (c : Conn) : Conn :=
  match c.current with
  | none => c
  | some j =>
    { c with
      tails := c.tails.modify j (fun t => { t with cancelled := true })
      current := none }

def startTail (c : Conn) (start : Nat) : Conn :=
  let c := c.cancel
  { c with tails := c.tails ++ [{ start, next := start }], current := some c.tails.length }

def teardown (c : Conn) : Conn :=
  { c with tails := c.tails.map (fun t => { t with cancelled := true }), current := none }

end Conn

structure Delivery where
  topic : Bytes
  partition : Nat
  session : Session
  first : Nat
  next : Nat
  conns : List Conn
  pending : Option Nat := none
  requested : Nat := 0
  queued : List Nat := []
  written : List Nat := []

namespace Delivery

section
variable (w : Delivery)

def position : Option Nat := w.session.fromSeq w.topic w.partition

inductive TailAct where
  | check
  | read (n : Nat)
  | fail
  | push
  | advance

def tailStep (c : Conn) (t : Tail) : TailAct → Option (Delivery × Conn × Tail)
  | .check =>
    if t.phase = .top then some (w, c, { t with phase := if t.cancelled then .ended else .checked })
    else none
  | .read n =>
    if t.phase = .checked ∧ w.first ≤ t.next then
      if n = 0 then
        if w.next ≤ t.next then some (w, c, { t with phase := .top }) else none
      else if n ≤ 64 ∧ t.next + n ≤ w.next then some (w, c, { t with phase := .holding n }) else none
    else none
  | .fail =>
    if t.phase = .checked ∧ t.next < w.first then
      some (w, (c.send .other).1, { t with phase := .ended })
    else none
  | .push =>
    match t.phase with
    | .holding n =>
      let (c', accepted) := c.send (.records t.next n)
      if accepted then
        some ({ w with queued := w.queued ++ List.range' t.next n }, c', { t with phase := .queued n })
      else some (w, c', { t with phase := .ended })
    | _ => none
  | .advance =>
    match t.phase with
    | .queued n =>
      some ({ w with session := w.session.advance w.topic w.partition (t.next + n) }, c,
        { t with next := t.next + n, phase := .top })
    | _ => none

inductive Op where
  | log (first next : Nat)
  | subscribe (start : Nat)
  | start (ack : Bool)
  | unsubscribe
  | tail (i j : Nat) (x : TailAct)
  | other (i : Nat)
  | write (i : Nat) (ok : Bool)
  | stop (i : Nat)
  | close (i : Nat)
  | teardown (now : Int)
  | resume (capacity : Nat)

def onLast (f : Conn → Conn) : Delivery :=
  { w with conns := w.conns.modify (w.conns.length - 1) f }

def step : Op → Option Delivery
  | .log first next => if first ≤ next then some { w with first, next } else none
  | .subscribe start =>
    if w.session.attached ∧ w.pending = none then
      some { w with
        session := w.session.addSubscription w.topic w.partition start
        pending := some start
        requested := start }
    else none
  | .start ack =>
    match w.pending with
    | none => none
    | some start =>
      some ({ w with pending := none }.onLast (fun c =>
        let c := c.startTail start
        if ack then (c.send .other).1 else c))
  | .unsubscribe =>
    if w.session.attached ∧ w.pending = none then
      some ({ w with session := w.session.removeSubscription w.topic w.partition }.onLast
        (fun c => (c.cancel.send .other).1))
    else none
  | .tail i j x =>
    match w.conns[i]? with
    | none => none
    | some c =>
      match c.tails[j]? with
      | none => none
      | some t =>
        match w.tailStep c t x with
        | none => none
        | some (w', c', t') =>
          some { w' with conns := w.conns.set i { c' with tails := c.tails.set j t' } }
  | .other i =>
    match w.conns[i]? with
    | none => none
    | some c => some { w with conns := w.conns.set i (c.send .other).1 }
  | .write i ok =>
    match w.conns[i]? with
    | none => none
    | some c =>
      match c.queue with
      | [] => none
      | item :: rest =>
        if c.running then
          if ok then
            some { w with
              conns := w.conns.set i { c with queue := rest }
              written := w.written ++ item.seqs }
          else some { w with
            conns := w.conns.set i { c with queue := rest, running := false, closed := true } }
        else none
  | .stop i =>
    match w.conns[i]? with
    | none => none
    | some c =>
      if c.closed then some { w with conns := w.conns.set i { c with running := false } } else none
  | .close i =>
    match w.conns[i]? with
    | none => none
    | some c => some { w with conns := w.conns.set i { c with closed := true } }
  | .teardown now =>
    if w.session.attached ∧ w.pending = none then
      some ({ w with session := { w.session with attached := false, detachedAt := some now } }.onLast
        Conn.teardown)
    else none
  | .resume capacity =>
    if w.session.attached then none
    else
      let conn : Conn := { capacity }
      some { w with
        session := { w.session with attached := true, detachedAt := none }
        conns := w.conns ++ [w.position.elim conn conn.startTail] }

def Step (op : Op) (w' : Delivery) : Prop := w.step op = some w'

/-- A tail moves the position only from a start at or before it, no socket write of records
fails, and a resume finds no record before the position still in a queue. -/
def Orderly : Op → Prop
  | .tail i j .advance => ∀ c ∈ w.conns[i]?, ∀ t ∈ c.tails[j]?, ∀ f ∈ w.position, t.start ≤ f
  | .write i false => ∀ c ∈ w.conns[i]?, ∀ item ∈ c.queue.head?, item.seqs = []
  | .resume _ => ∀ f ∈ w.position, ∀ c ∈ w.conns, ∀ item ∈ c.queue, ∀ s ∈ item.seqs,
      s < w.requested ∨ f ≤ s
  | _ => True

end

instance (w : Delivery) (op : Op) : Decidable (w.Orderly op) := by
  unfold Orderly
  split <;> infer_instance

def opened (topic : Bytes) (partition : Nat) (session : Session) (capacity : Nat) : Delivery where
  topic := topic
  partition := partition
  session := { session with subscriptions := ∅, attached := true }
  first := 1
  next := 1
  conns := [{ capacity }]

end Delivery

def Tail.reached (t : Tail) : Nat :=
  match t.phase with
  | .queued n => t.next + n
  | _ => t.next

namespace Delivery

def Covered (w : Delivery) (t : Tail) : Prop :=
  ∀ s, t.start ≤ s → s < t.reached → s ∈ w.queued

def Held (conns : List Conn) (s : Nat) : Prop := ∃ c ∈ conns, ∃ item ∈ c.queue, s ∈ item.seqs

structure Inv (w : Delivery) : Prop where
  position : ∀ f, w.position = some f → ∀ s, w.requested ≤ s → s < f → s ∈ w.queued
  tails : ∀ c ∈ w.conns, ∀ t ∈ c.tails, w.Covered t
  held : ∀ s ∈ w.queued, s ∈ w.written ∨ Held w.conns s

section Steps
variable {w w' : Delivery} {c c' : Conn} {t t' : Tail} {x : TailAct} {op : Op}

@[simp] theorem send_tails (c : Conn) (item : Item) : (c.send item).1.tails = c.tails := by
  unfold Conn.send
  split
  · rfl
  split <;> rfl

theorem send_queue (c : Conn) (item : Item) : c.queue ⊆ (c.send item).1.queue := by
  unfold Conn.send
  split
  · exact fun _ h => h
  split
  · exact subset_append_left _ _
  · exact fun _ h => h

@[simp] theorem cancel_queue (c : Conn) : c.cancel.queue = c.queue := by
  unfold Conn.cancel
  split <;> rfl

theorem Held.set {conns : List Conn} {s : Nat} (h : Held conns s) (hc : conns[i]? = some c)
    (hq : ∀ item ∈ c.queue, s ∈ item.seqs → item ∈ c'.queue) : Held (conns.set i c') s := by
  obtain ⟨d, hd, item, hitem, hs⟩ := h
  obtain ⟨k, hk⟩ := getElem?_of_mem hd
  by_cases hik : i = k
  · subst hik
    cases hc.symm.trans hk
    obtain ⟨hlt, -⟩ := List.getElem?_eq_some_iff.mp hk
    exact ⟨c', mem_set hlt _, item, hq item hitem hs, hs⟩
  · exact ⟨d, mem_of_getElem? ((getElem?_set_ne hik).trans hk), item, hitem, hs⟩

theorem Held.modify {conns : List Conn} {s : Nat} (h : Held conns s) (k : Nat)
    (hf : ∀ c, c.queue ⊆ (f c).queue) : Held (conns.modify k f) s := by
  obtain ⟨d, hd, item, hitem, hs⟩ := h
  obtain ⟨i, hi⟩ := getElem?_of_mem hd
  have hmod := getElem?_modify f k conns i
  rw [hi] at hmod
  refine ⟨_, mem_of_getElem? hmod, item, ?_, hs⟩
  split
  · exact hf d hitem
  · exact hitem

section
variable (h : ∀ s ∈ w.queued, s ∈ w.written ∨ Held w.conns s)
include h

theorem held_onLast (hf : ∀ c, c.queue ⊆ (f c).queue) :
    ∀ s ∈ w.queued, s ∈ w.written ∨ Held (w.onLast f).conns s :=
  fun s hs => (h s hs).imp_right fun h => h.modify _ hf

theorem held_set (hc : w.conns[i]? = some c) (hq : c.queue ⊆ c'.queue) :
    ∀ s ∈ w.queued, s ∈ w.written ∨ Held (w.conns.set i c') s :=
  fun s hs => (h s hs).imp_right fun h => h.set hc fun _ hi _ => hq hi

end

theorem Covered.of_eq (h : w.Covered t) (hs : t'.start = t.start) (hr : t'.reached = t.reached) :
    w.Covered t' := by
  unfold Covered
  rw [hs, hr]
  exact h

section
variable (h : ∀ t ∈ c.tails, w.Covered t)
include h

theorem covered_cancel : ∀ t ∈ c.cancel.tails, w.Covered t := by
  unfold Conn.cancel
  split
  · exact h
  intro t ht
  obtain ⟨i, hi⟩ := getElem?_of_mem ht
  dsimp only at hi
  rw [getElem?_modify] at hi
  obtain ⟨t0, ht0, rfl⟩ := Option.map_eq_some_iff.mp hi
  have h0 := h t0 (mem_of_getElem? ht0)
  split
  · exact h0.of_eq rfl rfl
  · exact h0

theorem covered_startTail (start : Nat) : ∀ t ∈ (c.startTail start).tails, w.Covered t := by
  intro t ht
  rcases mem_append.mp ht with hold | hnew
  · exact covered_cancel h t hold
  rw [mem_singleton] at hnew
  subst hnew
  intro s hs hlt
  exact absurd hlt (Nat.not_lt.mpr hs)

theorem covered_teardown : ∀ t ∈ c.teardown.tails, w.Covered t := by
  intro t ht
  obtain ⟨t0, ht0, rfl⟩ := mem_map.mp ht
  exact (h t0 ht0).of_eq rfl rfl

end

theorem tails_onLast (h : ∀ c ∈ w.conns, ∀ t ∈ c.tails, w.Covered t)
    (hf : ∀ c, (∀ t ∈ c.tails, w.Covered t) → ∀ t ∈ (f c).tails, w.Covered t) :
    ∀ c ∈ (w.onLast f).conns, ∀ t ∈ c.tails, w.Covered t := by
  intro c hc
  obtain ⟨i, hi⟩ := getElem?_of_mem hc
  dsimp only [onLast] at hi
  rw [getElem?_modify] at hi
  obtain ⟨c0, hc0, rfl⟩ := Option.map_eq_some_iff.mp hi
  have h0 := h c0 (mem_of_getElem? hc0)
  split
  · exact hf c0 h0
  · exact h0

theorem tails_set (h : ∀ c ∈ w.conns, ∀ t ∈ c.tails, w.Covered t) (hc : w.conns[i]? = some c)
    (ht : c'.tails = c.tails) : ∀ d ∈ w.conns.set i c', ∀ t ∈ d.tails, w.Covered t := by
  intro d hd
  rcases mem_or_eq_of_mem_set hd with hold | rfl
  · exact h d hold
  · rw [ht]
    exact h c (mem_of_getElem? hc)

theorem tailStep_cases (h : w.tailStep c t x = some (w', c', t')) :
    (w' = w ∧ t'.start = t.start ∧ t'.reached ≤ t.reached ∧ c.queue ⊆ c'.queue) ∨
    (∃ n, t.reached = t.next ∧ t'.start = t.start ∧ t'.reached = t.next + n ∧
      c'.queue = c.queue ++ [.records t.next n] ∧
      w' = { w with queued := w.queued ++ range' t.next n }) ∨
    (x = .advance ∧ t'.start = t.start ∧ t'.reached = t.reached ∧ c' = c ∧
      w' = { w with session := w.session.advance w.topic w.partition t.reached }) := by
  cases x with
  | check =>
    simp only [tailStep] at h
    split at h
    · rename_i hph
      cases h
      refine .inl ⟨rfl, rfl, ?_, fun _ h => h⟩
      unfold Tail.reached
      dsimp only
      rw [hph]
      split
      · rename_i heq
        split at heq <;> cases heq
      · exact Nat.le_refl _
    · cases h
  | read n =>
    simp only [tailStep] at h
    split at h
    · rename_i hph
      have hr : t.reached = t.next := by
        unfold Tail.reached
        rw [hph.1]
      split at h
      · split at h
        · cases h
          exact .inl ⟨rfl, rfl, hr ▸ Nat.le_refl _, fun _ h => h⟩
        · cases h
      · split at h
        · cases h
          exact .inl ⟨rfl, rfl, hr ▸ Nat.le_refl _, fun _ h => h⟩
        · cases h
    · cases h
  | fail =>
    simp only [tailStep] at h
    split at h
    · rename_i hph
      cases h
      refine .inl ⟨rfl, rfl, ?_, send_queue c .other⟩
      unfold Tail.reached
      rw [hph.1]
    · cases h
  | push =>
    simp only [tailStep] at h
    split at h
    · rename_i n hph
      have hr : t.reached = t.next := by
        unfold Tail.reached
        rw [hph]
      split at h
      · rename_i hacc
        cases h
        refine .inr (.inl ⟨n, hr, rfl, rfl, ?_, rfl⟩)
        unfold Conn.send at hacc ⊢
        split_ifs at hacc ⊢
        rfl
      · cases h
        exact .inl ⟨rfl, rfl, hr ▸ Nat.le_refl _, send_queue c _⟩
    · cases h
  | advance =>
    simp only [tailStep] at h
    split at h
    · rename_i n hph
      have hr : t.reached = t.next + n := by
        unfold Tail.reached
        rw [hph]
      cases h
      exact .inr (.inr ⟨rfl, rfl, hr.symm, rfl, by rw [hr]⟩)
    · cases h

theorem Covered.grow (h : w.Covered t) (hq : ∀ s ∈ w.queued, s ∈ w'.queued) : w'.Covered t :=
  fun s hs hlt => hq s (h s hs hlt)

theorem tails_tail (h : ∀ c ∈ w.conns, ∀ t ∈ c.tails, w.Covered t) (hc : w.conns[i]? = some c)
    (hq : ∀ s ∈ w.queued, s ∈ w'.queued) (ht : w'.Covered t') :
    ∀ d ∈ w.conns.set i { c' with tails := c.tails.set j t' }, ∀ u ∈ d.tails, w'.Covered u := by
  intro d hd u hu
  rcases mem_or_eq_of_mem_set hd with hold | rfl
  · exact (h d hold u hu).grow hq
  rcases mem_or_eq_of_mem_set hu with hold | rfl
  · exact (h c (mem_of_getElem? hc) u hold).grow hq
  · exact ht

theorem Inv.tail (hi : Inv w) (hc : w.conns[i]? = some c) (ht : c.tails[j]? = some t)
    (ho : w.Orderly (.tail i j x)) (h : w.tailStep c t x = some (w', c', t')) :
    Inv { w' with conns := w.conns.set i { c' with tails := c.tails.set j t' } } := by
  have hold := hi.tails c (mem_of_getElem? hc) t (mem_of_getElem? ht)
  rcases tailStep_cases h with
    ⟨rfl, hs, hr, hq⟩ | ⟨n, hreach, hs, hr, hq', rfl⟩ | ⟨rfl, hs, hr, rfl, rfl⟩
  · refine ⟨hi.position, tails_tail hi.tails hc (fun _ hs => hs) ?_,
      held_set hi.held hc hq⟩
    intro s hle hlt
    exact hold s (hs ▸ hle) (hlt.trans_le hr)
  · have hq : ∀ s ∈ w.queued, s ∈ w.queued ++ range' t.next n :=
      fun s hs => mem_append_left _ hs
    refine ⟨fun f hf s hle hlt => hq s (hi.position f hf s hle hlt), tails_tail hi.tails hc hq ?_,
      fun s hs => ?_⟩
    rotate_left
    · rcases mem_append.mp hs with hs | hs
      · refine (hi.held s hs).imp_right fun h => h.set hc fun item h _ => ?_
        rw [hq']
        exact mem_append_left _ h
      · obtain ⟨hlt, -⟩ := List.getElem?_eq_some_iff.mp hc
        refine .inr ⟨_, mem_set hlt _, .records t.next n, ?_, hs⟩
        rw [hq']
        exact mem_append_right _ (mem_singleton_self _)
    intro s hle hlt
    rw [hs] at hle
    rw [hr] at hlt
    by_cases hb : s < t.next
    · exact hq s (hold s hle (hreach ▸ hb))
    · refine mem_append_right _ (mem_range'_1.mpr ⟨?_, hlt⟩)
      omega
  · refine ⟨?_, tails_tail hi.tails hc (fun _ hs => hs) ?_,
      held_set hi.held hc fun _ h => h⟩
    · intro f hf s hle hlt
      have hpos : w.position.map (max t.reached) = some f :=
        (Session.fromSeq_advance t.reached).symm.trans hf
      obtain ⟨f0, hf0, rfl⟩ := Option.map_eq_some_iff.mp hpos
      have hstart : t.start ≤ f0 := ho _ hc t ht f0 hf0
      by_cases hb : s < f0
      · exact hi.position f0 hf0 s hle hb
      · exact hold s (by omega) (by omega)
    · exact hold.of_eq hs hr

theorem Inv.step (hi : Inv w) (ho : w.Orderly op) (h : w.step op = some w') : Inv w' := by
  cases op with
  | log first next =>
    simp only [Delivery.step] at h
    split at h
    · cases h
      exact ⟨hi.position, hi.tails, hi.held⟩
    · cases h
  | subscribe start =>
    simp only [Delivery.step] at h
    split at h
    · cases h
      refine ⟨?_, hi.tails, hi.held⟩
      intro f hf s hle hlt
      cases (Session.fromSeq_addSubscription start).symm.trans hf
      exact absurd hlt (Nat.not_lt.mpr hle)
    · cases h
  | start ack =>
    simp only [Delivery.step] at h
    split at h
    · cases h
    rename_i start hp
    cases h
    refine ⟨hi.position, tails_onLast hi.tails ?_, held_onLast hi.held fun c => ?_⟩
    rotate_left
    · split
      · exact fun _ h => send_queue _ _ ((cancel_queue c).symm ▸ h)
      · exact fun _ h => (cancel_queue c).symm ▸ h
    intro c hc
    have htails : (if ack then ((c.startTail start).send .other).1 else c.startTail start).tails =
        (c.startTail start).tails := by
      split
      · exact send_tails _ _
      · rfl
    rw [htails]
    exact covered_startTail hc start
  | unsubscribe =>
    simp only [Delivery.step] at h
    split at h
    · cases h
      refine ⟨?_, tails_onLast hi.tails ?_,
        held_onLast hi.held fun c _ h => send_queue _ _ ((cancel_queue c).symm ▸ h)⟩
      · intro f hf
        cases Session.fromSeq_removeSubscription.symm.trans hf
      · intro c hc
        rw [send_tails]
        exact covered_cancel hc
    · cases h
  | tail i j x =>
    simp only [Delivery.step] at h
    split at h
    · cases h
    rename_i c hc
    split at h
    · cases h
    rename_i t ht
    split at h
    · cases h
    rename_i w1 c1 t1 hstep
    cases h
    exact hi.tail hc ht ho hstep
  | other i =>
    simp only [Delivery.step] at h
    split at h
    · cases h
    rename_i c hc
    cases h
    exact ⟨hi.position, tails_set hi.tails hc (send_tails c .other),
      held_set hi.held hc (send_queue c .other)⟩
  | write i ok =>
    simp only [Delivery.step] at h
    split at h
    · cases h
    rename_i c hc
    split at h
    · cases h
    rename_i item rest hqueue
    -- what the queue still holds once its first item is gone
    have hrest : ∀ s ∉ item.seqs, ∀ it ∈ c.queue, s ∈ it.seqs → it ∈ rest := by
      intro s hs it hit hmem
      rw [hqueue] at hit
      rcases mem_cons.mp hit with rfl | hit
      · exact absurd hmem hs
      · exact hit
    split at h
    · split at h
      · cases h
        refine ⟨hi.position, tails_set hi.tails hc rfl, fun s hs => ?_⟩
        by_cases hmem : s ∈ item.seqs
        · exact .inl (mem_append_right _ hmem)
        · exact (hi.held s hs).imp (mem_append_left _) fun h => h.set hc (hrest s hmem)
      · rename_i hok
        cases h
        rw [Bool.not_eq_true] at hok
        subst hok
        have hnone : item.seqs = [] := ho c hc item (by rw [hqueue]; rfl)
        refine ⟨hi.position, tails_set hi.tails hc rfl, fun s hs => ?_⟩
        exact (hi.held s hs).imp_right fun h => h.set hc (hrest s (hnone ▸ not_mem_nil))
    · cases h
  | stop i =>
    simp only [Delivery.step] at h
    split at h
    · cases h
    rename_i c hc
    split at h
    · cases h
      exact ⟨hi.position, tails_set hi.tails hc rfl, held_set hi.held hc fun _ h => h⟩
    · cases h
  | close i =>
    simp only [Delivery.step] at h
    split at h
    · cases h
    rename_i c hc
    cases h
    exact ⟨hi.position, tails_set hi.tails hc rfl, held_set hi.held hc fun _ h => h⟩
  | teardown now =>
    simp only [Delivery.step] at h
    split at h
    · cases h
      exact ⟨hi.position, tails_onLast hi.tails (fun c hc => covered_teardown hc),
        held_onLast hi.held fun _ _ h => h⟩
    · cases h
  | resume capacity =>
    simp only [Delivery.step] at h
    split at h
    · cases h
    cases h
    refine ⟨hi.position, ?_, fun s hs => (hi.held s hs).imp_right fun ⟨c, hc, h⟩ =>
      ⟨c, mem_append_left _ hc, h⟩⟩
    intro c hc
    rcases mem_append.mp hc with hold | hnew
    · exact hi.tails c hold
    rw [mem_singleton] at hnew
    subst hnew
    have hnone : ∀ t ∈ ({ capacity } : Conn).tails, w.Covered t :=
      fun t ht => absurd ht not_mem_nil
    cases w.position with
    | none => exact hnone
    | some f => exact covered_startTail hnone f

end Steps

theorem Inv.opened (topic : Bytes) (partition : Nat) (session : Session) (capacity : Nat) :
    Inv (opened topic partition session capacity) where
  position f hf := by
    have hnone : ((∅ : TreeMap Bytes Subscription)[subKey topic partition]?).map
        Subscription.fromSeq = some f := hf
    rw [TreeMap.getElem?_emptyc] at hnone
    cases hnone
  tails c hc := by
    rw [mem_singleton.mp hc]
    exact fun t ht => absurd ht not_mem_nil
  held s hs := absurd hs not_mem_nil

/-- The tail that a resume starts begins at or before the first position that was
requested and not written. -/
theorem resume_misses_nothing {topic : Bytes} {partition capacity capacity' : Nat}
    {session : Session} {ops : List Op} {w : Delivery}
    (hr : Run Step Orderly (opened topic partition session capacity) (ops ++ [.resume capacity']) w)
    {c : Conn} (hc : w.conns.getLast? = some c) {t : Tail} (ht : t ∈ c.tails) :
    ∀ s, w.requested ≤ s → s < t.start → s ∈ w.written := by
  obtain ⟨v, hv, ho, hs⟩ := hr.last
  have hi := hv.invariant Inv (.opened topic partition session capacity)
    (fun _ _ _ hi ho hs => hi.step ho hs)
  simp only [Step, step] at hs
  split at hs
  · cases hs
  cases hs
  rw [getLast?_concat] at hc
  cases hc
  intro s hle hlt
  cases hp : v.position with
  | none =>
    rw [hp] at ht
    exact absurd ht not_mem_nil
  | some f =>
    rw [hp] at ht
    have hstart : t = { start := f, next := f } := mem_singleton.mp ht
    rw [hstart] at hlt
    rcases hi.held s (hi.position f hp s hle hlt) with hw | ⟨c, hc, item, hitem, hs⟩
    · exact hw
    rcases ho f hp c hc item hitem s hs with hbefore | hafter
    · exact absurd hle (Nat.not_le.mpr hbefore)
    · exact absurd hlt (Nat.not_lt.mpr hafter)

def anySession : Session :=
  { principal := { userID := [117] }, owner := { userID := [117] }, deviceID := [], resumeToken := [] }

def delivered (ok : Bool) : List Op :=
  [.log 1 3, .subscribe 1, .start true, .tail 0 0 .check, .tail 0 0 (.read 2), .tail 0 0 .push,
    .tail 0 0 .advance, .write 0 true, .write 0 ok, .close 0, .teardown 5, .resume 4]

theorem written_is_not_missed : ∃ w, Run Step Orderly (opened [97] 0 anySession 4) (delivered true) w ∧
    w.requested = 1 ∧ w.conns.getLast? = some (Conn.startTail { capacity := 4 } 3) ∧
    ∀ s, 1 ≤ s → s < 3 → s ∈ w.written := by
  obtain ⟨w, hr, hreq, hlast⟩ := Run.executed Orderly step (opened [97] 0 anySession 4)
    (delivered true)
    (fun w => w.requested = 1 ∧
      w.conns.getLast? = some (Conn.startTail { capacity := 4 } 3)) (by decide +kernel)
  refine ⟨w, hr, hreq, hlast, ?_⟩
  intro s hle hlt
  have hmem : ({ start := 3, next := 3 } : Tail) ∈ (Conn.startTail { capacity := 4 } 3).tails := by
    decide
  have hr' : Run Step Orderly (opened [97] 0 anySession 4)
      ((delivered true).take 11 ++ [.resume 4]) w := hr
  exact resume_misses_nothing hr' hlast hmem s (hreq ▸ hle) hlt

/-- The resumed session starts behind records that no socket took. -/
theorem failed_is_missed : ∃ w, Run Step always (opened [97] 0 anySession 4) (delivered false) w ∧
    w.requested = 1 ∧ w.conns.getLast? = some (Conn.startTail { capacity := 4 } 3) ∧
    w.written = [] :=
  Run.found _ (by decide +kernel)

end Delivery
end Boltq.Gateway
