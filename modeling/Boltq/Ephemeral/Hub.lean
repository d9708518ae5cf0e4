import Boltq.Lib.Bytes
import Boltq.Lib.Run

namespace Boltq.Ephemeral
open Lib Function List

structure Signal where
  topic : String
  sender : String
  kind : String
  payload : Bytes
  deriving DecidableEq

structure Subscription where
  id : String
  owner : String
  topic : String
  queue : List Signal := []
  dropped : Nat := 0
  closed : Bool := false
  deriving DecidableEq

def Subscription.key (h : Subscription) : String × String := (h.topic, h.id)

def Subscription.wants (h : Subscription) (sig : Signal) : Bool :=
  h.topic = sig.topic && !(sig.sender ≠ "" && h.owner = sig.sender)

def Subscription.offer (h : Subscription) (buffer : Nat) (sig : Signal) : Subscription :=
  if h.queue.length < buffer then { h with queue := h.queue ++ [sig] }
  else { h with dropped := h.dropped + 1 }

structure Hub where
  maxPayload : Nat
  buffer : Nat
  handles : List Subscription := []
  subs : String × String → Option Nat := fun _ => none
  panicked : Bool := false

inductive PublishErr where
  | payloadTooLarge
  | rateLimited
  deriving DecidableEq

namespace Hub

def closeCh (handles : List Subscription) (i : Option Nat) : List Subscription :=
  match i with
  | some i => handles.modify i (fun h => { h with closed := true })
  | none => handles

def subscribeAs (s : Hub) (topic id owner : String) : Hub :=
  { s with
    handles := closeCh s.handles (s.subs (topic, id)) ++ [{ id, owner, topic }]
    subs := update s.subs (topic, id) (some s.handles.length) }

def close (s : Hub) (i : Nat) (h : Subscription) : Hub :=
  { s with handles := closeCh s.handles (some i), subs := update s.subs h.key none }

def reaches (s : Hub) (sig : Signal) (i : Nat) (h : Subscription) : Bool :=
  s.subs h.key = some i && h.wants sig

def publish (s : Hub) (sig : Signal) (allowed : Bool) : Hub × Except PublishErr Unit :=
  if s.maxPayload < sig.payload.length then (s, .error .payloadTooLarge)
  else if sig.sender ≠ "" ∧ allowed = false then (s, .error .rateLimited)
  else
    ({ s with
      handles := s.handles.mapIdx (fun i h =>
        if s.reaches sig i h then h.offer s.buffer sig else h)
      panicked := s.panicked ||
        (s.handles.mapIdx (fun i h => s.reaches sig i h && h.closed)).any id }, .ok ())

inductive Op where
  | subscribeAs (topic id owner : String)
  | close (i : Nat)
  | publish (sig : Signal) (allowed : Bool)
  | receive (i : Nat)

def step (s : Hub) : Op → Option Hub
  | .subscribeAs topic id owner => some (s.subscribeAs topic id owner)
  | .close i => s.handles[i]?.map (s.close i)
  | .publish sig allowed => some (s.publish sig allowed).1
  | .receive i => s.handles[i]?.map (fun _ =>
      { s with handles := s.handles.modify i (fun h => { h with queue := h.queue.tail }) })

def Step (s : Hub) (op : Op) (s' : Hub) : Prop := s.step op = some s'

/-- No handle is closed while another is registered under its key. -/
def Unreplaced (s : Hub) : Op → Prop
  | .close i => ∀ h ∈ s.handles[i]?, ∀ j ∈ s.subs h.key, j = i
  | _ => True

instance (s : Hub) (op : Op) : Decidable (s.Unreplaced op) := by
  unfold Unreplaced
  split <;> infer_instance

/-- Only the last field needs the run to be `careful`, in the sense of `Unreplaced`. -/
structure Inv (careful : Prop) (s : Hub) : Prop where
  quiet : s.panicked = false
  live : ∀ k i, s.subs k = some i → ∃ h, s.handles[i]? = some h ∧ h.key = k ∧ h.closed = false
  registered : careful → ∀ i h, s.handles[i]? = some h → h.closed = false → s.subs h.key = some i

theorem closeCh_get {l : List Subscription} {i : Nat} (h : (closeCh l o)[i]? = some x) :
    ∃ y, l[i]? = some y ∧ x = if o = some i then { y with closed := true } else y := by
  cases o with
  | none => exact ⟨x, h, rfl⟩
  | some j =>
    rw [closeCh, getElem?_modify] at h
    obtain ⟨y, hy, rfl⟩ := Option.map_eq_some_iff.mp h
    refine ⟨y, hy, ?_⟩
    simp only [Option.some.injEq]

theorem closeCh_other {l : List Subscription} {i : Nat} (h : l[i]? = some x) (ho : o ≠ some i) :
    (closeCh l o)[i]? = some x := by
  cases o with
  | none => exact h
  | some j =>
    rw [closeCh, getElem?_modify, h]
    exact congrArg some (if_neg (fun he => ho (congrArg some he)))

theorem Inv.same (h : Inv careful s) (hq : s'.panicked = false) (hsubs : s'.subs = s.subs)
    (hget : ∀ i : Nat, ∃ f : Subscription → Subscription, s'.handles[i]? = s.handles[i]?.map f ∧
      ∀ x, (f x).key = x.key ∧ (f x).closed = x.closed) : Inv careful s' := by
  refine ⟨hq, fun k i hk => ?_, fun hp i x hx hc => ?_⟩
  · rw [hsubs] at hk
    obtain ⟨x, hx, hkey, hc⟩ := h.live k i hk
    obtain ⟨f, hf, hsame⟩ := hget i
    exact ⟨f x, by rw [hf, hx]; rfl, (hsame x).1.trans hkey, (hsame x).2.trans hc⟩
  · obtain ⟨f, hf, hsame⟩ := hget i
    rw [hf] at hx
    obtain ⟨y, hy, rfl⟩ := Option.map_eq_some_iff.mp hx
    rw [hsubs, (hsame y).1]
    exact h.registered hp i y hy ((hsame y).2.symm.trans hc)

theorem offer_same (h : Subscription) (n : Nat) (sig : Signal) :
    (h.offer n sig).key = h.key ∧ (h.offer n sig).closed = h.closed := by
  unfold Subscription.offer
  split <;> exact ⟨rfl, rfl⟩

theorem Inv.publish (h : Inv careful s) (sig : Signal) (allowed : Bool) :
    Inv careful (s.publish sig allowed).1 := by
  unfold Hub.publish
  split
  · exact h
  split
  · exact h
  refine h.same ?_ rfl (fun i => ⟨_, getElem?_mapIdx, fun x => ?_⟩)
  · have hnone : (s.handles.mapIdx (fun i h => s.reaches sig i h && h.closed)).any id = false := by
      rw [any_eq_false]
      intro b hb hid
      obtain ⟨i, hi⟩ := getElem?_of_mem hb
      rw [getElem?_mapIdx] at hi
      obtain ⟨x, hx, rfl⟩ := Option.map_eq_some_iff.mp hi
      obtain ⟨hr, hc⟩ := Bool.and_eq_true_iff.mp hid
      obtain ⟨y, hy, -, hopen⟩ := h.live _ _ (of_decide_eq_true (Bool.and_eq_true_iff.mp hr).1)
      cases hx.symm.trans hy
      rw [hopen] at hc
      cases hc
    simp only [h.quiet, hnone, Bool.or_self]
  · split
    · exact offer_same x s.buffer sig
    · exact ⟨rfl, rfl⟩

theorem Inv.subscribeAs (h : Inv careful s) (topic id owner : String) :
    Inv careful (s.subscribeAs topic id owner) := by
  have hlen : (closeCh s.handles (s.subs (topic, id))).length = s.handles.length := by
    unfold closeCh
    split <;> simp
  refine ⟨h.quiet, fun k i hk => ?_, fun hp i x hx hc => ?_⟩
  · unfold Hub.subscribeAs at hk ⊢
    dsimp only at hk ⊢
    by_cases he : k = (topic, id)
    · subst he
      rw [update_self] at hk
      cases hk
      exact ⟨_, by rw [← hlen, getElem?_concat_length], rfl, rfl⟩
    · rw [update_of_ne he] at hk
      obtain ⟨x, hx, hkey, hopen⟩ := h.live k i hk
      have hlt := (List.getElem?_eq_some_iff.mp hx).1
      refine ⟨x, ?_, hkey, hopen⟩
      rw [getElem?_append_left (by rw [hlen]; exact hlt)]
      refine closeCh_other hx (fun ho => ?_)
      obtain ⟨y, hy, hykey, -⟩ := h.live _ i ho
      cases hx.symm.trans hy
      exact he (hkey.symm.trans hykey)
  · unfold Hub.subscribeAs at hx ⊢
    dsimp only at hx ⊢
    rcases Nat.lt_or_ge i s.handles.length with hlt | hge
    · rw [getElem?_append_left (by rw [hlen]; exact hlt)] at hx
      obtain ⟨y, hy, rfl⟩ := closeCh_get hx
      by_cases ho : s.subs (topic, id) = some i
      · rw [if_pos ho] at hc
        cases hc
      rw [if_neg ho] at hc ⊢
      have hreg := h.registered hp i y hy hc
      have hne : y.key ≠ (topic, id) := fun he => ho (he ▸ hreg)
      rw [update_of_ne hne]
      exact hreg
    · rw [getElem?_append_right (by rw [hlen]; exact hge), hlen] at hx
      rw [getElem?_singleton] at hx
      split at hx
      · cases hx
        rw [show i = s.handles.length by omega]
        exact update_self ..
      · cases hx

theorem Inv.close (h : Inv careful s) (hi : s.handles[i]? = some x)
    (hu : careful → ∀ j ∈ s.subs x.key, j = i) : Inv careful (s.close i x) := by
  refine ⟨h.quiet, fun k j hk => ?_, fun hp j y hy hc => ?_⟩
  · by_cases he : k = x.key
    · subst he
      cases hk.symm.trans (update_self ..)
    have hold : s.subs k = some j := (update_of_ne he ..).symm.trans hk
    obtain ⟨y, hy, hkey, hopen⟩ := h.live k j hold
    have hne : some i ≠ some j := by
      intro hij
      cases hij
      cases hi.symm.trans hy
      exact he hkey.symm
    exact ⟨y, closeCh_other hy hne, hkey, hopen⟩
  · obtain ⟨z, hz, rfl⟩ := closeCh_get (o := some i) hy
    split at hc
    · cases hc
    · rename_i hij
      have hreg := h.registered hp j z hz hc
      rw [if_neg hij]
      refine (update_of_ne (fun he => ?_) ..).trans hreg
      rw [he] at hreg
      exact hij (congrArg some (hu hp j hreg).symm)

theorem Inv.step (h : Inv careful s) (hu : careful → s.Unreplaced op) (hs : s.step op = some s') :
    Inv careful s' := by
  cases op with
  | subscribeAs topic id owner =>
    cases hs
    exact h.subscribeAs topic id owner
  | close i =>
    obtain ⟨x, hx, rfl⟩ := Option.map_eq_some_iff.mp hs
    exact h.close hx (fun hp => hu hp x hx)
  | publish sig allowed =>
    cases hs
    exact h.publish sig allowed
  | receive i =>
    obtain ⟨x, -, rfl⟩ := Option.map_eq_some_iff.mp hs
    refine h.same h.quiet rfl (fun j => ⟨_, getElem?_modify .., fun y => ?_⟩)
    split <;> exact ⟨rfl, rfl⟩

/-- Nothing is ever sent on a closed channel; and as long as no handle is closed while
another is registered in its place, every handle that is open is registered, so that each
signal on its topic by another user is queued for it or counted as dropped. -/
theorem newer_subscription_stays (maxPayload buffer : Nat) {ops : List Op} {s : Hub}
    (hr : Run Step always { maxPayload, buffer } ops s) : s.panicked = false ∧
    (Run Step Unreplaced { maxPayload, buffer } ops s →
    ∀ i h, s.handles[i]? = some h → h.closed = false → s.subs h.key = some i ∧
      ∀ sig allowed, (s.publish sig allowed).2 = .ok () → h.wants sig = true →
        (s.publish sig allowed).1.handles[i]? = some (h.offer s.buffer sig)) := by
  refine ⟨(hr.invariant (Inv False) ⟨rfl, nofun, nofun⟩
    (fun _ _ _ hi _ hs => hi.step False.elim hs)).quiet, fun hr i h hh hc => ?_⟩
  have hi := hr.invariant (Inv True) ⟨rfl, nofun, nofun⟩
    (fun _ _ _ hi hc hs => hi.step (fun _ => hc) hs)
  refine ⟨hi.registered trivial i h hh hc, fun sig allowed hok hw => ?_⟩
  unfold Hub.publish at hok ⊢
  split at hok
  · cases hok
  rename_i hsize
  split at hok
  · cases hok
  rename_i hrate
  rw [if_neg hsize, if_neg hrate]
  simp [getElem?_mapIdx, hh, reaches, hi.registered trivial i h hh hc, hw]

def typing : Signal := ⟨"typing.c", "bob", "typing", []⟩

theorem newer_subscription_stays_reconnected : ∃ s,
    Run Step Unreplaced { maxPayload := 9, buffer := 1 }
      [.subscribeAs "typing.c" "phone" "ann", .close 0, .subscribeAs "typing.c" "phone" "ann"] s ∧
    ∃ h, (s.publish typing true).1.handles[1]? = some h ∧ h.queue = [typing] := by
  refine Run.shown
    (fun s => s.handles[1]? = some { id := "phone", owner := "ann", topic := "typing.c" } ∧
      s.buffer = 1 ∧ (s.publish typing true).2.isOk = true) (by decide +kernel) ?_
  rintro s hr ⟨hh, hb, hok⟩
  have hok' : (s.publish typing true).2 = .ok () := by
    cases h : (s.publish typing true).2 with
    | ok u => rfl
    | error e => simp [h, Except.isOk, Except.toBool] at hok
  have hstays := (newer_subscription_stays 9 1 (hr.mono fun _ _ _ => trivial)).2 hr
  have hq := (hstays 1 _ hh rfl).2 typing true hok' rfl
  exact ⟨_, hq, by rw [hb]; rfl⟩

/-- The handle that was replaced is closed late, and the signal reaches nobody. -/
theorem late_close_removes_newer : ∃ s, Run Step always { maxPayload := 9, buffer := 1 }
      [.subscribeAs "typing.c" "phone" "ann", .subscribeAs "typing.c" "phone" "ann", .close 0,
        .publish typing true] s ∧
    ∃ h, s.handles[1]? = some h ∧ h.closed = false ∧ h.queue = [] ∧ h.dropped = 0 ∧
      s.subs h.key = none := by
  refine Run.shown
    (fun s => s.handles[1]? = some { id := "phone", owner := "ann", topic := "typing.c" } ∧
      s.subs ("typing.c", "phone") = none) (by decide +kernel) ?_
  rintro s hr ⟨hh, hn⟩
  exact ⟨_, hh, rfl, rfl, rfl, hn⟩

end Hub
end Boltq.Ephemeral
