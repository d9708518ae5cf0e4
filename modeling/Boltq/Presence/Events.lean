import Boltq.Presence.Watchers

namespace Boltq.Presence
open Lib Std List TreeMap Option

structure Emit where
  event : Event
  ready : Bool
  deriving DecidableEq

def Event.Removal (e : Event) : Prop := e.type = .unbound ∨ e.type = .expired
  deriving Decidable

def departed (l : List Event) : List String := (l.filter (·.Removal)).map Event.deviceID

structure Feed where
  userID : String
  devices : TreeMap String Session := ∅
  calls : List (List Emit) := []
  events : List Event := []
  removed : List String := []

inductive FeedOp where
  | bind (s : Session)
  | setState (deviceID : String) (state : State) (now : Nat)
  | unbind (deviceID : String) (connID : Option Nat)
  | sweep (now : Nat) (ttl : Int) (order : List (String × Session))
  | evictNode (nodeID : String) (order : List (String × Session))
  | read (i : Nat)
  | emit (i : Nat)

namespace Feed

section
variable (f : Feed)

def online : Bool := !f.devices.isEmpty

def event (type : EventType) (deviceID nodeID : String) (state : State)
    (userOnline : Bool) : Event := ⟨type, f.userID, deviceID, nodeID, state, userOnline⟩

def lock (devices : TreeMap String Session) (emits : List Emit) : Feed :=
  { f with
    devices
    calls := if emits = [] then f.calls else f.calls ++ [emits]
    removed := f.removed ++ f.devices.keys.filter (· ∉ devices) }

def collect (gone : Session → Bool) (order : List (String × Session)) : Option Feed :=
  if order.Perm (f.devices.toList.filter (gone ·.2)) then
    some (f.lock (f.devices.filter (fun _ s => !gone s)) (order.map (fun (d, s) =>
      ⟨f.event .expired d s.nodeID .offline false, false⟩)))
  else none

def step : FeedOp → Option Feed
  | .bind s =>
    if s.deviceID = "" ∨ f.userID = "" then some f
    else
      some (f.lock (f.devices.insert s.deviceID s)
        [⟨f.event .bound s.deviceID s.nodeID (s.state.getD .online) true, true⟩])
  | .setState deviceID state now =>
    match f.devices[deviceID]? with
    | none => some f
    | some s =>
      let devices := f.devices.insert deviceID { s with state := some state, lastSeen := now }
      some (f.lock devices (if s.state = some state then []
        else [⟨f.event .stateChanged deviceID s.nodeID state !devices.isEmpty, true⟩]))
  | .unbind deviceID connID =>
    match f.devices[deviceID]? with
    | none => some f
    | some s =>
      if connID.any (s.connID ≠ ·) then some f
      else
        let devices := f.devices.erase deviceID
        some (f.lock devices
          [⟨f.event .unbound deviceID s.nodeID .offline !devices.isEmpty, true⟩])
  | .sweep now ttl order => f.collect (fun s => decide (s.Expired now ttl)) order
  | .evictNode nodeID order => f.collect (fun s => s.nodeID = nodeID) order
  | .read i =>
    match f.calls[i]? with
    | some (⟨e, false⟩ :: es) =>
      some { f with calls := f.calls.set i (⟨{ e with userOnline := f.online }, true⟩ :: es) }
    | _ => none
  | .emit i =>
    match f.calls[i]? with
    | some (⟨e, true⟩ :: es) =>
      some { f with
        events := f.events ++ [e]
        calls := if es = [] then f.calls.eraseIdx i else f.calls.set i es }
    | _ => none

def Step (op : FeedOp) (f' : Feed) : Prop := f.step op = some f'

/-- The locked section of the call takes the user online or offline. -/
def Turns : FeedOp → Prop
  | .bind _ => f.devices.isEmpty = true
  | .unbind deviceID _ => f.devices.isEmpty = false ∧ (f.devices.erase deviceID).isEmpty = true
  | .sweep now ttl _ => f.devices.isEmpty = false ∧
      (f.devices.filter (fun _ s => !decide (s.Expired now ttl))).isEmpty = true
  | .evictNode nodeID _ => f.devices.isEmpty = false ∧
      (f.devices.filter (fun _ s => !decide (s.nodeID = nodeID))).isEmpty = true
  | .setState _ _ _ | .read _ | .emit _ => False

/-- Nobody goes online or offline while an event that already says which has not been emitted. -/
def Unhurried (op : FeedOp) : Prop :=
  f.Turns op → ∀ call ∈ f.calls, ∀ e ∈ call, e.ready = false

end

instance (f : Feed) (op : FeedOp) : Decidable (f.Turns op) := by
  unfold Turns
  split <;> infer_instance

instance (f : Feed) (op : FeedOp) : Decidable (f.Unhurried op) := by
  unfold Unhurried
  infer_instance

def Balance (f : Feed) : Prop :=
  (departed (f.events ++ f.calls.flatten.map Emit.event)).Perm f.removed

structure Flagged (f : Feed) : Prop where
  flags : ∀ call ∈ f.calls, ∀ e ∈ call, e.ready = true → e.event.userOnline = f.online
  last : f.calls = [] → ∀ e ∈ f.events.getLast?, e.userOnline = f.online

/-- What a locked section leaves to emit: flags that are right when it ends, something when the
user goes online or offline, and one event for each device it removes. -/
structure Locks (f : Feed) (devices : TreeMap String Session) (emits : List Emit) : Prop where
  flags : ∀ e ∈ emits, e.ready = true → e.event.userOnline = !devices.isEmpty
  same : emits = [] → devices.isEmpty = f.devices.isEmpty
  gone : (departed (emits.map Emit.event)).Perm (f.devices.keys.filter (· ∉ devices))

inductive Moves (f : Feed) (op : FeedOp) : Feed → Prop where
  | idle : Moves f op f
  | lock {devices emits} (h : f.Locks devices emits)
      (turns : f.Turns op ∨ devices.isEmpty = f.devices.isEmpty) :
      Moves f op (f.lock devices emits)
  | read {i e es} (h : f.calls[i]? = some (⟨e, false⟩ :: es)) : Moves f op
      { f with calls := f.calls.set i (⟨{ e with userOnline := f.online }, true⟩ :: es) }
  | emit {i e es} (h : f.calls[i]? = some (⟨e, true⟩ :: es)) : Moves f op
      { f with
        events := f.events ++ [e]
        calls := if es = [] then f.calls.eraseIdx i else f.calls.set i es }

theorem departed_append (l m : List Event) : departed (l ++ m) = departed l ++ departed m := by
  simp [departed]

theorem departed_online (e : Event) (b : Bool) (l : List Event) :
    departed ({ e with userOnline := b } :: l) = departed (e :: l) := by
  have h : Event.Removal { e with userOnline := b } ↔ e.Removal := Iff.rfl
  by_cases hr : e.Removal <;> simp [departed, h, hr]

theorem gone_perm {t u : TreeMap String Session} {l : List String} (hn : l.Nodup)
    (h : ∀ d, d ∈ l ↔ d ∈ t ∧ d ∉ u) : l.Perm (t.keys.filter (· ∉ u)) := by
  refine (perm_ext_iff_of_nodup hn (nodup_keys.filter _)).mpr (fun d => ?_)
  rw [h d, mem_filter, TreeMap.mem_keys, decide_eq_true_iff]

theorem collect_moves (hs : collect f gone order = some f')
    (hturns : f.devices.isEmpty = false → (f.devices.filter (fun _ s => !gone s)).isEmpty = true →
      f.Turns op) : f.Moves op f' := by
  unfold Feed.collect at hs
  split at hs
  · rename_i hp
    cases hs
    have hin : ∀ d s, (d, s) ∈ order ↔ f.devices[d]? = some s ∧ gone s = true := by
      intro d s
      rw [hp.mem_iff, mem_filter, TreeMap.mem_toList_iff_getElem?_eq_some]
    have hstays : ∀ d, d ∈ f.devices.filter (fun _ s => !gone s) ↔
        ∃ s, f.devices[d]? = some s ∧ gone s = false := by
      intro d
      rw [TreeMap.mem_iff_isSome_getElem?, TreeMap.getElem?_filter']
      cases f.devices[d]? with
      | none => simp
      | some s => cases hg : gone s <;> simp [Option.filter, hg]
    refine .lock ⟨fun e he hr => ?_, fun he => ?_, ?_⟩ ?_
    · obtain ⟨p, -, rfl⟩ := mem_map.mp he
      cases hr
    · have hnil := map_eq_nil_iff.mp he
      refine Bool.eq_iff_iff.mpr ?_
      rw [TreeMap.isEmpty_iff_forall_not_mem, TreeMap.isEmpty_iff_forall_not_mem]
      refine forall_congr' (fun d => not_congr ?_)
      rw [hstays, TreeMap.mem_iff_isSome_getElem?, Option.isSome_iff_exists]
      refine exists_congr (fun s => ⟨And.left, fun hd => ⟨hd, ?_⟩⟩)
      rw [Bool.eq_false_iff]
      intro hg
      have hmem := (hin d s).mpr ⟨hd, hg⟩
      rw [hnil] at hmem
      cases hmem
    · have hmap : departed ((order.map (fun (d, s) =>
          (⟨f.event .expired d s.nodeID .offline false, false⟩ : Emit))).map Emit.event) =
          order.map Prod.fst := by
        unfold departed
        rw [List.map_map, List.filter_eq_self.mpr, List.map_map]
        · rfl
        · intro e he
          obtain ⟨p, -, rfl⟩ := mem_map.mp he
          exact decide_eq_true (.inr rfl)
      rw [hmap]
      refine gone_perm ((hp.map _).nodup_iff.mpr ?_) (fun d => ?_)
      · exact (TreeMap.map_fst_toList_eq_keys ▸ TreeMap.nodup_keys).sublist
          (List.filter_sublist.map _)
      · rw [hstays, TreeMap.mem_iff_isSome_getElem?, Option.isSome_iff_exists, List.mem_map]
        constructor
        · rintro ⟨⟨d', s⟩, hp, rfl⟩
          obtain ⟨hd, hg⟩ := (hin _ _).mp hp
          refine ⟨⟨s, hd⟩, fun ⟨s', hd', hg'⟩ => ?_⟩
          obtain rfl := Option.some.inj (hd.symm.trans hd')
          cases hg.symm.trans hg'
        · rintro ⟨⟨s, hd⟩, hno⟩
          refine ⟨(d, s), (hin d s).mpr ⟨hd, ?_⟩, rfl⟩
          rw [← Bool.not_eq_false]
          exact fun hg => hno ⟨s, hd, hg⟩
    · -- with no device before there is none after
      cases hf : f.devices.isEmpty with
      | true =>
        refine .inr (isEmpty_iff_forall_not_mem.mpr fun d hd => ?_)
        obtain ⟨s, hs, -⟩ := (hstays d).mp hd
        exact isEmpty_iff_forall_not_mem.mp hf d (mem_of_getElem? hs)
      | false =>
        cases hl : (f.devices.filter (fun _ s => !gone s)).isEmpty with
        | true => exact .inl (hturns hf hl)
        | false => exact .inr rfl
  · cases hs

theorem isEmpty_insert (t : TreeMap String Session) (d : String) (s : Session) :
    (t.insert d s).isEmpty = false := by simp

theorem Locks.insert (f : Feed) (d : String) (s : Session) {emits : List Emit}
    (he : ∀ e ∈ emits, e.event.userOnline = true ∧ ¬e.event.Removal)
    (hsame : emits = [] → d ∈ f.devices) : f.Locks (f.devices.insert d s) emits := by
  have hnone : departed (emits.map Emit.event) = [] := by
    refine map_eq_nil_iff.mpr (filter_eq_nil_iff.mpr (fun x hx => ?_))
    obtain ⟨e, hin, rfl⟩ := mem_map.mp hx
    simpa using (he e hin).2
  refine ⟨fun e hin _ => ?_, fun hn => ?_, ?_⟩
  · rw [isEmpty_insert, (he e hin).1]
    rfl
  · rw [isEmpty_insert]
    exact (isEmpty_eq_false_iff_exists_mem.mpr ⟨d, hsame hn⟩).symm
  · rw [hnone]
    refine gone_perm nodup_nil (fun x => ?_)
    simp only [not_mem_nil, false_iff, not_and, not_not]
    exact fun hx => mem_insert_iff.mpr (.inr hx)

theorem Locks.erase {f : Feed} {d : String} {s : Session} (hd : f.devices[d]? = some s) (e : Event)
    (hdev : e.deviceID = d) (hr : e.Removal)
    (hflag : e.userOnline = !(f.devices.erase d).isEmpty) :
    f.Locks (f.devices.erase d) [⟨e, true⟩] := by
  refine ⟨fun x hx _ => ?_, fun hn => (nomatch hn), ?_⟩
  · cases mem_singleton.mp hx
    exact hflag
  have hdep : departed [e] = [d] := by simp [departed, hr, hdev]
  rw [map_singleton, hdep]
  refine gone_perm (by simp) (fun x => ?_)
  rw [mem_singleton, mem_erase_iff]
  constructor
  · rintro rfl
    exact ⟨mem_of_getElem? hd, fun hx => hx.1 rfl⟩
  · rintro ⟨hx, hno⟩
    exact Decidable.not_not.mp (fun hne => hno ⟨hne, hx⟩)

theorem step_moves (ht : step f op = some f') : f.Moves op f' := by
  cases op with
  | bind s =>
    simp only [Feed.step] at ht
    split at ht <;> cases ht
    · exact .idle
    refine .lock (.insert f s.deviceID s (fun e he => ?_) (fun he => (nomatch he))) ?_
    · cases mem_singleton.mp he
      exact ⟨rfl, by simp [Event.Removal, event]⟩
    · cases hf : f.devices.isEmpty with
      | true => exact .inl hf
      | false => exact .inr (isEmpty_insert ..)
  | setState d state now =>
    simp only [Feed.step] at ht
    split at ht <;> cases ht
    · exact .idle
    rename_i s hd
    have hin : d ∈ f.devices := mem_of_getElem? hd
    refine .lock (.insert f d _ (fun e he => ?_) (fun _ => hin)) (.inr ?_)
    · split at he
      · cases he
      · cases mem_singleton.mp he
        refine ⟨?_, by simp [Event.Removal, event]⟩
        simp only [event, isEmpty_insert]
        rfl
    · rw [isEmpty_insert]
      exact (isEmpty_eq_false_iff_exists_mem.mpr ⟨d, hin⟩).symm
  | unbind d connID =>
    simp only [Feed.step] at ht
    split at ht
    · cases ht
      exact .idle
    rename_i s hd
    have hf : f.devices.isEmpty = false :=
      isEmpty_eq_false_iff_exists_mem.mpr ⟨d, mem_of_getElem? hd⟩
    split at ht <;> cases ht
    · exact .idle
    refine .lock (.erase hd _ rfl (.inl rfl) rfl) ?_
    cases he : (f.devices.erase d).isEmpty with
    | true => exact .inl ⟨hf, he⟩
    | false => exact .inr hf.symm
  | sweep now ttl order | evictNode nodeID order =>
    simp only [Feed.step] at ht
    exact collect_moves ht And.intro
  | read i =>
    simp only [Feed.step] at ht
    split at ht <;> cases ht
    rename_i hi
    exact .read hi
  | emit i =>
    simp only [Feed.step] at ht
    split at ht <;> cases ht
    rename_i hi
    exact .emit hi

theorem lock_flatten (f : Feed) (devices : TreeMap String Session) (emits : List Emit) :
    (f.lock devices emits).calls.flatten = f.calls.flatten ++ emits := by
  unfold lock
  split <;> simp [*]

theorem split_calls {calls : List (List Emit)} (h : calls[i]? = some call) : ∃ l r,
    calls = l ++ call :: r ∧ (∀ call', calls.set i call' = l ++ call' :: r) ∧
      calls.eraseIdx i = l ++ r := by
  obtain ⟨hi, rfl⟩ := List.getElem?_eq_some_iff.mp h
  refine ⟨calls.take i, calls.drop (i + 1), ?_, fun call' => ?_, eraseIdx_eq_take_drop_succ ..⟩
  · rw [getElem_cons_drop, take_append_drop]
  · rw [set_eq_take_append_cons_drop, if_pos hi]

theorem departed_perm {l m : List Event} (h : l.Perm m) : (departed l).Perm (departed m) :=
  (h.filter _).map _

theorem Balance.moves (h : Balance f) (hm : f.Moves op f') : Balance f' := by
  unfold Balance at h ⊢
  cases hm with
  | idle => exact h
  | lock hl =>
    rw [lock_flatten, map_append, ← append_assoc, departed_append]
    exact h.append hl.gone
  | read hi =>
    obtain ⟨l, r, hcalls, hset, -⟩ := split_calls hi
    refine .trans ?_ h
    rw [hset, hcalls]
    simp only [flatten_append, flatten_cons, map_append, map_cons, departed_append, cons_append,
      departed_online]
    rfl
  | @emit i e es hi =>
    obtain ⟨l, r, hcalls, hset, herase⟩ := split_calls hi
    refine .trans (departed_perm ?_) h
    have hrest : (if es = [] then f.calls.eraseIdx i else f.calls.set i es).flatten =
        l.flatten ++ (es ++ r.flatten) := by
      split
      · rename_i hnil
        simp [herase, hnil]
      · simp [hset]
    rw [hrest, hcalls]
    simp only [flatten_append, flatten_cons, map_append, cons_append, map_cons, append_assoc,
      nil_append]
    exact (perm_middle.symm).append_left _

theorem Flagged.moves (h : Flagged f) (hu : f.Unhurried op) (hm : f.Moves op f') : Flagged f' := by
  cases hm with
  | idle => exact h
  | @lock devices emits hl turns =>
    have hcalls : ∀ call ∈ (f.lock devices emits).calls, call ∈ f.calls ∨ call = emits := by
      intro call hc
      unfold lock at hc
      split at hc
      · exact .inl hc
      · simpa using hc
    refine ⟨fun call hc e he hr => ?_, fun hnil => ?_⟩
    · rcases hcalls call hc with hc | rfl
      · rcases turns with hturn | hsame
        · rw [hu hturn call hc e he] at hr
          cases hr
        · rw [h.flags call hc e he hr, online, online, ← hsame]
          rfl
      · exact hl.flags e he hr
    · unfold lock at hnil
      split at hnil
      · rename_i hemits
        intro e he
        rw [h.last hnil e he, online, online, ← hl.same hemits]
        rfl
      · simp at hnil
  | @read i e es hi =>
    obtain ⟨l, r, hcalls, hset, -⟩ := split_calls hi
    refine ⟨fun call hc x hx hr => ?_, fun hnil => ?_⟩
    · simp only [hset, mem_append, mem_cons] at hc
      have hold : ∀ call, call ∈ l ∨ call = ⟨e, false⟩ :: es ∨ call ∈ r → call ∈ f.calls :=
        fun call hin => by simpa [hcalls] using hin
      rcases hc with hc | rfl | hc
      · exact h.flags call (hold call (.inl hc)) x hx hr
      · rcases mem_cons.mp hx with rfl | hx
        · rfl
        · exact h.flags _ (hold _ (.inr (.inl rfl))) x (mem_cons_of_mem _ hx) hr
      · exact h.flags call (hold call (.inr (.inr hc))) x hx hr
    · simp [hset] at hnil
  | @emit i e es hi =>
    obtain ⟨l, r, hcalls, hset, herase⟩ := split_calls hi
    have hin : ∀ call ∈ f.calls, ∀ x ∈ call, x.ready = true → x.event.userOnline = f.online :=
      h.flags
    simp only [hcalls, mem_append, mem_cons] at hin
    refine ⟨fun call hc x hx hr => ?_, fun _ x hx => ?_⟩
    · dsimp only at hc
      split at hc
      · rw [herase, mem_append] at hc
        exact hin call (hc.imp_right .inr) x hx hr
      · simp only [hset, mem_append, mem_cons] at hc
        rcases hc with hc | rfl | hc
        · exact hin call (.inl hc) x hx hr
        · exact hin _ (.inr (.inl rfl)) x (mem_cons_of_mem _ hx) hr
        · exact hin call (.inr (.inr hc)) x hx hr
    · rw [getLast?_concat] at hx
      cases hx
      exact hin _ (.inr (.inl rfl)) ⟨e, true⟩ mem_cons_self rfl

/-- In every run the devices removed are those of the unbound and expired events, each once. In
the unhurried ones the last event tells whether the user is online. -/
theorem presence_events_converge (userID : String) {ops : List FeedOp} {f : Feed}
    (hr : Run Step always { userID } ops f) (hdone : f.calls = []) :
    (departed f.events).Perm f.removed ∧ (Run Step Unhurried { userID } ops f →
      ∀ e ∈ f.events.getLast?, e.userOnline = f.online) := by
  constructor
  · have hb := hr.invariant Balance (.refl _) (fun _ _ _ h _ hs => h.moves (step_moves hs))
    simpa [Balance, hdone] using hb
  · intro hq
    have hf := hq.invariant Flagged ⟨fun _ hc => (nomatch hc), fun _ _ he => (nomatch he)⟩
      (fun _ _ _ h hu hs => h.moves hu (step_moves hs))
    exact hf.last hdone

def phone : Session := ⟨"u", "phone", "n", "", 1, none, 0, 0⟩

/-- The phone is bound again before the events of its first binding are out. -/
theorem presence_events_converge_rebound : ∃ f, Run Step Unhurried { userID := "u" }
      [.bind phone, .bind phone, .emit 1, .emit 0, .unbind "phone" none, .emit 0] f ∧
    (departed f.events).Perm f.removed ∧ ∀ e ∈ f.events.getLast?, e.userOnline = f.online := by
  refine Run.shown (fun f => f.calls = []) (by decide +kernel) ?_
  intro f hr hdone
  obtain ⟨hgone, hlast⟩ := presence_events_converge "u" (hr.mono fun _ _ _ => trivial) hdone
  exact ⟨hgone, hlast hr⟩

/-- The event of an unbind that is emitted after that of a later bind is the last, and says
that the user is offline. -/
theorem late_unbound_event_is_last : ∃ f, Run Step always { userID := "u" }
      [.bind phone, .emit 0, .unbind "phone" none, .bind phone, .emit 1, .emit 0] f ∧
    f.calls = [] ∧ f.online = true ∧ f.events.getLast?.any (!·.userOnline) = true :=
  Run.found _ (by decide +kernel)

end Feed
end Boltq.Presence
