import Boltq.QueuePlane.Twins

namespace Boltq.QueuePlane
open Lib Std List PriorityQueue TreeMap Option

structure FullState where
  queues : TreeMap String (List Held)
  deadLetters : TreeMap String (List Held)
  delayed : List Held
  pending : TreeMap String PendingMessage
  durableSubs : TreeMap String (TreeSet String)
  exchanges : TreeMap String Exchange

inductive Place where
  | queue (name : String) (i : Nat)
  | deadLetter (name : String) (i : Nat)
  | delayed (i : Nat)
  | pending (id : String)
  deriving DecidableEq

namespace FullState

section
variable (s : FullState)

def lookup : Place → Option Held
  | .queue name i => ((s.queues[name]?).getD [])[i]?
  | .deadLetter name i => ((s.deadLetters[name]?).getD [])[i]?
  | .delayed i => s.delayed[i]?
  | .pending id => (s.pending[id]?).map PendingMessage.held

def placed : List (Place × Held) :=
  s.queues.toList.flatMap (fun x => x.2.mapIdx (fun i h => (Place.queue x.1 i, h))) ++
    s.deadLetters.toList.flatMap (fun x => x.2.mapIdx (fun i h => (Place.deadLetter x.1 i, h))) ++
    s.delayed.mapIdx (fun i h => (Place.delayed i, h)) ++
    s.pending.toList.map (fun x => (Place.pending x.1, x.2.held))

def places : List Place := s.placed.map Prod.fst

def remake (f : Place → Held → Held) : FullState where
  queues := s.queues.map (fun name hs => hs.mapIdx (fun i h => f (.queue name i) h))
  deadLetters := s.deadLetters.map (fun name hs => hs.mapIdx (fun i h => f (.deadLetter name i) h))
  delayed := s.delayed.mapIdx (fun i h => f (.delayed i) h)
  pending := s.pending.map (fun id pm => { pm with held := f (.pending id) pm.held })
  durableSubs := s.durableSubs
  exchanges := s.exchanges

def roundTrip (b : Broker) (made : Nat) : FullState :=
  s.remake (fun p h => ⟨made + s.places.idxOf p, b.encode h⟩)

def Apart : Prop :=
  ∀ x ∈ s.placed, ∀ y ∈ s.placed, x.2.ref = y.2.ref → x.1 = y.1
  deriving Decidable

end

end FullState

namespace Broker

def snapshotFullState (b : Broker) : FullState where
  queues := (b.queues.filter (fun _ q => q.drain ≠ [])).map (fun _ q => q.drain)
  deadLetters := b.deadLetters.filter (fun _ dl => dl ≠ [])
  delayed := b.delayed
  pending := b.pending
  durableSubs := b.durableSubs
  exchanges := b.exchanges

def restoreFullState (b : Broker) (s : FullState) : Broker :=
  { b with
    queues := s.queues.map (fun _ hs =>
      .refill Held.level numPriorityLevels (nextPowerOfTwo b.queueCap) hs)
    deadLetters := s.deadLetters.map (fun _ hs =>
      hs.foldl (fun dl h => if dl.length < nextPowerOfTwo b.queueCap then dl ++ [h] else dl) [])
    delayed := s.delayed
    pending := s.pending
    durableSubs := s.durableSubs
    exchanges := ((∅ : TreeMap String Exchange).insert "" defaultExchange).insertMany s.exchanges.toList
    nextRef := s.placed.foldl (fun n x => max n (x.2.ref + 1)) b.nextRef }

end Broker

namespace FullState
variable {s : FullState} {p : Place} {h : Held}

theorem mem_mapIdx_table {t : TreeMap String (List Held)} {f : String → Nat → Place}
    {x : Place × Held} : x ∈ t.toList.flatMap (fun y => y.2.mapIdx (fun i h => (f y.1 i, h))) ↔
      ∃ name i, x.1 = f name i ∧ ((t[name]?).getD [])[i]? = some x.2 := by
  simp only [mem_flatMap, mem_mapIdx]
  constructor
  · rintro ⟨y, hy, i, hi, rfl⟩
    refine ⟨y.1, i, rfl, ?_⟩
    rw [TreeMap.mem_toList_iff_getElem?_eq_some.mp hy]
    exact List.getElem?_eq_getElem hi
  · rintro ⟨name, i, hx, hi⟩
    cases ht : t[name]? with
    | none =>
      rw [ht] at hi
      cases hi
    | some hs =>
      rw [ht, Option.getD_some] at hi
      obtain ⟨hlt, hget⟩ := List.getElem?_eq_some_iff.mp hi
      exact ⟨(name, hs), TreeMap.mem_toList_iff_getElem?_eq_some.mpr ht, i, hlt, by
        rw [hget, ← hx]⟩

theorem mem_placed : (p, h) ∈ s.placed ↔ s.lookup p = some h := by
  unfold placed
  rw [List.mem_append, List.mem_append, List.mem_append, mem_mapIdx_table, mem_mapIdx_table]
  simp only [List.mem_mapIdx, List.mem_map, Prod.mk.injEq]
  constructor
  · rintro (((⟨name, i, rfl, hi⟩ | ⟨name, i, rfl, hi⟩) | ⟨i, hi, rfl, rfl⟩) | ⟨x, hx, rfl, rfl⟩)
    · exact hi
    · exact hi
    · exact List.getElem?_eq_getElem hi
    · show (s.pending[x.1]?).map _ = _
      rw [TreeMap.mem_toList_iff_getElem?_eq_some.mp hx]
      rfl
  · intro hl
    cases p with
    | queue name i => exact .inl (.inl (.inl ⟨name, i, rfl, hl⟩))
    | deadLetter name i => exact .inl (.inl (.inr ⟨name, i, rfl, hl⟩))
    | delayed i =>
      obtain ⟨hlt, hget⟩ := List.getElem?_eq_some_iff.mp hl
      exact .inl (.inr ⟨i, hlt, rfl, hget⟩)
    | pending id =>
      obtain ⟨pm, hpm, rfl⟩ := Option.map_eq_some_iff.mp hl
      exact .inr ⟨(id, pm), TreeMap.mem_toList_iff_getElem?_eq_some.mpr hpm, rfl, rfl⟩

theorem mem_places (hl : s.lookup p = some h) : p ∈ s.places :=
  mem_map_of_mem (f := Prod.fst) (mem_placed.mpr hl)

theorem getD_mapIdx {t : TreeMap String (List Held)} {f : String → Nat → Held → Held}
    (name : String) : ((t.map (fun name hs => hs.mapIdx (f name)))[name]?).getD [] =
      ((t[name]?).getD []).mapIdx (f name) := by
  rw [TreeMap.getElem?_map]
  cases t[name]? <;> rfl

theorem lookup_remake (f : Place → Held → Held) : (s.remake f).lookup p = (s.lookup p).map (f p) := by
  cases p with
  | queue name i =>
    show (((s.remake f).queues[name]?).getD [])[i]? = _
    rw [remake, getD_mapIdx, getElem?_mapIdx]
    rfl
  | deadLetter name i =>
    show (((s.remake f).deadLetters[name]?).getD [])[i]? = _
    rw [remake, getD_mapIdx, getElem?_mapIdx]
    rfl
  | delayed i => exact getElem?_mapIdx
  | pending id =>
    show ((s.remake f).pending[id]?).map _ = ((s.pending[id]?).map _).map _
    rw [remake, TreeMap.getElem?_map, Option.map_map, Option.map_map]
    rfl

inductive Name where
  | held (p : Place)
  | next (i : Nat)
  | gone (ref : Nat)
  deriving DecidableEq

def nameOf (s : FullState) (made ref : Nat) : Name :=
  match s.placed.find? (fun x => x.2.ref = ref) with
  | some x => .held x.1
  | none => if made ≤ ref then .next (ref - made) else .gone ref

theorem nameOf_injective (s : FullState) (made : Nat) : (s.nameOf made).Injective := by
  have hfound : ∀ {ref x}, s.placed.find? (fun x => x.2.ref = ref) = some x →
      s.lookup x.1 = some x.2 ∧ x.2.ref = ref := fun hx =>
    ⟨mem_placed.mp (mem_of_find?_eq_some hx), of_decide_eq_true (find?_some hx :)⟩
  intro ref ref' he
  unfold nameOf at he
  cases hx : s.placed.find? (fun x => x.2.ref = ref) with
  | some x =>
    cases hx' : s.placed.find? (fun x => x.2.ref = ref') with
    | some x' =>
      rw [hx, hx'] at he
      obtain ⟨hl, hr⟩ := hfound hx
      obtain ⟨hl', hr'⟩ := hfound hx'
      rw [Name.held.inj he, hl'] at hl
      rw [← hr, ← hr', some.inj hl]
    | none =>
      rw [hx, hx'] at he
      dsimp only at he
      split at he <;> cases he
  | none =>
    cases hx' : s.placed.find? (fun x => x.2.ref = ref') with
    | some x' =>
      rw [hx, hx'] at he
      dsimp only at he
      split at he <;> cases he
    | none =>
      rw [hx, hx'] at he
      dsimp only at he
      split at he
      · split at he
        · have := Name.next.inj he
          omega
        · cases he
      · split at he
        · cases he
        · exact Name.gone.inj he

theorem Apart.nameOf (ha : s.Apart) (hl : s.lookup p = some h) (made : Nat) :
    s.nameOf made h.ref = .held p := by
  have hmem := mem_placed.mpr hl
  unfold FullState.nameOf
  cases hx : s.placed.find? (fun x => x.2.ref = h.ref) with
  | none => exact absurd rfl (fun he => find?_eq_none.mp hx _ hmem (decide_eq_true he))
  | some x =>
    have href : x.2.ref = h.ref := of_decide_eq_true (find?_some hx :)
    exact congrArg Name.held (ha x (mem_of_find?_eq_some hx) _ hmem href)

theorem nameOf_next (hlt : ∀ x ∈ s.placed, x.2.ref < made) (i : Nat) :
    s.nameOf made (made + i) = .next i := by
  have hnone : s.placed.find? (fun x => x.2.ref = made + i) = none := by
    rw [find?_eq_none]
    intro x hx href
    have hxlt := hlt x hx
    have hxeq : x.2.ref = made + i := of_decide_eq_true href
    omega
  unfold nameOf
  rw [hnone, if_pos (Nat.le_add_right _ _), Nat.add_sub_cancel_left]

theorem lookup_roundTrip (b : Broker) (made : Nat) : (s.roundTrip b made).lookup p =
      (s.lookup p).map (fun h => ⟨made + s.places.idxOf p, b.encode h⟩) := lookup_remake _

theorem roundTrip_apart (s : FullState) (b : Broker) (made : Nat) : (s.roundTrip b made).Apart := by
  have hplace : ∀ x ∈ (s.roundTrip b made).placed,
      x.1 ∈ s.places ∧ x.2.ref = made + s.places.idxOf x.1 := by
    intro x hx
    have hl := mem_placed.mp (show (x.1, x.2) ∈ _ from hx)
    rw [lookup_roundTrip] at hl
    obtain ⟨h, hh, he⟩ := map_eq_some_iff.mp hl
    exact ⟨mem_places hh, congrArg Held.ref he.symm⟩
  intro x hx y hy href
  obtain ⟨hxm, hxr⟩ := hplace x hx
  obtain ⟨_, hyr⟩ := hplace y hy
  have hidx : s.places.idxOf x.1 = s.places.idxOf y.1 := by omega
  exact (idxOf_inj hxm).mp hidx

end FullState

theorem foldl_bounded (cap : Nat) (hs dl : List Held) :
    hs.foldl (fun dl h => if dl.length < cap then dl ++ [h] else dl) dl =
      dl ++ hs.take (cap - dl.length) := by
  induction hs generalizing dl with
  | nil => simp
  | cons h hs ih =>
    rw [foldl_cons, ih]
    split
    · rename_i hlt
      obtain ⟨n, hn⟩ : ∃ n, cap - dl.length = n + 1 := ⟨cap - dl.length - 1, by omega⟩
      have hrest : cap - (dl ++ [h]).length = n := by
        rw [length_append, length_singleton]
        omega
      rw [hrest, hn, take_succ_cons, append_assoc]
      rfl
    · rename_i hge
      have hzero : cap - dl.length = 0 := by omega
      rw [hzero, take_zero, take_zero]

theorem le_foldl_max (xs : List (Place × Held)) (n : Nat) :
    n ≤ xs.foldl (fun n x => max n (x.2.ref + 1)) n ∧
      ∀ x ∈ xs, x.2.ref < xs.foldl (fun n x => max n (x.2.ref + 1)) n := by
  induction xs generalizing n with
  | nil => exact ⟨Nat.le_refl n, forall_mem_nil _⟩
  | cons y xs ih =>
    obtain ⟨hle, hall⟩ := ih (max n (y.2.ref + 1))
    rw [foldl_cons]
    refine ⟨by omega, fun x hx => ?_⟩
    rcases mem_cons.mp hx with rfl | hx
    · omega
    · exact hall x hx

namespace Broker
variable {b b₀ b₁ : Broker} {s : FullState}

theorem restore_queue (b : Broker) (s : FullState) (name : String) :
    (b.restoreFullState s).queue name =
      .refill Held.level numPriorityLevels (nextPowerOfTwo b.queueCap) ((s.queues[name]?).getD []) := by
  unfold queue restoreFullState
  rw [TreeMap.getElem?_map]
  cases s.queues[name]? <;> rfl

theorem restore_deadLetters (b : Broker) (s : FullState) (key : String) :
    (b.restoreFullState s).deadLetters[key]? =
      (s.deadLetters[key]?).map (fun hs => hs.take (nextPowerOfTwo b.queueCap)) := by
  show (s.deadLetters.map _)[key]? = _
  rw [TreeMap.getElem?_map]
  congr 1
  funext hs
  rw [foldl_bounded, nil_append]
  rfl

theorem ref_lt_restore (b : Broker) (hl : s.lookup p = some h) :
    h.ref < (b.restoreFullState s).nextRef :=
  (le_foldl_max s.placed b.nextRef).2 _ (FullState.mem_placed.mpr hl)

theorem restore_exchange (b : Broker) (s : FullState) (name : String) :
    (b.restoreFullState s).exchanges[name]? =
      ((s.exchanges[name]?) <|> (if name = "" then some defaultExchange else none)) := by
  unfold restoreFullState
  dsimp only
  cases hx : s.exchanges[name]? with
  | some x =>
    exact getElem?_insertMany_list_of_mem ReflCmp.compare_self distinct_keys_toList
      (mem_toList_iff_getElem?_eq_some.mpr hx)
  | none =>
    rw [getElem?_insertMany_list_of_contains_eq_false]
    · by_cases hn : name = ""
      · rw [hn, getElem?_insert_self]
        rfl
      · rw [getElem?_insert_other _ hn, getElem?_emptyc]
        simp [hn]
    · rw [map_fst_toList_eq_keys, contains_eq_mem, decide_eq_false_iff_not,
        TreeMap.mem_keys, mem_iff_isSome_getElem?, hx]
      exact Bool.false_ne_true

theorem Formed.restore (hb : Formed b) (s : FullState) : Formed (b.restoreFullState s) where
  queues := by
    intro name
    rw [restore_queue]
    refine ⟨sorted_refill _, fun h hh => ?_⟩
    obtain ⟨i, hi⟩ := mem_iff_getElem?.mp (mem_refill hh)
    exact ref_lt_restore b (p := .queue name i) hi
  deadLetters := by
    intro key dl hk
    rw [restore_deadLetters] at hk
    obtain ⟨hs, hhs, rfl⟩ := Option.map_eq_some_iff.mp hk
    refine ⟨length_take_le _ _, fun h hh => ?_⟩
    obtain ⟨i, hi⟩ := mem_iff_getElem?.mp (mem_of_mem_take hh)
    refine ref_lt_restore b (p := .deadLetter key i) ?_
    show ((s.deadLetters[key]?).getD [])[i]? = some h
    rw [hhs]
    exact hi
  delayed := by
    intro h hh
    obtain ⟨i, hi⟩ := mem_iff_getElem?.mp hh
    exact ref_lt_restore b (p := .delayed i) hi
  pending := by
    intro id pm hp
    exact ref_lt_restore b (p := .pending id) (congrArg (Option.map PendingMessage.held) hp)
  retries := fun r hr => hb.retries r (Nat.le_trans (le_foldl_max s.placed b.nextRef).1 hr)
  exchanges := by
    rw [TreeMap.mem_iff_isSome_getElem?, restore_exchange, if_pos rfl]
    cases s.exchanges[""]? <;> rfl

inductive Reachable : Broker → Prop where
  | new (cfg : Config) (store : Option (List WALRecord)) (spill : TreeMap String (List Message)) :
      Reachable (.new cfg store spill)
  | recover (cfg : Config) (e : Env) (records : List WALRecord)
      (spill : TreeMap String (List Message)) : Reachable (.recover cfg e records spill)
  | step {b b' : Broker} (op : Op) (before : Reachable b) (taken : b.Step op b') : Reachable b'
  | restore {b : Broker} (s : FullState) (b₁ : Broker) (before : Reachable b) :
      Reachable (b.restoreFullState (s.roundTrip b₁ b.nextRef))

theorem Reachable.formed (h : Reachable b) : Formed b := by
  induction h with
  | new cfg store spill => exact .new cfg store spill
  | recover cfg e records spill => exact .recover cfg e records spill
  | step op before taken ih => exact ih.step taken
  | restore s b₁ before ih => exact ih.restore _

theorem Reachable.run (h : Reachable b) (hr : Run Step always b ops b') : Reachable b' :=
  hr.invariant Reachable h (fun _ op _ hi _ hs => hi.step op hs)

theorem snapshot_queue (b : Broker) (name : String) :
    (b.snapshotFullState.queues[name]?).getD [] = (b.queue name).drain := by
  show (((b.queues.filter _).map _)[name]?).getD [] = _
  unfold queue
  rw [TreeMap.getElem?_map, TreeMap.getElem?_filter']
  cases b.queues[name]? with
  | none => exact (drain_new _ _).symm
  | some q =>
    rw [Option.filter_some, Option.getD_some]
    split
    · rfl
    rename_i hnil
    rw [decide_eq_true_eq, not_not] at hnil
    exact hnil.symm

theorem snapshot_deadLetter (b : Broker) (key : String) :
    (b.snapshotFullState.deadLetters[key]?).getD [] = (b.deadLetters[key]?).getD [] := by
  show ((b.deadLetters.filter _)[key]?).getD [] = _
  rw [getElem?_filter']
  cases b.deadLetters[key]? with
  | none => rfl
  | some dl =>
    rw [filter_some]
    split
    · rfl
    rename_i hnil
    rw [decide_eq_true_eq, not_not] at hnil
    exact hnil.symm

theorem Formed.lookup (hb : Formed b) (hl : b.snapshotFullState.lookup p = some h) :
    h.ref < b.nextRef := by
  cases p with
  | queue name i =>
    simp only [FullState.lookup] at hl
    rw [snapshot_queue] at hl
    exact (hb.queues name).made h (mem_of_getElem? hl)
  | deadLetter name i =>
    simp only [FullState.lookup] at hl
    rw [snapshot_deadLetter] at hl
    cases hk : b.deadLetters[name]? with
    | none =>
      rw [hk] at hl
      cases hl
    | some dl =>
      rw [hk] at hl
      exact (hb.deadLetters hk).2 h (mem_of_getElem? hl)
  | delayed i => exact hb.delayed h (mem_of_getElem? hl)
  | pending id =>
    obtain ⟨pm, hpm, rfl⟩ := map_eq_some_iff.mp hl
    exact hb.pending hpm

def transfer (b b₁ b₀ : Broker) : Broker :=
  b₀.restoreFullState (b.snapshotFullState.roundTrip b₁ b₀.nextRef)

def nameAt (b : Broker) : Nat → FullState.Name := b.snapshotFullState.nameOf b.nextRef

def nameIn (b b₁ b₀ : Broker) : Nat → FullState.Name :=
  (b.snapshotFullState.roundTrip b₁ b₀.nextRef).nameOf (b.transfer b₁ b₀).nextRef

theorem seen_transfer (h₀ : Formed b₀) (ha : b.snapshotFullState.Apart)
    (hl : b.snapshotFullState.lookup p = some h) (hcount : b₁.retryOf h = b.retryOf h) :
    b.seen b.nameAt h = (b.transfer b₁ b₀).seen (b.nameIn b₁ b₀)
      ⟨b₀.nextRef + b.snapshotFullState.places.idxOf p, b₁.encode h⟩ := by
  have hl' : (b.snapshotFullState.roundTrip b₁ b₀.nextRef).lookup p =
      some ⟨b₀.nextRef + b.snapshotFullState.places.idxOf p, b₁.encode h⟩ := by
    rw [FullState.lookup_roundTrip, hl, map_some]
  have hname : b.nameAt h.ref = .held p := ha.nameOf hl _
  have hname' : b.nameIn b₁ b₀ (b₀.nextRef + b.snapshotFullState.places.idxOf p) = .held p :=
    (FullState.roundTrip_apart _ b₁ b₀.nextRef).nameOf hl' _
  have hnone : b₀.retries[b₀.nextRef + b.snapshotFullState.places.idxOf p]? = none :=
    h₀.retries _ (Nat.le_add_right _ _)
  unfold seen
  rw [hname, hname']
  show (_, ({ h.msg with retry := b.retryOf h } : Message)) = (_, { h.msg with
    retry := (b₀.retries[b₀.nextRef + b.snapshotFullState.places.idxOf p]?).getD (b₁.retryOf h) })
  rw [hnone, hcount]
  rfl

theorem map_seen_transfer (b₁ : Broker) (h₀ : Formed b₀) (ha : b.snapshotFullState.Apart)
    (hcount : ∀ x ∈ b.snapshotFullState.placed, b₁.retryOf x.2 = b.retryOf x.2)
    {hs : List Held} {f : Nat → Place} (hf : ∀ i h, hs[i]? = some h →
      b.snapshotFullState.lookup (f i) = some h) : hs.map (b.seen b.nameAt) = (hs.mapIdx (fun i h =>
      ⟨b₀.nextRef + b.snapshotFullState.places.idxOf (f i), b₁.encode h⟩)).map
        ((b.transfer b₁ b₀).seen (b.nameIn b₁ b₀)) := by
  refine ext_getElem? (fun i => ?_)
  rw [getElem?_map, getElem?_map, getElem?_mapIdx]
  cases hi : hs[i]? with
  | none => rfl
  | some h =>
    have hl := hf i h hi
    exact congrArg some (seen_transfer h₀ ha hl (hcount _ (FullState.mem_placed.mpr hl)))

theorem map_seen_refill (b : Broker) (ρ : Nat → FullState.Name) (cap : Nat) (hs : List Held) :
    (refill Held.level numPriorityLevels cap hs).map (b.seen ρ) =
      .refill (fun x => clampPriority x.2.priority) numPriorityLevels cap (hs.map (b.seen ρ)) := by
  have hkey : ∀ h : Held, clampPriority (b.seen ρ h).2.priority = h.level := fun _ => rfl
  exact map_refill (b.seen ρ) hkey _ _ _

theorem transfer_twins (hb : Formed b) (h₀ : Formed b₀) (ha : b.snapshotFullState.Apart)
    (hcount : ∀ x ∈ b.snapshotFullState.placed, b₁.retryOf x.2 = b.retryOf x.2)
    (hstore : b₀.store.isSome = b.store.isSome) (hmax : b₀.maxRetry = b.maxRetry)
    (hcap : b₀.queueCap = b.queueCap) {reload : Prop}
    (hspill : reload → ∀ name : String, name ∉ b.spill ∧ name ∉ b₀.spill) :
    Twins reload b.nameAt (b.nameIn b₁ b₀) b (b.transfer b₁ b₀) where
  queues := by
    intro name
    have hlist : (b.queue name).drain.map (b.seen b.nameAt) = _ :=
      map_seen_transfer b₁ h₀ ha hcount (f := .queue name) (fun i h hi => by
        show ((b.snapshotFullState.queues[name]?).getD [])[i]? = some h
        rw [snapshot_queue]
        exact hi)
    have hdecoded : (((b.snapshotFullState.roundTrip b₁ b₀.nextRef).queues[name]?).getD []) = _ :=
      FullState.getD_mapIdx name
    rw [← (hb.queues name).sorted.refill_drain, transfer, restore_queue, hcap, map_seen_refill,
      map_seen_refill, hdecoded, snapshot_queue, hlist]
    rfl
  deadLetters := by
    intro name
    have hlist : (b.deadLetter name).map (b.seen b.nameAt) = _ :=
      map_seen_transfer b₁ h₀ ha hcount (f := .deadLetter (deadLetterName name))
        (fun i h hi => by
          show ((b.snapshotFullState.deadLetters[deadLetterName name]?).getD [])[i]? = some h
          rw [snapshot_deadLetter]
          exact hi)
    have hdecoded : (((b.snapshotFullState.roundTrip b₁ b₀.nextRef).deadLetters[
        deadLetterName name]?).getD []) = _ := FullState.getD_mapIdx (deadLetterName name)
    have htake : (b.transfer b₁ b₀).deadLetter name =
        (((b.snapshotFullState.roundTrip b₁ b₀.nextRef).deadLetters[deadLetterName name]?).getD
          []).take (nextPowerOfTwo b.queueCap) := by
      unfold deadLetter transfer
      rw [restore_deadLetters, hcap]
      cases (b.snapshotFullState.roundTrip b₁ b₀.nextRef).deadLetters[deadLetterName name]? with
      | none => exact take_nil.symm
      | some dl => rfl
    have hroom : (b.deadLetter name).length ≤ nextPowerOfTwo b.queueCap := by
      unfold deadLetter
      cases hk : b.deadLetters[deadLetterName name]? with
      | none => exact Nat.zero_le _
      | some dl => exact (hb.deadLetters hk).1
    rw [hlist, htake, hdecoded, snapshot_deadLetter, take_of_length_le]
    · rfl
    · rw [length_mapIdx]
      exact hroom
  pending := by
    intro id
    have hdecoded : (b.transfer b₁ b₀).pending[id]? = (b.pending[id]?).map (fun pm => { pm with
        held := ⟨b₀.nextRef + b.snapshotFullState.places.idxOf (.pending id), b₁.encode pm.held⟩ }) :=
      TreeMap.getElem?_map
    rw [hdecoded]
    cases hp : b.pending[id]? with
    | none => rfl
    | some pm =>
      have hl : b.snapshotFullState.lookup (.pending id) = some pm.held :=
        congrArg (Option.map PendingMessage.held) hp
      have hseen := seen_transfer h₀ ha hl (hcount _ (FullState.mem_placed.mpr hl))
      exact congrArg (fun x => some (x, pm.queueName)) hseen
  delayed := map_seen_transfer b₁ h₀ ha hcount (f := .delayed) (fun i h hi => hi)
  spill := fun hr name => by
    obtain ⟨hn, hn'⟩ := hspill hr name
    rw [TreeMap.getElem?_eq_none hn]
    exact (TreeMap.getElem?_eq_none hn').symm
  reloads := fun hr name hn => absurd hn (hspill hr name).1
  exchanges := by
    intro name
    rw [transfer, restore_exchange]
    show _ = ((b.exchanges[name]?) <|> _)
    cases hx : b.exchanges[name]? with
    | some x => rfl
    | none =>
      have hn : name ≠ "" := by
        rintro rfl
        have hd := hb.exchanges
        rw [TreeMap.mem_iff_isSome_getElem?, hx] at hd
        cases hd
      rw [if_neg hn]
      rfl
  durableSubs := rfl
  stored := hstore.symm
  maxRetry := hmax.symm
  queueCap := hcap.symm
  fresh := by
    intro i
    have hlt : ∀ x ∈ b.snapshotFullState.placed, x.2.ref < b.nextRef :=
      fun x hx => hb.lookup (FullState.mem_placed.mp (show (x.1, x.2) ∈ _ from hx))
    exact (FullState.nameOf_next hlt i).trans
      (FullState.nameOf_next (le_foldl_max _ b₀.nextRef).2 i).symm

end Broker

namespace Replica
variable {r r' u : Replica} {ev : Event} {ν : Type} {ρ ρ' : Nat → ν} {reload : Prop}

def Continues : Event → Prop
  | .apply _ _ (.ok cmd) =>
    match cmd with
    | .publish _ _ | .publishTopic _ _ | .publishExchange _ _ _ | .consume _ | .ack _ | .nack _
    | .promote _ => True
    | _ => False
  | .apply _ _ (.error _) => True
  | .maintain _ => True

instance (ev : Event) : Decidable (Continues ev) := by
  induction ev using Event.casesOn with
  | apply e ids entry =>
    induction entry using Except.casesOn with
    | error _ => exact .isTrue trivial
    | ok cmd => induction cmd using RaftCommand.casesOn <;> dsimp only [Continues] <;> infer_instance
  | maintain e => exact .isTrue trivial

def holding (b : Broker) : Replica := { fsm := { broker := b } }

structure Paired (reload : Prop) (ρ ρ' : Nat → ν) (r r' : Replica) : Prop where
  twins : Broker.Twins reload ρ ρ' r.fsm.broker r'.fsm.broker
  formed : r.fsm.broker.Formed
  formed' : r'.fsm.broker.Formed
  given : r'.given = r.given

theorem applyCommand_twins (hρ : ρ.Injective) (hρ' : ρ'.Injective) {f f' : BrokerFSM}
    (hb : Broker.Twins reload ρ ρ' f.broker f'.broker) (hf : f.broker.Formed)
    (hf' : f'.broker.Formed) (e : Env) (ids : List String)
    (hc : Continues (.apply e ids (.ok cmd))) :
    Broker.Twins reload ρ ρ' (f.applyCommand e ids cmd).1.broker (f'.applyCommand e ids cmd).1.broker ∧
      (f.applyCommand e ids cmd).1.broker.Formed ∧ (f'.applyCommand e ids cmd).1.broker.Formed ∧
      (isConsume (.ok cmd) = true →
        (f'.applyCommand e ids cmd).2.message = (f.applyCommand e ids cmd).2.message) := by
  cases cmd with
  | publish topic m =>
    simp only [BrokerFSM.applyCommand, hb.shows.hasMessage m.id]
    split
    · exact ⟨hb, hf, hf', nofun⟩
    · exact ⟨(hb.publish hf hf' e topic m).1, hf.publish e topic m, hf'.publish e topic m, nofun⟩
  | publishTopic topic m =>
    exact ⟨hb.publishTopic hf hf' e topic m, hf.publishTopic e topic m, hf'.publishTopic e topic m,
      nofun⟩
  | publishExchange exchange routingKey m =>
    exact ⟨hb.publishExchange hf hf' e ids exchange routingKey m,
      hf.publishExchange e ids exchange routingKey m, hf'.publishExchange e ids exchange routingKey m,
      nofun⟩
  | consume topic =>
    obtain ⟨htwins, hgot⟩ := hb.tryConsume e topic
    exact ⟨htwins, hf.tryConsume e topic, hf'.tryConsume e topic, fun _ => hgot.symm⟩
  | ack id => exact ⟨hb.ack e id, hf.ack e id, hf'.ack e id, nofun⟩
  | nack id =>
    exact ⟨hb.retryPending hρ hρ' id _, hf.retryPending id _, hf'.retryPending id _, nofun⟩
  | promote id =>
    simp only [BrokerFSM.applyCommand, hb.shows.hasDelayedMessage id]
    split
    · exact ⟨hb.promoteDelayed e id, hf.promoteDelayed e id, hf'.promoteDelayed e id, nofun⟩
    · exact ⟨hb, hf, hf', nofun⟩
  | purge topic => exact hc.elim
  | purgeDeadLetters topic => exact hc.elim
  | subscribe topic sub => exact hc.elim
  | unsubscribe topic sub => exact hc.elim
  | exchangeDeclare name type durable => exact hc.elim
  | exchangeDelete name => exact hc.elim
  | bindQueue binding => exact hc.elim
  | unbindQueue exchange queue bindingKey => exact hc.elim
  | control cmd => exact hc.elim
  | unknown type => exact hc.elim

theorem needs_eq (h : Paired reload ρ ρ' r r') (entry : Except String RaftCommand) :
    needs r'.fsm.broker entry = needs r.fsm.broker entry := by
  unfold needs Broker.routed
  split
  · rw [h.twins.exchanges]
  · rfl

theorem Paired.step (hρ : ρ.Injective) (hρ' : ρ'.Injective) (h : Paired reload ρ ρ' r r')
    (hc : Continues ev) (hreload : ∀ e, ev = .maintain e → reload) (hs : r.Step ev u) :
    ∃ u', r'.Step ev u' ∧ Paired reload ρ ρ' u u' := by
  cases ev with
  | maintain e =>
    cases hs
    exact ⟨_, rfl, h.twins.maintain h.formed h.formed' (hreload e rfl) e, h.formed.maintain e,
      h.formed'.maintain e, h.given⟩
  | apply e ids entry =>
    simp only [Step, Replica.step] at hs ⊢
    rw [needs_eq h entry]
    split at hs
    · rename_i hids
      rw [if_pos hids]
      cases hs
      cases entry with
      | error err => exact ⟨_, rfl, h.twins, h.formed, h.formed', h.given⟩
      | ok cmd =>
        obtain ⟨htwins, hformed, hformed', hgot⟩ :=
          applyCommand_twins hρ hρ' h.twins h.formed h.formed' e ids hc
        refine ⟨_, rfl, htwins, hformed, hformed', ?_⟩
        split
        · rename_i hcons
          rw [h.given]
          exact congrArg (r.given ++ [·]) (hgot hcons)
        · exact h.given
    · cases hs

theorem Paired.run (hρ : ρ.Injective) (hρ' : ρ'.Injective) (h : Paired reload ρ ρ' r r')
    (hc : ∀ ev ∈ evs, Continues ev) (hreload : ∀ e, .maintain e ∈ evs → reload)
    (hr : Run Step always r evs u) : ∃ u', Run Step always r' evs u' ∧ Paired reload ρ ρ' u u' := by
  induction hr with
  | nil => exact ⟨r', .nil, h⟩
  | snoc as a t u before meets taken ih =>
    obtain ⟨t', hrun, hpair⟩ := ih (fun ev hev => hc ev (mem_append_left _ hev))
      (fun e he => hreload e (mem_append_left _ he))
    have ha : a ∈ as ++ [a] := mem_append_right _ mem_cons_self
    obtain ⟨u', hstep, hpair'⟩ := hpair.step hρ hρ' (hc a ha) (fun e he => hreload e (he ▸ ha)) taken
    exact ⟨u', .snoc as a t' u' hrun trivial hstep, hpair'⟩

/-- A node that restored a snapshot gives out what the one it was taken of gives out. -/
theorem snapshot_is_faithful {b b₁ b₀ : Broker} (hb : b.Reachable) (h₀ : b₀.Reachable)
    (hcap : b₀.queueCap = b.queueCap) (hmax : b₀.maxRetry = b.maxRetry)
    (hstore : b₀.store.isSome = b.store.isSome) (hdir : ∀ name : String, name ∉ b₀.spill)
    (hapart : b.snapshotFullState.Apart)
    (hcount : ∀ x ∈ b.snapshotFullState.placed, b₁.retryOf x.2 = b.retryOf x.2)
    {evs : List Event} (hevs : ∀ ev ∈ evs, Continues ev)
    (hspill : (∀ name : String, name ∉ b.spill) ∨ ∀ e, .maintain e ∉ evs)
    {r : Replica} (hr : Run Step always (holding b) evs r) :
    ∃ r', Run Step always (holding (b.transfer b₁ b₀)) evs r' ∧ r'.given = r.given := by
  have htwins : Broker.Twins (∀ name : String, name ∉ b.spill) b.nameAt (b.nameIn b₁ b₀) b
      (b.transfer b₁ b₀) :=
    Broker.transfer_twins hb.formed h₀.formed hapart hcount hstore hmax hcap
      (fun hn name => ⟨hn name, hdir name⟩)
  have hstart : Paired _ b.nameAt (b.nameIn b₁ b₀) (holding b) (holding (b.transfer b₁ b₀)) :=
    ⟨htwins, hb.formed, h₀.formed.restore _, rfl⟩
  obtain ⟨r', hr', hpair⟩ := hstart.run (FullState.nameOf_injective _ _)
    (FullState.nameOf_injective _ _) hevs
    (fun e he => hspill.resolve_right (fun hno => hno e he)) hr
  exact ⟨r', hr', hpair.given⟩

def outcome (r : Replica) : List (Option (String × Int)) :=
  r.given.map (Option.map (fun m => (m.id, m.retry)))

def Gives (b : Broker) (evs : List Event) (out : List (Option (String × Int))) : Prop :=
  (execAll always step (holding b) evs).any (fun r => decide (r.outcome = out)) = true

instance (b : Broker) (evs : List Event) (out : List (Option (String × Int))) :
    Decidable (Gives b evs out) := inferInstanceAs (Decidable (_ = true))

theorem Gives.run (h : Gives b evs out) :
    ∃ r, Run Step always (holding b) evs r ∧ r.outcome = out :=
  Run.found (fun r : Replica => r.outcome = out) h

def worked : List Broker.Op :=
  [.publish { now := 1 } "jobs" { id := "low", priority := 3 },
    .publish { now := 2 } "jobs" { id := "high", priority := 5 },
    .publish { now := 3 } "jobs" { id := "late", delay := 50 },
    .tryConsume { now := 4 } "jobs"]

def goesOn : List Event :=
  [.apply { now := 5 } [] (.ok (.nack "high")),
    .apply { now := 6 } [] (.ok (.consume "jobs")),
    .maintain { now := 60 },
    .apply { now := 61 } [] (.ok (.consume "jobs")),
    .apply { now := 62 } [] (.ok (.consume "jobs"))]

theorem worked_is_restored : ∃ b r', Run Broker.Step always Broker.small worked b ∧
      Run Step always (holding (b.transfer b Broker.small)) goesOn r' ∧
      r'.outcome = [some ("high", 1), some ("low", 0), some ("late", 0)] := by
  obtain ⟨b, hb, hapart, hspill, hcap, hmax, hstore, hgives⟩ := Run.executed always Broker.step
    Broker.small worked
    (fun b => b.snapshotFullState.Apart ∧ b.spill.isEmpty = true ∧
      Broker.small.queueCap = b.queueCap ∧ Broker.small.maxRetry = b.maxRetry ∧
      Broker.small.store.isSome = b.store.isSome ∧
      Gives b goesOn [some ("high", 1), some ("low", 0), some ("late", 0)]) (by decide +kernel)
  obtain ⟨r, hr, hout⟩ := hgives.run
  have hsmall : Broker.small.Reachable := .new _ none ∅
  obtain ⟨r', hr', hgiven⟩ := snapshot_is_faithful (hsmall.run hb) hsmall hcap hmax hstore
    (fun _ => not_mem_emptyc) hapart (fun _ _ => rfl)
    (by decide +kernel : ∀ ev ∈ goesOn, Continues ev)
    (.inl (fun _ => not_mem_of_isEmpty hspill)) hr
  refine ⟨b, r', hb, hr', ?_⟩
  unfold outcome at hout ⊢
  rw [hgiven, hout]

def shared : List Broker.Op :=
  [.registerDurableSub "t" "x", .registerDurableSub "t" "y",
    .publishTopic { now := 1 } "t" { id := "m", maxRetry := 1 }]

def givenBackTwice : List Event :=
  [.apply { now := 2 } [] (.ok (.consume "t:x")), .apply { now := 3 } [] (.ok (.nack "m")),
    .apply { now := 4 } [] (.ok (.consume "t:y")), .apply { now := 5 } [] (.ok (.nack "m")),
    .apply { now := 6 } [] (.ok (.consume "t:y"))]

def overflowed : List Broker.Op :=
  [.publish { now := 1 } "jobs" { id := "a" }, .publish { now := 2 } "jobs" { id := "b" }]

def readBack : List Event :=
  [.apply { now := 3 } [] (.ok (.consume "jobs")), .apply { now := 4 } [] (.ok (.ack "a")),
    .maintain { now := 5 }, .apply { now := 6 } [] (.ok (.consume "jobs"))]

/-- The copies of a shared message count their retries apart once restored; what is in
a spill file is not restored; and a snapshot that is written after the message was given
back has it given back once more. -/
theorem restored_differs : (∃ b r r', Run Broker.Step always Broker.small shared b ∧
      Run Step always (holding b) givenBackTwice r ∧
      Run Step always (holding (b.transfer b Broker.small)) givenBackTwice r' ∧
      r.outcome = [some ("m", 0), some ("m", 1), none] ∧
      r'.outcome = [some ("m", 0), some ("m", 0), some ("m", 1)]) ∧
    (∃ b r r', Run Broker.Step always Broker.small overflowed b ∧
      Run Step always (holding b) readBack r ∧
      Run Step always (holding (b.transfer b Broker.small)) readBack r' ∧
      r.outcome = [some ("a", 0), some ("b", 0)] ∧ r'.outcome = [some ("a", 0), none]) ∧
    ∃ b b₁ r r', Run Broker.Step always Broker.small [.publish { now := 1 } "jobs" { id := "m" }] b ∧
      Run Broker.Step always b [.tryConsume { now := 2 } "jobs", .nack "m"] b₁ ∧
      Run Step always (holding b) [.apply { now := 3 } [] (.ok (.consume "jobs"))] r ∧
      Run Step always (holding (b.transfer b₁ Broker.small))
        [.apply { now := 3 } [] (.ok (.consume "jobs"))] r' ∧
      r.outcome = [some ("m", 0)] ∧ r'.outcome = [some ("m", 1)] := by
  refine ⟨?_, ?_, ?_⟩
  · obtain ⟨b, hb, hg, hg'⟩ := Run.executed always Broker.step Broker.small shared
      (fun b => Gives b givenBackTwice [some ("m", 0), some ("m", 1), none] ∧
        Gives (b.transfer b Broker.small) givenBackTwice [some ("m", 0), some ("m", 0), some ("m", 1)])
      (by decide +kernel)
    obtain ⟨r, hr, hout⟩ := hg.run
    obtain ⟨r', hr', hout'⟩ := hg'.run
    exact ⟨b, r, r', hb, hr, hr', hout, hout'⟩
  · obtain ⟨b, hb, hg, hg'⟩ := Run.executed always Broker.step Broker.small overflowed
      (fun b => Gives b readBack [some ("a", 0), some ("b", 0)] ∧
        Gives (b.transfer b Broker.small) readBack [some ("a", 0), none]) (by decide +kernel)
    obtain ⟨r, hr, hout⟩ := hg.run
    obtain ⟨r', hr', hout'⟩ := hg'.run
    exact ⟨b, r, r', hb, hr, hr', hout, hout'⟩
  · obtain ⟨b, hb, hg, hlater⟩ := Run.executed always Broker.step Broker.small
      [.publish { now := 1 } "jobs" { id := "m" }]
      (fun b =>
        Gives b [.apply { now := 3 } [] (.ok (.consume "jobs"))] [some ("m", 0)] ∧
        (execAll always Broker.step b [.tryConsume { now := 2 } "jobs", .nack "m"]).any (fun b₁ =>
          decide (Gives (b.transfer b₁ Broker.small) [.apply { now := 3 } [] (.ok (.consume "jobs"))]
            [some ("m", 1)])) = true) (by decide +kernel)
    obtain ⟨b₁, hb₁, hg'⟩ := Run.found (fun b₁ : Broker =>
      Gives (b.transfer b₁ Broker.small) [.apply { now := 3 } [] (.ok (.consume "jobs"))]
        [some ("m", 1)]) hlater
    obtain ⟨r, hr, hout⟩ := hg.run
    obtain ⟨r', hr', hout'⟩ := hg'.run
    exact ⟨b, b₁, r, r', hb, hb₁, hr, hr', hout, hout'⟩

end Replica
end Boltq.QueuePlane
