import Boltq.Cache.Store

namespace Boltq.Cache
open Lib Std List Option TreeMap Function

inductive Value where
  | bytes (b : Bytes)
  | count (n : Int)

namespace Value

def text : Value → Bytes
  | bytes b => b
  | count n => formatInt64 n

def number : Value → Except Bytes Int
  | bytes b => parseInt64 b
  | count n => .ok n

end Value

structure Item where
  value : Value
  deadline : Option Int

def Item.seen (i : Item) : Bytes × Option Int := (i.value.text, i.deadline)

def current (now : Int) (v : Bytes × Option Int) : Bool := !v.2.any (· < now)

abbrev Spec := String → Option Item

namespace Spec

def due (now ttlMs : Int) : Option Int := if 0 < ttlMs then some (now + ttlMs * 10 ^ 6) else none

def live (m : Spec) (now : Int) (key : String) : Option Item := (m key).filter (current now ·.seen)

def incr (m : Spec) (key : String) (delta now : Int) : Spec × Reply :=
  let old := m.live now key
  match old.elim (.ok 0) (·.value.number) with
  | .error e => (m, .number (.error e))
  | .ok n =>
    let n := wrap (n + delta)
    (Function.update m key (some ⟨.count n, old.bind Item.deadline⟩), .number (.ok n))

def call (m : Spec) (now : Int) : Call → Spec × Reply
  | .set key value ttlMs _ => (Function.update m key (some ⟨.bytes value, due now ttlMs⟩), .done)
  | .get key => (m, .entry ((m.live now key).map Item.seen))
  | .del key => (Function.update m key none, .found (m.live now key).isSome)
  | .expire key ttlMs =>
    match m.live now key with
    | none => (m, .found false)
    | some i => (Function.update m key (some { i with deadline := due now ttlMs }), .found true)
  | .incr key delta => m.incr key delta now
  | .cleanExpired => (m, .done)

end Spec

inductive Move where
  | call (o : Call)
  | advance (d : Nat)

structure Paired where
  store : Store := { maxKeys := 0 }
  map : Spec := fun _ => none
  now : Nat
  got : List Reply := []
  want : List Reply := []

def Store.live (s : Store) (now : Int) (key : String) : Option Entry :=
  s.data[key]?.filter (!·.isExpired now)

namespace Paired

def step (p : Paired) : Move → Option Paired
  | .call o =>
    let (store, got) := p.store.call p.now o
    let (map, want) := p.map.call p.now o
    some { p with store, map, got := p.got ++ [got], want := p.want ++ [want] }
  | .advance d => some { p with now := p.now + d }

def Step (p : Paired) (m : Move) (p' : Paired) : Prop := p.step m = some p'

/-- No expiry overflows, and a delete or increment finds its key not expired. -/
def Timely (p : Paired) : Move → Prop
  | .call (.set _ _ ttlMs _) | .call (.expire _ ttlMs) => p.now + ttlMs * 10 ^ 6 < 2 ^ 63
  | .call (.del key) | .call (.incr key _) => p.store.data[key]?.all (!·.isExpired p.now) = true
  | _ => True

instance (p : Paired) (m : Move) : Decidable (p.Timely m) := by
  unfold Timely
  split <;> infer_instance

end Paired

theorem trimLeft_cons (h : cut.all (fun p => p.head?.any (· ≠ c)) = true) (fuel : Nat) (t : Bytes) :
    trimLeft cut fuel (c :: t) = c :: t := by
  cases fuel with
  | zero => rfl
  | succ fuel =>
    have hno : cut.find? (·.isPrefixOf (c :: t)) = none := by
      refine find?_eq_none.mpr (fun p hp hpre => ?_)
      have hhead := all_eq_true.mp h p hp
      cases p with
      | nil => cases hhead
      | cons x p =>
        rw [isPrefixOf, Bool.and_eq_true, beq_iff_eq] at hpre
        simp [hpre.1] at hhead
    rw [trimLeft, hno]

theorem spaces_digit (h : c = 45 ∨ (digitVal c).isSome = true) :
    spaces.all (fun p => p.head?.any (· ≠ c)) = true ∧
      (spaces.map reverse).all (fun p => p.head?.any (· ≠ c)) = true := by
  have hall : ∀ n < 256, (UInt8.ofNat n = 45 ∨ (digitVal (.ofNat n)).isSome = true) →
      spaces.all (fun p => p.head?.any (· ≠ .ofNat n)) = true ∧
        (spaces.map reverse).all (fun p => p.head?.any (· ≠ .ofNat n)) = true := by
    decide +kernel
  have hc := hall c.toNat c.toNat_lt
  rw [UInt8.ofNat_toNat] at hc
  exact hc h

theorem trimSpace_number {b : Bytes} (h : ∀ c ∈ b, c = 45 ∨ (digitVal c).isSome = true) :
    trimSpace b = b := by
  have hl : trimLeft spaces b.length b = b := by
    cases b with
    | nil => rfl
    | cons c t => exact trimLeft_cons (spaces_digit (h c mem_cons_self)).1 _ t
  unfold trimSpace
  dsimp only
  rw [hl, reverse_eq_iff]
  cases hb : b.reverse with
  | nil => rfl
  | cons c t =>
    have hc : c ∈ b := mem_reverse.mp (hb ▸ mem_cons_self)
    exact trimLeft_cons (spaces_digit (h c hc)).2 _ t

theorem parseInt64_formatInt64 (hl : -2 ^ 63 ≤ v) (hu : v < 2 ^ 63) :
    parseInt64 (formatInt64 v) = .ok v := by
  have hdigit : ∀ c ∈ formatInt64 v, c = 45 ∨ (digitVal c).isSome = true := by
    intro c hc
    unfold formatInt64 at hc
    split at hc
    · exact (mem_cons.mp hc).imp_right digitVal_of_mem_decimal
    · exact .inr (digitVal_of_mem_decimal hc)
  unfold parseInt64
  rw [trimSpace_number hdigit]
  by_cases hneg : v < 0
  · rw [formatInt64, if_pos hneg]
    dsimp only
    rw [if_pos (.inr rfl), parseDecimal_decimal]
    dsimp only
    rw [if_pos rfl, if_pos (by omega)]
    congr 1
    omega
  · obtain ⟨d, s, hd, hdec⟩ := decimal_head v.natAbs
    have hsign := (by decide : ∀ d < 10, ¬(hexDigit d = 43 ∨ hexDigit d = 45)) d hd
    rw [formatInt64, if_neg hneg, hdec]
    dsimp only
    rw [if_neg hsign, ← hdec, parseDecimal_decimal]
    dsimp only
    rw [if_neg (fun h => hsign (.inr h)), if_pos (by omega)]
    congr 1
    omega

theorem parseInt64_wrap (n : Int) : parseInt64 (formatInt64 (wrap n)) = .ok (wrap n) := by
  have hl := Int.le_bmod (x := n) (m := 2 ^ 64) (by decide)
  have hu := Int.bmod_lt (x := n) (m := 2 ^ 64) (by decide)
  unfold wrap
  exact parseInt64_formatInt64 (by omega) (by omega)

theorem deadline_due {now : Nat} (h : now + ttlMs * 10 ^ 6 < (2 ^ 63 : Int)) :
    0 ≤ Store.deadline now ttlMs ∧
      (if Store.deadline now ttlMs = 0 then none else some (Store.deadline now ttlMs)) =
        Spec.due now ttlMs := by
  unfold Store.deadline Spec.due wrap
  split
  · rw [Int.add_bmod_bmod, Int.bmod_eq_of_le (by omega) (by omega)]
    exact ⟨by omega, if_neg (by omega)⟩
  · exact ⟨Int.le_refl 0, if_pos rfl⟩

theorem isExpired_eq (e : Entry) (now : Int) : (!e.isExpired now) = current now e.seen := by
  unfold Entry.isExpired current Entry.seen
  split <;> simp_all

theorem live_seen (s : Store) (now : Int) (k : String) :
    (s.live now k).map Entry.seen = (s.data[k]?.map Entry.seen).filter (current now) := by
  unfold Store.live
  cases s.data[k]? with
  | none => rfl
  | some e => simp only [Option.filter, isExpired_eq, Option.map_some]; split <;> rfl

theorem spec_live_seen (m : Spec) (now : Int) (k : String) :
    (m.live now k).map Item.seen = ((m k).map Item.seen).filter (current now) := by
  unfold Spec.live
  cases m k with
  | none => rfl
  | some i => simp only [Option.filter, Option.map_some]; split <;> rfl

theorem filter_current (o : Option (Bytes × Option Int)) (h : now ≤ later) :
    (o.filter (current now)).filter (current later) = o.filter (current later) := by
  rw [Option.filter_filter]
  congr 1
  funext v
  unfold current
  cases v.2 with
  | none => rfl
  | some d => simp; omega

structure Thinned (now : Int) (s s' : Store) : Prop where
  limit : s'.maxKeys = s.maxKeys
  kept : ∀ (k : String) (e : Entry), s'.data[k]? = some e → s.data[k]? = some e
  same : ∀ k, s'.live now k = s.live now k

theorem Thinned.refl (now : Int) (s : Store) : Thinned now s s :=
  ⟨rfl, fun _ _ h => h, fun _ => rfl⟩

theorem Thinned.removeEntry (h : Thinned now s₀ s) (hk : s.live now key = none) :
    Thinned now s₀ (s.removeEntry key e) := by
  refine ⟨h.limit, fun k e' he => h.kept k e' (getElem?_of_erase he), fun k => ?_⟩
  rw [← h.same k]
  by_cases hkk : k = key
  · rw [hkk, hk]
    unfold Store.live Store.removeEntry
    rw [getElem?_erase_self]
    rfl
  · unfold Store.live Store.removeEntry
    rw [getElem?_erase_other hkk]

theorem live_eq_none (h : Store.live s now key = none) (he : s.data[key]? = some e) :
    e.isExpired now = true := by
  unfold Store.live at h
  rw [he] at h
  simpa [Option.filter] using h

theorem Thinned.cleanExpired (now : Int) (s : Store) : Thinned now s (s.cleanExpired now).1 := by
  unfold Store.cleanExpired
  refine List.foldlRecOn (motive := fun r : Store × Nat => Thinned now s r.1) _ _ (.refl now s) ?_
  intro r h p hp
  obtain ⟨hp, he⟩ := mem_filter.mp hp
  have hgone : s.live now p.1 = none := by
    unfold Store.live
    rw [TreeMap.mem_toList_iff_getElem?_eq_some.mp hp, Option.filter, he]
    rfl
  exact h.removeEntry ((h.same p.1).trans hgone)

structure Agree (now : Int) (s : Store) (m : Spec) : Prop where
  limit : s.maxKeys ≤ 0
  dated : ∀ (k : String) (e : Entry), s.data[k]? = some e → 0 ≤ e.expiresAt
  views : ∀ k, (s.live now k).map Entry.seen = (m.live now k).map Item.seen
  numbers : ∀ k i, m k = some i → parseInt64 i.value.text = i.value.number

namespace Agree

section
variable (h : Agree now s m)
include h

theorem thinned (ht : Thinned now s s') : Agree now s' m :=
  ⟨ht.limit ▸ h.limit, fun k e he => h.dated k e (ht.kept k e he),
    fun k => by rw [ht.same k, h.views k], h.numbers⟩

theorem advance (d : Nat) : Agree (now + d) s m := by
  refine ⟨h.limit, h.dated, fun k => ?_, h.numbers⟩
  have hle : now ≤ now + d := by omega
  have hv := h.views k
  rw [live_seen, spec_live_seen] at hv
  rw [live_seen, spec_live_seen, ← filter_current _ hle, hv, filter_current _ hle]

theorem put (hlim : s'.maxKeys = s.maxKeys)
    (hdata : s'.data = s.data.insert key e) (hdate : 0 ≤ e.expiresAt) (hseen : e.seen = i.seen)
    (hnum : parseInt64 i.value.text = i.value.number) :
    Agree now s' (update m key (some i)) := by
  refine ⟨hlim ▸ h.limit, fun k e' he => ?_, fun k => ?_, fun k i' hi => ?_⟩
  · rw [hdata] at he
    rcases insert_cases he with ⟨-, rfl⟩ | ⟨-, he⟩
    · exact hdate
    · exact h.dated k e' he
  · have hv := h.views k
    rw [live_seen, spec_live_seen] at hv ⊢
    rw [hdata]
    by_cases hk : k = key
    · rw [hk, getElem?_insert_self, update_self, map_some,
        map_some, hseen]
    · rw [getElem?_insert_other e hk, update_of_ne hk, hv]
  · by_cases hk : k = key
    · rw [hk, update_self] at hi
      exact some.inj hi ▸ hnum
    · rw [update_of_ne hk] at hi
      exact h.numbers k i' hi

theorem remove (hlim : s'.maxKeys = s.maxKeys) (hnone : s'.data[key]? = none)
    (hne : ∀ k ≠ key, s'.data[k]? = s.data[k]?) : Agree now s' (update m key none) := by
  refine ⟨hlim ▸ h.limit, fun k e he => ?_, fun k => ?_, fun k i hi => ?_⟩ <;>
    by_cases hk : k = key
  · rw [hk, hnone] at he
    cases he
  · rw [hne k hk] at he
    exact h.dated k e he
  · rw [live_seen, spec_live_seen, hk, hnone, update_self]
    rfl
  · have hv := h.views k
    rw [live_seen, spec_live_seen] at hv ⊢
    rw [hne k hk, update_of_ne hk, hv]
  · rw [hk, update_self] at hi
    cases hi
  · rw [update_of_ne hk] at hi
    exact h.numbers k i hi

theorem live_cases (key : String) : (s.live now key = none ∧ m.live now key = none) ∨
      ∃ e i, s.live now key = some e ∧ m.live now key = some i ∧ e.seen = i.seen := by
  have hv := h.views key
  cases hs : s.live now key with
  | none =>
    rw [hs] at hv
    exact .inl ⟨rfl, map_eq_none_iff.mp hv.symm⟩
  | some e =>
    rw [hs] at hv
    obtain ⟨i, hi, hseen⟩ := map_eq_some_iff.mp hv.symm
    exact .inr ⟨e, i, rfl, hi, hseen.symm⟩

theorem get (key : String) : Agree now (s.get key now).1 m ∧
    (s.get key now).2.map Entry.seen = (m.live now key).map Item.seen := by
  have hv := h.views key
  unfold Store.get
  unfold Store.live at hv
  split <;> rename_i he
  · rw [he] at hv
    exact ⟨h, hv⟩
  rw [he, Option.filter] at hv
  split
  · rename_i hexp
    rw [hexp] at hv
    refine ⟨h.thinned ((Thinned.refl now s).removeEntry ?_), hv⟩
    rw [Store.live, he, Option.filter, hexp]
    rfl
  · rename_i hexp
    rw [Bool.not_eq_true] at hexp
    rw [hexp] at hv
    exact ⟨h, hv⟩

end

theorem live_fresh {s : Store} (hf : s.data[key]?.all (!Entry.isExpired · now) = true) :
    s.live now key = s.data[key]? := by
  unfold Store.live
  cases he : s.data[key]? with
  | none => rfl
  | some e =>
    rw [he] at hf
    exact filter_some_pos hf

theorem del (h : Agree now s m) (hf : s.data[key]?.all (!Entry.isExpired · now) = true) :
    Agree now (s.del key).1 (update m key none) ∧
      (s.del key).2 = (m.live now key).isSome := by
  have hlive := live_fresh hf
  unfold Store.del
  rcases h.live_cases key with ⟨hs, hm⟩ | ⟨e, i, hs, hm, -⟩
  · rw [hm, ← hlive, hs]
    exact ⟨h.remove rfl (hlive ▸ hs) (fun _ _ => rfl), rfl⟩
  · rw [hm, ← hlive, hs]
    exact ⟨h.remove rfl getElem?_erase_self (fun _ hk => getElem?_erase_other hk), rfl⟩

theorem expire {now : Nat} (h : Agree now s m) (ht : now + ttlMs * 10 ^ 6 < (2 ^ 63 : Int)) :
    Agree now (s.expire key ttlMs now).1 (m.call now (.expire key ttlMs)).1 ∧
      .found (s.expire key ttlMs now).2 = (m.call now (.expire key ttlMs)).2 := by
  obtain ⟨hpos, hdue⟩ := deadline_due ht
  unfold Store.expire Spec.call
  dsimp only
  rcases h.live_cases key with ⟨hs, hm⟩ | ⟨e, i, hs, hm, hseen⟩
  · rw [hm]
    split
    · exact ⟨h, rfl⟩
    · rename_i he
      rw [if_pos (live_eq_none hs he)]
      exact ⟨h, rfl⟩
  · obtain ⟨he, hexp⟩ := filter_eq_some_iff.mp hs
    have hi := (filter_eq_some_iff.mp hm).1
    rw [hm, he]
    dsimp only
    rw [if_neg (by simpa using hexp)]
    have htext : e.value = i.value.text := congrArg Prod.fst hseen
    exact ⟨h.put rfl rfl hpos (Prod.ext htext hdue) (h.numbers key i hi), rfl⟩

theorem incr (h : Agree now s m) (hf : s.data[key]?.all (!Entry.isExpired · now) = true) :
    Agree now (s.incr key delta now).1 (m.incr key delta now).1 ∧
      .number (s.incr key delta now).2 = (m.incr key delta now).2 := by
  have hlive := live_fresh hf
  unfold Store.incr Spec.incr
  dsimp only
  rw [← Store.live]
  rcases h.live_cases key with ⟨hs, hm⟩ | ⟨e, i, hs, hm, hseen⟩
  · rw [← hlive, hs, hm]
    exact ⟨h.put rfl rfl (Int.le_refl 0) rfl (parseInt64_wrap _), rfl⟩
  · have hi := (Option.filter_eq_some_iff.mp hm).1
    have hnum : parseInt64 e.value = i.value.number :=
      (congrArg (parseInt64 ·.1) hseen).trans (h.numbers key i hi)
    have hdate := h.dated key e (hlive ▸ hs)
    have hdue : (if e.expiresAt = 0 then none else some e.expiresAt) = i.deadline :=
      congrArg Prod.snd hseen
    rw [← hlive, hs, hm]
    simp only [Option.elim, hnum, Option.bind_some, ← hdue]
    cases i.value.number with
    | error err => exact ⟨h, rfl⟩
    | ok n =>
      refine ⟨h.put rfl rfl ?_ ?_ (parseInt64_wrap _), rfl⟩
      · by_cases hz : 0 < e.expiresAt <;> simp [Store.counted, Option.filter, hz, hdate]
      · by_cases hz : 0 < e.expiresAt
        · simp [Store.counted, Entry.seen, Item.seen, Value.text, Option.filter, hz]
        · have hz : e.expiresAt = 0 := by omega
          simp [Store.counted, Entry.seen, Item.seen, Value.text, Option.filter, hz]

theorem call (h : Agree p.now p.store p.map) (ht : Paired.Timely p (.call o)) :
    Agree p.now (p.store.call p.now o).1 (p.map.call p.now o).1 ∧
      (p.store.call p.now o).2 = (p.map.call p.now o).2 := by
  cases o with
  | set key value ttlMs first =>
    obtain ⟨hpos, hdue⟩ := deadline_due ht
    refine ⟨?_, rfl⟩
    change Agree p.now (p.store.set key value ttlMs p.now first) _
    unfold Store.set
    dsimp only
    rw [if_neg (fun hl => Int.not_lt.mpr h.limit hl.1)]
    exact h.put rfl rfl hpos (Prod.ext rfl hdue) rfl
  | get key =>
    obtain ⟨hg, hr⟩ := h.get key
    exact ⟨hg, congrArg Reply.entry hr⟩
  | del key =>
    obtain ⟨hd, hr⟩ := h.del ht
    exact ⟨hd, congrArg Reply.found hr⟩
  | expire key ttlMs => exact h.expire ht
  | incr key delta => exact h.incr ht
  | cleanExpired => exact ⟨h.thinned (.cleanExpired p.now p.store), rfl⟩

theorem step (h : Agree p.now p.store p.map ∧ p.got = p.want) (ht : Paired.Timely p mv)
    (hs : Paired.step p mv = some p') : Agree p'.now p'.store p'.map ∧ p'.got = p'.want := by
  cases mv with
  | call o =>
    cases hs
    obtain ⟨hc, hr⟩ := h.1.call ht
    exact ⟨hc, congrArg₂ (fun l r => l ++ [r]) h.2 hr⟩
  | advance d =>
    cases hs
    exact ⟨by exact_mod_cast h.1.advance d, h.2⟩

end Agree

/-- When no deadline is past the last time and no expired entry that is still stored is
deleted or incremented, every call answers as the map with deadlines does. -/
theorem cache_refines_expiring_map (now : Nat) {moves : List Move} {p : Paired}
    (hr : Run Paired.Step Paired.Timely { now } moves p) : p.got = p.want :=
  (hr.invariant (fun p => Agree p.now p.store p.map ∧ p.got = p.want)
    ⟨⟨Int.le_refl 0, fun _ _ hk => (nomatch getElem?_emptyc.symm.trans hk), fun _ => rfl,
      fun _ _ hi => (nomatch hi)⟩, rfl⟩ (fun _ _ _ => Agree.step)).2

theorem cache_refines_expiring_map_counting : ∃ p, Run Paired.Step Paired.Timely { now := 9 }
    [.call (.set "k" [49] 1 0), .call (.incr "k" 4), .advance 1000001, .call (.get "k"),
      .call (.incr "k" 2), .call (.incr "k" 3)] p ∧
    p.got = [.done, .number (.ok 5), .entry none, .number (.ok 2), .number (.ok 5)] ∧
    p.got = p.want := by
  refine Run.shown
    (fun p => p.got = [.done, .number (.ok 5), .entry none, .number (.ok 2), .number (.ok 5)])
    (by decide +kernel) ?_
  rintro p hr hgot
  exact ⟨hgot, cache_refines_expiring_map 9 hr⟩

/-- Counts of an expired key are lost, an expired key is deleted as if it were there, and
the longest ttl has passed at once. -/
theorem cache_shows_expired :
    (∃ p, Run Paired.Step always { now := 9 } [.call (.set "k" [49] 1 0), .advance 1000001,
        .call (.incr "k" 2), .call (.incr "k" 3)] p ∧
      p.got = [.done, .number (.ok 2), .number (.ok 3)] ∧
      p.want = [.done, .number (.ok 2), .number (.ok 5)]) ∧
    (∃ p, Run Paired.Step always { now := 9 }
        [.call (.set "k" [49] 1 0), .advance 1000001, .call (.del "k")] p ∧
      p.got = [.done, .found true] ∧ p.want = [.done, .found false]) ∧
    ∃ p, Run Paired.Step always { now := 10 ^ 9 }
        [.call (.set "k" [49] (2 ^ 63 - 1) 0), .call (.get "k")] p ∧
      p.got = [.done, .entry none] ∧
      p.want = [.done, .entry (some ([49], some (10 ^ 9 + (2 ^ 63 - 1) * 10 ^ 6)))] :=
  ⟨Run.found _ (by decide +kernel), Run.found _ (by decide +kernel),
    Run.found _ (by decide +kernel)⟩

end Boltq.Cache
