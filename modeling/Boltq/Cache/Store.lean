import Boltq.Lib.Digits
import Boltq.Lib.Run
import Boltq.Lib.Tables

namespace Boltq.Cache
open Lib Std List TreeMap

def wrap (n : Int) : Int := n.bmod (2 ^ 64)

structure Entry where
  key : String
  value : Bytes
  createdAt : Int
  expiresAt : Int
  ttl : Int
  deriving DecidableEq

def Entry.isExpired (e : Entry) (now : Int) : Bool := e.expiresAt ≠ 0 && e.expiresAt < now

def spaces : List Bytes :=
  [[9], [10], [11], [12], [13], [32], [194, 133], [194, 160], [225, 154, 128], [226, 128, 168],
    [226, 128, 169], [226, 128, 175], [226, 129, 159], [227, 128, 128]] ++
    (List.range 11).map (fun i => [226, 128, UInt8.ofNat (128 + i)])

def trimLeft (cut : List Bytes) : Nat → Bytes → Bytes
  | 0, b => b
  | fuel+1, b =>
    match cut.find? (·.isPrefixOf b) with
    | some p => trimLeft cut fuel (b.drop p.length)
    | none => b

def trimSpace (b : Bytes) : Bytes :=
  let b := (trimLeft spaces b.length b).reverse
  (trimLeft (spaces.map .reverse) b.length b).reverse

def parseInt64 (b : Bytes) : Except Bytes Int :=
  match trimSpace b with
  | [] => .ok 0
  | c :: rest =>
    let err := "value is not an integer: ".toList.flatMap String.utf8EncodeChar ++ c :: rest
    match parseDecimal (if c = 43 ∨ c = 45 then rest else c :: rest) with
    | none => .error err
    | some n =>
      if c = 45 then if n ≤ 2 ^ 63 then .ok (-n) else .error err
      else if n < 2 ^ 63 then .ok n else .error err

def formatInt64 (v : Int) : Bytes := if v < 0 then 45 :: decimal v.natAbs else decimal v.natAbs

structure Store where
  data : TreeMap String Entry := ∅
  maxKeys : Int
  memUsed : Int := 0

namespace Store

section
variable (s : Store)

def removeEntry (key : String) (e : Entry) : Store :=
  { s with
    memUsed := s.memUsed - (key.utf8ByteSize + e.value.length)
    data := s.data.erase key }

def evictOne (first : Nat) : Store :=
  match s.data.toList[first % s.data.size]? with
  | some (key, e) => s.removeEntry key e
  | none => s

def deadline (now ttlMs : Int) : Int := if 0 < ttlMs then wrap (now + wrap (ttlMs * 10 ^ 6)) else 0

def set (key : String) (value : Bytes) (ttlMs now : Int) (first : Nat) : Store :=
  let memUsed := match s.data[key]? with
    | some old => s.memUsed - (old.key.utf8ByteSize + old.value.length)
    | none => s.memUsed
  let s := { s with
    data := s.data.insert key ⟨key, value, now, deadline now ttlMs, ttlMs⟩
    memUsed := memUsed + (key.utf8ByteSize + value.length) }
  if 0 < s.maxKeys ∧ s.maxKeys < s.data.size then s.evictOne first else s

def get (key : String) (now : Int) : Store × Option Entry :=
  match s.data[key]? with
  | none => (s, none)
  | some e => if e.isExpired now then (s.removeEntry key e, none) else (s, some e)

def del (key : String) : Store × Bool :=
  match s.data[key]? with
  | none => (s, false)
  | some e => (s.removeEntry key e, true)

def expire (key : String) (ttlMs now : Int) : Store × Bool :=
  match s.data[key]? with
  | none => (s, false)
  | some e =>
    if e.isExpired now then (s, false)
    else
      let e := { e with
        expiresAt := deadline now ttlMs
        ttl := if 0 < ttlMs then ttlMs else 0 }
      ({ s with data := s.data.insert key e }, true)

def counted (key : String) (old : Option Entry) (now v : Int) : Entry :=
  ⟨key, formatInt64 v, now, (old.filter (0 < ·.expiresAt)).elim 0 Entry.expiresAt, 0⟩

def incr (key : String) (delta now : Int) : Store × Except Bytes Int :=
  let old := s.data[key]?
  match (old.filter (!·.isExpired now)).elim (.ok 0) (fun e => parseInt64 e.value) with
  | .error e => (s, .error e)
  | .ok current =>
    let v := wrap (current + delta)
    let memUsed := old.elim (s.memUsed + key.utf8ByteSize) (fun e => s.memUsed - e.value.length)
    ({ s with
      data := s.data.insert key (counted key old now v)
      memUsed := memUsed + (formatInt64 v).length }, .ok v)

def cleanExpired (now : Int) : Store × Nat :=
  (s.data.toList.filter (·.2.isExpired now)).foldl (fun (s, n) (key, e) =>
    (s.removeEntry key e, n + 1)) (s, 0)

def flushAll : Store × Nat := ({ s with data := ∅, memUsed := 0 }, s.data.size)

def put (e : Entry) : Store :=
  { s with
    data := s.data.insert e.key e
    memUsed := s.memUsed + (e.key.utf8ByteSize + e.value.length) }

def restore (entries : List Entry) (now : Int) : Store :=
  (entries.filter (!·.isExpired now)).foldl put { s with data := ∅, memUsed := 0 }

end

end Store

inductive Call where
  | set (key : String) (value : Bytes) (ttlMs : Int) (first : Nat)
  | get (key : String)
  | del (key : String)
  | expire (key : String) (ttlMs : Int)
  | incr (key : String) (delta : Int)
  | cleanExpired

inductive Reply where
  | done
  | entry (e : Option (Bytes × Option Int))
  | found (ok : Bool)
  | number (n : Except Bytes Int)
  deriving DecidableEq

def Entry.seen (e : Entry) : Bytes × Option Int :=
  (e.value, if e.expiresAt = 0 then none else some e.expiresAt)

def Store.call (s : Store) (now : Int) : Call → Store × Reply
  | .set key value ttlMs first => (s.set key value ttlMs now first, .done)
  | .get key => (s.get key now).map id (fun e => .entry (e.map Entry.seen))
  | .del key => (s.del key).map id .found
  | .expire key ttlMs => (s.expire key ttlMs now).map id .found
  | .incr key delta => (s.incr key delta now).map id .number
  | .cleanExpired => ((s.cleanExpired now).1, .done)

inductive Op where
  | call (c : Call)
  | flushAll
  | restore (entries : List Entry)
  | advance (d : Nat)

structure Clocked where
  store : Store
  now : Nat

namespace Clocked

def step (c : Clocked) : Op → Option Clocked
  | .call o => some { c with store := (c.store.call c.now o).1 }
  | .flushAll => some { c with store := c.store.flushAll.1 }
  | .restore entries => some { c with store := c.store.restore entries c.now }
  | .advance d => some { c with now := c.now + d }

def Step (c : Clocked) (op : Op) (c' : Clocked) : Prop := c.step op = some c'

/-- An increment or a restore brings no more keys than the limit allows. -/
def Bounded (c : Clocked) : Op → Prop
  | .call (.incr key _) => 0 < c.store.maxKeys → key ∈ c.store.data ∨ c.store.data.size < c.store.maxKeys
  | .restore entries => ((entries.filter (!·.isExpired c.now)).map Entry.key).Nodup ∧
    (0 < c.store.maxKeys → (entries.filter (!·.isExpired c.now)).length ≤ c.store.maxKeys)
  | _ => True

instance (c : Clocked) (op : Op) : Decidable (c.Bounded op) := by
  unfold Bounded
  split <;> infer_instance

end Clocked

def weight (t : TreeMap String Entry) : Int :=
  (t.toList.map (fun p => (p.1.utf8ByteSize + p.2.value.length : Int))).sum

theorem weight_congr {t u : TreeMap String Entry} (h : ∀ k : String, t[k]? = u[k]?) :
    weight t = weight u := ((toList_perm h).map _).sum_eq

theorem weight_insert (t : TreeMap String Entry) (k : String) (e : Entry) :
    weight (t.insert k e) = weight (t.erase k) + (k.utf8ByteSize + e.value.length) := by
  unfold weight
  rw [((toList_insert_erase t k e).map _).sum_eq, map_cons, sum_cons, Int.add_comm]

theorem weight_erase {t : TreeMap String Entry} (h : t[k]? = some e) :
    weight t = weight (t.erase k) + (k.utf8ByteSize + e.value.length) := by
  rw [← weight_insert]
  refine weight_congr (fun k' => ?_)
  by_cases hk : k' = k
  · rw [hk, getElem?_insert_self, h]
  · rw [getElem?_insert_other e hk]

theorem weight_erase_none {t : TreeMap String Entry} (h : t[k]? = none) :
    weight (t.erase k) = weight t := by
  refine weight_congr (fun k' => ?_)
  by_cases hk : k' = k
  · rw [hk, getElem?_erase_self, h]
  · exact getElem?_erase_other hk

structure Sound (room : Nat) (s : Store) : Prop where
  used : s.memUsed = weight s.data
  keyed : ∀ (k : String) (e : Entry), s.data[k]? = some e → e.key = k
  keys : 0 < s.maxKeys → s.data.size ≤ s.maxKeys + room

theorem Sound.empty (maxKeys : Int) : Sound 0 { maxKeys } := by
  refine ⟨rfl, fun k e hk => ?_, fun hm => ?_⟩
  · cases getElem?_emptyc.symm.trans hk
  · simpa using Int.le_of_lt hm

theorem Sound.removeEntry (h : Sound room s) (he : s.data[k]? = some e) :
    Sound (room - 1) (s.removeEntry k e) := by
  refine ⟨?_, fun k' e' hk => h.keyed k' e' (getElem?_of_erase hk), fun hm => ?_⟩
  · have hw := weight_erase he
    have hu := h.used
    unfold Store.removeEntry
    dsimp only
    omega
  · have hs := h.keys hm
    unfold Store.removeEntry at hm ⊢
    dsimp only at hm ⊢
    rw [size_erase, if_pos (mem_iff_contains.mp (mem_of_getElem? he))]
    omega

section
variable (h : Sound 0 s)
include h

theorem Sound.insert (he : e.key = k)
    (hm : mem = weight (s.data.erase k) + (k.utf8ByteSize + e.value.length)) (room : Nat)
    (hroom : 0 < s.maxKeys → k ∈ s.data ∨ s.data.size < s.maxKeys + room) :
    Sound room { s with data := s.data.insert k e, memUsed := mem } := by
  refine ⟨by rw [hm, weight_insert], fun k' e' hk => ?_, fun hpos => ?_⟩
  · rcases insert_cases hk with ⟨rfl, rfl⟩ | ⟨-, hk⟩
    · exact he
    · exact h.keyed k' e' hk
  · have hs := h.keys hpos
    dsimp only
    rw [size_insert]
    rcases hroom hpos with hin | hlt
    · rw [if_pos (mem_iff_contains.mp hin)]
      omega
    · split <;> omega

theorem Sound.set : Sound 0 (s.set key value ttlMs now first) := by
  have hins := h.insert (e := ⟨key, value, now, Store.deadline now ttlMs, ttlMs⟩) rfl rfl 1
    (fun hm => .inr (by have := h.keys hm; omega))
  have hmem : (match s.data[key]? with
      | some old => s.memUsed - (old.key.utf8ByteSize + old.value.length)
      | none => s.memUsed) = weight (s.data.erase key) := by
    have hu := h.used
    split
    · rename_i old ho
      rw [h.keyed key old ho, hu, weight_erase ho]
      exact Int.add_sub_cancel _ _
    · rename_i hn
      rw [weight_erase_none hn, hu]
  unfold Store.set
  rw [hmem]
  dsimp only
  split
  · rename_i hover
    unfold Store.evictOne
    split
    · rename_i k e he
      exact hins.removeEntry
        (mem_toList_iff_getElem?_eq_some.mp (mem_of_getElem? he))
    · rename_i hn
      rw [getElem?_eq_none_iff, length_toList] at hn
      have hpos := Int.lt_trans hover.1 hover.2
      exact absurd (Nat.mod_lt first (Int.natCast_pos.mp hpos)) (Nat.not_lt.mpr hn)
  · rename_i hover
    refine ⟨hins.used, hins.keyed, fun hm => ?_⟩
    rw [not_and] at hover
    have := hover hm
    dsimp only at *
    omega

theorem Sound.cleanExpired : Sound 0 (s.cleanExpired now).1 := by
  unfold Store.cleanExpired
  suffices hfold : ∀ (l : List (String × Entry)) (s : Store) (n : Nat), Sound 0 s →
      (l.map Prod.fst).Nodup → (∀ p ∈ l, s.data[p.1]? = some p.2) →
      Sound 0 (l.foldl (fun (s, n) (key, e) => (Store.removeEntry s key e, n + 1)) (s, n)).1 by
    refine hfold _ s 0 h ?_ ?_
    · refine ((map_fst_toList_eq_keys (t := s.data)) ▸ nodup_keys).sublist ?_
      exact filter_sublist.map _
    · intro p hp
      exact mem_toList_iff_getElem?_eq_some.mp (mem_filter.mp hp).1
  intro l
  induction l with
  | nil => exact fun s n h _ _ => h
  | cons p l ih =>
    intro s n h hnodup hin
    rw [map_cons, nodup_cons] at hnodup
    rw [foldl_cons]
    refine ih _ _ (h.removeEntry (hin p mem_cons_self)) hnodup.2 (fun q hq => ?_)
    have hne : q.1 ≠ p.1 := fun he => hnodup.1 (he ▸ mem_map_of_mem hq)
    exact (getElem?_erase_other hne).trans (hin q (mem_cons_of_mem _ hq))

theorem Sound.incr
    (hroom : 0 < s.maxKeys → key ∈ s.data ∨ s.data.size < s.maxKeys) :
    Sound 0 (s.incr key delta now).1 := by
  unfold Store.incr
  dsimp only
  split
  · exact h
  refine h.insert (k := key) rfl ?_ 0 (fun hm => by simpa using hroom hm)
  have hu := h.used
  cases ho : s.data[key]? with
  | none =>
    rw [weight_erase_none ho, ← hu]
    simp only [Option.elim, Store.counted]
    omega
  | some e =>
    have hw := weight_erase ho
    simp only [Option.elim, Store.counted]
    omega

end

theorem Sound.restore {s : Store}
    (hnodup : ((entries.filter (!Entry.isExpired · now)).map Entry.key).Nodup)
    (hlen : 0 < s.maxKeys → (entries.filter (!Entry.isExpired · now)).length ≤ s.maxKeys) :
    Sound 0 (Store.restore s entries now) := by
  unfold Store.restore
  suffices hfold : ∀ (l : List Entry) (s : Store), Sound 0 s → (l.map Entry.key).Nodup →
      (∀ e ∈ l, e.key ∉ s.data) → (0 < s.maxKeys → s.data.size + l.length ≤ s.maxKeys) →
      Sound 0 (l.foldl Store.put s) by
    refine hfold _ _ (.empty s.maxKeys) hnodup (fun e _ => not_mem_emptyc) (fun hm => ?_)
    simpa using hlen hm
  intro l
  induction l with
  | nil => exact fun s h _ _ _ => h
  | cons e l ih =>
    intro s h hnodup hnew hlen
    rw [map_cons, nodup_cons] at hnodup
    have hno : s.data[e.key]? = none := getElem?_eq_none (hnew e mem_cons_self)
    refine ih _ (h.insert rfl (by rw [h.used, weight_erase_none hno]) 0 (fun hm => .inr ?_))
      hnodup.2 (fun x hx hin => ?_) (fun hm => ?_)
    · have := hlen hm
      rw [length_cons] at this
      omega
    · rcases mem_insert_iff.mp hin with he | hold
      · exact hnodup.1 (he ▸ mem_map_of_mem hx)
      · exact hnew x (mem_cons_of_mem _ hx) hold
    · have := hlen hm
      rw [length_cons] at this
      have hsize : (s.put e).data.size ≤ s.data.size + 1 := size_insert_le
      change _ ≤ s.maxKeys
      omega

theorem Sound.call (h : Sound 0 s) (hb : ∀ key delta, o = .incr key delta → 0 < s.maxKeys →
      key ∈ s.data ∨ s.data.size < s.maxKeys) : Sound 0 (s.call now o).1 := by
  cases o with
  | set key value ttlMs first => exact h.set
  | get key =>
    change Sound 0 (s.get key now).1
    unfold Store.get
    split
    · exact h
    split
    · exact h.removeEntry ‹_›
    · exact h
  | del key =>
    change Sound 0 (s.del key).1
    unfold Store.del
    split
    · exact h
    · exact h.removeEntry ‹_›
  | expire key ttlMs =>
    change Sound 0 (s.expire key ttlMs now).1
    unfold Store.expire
    split
    · exact h
    rename_i e he
    split
    · exact h
    refine h.insert ?_ ?_ 0 (fun _ => .inl (mem_of_getElem? he))
    · exact h.keyed key e he
    · have hw := weight_erase he
      exact h.used.trans hw
  | incr key delta => exact h.incr (hb key delta rfl)
  | cleanExpired => exact h.cleanExpired

theorem Sound.step (h : Sound 0 c.store) (hb : Clocked.Bounded c op)
    (hs : Clocked.step c op = some c') : Sound 0 c'.store := by
  cases op with
  | call o =>
    cases hs
    exact h.call (fun key delta ho => by cases ho; exact hb)
  | flushAll =>
    cases hs
    exact .empty c.store.maxKeys
  | restore entries =>
    cases hs
    exact .restore hb.1 hb.2
  | advance d =>
    cases hs
    exact h

/-- When increments of new keys find room and what is restored has each key once and
fits, the bytes counted are those of the keys and values stored, and the keys are
no more than there may be. -/
theorem cache_accounts (maxKeys : Int) (now : Nat) {ops : List Op} {c : Clocked}
    (hr : Run Clocked.Step Clocked.Bounded ⟨{ maxKeys }, now⟩ ops c) :
    c.store.memUsed = weight c.store.data ∧
      (0 < c.store.maxKeys → c.store.data.size ≤ c.store.maxKeys) := by
  have hi := hr.invariant (Sound 0 ·.store) (.empty maxKeys) (fun _ _ _ hi hc hs => hi.step hc hs)
  exact ⟨hi.used, fun hm => by simpa using hi.keys hm⟩

theorem cache_accounts_evicting : ∃ c, Run Clocked.Step Clocked.Bounded ⟨{ maxKeys := 1 }, 5⟩
    [.call (.set "a" [1, 2] 0 0), .call (.set "b" [3] 0 0)] c ∧ c.store.memUsed = weight c.store.data ∧
    c.store.data.size ≤ (1 : Int) := by
  refine Run.shown (fun c => c.store.maxKeys = 1) (by decide +kernel) ?_
  rintro c hr hm
  obtain ⟨hused, hkeys⟩ := cache_accounts 1 5 hr
  rw [hm] at hkeys
  exact ⟨hused, hkeys (by decide)⟩

/-- With room for one key, an increment makes a second one; and a key that is restored
twice is counted twice. -/
theorem cache_overruns :
    (∃ c, Run Clocked.Step always ⟨{ maxKeys := 1 }, 5⟩ [.call (.incr "a" 1), .call (.incr "b" 1)] c ∧
      c.store.maxKeys = 1 ∧ c.store.data.size = 2) ∧
    ∃ c, Run Clocked.Step always ⟨{ maxKeys := 0 }, 5⟩
      [.restore [⟨"a", [1], 0, 0, 0⟩, ⟨"a", [1], 0, 0, 0⟩]] c ∧
      c.store.memUsed = 4 ∧ weight c.store.data = 2 :=
  ⟨Run.found _ (by decide +kernel), Run.found _ (by decide +kernel)⟩

end Boltq.Cache
