import Boltq.Lib.Run
import Boltq.QueuePlane.Message

namespace Boltq.QueuePlane
open Lib List

structure Queue where
  buf : List (Option Message)
  mask : Nat
  head : Nat := 0
  tail : Nat := 0
  size : Nat := 0

namespace Queue

def new (capacity : Int) : Queue where
  buf := .replicate (nextPowerOfTwo capacity) none
  mask := nextPowerOfTwo capacity - 1

section
variable (q : Queue)

def push (m : Message) : Queue × Bool :=
  if q.buf.length ≤ q.size then (q, false)
  else
    ({ q with
      buf := q.buf.set (q.head &&& q.mask) (some m)
      head := q.head + 1
      size := q.size + 1 }, true)

def slot (pos : Nat) : Option Message := (q.buf[pos &&& q.mask]?).join

def tryPop : Queue × Option Message :=
  if q.size = 0 then (q, none)
  else
    ({ q with
      buf := q.buf.set (q.tail &&& q.mask) none
      tail := q.tail + 1
      size := q.size - 1 }, q.slot q.tail)

def isFull : Bool := q.buf.length ≤ q.size

def purge : Queue × Nat :=
  ({ q with
    buf := (List.range q.size).foldl (fun buf i => buf.set ((q.tail + i) &&& q.mask) none) q.buf
    tail := q.head
    size := 0 }, q.size)

def drain : List Message := (List.range q.size).filterMap (fun i => q.slot (q.tail + i))

def hasMessage (id : String) : Bool :=
  (List.range q.size).any (fun i => (q.slot (q.tail + i)).any (·.id = id))

end

structure Holds (cap : Nat) (q : Queue) (ms : List Message) : Prop where
  length : q.buf.length = cap
  mask : ∃ k, cap = 2 ^ k ∧ q.mask = 2 ^ k - 1
  size : q.size = ms.length
  head : q.head = q.tail + ms.length
  bound : ms.length ≤ cap
  slots : ∀ i < ms.length, q.buf[(q.tail + i) % cap]? = some ms[i]?

theorem mod_ne {t : Nat} (hij : i < j) (hj : j < i + cap) : (t + i) % cap ≠ (t + j) % cap := by
  intro h
  have hd := (Nat.modEq_iff_dvd' (Nat.add_le_add_left hij.le t)).mp h
  have hle := Nat.le_of_dvd (by omega) hd
  omega

section
variable (h : Holds cap q ms)
include h

theorem Holds.pos (p : Nat) : p &&& q.mask = p % cap := by
  obtain ⟨k, rfl, hm⟩ := h.mask
  rw [hm, Nat.and_two_pow_sub_one_eq_mod]

theorem Holds.slot (hi : i < ms.length) : q.slot (q.tail + i) = ms[i]? := by
  rw [Queue.slot, h.pos, h.slots i hi]
  rfl

theorem Holds.push (m : Message) :
    (ms.length < cap ∧ (q.push m).2 = true ∧ Holds cap (q.push m).1 (ms ++ [m])) ∨
      (ms.length = cap ∧ q.push m = (q, false)) := by
  unfold Queue.push
  rw [h.length, h.size]
  split
  · rename_i hfull
    exact .inr ⟨Nat.le_antisymm h.bound hfull, rfl⟩
  refine .inl ⟨by omega, rfl, ?_⟩
  refine ⟨by simp [h.length], h.mask, by simp, by simp [h.head]; omega, by simp; omega, fun i hi => ?_⟩
  rw [h.pos, h.head]
  rw [length_append, length_singleton] at hi
  by_cases hlast : i = ms.length
  · subst hlast
    rw [getElem?_set_self (by rw [h.length]; exact Nat.mod_lt _ (by omega))]
    simp
  · rw [getElem?_set_ne (mod_ne (by omega) (by omega)).symm, h.slots i (by omega),
      getElem?_append_left (by omega)]

theorem Holds.tryPop : (ms = [] ∧ q.tryPop = (q, none)) ∨
      ∃ m rest, ms = m :: rest ∧ q.tryPop.2 = some m ∧ Holds cap q.tryPop.1 rest := by
  unfold Queue.tryPop
  rw [h.size]
  cases ms with
  | nil => exact .inl ⟨rfl, rfl⟩
  | cons m rest =>
    have hb := h.bound
    rw [length_cons] at hb
    rw [if_neg (show (m :: rest).length ≠ 0 from nofun)]
    refine .inr ⟨m, rest, rfl, h.slot (Nat.succ_pos _), by simp [h.length], h.mask, rfl, ?_, by omega, ?_⟩
    · simp [h.head]
      omega
    intro i hi
    rw [h.pos, Nat.add_assoc, getElem?_set_ne, Nat.add_comm 1, h.slots (i + 1) (Nat.succ_lt_succ hi)]
    · rfl
    · exact mod_ne (i := 0) (by omega) (by omega)

end

theorem length_clear (f : Nat → Nat) (is : List Nat) (buf : List (Option Message)) :
    (is.foldl (fun buf i => buf.set (f i) none) buf).length = buf.length := by
  induction is generalizing buf with
  | nil => rfl
  | cons i is ih => rw [foldl_cons, ih, length_set]

theorem Holds.purge (h : Holds cap q ms) : Holds cap q.purge.1 [] ∧ q.purge.2 = ms.length :=
  ⟨⟨(length_clear _ _ _).trans h.length, h.mask, rfl, rfl, Nat.zero_le _, nofun⟩, h.size⟩

theorem filterMap_range (ms : List Message) : (range ms.length).filterMap (ms[·]?) = ms := by
  induction ms with
  | nil => rfl
  | cons m ms ih =>
    rw [length_cons, range_succ_eq_map, filterMap_cons, filterMap_map]
    exact congrArg (m :: ·) ih

theorem Holds.drain (h : Holds cap q ms) : q.drain = ms := by
  rw [Queue.drain, h.size, filterMap_congr fun i hi => h.slot (mem_range.mp hi), filterMap_range]

theorem Holds.hasMessage (h : Holds cap q ms) (id : String) : q.hasMessage id = ms.any (·.id = id) := by
  rw [← h.drain, Queue.drain, any_filterMap]
  rfl

theorem Holds.isFull (h : Holds cap q ms) : q.isFull = decide (cap ≤ ms.length) := by
  rw [Queue.isFull, h.length, h.size]

end Queue

theorem testBit_smear {m n : Nat}
    (h : ∀ i, m.testBit i = true ↔ ∃ j, i ≤ j ∧ j < i + w ∧ n.testBit j = true) (i : Nat) :
    (m ||| m >>> w).testBit i = true ↔ ∃ j, i ≤ j ∧ j < i + (w + w) ∧ n.testBit j = true := by
  rw [Nat.testBit_or, Nat.testBit_shiftRight, Bool.or_eq_true, h, h]
  constructor
  · rintro (⟨j, h₁, h₂, hj⟩ | ⟨j, h₁, h₂, hj⟩) <;> exact ⟨j, by omega, by omega, hj⟩
  rintro ⟨j, h₁, h₂, hj⟩
  rcases Nat.lt_or_ge j (i + w) with hlt | hge
  · exact .inl ⟨j, h₁, hlt, hj⟩
  · exact .inr ⟨j, by omega, by omega, hj⟩

theorem nextPowerOfTwo_eq {c : Nat} (h₁ : 1 ≤ c) (h₂ : c ≤ 2 ^ 32) :
    nextPowerOfTwo c = 2 ^ (c - 1).size := by
  unfold nextPowerOfTwo
  rw [if_neg (by omega), Int.toNat_natCast]
  generalize hn : c - 1 = n
  have hlt : n < 2 ^ 32 := by omega
  have hbits := testBit_smear (testBit_smear (testBit_smear (testBit_smear (testBit_smear (n := n) (m := n)
    (w := 1) fun i => ⟨fun h => ⟨i, by omega, by omega, h⟩, fun ⟨j, h₁, h₂, h⟩ => by
      rwa [show i = j by omega]⟩))))
  dsimp only at hbits ⊢
  generalize (_ ||| _ >>> 16) = m at hbits ⊢
  have hm : m = 2 ^ n.size - 1 := by
    refine Nat.eq_of_testBit_eq fun i => ?_
    rw [Nat.testBit_two_pow_sub_one, Bool.eq_iff_iff, hbits, decide_eq_true_eq]
    constructor
    · rintro ⟨j, hij, -, hj⟩
      exact Nat.lt_of_le_of_lt hij (Nat.lt_size.mpr (Nat.ge_two_pow_of_testBit hj))
    intro hi
    obtain ⟨j, hij, hj⟩ := Nat.exists_ge_and_testBit_of_ge_two_pow (Nat.lt_size.mp hi)
    have hj' : j < n.size := Nat.lt_size.mpr (Nat.ge_two_pow_of_testBit hj)
    have hsize : n.size ≤ 32 := Nat.size_le.mpr hlt
    exact ⟨j, hij, by omega, hj⟩
  rw [hm]
  have := Nat.two_pow_pos n.size
  omega

structure Levels where
  levels : List Queue
  size : Nat := 0

namespace Levels

def new (capacityPerLevel : Int) : Levels :=
  { levels := .replicate numPriorityLevels (.new capacityPerLevel) }

def push (p : Levels) (m : Message) : Levels × Bool :=
  match p.levels[clampPriority m.priority]? with
  | none => (p, false)
  | some q =>
    match q.push m with
    | (_, false) => (p, false)
    | (q, true) => (⟨p.levels.set (clampPriority m.priority) q, p.size + 1⟩, true)

def popHighest : List Queue → List Queue × Option Message
  | [] => ([], none)
  | q :: qs =>
    match popHighest qs with
    | (qs, some m) => (q :: qs, some m)
    | (qs, none) => if 0 < q.size then (q.tryPop.1 :: qs, q.tryPop.2) else (q :: qs, none)

def tryPop (p : Levels) : Levels × Option Message :=
  if p.size = 0 then (p, none)
  else
    match popHighest p.levels with
    | (levels, some m) => (⟨levels, p.size - 1⟩, some m)
    | (levels, none) => (⟨levels, p.size⟩, none)

def isFull (p : Levels) : Bool := p.levels.all Queue.isFull

def purge (p : Levels) : Levels × Nat :=
  (⟨p.levels.map (fun q => if 0 < q.size then q.purge.1 else q), 0⟩, (p.levels.map (·.size)).sum)

def drain (p : Levels) : List Message := p.levels.reverse.flatMap Queue.drain

def hasMessage (p : Levels) (id : String) : Bool := p.levels.any (·.hasMessage id)

structure Holds (cap : Nat) (p : Levels) (q : PriorityQueue Message) : Prop where
  levels : List.Forall₂ (Queue.Holds cap) p.levels q.levels
  size : p.size = q.drain.length
  cap : q.cap = cap

end Levels

inductive QueueOp where
  | push (m : Message)
  | tryPop
  | purge
  | drain
  | hasMessage (id : String)
  | isFull
  | size

inductive Answer where
  | pushed (ok : Bool)
  | popped (m : Option Message)
  | purged (count : Nat)
  | drained (ms : List Message)
  | found (there : Bool)
  | full (full : Bool)
  | size (n : Nat)

def Queue.step (q : Queue) : QueueOp → Queue × Answer
  | .push m => ((q.push m).1, .pushed (q.push m).2)
  | .tryPop => (q.tryPop.1, .popped q.tryPop.2)
  | .purge => (q.purge.1, .purged q.purge.2)
  | .drain => (q, .drained q.drain)
  | .hasMessage id => (q, .found (q.hasMessage id))
  | .isFull => (q, .full q.isFull)
  | .size => (q, .size q.size)

def Levels.step (p : Levels) : QueueOp → Levels × Answer
  | .push m => ((p.push m).1, .pushed (p.push m).2)
  | .tryPop => (p.tryPop.1, .popped p.tryPop.2)
  | .purge => (p.purge.1, .purged p.purge.2)
  | .drain => (p, .drained p.drain)
  | .hasMessage id => (p, .found (p.hasMessage id))
  | .isFull => (p, .full p.isFull)
  | .size => (p, .size p.size)

def fifoStep (bound : Nat) (ms : List Message) : QueueOp → List Message × Answer
  | .push m => if ms.length < bound then (ms ++ [m], .pushed true) else (ms, .pushed false)
  | .tryPop => (ms.tail, .popped ms.head?)
  | .purge => ([], .purged ms.length)
  | .drain => (ms, .drained ms)
  | .hasMessage id => (ms, .found (ms.any (·.id = id)))
  | .isFull => (ms, .full (bound ≤ ms.length))
  | .size => (ms, .size ms.length)

def prioritiesStep (q : PriorityQueue Message) : QueueOp → PriorityQueue Message × Answer
  | .push m =>
    match q.push (clampPriority m.priority) m with
    | some q => (q, .pushed true)
    | none => (q, .pushed false)
  | .tryPop =>
    match q.tryPop with
    | some (m, q) => (q, .popped (some m))
    | none => (q, .popped none)
  | .purge => (q.purge, .purged q.drain.length)
  | .drain => (q, .drained q.drain)
  | .hasMessage id => (q, .found (q.drain.any (·.id = id)))
  | .isFull => (q, .full q.isFull)
  | .size => (q, .size q.drain.length)

theorem Queue.Holds.step (h : Queue.Holds cap q ms) (op : QueueOp) :
    (q.step op).2 = (fifoStep cap ms op).2 ∧ Queue.Holds cap (q.step op).1 (fifoStep cap ms op).1 := by
  cases op with
  | push m =>
    rcases h.push m with ⟨hlt, hok, hq⟩ | ⟨hfull, hq⟩
    · simp [Queue.step, fifoStep, hlt, hok, hq]
    · simp [Queue.step, fifoStep, hfull, hq, h]
  | tryPop =>
    rcases h.tryPop with ⟨rfl, hq⟩ | ⟨m, rest, rfl, hm, hq⟩
    · simp [Queue.step, fifoStep, hq, h]
    · simp [Queue.step, fifoStep, hm, hq]
  | purge => exact ⟨congrArg _ h.purge.2, h.purge.1⟩
  | drain => exact ⟨congrArg _ h.drain, h⟩
  | hasMessage id => exact ⟨congrArg _ (h.hasMessage id), h⟩
  | isFull => exact ⟨congrArg _ h.isFull, h⟩
  | size => exact ⟨congrArg _ h.size, h⟩

theorem map_eq_of_forall₂ (h : List.Forall₂ R xs ys) (hfg : ∀ x y, R x y → f x = g y) :
    xs.map f = ys.map g := by
  induction h with
  | nil => rfl
  | cons hxy _ ih => rw [map_cons, map_cons, hfg _ _ hxy, ih]

theorem forall₂_getElem? (h : List.Forall₂ R xs ys) (i : Nat) :
    (xs[i]? = none ∧ ys[i]? = none) ∨ ∃ x y, xs[i]? = some x ∧ ys[i]? = some y ∧ R x y := by
  induction h generalizing i with
  | nil => simp
  | cons hxy _ ih => cases i <;> simp_all

theorem forall₂_set (h : List.Forall₂ R xs ys) (hxy : R x y) (i : Nat) :
    List.Forall₂ R (xs.set i x) (ys.set i y) := by
  induction h generalizing i with
  | nil => exact .nil
  | cons h₀ h ih => cases i <;> simp_all

namespace Levels

theorem Holds.push (h : Holds c p q) (m : Message) :
    (q.push (clampPriority m.priority) m = none ∧ p.push m = (p, false)) ∨
    ∃ q', q.push (clampPriority m.priority) m = some q' ∧ (p.push m).2 = true ∧ Holds c (p.push m).1 q' := by
  rcases forall₂_getElem? h.levels (clampPriority m.priority) with ⟨hp, hq⟩ | ⟨r, l, hp, hq, hr⟩
  · exact .inl ⟨by rw [PriorityQueue.push, hq], by rw [Levels.push, hp]⟩
  rcases hr.push m with ⟨hlt, hok, hr'⟩ | ⟨hfull, hr'⟩
  · have hpush : q.push (clampPriority m.priority) m =
        some { q with levels := q.levels.set (clampPriority m.priority) (l ++ [m]) } := by
      rw [PriorityQueue.push, hq]
      exact if_pos (h.cap ▸ hlt)
    have hp' : p.push m = (⟨p.levels.set (clampPriority m.priority) (r.push m).1, p.size + 1⟩, true) := by
      rw [Levels.push, hp]
      dsimp only
      rw [show r.push m = ((r.push m).1, true) from Prod.ext rfl hok]
    rw [hp']
    refine .inr ⟨_, hpush, rfl, forall₂_set h.levels hr' _, ?_, h.cap⟩
    rw [(PriorityQueue.push_perm hpush).length_eq, length_cons, h.size]
  · exact .inl ⟨by rw [PriorityQueue.push, hq]; exact if_neg (by rw [h.cap]; omega),
      by simp [Levels.push, hp, hr']⟩

theorem popHighest_holds (h : List.Forall₂ (Queue.Holds c) qs ls) :
    (PriorityQueue.popHighest ls = none ∧ popHighest qs = (qs, none)) ∨
    ∃ m ls', PriorityQueue.popHighest ls = some (m, ls') ∧ (popHighest qs).2 = some m ∧
      List.Forall₂ (Queue.Holds c) (popHighest qs).1 ls' := by
  induction h with
  | nil => exact .inl ⟨rfl, rfl⟩
  | cons hq hqs ih =>
    rename_i q l qs ls
    simp only [popHighest, PriorityQueue.popHighest]
    rcases ih with ⟨hn, hn'⟩ | ⟨m, ls', hs, hs', hl⟩
    · rw [hn, hn']
      dsimp only
      have hsize := hq.size
      rcases hq.tryPop with ⟨rfl, hpop⟩ | ⟨m, rest, rfl, hm, hrest⟩
      · rw [if_neg (by rw [hsize]; exact Nat.lt_irrefl 0)]
        exact .inl ⟨rfl, rfl⟩
      · rw [if_pos (by rw [hsize]; exact Nat.succ_pos _)]
        exact .inr ⟨m, _, rfl, hm, .cons hrest hqs⟩
    · rw [hs, show popHighest qs = ((popHighest qs).1, some m) from Prod.ext rfl hs']
      exact .inr ⟨m, _, rfl, rfl, .cons hq hl⟩

section
variable (h : Holds c p q)
include h

theorem Holds.tryPop : (q.tryPop = none ∧ p.tryPop = (p, none)) ∨
    ∃ m q', q.tryPop = some (m, q') ∧ p.tryPop.2 = some m ∧ Holds c p.tryPop.1 q' := by
  unfold Levels.tryPop
  rcases popHighest_holds h.levels with ⟨hn, hp⟩ | ⟨m, ls', hs, hs', hl⟩
  · refine .inl ⟨by rw [PriorityQueue.tryPop, hn]; rfl, ?_⟩
    rw [hp]
    simp
  · have hpop : q.tryPop = some (m, { q with levels := ls' }) := by rw [PriorityQueue.tryPop, hs]; rfl
    have hdrain := PriorityQueue.tryPop_drain hpop
    have hsize := h.size
    rw [hdrain, length_cons] at hsize
    rw [show popHighest p.levels = ((popHighest p.levels).1, some m) from Prod.ext rfl hs',
      if_neg (by omega)]
    exact .inr ⟨m, _, hpop, rfl, hl, by dsimp only; omega, h.cap⟩

theorem Holds.purge : Holds c p.purge.1 q.purge ∧ p.purge.2 = q.drain.length := by
  refine ⟨⟨?_, by rw [PriorityQueue.drain_purge]; rfl, h.cap⟩, ?_⟩
  · refine forall₂_map_left_iff.mpr (forall₂_map_right_iff.mpr (h.levels.imp fun r l hr => ?_))
    split
    · exact hr.purge.1
    · have hl : l = [] := eq_nil_of_length_eq_zero (by have := hr.size; omega)
      exact hl ▸ hr
  · rw [(PriorityQueue.drain_perm q).length_eq, length_flatten]
    exact congrArg _ (map_eq_of_forall₂ h.levels fun _ _ hr => hr.size)

theorem Holds.drain : p.drain = q.drain := by
  have hmap : p.levels.map Queue.drain = q.levels.map id :=
    map_eq_of_forall₂ h.levels fun _ _ hr => hr.drain
  rw [Levels.drain, flatMap_def, map_reverse, hmap, map_id, PriorityQueue.drain]

theorem Holds.hasMessage (mid : String) : p.hasMessage mid = q.drain.any (·.id = mid) := by
  have hmap : p.levels.map (·.hasMessage mid) = q.levels.map (·.any (·.id = mid)) :=
    map_eq_of_forall₂ h.levels fun _ _ hr => hr.hasMessage mid
  have hany := congrArg (·.any id) hmap
  simpa [Levels.hasMessage, PriorityQueue.drain, any_map, any_flatten, Function.comp_def] using hany

theorem Holds.isFull : p.isFull = q.isFull := by
  have hmap : p.levels.map Queue.isFull = q.levels.map (fun l => decide (c ≤ l.length)) :=
    map_eq_of_forall₂ h.levels fun _ _ hr => hr.isFull
  have hall := congrArg (·.all id) hmap
  simpa [Levels.isFull, PriorityQueue.isFull, all_map, Function.comp_def, h.cap] using hall

theorem Holds.step (op : QueueOp) :
    (p.step op).2 = (prioritiesStep q op).2 ∧ Holds c (p.step op).1 (prioritiesStep q op).1 := by
  cases op with
  | push m =>
    rcases h.push m with ⟨hq, hp⟩ | ⟨q', hq, hok, hp⟩
    · simp [Levels.step, prioritiesStep, hq, hp, h]
    · simp [Levels.step, prioritiesStep, hq, hok, hp]
  | tryPop =>
    rcases h.tryPop with ⟨hq, hp⟩ | ⟨m, q', hq, hm, hp⟩
    · simp [Levels.step, prioritiesStep, hq, hp, h]
    · simp [Levels.step, prioritiesStep, hq, hm, hp]
  | purge => exact ⟨congrArg _ h.purge.2, h.purge.1⟩
  | drain => exact ⟨congrArg _ h.drain, h⟩
  | hasMessage id => exact ⟨congrArg _ (h.hasMessage id), h⟩
  | isFull => exact ⟨congrArg _ h.isFull, h⟩
  | size => exact ⟨congrArg _ h.size, h⟩

end

end Levels

theorem Queue.holds_new (h₁ : 1 ≤ c) (h₂ : c ≤ 2 ^ 32) :
    Queue.Holds (nextPowerOfTwo (c : Nat)) (.new c) [] where
  length := length_replicate
  mask := ⟨_, nextPowerOfTwo_eq h₁ h₂, by rw [← nextPowerOfTwo_eq h₁ h₂]; rfl⟩
  size := rfl
  head := rfl
  bound := Nat.zero_le _
  slots := nofun

theorem Levels.holds_new (h₁ : 1 ≤ c) (h₂ : c ≤ 2 ^ 32) :
    Levels.Holds (nextPowerOfTwo (c : Nat)) (.new c) (.new numPriorityLevels (nextPowerOfTwo c)) where
  levels := by
    unfold Levels.new PriorityQueue.new
    generalize numPriorityLevels = n
    induction n with
    | zero => exact .nil
    | succ n ih => exact .cons (Queue.holds_new h₁ h₂) ih
  size := by rw [PriorityQueue.drain_new]; rfl
  cap := rfl

/-- To any calls, a ring answers like a FIFO bounded by the least power of two that is no less than
its capacity, and the rings of a priority queue like one such FIFO for each priority, of which the
highest that is not empty is served first. -/
theorem rings_refine_fifos (c : Nat) (h₁ : 1 ≤ c) (h₂ : c ≤ 2 ^ 32) :
    ∃ bound, (∃ k, bound = 2 ^ k) ∧ c ≤ bound ∧ (∀ j, c ≤ 2 ^ j → bound ≤ 2 ^ j) ∧
      (∀ ops, answers Queue.step (.new c) ops = answers (fifoStep bound) [] ops) ∧
      (∀ ops, answers Levels.step (.new c) ops =
        answers prioritiesStep (.new numPriorityLevels bound) ops) ∧
      ∀ q : PriorityQueue Message, q.drain = q.tryPop.elim [] fun r => r.1 :: r.2.drain := by
  have heq := nextPowerOfTwo_eq h₁ h₂
  refine ⟨nextPowerOfTwo c, ⟨_, heq⟩, ?_, fun j hj => ?_, fun ops => ?_, fun ops => ?_, fun q => ?_⟩
  · have := Nat.lt_size_self (c - 1)
    omega
  · rw [heq]
    exact Nat.pow_le_pow_right Nat.two_pos (Nat.size_le.mpr (by omega))
  · exact answers_eq (Queue.Holds _) (fun _ _ op h => h.step op) (Queue.holds_new h₁ h₂) ops
  · exact answers_eq (Levels.Holds _) (fun _ _ op h => h.step op) (Levels.holds_new h₁ h₂) ops
  · cases hp : q.tryPop with
    | none => exact PriorityQueue.tryPop_none hp
    | some r => exact PriorityQueue.tryPop_drain hp

theorem rings_refine_fifos_three : ∃ bound, (∃ k, bound = 2 ^ k) ∧ 3 ≤ bound ∧ ∀ ops,
      answers Queue.step (.new 3) ops = answers (fifoStep bound) [] ops :=
  let ⟨bound, hk, hle, _, hq, _⟩ := rings_refine_fifos 3 (by decide) (by decide)
  ⟨bound, hk, hle, hq⟩

end Boltq.QueuePlane
