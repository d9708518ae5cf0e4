import Boltq.Stream.CursorLog

namespace Boltq.Stream
open Lib Std List Function

inductive CursorKeyErr where
  | malformedKey
  | malformedPartition
  deriving DecidableEq

def isBlank (c : UInt8) : Bool := [32, 9, 11, 12, 13].contains c

def scanDigits (s : Bytes) : Option Nat := parseDecimal (s.takeWhile (fun c => (digitVal c).isSome))

def scanInt (s : Bytes) : Option Int :=
  match s.dropWhile isBlank with
  | 45 :: s => (scanDigits s).map Int.negOfNat
  | 43 :: s => (scanDigits s).map Int.ofNat
  | s => (scanDigits s).map Int.ofNat

def scanInt32 (s : Bytes) : Option Int :=
  (scanInt s).filter (fun i => decide (-2 ^ 31 ≤ i ∧ i < 2 ^ 31))

def parseCursorKey (s : Bytes) : Except CursorKeyErr CursorKey :=
  match s.splitOn 0 with
  | [topic, partition, group, member] =>
    match scanInt32 partition with
    | none => .error .malformedPartition
    | some partition => .ok ⟨topic, partition, group, member⟩
  | _ => .error .malformedKey

def trimNul (s : Bytes) : Bytes := if s.getLast? = some 0 then s.dropLast else s

def groupPrefix (topic : Bytes) (partition : Int) (group : Bytes) : Bytes :=
  trimNul (CursorKey.mk topic partition group []).string ++ [0]

namespace CursorStore

def groupMembers (c : CursorStore) (topic : Bytes) (partition : Int) (group : Bytes) :
    TreeMap Bytes Nat :=
  c.positions.toList.foldl (fun out e =>
    if (groupPrefix topic partition group).isPrefixOf e.1 then
      match parseCursorKey e.1 with
      | .error _ => out
      | .ok key => out.insert key.member e.2
    else out) ∅

def slowestInGroup (c : CursorStore) (topic : Bytes) (partition : Int) (group : Bytes) :
    Option Nat :=
  let members := c.groupMembers topic partition group
  if members.toList.isEmpty then none
  else some (members.toList.foldl (fun least e => if e.2 < least then e.2 else least) (2 ^ 64 - 1))

end CursorStore

def cursorKey (userID principalDevice sessionDevice topic : Bytes) (partition : Int) : CursorKey :=
  ⟨topic, partition, [117, 115, 101, 114, 58] ++ userID,
    if sessionDevice ≠ [] then sessionDevice else principalDevice⟩

structure CursorKey.Plain (k : CursorKey) : Prop where
  partition : -2 ^ 31 ≤ k.partition ∧ k.partition < 2 ^ 31
  topic : 0 ∉ k.topic
  group : 0 ∉ k.group
  member : 0 ∉ k.member

theorem scanDigits_decimal (n : Nat) : scanDigits (decimal n) = some n := by
  rw [scanDigits, takeWhile_eq_self_iff.mpr (fun c hc => digitVal_of_mem_decimal hc),
    parseDecimal_decimal]

theorem zero_notMem_signedDecimal (i : Int) : 0 ∉ signedDecimal i := by
  have hdigits : ∀ n, 0 ∉ decimal n := fun n h =>
    absurd (digitVal_of_mem_decimal h) (by decide)
  unfold signedDecimal
  split
  · intro h
    rcases mem_cons.mp h with h | h
    · cases h
    · exact hdigits _ h
  · exact hdigits _

theorem scanInt_signedDecimal (i : Int) : scanInt (signedDecimal i) = some i := by
  unfold signedDecimal
  split
  · rename_i hneg
    rw [scanInt, dropWhile_cons_of_neg (by decide)]
    change (scanDigits (decimal i.natAbs)).map Int.negOfNat = some i
    rw [scanDigits_decimal, Option.map_some, Int.negOfNat_eq, Option.some.injEq,
      Int.ofNat_eq_natCast]
    omega
  · rename_i hpos
    obtain ⟨d, s, hd, hs⟩ := decimal_head i.natAbs
    have hchar : ∀ d < 10, isBlank (hexDigit d) = false ∧ hexDigit d ≠ 45 ∧ hexDigit d ≠ 43 := by
      decide
    obtain ⟨hblank, hminus, hplus⟩ := hchar d hd
    have hdigits := scanDigits_decimal i.natAbs
    rw [hs] at hdigits ⊢
    unfold scanInt
    rw [dropWhile_cons_of_neg (by simp [hblank])]
    split
    · rename_i he
      exact absurd (head_eq_of_cons_eq he) hminus
    · rename_i he
      exact absurd (head_eq_of_cons_eq he) hplus
    · rw [hdigits, Option.map_some, Option.some.injEq]
      exact Int.natAbs_of_nonneg (Int.not_lt.mp hpos)

theorem signedDecimal_inj (h : signedDecimal i = signedDecimal j) : i = j := by
  have hi := scanInt_signedDecimal i
  rw [h, scanInt_signedDecimal] at hi
  exact (Option.some.inj hi).symm

namespace CursorKey
variable {k k' : CursorKey}

theorem string_parts (k : CursorKey) :
    k.string = [0].intercalate [k.topic, signedDecimal k.partition, k.group, k.member] := by
  simp [CursorKey.string, List.intercalate]

theorem Plain.splitOn_string (h : k.Plain) :
    k.string.splitOn 0 = [k.topic, signedDecimal k.partition, k.group, k.member] := by
  rw [string_parts]
  apply splitOn_intercalate
  · intro l hl
    simp only [mem_cons, not_mem_nil, or_false] at hl
    rcases hl with rfl | rfl | rfl | rfl
    · exact h.topic
    · exact zero_notMem_signedDecimal _
    · exact h.group
    · exact h.member
  · exact cons_ne_nil _ _

theorem count_string (k : CursorKey) :
    k.string.count 0 = k.topic.count 0 + k.group.count 0 + k.member.count 0 + 3 := by
  have hp := count_eq_zero.mpr (zero_notMem_signedDecimal k.partition)
  simp only [CursorKey.string, count_append, count_cons_self, hp]
  omega

theorem Plain.string_inj (h : k.Plain) (he : k.string = k'.string) : k = k' := by
  have hcount := congrArg (List.count 0) he
  have htopic := count_eq_zero.mpr h.topic
  have hgroup := count_eq_zero.mpr h.group
  have hmember := count_eq_zero.mpr h.member
  rw [count_string, count_string] at hcount
  have hsplit := congrArg (List.splitOn 0) he
  rw [h.splitOn_string, string_parts k', splitOn_intercalate _ ?_ (cons_ne_nil _ _)]
    at hsplit
  · obtain ⟨topic, partition, group, member⟩ := k
    obtain ⟨topic', partition', group', member'⟩ := k'
    simp only [List.cons.injEq, and_true] at hsplit
    obtain ⟨rfl, hp, rfl, rfl⟩ := hsplit
    rw [signedDecimal_inj hp]
  · intro l hl
    simp only [mem_cons, not_mem_nil, or_false] at hl
    rcases hl with rfl | rfl | rfl | rfl
    · exact count_eq_zero.mp (by omega)
    · exact zero_notMem_signedDecimal _
    · exact count_eq_zero.mp (by omega)
    · exact count_eq_zero.mp (by omega)

theorem Plain.parse (h : k.Plain) : parseCursorKey k.string = .ok k := by
  have hscan : scanInt32 (signedDecimal k.partition) = some k.partition := by
    rw [scanInt32, scanInt_signedDecimal, Option.filter_some, if_pos (decide_eq_true h.partition)]
  unfold parseCursorKey
  rw [h.splitOn_string]
  dsimp only
  rw [hscan]

theorem groupPrefix_append (topic : Bytes) (partition : Int) (group member : Bytes) :
    groupPrefix topic partition group ++ member =
      (CursorKey.mk topic partition group member).string := by
  have hs : ∀ member, (CursorKey.mk topic partition group member).string =
      topic ++ 0 :: (signedDecimal partition ++ 0 :: group) ++ [0] ++ member := by
    intro member
    simp [CursorKey.string]
  unfold groupPrefix trimNul
  rw [hs, hs, append_nil, if_pos List.getLast?_concat, dropLast_concat]

end CursorKey

inductive ReaderOp where
  | commit (key : CursorKey) (seq : UInt64)
  | delete (key : CursorKey)
  | compact
  | flush
  | close

def ReaderOp.Plain : ReaderOp → Prop
  | .commit key _ => key.Plain
  | _ => True

structure Positions where
  position : CursorKey → Option Nat
  closed : Bool

def Positions.apply (m : Positions) (op : ReaderOp) : Positions :=
  if m.closed then m
  else
    match op with
    | .commit key seq =>
      { m with
        position := update m.position key
          (some (max ((m.position key).getD 0) seq.toNat)) }
    | .delete key => { m with position := update m.position key none }
    | .compact | .flush => m
    | .close => { m with closed := true }

namespace CursorStore
variable {c : CursorStore}

def apply (c : CursorStore) : ReaderOp → CursorStore
  | .commit key seq => (c.commit key seq.toNat).1
  | .delete key => (c.delete key).1
  | .compact => c.compact.1
  | .flush => c.flush
  | .close => c.close

def readers (c : CursorStore) : Positions := ⟨c.position, c.closed⟩

structure Plain (c : CursorStore) : Prop where
  key : ∀ (s : Bytes) v, c.positions[s]? = some v → ∃ k : CursorKey, k.Plain ∧ k.string = s
  word : ∀ (s : Bytes) v, c.positions[s]? = some v → v < 2 ^ 64

theorem Plain.of_positions {c' : CursorStore} (h : c.Plain) (he : c'.positions = c.positions) :
    c'.Plain := ⟨he ▸ h.key, he ▸ h.word⟩

theorem Plain.string_inj (h : c.Plain) {k' : CursorKey} (hv : c.position k = some v)
    (he : k.string = k'.string) : k = k' := by
  obtain ⟨t, ht, hs⟩ := h.key _ v hv
  rw [← ht.string_inj hs, ← ht.string_inj (hs.trans he)]

theorem apply_closed (op : ReaderOp) (hc : c.closed = true) : c.apply op = c := by
  have hopen : c.closed ≠ false := by simp [hc]
  cases op with
  | commit key seq => exact commit_stays (fun hm => hopen hm.1)
  | delete key => exact CursorLog.delete_stays (fun hm => hopen hm.1)
  | compact => exact CursorLog.compact_stays hc
  | flush => exact if_pos hc
  | close => exact if_pos hc

theorem commit_position (hc : c.closed = false) (key : CursorKey) (seq : Nat) :
    (c.commit key seq).1.position key = some (max ((c.position key).getD 0) seq) := by
  by_cases hm : c.Moves key seq
  · have hle : (c.position key).getD 0 ≤ seq := by
      cases hp : c.position key with
      | none => exact Nat.zero_le seq
      | some cur => exact Nat.le_of_lt (hm.2 cur hp)
    rw [commit_moves hm, Nat.max_eq_right hle]
    exact TreeMap.getElem?_insert_self
  · rw [commit_stays hm]
    cases hp : c.position key with
    | none => exact absurd ⟨hc, fun cur hcur => absurd (hp.symm.trans hcur) nofun⟩ hm
    | some cur =>
      have hle : seq ≤ cur := by
        refine Nat.le_of_not_lt (fun hlt => hm ⟨hc, fun cur' hcur => ?_⟩)
        cases hp.symm.trans hcur
        exact hlt
      rw [Option.getD_some, Nat.max_eq_left hle]

theorem commit_position_other {key : CursorKey} (hk : key.Plain) (he : k ≠ key) (seq : Nat) :
    (c.commit key seq).1.position k = c.position k := by
  by_cases hm : c.Moves key seq
  · rw [commit_moves hm]
    exact getElem?_insert_other _ (fun hs => he (hk.string_inj hs.symm).symm)
  · rw [commit_stays hm]

theorem commit_closed (key : CursorKey) (seq : Nat) : (c.commit key seq).1.closed = c.closed := by
  by_cases hm : c.Moves key seq
  · rw [commit_moves hm]
    rfl
  · rw [commit_stays hm]

section
variable (h : c.Plain)
include h

theorem Plain.commit {key : CursorKey} (hk : key.Plain) (seq : UInt64) :
    (c.commit key seq.toNat).1.Plain := by
  by_cases hm : c.Moves key seq.toNat
  · rw [commit_moves hm]
    refine ⟨fun s v hv => ?_, fun s v hv => ?_⟩
    · rcases insert_cases hv with ⟨rfl, _⟩ | hv
      · exact ⟨key, hk, rfl⟩
      · exact h.key s v hv.2
    · rcases insert_cases hv with ⟨_, rfl⟩ | hv
      · exact seq.toNat_lt
      · exact h.word s v hv.2
  · rw [commit_stays hm]
    exact h

theorem Plain.delete_position (hc : c.closed = false) (key : CursorKey) :
    (c.delete key).1.position = update c.position key none := by
  funext k
  by_cases hk : key.string ∈ c.positions
  · rw [CursorLog.delete_eq hc hk]
    by_cases he : k = key
    · rw [he, update_self]
      exact TreeMap.getElem?_erase_self
    · obtain ⟨v, hv⟩ := Option.isSome_iff_exists.mp (TreeMap.isSome_getElem?_iff_mem.mpr hk)
      rw [update_of_ne he]
      exact getElem?_erase_other (fun hs => he (h.string_inj hv hs.symm).symm)
  · rw [CursorLog.delete_stays (fun hm => hk hm.2),
      update_eq_self_iff.mpr (TreeMap.getElem?_eq_none hk).symm]

theorem Plain.delete (hc : c.closed = false) (key : CursorKey) :
    (c.delete key).1.Plain ∧ (c.delete key).1.closed = c.closed := by
  by_cases hk : key.string ∈ c.positions
  · rw [CursorLog.delete_eq hc hk]
    exact ⟨⟨fun s v hv => h.key s v (getElem?_of_erase hv),
      fun s v hv => h.word s v (getElem?_of_erase hv)⟩, rfl⟩
  · rw [CursorLog.delete_stays (fun hm => hk hm.2)]
    exact ⟨h, rfl⟩

theorem Plain.apply {op : ReaderOp} (hop : op.Plain) :
    (c.apply op).Plain ∧ (c.apply op).readers = c.readers.apply op := by
  by_cases hc : c.closed = true
  · rw [apply_closed op hc]
    exact ⟨h, (if_pos hc).symm⟩
  have hopen : c.closed = false := Bool.eq_false_iff.mpr hc
  unfold Positions.apply
  rw [if_neg (show ¬ c.readers.closed = true from hc)]
  cases op with
  | commit key seq =>
    refine ⟨h.commit hop seq, ?_⟩
    refine congrArg₂ Positions.mk (funext fun k => ?_) (commit_closed key seq.toNat)
    by_cases he : k = key
    · rw [he, update_self]
      exact commit_position hopen key seq.toNat
    · rw [update_of_ne he]
      exact commit_position_other hop he seq.toNat
  | delete key =>
    obtain ⟨hplain, hclosed⟩ := h.delete hopen key
    exact ⟨hplain, congrArg₂ Positions.mk (h.delete_position hopen key) hclosed⟩
  | compact =>
    rw [CursorStore.apply, compact_eq hopen]
    exact ⟨h.of_positions rfl, rfl⟩
  | flush =>
    rw [CursorStore.apply, flush, if_neg hc]
    exact ⟨h.of_positions rfl, rfl⟩
  | close =>
    rw [CursorStore.apply, close, if_neg hc]
    exact ⟨h.of_positions rfl, rfl⟩

theorem Plain.foldl {ops : List ReaderOp} (hops : ∀ op ∈ ops, op.Plain) :
    (ops.foldl CursorStore.apply c).Plain ∧
    (ops.foldl CursorStore.apply c).readers = ops.foldl Positions.apply c.readers := by
  induction ops generalizing c with
  | nil => exact ⟨h, rfl⟩
  | cons op ops ih =>
    obtain ⟨hop, hrest⟩ := forall_mem_cons.mp hops
    obtain ⟨hplain, hreaders⟩ := h.apply hop
    rw [foldl_cons, foldl_cons, ← hreaders]
    exact ih hplain hrest

end

def memberOf (topic : Bytes) (partition : Int) (group : Bytes) (e : Bytes × Nat) :
    Option (Bytes × Nat) :=
  if (groupPrefix topic partition group).isPrefixOf e.1 then
    (parseCursorKey e.1).toOption.map (fun key => (key.member, e.2))
  else none

theorem groupMembers_eq (c : CursorStore) (topic : Bytes) (partition : Int) (group : Bytes) :
    c.groupMembers topic partition group =
      replay (c.positions.toList.filterMap (memberOf topic partition group)) := by
  unfold groupMembers replay
  rw [foldl_filterMap]
  congr 1
  funext out e
  unfold memberOf
  split
  · cases parseCursorKey e.1 <;> rfl
  · rfl

theorem Plain.memberOf_iff {partition : Int} (h : c.Plain) (he : c.positions[e.1]? = some e.2) :
    memberOf topic partition group e = some (member, v) ↔
      e = ((CursorKey.mk topic partition group member).string, v) := by
  obtain ⟨s, w⟩ := e
  obtain ⟨k, hk, rfl⟩ := h.key _ _ he
  unfold memberOf
  rw [hk.parse]
  constructor
  · intro hm
    split at hm
    · rename_i hpre
      obtain ⟨rest, hrest⟩ := List.isPrefixOf_iff_prefix.mp hpre
      rw [CursorKey.groupPrefix_append] at hrest
      cases hk.string_inj hrest.symm
      cases hm
      rfl
    · cases hm
  · intro heq
    obtain ⟨hs, rfl⟩ := Prod.mk.inj heq
    cases hk.string_inj hs
    rw [if_pos]
    · rfl
    · rw [← CursorKey.groupPrefix_append]
      exact List.isPrefixOf_iff_prefix.mpr (prefix_append _ _)

theorem Plain.groupMembers (h : c.Plain) (topic : Bytes) (partition : Int) (group member : Bytes) :
    (c.groupMembers topic partition group)[member]? =
      c.position ⟨topic, partition, group, member⟩ := by
  rw [groupMembers_eq, getElem?_replay]
  have hmem : ∀ v, (member, v) ∈ c.positions.toList.filterMap (memberOf topic partition group) ↔
      c.position ⟨topic, partition, group, member⟩ = some v := by
    intro v
    rw [mem_filterMap]
    constructor
    · rintro ⟨e, he, hm⟩
      have hin := TreeMap.mem_toList_iff_getElem?_eq_some.mp he
      rw [h.memberOf_iff hin] at hm
      rw [hm] at hin
      exact hin
    · intro hv
      exact ⟨_, TreeMap.mem_toList_iff_getElem?_eq_some.mpr hv, (h.memberOf_iff (e := (_, v)) hv).mpr rfl⟩
  cases hl : latest member (c.positions.toList.filterMap (memberOf topic partition group)) with
  | some v => exact ((hmem v).mp (mem_of_latest hl)).symm
  | none =>
    cases hp : c.position ⟨topic, partition, group, member⟩ with
    | none => rfl
    | some v =>
      obtain ⟨b, hb⟩ := latest_of_mem ((hmem v).mpr hp)
      cases hl.symm.trans hb

theorem least_spec (es : List (Bytes × Nat)) (m : Nat) :
    (es.foldl (fun least e => if e.2 < least then e.2 else least) m = m ∨
      ∃ e ∈ es, e.2 = es.foldl (fun least e => if e.2 < least then e.2 else least) m) ∧
    es.foldl (fun least e => if e.2 < least then e.2 else least) m ≤ m ∧
    ∀ e ∈ es, es.foldl (fun least e => if e.2 < least then e.2 else least) m ≤ e.2 := by
  induction es generalizing m with
  | nil => exact ⟨.inl rfl, Nat.le_refl m, forall_mem_nil _⟩
  | cons e es ih =>
    rw [foldl_cons]
    obtain ⟨hat, hle, hall⟩ := ih (if e.2 < m then e.2 else m)
    generalize es.foldl (fun least e => if e.2 < least then e.2 else least)
      (if e.2 < m then e.2 else m) = r at hat hle hall ⊢
    have hmin : (if e.2 < m then e.2 else m) ≤ e.2 ∧ (if e.2 < m then e.2 else m) ≤ m := by
      split <;> omega
    refine ⟨?_, by omega, forall_mem_cons.mpr ⟨by omega, hall⟩⟩
    rcases hat with hat | ⟨x, hx, hxr⟩
    · split at hat
      · exact .inr ⟨e, mem_cons_self, hat.symm⟩
      · exact .inl hat
    · exact .inr ⟨x, mem_cons_of_mem e hx, hxr⟩

def IsSlowest (positions : Bytes → Option Nat) : Option Nat → Prop
  | none => ∀ member, positions member = none
  | some least => IsLeast {v | ∃ member, positions member = some v} least

theorem Plain.slowest (h : c.Plain) (topic : Bytes) (partition : Int) (group : Bytes) :
    IsSlowest (fun member => c.position ⟨topic, partition, group, member⟩)
      (c.slowestInGroup topic partition group) := by
  have hiff : ∀ member v, (member, v) ∈ (c.groupMembers topic partition group).toList ↔
      c.position ⟨topic, partition, group, member⟩ = some v := by
    intro member v
    rw [TreeMap.mem_toList_iff_getElem?_eq_some, h.groupMembers]
  unfold slowestInGroup
  dsimp only
  generalize (c.groupMembers topic partition group).toList = es at hiff
  cases es with
  | nil =>
    intro member
    dsimp only
    cases hp : c.position ⟨topic, partition, group, member⟩ with
    | none => rfl
    | some v => cases (hiff member v).mpr hp
  | cons e es =>
    rw [isEmpty_cons, if_neg Bool.false_ne_true]
    obtain ⟨hat, hle, hall⟩ := least_spec (e :: es) (2 ^ 64 - 1)
    refine ⟨?_, ?_⟩
    · rcases hat with hat | ⟨x, hx, hxr⟩
      · have hword : e.2 < 2 ^ 64 := h.word _ _ ((hiff e.1 e.2).mp mem_cons_self)
        have hmin := hall e mem_cons_self
        refine ⟨e.1, ((hiff e.1 e.2).mp mem_cons_self).trans (congrArg some ?_)⟩
        omega
      · exact ⟨x.1, (hxr ▸ (hiff x.1 x.2).mp hx)⟩
    · rintro v ⟨member, hv⟩
      exact hall (member, v) ((hiff member v).mpr hv)

end CursorStore

/-- While no key that is committed to has the separator in its texts, and none that
was stored before, no two readers share a position: whatever is done with the store,
each reader's position is what was committed under its own key, the members of a
group are those that committed under it, and the slowest of them is found. -/
theorem plain_keys_isolate_readers {c : CursorStore} (hc : c.Plain) {ops : List ReaderOp}
    (hops : ∀ op ∈ ops, op.Plain) : (∀ k k' : CursorKey, k.Plain → k.string = k'.string → k = k') ∧
    (∀ k, (ops.foldl CursorStore.apply c).position k =
      (ops.foldl Positions.apply c.readers).position k) ∧ (∀ topic partition group member,
      ((ops.foldl CursorStore.apply c).groupMembers topic partition group)[member]? =
        (ops.foldl Positions.apply c.readers).position ⟨topic, partition, group, member⟩) ∧
    ∀ topic partition group, CursorStore.IsSlowest
        (fun member => (ops.foldl Positions.apply c.readers).position
          ⟨topic, partition, group, member⟩)
        ((ops.foldl CursorStore.apply c).slowestInGroup topic partition group) := by
  obtain ⟨hplain, hreaders⟩ := hc.foldl hops
  rw [← hreaders]
  exact ⟨fun k k' hk he => hk.string_inj he, fun k => rfl, hplain.groupMembers, hplain.slowest⟩

def plainCommits : List ReaderOp :=
  [.commit ⟨[116], 0, [117], [97]⟩ 5, .commit ⟨[116], 0, [117], [98]⟩ 9,
    .commit ⟨[116], 0, [119], [97]⟩ 2]

theorem plain_keys_three_readers : (∀ op ∈ plainCommits, op.Plain) ∧
    ((plainCommits.foldl CursorStore.apply (openCursorStore [])).groupMembers
      [116] 0 [117])[([98] : Bytes)]? = some 9 ∧
    (plainCommits.foldl CursorStore.apply (openCursorStore [])).slowestInGroup [116] 0 [117] =
      some 5 := by
  have hempty : (openCursorStore []).Plain :=
    ⟨fun s v hv => absurd (mem_of_latest ((getElem?_replay s _).symm.trans hv)) not_mem_nil,
      fun s v hv => absurd (mem_of_latest ((getElem?_replay s _).symm.trans hv)) not_mem_nil⟩
  have hops : ∀ op ∈ plainCommits, op.Plain := by
    simp only [plainCommits, forall_mem_cons, ReaderOp.Plain]
    exact ⟨⟨by decide, by decide, by decide, by decide⟩,
      ⟨by decide, by decide, by decide, by decide⟩,
      ⟨by decide, by decide, by decide, by decide⟩, forall_mem_nil _⟩
  obtain ⟨_, _, hmembers, _⟩ := plain_keys_isolate_readers hempty hops
  refine ⟨hops, (hmembers [116] 0 [117] [98]).trans (by decide +kernel), by decide +kernel⟩

def sharedCommits : List ReaderOp :=
  [.commit (cursorKey [117] [97, 0, 98] [] [116] 0) 5, .commit (cursorKey [117] [99] [] [116] 0) 9]

/-- The device `b` of the user `u\0a`, who never read anything, has the position of
the device `a\0b` of `u`; that device is not found among those of `u`, and the
slowest of them seems to be the other one. -/
theorem separator_is_shared :
    cursorKey [117, 0, 97] [98] [] [116] 0 ≠ cursorKey [117] [97, 0, 98] [] [116] 0 ∧
    (sharedCommits.foldl CursorStore.apply (openCursorStore [])).position
      (cursorKey [117, 0, 97] [98] [] [116] 0) = some 5 ∧
    ((sharedCommits.foldl CursorStore.apply (openCursorStore [])).groupMembers
      [116] 0 (cursorKey [117] [] [] [116] 0).group)[([97, 0, 98] : Bytes)]? = none ∧
    (sharedCommits.foldl CursorStore.apply (openCursorStore [])).slowestInGroup
      [116] 0 (cursorKey [117] [] [] [116] 0).group = some 9 := by
  decide +kernel

end Boltq.Stream
