import Boltq.Lib.Search
import Boltq.Stream.Record

namespace Boltq.Stream
open Lib List

structure EpochEntry where
  epoch : Nat
  startSeq : Nat
  deriving DecidableEq, Repr

def undefinedEpoch : Nat := 0

/-- The epoch history of one partition. The checkpoint file is rewritten whole
and renamed into place, so what is on disk is always such a list too. -/
@[ext] structure LeaderEpochCache where
  entries : List EpochEntry
  deriving DecidableEq, Repr

namespace LeaderEpochCache

def openEpochCache (checkpoint : List EpochEntry) : LeaderEpochCache :=
  ⟨checkpoint.insertionSort (fun a b => a.epoch ≤ b.epoch)⟩

section
variable (c : LeaderEpochCache)

def assign (epoch startSeq : Nat) : Except Err LeaderEpochCache :=
  if epoch = undefinedEpoch then .ok c
  else
    match c.entries.getLast? with
    | none => .ok ⟨[⟨epoch, startSeq⟩]⟩
    | some last =>
      if epoch ≤ last.epoch then .ok c
      else if startSeq < last.startSeq then
        .error (.epochOrder epoch startSeq last.epoch last.startSeq)
      else .ok ⟨c.entries ++ [⟨epoch, startSeq⟩]⟩

def latest : Nat × Nat :=
  match c.entries.getLast? with
  | none => (undefinedEpoch, 0)
  | some last => (last.epoch, last.startSeq)

def endOffsetFor (epoch logEndSeq : Nat) : Nat × Nat :=
  match c.entries.getLast? with
  | none => (undefinedEpoch, 0)
  | some last =>
    if last.epoch ≤ epoch then (last.epoch, logEndSeq)
    else
      let i := searchList c.entries (fun e => decide (epoch < e.epoch))
      match i, c.entries[i - 1]?, c.entries[i]? with
      | _+1, some prev, some next => (prev.epoch, next.startSeq)
      | _, _, _ => (undefinedEpoch, 0)

def epochForSeq (seq : Nat) : Nat :=
  let i := searchList c.entries (fun e => decide (seq < e.startSeq))
  if i = 0 then undefinedEpoch else (c.entries[i - 1]?).elim undefinedEpoch EpochEntry.epoch

def truncateFromSeq (seq : Nat) : LeaderEpochCache :=
  ⟨c.entries.take (searchList c.entries (fun e => decide (seq ≤ e.startSeq)))⟩

def truncateBeforeSeq (seq : Nat) : LeaderEpochCache :=
  let i := searchList c.entries (fun e => decide (seq < e.startSeq))
  if i ≤ 1 then c else ⟨c.entries.drop (i - 1)⟩

def Ordered : Prop :=
  c.entries.Pairwise (fun a b => a.epoch < b.epoch ∧ a.startSeq ≤ b.startSeq)
  deriving Decidable

end

variable {c d : LeaderEpochCache} {epoch startSeq seq : Nat}

theorem Ordered.split_start (h : c.Ordered) (p : Nat → Bool)
    (hp : ∀ a b, a ≤ b → p a = true → p b = true) :
    Split (fun e : EpochEntry => p e.startSeq) c.entries :=
  List.Pairwise.imp (fun hab => hp _ _ hab.2) h

theorem Ordered.split_epoch (h : c.Ordered) (epoch : Nat) :
    Split (fun e : EpochEntry => decide (epoch < e.epoch)) c.entries :=
  List.Pairwise.imp (fun hab => by simp only [decide_eq_true_eq]; omega) h

theorem Ordered.split_after (h : c.Ordered) (seq : Nat) :
    Split (fun e : EpochEntry => decide (seq < e.startSeq)) c.entries :=
  h.split_start (fun n => decide (seq < n)) (by simp only [decide_eq_true_eq]; omega)

theorem Ordered.split_from (h : c.Ordered) (seq : Nat) :
    Split (fun e : EpochEntry => decide (seq ≤ e.startSeq)) c.entries :=
  h.split_start (fun n => decide (seq ≤ n)) (by simp only [decide_eq_true_eq]; omega)

theorem Ordered.last (h : c.Ordered) {last e : EpochEntry}
    (hl : c.entries.getLast? = some last) (he : e ∈ c.entries) :
    e = last ∨ e.epoch < last.epoch ∧ e.startSeq ≤ last.startSeq := by
  obtain ⟨init, hi⟩ := getLast?_eq_some_iff.mp hl
  rw [Ordered, hi, pairwise_append] at h
  rw [hi] at he
  rcases mem_append.mp he with hm | hm
  · exact .inr (h.2.2 e hm last (by simp))
  · exact .inl (by simpa using hm)

def begun (c : LeaderEpochCache) (seq : Nat) : List EpochEntry :=
  c.entries.filter (fun e => decide (e.startSeq ≤ seq))

theorem Ordered.epochForSeq_eq (h : c.Ordered) :
    c.epochForSeq seq = (c.begun seq).getLast?.elim undefinedEpoch EpochEntry.epoch := by
  have hb := h.split_after seq
  have hn : (fun e : EpochEntry => !decide (seq < e.startSeq)) =
      fun e => decide (e.startSeq ≤ seq) := by
    funext e
    by_cases hlt : seq < e.startSeq
    · simp [hlt]
    · simp [hlt, Nat.le_of_not_lt hlt]
  have ht := hb.take_eq_filter
  have hx := hb.before
  rw [hn] at ht hx
  unfold epochForSeq begun
  simp only []
  split
  · rename_i h0
    rw [h0, take_zero] at ht
    simp [← ht]
  · rename_i h0
    rw [hx, if_neg h0]

theorem Ordered.epochForSeq_cases (h : c.Ordered) (seq : Nat) :
    (c.epochForSeq seq = undefinedEpoch ∧ ∀ e ∈ c.entries, seq < e.startSeq) ∨
    ∃ e ∈ c.entries, e.startSeq ≤ seq ∧ c.epochForSeq seq = e.epoch ∧
      ∀ x ∈ c.entries, x.startSeq ≤ seq → x.epoch ≤ e.epoch := by
  rw [h.epochForSeq_eq]
  cases hl : (c.begun seq).getLast? with
  | none =>
    left
    refine ⟨rfl, ?_⟩
    intro e he
    have hnil := getLast?_eq_none_iff.mp hl
    have := filter_eq_nil_iff.mp hnil e he
    simpa using this
  | some e =>
    right
    have hm := mem_filter.mp (mem_of_getLast? hl)
    refine ⟨e, hm.1, by simpa using hm.2, rfl, ?_⟩
    intro x hx hs
    have hxb : x ∈ c.begun seq := mem_filter.mpr ⟨hx, by simpa using hs⟩
    have ho : Ordered ⟨c.begun seq⟩ := h.sublist filter_sublist
    rcases ho.last hl hxb with rfl | hlt
    · exact Nat.le_refl _
    · exact Nat.le_of_lt hlt.1

theorem latest_append (es : List EpochEntry) (e : EpochEntry) :
    latest ⟨es ++ [e]⟩ = (e.epoch, e.startSeq) := by
  simp [latest]

theorem assign_newer (he : c.latest.1 < epoch) : c.assign epoch startSeq =
      if startSeq < c.latest.2 then .error (.epochOrder epoch startSeq c.latest.1 c.latest.2)
      else .ok ⟨c.entries ++ [⟨epoch, startSeq⟩]⟩ := by
  have hne : epoch ≠ undefinedEpoch := by unfold undefinedEpoch; omega
  unfold assign latest at *
  rw [if_neg hne]
  cases hl : c.entries.getLast? with
  | none => simp [getLast?_eq_none_iff.mp hl]
  | some last =>
    simp only [hl] at he ⊢
    rw [if_neg (by omega)]

theorem Ordered.latest_ge (h : c.Ordered) (he : e ∈ c.entries) :
    e.epoch ≤ c.latest.1 ∧ e.startSeq ≤ c.latest.2 := by
  unfold latest
  cases hl : c.entries.getLast? with
  | none => simp [getLast?_eq_none_iff.mp hl] at he
  | some last =>
    rcases h.last hl he with rfl | hlt
    · exact ⟨Nat.le_refl _, Nat.le_refl _⟩
    · exact ⟨Nat.le_of_lt hlt.1, hlt.2⟩

theorem latest_mem (h : c.entries ≠ []) : ∃ e ∈ c.entries, c.latest = (e.epoch, e.startSeq) := by
  unfold latest
  cases hl : c.entries.getLast? with
  | none => exact absurd (getLast?_eq_none_iff.mp hl) h
  | some last => exact ⟨last, mem_of_getLast? hl, rfl⟩

theorem Ordered.snoc (h : c.Ordered) (he : c.latest.1 < epoch) (hs : c.latest.2 ≤ startSeq) :
    Ordered ⟨c.entries ++ [⟨epoch, startSeq⟩]⟩ := by
  refine pairwise_append.mpr ⟨h, by simp, ?_⟩
  intro a ha b hb
  simp only [mem_singleton] at hb
  subst hb
  have hl := h.latest_ge ha
  exact ⟨Nat.lt_of_le_of_lt hl.1 he, Nat.le_trans hl.2 hs⟩

theorem Ordered.epochForSeq_le_latest (h : c.Ordered) (seq : Nat) :
    c.epochForSeq seq ≤ c.latest.1 := by
  rcases h.epochForSeq_cases seq with ⟨h0, _⟩ | ⟨e, he, _, heq, _⟩
  · rw [h0]
    exact Nat.zero_le _
  · rw [heq]
    exact (h.latest_ge he).1

theorem Ordered.epochForSeq_snoc_before (h : Ordered ⟨c.entries ++ [⟨epoch, startSeq⟩]⟩)
    (hs : seq < startSeq) :
    epochForSeq ⟨c.entries ++ [⟨epoch, startSeq⟩]⟩ seq = c.epochForSeq seq := by
  have hc : c.Ordered := h.sublist (sublist_append_left _ _)
  rw [h.epochForSeq_eq, hc.epochForSeq_eq]
  simp [begun, show ¬ startSeq ≤ seq by omega]

section
variable (h : c.Ordered)
include h

theorem Ordered.epochForSeq_latest (hs : c.latest.2 ≤ seq) : c.epochForSeq seq = c.latest.1 := by
  by_cases hn : c.entries = []
  · rw [h.epochForSeq_eq]
    simp [begun, latest, hn]
  obtain ⟨last, hm, hl⟩ := latest_mem hn
  rw [hl] at hs ⊢
  rcases h.epochForSeq_cases seq with ⟨_, hall⟩ | ⟨e, he, _, heq, hmax⟩
  · have := hall last hm
    omega
  · have h1 := hmax last hm hs
    have h2 := (h.latest_ge he).1
    rw [hl] at h2
    omega

theorem Ordered.truncateFromSeq_entries (seq : Nat) :
    (c.truncateFromSeq seq).entries = c.entries.filter (fun e => decide (e.startSeq < seq)) := by
  have hs := (h.split_from seq).take_eq_filter
  simp only [truncateFromSeq, hs]
  congr 1
  funext e
  by_cases hlt : e.startSeq < seq
  · simp [hlt]
  · simp [hlt, Nat.le_of_not_lt hlt]

theorem Ordered.truncateFromSeq (seq : Nat) : (c.truncateFromSeq seq).Ordered :=
  h.sublist (take_sublist _ _)

theorem Ordered.truncateFromSeq_latest (seq : Nat) : (c.truncateFromSeq seq).latest.2 ≤ seq := by
  by_cases hn : (c.truncateFromSeq seq).entries = []
  · simp [latest, hn]
  obtain ⟨e, he, hl⟩ := latest_mem hn
  rw [h.truncateFromSeq_entries] at he
  have := (mem_filter.mp he).2
  simp only [decide_eq_true_eq] at this
  rw [hl]
  exact Nat.le_of_lt this

theorem Ordered.epochForSeq_truncateFromSeq (hs : s < seq) :
    (c.truncateFromSeq seq).epochForSeq s = c.epochForSeq s := by
  rw [(h.truncateFromSeq seq).epochForSeq_eq, h.epochForSeq_eq]
  unfold begun
  rw [h.truncateFromSeq_entries, filter_filter]
  congr 2
  apply filter_congr
  intro e _
  by_cases hle : e.startSeq ≤ s
  · simp [hle, Nat.lt_of_le_of_lt hle hs]
  · simp [hle]

theorem truncateBeforeSeq_split (seq : Nat) : c.truncateBeforeSeq seq = c ∨
    ∃ old e rest, c.entries = old ++ e :: rest ∧ e.startSeq ≤ seq ∧
      c.truncateBeforeSeq seq = ⟨e :: rest⟩ := by
  have hb := h.split_after seq
  unfold truncateBeforeSeq
  simp only []
  split
  · exact .inl rfl
  right
  obtain ⟨old, e, rest, hc, hp, hd⟩ := hb.drop_before (by omega)
  exact ⟨old, e, rest, hc, by simpa using hp, by rw [hd]⟩

theorem Ordered.truncateBeforeSeq (seq : Nat) : (c.truncateBeforeSeq seq).Ordered := by
  rcases truncateBeforeSeq_split h seq with he | ⟨old, e, rest, hc, _, he⟩
  · rw [he]; exact h
  · rw [he]
    exact h.sublist (hc ▸ sublist_append_right old (e :: rest))

theorem Ordered.truncateBeforeSeq_latest (seq : Nat) :
    (c.truncateBeforeSeq seq).latest = c.latest := by
  rcases truncateBeforeSeq_split h seq with he | ⟨old, e, rest, hc, _, he⟩
  · rw [he]
  · rw [he]
    rw [latest, latest, hc, getLast?_append_of_ne_nil old (by simp)]

theorem Ordered.epochForSeq_truncateBeforeSeq (hs : seq ≤ s) :
    (c.truncateBeforeSeq seq).epochForSeq s = c.epochForSeq s := by
  rcases truncateBeforeSeq_split h seq with he | ⟨old, e, rest, hc, hle, he⟩
  · rw [he]
  rw [(h.truncateBeforeSeq seq).epochForSeq_eq, h.epochForSeq_eq, he]
  have hes : e.startSeq ≤ s := Nat.le_trans hle hs
  simp only [begun, hc, filter_append, filter_cons, hes, decide_true, ↓reduceIte]
  rw [getLast?_append_of_ne_nil _ (by simp)]

theorem Ordered.openEpochCache : openEpochCache c.entries = c := by
  apply LeaderEpochCache.ext
  exact (List.Pairwise.imp (fun hab => Nat.le_of_lt hab.1) h).insertionSort_eq

end

def upto (c : LeaderEpochCache) (epoch : Nat) : Option EpochEntry :=
  (c.entries.filter (fun e => decide (e.epoch ≤ epoch))).getLast?

def following (c : LeaderEpochCache) (epoch : Nat) : Option EpochEntry :=
  c.entries.find? (fun e => decide (epoch < e.epoch))

theorem Ordered.endOffsetFor_eq (h : c.Ordered) (logEndSeq : Nat) : c.endOffsetFor epoch logEndSeq =
      match c.upto epoch with
      | none => (undefinedEpoch, 0)
      | some prev => (prev.epoch, (c.following epoch).elim logEndSeq EpochEntry.startSeq) := by
  have hsp := h.split_epoch epoch
  have hn : (fun e : EpochEntry => !decide (epoch < e.epoch)) =
      fun e => decide (e.epoch ≤ epoch) := by
    funext e
    by_cases hlt : epoch < e.epoch
    · simp [hlt]
    · simp [hlt, Nat.le_of_not_lt hlt]
  have hat := hsp.boundary
  have hbe := hsp.before
  have htk := hsp.take_eq_filter
  rw [hn] at hbe htk
  unfold endOffsetFor upto following
  cases hl : c.entries.getLast? with
  | none => simp [getLast?_eq_none_iff.mp hl]
  | some last =>
    simp only []
    split
    · rename_i hle
      have hall : ∀ e ∈ c.entries, e.epoch ≤ epoch := by
        intro e he
        rcases h.last hl he with rfl | hlt
        · exact hle
        · omega
      rw [filter_eq_self.mpr (fun e he => by simpa using hall e he), hl]
      have hnone : c.entries.find? (fun e => decide (epoch < e.epoch)) = none := by
        apply find?_eq_none.mpr
        intro e he
        simpa using hall e he
      simp [hnone]
    · rename_i hlt
      have hsome : (c.entries.find? (fun e => decide (epoch < e.epoch))).isSome := by
        apply find?_isSome.mpr
        exact ⟨last, mem_of_getLast? hl, by simpa using hlt⟩
      obtain ⟨next, hnext⟩ := Option.isSome_iff_exists.mp hsome
      rw [hat, hbe, hnext]
      cases hi : searchList c.entries (fun e => decide (epoch < e.epoch)) with
      | zero =>
        rw [hi, take_zero] at htk
        simp [← htk]
      | succ i =>
        rw [if_neg (by omega)]
        cases hp : (c.entries.filter (fun e => decide (e.epoch ≤ epoch))).getLast? <;> simp

theorem Ordered.epochForSeq_le_iff {next : EpochEntry} (h : c.Ordered) (seq : Nat)
    (hn : c.following epoch = some next) :
    c.epochForSeq seq ≤ epoch ↔ seq < next.startSeq := by
  obtain ⟨hgt, before, after, hsplit, hbefore⟩ := List.find?_eq_some_iff_append.mp hn
  simp only [decide_eq_true_eq] at hgt
  have hmem : next ∈ c.entries := by simp [hsplit]
  rcases h.epochForSeq_cases seq with ⟨h0, hall⟩ | ⟨e, he, hle, heq, hmax⟩
  · have := hall next hmem
    simp [h0, undefinedEpoch, this]
  rw [heq]
  constructor
  · intro hep
    by_contra hc
    have := hmax next hmem (Nat.le_of_not_lt hc)
    omega
  · intro hlt
    rw [Ordered, hsplit, pairwise_append, pairwise_cons] at h
    rw [hsplit] at he
    rcases mem_append.mp he with hb | hb
    · simpa using hbefore e hb
    rcases mem_cons.mp hb with rfl | ha
    · omega
    · have := (h.2.1.1 e ha).2
      omega

theorem Ordered.epochForSeq_le (h : c.Ordered) (seq : Nat) (hn : c.following epoch = none) :
    c.epochForSeq seq ≤ epoch := by
  rcases h.epochForSeq_cases seq with ⟨h0, _⟩ | ⟨e, he, _, heq, _⟩
  · rw [h0]
    exact Nat.zero_le _
  · rw [heq]
    simpa using List.find?_eq_none.mp hn e he

theorem Ordered.following_le {next : EpochEntry} (h : c.Ordered) (hn : c.following epoch = some next) :
    next.startSeq ≤ c.latest.2 :=
  (h.latest_ge (mem_of_find?_eq_some hn)).2

theorem Ordered.endOffsetFor_seq (h : c.Ordered) (logEndSeq : Nat)
    (ho : c.entries.head? = some oldest) (he : oldest.epoch ≤ epoch) :
    (c.endOffsetFor epoch logEndSeq).2 = (c.following epoch).elim logEndSeq EpochEntry.startSeq := by
  rw [h.endOffsetFor_eq]
  cases hu : c.upto epoch with
  | none =>
    have hnil := getLast?_eq_none_iff.mp hu
    have hm : oldest ∈ c.entries := mem_of_head? ho
    have := filter_eq_nil_iff.mp hnil oldest hm
    simp [he] at this
  | some prev => rfl

end LeaderEpochCache
end Boltq.Stream
