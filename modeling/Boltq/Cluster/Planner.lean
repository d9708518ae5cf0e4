import Boltq.Cluster.Metadata
import Boltq.Lib.RoundRobin

namespace Boltq.Cluster
open Lib Std List

structure PlannerConfig where
  replicationFactor : Int := 0
  imbalanceTolerance : Int := 0
  maxConcurrentMoves : Int := 0
  deriving DecidableEq

def PlannerConfig.applyDefaults (c : PlannerConfig) : PlannerConfig where
  replicationFactor := if c.replicationFactor ≤ 0 then 3 else c.replicationFactor
  imbalanceTolerance := if c.imbalanceTolerance ≤ 0 then 1 else c.imbalanceTolerance
  maxConcurrentMoves := if c.maxConcurrentMoves ≤ 0 then 4 else c.maxConcurrentMoves

theorem PlannerConfig.applyDefaults_pos (c : PlannerConfig) :
    0 < c.applyDefaults.replicationFactor ∧ 0 < c.applyDefaults.imbalanceTolerance ∧
      0 < c.applyDefaults.maxConcurrentMoves := by
  simp only [applyDefaults]
  refine ⟨?_, ?_, ?_⟩
  · split <;> omega
  · split <;> omega
  · split <;> omega

abbrev Broker := NodeID × BrokerInfo

def Broker.usable (b : Broker) : Bool := b.2.live && b.2.streamAddr != ""

section
variable (brokers : List Broker)

def liveSorted : List Broker :=
  (brokers.filter Broker.usable).insertionSort (fun a b => a.1 ≤ b.1)

def Broker.rack (b : Broker) : String := if b.2.rack = "" then "\x00" ++ b.1 else b.2.rack

def rackNames : List String :=
  (brokers.map Broker.rack).dedup.insertionSort (· ≤ ·)

def inRack (rack : String) : List Broker :=
  brokers.filter (fun b => decide (b.rack = rack))

def interleaveByRack : List Broker :=
  roundsLoop ((rackNames brokers).map (inRack brokers)) brokers.length brokers.length 0 []

end

inductive PlaceErr where
  | noLiveBroker
  | tooFewBrokers (rf : Int) (brokers : Nat)
  deriving DecidableEq

def placeFollowers (ids : List NodeID) (start stride : Nat) :
    Nat → Nat → List NodeID → Option (List NodeID)
  | 0, _, replicas => some replicas
  | left+1, j, replicas =>
    match probe ids.length (fun i => replicas.contains (ids.getD i "")) ids.length
        ((start + j + stride * j) % ids.length) with
    | none => none
    | some idx => placeFollowers ids start stride left (j + 1) (replicas ++ [ids.getD idx ""])

def placePartition (ids : List NodeID) (rf i : Nat) : Option (List NodeID) :=
  if ids.length - 1 = 0 then none
  else
    placeFollowers ids (i % ids.length) (i / ids.length % (ids.length - 1)) (rf - 1) 1
      [ids.getD (i % ids.length) ""]

def PlannerConfig.place (c : PlannerConfig) (partitions : Int) (brokers : List Broker) :
    Option (Except PlaceErr (List (List NodeID))) :=
  let usable := liveSorted brokers
  if usable.isEmpty then some (.error .noLiveBroker)
  else if c.replicationFactor > usable.length then
    some (.error (.tooFewBrokers c.replicationFactor usable.length))
  else if partitions < 0 then none
  else
    ((List.range partitions.toNat).mapM
      (placePartition ((interleaveByRack usable).map Prod.fst) c.replicationFactor.toNat)).map .ok

theorem liveSorted_perm (brokers : List Broker) :
    (liveSorted brokers).Perm (brokers.filter Broker.usable) := perm_insertionSort _ _

theorem nodup_rackNames (brokers : List Broker) : (rackNames brokers).Nodup :=
  (perm_insertionSort _ _).nodup_iff.mpr (nodup_dedup _)

theorem mem_rackNames (h : b ∈ brokers) : b.rack ∈ rackNames brokers := by
  rw [rackNames, mem_insertionSort, mem_dedup]
  exact mem_map_of_mem h

theorem racks_perm (brokers : List Broker) :
    ((rackNames brokers).map (inRack brokers)).flatten.Perm brokers := by
  have hperm := flatMap_filter_perm Broker.rack brokers (nodup_rackNames brokers)
  rw [filter_eq_self.mpr (fun b hb => decide_eq_true (mem_rackNames hb))] at hperm
  exact hperm

theorem interleaveByRack_eq (brokers : List Broker) :
    interleaveByRack brokers = (range brokers.length).flatMap
      (roundAt ((rackNames brokers).map (inRack brokers))) := by
  have hlen : ∀ g ∈ (rackNames brokers).map (inRack brokers), g.length ≤ brokers.length := by
    intro g hg
    obtain ⟨rack, _, rfl⟩ := mem_map.mp hg
    exact length_filter_le _ _
  have hperm := (rounds_perm hlen).trans (racks_perm brokers)
  rw [range_eq_range'] at hperm ⊢
  rw [interleaveByRack, roundsLoop_eq, nil_append]
  rw [nil_append, hperm.length_eq]

theorem interleaveByRack_perm (brokers : List Broker) :
    (interleaveByRack brokers).Perm brokers := by
  rw [interleaveByRack_eq]
  refine (rounds_perm ?_).trans (racks_perm brokers)
  intro g hg
  obtain ⟨rack, _, rfl⟩ := mem_map.mp hg
  exact length_filter_le _ _

section Followers
variable {ids : List NodeID}

theorem exists_free (hn : ids.Nodup) {replicas : List NodeID}
    (hlen : replicas.length < ids.length) :
    ∃ k < ids.length, replicas.contains (ids.getD k "") = false := by
  by_contra hall
  push Not at hall
  have hsub : ids ⊆ replicas := by
    intro id hid
    obtain ⟨k, hk, rfl⟩ := getElem_of_mem hid
    have hin := hall k hk
    rw [Bool.ne_false_iff, contains_iff_mem, getD_eq_getElem _ _ hk] at hin
    exact hin
  have hle := (hn.subperm hsub).length_le
  omega

theorem placeFollowers_spec (hn : ids.Nodup) (start stride left j : Nat) {replicas : List NodeID}
    (hr : replicas.Nodup) (hin : ∀ id ∈ replicas, id ∈ ids)
    (hlen : replicas.length + left ≤ ids.length) :
    ∃ more, placeFollowers ids start stride left j replicas = some (replicas ++ more) ∧
      more.length = left ∧ (replicas ++ more).Nodup ∧ ∀ id ∈ replicas ++ more, id ∈ ids := by
  induction left generalizing j replicas with
  | zero =>
    refine ⟨[], by rw [placeFollowers, append_nil], rfl, ?_, ?_⟩
    · rwa [append_nil]
    · rwa [append_nil]
  | succ left ih =>
    obtain ⟨k, hk, hfree⟩ := exists_free hn (by omega : replicas.length < ids.length)
    obtain ⟨idx, hidx, hlt, hnot⟩ := probe_finds (fun i => replicas.contains (ids.getD i "")) hk hfree
      (Nat.mod_lt (start + j + stride * j) (by omega : 0 < ids.length))
    have hmem : ids.getD idx "" ∈ ids := by
      rw [getD_eq_getElem _ _ hlt]
      exact getElem_mem hlt
    have hnew : ids.getD idx "" ∉ replicas := by
      intro hc
      rw [contains_iff_mem.mpr hc] at hnot
      cases hnot
    obtain ⟨more, hmore, hcount, hnodup, hall⟩ := ih (j + 1)
      (nodup_append.mpr ⟨hr, nodup_singleton (ids.getD idx ""), by
        rintro a ha b hb rfl
        exact hnew (mem_singleton.mp hb ▸ ha)⟩)
      (by
        intro id hid
        rcases mem_append.mp hid with hid | hid
        · exact hin id hid
        · exact mem_singleton.mp hid ▸ hmem)
      (by rw [length_append, length_singleton]; omega)
    rw [append_assoc, singleton_append] at hmore hnodup hall
    refine ⟨ids.getD idx "" :: more, ?_, by rw [length_cons, hcount], hnodup, hall⟩
    rw [placeFollowers, hidx]
    exact hmore

structure Placed (ids : List NodeID) (rf i : Nat) (replicas : List NodeID) : Prop where
  length : replicas.length = rf
  nodup : replicas.Nodup
  brokers : ∀ id ∈ replicas, id ∈ ids
  first : replicas.head? = ids[i % ids.length]?

theorem placePartition_spec (hn : ids.Nodup) (hrf : 0 < rf) (hle : rf ≤ ids.length)
    (htwo : 2 ≤ ids.length) (i : Nat) :
    ∃ replicas, placePartition ids rf i = some replicas ∧ Placed ids rf i replicas := by
  have hlt : i % ids.length < ids.length := Nat.mod_lt i (by omega)
  have hget : ids.getD (i % ids.length) "" = ids.get ⟨i % ids.length, hlt⟩ :=
    getD_eq_getElem _ _ hlt
  obtain ⟨more, hmore, hcount, hnodup, hall⟩ := placeFollowers_spec hn (i % ids.length)
    (i / ids.length % (ids.length - 1)) (rf - 1) 1
    (nodup_singleton (ids.getD (i % ids.length) ""))
    (by
      intro id hid
      rw [mem_singleton.mp hid, hget]
      exact get_mem _ _)
    (by rw [length_singleton]; omega)
  refine ⟨_, ?_, ?_, hnodup, hall, ?_⟩
  · rw [placePartition, if_neg (by omega)]
    exact hmore
  · rw [length_append, length_singleton, hcount]
    omega
  · rw [singleton_append, head?_cons, hget]
    exact (getElem?_eq_getElem hlt).symm

end Followers

theorem mapM_some {l : List α} (h : ∀ a ∈ l, ∃ b, f a = some b ∧ P a b) :
    ∃ out, l.mapM f = some out ∧ List.Forall₂ P l out := by
  induction l with
  | nil => exact ⟨[], rfl, .nil⟩
  | cons a l ih =>
    obtain ⟨⟨b, hb, hp⟩, hrest⟩ := forall_mem_cons.mp h
    obtain ⟨out, hout, hall⟩ := ih hrest
    refine ⟨b :: out, ?_, .cons hp hall⟩
    rw [mapM_cons, hb, hout]
    rfl

theorem exists_of_forall₂ (h : List.Forall₂ P l out) (hb : b ∈ out) : ∃ a ∈ l, P a b := by
  induction h with
  | nil => cases hb
  | cons hp _ ih =>
    rcases mem_cons.mp hb with rfl | hb
    · exact ⟨_, mem_cons_self, hp⟩
    · obtain ⟨a, ha, hpa⟩ := ih hb
      exact ⟨a, mem_cons_of_mem _ ha, hpa⟩

def usableIDs (brokers : List Broker) : List NodeID := (liveSorted brokers).map Prod.fst

theorem interleaved_perm (brokers : List Broker) :
    ((interleaveByRack (liveSorted brokers)).map Prod.fst).Perm (usableIDs brokers) :=
  (interleaveByRack_perm _).map Prod.fst

theorem nodup_usableIDs {brokers : List Broker} (h : (brokers.map Prod.fst).Nodup) :
    (usableIDs brokers).Nodup := by
  rw [usableIDs, ((liveSorted_perm brokers).map Prod.fst).nodup_iff]
  exact h.sublist (filter_sublist.map Prod.fst)

theorem place_spec {c : PlannerConfig} (hc : 0 < c.replicationFactor) {brokers : List Broker}
    (hn : (brokers.map Prod.fst).Nodup)
    (hrf : c.replicationFactor ≤ (usableIDs brokers).length) {partitions : Int}
    (hp : 0 ≤ partitions) (htwo : 2 ≤ (usableIDs brokers).length ∨ partitions = 0) :
    ∃ out, c.place partitions brokers = some (.ok out) ∧
      List.Forall₂ (Placed ((interleaveByRack (liveSorted brokers)).map Prod.fst)
        c.replicationFactor.toNat) (range partitions.toNat) out := by
  have hperm := interleaved_perm brokers
  have hlen : (usableIDs brokers).length = (liveSorted brokers).length := length_map _
  have hne : (liveSorted brokers).isEmpty = false := by
    rw [isEmpty_eq_false_iff, ← length_pos_iff]
    omega
  obtain ⟨out, hout, hall⟩ := mapM_some
    (f := placePartition ((interleaveByRack (liveSorted brokers)).map Prod.fst)
      c.replicationFactor.toNat)
    (P := Placed ((interleaveByRack (liveSorted brokers)).map Prod.fst) c.replicationFactor.toNat)
    (l := range partitions.toNat) (by
      intro i hi
      have hpos : partitions ≠ 0 := by
        rintro rfl
        cases hi
      exact placePartition_spec (hperm.nodup_iff.mpr (nodup_usableIDs hn)) (by omega)
        (by rw [hperm.length_eq]; omega)
        (by rw [hperm.length_eq]; exact htwo.resolve_right hpos) i)
  refine ⟨out, ?_, hall⟩
  unfold PlannerConfig.place
  dsimp only
  rw [hne, if_neg Bool.false_ne_true, if_neg (by omega), if_neg (by omega), hout]
  rfl

theorem forall₂_of_mapM {l : List α} (h : l.mapM f = some out) :
    List.Forall₂ (fun a b => f a = some b) l out := by
  induction l generalizing out with
  | nil =>
    cases h
    exact .nil
  | cons a l ih =>
    rw [mapM_cons] at h
    obtain ⟨b, hb, h⟩ := Option.bind_eq_some_iff.mp h
    obtain ⟨rest, hrest, h⟩ := Option.bind_eq_some_iff.mp h
    cases h
    exact .cons hb (ih hrest)

theorem place_ok {c : PlannerConfig} (h : c.place partitions brokers = some (.ok out)) :
    List.Forall₂ (fun i replicas =>
      placePartition ((interleaveByRack (liveSorted brokers)).map Prod.fst)
        c.replicationFactor.toNat i = some replicas) (List.range partitions.toNat) out := by
  unfold PlannerConfig.place at h
  dsimp only at h
  split at h
  · cases h
  split at h
  · cases h
  split at h
  · cases h
  obtain ⟨out', hout, he⟩ := Option.map_eq_some_iff.mp h
  cases he
  exact forall₂_of_mapM hout

def preferredCount (out : List (List NodeID)) (id : NodeID) : Nat :=
  out.countP (fun replicas => decide (replicas.head? = some id))

theorem preferredCount_eq {ids : List NodeID} (hn : ids.Nodup)
    (h : List.Forall₂ (Placed ids rf) (range m) out) (hk : k < ids.length) :
    preferredCount out (ids.get ⟨k, hk⟩) = (range m).countP (fun i => decide (i % ids.length = k)) := by
  have hstep : ∀ (is : List Nat) (out : List (List NodeID)), List.Forall₂ (Placed ids rf) is out →
      preferredCount out (ids.get ⟨k, hk⟩) = is.countP (fun i => decide (i % ids.length = k)) := by
    intro is out h
    induction h with
    | nil => rfl
    | @cons i replicas is out hp _ ih =>
      have hlt : i % ids.length < ids.length := Nat.mod_lt i (by omega)
      have hiff : replicas.head? = some (ids.get ⟨k, hk⟩) ↔ i % ids.length = k := by
        rw [hp.first, getElem?_eq_getElem hlt, Option.some.injEq]
        exact hn.getElem_inj_iff
      simp only [preferredCount, countP_cons, decide_eq_true_eq, hiff] at ih ⊢
      rw [ih]
  exact hstep _ _ h

/-- Each partition has as many distinct usable brokers as asked for, and the brokers are the
first of equally many partitions, or of one more. -/
structure ValidPlacement (rf partitions : Int) (ids : List NodeID) (out : List (List NodeID)) :
    Prop where
  count : out.length = partitions
  replicas : ∀ replicas ∈ out, replicas.length = rf ∧ replicas.Nodup ∧ ∀ id ∈ replicas, id ∈ ids
  spread : ∀ a ∈ ids, ∀ b ∈ ids, preferredCount out a ≤ preferredCount out b + 1

/-- For every list that names each broker once and every replication factor that it allows, a
valid placement comes about exactly if there are two brokers to place on, or no partitions. -/
theorem placement_is_valid (cfg : PlannerConfig) (hrf : 1 ≤ cfg.replicationFactor)
    (brokers : List Broker) (hn : (brokers.map Prod.fst).Nodup)
    (henough : cfg.replicationFactor ≤ (usableIDs brokers).length) (partitions : Int) :
    (∃ out, cfg.applyDefaults.place partitions brokers = some (.ok out) ∧
      ValidPlacement cfg.replicationFactor partitions (usableIDs brokers) out) ↔
    0 ≤ partitions ∧ (2 ≤ (usableIDs brokers).length ∨ partitions = 0) := by
  have hsame : cfg.applyDefaults.replicationFactor = cfg.replicationFactor := if_neg (by omega)
  have hperm := interleaved_perm brokers
  have hnodup := hperm.nodup_iff.mpr (nodup_usableIDs hn)
  constructor
  · rintro ⟨out, hout, hvalid⟩
    have hp : 0 ≤ partitions := hvalid.count ▸ Int.natCast_nonneg _
    refine ⟨hp, or_iff_not_imp_right.mpr fun hne => ?_⟩
    -- the first partition alone takes the divisor that is one less than the brokers
    have hall := place_ok hout
    obtain ⟨m, hm⟩ : ∃ m, partitions.toNat = m + 1 := ⟨partitions.toNat - 1, by omega⟩
    rw [hm, range_succ_eq_map] at hall
    obtain ⟨replicas, hfirst⟩ : ∃ replicas,
        placePartition ((interleaveByRack (liveSorted brokers)).map Prod.fst)
          cfg.applyDefaults.replicationFactor.toNat 0 = some replicas := by
      cases hall with
      | cons h _ => exact ⟨_, h⟩
    unfold placePartition at hfirst
    split at hfirst
    · cases hfirst
    · rw [hperm.length_eq] at *
      omega
  rintro ⟨hp, htwo⟩
  obtain ⟨out, hout, hall⟩ := place_spec (c := cfg.applyDefaults) (by omega) hn (by omega) hp htwo
  rw [hsame] at hall
  refine ⟨out, hout, ?_, ?_, ?_⟩
  · have hlen := hall.length_eq
    rw [length_range] at hlen
    omega
  · intro replicas hin
    obtain ⟨i, _, hplaced⟩ := exists_of_forall₂ hall hin
    refine ⟨by rw [hplaced.length]; omega, hplaced.nodup, fun id hid => ?_⟩
    exact hperm.subset (hplaced.brokers id hid)
  · intro a ha b hb
    obtain ⟨k, hk, rfl⟩ := getElem_of_mem (hperm.symm.subset ha)
    obtain ⟨k', hk', rfl⟩ := getElem_of_mem (hperm.symm.subset hb)
    have hka := preferredCount_eq hnodup hall hk
    have hkb := preferredCount_eq hnodup hall hk'
    rw [get_eq_getElem] at hka hkb
    rw [hka, hkb]
    exact countP_mod_le (by omega) _ k k' hk hk'

def brokersIn (racks : List (NodeID × String)) : List Broker :=
  racks.map (fun b => (b.1, { streamAddr := "addr", rack := b.2 }))

def threeBrokers : List Broker := brokersIn [("c", ""), ("a", ""), ("b", "")]

theorem placement_on_three_brokers :
    ∃ out, (PlannerConfig.applyDefaults { replicationFactor := 2 }).place 7 threeBrokers =
        some (.ok out) ∧ out.length = (7 : Int) ∧
      preferredCount out "a" ≤ preferredCount out "c" + 1 := by
  obtain ⟨out, hout, hvalid⟩ := (placement_is_valid { replicationFactor := 2 } (by decide)
    threeBrokers (by decide +kernel) (by decide +kernel) 7).mpr ⟨by decide, .inl (by decide +kernel)⟩
  exact ⟨out, hout, hvalid.count, hvalid.spread "a" (by decide +kernel) "c" (by decide +kernel)⟩

/-- One broker and one copy of one partition: a division by zero. -/
theorem one_broker_panics : usableIDs (brokersIn [("a", "")]) = ["a"] ∧
    (PlannerConfig.applyDefaults { replicationFactor := 1 }).place 1 (brokersIn [("a", "")]) =
      none := by
  decide +kernel

end Boltq.Cluster
