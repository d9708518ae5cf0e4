import Boltq.Cluster.Planner

namespace Boltq.Cluster
open Lib Std List

/-- The positions in a ring of `n` that a partition's followers take after those in `taken`: the
`j`-th from `start` by steps of one more than the stride, or the next free one. -/
def followers (n start stride : Nat) : Nat → Nat → List Nat → Option (List Nat)
  | 0, _, taken => some taken
  | left+1, j, taken =>
    (probe n taken.contains n ((start + j + stride * j) % n)).bind fun k =>
      followers n start stride left (j + 1) (taken ++ [k])

def positions (n rf i : Nat) : Option (List Nat) :=
  followers n (i % n) (i / n % (n - 1)) (rf - 1) 1 [i % n]

def rackAt (brokers : List Broker) (k : Nat) : Option String :=
  ((interleaveByRack brokers)[k]?).map Broker.rack

section Positions
variable {n : Nat} {ids : List NodeID} {taken : List Nat}

theorem placeFollowers_eq (hn : ids.Nodup) (start stride left j : Nat)
    (hlt : ∀ k ∈ taken, k < ids.length) (hpos : 0 < ids.length) :
    placeFollowers ids start stride left j (taken.map (ids.getD · "")) =
      (followers ids.length start stride left j taken).map (·.map (ids.getD · "")) := by
  induction left generalizing j taken with
  | zero => rfl
  | succ left ih =>
    have hsame : ∀ i < ids.length,
        (taken.map (ids.getD · "")).contains (ids.getD i "") = taken.contains i := by
      intro i hi
      rw [Bool.eq_iff_iff, contains_iff_mem, contains_iff_mem, mem_map]
      constructor
      · rintro ⟨k, hk, he⟩
        rw [getD_eq_getElem _ _ (hlt k hk), getD_eq_getElem _ _ hi] at he
        rwa [← hn.getElem_inj_iff.mp he]
      · exact fun hk => ⟨i, hk, rfl⟩
    have hstart : (start + j + stride * j) % ids.length < ids.length := Nat.mod_lt _ hpos
    rw [placeFollowers, followers, probe_congr hsame hstart]
    cases hp : probe ids.length taken.contains ids.length
        ((start + j + stride * j) % ids.length) with
    | none => rfl
    | some k =>
      have hall : ∀ x ∈ taken ++ [k], x < ids.length := by
        simpa [or_imp, forall_and] using ⟨hlt, (probe_some hp hstart).1⟩
      have hnext := ih (j + 1) hall
      rw [map_append, map_singleton] at hnext
      exact hnext

theorem followers_lt (hlt : ∀ k ∈ taken, k < n) (hpos : 0 < n)
    (h : followers n start stride left j taken = some ps) : taken <+: ps ∧ ∀ k ∈ ps, k < n := by
  induction left generalizing j taken with
  | zero =>
    cases h
    exact ⟨prefix_rfl, hlt⟩
  | succ left ih =>
    obtain ⟨k, hk, h⟩ := Option.bind_eq_some_iff.mp h
    have hall : ∀ x ∈ taken ++ [k], x < n := by
      simpa [or_imp, forall_and] using ⟨hlt, (probe_some hk (Nat.mod_lt _ hpos)).1⟩
    obtain ⟨hpre, hps⟩ := ih hall h
    exact ⟨(prefix_append taken [k]).trans hpre, hps⟩

theorem placePartition_positions (hn : ids.Nodup) (h : placePartition ids rf i = some replicas) :
    ∃ ps, positions ids.length rf i = some ps ∧ (∀ k ∈ ps, k < ids.length) ∧
      replicas = ps.map (ids.getD · "") := by
  unfold placePartition at h
  split at h
  · cases h
  have hpos : 0 < ids.length := by omega
  have hlt : ∀ k ∈ [i % ids.length], k < ids.length := by simpa using Nat.mod_lt i hpos
  have hwalk := placeFollowers_eq hn (i % ids.length) (i / ids.length % (ids.length - 1)) (rf - 1) 1
    hlt hpos
  rw [map_singleton, h] at hwalk
  obtain ⟨ps, hps, he⟩ := Option.map_eq_some_iff.mp hwalk.symm
  exact ⟨ps, hps, (followers_lt hlt hpos hps).2, he.symm⟩

/-- The partition that starts at `p` with the stride that leads to `q`. -/
theorem positions_pair (hpq : p < q) (hq : q < n) (hrf : 2 ≤ rf)
    (h : positions n rf (p + n * (q - p - 1)) = some ps) : [p, q] <+: ps := by
  have hstart : (p + n * (q - p - 1)) % n = p := by
    rw [Nat.add_mul_mod_self_left, Nat.mod_eq_of_lt (by omega)]
  have hstride : (p + n * (q - p - 1)) / n % (n - 1) = q - p - 1 := by
    rw [Nat.add_mul_div_left _ _ (by omega), Nat.div_eq_of_lt (by omega), Nat.zero_add,
      Nat.mod_eq_of_lt (by omega)]
  obtain ⟨left, hleft⟩ : ∃ left, rf - 1 = left + 1 := ⟨rf - 2, by omega⟩
  rw [positions, hstart, hstride, hleft, followers] at h
  have hslot : (p + 1 + (q - p - 1) * 1) % n = q := by
    rw [Nat.mod_eq_of_lt (by omega)]
    omega
  have hfree : probe n [p].contains n q = some q := by
    obtain ⟨m, rfl⟩ : ∃ m, n = m + 1 := ⟨n - 1, by omega⟩
    rw [probe, if_neg (by simpa using by omega)]
  rw [hslot, hfree, Option.bind_some] at h
  refine (followers_lt ?_ (by omega) h).1
  simpa using ⟨by omega, hq⟩

end Positions

theorem length_rackNames_le (brokers : List Broker) :
    (rackNames brokers).length ≤ brokers.length := by
  rw [rackNames, length_insertionSort]
  exact (dedup_sublist _).length_le.trans_eq (length_map _)

/-- No two of the replicas are in one rack. -/
def Apart (usable : List Broker) (replicas : List NodeID) : Prop :=
  ∀ b ∈ usable, ∀ b' ∈ usable, b.1 ∈ replicas → b'.1 ∈ replicas → b.rack = b'.rack → b = b'
  deriving Decidable

section Apart
variable {usable : List Broker} {rf i : Nat} {replicas : List NodeID}

theorem apart_iff (hn : (usable.map Prod.fst).Nodup)
    (h : placePartition ((interleaveByRack usable).map Prod.fst) rf i = some replicas) :
    Apart usable replicas ↔ ∀ ps ∈ positions usable.length rf i, ∀ p ∈ ps, ∀ q ∈ ps,
      rackAt usable p = rackAt usable q → p = q := by
  have hperm := interleaveByRack_perm usable
  have hnodup := (hperm.map Prod.fst).nodup_iff.mpr hn
  obtain ⟨ps, hps, hlt, rfl⟩ := placePartition_positions hnodup h
  simp only [length_map, hperm.length_eq] at hps hlt
  have hat : ∀ k ∈ ps, ∃ b, (interleaveByRack usable)[k]? = some b ∧ b ∈ usable ∧
      ((interleaveByRack usable).map Prod.fst).getD k "" = b.1 := by
    intro k hk
    have hk' : k < (interleaveByRack usable).length := hperm.length_eq.symm ▸ hlt k hk
    refine ⟨_, List.getElem?_eq_getElem hk', hperm.subset (getElem_mem hk'), ?_⟩
    rw [getD_eq_getElem _ _ (by rwa [length_map]), getElem_map]
  simp only [Option.mem_def, hps, Option.some.injEq, forall_eq']
  constructor
  · intro hapart p hp q hq hrack
    obtain ⟨b, hb, hbu, hid⟩ := hat p hp
    obtain ⟨b', hb', hbu', hid'⟩ := hat q hq
    have heq := hapart b hbu b' hbu' (mem_map.mpr ⟨p, hp, hid⟩) (mem_map.mpr ⟨q, hq, hid'⟩)
      (by simpa [rackAt, hb, hb'] using hrack)
    subst heq
    refine (List.getElem?_inj ?_ (Nodup.of_map Prod.fst hnodup)).mp (hb.trans hb'.symm)
    exact hperm.length_eq.symm ▸ hlt p hp
  · intro hdist b hb b' hb' hin hin' hrack
    have hbroker : ∀ b ∈ usable, b.1 ∈ ps.map (((interleaveByRack usable).map Prod.fst).getD · "") →
        ∃ k ∈ ps, (interleaveByRack usable)[k]? = some b := by
      intro b hb hin
      obtain ⟨k, hk, he⟩ := mem_map.mp hin
      obtain ⟨b', hb', hbu', hid⟩ := hat k hk
      exact ⟨k, hk, hb'.trans (congrArg some (inj_on_of_nodup_map hn hbu' hb (hid.symm.trans he)))⟩
    obtain ⟨p, hp, hpb⟩ := hbroker b hb hin
    obtain ⟨q, hq, hqb⟩ := hbroker b' hb' hin'
    have hpq := hdist p hp q hq (by simp [rackAt, hpb, hqb, hrack])
    subst hpq
    exact Option.some.inj (hpb.symm.trans hqb)

theorem exists_shared_rack (h : ¬ (usable.map Broker.rack).Nodup) :
    ∃ p q, p < q ∧ q < usable.length ∧ rackAt usable p = rackAt usable q := by
  have hperm := interleaveByRack_perm usable
  rw [← (hperm.map Broker.rack).nodup_iff, nodup_iff_getElem?_ne_getElem?] at h
  push Not at h
  obtain ⟨p, q, hpq, hq, he⟩ := h
  rw [length_map, hperm.length_eq] at hq
  exact ⟨p, q, hpq, hq, by simpa [rackAt] using he⟩

end Apart

/-- With brokers in enough racks, the replicas of every partition are in different racks for
every number of partitions exactly if there is one replica, or no two usable brokers share a
rack; and for one number of partitions exactly if the brokers at the positions that its
partitions take are in different racks. -/
theorem placement_separates_racks (cfg : PlannerConfig) (brokers : List Broker)
    (hn : (brokers.map Prod.fst).Nodup)
    (hspan : cfg.applyDefaults.replicationFactor ≤ (rackNames (liveSorted brokers)).length) :
    ((∀ partitions out, cfg.applyDefaults.place partitions brokers = some (.ok out) →
        ∀ replicas ∈ out, Apart (liveSorted brokers) replicas) ↔
      cfg.applyDefaults.replicationFactor = 1 ∨ ((liveSorted brokers).map Broker.rack).Nodup) ∧
    ∀ partitions out, cfg.applyDefaults.place partitions brokers = some (.ok out) →
      ((∀ replicas ∈ out, Apart (liveSorted brokers) replicas) ↔
        ∀ i < partitions.toNat, ∀ ps ∈ positions (liveSorted brokers).length
          cfg.applyDefaults.replicationFactor.toNat i, ∀ p ∈ ps, ∀ q ∈ ps,
            rackAt (liveSorted brokers) p = rackAt (liveSorted brokers) q → p = q) := by
  have hpos := cfg.applyDefaults_pos.1
  have hcount : ∀ partitions out, cfg.applyDefaults.place partitions brokers = some (.ok out) →
      ((∀ replicas ∈ out, Apart (liveSorted brokers) replicas) ↔
        ∀ i < partitions.toNat, ∀ ps ∈ positions (liveSorted brokers).length
          cfg.applyDefaults.replicationFactor.toNat i, ∀ p ∈ ps, ∀ q ∈ ps,
            rackAt (liveSorted brokers) p = rackAt (liveSorted brokers) q → p = q) := by
    intro partitions out hout
    have hall := place_ok hout
    constructor
    · intro hapart i hi
      obtain ⟨replicas, hin, hplace⟩ := exists_of_forall₂ hall.flip (mem_range.mpr hi)
      exact (apart_iff (nodup_usableIDs hn) hplace).mp (hapart replicas hin)
    · intro hdist replicas hin
      obtain ⟨i, hi, hplace⟩ := exists_of_forall₂ hall hin
      exact (apart_iff (nodup_usableIDs hn) hplace).mpr (hdist i (mem_range.mp hi))
  refine ⟨⟨fun h => ?_, ?_⟩, hcount⟩
  · by_contra hno
    obtain ⟨hone, hracks⟩ := not_or.mp hno
    obtain ⟨p, q, hpq, hq, hsame⟩ := exists_shared_rack hracks
    have hids : (usableIDs brokers).length = (liveSorted brokers).length := length_map _
    have hle := length_rackNames_le (liveSorted brokers)
    let i := p + (liveSorted brokers).length * (q - p - 1)
    obtain ⟨out, hout, -⟩ := place_spec (c := cfg.applyDefaults) hpos hn (by omega)
      (Int.natCast_nonneg (i + 1)) (.inl (by omega))
    have hall := place_ok hout
    obtain ⟨replicas, hin, hplace⟩ := exists_of_forall₂ hall.flip (mem_range.mpr (Nat.lt_succ_self i))
    obtain ⟨ps, hps, -⟩ := placePartition_positions
      ((interleaved_perm brokers).nodup_iff.mpr (nodup_usableIDs hn)) hplace
    rw [(interleaved_perm brokers).length_eq, hids] at hps
    have hpair := positions_pair hpq hq (by omega) hps
    have heq := (apart_iff (nodup_usableIDs hn) hplace).mp (h _ out hout replicas hin) ps hps
      p (hpair.subset (by simp)) q (hpair.subset (by simp)) hsame
    omega
  · rintro (hone | hracks) partitions out hout
    · refine (hcount partitions out hout).mpr fun i _ ps hps p hp q hq _ => ?_
      rw [hone] at hps
      cases hps
      rw [mem_singleton.mp hp, mem_singleton.mp hq]
    · exact fun _ _ b hb b' hb' _ _ he => inj_on_of_nodup_map hracks hb hb' he

theorem unlabelled_kept_apart :
    ∃ out, (PlannerConfig.applyDefaults { replicationFactor := 2 }).place 7 threeBrokers =
        some (.ok out) ∧ out.length = 7 ∧ ∀ replicas ∈ out, Apart (liveSorted threeBrokers) replicas := by
  refine ⟨(((PlannerConfig.applyDefaults { replicationFactor := 2 }).place 7 threeBrokers).bind
    Except.toOption).getD [], by decide +kernel, by decide +kernel, ?_⟩
  exact (placement_separates_racks { replicationFactor := 2 } threeBrokers (by decide +kernel)
    (by decide +kernel)).1.mpr (.inr (by decide +kernel)) 7 _ (by decide +kernel)

def unevenBrokers : List Broker := brokersIn [("a", "r1"), ("b", "r1"), ("c", "r1"), ("d", "r2")]

theorem replicas_share_rack : (rackNames (liveSorted unevenBrokers)).length = 2 ∧
    (PlannerConfig.applyDefaults { replicationFactor := 2 }).place 3 unevenBrokers =
      some (.ok [["a", "d"], ["d", "b"], ["b", "c"]]) ∧
    ¬ Apart (liveSorted unevenBrokers) ["b", "c"] := by
  decide +kernel

end Boltq.Cluster
