import Boltq.Cluster.Moves
import Boltq.Cluster.Planner
import Boltq.Lib.Exchange

namespace Boltq.Cluster
open Lib Std List Function

abbrev Assigned := PartitionRef × PartitionAssignment

def sortAssignments (assignments : List Assigned) : List Assigned :=
  assignments.insertionSort (fun a b => (PartitionRef.cmp a.1 b.1).isLE)

def rackOf (usable : List Broker) : NodeID → String :=
  usable.foldl (fun m b => Function.update m b.1 b.2.rack) (fun _ => "")

def racksInUse (usable : List Broker) (replicas : List NodeID) (source : NodeID) (rack : String) :
    Nat :=
  replicas.countP (fun r => decide (r ≠ source ∧ rackOf usable r = rack))

def held (assignments : List Assigned) (id : NodeID) : Nat :=
  (assignments.map (fun e => e.2.replicas.count id)).sum

def totalReplicas (assignments : List Assigned) : Nat :=
  (assignments.map (fun e => e.2.replicas.length)).sum

def loads (usable : List Broker) (assignments : List Assigned) (id : NodeID) : Nat :=
  if id ∈ usable.map Prod.fst then held assignments id else 0

def PlannerConfig.ceiling (c : PlannerConfig) (usable : List Broker)
    (assignments : List Assigned) : Int :=
  (totalReplicas assignments / usable.length : Nat) + c.imbalanceTolerance

def pickTargetLoop (usable : List Broker) (replicas : List NodeID) (source : NodeID)
    (load : NodeID → Nat) (ceiling : Int) : List Broker → NodeID → Nat → NodeID
  | [], best, _ => best
  | b :: brokers, best, bestScore =>
    if b.1 ∈ replicas then pickTargetLoop usable replicas source load ceiling brokers best bestScore
    else if (load b.1 : Int) ≥ ceiling then
      pickTargetLoop usable replicas source load ceiling brokers best bestScore
    else
      let score := load b.1 * 2 +
        if racksInUse usable replicas source (rackOf usable b.1) > 0 then 1 else 0
      if best = "" ∨ score < bestScore then
        pickTargetLoop usable replicas source load ceiling brokers b.1 score
      else pickTargetLoop usable replicas source load ceiling brokers best bestScore

def pickTarget (usable : List Broker) (replicas : List NodeID) (source : NodeID)
    (load : NodeID → Nat) (ceiling : Int) : NodeID :=
  pickTargetLoop usable replicas source load ceiling usable "" 0

def pickMove (usable : List Broker) (replicas : List NodeID) (load : NodeID → Nat) (ceiling : Int) :
    List NodeID → Option (NodeID × NodeID)
  | [] => none
  | source :: rest =>
    if source ∈ usable.map Prod.fst ∧ (load source : Int) ≤ ceiling then
      pickMove usable replicas load ceiling rest
    else
      let target := pickTarget usable replicas source load ceiling
      if target = "" then pickMove usable replicas load ceiling rest else some (source, target)

def moveLoad (usable : List Broker) (source target : NodeID) (load : NodeID → Nat) : NodeID → Nat :=
  let load := if source ∈ usable.map Prod.fst then Function.update load source (load source - 1)
    else load
  Function.update load target (load target + 1)

def PlannerConfig.planLoop (c : PlannerConfig) (usable : List Broker) (ceiling : Int) :
    List Assigned → (NodeID → Nat) → List Move → List Move
  | [], _, moves => moves
  | (k, a) :: rest, load, moves =>
    if c.maxConcurrentMoves ≤ moves.length then moves
    else
      match pickMove usable a.replicas load ceiling a.replicas with
      | none => c.planLoop usable ceiling rest load moves
      | some (source, target) =>
        c.planLoop usable ceiling rest (moveLoad usable source target load)
          (moves ++ [⟨k, source, target⟩])

def PlannerConfig.rebalance (c : PlannerConfig) (assignments : List Assigned)
    (brokers : List Broker) : List Move :=
  let usable := liveSorted brokers
  if usable.length < 2 ∨ assignments.isEmpty then []
  else
    c.planLoop usable (c.ceiling usable assignments) (sortAssignments assignments)
      (loads usable assignments) []

def applyMove (assignments : List Assigned) (mv : Move) : List Assigned :=
  adjust mv.k (fun a => { a with replicas := a.replicas.replace mv.source mv.target }) assignments

def applyPlan (plan : List Move) (assignments : List Assigned) : List Assigned :=
  plan.foldl applyMove assignments

structure WellAssigned (assignments : List Assigned) : Prop where
  keys : (assignments.map Prod.fst).Nodup
  replicas : ∀ e ∈ assignments, e.2.replicas.Nodup

structure Target (usable : List Broker) (replicas : List NodeID) (load : NodeID → Nat)
    (ceiling : Int) (target : NodeID) : Prop where
  usable : target ∈ usable.map Prod.fst
  new : target ∉ replicas
  room : (load target : Int) < ceiling

section Pick
variable {usable : List Broker} {replicas : List NodeID} {source : NodeID} {load : NodeID → Nat}
  {ceiling : Int}

theorem pickTargetLoop_spec (brokers : List Broker) (hb : ∀ b ∈ brokers, b ∈ usable)
    (hbest : best = "" ∨ Target usable replicas load ceiling best) (score : Nat) :
    pickTargetLoop usable replicas source load ceiling brokers best score = "" ∨
      Target usable replicas load ceiling
        (pickTargetLoop usable replicas source load ceiling brokers best score) := by
  induction brokers generalizing best score with
  | nil => exact hbest
  | cons b brokers ih =>
    obtain ⟨hin, hrest⟩ := forall_mem_cons.mp hb
    unfold pickTargetLoop
    split
    · exact ih hrest hbest score
    next hnew =>
    split
    · exact ih hrest hbest score
    next hroom =>
    dsimp only
    generalize load b.1 * 2 +
      (if racksInUse usable replicas source (rackOf usable b.1) > 0 then 1 else 0) = s
    split
    · exact ih hrest (.inr ⟨mem_map_of_mem hin, hnew, by omega⟩) s
    · exact ih hrest hbest score

theorem pickMove_spec (h : pickMove usable replicas load ceiling sources = some (source, target)) :
    source ∈ sources ∧ (source ∈ usable.map Prod.fst → ceiling < load source) ∧
      Target usable replicas load ceiling target := by
  induction sources with
  | nil => cases h
  | cons s sources ih =>
    have hrest : pickMove usable replicas load ceiling sources = some (source, target) →
        source ∈ s :: sources ∧ (source ∈ usable.map Prod.fst → ceiling < load source) ∧
          Target usable replicas load ceiling target := fun h =>
      ⟨mem_cons_of_mem s (ih h).1, (ih h).2⟩
    unfold pickMove at h
    split at h
    · exact hrest h
    next hgo =>
    dsimp only at h
    split at h
    · exact hrest h
    next hsome =>
    cases h
    refine ⟨mem_cons_self, fun hl => ?_, ?_⟩
    · by_contra hle
      exact hgo ⟨hl, by omega⟩
    · exact (pickTargetLoop_spec usable (fun _ hb => hb) (.inl rfl) 0).resolve_left hsome

end Pick

def Legal (usable : List Broker) (ceiling : Int) (assignments : List Assigned) (mv : Move) : Prop :=
  ∃ a, (mv.k, a) ∈ assignments ∧ mv.source ∈ a.replicas ∧
    (mv.source ∈ usable.map Prod.fst → ceiling < held assignments mv.source) ∧
    Target usable a.replicas (held assignments) ceiling mv.target

def surplus (usable : List Broker) (ceiling : Int) (assignments : List Assigned) : Nat :=
  (assignments.map (fun e =>
    e.2.replicas.countP (fun id => decide (id ∉ usable.map Prod.fst)))).sum +
  ∑ id ∈ (usable.map Prod.fst).toFinset, ((held assignments id : Int) - ceiling).toNat

section Legal
variable {usable : List Broker} {ceiling : Int} {assignments : List Assigned} {mv : Move}

theorem applyMove_sum (f : List NodeID → Nat) (hw : WellAssigned assignments)
    (ha : (mv.k, a) ∈ assignments) :
    ((applyMove assignments mv).map (fun e => f e.2.replicas)).sum + f a.replicas =
      (assignments.map (fun e => f e.2.replicas)).sum +
        f (a.replicas.replace mv.source mv.target) :=
  sum_adjust (fun a => f a.replicas) hw.keys ha

section
variable (h : Legal usable ceiling assignments mv)
include h

theorem Legal.source_ne : mv.source ≠ mv.target := by
  obtain ⟨a, _, hs, _, ht⟩ := h
  exact fun he => ht.new (he ▸ hs)

section
variable (hw : WellAssigned assignments)
include hw

theorem Legal.wellAssigned : WellAssigned (applyMove assignments mv) := by
  obtain ⟨a, ha, hs, _, ht⟩ := h
  refine ⟨by rw [applyMove, map_fst_adjust]; exact hw.keys, fun e he => ?_⟩
  rcases mem_adjust he with he | ⟨a', ha', rfl⟩
  · exact hw.replicas e he
  obtain rfl : a = a' := congrArg Prod.snd (inj_on_of_nodup_map hw.keys ha ha' rfl)
  have hn := hw.replicas _ ha
  exact (replace_perm hs).nodup_iff.mpr
    (nodup_cons.mpr ⟨fun hc => ht.new (mem_of_mem_erase hc), hn.erase _⟩)

theorem Legal.total_eq :
    totalReplicas (applyMove assignments mv) = totalReplicas assignments := by
  obtain ⟨a, ha, _⟩ := h
  have hsum := applyMove_sum length hw ha
  rw [length_replace] at hsum
  exact Nat.add_right_cancel hsum

theorem Legal.held_eq (id : NodeID) :
    held (applyMove assignments mv) id + (if id = mv.source then 1 else 0) =
      held assignments id + (if id = mv.target then 1 else 0) := by
  obtain ⟨a, ha, hs, _⟩ := h
  have hsum := applyMove_sum (count id) hw ha
  have hperm := (replace_perm (t := mv.target) hs).count_eq id
  rw [count_cons, count_erase] at hperm
  simp only [beq_iff_eq, eq_comm (b := id)] at hperm
  have hpos : id = mv.source → 0 < a.replicas.count id := fun he =>
    count_pos_iff.mpr (he ▸ hs)
  unfold held
  split_ifs at hperm ⊢ with hsource htarget htarget
  · have := hpos hsource
    omega
  · have := hpos hsource
    omega
  · omega
  · omega

end

end

theorem countP_replace {l : List NodeID} (hs : s ∈ l) (ht : p t = false) :
    (l.replace s t).countP p + (if p s then 1 else 0) = l.countP p := by
  rw [(replace_perm hs).countP_eq, countP_cons, countP_erase, ht]
  have hpos : p s = true → 0 < l.countP p := fun hp => countP_pos_iff.mpr ⟨s, hs, hp⟩
  by_cases hp : p s = true
  · have := hpos hp
    simp only [hs, hp, Bool.false_eq_true, if_true, if_false, and_self]
    omega
  · simp [hp]

theorem Legal.surplus_eq (h : Legal usable ceiling assignments mv) (hw : WellAssigned assignments) :
    surplus usable ceiling (applyMove assignments mv) + 1 = surplus usable ceiling assignments := by
  have hheld := h.held_eq hw
  have hne := h.source_ne
  obtain ⟨a, ha, hs, hover, ht⟩ := h
  have hdead := applyMove_sum (countP (fun id => decide (id ∉ usable.map Prod.fst))) hw ha
  have hrepl := countP_replace (p := fun id => decide (id ∉ usable.map Prod.fst)) hs
    (decide_eq_false (not_not.mpr ht.usable))
  have htarget := hheld mv.target
  rw [if_neg (Ne.symm hne), if_pos rfl] at htarget
  have hroom := ht.room
  have hother : ∀ id, id ≠ mv.source → ((held (applyMove assignments mv) id : Int) - ceiling).toNat =
      ((held assignments id : Int) - ceiling).toNat := by
    intro id hid
    by_cases he : id = mv.target
    · subst he
      omega
    · have hsame := hheld id
      rw [if_neg hid, if_neg he] at hsame
      rw [Nat.add_right_cancel hsame]
  unfold surplus
  by_cases hlive : mv.source ∈ usable.map Prod.fst
  · have hin : mv.source ∈ (usable.map Prod.fst).toFinset := mem_toFinset.mpr hlive
    have hsource := hheld mv.source
    rw [if_pos rfl, if_neg hne] at hsource
    have hlt := hover hlive
    rw [if_neg (by simpa using hlive)] at hrepl
    rw [← Finset.add_sum_erase _ _ hin, ← Finset.add_sum_erase _ _ hin,
      Finset.sum_congr rfl (fun id hid => hother id (Finset.ne_of_mem_erase hid))]
    omega
  · rw [if_pos (by simpa using hlive)] at hrepl
    rw [Finset.sum_congr rfl (fun id hid => hother id
      (fun he => hlive (he ▸ mem_toFinset.mp hid)))]
    omega

end Legal

def LegalPlan (usable : List Broker) (ceiling : Int) : List Assigned → List Move → Prop
  | _, [] => True
  | assignments, mv :: plan =>
    Legal usable ceiling assignments mv ∧ LegalPlan usable ceiling (applyMove assignments mv) plan

section LegalPlan
variable {usable : List Broker} {ceiling : Int} {assignments : List Assigned} {plan : List Move}

section
variable (h : LegalPlan usable ceiling assignments plan)
include h

section
variable (hw : WellAssigned assignments)
include hw

theorem LegalPlan.wellAssigned : WellAssigned (applyPlan plan assignments) ∧
      totalReplicas (applyPlan plan assignments) = totalReplicas assignments ∧
      surplus usable ceiling (applyPlan plan assignments) + plan.length =
        surplus usable ceiling assignments := by
  induction plan generalizing assignments with
  | nil => exact ⟨hw, rfl, rfl⟩
  | cons mv plan ih =>
    obtain ⟨hlegal, hrest⟩ := h
    obtain ⟨hwell, htotal, hsurplus⟩ := ih hrest (hlegal.wellAssigned hw)
    have hstep := hlegal.surplus_eq hw
    refine ⟨hwell, htotal.trans (hlegal.total_eq hw), ?_⟩
    rw [applyPlan, foldl_cons, length_cons]
    rw [applyPlan] at hsurplus
    omega

theorem LegalPlan.held_le {id : NodeID} (hle : (held assignments id : Int) ≤ ceiling) :
    (held (applyPlan plan assignments) id : Int) ≤ ceiling := by
  induction plan generalizing assignments with
  | nil => exact hle
  | cons mv plan ih =>
    obtain ⟨hlegal, hrest⟩ := h
    refine ih hrest (hlegal.wellAssigned hw) ?_
    have hheld := hlegal.held_eq hw id
    obtain ⟨_, _, _, _, ht⟩ := hlegal
    have hroom := ht.room
    by_cases he : id = mv.target
    · subst he
      rw [if_pos rfl] at hheld
      omega
    · rw [if_neg he] at hheld
      omega

theorem LegalPlan.targets_le (hmv : mv ∈ plan) :
    (held (applyPlan plan assignments) mv.target : Int) ≤ ceiling := by
  induction plan generalizing assignments with
  | nil => cases hmv
  | cons mv' plan ih =>
    obtain ⟨hlegal, hrest⟩ := h
    have hwell := hlegal.wellAssigned hw
    rcases mem_cons.mp hmv with rfl | hmv
    · refine hrest.held_le hwell ?_
      have hheld := hlegal.held_eq hw mv.target
      rw [if_neg (Ne.symm hlegal.source_ne), if_pos rfl] at hheld
      obtain ⟨_, _, _, _, ht⟩ := hlegal
      have hroom := ht.room
      omega
    · exact ih hrest hwell hmv

end

end

end LegalPlan

theorem moveLoad_held (h : Legal usable ceiling assignments mv) (hw : WellAssigned assignments)
    (hload : ∀ id ∈ usable.map Prod.fst, load id = held assignments id) :
    ∀ id ∈ usable.map Prod.fst,
      moveLoad usable mv.source mv.target load id = held (applyMove assignments mv) id := by
  intro id hid
  have hheld := h.held_eq hw id
  have hne := h.source_ne
  have hid' := hload id hid
  unfold moveLoad
  by_cases ht : id = mv.target
  · subst ht
    rw [update_self]
    rw [if_neg (Ne.symm hne), if_pos rfl] at hheld
    split
    · rw [update_of_ne (Ne.symm hne)]
      omega
    · omega
  · rw [update_of_ne ht]
    rw [if_neg ht] at hheld
    by_cases hs : id = mv.source
    · subst hs
      rw [if_pos hid, update_self]
      rw [if_pos rfl] at hheld
      omega
    · rw [if_neg hs] at hheld
      split
      · rw [update_of_ne hs]
        omega
      · omega

def Planned (usable : List Broker) (assignments : List Assigned) (mv : Move) : Prop :=
  ∃ a, (mv.k, a) ∈ assignments ∧ mv.source ∈ a.replicas ∧ mv.target ∉ a.replicas ∧
    mv.target ∈ usable.map Prod.fst

theorem planLoop_spec (c : PlannerConfig) {usable : List Broker} (ceiling : Int)
    {rest : List Assigned} (hkeys : (rest.map Prod.fst).Nodup) (hin : ∀ e ∈ rest, e ∈ assignments)
    (hw : WellAssigned assignments)
    (hload : ∀ id ∈ usable.map Prod.fst, load id = held assignments id) (moves : List Move)
    (hlen : moves.length ≤ c.maxConcurrentMoves) :
    ∃ more, c.planLoop usable ceiling rest load moves = moves ++ more ∧
      (more.map Move.k).Sublist (rest.map Prod.fst) ∧
      (∀ mv ∈ more, Planned usable rest mv) ∧ LegalPlan usable ceiling assignments more ∧
      (moves ++ more).length ≤ c.maxConcurrentMoves := by
  induction rest generalizing assignments load moves with
  | nil =>
    refine ⟨[], (append_nil moves).symm, List.Sublist.slnil, forall_mem_nil _, trivial, ?_⟩
    rwa [append_nil]
  | cons e rest ih =>
    obtain ⟨k, a⟩ := e
    obtain ⟨hnew, hkeys⟩ := nodup_cons.mp hkeys
    obtain ⟨hhead, hin⟩ := forall_mem_cons.mp hin
    have hplanned : ∀ {mv : Move}, Planned usable rest mv → Planned usable ((k, a) :: rest) mv :=
      fun ⟨a', ha', h⟩ => ⟨a', mem_cons_of_mem _ ha', h⟩
    unfold PlannerConfig.planLoop
    split
    · refine ⟨[], (append_nil moves).symm, nil_sublist _, forall_mem_nil _, trivial, ?_⟩
      rwa [append_nil]
    next hroom =>
    split
    · obtain ⟨more, hmore, hsub, hall, hlegal, hmax⟩ := ih hkeys hin hw hload moves hlen
      exact ⟨more, hmore, hsub.cons k, fun mv hmv => hplanned (hall mv hmv), hlegal, hmax⟩
    next source target hpick =>
    obtain ⟨hs, hover, ht⟩ := pickMove_spec hpick
    have hlegal : Legal usable ceiling assignments ⟨k, source, target⟩ :=
      ⟨a, hhead, hs, fun hl => hload _ hl ▸ hover hl, ht.usable, ht.new,
        hload _ ht.usable ▸ ht.room⟩
    obtain ⟨more, hmore, hsub, hall, hplan, hmax⟩ := ih hkeys
      (fun e he => mem_adjust_of_ne (hin e he) (fun hk => hnew (mem_map.mpr ⟨e, he, hk⟩)))
      (hlegal.wellAssigned hw) (moveLoad_held hlegal hw hload) (moves ++ [⟨k, source, target⟩])
      (by rw [length_append, length_singleton]; omega)
    rw [append_assoc, singleton_append] at hmore hmax
    refine ⟨⟨k, source, target⟩ :: more, hmore, hsub.cons_cons k, ?_, ⟨hlegal, hplan⟩, hmax⟩
    refine forall_mem_cons.mpr ⟨?_, fun mv hmv => hplanned (hall mv hmv)⟩
    exact ⟨a, mem_cons_self, hs, ht.new, ht.usable⟩

theorem rebalance_spec {c : PlannerConfig} (hc : 0 < c.maxConcurrentMoves)
    (hw : WellAssigned assignments) (brokers : List Broker) :
    ((c.rebalance assignments brokers).map Move.k).Nodup ∧
    (∀ mv ∈ c.rebalance assignments brokers, Planned (liveSorted brokers) assignments mv) ∧
    LegalPlan (liveSorted brokers) (c.ceiling (liveSorted brokers) assignments) assignments
      (c.rebalance assignments brokers) ∧
    (c.rebalance assignments brokers).length ≤ c.maxConcurrentMoves := by
  have hperm : (sortAssignments assignments).Perm assignments := perm_insertionSort _ _
  have hkeys : ((sortAssignments assignments).map Prod.fst).Nodup :=
    (hperm.map Prod.fst).nodup_iff.mpr hw.keys
  have hload : ∀ id ∈ (liveSorted brokers).map Prod.fst,
      loads (liveSorted brokers) assignments id = held assignments id := fun id hid => if_pos hid
  unfold PlannerConfig.rebalance
  dsimp only
  split
  · exact ⟨nodup_nil, forall_mem_nil _, trivial, by rw [length_nil]; omega⟩
  obtain ⟨more, hmore, hsub, hall, hlegal, hmax⟩ := planLoop_spec c
    (c.ceiling (liveSorted brokers) assignments) hkeys (fun e he => hperm.subset he) hw hload []
    (by rw [length_nil]; omega)
  rw [nil_append] at hmore hmax
  rw [hmore]
  refine ⟨hkeys.sublist hsub, fun mv hmv => ?_, hlegal, hmax⟩
  obtain ⟨a, ha, h⟩ := hall mv hmv
  exact ⟨a, hperm.subset ha, h⟩

/-- For all assignments of partitions to distinct replicas and every list of brokers: each
move of a plan goes from a replica of its partition to a broker that can hold it and does
not, a partition has at most one move and the plan no more than allowed, no target is above
the ceiling after the plan, and carrying out plan after plan comes to a state with nothing
to move. -/
theorem rebalancing_converges (cfg : PlannerConfig) (brokers : List Broker)
    {assignments : List Assigned} (hkeys : (assignments.map Prod.fst).Nodup)
    (hreplicas : ∀ e ∈ assignments, e.2.replicas.Nodup) :
    (∀ mv ∈ cfg.applyDefaults.rebalance assignments brokers,
      (∃ a, (mv.k, a) ∈ assignments ∧ mv.source ∈ a.replicas ∧ mv.target ∉ a.replicas) ∧
      (∃ b ∈ brokers, b.1 = mv.target ∧ b.2.live = true ∧ b.2.streamAddr ≠ "") ∧
      (held (applyPlan (cfg.applyDefaults.rebalance assignments brokers) assignments) mv.target :
        Int) ≤ cfg.applyDefaults.ceiling (liveSorted brokers) assignments) ∧
    ((cfg.applyDefaults.rebalance assignments brokers).map Move.k).Nodup ∧
    (cfg.applyDefaults.rebalance assignments brokers).length ≤
      cfg.applyDefaults.maxConcurrentMoves ∧ ∃ n, cfg.applyDefaults.rebalance
      ((fun as => applyPlan (cfg.applyDefaults.rebalance as brokers) as)^[n] assignments)
        brokers = [] := by
  have hc := cfg.applyDefaults_pos.2.2
  have hw : WellAssigned assignments := ⟨hkeys, hreplicas⟩
  obtain ⟨honce, hall, hlegal, hmax⟩ := rebalance_spec hc hw brokers
  refine ⟨fun mv hmv => ⟨?_, ?_, hlegal.targets_le hw hmv⟩, honce, hmax, ?_⟩
  · obtain ⟨a, ha, hs, ht, _⟩ := hall mv hmv
    exact ⟨a, ha, hs, ht⟩
  · obtain ⟨_, _, _, _, hin⟩ := hall mv hmv
    obtain ⟨b, hb, he⟩ := mem_map.mp hin
    obtain ⟨hb, hu⟩ := mem_filter.mp ((liveSorted_perm brokers).subset hb)
    simp only [Broker.usable, Bool.and_eq_true, bne_iff_ne] at hu
    exact ⟨b, hb, he, hu⟩
  · have hceiling : ∀ {as}, totalReplicas as = totalReplicas assignments →
        cfg.applyDefaults.ceiling (liveSorted brokers) as =
          cfg.applyDefaults.ceiling (liveSorted brokers) assignments := by
      intro as h
      rw [PlannerConfig.ceiling, PlannerConfig.ceiling, h]
    refine exists_iterate_settled _
      (fun as => WellAssigned as ∧ totalReplicas as = totalReplicas assignments)
      (fun as => cfg.applyDefaults.rebalance as brokers = [])
      (surplus (liveSorted brokers) (cfg.applyDefaults.ceiling (liveSorted brokers) assignments))
      ?_ ?_ ⟨hw, rfl⟩
    · rintro as ⟨hw, htotal⟩
      obtain ⟨_, _, hlegal, _⟩ := rebalance_spec hc hw brokers
      obtain ⟨hwell, hsame, _⟩ := hlegal.wellAssigned hw
      exact ⟨hwell, hsame.trans htotal⟩
    · rintro as ⟨hw, htotal⟩ hne
      obtain ⟨_, _, hlegal, _⟩ := rebalance_spec hc hw brokers
      obtain ⟨_, _, hsurplus⟩ := hlegal.wellAssigned hw
      rw [hceiling htotal] at hsurplus
      have hpos := length_pos_iff.mpr hne
      omega

def sixPartitions : List Assigned :=
  [["a", "x"], ["a", "b"], ["b", "a"], ["a", "b"], ["b", "a"], ["a", "b"]].mapIdx
    (fun i replicas => (⟨"t", 5 - i⟩, .placed replicas))

theorem six_partitions_settle :
    PlannerConfig.rebalance (.applyDefaults {}) sixPartitions threeBrokers =
      [⟨⟨"t", 0⟩, "a", "c"⟩, ⟨⟨"t", 5⟩, "x", "c"⟩] ∧
    ∃ n, PlannerConfig.rebalance (.applyDefaults {})
      ((fun as => applyPlan (PlannerConfig.rebalance (.applyDefaults {}) as threeBrokers) as)^[n]
        sixPartitions) threeBrokers = [] :=
  ⟨by decide +kernel, (rebalancing_converges {} threeBrokers (by decide +kernel)
    (by decide +kernel)).2.2.2⟩

end Boltq.Cluster
