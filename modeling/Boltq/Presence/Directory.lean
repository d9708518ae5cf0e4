import Boltq.Presence.Registry

namespace Boltq.Presence
open Std Lib List

structure Owner where
  nodeID : String
  addr : String
  isLocal : Bool

def Owner.remote (o : Owner) : Bool := !o.isLocal && o.nodeID ≠ "" && o.addr ≠ ""

structure Directory where
  registry : Registry
  resolver : Option (String → Owner)
  peers : String → Option Registry

def Registry.sessions (r : Registry) (userID : String) : List Session :=
  ((r.devices userID).toList.map Prod.snd).mergeSort (fun a b => b.since ≤ a.since)

theorem Registry.length_sessions (r : Registry) (u : String) :
    (0 < (r.sessions u).length) ↔ r.online u = true := by
  rw [Registry.sessions, length_mergeSort, length_map, TreeMap.length_toList, Nat.pos_iff_ne_zero,
    Registry.online, TreeMap.isEmpty_eq_size_eq_zero]
  simp

def handleInternalPresence (r : Registry) (userID : String) : Option (List Session) :=
  if userID = "" then none else some (r.sessions userID)

def handleInternalPresenceBatch (r : Registry) (users : List String) : List String :=
  users.filter (fun u => u ≠ "" && !r.online u)

namespace Directory

def fetch (d : Directory) (addr userID : String) : Option (List Session) :=
  (d.peers addr).bind (handleInternalPresence · userID)

def fetchBatch (d : Directory) (addr : String) (users : List String) : Option (List String) :=
  (d.peers addr).map (handleInternalPresenceBatch · users)

def online (d : Directory) (userID : String) : Bool :=
  match d.resolver with
  | none => d.registry.online userID
  | some ownerOf =>
    let o := ownerOf userID
    if o.isLocal then d.registry.online userID
    else if o.nodeID = "" ∨ o.addr = "" then true
    else (d.fetch o.addr userID).all (fun sessions => 0 < sessions.length)

structure Groups where
  byOwner : TreeMap String (List String) := ∅
  addrOf : TreeMap String String := ∅
  offline : List String := []

section
variable (d : Directory)

def Groups.add (ownerOf : String → Owner) (g : Groups) (u : String) : Groups :=
  let o := ownerOf u
  if o.isLocal then if d.registry.online u then g else { g with offline := g.offline ++ [u] }
  else if o.nodeID = "" ∨ o.addr = "" then g
  else
    { g with
      byOwner := g.byOwner.insert o.nodeID ((g.byOwner[o.nodeID]?).getD [] ++ [u])
      addrOf := g.addrOf.insert o.nodeID o.addr }

def groups (ownerOf : String → Owner) (users : List String) : Groups :=
  users.foldl (Groups.add d ownerOf) {}

def answer (g : Groups) (nodeID : String) : List String :=
  (d.fetchBatch ((g.addrOf[nodeID]?).getD "") ((g.byOwner[nodeID]?).getD [])).getD []

def offlineUsers (users arrivals : List String) : List String :=
  match d.resolver with
  | none => users.filter (fun u => !d.registry.online u)
  | some ownerOf =>
    let g := d.groups ownerOf users
    g.offline ++ arrivals.flatMap (d.answer g)

def Answers (users arrivals : List String) : Prop :=
  ∀ ownerOf ∈ d.resolver, arrivals.Perm (d.groups ownerOf users).byOwner.keys

/-- The users of the list who are on one node are found at one address. -/
def OneAddress (users : List String) : Prop :=
  ∀ ownerOf ∈ d.resolver, ∀ u ∈ users, ∀ v ∈ users, (ownerOf u).remote = true → (ownerOf v).remote = true →
    (ownerOf u).nodeID = (ownerOf v).nodeID → (ownerOf u).addr = (ownerOf v).addr

end

section Grouping
variable {d : Directory} {ownerOf : String → Owner} {users : List String}

structure Grouped (d : Directory) (ownerOf : String → Owner) (users : List String) (g : Groups) :
    Prop where
  offline : g.offline = users.filter (fun u => (ownerOf u).isLocal && !d.registry.online u)
  groups : ∀ n, (g.byOwner[n]?).getD [] =
    users.filter (fun u => (ownerOf u).remote && (ownerOf u).nodeID = n)
  named : ∀ u ∈ users, (ownerOf u).remote = true → (ownerOf u).nodeID ∈ g.byOwner
  addrs : ∀ n ∈ g.byOwner, ∃ u ∈ users, (ownerOf u).remote = true ∧ (ownerOf u).nodeID = n ∧
    g.addrOf[n]? = some (ownerOf u).addr

theorem Grouped.add (h : Grouped d ownerOf users g) (u : String) :
    Grouped d ownerOf (users ++ [u]) (g.add d ownerOf u) := by
  have haddrs : ∀ n ∈ g.byOwner, ∃ v ∈ users ++ [u], (ownerOf v).remote = true ∧
      (ownerOf v).nodeID = n ∧ g.addrOf[n]? = some (ownerOf v).addr := by
    intro n hn
    obtain ⟨v, hv, hrest⟩ := h.addrs n hn
    exact ⟨v, mem_append_left _ hv, hrest⟩
  unfold Groups.add
  by_cases hl : (ownerOf u).isLocal = true
  · have hr : (ownerOf u).remote = false := by simp [Owner.remote, hl]
    have hnamed : ∀ v ∈ users ++ [u], (ownerOf v).remote = true → (ownerOf v).nodeID ∈ g.byOwner := by
      intro v hv hrem
      rcases mem_append.mp hv with hv | hv
      · exact h.named v hv hrem
      · rw [mem_singleton.mp hv, hr] at hrem
        cases hrem
    rw [if_pos hl]
    split
    · rename_i hon
      exact ⟨by simp [h.offline, filter_append, hon], fun n => by simp [h.groups, filter_append, hr],
        hnamed, haddrs⟩
    · rename_i hon
      exact ⟨by simp [h.offline, filter_append, hl, hon],
        fun n => by simp [h.groups, filter_append, hr], hnamed, haddrs⟩
  rw [if_neg hl]
  split
  · rename_i hempty
    have hr : (ownerOf u).remote = false := by
      rcases hempty with he | he <;> simp [Owner.remote, he]
    refine ⟨by simp [h.offline, filter_append, hl], fun n => by simp [h.groups, filter_append, hr],
      ?_, haddrs⟩
    intro v hv hrem
    rcases mem_append.mp hv with hv | hv
    · exact h.named v hv hrem
    · rw [mem_singleton.mp hv, hr] at hrem
      cases hrem
  rename_i hempty
  have hr : (ownerOf u).remote = true := by
    rw [not_or] at hempty
    simp [Owner.remote, hl, hempty.1, hempty.2]
  refine ⟨by simp [h.offline, filter_append, hl], fun n => ?_, ?_, ?_⟩
  · by_cases hn : n = (ownerOf u).nodeID
    · subst hn
      simp [h.groups, filter_append, hr]
    · rw [getElem?_insert_other _ hn, h.groups]
      simp [filter_append, Ne.symm hn]
  · intro v hv hrem
    rcases mem_append.mp hv with hv | hv
    · exact mem_insert_iff.mpr (.inr (h.named v hv hrem))
    · rw [mem_singleton.mp hv]
      exact mem_insert_iff.mpr (.inl rfl)
  · intro n hn
    by_cases he : n = (ownerOf u).nodeID
    · subst he
      exact ⟨u, by simp, hr, rfl, TreeMap.getElem?_insert_self⟩
    · obtain ⟨v, hv, hrem, hnode, haddr⟩ := haddrs n ((mem_insert_iff.mp hn).resolve_left he)
      exact ⟨v, hv, hrem, hnode, (getElem?_insert_other _ he).trans haddr⟩

theorem grouped (d : Directory) (ownerOf : String → Owner) (users : List String) :
    Grouped d ownerOf users (d.groups ownerOf users) := by
  unfold groups
  induction users using List.reverseRecOn with
  | nil =>
    refine ⟨rfl, fun n => by simp, nofun, fun n hn => ?_⟩
    exact absurd hn TreeMap.not_mem_emptyc
  | append_singleton users u ih =>
    rw [foldl_append]
    exact ih.add u

theorem count_filter_ite (p : String → Bool) (u : String) :
    (users.filter p).count u = if p u = true then users.count u else 0 := by
  split
  · rename_i hp
    exact count_filter hp
  · rename_i hp
    exact count_eq_zero.mpr (fun hm => hp (mem_filter.mp hm).2)

theorem online_remote (hd : d.resolver = some ownerOf) (hr : (ownerOf u).remote = true) :
    d.online u = (d.peers (ownerOf u).addr).all (fun r => u = "" || r.online u) := by
  unfold Owner.remote at hr
  simp only [Bool.and_eq_true, Bool.not_eq_true', decide_eq_true_eq] at hr
  have honline : d.online u = (d.fetch (ownerOf u).addr u).all (fun ss => 0 < ss.length) := by
    simp [online, hd, hr.1.1, hr.1.2, hr.2]
  rw [honline, fetch]
  cases d.peers (ownerOf u).addr with
  | none => rfl
  | some r =>
    rw [Option.bind_some, handleInternalPresence]
    split
    · rename_i he
      simp [he]
    · rename_i he
      simp only [Option.all_some, Registry.length_sessions, he]
      simp

theorem count_answer (hone : d.OneAddress users) (hd : d.resolver = some ownerOf) (u n : String)
    (hn : n ∈ (d.groups ownerOf users).byOwner) : (d.answer (d.groups ownerOf users) n).count u =
      if (ownerOf u).remote = true ∧ (ownerOf u).nodeID = n ∧ d.online u = false
      then users.count u else 0 := by
  have hg := grouped d ownerOf users
  obtain ⟨v, hin, hv, hnode, haddr⟩ := hg.addrs n hn
  have hcount : (d.answer (d.groups ownerOf users) n).count u =
      if (ownerOf u).remote = true ∧ (ownerOf u).nodeID = n ∧
        (d.peers (ownerOf v).addr).all (fun r => u = "" || r.online u) = false
      then users.count u else 0 := by
    unfold answer fetchBatch
    rw [haddr, hg.groups, Option.getD_some]
    cases d.peers (ownerOf v).addr with
    | none => simp
    | some r =>
      rw [Option.map_some, Option.getD_some, handleInternalPresenceBatch, filter_filter,
        count_filter_ite]
      refine if_congr ?_ rfl rfl
      simp only [Option.all_some, Bool.and_eq_true, Bool.or_eq_false_iff, decide_eq_true_eq,
        decide_eq_false_iff_not, Bool.not_eq_true']
      tauto
  rw [hcount]
  by_cases hmem : u ∈ users
  · refine if_congr (and_congr_right fun hr => and_congr_right fun hu => ?_) rfl rfl
    rw [online_remote hd hr, hone ownerOf hd u hmem v hin hr hv (hu.trans hnode.symm)]
  · simp [count_eq_zero.mpr hmem]

theorem online_near (hd : d.resolver = some ownerOf) (hr : (ownerOf u).remote = false) :
    d.online u = (!(ownerOf u).isLocal || d.registry.online u) := by
  simp only [online, hd]
  split
  · rename_i hl
    simp [hl]
  · rename_i hl
    rw [if_pos]
    · simp [hl]
    · unfold Owner.remote at hr
      simp only [Bool.and_eq_false_iff, Bool.not_eq_false', decide_eq_false_iff_not, ne_eq,
        Decidable.not_not] at hr
      tauto

end Grouping

/-- With one address for each node, the batched answer lists the users of the list that
the single lookup finds offline, each as often as they are listed. -/
theorem batch_agrees_with_single (d : Directory) (users arrivals : List String)
    (ha : d.Answers users arrivals) (hone : d.OneAddress users) :
    (d.offlineUsers users arrivals).Perm (users.filter (fun u => !d.online u)) := by
  unfold offlineUsers
  cases hd : d.resolver with
  | none =>
    simp only [online, hd]
    exact .refl _
  | some ownerOf =>
    have hg := grouped d ownerOf users
    have hperm := ha ownerOf hd
    dsimp only
    rw [perm_iff_count]
    intro u
    have hnodup : arrivals.Nodup := hperm.nodup_iff.mpr TreeMap.nodup_keys
    have hin : ∀ n ∈ arrivals, n ∈ (d.groups ownerOf users).byOwner :=
      fun n hn => TreeMap.mem_keys.mp (hperm.mem_iff.mp hn)
    have hsum : (arrivals.map (count u ∘ d.answer (d.groups ownerOf users))).sum =
        arrivals.count (ownerOf u).nodeID * (if (ownerOf u).remote = true ∧ d.online u = false
          then users.count u else 0) := by
      have hmap : arrivals.map (count u ∘ d.answer (d.groups ownerOf users)) = arrivals.map
          (fun n => if (ownerOf u).remote = true ∧ (ownerOf u).nodeID = n ∧ d.online u = false
            then users.count u else 0) :=
        map_congr_left (fun n hn => count_answer hone hd u n (hin n hn))
      rw [hmap]
      refine (sum_map_eq_nsmul_single (ownerOf u).nodeID _
        (fun n hne _ => if_neg (fun h => hne h.2.1.symm))).trans ?_
      simp
    rw [count_append, count_flatMap, hsum, hg.offline, count_filter_ite, count_filter_ite]
    by_cases hu : u ∈ users
    · cases hrem : (ownerOf u).remote with
      | true =>
        have honce : arrivals.count (ownerOf u).nodeID = 1 :=
          count_eq_one_of_mem hnodup (hperm.mem_iff.mpr (TreeMap.mem_keys.mpr (hg.named u hu hrem)))
        have hl : (ownerOf u).isLocal = false := by
          unfold Owner.remote at hrem
          simp_all
        simp [honce, hl]
      | false =>
        rw [online_near hd hrem]
        simp
    · rw [count_eq_zero.mpr hu]
      simp

def noUsers : Registry := .new ⟨0, "n", ""⟩

def withUser : Registry :=
  ((noUsers.bind ⟨"v", "phone", "n", "", 0, none, 0, 0⟩ 1).toOption).getD noUsers

def twoPeers (ownerOf : String → Owner) : Directory where
  registry := noUsers
  resolver := some ownerOf
  peers addr := if addr = "a" then some noUsers else if addr = "b" then some withUser else none

def apart (u : String) : Owner := if u = "v" then ⟨"2", "b", false⟩ else ⟨"1", "a", false⟩

def moved (u : String) : Owner := ⟨"1", if u = "v" then "b" else "a", false⟩

theorem batch_agrees_with_single_two :
    ((twoPeers apart).offlineUsers ["u", "v", "u"] ["2", "1"]).Perm ["u", "u"] := by
  have hone : (twoPeers apart).OneAddress ["u", "v", "u"] := by
    intro f hf u _ v _ _ _ hn
    obtain rfl := Option.some.inj hf
    by_cases hu : u = "v" <;> by_cases hv : v = "v" <;> simp_all [apart]
  have hans : (twoPeers apart).Answers ["u", "v", "u"] ["2", "1"] := by
    intro f hf
    obtain rfl := Option.some.inj hf
    decide +kernel
  have h := batch_agrees_with_single (twoPeers apart) ["u", "v", "u"] ["2", "1"] hans hone
  rwa [show ["u", "v", "u"].filter (fun u => !(twoPeers apart).online u) = ["u", "u"] by
    decide +kernel] at h

/-- The batch goes to the last address, where "v" is not known. -/
theorem batch_asks_last_address : (twoPeers moved).Answers ["v", "u"] ["1"] ∧
    (twoPeers moved).online "v" = true ∧
    (twoPeers moved).offlineUsers ["v", "u"] ["1"] = ["v", "u"] := by
  refine ⟨?_, by decide +kernel, by decide +kernel⟩
  intro f hf
  obtain rfl := Option.some.inj hf
  decide +kernel

end Directory
end Boltq.Presence
