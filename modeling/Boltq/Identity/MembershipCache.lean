import Boltq.Lib.Run
import Boltq.Lib.Tables

namespace Boltq.Identity
open Lib Std List TreeMap Option

def cacheKey (tenant userID groupID : String) : String :=
  tenant ++ "\x00" ++ userID ++ "\x00" ++ groupID

def inGroup (tenant groupID key : String) : Bool :=
  (tenant ++ "\x00").toList.isPrefixOf key.toList && ("\x00" ++ groupID).toList.isSuffixOf key.toList

structure CachedAnswer where
  member : Bool
  computed : Nat
  expires : Int
  deriving DecidableEq

inductive Stage where
  | entered
  | missed
  | answered (member : Bool) (computed : Nat)
  | returned (member : Bool) (computed : Nat)
  | failed (e : String)
  deriving DecidableEq

def Stage.computed : Stage → Option Nat
  | .answered _ computed => some computed
  | .returned _ computed => some computed
  | _ => none

structure Call where
  key : String
  now : Int
  barrier : Nat
  stage : Stage := .entered
  deriving DecidableEq

structure CachedMembership where
  ttl : Int
  maxSize : Int
  entries : TreeMap String CachedAnswer := ∅
  clock : Int := 0
  moment : Nat := 1
  invalidated : String → Nat := fun _ => 0
  calls : List Call := []

namespace CachedMembership

def new (ttl maxSize : Int) : CachedMembership where
  ttl := if ttl ≤ 0 then 30 * 10 ^ 9 else ttl
  maxSize := if maxSize ≤ 0 then 100000 else maxSize

inductive Op where
  | tick (clock : Int)
  | start (tenant userID groupID : String)
  | lookup (i : Nat)
  | query (i : Nat) (answer : Except String Bool)
  | store (i : Nat)
  | invalidate (tenant userID groupID : String)
  | invalidateGroup (tenant groupID : String)

section
variable (s : CachedMembership)

def setStage (i : Nat) (c : Call) (stage : Stage) : CachedMembership :=
  { s with calls := s.calls.set i { c with stage } }

def lookup (c : Call) : Stage :=
  match s.entries[c.key]? with
  | some e => if c.now < e.expires then .returned e.member e.computed else .missed
  | none => .missed

def put (c : Call) (member : Bool) (computed : Nat) : CachedMembership :=
  let entries := if s.maxSize ≤ s.entries.size then ∅ else s.entries
  { s with entries := entries.insert c.key ⟨member, computed, c.now + s.ttl⟩ }

def change : Op → Option CachedMembership
  | .tick clock => if s.clock ≤ clock then some { s with clock } else none
  | .start tenant userID groupID =>
    let key := cacheKey tenant userID groupID
    some { s with calls := s.calls ++ [⟨key, s.clock, s.invalidated key, .entered⟩] }
  | .lookup i => s.calls[i]?.bind (fun c =>
      if c.stage = .entered then some (s.setStage i c (s.lookup c)) else none)
  | .query i answer => s.calls[i]?.bind (fun c =>
      if c.stage = .missed then
        some (s.setStage i c (match answer with
          | .ok member => .answered member s.moment
          | .error e => .failed e))
      else none)
  | .store i => s.calls[i]?.bind (fun c =>
      match c.stage with
      | .answered member computed =>
        some ((s.put c member computed).setStage i c (.returned member computed))
      | _ => none)
  | .invalidate tenant userID groupID =>
    let key := cacheKey tenant userID groupID
    some { s with
      entries := s.entries.erase key
      invalidated := fun k => if k = key then s.moment else s.invalidated k }
  | .invalidateGroup tenant groupID => some
    { s with
      entries := s.entries.filter (fun k _ => !inGroup tenant groupID k)
      invalidated := fun k => if inGroup tenant groupID k then s.moment else s.invalidated k }

def step (op : Op) : Option CachedMembership :=
  (s.change op).map (fun t => { t with moment := t.moment + 1 })

def Step (op : Op) (s' : CachedMembership) : Prop := s.step op = some s'

/-- An answer is stored only if it was computed after the last invalidation of its key. -/
def StoresFresh : Op → Prop
  | .store i => ∀ c ∈ s.calls[i]?, ∀ t ∈ c.stage.computed, s.invalidated c.key < t
  | _ => True

end

instance (s : CachedMembership) (op : Op) : Decidable (s.StoresFresh op) := by
  unfold StoresFresh
  split <;> infer_instance

theorem inGroup_cacheKey (tenant userID groupID : String) :
    inGroup tenant groupID (cacheKey tenant userID groupID) = true := by
  simp only [inGroup, cacheKey, String.toList_append, Bool.and_eq_true, isPrefixOf_iff_prefix,
    isSuffixOf_iff_suffix]
  exact ⟨⟨userID.toList ++ ("\x00".toList ++ groupID.toList), by simp⟩,
    ⟨tenant.toList ++ ("\x00".toList ++ userID.toList), by simp⟩⟩

structure Inv (s : CachedMembership) : Prop where
  past : ∀ k, s.invalidated k < s.moment
  entries : ∀ k e, s.entries[k]? = some e → s.invalidated k < e.computed
  barrier : ∀ c ∈ s.calls, c.barrier ≤ s.invalidated c.key
  calls : ∀ c ∈ s.calls, ∀ t ∈ c.stage.computed, c.barrier < t

section
variable (h : Inv s)
include h

theorem Inv.setStage (hc : s.calls[i]? = some c)
    (hst : ∀ t ∈ stage.computed, c.barrier < t) : Inv (s.setStage i c stage) := by
  have hmem := mem_of_getElem? hc
  refine ⟨h.past, h.entries, fun x hx => ?_, fun x hx => ?_⟩
  · rcases mem_or_eq_of_mem_set hx with hold | rfl
    · exact h.barrier x hold
    · exact h.barrier c hmem
  · rcases mem_or_eq_of_mem_set hx with hold | rfl
    · exact h.calls x hold
    · exact hst

theorem Inv.put (c : Call) (hf : s.invalidated c.key < computed) :
    Inv (s.put c member computed) := by
  refine ⟨h.past, fun k e he => ?_, h.barrier, h.calls⟩
  rcases insert_cases he with ⟨rfl, rfl⟩ | ⟨-, he⟩
  · exact hf
  split at he
  · rw [getElem?_emptyc] at he
    cases he
  · exact h.entries k e he

theorem Inv.invalidate (p : String → Bool) {entries : TreeMap String CachedAnswer}
    (he : ∀ k e, entries[k]? = some e → p k = false ∧ s.entries[k]? = some e) :
    Inv { s with
      entries, invalidated := fun k => if p k then s.moment else s.invalidated k
      moment := s.moment + 1 } := by
  refine ⟨fun k => ?_, fun k e hk => ?_, fun c hc => ?_, h.calls⟩
  · have := h.past k
    dsimp only
    split <;> omega
  · obtain ⟨hp, hold⟩ := he k e hk
    simp only [hp]
    exact h.entries k e hold
  · have := h.past c.key
    have := h.barrier c hc
    dsimp only
    split <;> omega

theorem Inv.next : Inv { s with moment := s.moment + 1 } :=
  ⟨fun k => Nat.lt_succ_of_lt (h.past k), h.entries, h.barrier, h.calls⟩

theorem Inv.step (hf : s.StoresFresh op) (hs : s.step op = some s') : Inv s' := by
  obtain ⟨t, ht, rfl⟩ := map_eq_some_iff.mp hs
  cases op with
  | tick clock =>
    simp only [change] at ht
    split at ht
    · cases ht
      exact Inv.next ⟨h.past, h.entries, h.barrier, h.calls⟩
    · cases ht
  | start tenant userID groupID =>
    cases ht
    refine Inv.next ⟨h.past, h.entries, fun c hc => ?_, fun c hc => ?_⟩
    · rcases mem_append.mp hc with hold | hnew
      · exact h.barrier c hold
      obtain rfl := mem_singleton.mp hnew
      exact Nat.le_refl _
    · rcases mem_append.mp hc with hold | hnew
      · exact h.calls c hold
      rw [mem_singleton.mp hnew]
      nofun
  | lookup i =>
    obtain ⟨c, hc, ht⟩ := bind_eq_some_iff.mp ht
    split at ht
    · cases ht
      refine (h.setStage hc ?_).next
      have hb := h.barrier c (mem_of_getElem? hc)
      unfold CachedMembership.lookup
      split
      · rename_i e he
        split
        · rintro _ ⟨⟩
          exact Nat.lt_of_le_of_lt hb (h.entries c.key e he)
        · nofun
      · nofun
    · cases ht
  | query i answer =>
    obtain ⟨c, hc, ht⟩ := bind_eq_some_iff.mp ht
    split at ht
    · cases ht
      refine (h.setStage hc ?_).next
      cases answer with
      | error e => nofun
      | ok member =>
        rintro _ ⟨⟩
        exact Nat.lt_of_le_of_lt (h.barrier c (mem_of_getElem? hc)) (h.past c.key)
    · cases ht
  | store i =>
    obtain ⟨c, hc, ht⟩ := bind_eq_some_iff.mp ht
    split at ht
    · rename_i member computed hst
      cases ht
      have hcomputed : computed ∈ c.stage.computed := by
        rw [hst]
        rfl
      refine ((h.put c (hf c hc _ hcomputed)).setStage hc ?_).next
      rintro _ ⟨⟩
      exact h.calls c (mem_of_getElem? hc) _ hcomputed
    · cases ht
  | invalidate tenant userID groupID =>
    cases ht
    suffices hold : ∀ (k : String) (e : CachedAnswer),
        (s.entries.erase (cacheKey tenant userID groupID))[k]? = some e →
          decide (k = cacheKey tenant userID groupID) = false ∧ s.entries[k]? = some e by
      simpa using h.invalidate (· = cacheKey tenant userID groupID) hold
    intro k e he
    have hne : k ≠ cacheKey tenant userID groupID := by
      rintro rfl
      rw [getElem?_erase_self] at he
      cases he
    exact ⟨decide_eq_false hne, getElem?_of_erase he⟩
  | invalidateGroup tenant groupID =>
    cases ht
    refine h.invalidate (inGroup tenant groupID) (fun k e he => ?_)
    rw [getElem?_filter'] at he
    obtain ⟨hold, hp⟩ := filter_eq_some_iff.mp he
    exact ⟨by simpa using hp, hold⟩

end

/-- If no answer is stored that was computed before the last invalidation of its key, a
call returns no answer computed before an invalidation of its key that returned when
the call started. An invalidation of a group is one of every key of the group. -/
theorem invalidation_is_immediate (ttl maxSize : Int) {ops : List Op} {s : CachedMembership}
    (hr : Run Step StoresFresh (new ttl maxSize) ops s) :
    (∀ c ∈ s.calls, ∀ member computed, c.stage = .returned member computed → c.barrier < computed) ∧
    ∀ tenant userID groupID, inGroup tenant groupID (cacheKey tenant userID groupID) = true := by
  have hi := hr.invariant Inv
    ⟨fun _ => Nat.one_pos, fun _ _ he => (nomatch getElem?_emptyc.symm.trans he), nofun, nofun⟩
    (fun _ _ _ hi hc hs => hi.step hc hs)
  refine ⟨fun c hc member computed hst => ?_, inGroup_cacheKey⟩
  exact hi.calls c hc computed (by rw [hst]; rfl)

def asked : List Op := [.start "t" "ann" "g", .lookup 0, .query 0 (.ok true)]

theorem invalidation_is_immediate_stored : ∃ s, Run Step StoresFresh (new 0 0)
    (asked ++ [.store 0, .invalidate "t" "ann" "g", .start "t" "ann" "g", .lookup 1,
      .query 1 (.ok false), .store 1]) s ∧
    ∃ c ∈ s.calls, c.stage = .returned false 8 ∧ c.barrier < 8 := by
  refine Run.shown (fun s => ∃ c ∈ s.calls, c.stage = .returned false 8) (by decide +kernel) ?_
  rintro s hr ⟨c, hc, hst⟩
  exact ⟨c, hc, hst, (invalidation_is_immediate 0 0 hr).1 c hc _ _ hst⟩

/-- A query is in flight when the membership is invalidated and its answer is stored
after that; the next call returns it. -/
theorem stale_answer_is_returned : ∃ s, Run Step always (new 0 0)
    (asked ++ [.invalidate "t" "ann" "g", .store 0, .start "t" "ann" "g", .lookup 1]) s ∧
    ∃ c ∈ s.calls, c.stage = .returned true 3 ∧ c.barrier = 4 :=
  Run.found _ (by decide +kernel)

end CachedMembership
end Boltq.Identity
