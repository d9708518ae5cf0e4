import Boltq.Cluster.Metadata
import Boltq.Stream.Record

namespace Boltq.Replication
open Cluster Boltq.Stream List

structure Assignment where
  ref : PartitionRef
  partitionCount : Int
  deriving DecidableEq

inductive Event where
  | opened (k : PartitionRef) (addr : String) (epoch : Nat)
  | reconciled (k : PartitionRef) (addr : String)
  | appended (k : PartitionRef) (addr : String) (rec : Record)
  deriving DecidableEq

def Settled (h : List Event) (k : PartitionRef) (addr : String) : Prop :=
  ∀ pre epoch post, h = pre ++ .opened k addr epoch :: post → .reconciled k addr ∈ post

def Followed (h : List Event) : Prop :=
  ∀ pre k addr rec post, h = pre ++ .appended k addr rec :: post → Settled pre k addr

theorem Settled.append (hs : Settled h k addr) (he : ∀ epoch, .opened k addr epoch ∉ es) :
    Settled (h ++ es) k addr := by
  intro pre epoch post hsplit
  rcases append_eq_append_iff.mp hsplit with ⟨mid, _, hmid⟩ | ⟨mid, hpre, hmid⟩
  · exact absurd (by simp [hmid]) (he epoch)
  cases mid with
  | nil =>
    rw [nil_append] at hmid
    exact absurd (hmid ▸ mem_cons_self) (he epoch)
  | cons e mid =>
    obtain ⟨rfl, rfl⟩ := cons_eq_cons.mp hmid
    exact mem_append_left _ (hs pre epoch mid hpre)

theorem settled_reconciled (h : List Event) (k : PartitionRef) (addr : String) :
    Settled (h ++ [.reconciled k addr]) k addr := by
  intro pre epoch post hsplit
  rcases eq_nil_or_concat post with rfl | ⟨post, x, rfl⟩
  · obtain ⟨_, hlast⟩ := append_inj' hsplit rfl
    cases singleton_inj.mp hlast
  · rw [concat_eq_append, ← cons_append, ← append_assoc] at hsplit
    obtain ⟨_, hlast⟩ := append_inj' hsplit rfl
    rw [concat_eq_append, ← hlast]
    exact mem_append_right _ mem_cons_self

theorem Followed.snoc (hf : Followed h)
    (he : ∀ k addr rec, e = .appended k addr rec → Settled h k addr) : Followed (h ++ [e]) := by
  intro pre k addr rec post hsplit
  rcases eq_nil_or_concat post with rfl | ⟨post, x, rfl⟩
  · obtain ⟨hinit, hlast⟩ := append_inj' hsplit rfl
    exact hinit ▸ he k addr rec (singleton_inj.mp hlast)
  · rw [concat_eq_append, ← cons_append, ← append_assoc] at hsplit
    obtain ⟨hinit, _⟩ := append_inj' hsplit rfl
    exact hf pre k addr rec post hinit

structure Conn where
  reconciled : Nat
  streaming : Bool
  deriving DecidableEq

structure FollowerSession where
  assignments : List Assignment
  conn : Option Conn
  deriving DecidableEq

inductive SessionOp where
  | dial
  | exchange (ok : Bool)
  | fetch
  | deliver (k : PartitionRef) (rec : Record)
  | hangUp
  deriving DecidableEq

namespace FollowerSession

def start (assignments : List Assignment) : FollowerSession := ⟨assignments, none⟩

def done (s : FollowerSession) : List PartitionRef :=
  s.conn.elim [] (fun c => (s.assignments.take c.reconciled).map Assignment.ref)

def step (s : FollowerSession) (addr : String) (op : SessionOp) :
    Option (FollowerSession × List Event) :=
  match op, s.conn with
  | .dial, none => some ({ s with conn := some ⟨0, false⟩ }, [])
  | .exchange ok, some c =>
    match s.assignments[c.reconciled]? with
    | none => none
    | some a =>
      if c.streaming then none
      else if ok then
        some ({ s with conn := some { c with reconciled := c.reconciled + 1 } },
          [.reconciled a.ref addr])
      else some ({ s with conn := none }, [])
  | .fetch, some c =>
    if c.reconciled = s.assignments.length then
      some ({ s with conn := some { c with streaming := true } }, [])
    else none
  | .deliver k rec, some c =>
    if c.streaming ∧ k ∈ s.assignments.map Assignment.ref then some (s, [.appended k addr rec])
    else none
  | .hangUp, some _ => some ({ s with conn := none }, [])
  | _, _ => none

def Ready (s : FollowerSession) : Prop :=
  ∀ c, s.conn = some c → c.streaming = true → c.reconciled = s.assignments.length

theorem ready_of_closed {s : FollowerSession} (h : s.conn = none) : s.Ready := by
  intro c hc
  rw [h] at hc
  cases hc

theorem step_cases {s : FollowerSession} (hr : s.Ready) (h : s.step addr op = some (t, es)) :
    t.Ready ∧ (∀ k ∈ t.done, k ∈ s.done ∨ es = [.reconciled k addr]) ∧
    (es = [] ∨ (∃ k, es = [.reconciled k addr]) ∨
      ∃ k ∈ s.done, ∃ rec, es = [.appended k addr rec]) := by
  obtain ⟨as, conn⟩ := s
  cases op with
  | dial =>
    cases conn with
    | some c => cases h
    | none =>
      cases h
      refine ⟨?_, by simp [done], .inl rfl⟩
      rintro c hc hstream
      cases hc
      cases hstream
  | exchange ok =>
    cases conn with
    | none => cases h
    | some c =>
      simp only [step] at h
      cases ha : as[c.reconciled]? with
      | none => simp [ha] at h
      | some a =>
        simp only [ha] at h
        split at h
        · cases h
        rename_i hns
        split at h
        · cases h
          refine ⟨?_, ?_, .inr (.inl ⟨a.ref, rfl⟩)⟩
          · rintro d hd hstream
            cases hd
            exact absurd hstream hns
          · intro x hx
            simp only [done, Option.elim_some, take_add_one, ha, Option.toList_some,
              map_append, map_cons, map_nil, mem_append,
              mem_singleton] at hx
            rcases hx with hx | rfl
            · exact .inl hx
            · exact .inr rfl
        · cases h
          exact ⟨ready_of_closed rfl, by simp [done], .inl rfl⟩
  | fetch =>
    cases conn with
    | none => cases h
    | some c =>
      simp only [step] at h
      split at h
      · rename_i hall
        cases h
        refine ⟨?_, fun k hk => .inl hk, .inl rfl⟩
        rintro d hd _
        cases hd
        exact hall
      · cases h
  | deliver k rec =>
    cases conn with
    | none => cases h
    | some c =>
      simp only [step] at h
      split at h
      · rename_i hk
        cases h
        refine ⟨hr, fun x hx => .inl hx, .inr (.inr ⟨k, ?_, rec, rfl⟩)⟩
        simp only [done, Option.elim_some, hr c rfl hk.1, take_length]
        exact hk.2
      · cases h
  | hangUp =>
    cases conn with
    | none => cases h
    | some c =>
      cases h
      exact ⟨ready_of_closed rfl, by simp [done], .inl rfl⟩

end FollowerSession
end Boltq.Replication
