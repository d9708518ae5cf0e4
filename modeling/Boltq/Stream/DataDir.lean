import Boltq.Lib.Run
import Boltq.Stream.Log

namespace Boltq.Stream
open Lib List

def cursorDir : Bytes := [95, 99, 117, 114, 115, 111, 114, 115]

inductive ServerOp where
  | openLog (defaultPartitions : Int32)
  | openCursorStore
  | createTopic (name : Bytes) (partitions : Int32)
  | append (topic : Bytes)
  | commit
  | close
  | crash (name : Bytes) (partitions : Int32) (made : Nat)
  deriving DecidableEq

structure Server where
  dirs : Dirs
  log : Option Log
  created : List Topic
  attempted : List Topic
  deriving DecidableEq

namespace Server

def start : Server := ⟨[], none, [], []⟩

def settle (st : Server) (name : Bytes) (r : Log × Dirs × Except LogErr Nat) : Server :=
  { st with
    dirs := r.2.1
    log := some r.1
    created :=
      match r.2.2 with
      | .ok n => st.created ++ [(name, n)]
      | .error _ => st.created }

def after (dir : Path) (st : Server) (op : ServerOp) : Server :=
  match op with
  | .openLog n => { st with
      dirs := (Log.openLog st.dirs dir n).1, log := (Log.openLog st.dirs dir n).2.toOption }
  | .openCursorStore => { st with dirs := mkdirAll st.dirs (joinPath dir cursorDir) }
  | .createTopic name n =>
    match st.log with
    | none => st
    | some l => st.settle name (l.createTopic st.dirs name n)
  | .append name =>
    match st.log with
    | none => st
    | some l => st.settle name (l.getOrCreateTopic st.dirs name)
  | .commit => st
  | .close => { st with log := st.log.map Log.close }
  | .crash name n made =>
    match st.log with
    | none => st
    | some l =>
      match l.beforeCreate name n with
      | .ok none => { st with
          dirs := ((l.createPaths name (l.wanted n)).take made).foldl mkdir st.dirs
          log := none
          attempted := st.attempted ++ [(name, l.wanted n)] }
      | _ => { st with log := none }

def Step (dir : Path) (st : Server) (op : ServerOp) (st' : Server) : Prop := st.after dir op = st'

def Proper (name : Bytes) : Prop := name ≠ [46] ∧ name ≠ [46, 46]
  deriving Decidable

def Careful (dir : Path) (st : Server) (op : ServerOp) : Prop :=
  match op with
  | .openLog _ => dir ++ [cursorDir] ∈ st.dirs → dir ++ [cursorDir, decimal 0] ∈ st.dirs
  | .createTopic name _ | .append name => Proper name
  | .crash name n made =>
    Proper name ∧ (made = 0 ∨ ∀ l ∈ st.log, (l.createPaths name (l.wanted n)).length ≤ made)
  | .openCursorStore | .commit | .close => True

structure Restores (st : Server) (topics : List Topic) : Prop where
  completed : ∀ t ∈ st.created, t ∈ topics
  only : ∀ t ∈ topics, t ∈ st.created ∨ t ∈ st.attempted
  once : (topics.map Prod.fst).Nodup

end Server

structure Layout (dir : Path) (dirs : Dirs) (full : List Topic) : Prop where
  nodup : dirs.Nodup
  once : (full.map Prod.fst).Nodup
  sizes : ∀ t ∈ full, 0 < t.2 ∧ t.2 ≤ 2 ^ 31
  proper : ∀ t ∈ full, Server.Proper t.1
  topics : ∀ t ∈ full, dir ++ [encodeTopicDir t.1] ∈ dirs
  known : ∀ d, dir ++ [d] ∈ dirs → d = cursorDir ∨ ∃ t ∈ full, d = encodeTopicDir t.1
  owned : ∀ d c, dir ++ [d, c] ∈ dirs → ∃ t ∈ full, d = encodeTopicDir t.1
  partitions : ∀ t ∈ full, ∀ c, dir ++ [encodeTopicDir t.1, c] ∈ dirs ↔ ∃ i < t.2, c = decimal i

section Layouts
variable {dir : Path} {dirs : Dirs} {full : List Topic}

theorem joinPath_topic (h : Server.Proper name) (base : Path) :
    joinPath base (encodeTopicDir name) = base ++ [encodeTopicDir name] := by
  have h1 : encodeTopicDir name ≠ [46] := fun he =>
    h.1 (encodeTopicDir_inj (he.trans (by decide : [46] = encodeTopicDir [46])))
  have h2 : encodeTopicDir name ≠ [46, 46] := fun he =>
    h.2 (encodeTopicDir_inj (he.trans (by decide : [46, 46] = encodeTopicDir [46, 46])))
  rw [joinPath, if_neg h1, if_neg h2]

theorem joinPath_decimal (base : Path) (n : Nat) : joinPath base (decimal n) = base ++ [decimal n] := by
  obtain ⟨d, s, hd, hs⟩ := decimal_head n
  have hdot : hexDigit d ≠ 46 := (by decide : ∀ d < 10, hexDigit d ≠ 46) d hd
  rw [joinPath, if_neg (by rw [hs]; simp [hdot]), if_neg (by rw [hs]; simp [hdot])]

theorem mem_createPaths {l : Log} (h : Server.Proper name) :
    q ∈ l.createPaths name n ↔ (0 < n ∧ q = l.dir ++ [encodeTopicDir name]) ∨
      ∃ i < n, q = l.dir ++ [encodeTopicDir name, decimal i] := by
  simp only [Log.createPaths, joinPath_topic h, joinPath_decimal, mem_flatMap, mem_range,
    mem_cons, not_mem_nil, or_false, append_assoc, cons_append, nil_append]
  constructor
  · rintro ⟨i, hi, rfl | rfl⟩
    · exact .inl ⟨by omega, rfl⟩
    · exact .inr ⟨i, hi, rfl⟩
  · rintro (⟨hn, rfl⟩ | ⟨i, hi, rfl⟩)
    · exact ⟨0, hn, .inl rfl⟩
    · exact ⟨i, hi, .inr rfl⟩

theorem Layout.mkdirAll (h : Layout dir dirs full) (hp : p <+: dir ++ [cursorDir]) :
    Layout dir (mkdirAll dirs p) full := by
  have hdeep : ∀ d c, dir ++ [d, c] ∈ Stream.mkdirAll dirs p ↔ dir ++ [d, c] ∈ dirs := by
    intro d c
    rw [mem_mkdirAll]
    refine ⟨fun hq => hq.resolve_right (fun hpre => ?_), .inl⟩
    have hlen := (hpre.trans hp).length_le
    simp at hlen
  refine ⟨nodup_mkdirs h.nodup _, h.once, h.sizes, h.proper, ?_, ?_, ?_, ?_⟩
  · exact fun t ht => mem_mkdirAll.mpr (.inl (h.topics t ht))
  · intro d hd
    rcases mem_mkdirAll.mp hd with hd | hd
    · exact h.known d hd
    have heq := (hd.trans hp).eq_of_length (by simp)
    simp only [append_cancel_left_eq, cons.injEq, and_true] at heq
    exact .inl heq
  · exact fun d c hd => h.owned d c ((hdeep d c).mp hd)
  · exact fun t ht c => (hdeep _ c).trans (h.partitions t ht c)

theorem Layout.create (h : Layout dir dirs full) {l : Log} (hl : l.dir = dir)
    (hp : Server.Proper name) (hnew : ∀ t ∈ full, t.1 ≠ name) (hpos : 0 < n) (hn : n ≤ 2 ^ 31) :
    Layout dir ((l.createPaths name n).foldl mkdir dirs) (full ++ [(name, n)]) := by
  subst hl
  have hmem : ∀ q, q ∈ (l.createPaths name n).foldl mkdir dirs ↔ q ∈ dirs ∨
      (0 < n ∧ q = l.dir ++ [encodeTopicDir name]) ∨
        ∃ i < n, q = l.dir ++ [encodeTopicDir name, decimal i] := by
    intro q
    rw [mem_mkdirs, mem_createPaths hp]
  have htop : ∀ d, l.dir ++ [d] ∈ (l.createPaths name n).foldl mkdir dirs ↔
      l.dir ++ [d] ∈ dirs ∨ d = encodeTopicDir name := by
    intro d
    rw [hmem]
    simp [hpos]
  have hdeep : ∀ d c, l.dir ++ [d, c] ∈ (l.createPaths name n).foldl mkdir dirs ↔
      l.dir ++ [d, c] ∈ dirs ∨ d = encodeTopicDir name ∧ ∃ i < n, c = decimal i := by
    intro d c
    rw [hmem]
    simp only [append_cancel_left_eq, cons.injEq, reduceCtorEq, and_false, and_true,
      false_or]
    exact or_congr_right ⟨fun ⟨i, hi, hd, hc⟩ => ⟨hd, i, hi, hc⟩,
      fun ⟨hd, i, hi, hc⟩ => ⟨i, hi, hd, hc⟩⟩
  have hother : ∀ t ∈ full, encodeTopicDir t.1 ≠ encodeTopicDir name :=
    fun t ht he => hnew t ht (encodeTopicDir_inj he)
  refine ⟨nodup_mkdirs h.nodup _, ?_, ?_, ?_, ?_, ?_, ?_, ?_⟩
  · rw [map_append, nodup_append]
    refine ⟨h.once, by simp, ?_⟩
    intro a ha b hb
    obtain ⟨t, ht, rfl⟩ := mem_map.mp ha
    simp only [map_cons, map_nil, mem_singleton] at hb
    exact hb ▸ hnew t ht
  · refine forall_mem_append.mpr ⟨h.sizes, fun t ht => ?_⟩
    rw [mem_singleton.mp ht]
    exact ⟨hpos, hn⟩
  · exact forall_mem_append.mpr ⟨h.proper, by simpa using hp⟩
  · refine forall_mem_append.mpr ⟨fun t ht => (htop _).mpr (.inl (h.topics t ht)), ?_⟩
    intro t ht
    simp only [mem_singleton] at ht
    exact (htop _).mpr (.inr (by rw [ht]))
  · intro d hd
    rcases (htop d).mp hd with hd | rfl
    · exact (h.known d hd).imp id (fun ⟨t, ht, he⟩ => ⟨t, mem_append_left _ ht, he⟩)
    · exact .inr ⟨(name, n), by simp, rfl⟩
  · intro d c hd
    rcases (hdeep d c).mp hd with hd | ⟨rfl, _⟩
    · obtain ⟨t, ht, he⟩ := h.owned d c hd
      exact ⟨t, mem_append_left _ ht, he⟩
    · exact ⟨(name, n), by simp, rfl⟩
  · intro t ht c
    rw [hdeep]
    rcases mem_append.mp ht with ht | ht
    · rw [h.partitions t ht c]
      simp [hother t ht]
    simp only [mem_singleton] at ht
    subst ht
    have hnone : l.dir ++ [encodeTopicDir name, c] ∉ dirs := by
      intro hc
      obtain ⟨t, ht, he⟩ := h.owned _ _ hc
      exact hother t ht he.symm
    simp [hnone]

theorem mem_setTopic (h : full.map Prod.fst |>.Nodup) (hsub : ∀ t ∈ topics, t ∈ full)
    (ht : t ∈ full) (u : Topic) : u ∈ setTopic topics t ↔ u ∈ topics ∨ u = t := by
  simp only [setTopic, mem_append, mem_filter, mem_singleton, ne_eq,
    decide_eq_true_eq]
  constructor
  · exact fun hu => hu.imp And.left id
  rintro (hu | hu)
  · by_cases he : u.1 = t.1
    · exact .inr (inj_on_of_nodup_map h (hsub u hu) ht he)
    · exact .inl ⟨hu, he⟩
  · exact .inr hu

theorem nodup_setTopic {topics : List Topic} (h : (topics.map Prod.fst).Nodup) (t : Topic) :
    ((setTopic topics t).map Prod.fst).Nodup := by
  rw [setTopic, map_append, nodup_append]
  refine ⟨h.sublist (filter_sublist.map Prod.fst), by simp, ?_⟩
  intro a ha b hb
  obtain ⟨u, hu, rfl⟩ := mem_map.mp ha
  simp only [map_cons, map_nil, mem_singleton] at hb
  subst hb
  simpa using (mem_filter.mp hu).2

theorem Layout.openTopics (h : Layout dir dirs full) (ds : List Bytes)
    (hds : ∀ d ∈ ds, ∃ t ∈ full, d = encodeTopicDir t.1) (topics : List Topic)
    (hsub : ∀ t ∈ topics, t ∈ full) (hone : (topics.map Prod.fst).Nodup) :
    ∃ opened, openTopics dirs dir ds topics = .ok opened ∧ (opened.map Prod.fst).Nodup ∧
      ∀ t, t ∈ opened ↔ t ∈ topics ∨ t ∈ full ∧ encodeTopicDir t.1 ∈ ds := by
  induction ds generalizing topics with
  | nil => exact ⟨topics, rfl, hone, by simp⟩
  | cons d ds ih =>
    obtain ⟨t, ht, rfl⟩ := hds d mem_cons_self
    have hopen : openTopicDir dirs dir t.1 (encodeTopicDir t.1) = .ok t.2 := by
      apply openTopicDir_ok h.nodup t.1 (h.sizes t ht).1 (h.sizes t ht).2
      intro c
      rw [joinPath_topic (h.proper t ht), append_assoc]
      exact h.partitions t ht c
    have hset := mem_setTopic h.once hsub ht
    obtain ⟨opened, hopened, hnodup, hmem⟩ := ih (fun d hd => hds d (mem_cons_of_mem _ hd)) _
      (fun u hu => ((hset u).mp hu).elim (hsub u) (fun he => he ▸ ht)) (nodup_setTopic hone t)
    refine ⟨opened, ?_, hnodup, ?_⟩
    · rw [Stream.openTopics, decodeTopicDir_encodeTopicDir]
      simp only [hopen]
      exact hopened
    · intro u
      rw [hmem, hset, or_assoc, mem_cons]
      have hiff : u = t ↔ u ∈ full ∧ encodeTopicDir u.1 = encodeTopicDir t.1 := by
        refine ⟨fun he => ⟨he ▸ ht, by rw [he]⟩, fun ⟨hu, he⟩ => ?_⟩
        exact inj_on_of_nodup_map h.once hu ht (encodeTopicDir_inj he)
      rw [hiff, ← and_or_left]

theorem Layout.openLog (h : Layout dir dirs full)
    (hc : dir ++ [cursorDir] ∈ dirs → dir ++ [cursorDir, decimal 0] ∈ dirs) (n : Int32) :
    ∃ l, Log.openLog dirs dir n = (Stream.mkdirAll dirs dir, .ok l) ∧ l.dir = dir ∧
      0 < l.defaultPartitions ∧ l.closed = false ∧ (l.topics.map Prod.fst).Nodup ∧
      ∀ t, t ∈ l.topics ↔ t ∈ full := by
  have hroot := h.mkdirAll (prefix_append dir [cursorDir])
  have hds : ∀ d ∈ readDir (Stream.mkdirAll dirs dir) dir, ∃ t ∈ full, d = encodeTopicDir t.1 := by
    intro d hd
    rcases hroot.known d (mem_readDir.mp hd) with rfl | hknown
    · rcases mem_mkdirAll.mp (mem_readDir.mp hd) with hd | hd
      · exact h.owned _ _ (hc hd)
      have hlen := hd.length_le
      rw [length_append] at hlen
      exact absurd hlen (Nat.not_le.mpr (Nat.lt_succ_self _))
    · exact hknown
  obtain ⟨opened, hopened, hnodup, hmem⟩ := hroot.openTopics _ hds [] (by simp) nodup_nil
  unfold Log.openLog
  simp only [hopened]
  refine ⟨_, rfl, rfl, ?_, rfl, hnodup, ?_⟩
  · change 0 < if n ≤ 0 then 16 else n
    split
    · decide
    · exact Int32.not_le.mp ‹_›
  · intro t
    rw [hmem]
    simp only [not_mem_nil, false_or]
    exact ⟨And.left, fun ht => ⟨ht, mem_readDir.mpr (hroot.topics t ht)⟩⟩

end Layouts

theorem Log.find_none {l : Log} (h : l.find name = none) : ∀ t ∈ l.topics, t.1 ≠ name := by
  intro t ht he
  rw [Log.find, Option.map_eq_none_iff, find?_eq_none] at h
  exact h t ht (by simpa using he)

theorem Log.find_some {l : Log} (h : l.find name = some n) : (name, n) ∈ l.topics := by
  obtain ⟨t, ht, rfl⟩ := Option.map_eq_some_iff.mp h
  have hname : t.1 = name := by simpa using find?_some ht
  exact hname ▸ mem_of_find?_eq_some ht

theorem Log.wanted_bounds {l : Log} (hl : 0 < l.defaultPartitions) (n : Int32) :
    0 < l.wanted n ∧ l.wanted n ≤ 2 ^ 31 := by
  have hpos : 0 < (if n ≤ 0 then l.defaultPartitions else n) := by
    split
    · exact hl
    · exact Int32.not_le.mp ‹_›
  unfold Log.wanted
  generalize (if n ≤ 0 then l.defaultPartitions else n) = m at hpos
  have hlt := m.toInt_lt
  have hgt := Int32.lt_iff_toInt_lt.mp hpos
  rw [Int32.toInt_zero] at hgt
  omega

theorem Log.beforeCreate_cases (l : Log) (name : Bytes) (n : Int32) :
    (∃ e, l.beforeCreate name n = .error e) ∨ (l.closed = false ∧ (name, l.wanted n) ∈ l.topics ∧
      l.beforeCreate name n = .ok (some (l.wanted n))) ∨
    (l.closed = false ∧ (∀ t ∈ l.topics, t.1 ≠ name) ∧ l.beforeCreate name n = .ok none) := by
  unfold Log.beforeCreate
  cases validTopicName name with
  | error e => exact .inl ⟨e, rfl⟩
  | ok _ =>
    cases hcl : l.closed with
    | true => exact .inl ⟨_, rfl⟩
    | false =>
      cases hf : l.find name with
      | none => exact .inr (.inr ⟨rfl, Log.find_none hf, by simp⟩)
      | some m =>
        by_cases hm : m = l.wanted n
        · subst hm
          exact .inr (.inl ⟨rfl, Log.find_some hf, by simp⟩)
        · exact .inl ⟨.topicExists name m (l.wanted n), by simp [hm]⟩

namespace Server

structure Complete (dir : Path) (st : Server) (full : List Topic) : Prop where
  layout : Layout dir st.dirs full
  created : ∀ t ∈ st.created, t ∈ full
  only : ∀ t ∈ full, t ∈ st.created ∨ t ∈ st.attempted
  home : ∀ l ∈ st.log, l.dir = dir ∧ 0 < l.defaultPartitions
  known : ∀ l ∈ st.log, ∀ t ∈ l.topics, t ∈ full
  all : ∀ l ∈ st.log, l.closed = false → ∀ t ∈ full, t ∈ l.topics

variable {dir : Path} {st : Server} {full : List Topic}

section
variable (h : Complete dir st full)
include h

theorem Complete.settle (hl : st.log = some l) (name : Bytes)
    (r : Except LogErr Nat) (hr : ∀ n, r = .ok n → (name, n) ∈ full) :
    Complete dir (st.settle name (l, st.dirs, r)) full := by
  refine ⟨h.layout, ?_, ?_, ?_, ?_, ?_⟩
  · cases r with
    | error e => exact h.created
    | ok n => exact forall_mem_append.mpr ⟨h.created, by simpa using hr n rfl⟩
  · cases r with
    | error e => exact h.only
    | ok n => exact fun t ht => (h.only t ht).imp (mem_append_left _) id
  · exact fun m hm => h.home m (hl.trans hm)
  · exact fun m hm => h.known m (hl.trans hm)
  · exact fun m hm => h.all m (hl.trans hm)

theorem Complete.createTopic (hl : st.log = some l) (hp : Proper name)
    (n : Int32) : ∃ full, Complete dir (st.settle name (l.createTopic st.dirs name n)) full := by
  obtain ⟨hdir, hdef⟩ := h.home l hl
  unfold Log.createTopic
  rcases l.beforeCreate_cases name n with ⟨e, he⟩ | ⟨_, hmem, he⟩ | ⟨hcl, hnew, he⟩
  · rw [he]
    exact ⟨full, h.settle hl name _ (fun n hn => by cases hn)⟩
  · rw [he]
    refine ⟨full, h.settle hl name _ ?_⟩
    rintro n hn
    cases hn
    exact h.known l hl _ hmem
  · rw [he]
    have hfresh : ∀ t ∈ full, t.1 ≠ name := fun t ht => hnew t (h.all l hl hcl t ht)
    obtain ⟨hpos, hle⟩ := l.wanted_bounds hdef n
    have hlay := h.layout.create hdir hp hfresh hpos hle
    have hset := mem_setTopic hlay.once
      (fun t ht => mem_append_left [(name, l.wanted n)] (h.known l hl t ht))
      (mem_append_right full (mem_singleton_self _))
    refine ⟨full ++ [(name, l.wanted n)], hlay, ?_, ?_, ?_, ?_, ?_⟩
    · exact forall_mem_append.mpr
        ⟨fun t ht => mem_append_left _ (h.created t ht), by simp⟩
    · intro t ht
      rcases mem_append.mp ht with ht | ht
      · exact (h.only t ht).imp (mem_append_left _) id
      · exact .inl (mem_append_right _ ht)
    · intro m hm
      cases hm
      exact ⟨hdir, hdef⟩
    · intro m hm t ht
      cases hm
      rcases (hset t).mp ht with ht | rfl
      · exact mem_append_left _ (h.known l hl t ht)
      · simp
    · intro m hm _ t ht
      cases hm
      apply (hset t).mpr
      rcases mem_append.mp ht with ht | ht
      · exact .inl (h.all l hl hcl t ht)
      · exact .inr (mem_singleton.mp ht)

theorem Complete.crash (hl : st.log = some l) (hp : Proper name)
    (hm : made = 0 ∨ (l.createPaths name (l.wanted n)).length ≤ made) (hcl : l.closed = false)
    (hnew : ∀ t ∈ l.topics, t.1 ≠ name) :
    ∃ full, Complete dir { st with
      dirs := ((l.createPaths name (l.wanted n)).take made).foldl mkdir st.dirs
      log := none
      attempted := st.attempted ++ [(name, l.wanted n)] } full := by
  rcases hm with rfl | hm
  · refine ⟨full, h.layout, h.created, ?_, by simp, by simp, by simp⟩
    exact fun t ht => (h.only t ht).imp id (mem_append_left _)
  rw [take_of_length_le hm]
  obtain ⟨hdir, hdef⟩ := h.home l hl
  obtain ⟨hpos, hle⟩ := l.wanted_bounds hdef n
  have hlay := h.layout.create hdir hp (fun t ht => hnew t (h.all l hl hcl t ht)) hpos hle
  refine ⟨full ++ [(name, l.wanted n)], hlay, ?_, ?_, by simp, by simp, by simp⟩
  · exact fun t ht => mem_append_left _ (h.created t ht)
  intro t ht
  rcases mem_append.mp ht with ht | ht
  · exact (h.only t ht).imp id (mem_append_left _)
  · exact .inr (mem_append_right _ ht)

theorem Complete.stop : Complete dir { st with log := none } full :=
  ⟨h.layout, h.created, h.only, by simp, by simp, by simp⟩

theorem Complete.openLog (hc : Careful dir st (.openLog n)) :
    ∃ l, (st.after dir (.openLog n)).log = some l ∧ (l.topics.map Prod.fst).Nodup ∧
      (∀ t, t ∈ l.topics ↔ t ∈ full) ∧ Complete dir (st.after dir (.openLog n)) full := by
  obtain ⟨l, hopen, hdir, hdef, _, hone, hmem⟩ := h.layout.openLog hc n
  have hlog : (st.after dir (.openLog n)).log = some l := by
    simp only [Server.after, hopen, Except.toOption]
  have hdirs : (st.after dir (.openLog n)).dirs = mkdirAll st.dirs dir := by
    simp only [Server.after, hopen]
  refine ⟨l, hlog, hone, hmem, ?_, h.created, h.only, ?_, ?_, ?_⟩
  · rw [hdirs]
    exact h.layout.mkdirAll (List.prefix_append dir [cursorDir])
  · rw [hlog]
    rintro m hm
    cases hm
    exact ⟨hdir, hdef⟩
  · rw [hlog]
    rintro m hm
    cases hm
    exact fun t => (hmem t).mp
  · rw [hlog]
    rintro m hm _
    cases hm
    exact fun t => (hmem t).mpr

theorem Complete.after (hc : Careful dir st op) : ∃ full, Complete dir (st.after dir op) full := by
  cases op with
  | openLog n =>
    obtain ⟨_, _, _, _, hcomplete⟩ := h.openLog hc
    exact ⟨full, hcomplete⟩
  | openCursorStore =>
    have hjoin : joinPath dir cursorDir = dir ++ [cursorDir] := rfl
    refine ⟨full, ?_, h.created, h.only, h.home, h.known, h.all⟩
    simp only [Server.after, hjoin]
    exact h.layout.mkdirAll (prefix_refl _)
  | createTopic name n =>
    cases hl : st.log with
    | none => exact ⟨full, by simpa only [Server.after, hl] using h⟩
    | some l => simpa only [Server.after, hl] using h.createTopic hl hc n
  | append name =>
    cases hl : st.log with
    | none => exact ⟨full, by simpa only [Server.after, hl] using h⟩
    | some l =>
      simp only [Server.after, hl, Log.getOrCreateTopic]
      cases hf : l.find name with
      | none => exact h.createTopic hl hc l.defaultPartitions
      | some n =>
        refine ⟨full, h.settle hl name _ ?_⟩
        rintro m hm
        cases hm
        exact h.known l hl _ (Log.find_some hf)
  | commit => exact ⟨full, h⟩
  | close =>
    refine ⟨full, h.layout, h.created, h.only, ?_, ?_, ?_⟩
    · intro m hm
      obtain ⟨l, hl, rfl⟩ := Option.map_eq_some_iff.mp hm
      exact h.home l hl
    · intro m hm t ht
      obtain ⟨l, hl, rfl⟩ := Option.map_eq_some_iff.mp hm
      cases ht
    · intro m hm hcl
      obtain ⟨l, hl, rfl⟩ := Option.map_eq_some_iff.mp hm
      cases hcl
  | crash name n made =>
    obtain ⟨hp, hmade⟩ := hc
    cases hl : st.log with
    | none => exact ⟨full, by simpa only [Server.after, hl] using h⟩
    | some l =>
      have hm : made = 0 ∨ (l.createPaths name (l.wanted n)).length ≤ made :=
        hmade.imp id (fun hall => hall l hl)
      simp only [Server.after, hl]
      rcases l.beforeCreate_cases name n with ⟨e, he⟩ | ⟨_, _, he⟩ | ⟨hcl, hnew, he⟩
      · simp only [he]
        exact ⟨full, h.stop⟩
      · simp only [he]
        exact ⟨full, h.stop⟩
      · simp only [he]
        exact h.crash hl hp hm hcl hnew

end

theorem complete_start (dir : Path) : Complete dir start [] :=
  ⟨⟨by simp [start], by simp, by simp, by simp, by simp, by simp [start], by simp [start], by simp⟩,
    by simp [start], by simp, by simp [start], by simp [start], by simp [start]⟩

/-- A log is opened over whatever a careful server left, and restores exactly the
topics that were created. -/
theorem data_dir_reopens {dir : Path} {ops : List ServerOp} {n : Int32} {st : Server}
    (hr : Run (Step dir) (Careful dir) start (ops ++ [.openLog n]) st) :
    ∃ l, st.log = some l ∧ st.Restores l.topics := by
  obtain ⟨t, before, meets, rfl⟩ := hr.last
  obtain ⟨full, hcomplete⟩ := before.invariant (fun st => ∃ full, Complete dir st full)
    ⟨[], complete_start dir⟩ (fun t a u ⟨full, ht⟩ hc hst => hst ▸ ht.after hc)
  obtain ⟨l, hlog, hone, hmem, h⟩ := hcomplete.openLog meets
  exact ⟨l, hlog, fun t ht => (hmem t).mpr (h.created t ht), fun t ht => h.only t ((hmem t).mp ht),
    hone⟩

local instance : LawfulBEq Path := inferInstance

instance (dir : Path) (st : Server) (op : ServerOp) : Decidable (Careful dir st op) := by
  induction op using ServerOp.casesOn <;> dsimp only [Careful] <;> infer_instance

theorem step_of_after (dir : Path) (st : Server) (op : ServerOp) (st' : Server)
    (h : some (st.after dir op) = some st') : Step dir st op st' := Option.some.inj h

def streams : Path := [[115, 116, 114, 101, 97, 109, 115]]

def carefulBoot : List ServerOp :=
  [.openLog 2, .createTopic [97] 3, .createTopic cursorDir 1, .openCursorStore, .append [47],
    .crash [98] 2 4]

theorem careful_boot_reopens :
    ∃ st l, Run (Step streams) (Careful streams) start (carefulBoot ++ [.openLog 2]) st ∧
      st.log = some l ∧ st.Restores l.topics ∧
      l.topics = [([47], 2), (cursorDir, 1), ([97], 3), ([98], 2)] := by
  obtain ⟨st, hrun, hlog⟩ := Run.found_of (step_of_after streams)
    (fun st : Server => st.log.map Log.topics =
      some [([47], 2), (cursorDir, 1), ([97], 3), ([98], 2)])
    (by decide +kernel :
      (execAll (Careful streams) _ start (carefulBoot ++ [.openLog 2])).any _ = true)
  obtain ⟨l, hl, hrestores⟩ := data_dir_reopens hrun
  rw [hl] at hlog
  exact ⟨st, l, hrun, hl, hrestores, Option.some.inj hlog⟩

/-- The second start of a server fails on the cursors of the first; a topic
whose creation was interrupted comes back smaller than it was asked for, or
stops the start; and the topic ".." is not found again. -/
theorem data_dir_does_not_reopen :
    (∃ st, Run (Step streams) always start [.openLog 2, .openCursorStore, .close] st ∧
      (Log.openLog st.dirs streams 2).2 = .error (.noPartitions cursorDir)) ∧
    (∃ st l, Run (Step streams) always start [.openLog 2, .crash [97] 3 2, .openLog 2] st ∧
      st.log = some l ∧ st.attempted = [([97], 3)] ∧ l.topics = [([97], 1)]) ∧
    (∃ st, Run (Step streams) always start [.openLog 2, .crash [97] 3 1] st ∧
      (Log.openLog st.dirs streams 2).2 = .error (.noPartitions [97])) ∧
    ∃ st l, Run (Step streams) always start [.openLog 2, .createTopic [46, 46] 1, .close, .openLog 2]
        st ∧ st.log = some l ∧ st.created = [([46, 46], 1)] ∧ l.topics = [] := by
  refine ⟨?_, ?_, ?_, ?_⟩
  · exact Run.found_of (step_of_after streams)
      (fun st : Server => (Log.openLog st.dirs streams 2).2 = .error (.noPartitions cursorDir))
      (by decide +kernel :
        (execAll always _ start [ServerOp.openLog 2, .openCursorStore, .close]).any _ = true)
  · obtain ⟨st, hrun, hatt, htopics⟩ := Run.found_of (step_of_after streams)
      (fun st : Server => st.attempted = [([97], 3)] ∧ st.log.map Log.topics = some [([97], 1)])
      (by decide +kernel :
        (execAll always _ start [ServerOp.openLog 2, .crash [97] 3 2, .openLog 2]).any _ = true)
    obtain ⟨l, hl, heq⟩ := Option.map_eq_some_iff.mp htopics
    exact ⟨st, l, hrun, hl, hatt, heq⟩
  · exact Run.found_of (step_of_after streams)
      (fun st : Server => (Log.openLog st.dirs streams 2).2 = .error (.noPartitions [97]))
      (by decide +kernel : (execAll always _ start [ServerOp.openLog 2, .crash [97] 3 1]).any _ = true)
  · obtain ⟨st, hrun, hcre, htopics⟩ := Run.found_of (step_of_after streams)
      (fun st : Server => st.created = [([46, 46], 1)] ∧ st.log.map Log.topics = some [])
      (by decide +kernel : (execAll always _ start
        [ServerOp.openLog 2, .createTopic [46, 46] 1, .close, .openLog 2]).any _ = true)
    obtain ⟨l, hl, heq⟩ := Option.map_eq_some_iff.mp htopics
    exact ⟨st, l, hrun, hl, hcre, heq⟩

end Server
end Boltq.Stream
