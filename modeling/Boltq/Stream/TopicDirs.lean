import Boltq.Stream.DataDir

namespace Boltq.Stream
open Lib List

inductive DeleteErr where
  | noSuchTopic (name : Bytes)
  deriving DecidableEq

def removeAll (dirs : Dirs) (p : Path) : Dirs := dirs.filter (fun q => !p.isPrefixOf q)

theorem mem_removeAll : q ∈ removeAll dirs p ↔ q ∈ dirs ∧ ¬ p <+: q := by
  rw [removeAll, mem_filter, Bool.not_eq_true', ← Bool.not_eq_true, isPrefixOf_iff_prefix]

namespace Log

def deleteTopic (l : Log) (dirs : Dirs) (name : Bytes) : Log × Dirs × Except DeleteErr Unit :=
  match l.find name with
  | none => (l, dirs, .error (.noSuchTopic name))
  | some _ => ({ l with topics := l.topics.filter (fun t => t.1 ≠ name) },
      removeAll dirs (joinPath l.dir (encodeTopicDir name)), .ok ())

end Log

def within (dirs : Dirs) (p : Path) : Dirs := dirs.filter (fun q => p.isPrefixOf q)

theorem readDir_within (dirs : Dirs) (p : Path) : readDir (within dirs p) p = readDir dirs p := by
  unfold readDir within
  rw [filterMap_filter]
  congr 1
  apply filterMap_congr
  intro q _
  by_cases hq : q.dropLast = p ∧ q ≠ []
  · have hpre : p.isPrefixOf q = true :=
      isPrefixOf_iff_prefix.mpr (hq.1 ▸ dropLast_prefix q)
    rw [if_pos hpre]
  · simp only [if_neg hq, ite_self]

theorem encodeByte_plain (c : UInt8) : ∀ b ∈ encodeByte c, plainByte b = true ∨ b = percent := by
  have hhex : ∀ d < 16, plainByte (hexDigit d) = true := by decide
  have hc := c.toNat_lt
  unfold encodeByte
  split
  · intro b hb
    cases mem_singleton.mp hb
    exact Or.inl ‹_›
  · intro b hb
    simp only [mem_cons, not_mem_nil, or_false] at hb
    rcases hb with rfl | rfl | rfl
    · exact Or.inr rfl
    · exact Or.inl (hhex _ (by omega))
    · exact Or.inl (hhex _ (by omega))

theorem encodeTopicDir_component (name : Bytes) :
    (47 : UInt8) ∉ encodeTopicDir name ∧ (0 : UInt8) ∉ encodeTopicDir name := by
  have hplain : ∀ b ∈ encodeTopicDir name, plainByte b = true ∨ b = percent := by
    intro b hb
    obtain ⟨c, _, hc⟩ := mem_flatMap.mp hb
    exact encodeByte_plain c b hc
  exact ⟨fun h => absurd (hplain _ h) (by decide), fun h => absurd (hplain _ h) (by decide)⟩

theorem encodeTopicDir_ne_nil (h : name ≠ []) : encodeTopicDir name ≠ [] := by
  intro he
  exact h (encodeTopicDir_inj (he.trans (rfl : [] = encodeTopicDir [])))

def topicPath (dir : Path) (name : Bytes) : Path := dir ++ [encodeTopicDir name]

theorem topicPath_alone (ha : topicPath dir a <+: q) (hb : topicPath dir b <+: q) : a = b := by
  have hlen : (topicPath dir a).length = (topicPath dir b).length := by simp [topicPath]
  have heq := prefix_or_prefix_of_prefix ha hb
  have hpath : topicPath dir a = topicPath dir b := by
    rcases heq with h | h
    · exact h.eq_of_length hlen
    · exact (h.eq_of_length hlen.symm).symm
  exact encodeTopicDir_inj (by simpa [topicPath] using hpath)

variable {name : Bytes}

theorem createTopic_contained (h : Server.Proper name) (l : Log) (dirs : Dirs) (n : Int32) :
    ∀ q, q ∈ (l.createTopic dirs name n).2.1 → q ∈ dirs ∨ topicPath l.dir name <+: q := by
  intro q hq
  unfold Log.createTopic at hq
  split at hq
  · exact Or.inl hq
  · exact Or.inl hq
  rcases mem_mkdirs.mp hq with hq | hq
  · exact Or.inl hq
  rcases (mem_createPaths h).mp hq with ⟨_, rfl⟩ | ⟨i, _, rfl⟩
  · exact Or.inr (prefix_refl _)
  · exact Or.inr ⟨[decimal i], by simp [topicPath]⟩

theorem createTopic_keeps (l : Log) (dirs : Dirs) (n : Int32) :
    ∀ q ∈ dirs, q ∈ (l.createTopic dirs name n).2.1 := by
  intro q hq
  unfold Log.createTopic
  split
  · exact hq
  · exact hq
  · exact mem_mkdirs.mpr (Or.inl hq)

theorem deleteTopic_contained (h : Server.Proper name) (l : Log) (dirs : Dirs) :
    ∀ q ∈ dirs, ¬ topicPath l.dir name <+: q → q ∈ (l.deleteTopic dirs name).2.1 := by
  intro q hq hout
  unfold Log.deleteTopic
  split
  · exact hq
  · rw [joinPath_topic h]
    exact mem_removeAll.mpr ⟨hq, hout⟩

theorem deleteTopic_only (l : Log) (dirs : Dirs) :
    ∀ q ∈ (l.deleteTopic dirs name).2.1, q ∈ dirs := by
  intro q hq
  unfold Log.deleteTopic at hq
  split at hq
  · exact hq
  · exact (mem_removeAll.mp hq).1

theorem proper_of_decodeTopicDir (h : Server.Proper name) (hd : decodeTopicDir d = some name) :
    d ≠ [46] ∧ d ≠ [46, 46] := by
  constructor
  · rintro rfl
    exact h.1 (Option.some.inj hd).symm
  · rintro rfl
    exact h.2 (Option.some.inj hd).symm

theorem openTopicDir_contained (h : Server.Proper name) (hd : decodeTopicDir d = some name)
    (dirs : Dirs) (dir : Path) :
    openTopicDir dirs dir name d = openTopicDir (within dirs (dir ++ [d])) dir name d := by
  obtain ⟨h1, h2⟩ := proper_of_decodeTopicDir h hd
  have hjoin : joinPath dir d = dir ++ [d] := by rw [joinPath, if_neg h1, if_neg h2]
  unfold openTopicDir
  rw [hjoin, readDir_within]

theorem openLog_contained (dirs : Dirs) (dir : Path) (n : Int32) :
    q ∈ (Log.openLog dirs dir n).1 ↔ q ∈ dirs ∨ q <+: dir := by
  have hdirs : (Log.openLog dirs dir n).1 = mkdirAll dirs dir := by
    unfold Log.openLog
    dsimp only
    split <;> rfl
  rw [hdirs, mem_mkdirAll]

/-- A topic name other than the two dots names a directory of its own right
inside that of the log, which gives the name back, and creating, deleting and
opening the topic leave every other directory alone. -/
theorem topic_dirs_are_contained (hv : validTopicName name = .ok ()) (hp : Server.Proper name) :
    (encodeTopicDir name ≠ [] ∧ encodeTopicDir name ≠ [46] ∧ encodeTopicDir name ≠ [46, 46] ∧
      (47 : UInt8) ∉ encodeTopicDir name ∧ (0 : UInt8) ∉ encodeTopicDir name) ∧
    decodeTopicDir (encodeTopicDir name) = some name ∧
    (∀ other, encodeTopicDir other = encodeTopicDir name → other = name) ∧
    ∀ (l : Log) (dirs : Dirs), joinPath l.dir (encodeTopicDir name) = topicPath l.dir name ∧
      (∀ other q, topicPath l.dir name <+: q → topicPath l.dir other <+: q → other = name) ∧
      (∀ n q, q ∈ (l.createTopic dirs name n).2.1 ∧ q ∉ dirs ∨
          q ∉ (l.createTopic dirs name n).2.1 ∧ q ∈ dirs → topicPath l.dir name <+: q) ∧
      (∀ q, q ∈ (l.deleteTopic dirs name).2.1 ∧ q ∉ dirs ∨
          q ∉ (l.deleteTopic dirs name).2.1 ∧ q ∈ dirs → topicPath l.dir name <+: q) ∧
      (∀ n q, q ∈ (Log.openLog dirs l.dir n).1 ↔ q ∈ dirs ∨ q <+: l.dir) ∧
      ∀ d, decodeTopicDir d = some name →
        openTopicDir dirs l.dir name d = openTopicDir (within dirs (l.dir ++ [d])) l.dir name d := by
  have hne : name ≠ [] := by
    intro he
    rw [he] at hv
    cases hv
  have h1 : encodeTopicDir name ≠ [46] := fun he =>
    hp.1 (encodeTopicDir_inj (he.trans (by decide : [46] = encodeTopicDir [46])))
  have h2 : encodeTopicDir name ≠ [46, 46] := fun he =>
    hp.2 (encodeTopicDir_inj (he.trans (by decide : [46, 46] = encodeTopicDir [46, 46])))
  obtain ⟨hsep, hzero⟩ := encodeTopicDir_component name
  refine ⟨⟨encodeTopicDir_ne_nil hne, h1, h2, hsep, hzero⟩, decodeTopicDir_encodeTopicDir name,
    fun other => encodeTopicDir_inj, fun l dirs => ⟨joinPath_topic hp l.dir, ?_, ?_, ?_,
      fun n q => openLog_contained dirs l.dir n, ?_⟩⟩
  · intro other q hq ho
    exact topicPath_alone ho hq
  · rintro n q (⟨hq, hnew⟩ | ⟨hgone, hq⟩)
    · exact (createTopic_contained hp l dirs n q hq).resolve_left hnew
    · exact absurd (createTopic_keeps l dirs n q hq) hgone
  · rintro q (⟨hq, hnew⟩ | ⟨hgone, hq⟩)
    · exact absurd (deleteTopic_only l dirs q hq) hnew
    · by_contra hout
      exact hgone (deleteTopic_contained hp l dirs q hq hout)
  · intro d hd
    exact openTopicDir_contained hp hd dirs l.dir

theorem topic_dirs_of_one_letter : validTopicName [97] = .ok () ∧ Server.Proper [97] ∧
      decodeTopicDir (encodeTopicDir [97]) = some [97] ∧
      joinPath [[100]] (encodeTopicDir [97]) = topicPath [[100]] [97] :=
  have h := topic_dirs_are_contained (by rfl : validTopicName [97] = .ok ()) (by decide)
  ⟨by rfl, by decide, h.2.1, (h.2.2.2 ⟨[[100]], 1, [], false⟩ []).1⟩

def dotTopics : Server :=
  [ServerOp.openLog 1, .createTopic [97] 1, .createTopic [46] 1, .createTopic [46, 46] 1].foldl
    (Server.after [[100], [115]]) { Server.start with dirs := [[[100]], [[100], [111]]] }

/-- Deleting the topic "." removes the other topics, and deleting ".." what stands
next to the log. -/
theorem dot_topics_remove_other_directories :
    (validTopicName [46] = .ok () ∧ encodeTopicDir [46] = [46]) ∧
    (validTopicName [46, 46] = .ok () ∧ encodeTopicDir [46, 46] = [46, 46]) ∧
    topicPath [[100], [115]] [97] ∈ dotTopics.dirs ∧ [[100], [111]] ∈ dotTopics.dirs ∧
    dotTopics.log.any (fun l =>
      decide (topicPath [[100], [115]] [97] ∉ (l.deleteTopic dotTopics.dirs [46]).2.1 ∧
        [[100], [111]] ∉ (l.deleteTopic dotTopics.dirs [46, 46]).2.1)) = true := by
  refine ⟨⟨rfl, by decide⟩, ⟨rfl, by decide⟩, ?_, ?_, ?_⟩ <;> decide +kernel

end Boltq.Stream
