import Boltq.Identity.Policy
import Boltq.Lib.Words
import Boltq.QueuePlane.Message

namespace Boltq
open Lib Boltq.Stream List

namespace Stream

theorem nameBytes_eq (s : String) : nameBytes s = s.toList.flatMap String.utf8EncodeChar := by
  change s.toByteArray.data.toList = _
  conv_lhs => rw [← String.ofList_toList (s := s), String.toByteArray_ofList, utf8Encode]
  simp

@[simp] theorem nameBytes_append (s t : String) : nameBytes (s ++ t) = nameBytes s ++ nameBytes t := by
  simp [nameBytes]

@[simp] theorem nameBytes_inj : nameBytes s = nameBytes t ↔ s = t := by
  constructor
  · intro h
    exact String.toByteArray_inj.mp (ByteArray.ext (Array.toList_inj.mp h))
  · exact congrArg nameBytes

end Stream

theorem Identity.segments_nameBytes (s : String) :
    segments (nameBytes s) = (s.splitOn ".").map nameBytes := by
  rw [segments, nameBytes_eq, splitOn_utf8, splitOn_dot, map_map]
  exact map_congr_left fun cs _ => by simp [nameBytes_eq]

theorem QueuePlane.matchParts_iff : matchParts ws ps = true ↔ Aligned "*" "#" ws ps :=
  aligned_iff (by decide) (by simp [matchParts]) (by simp [matchParts])
    (fun p ps hp => by simp [matchParts, hp]) (fun w ws p ps hp => by simp [matchParts, hp])

theorem QueuePlane.topicMatch_iff : topicMatch key pattern = true ↔
    Aligned "*" "#" (key.splitOn ".") (pattern.splitOn ".") := matchParts_iff

theorem Identity.matchSegments_iff :
    matchSegments ws ps = true ↔ Aligned (nameBytes "*") (nameBytes "#") ws ps :=
  aligned_iff (by decide) (by simp [matchSegments]) (by simp [matchSegments])
    (fun p ps hp => by simp [matchSegments, hp]) (fun w ws p ps hp => by simp [matchSegments, hp])

theorem Identity.topicMatch_iff : topicMatch topic pattern = true ↔
    Aligned (nameBytes "*") (nameBytes "#") (segments topic) (segments pattern) := by
  rw [topicMatch, Bool.or_eq_true, matchSegments_iff, decide_eq_true_eq]
  constructor
  · rintro (rfl | h)
    · exact .last _
    · exact h
  · exact .inr

theorem Identity.matchSegments_nameBytes (ws ps : List String) :
    matchSegments (ws.map nameBytes) (ps.map nameBytes) = QueuePlane.matchParts ws ps := by
  induction ps generalizing ws with
  | nil => simp [matchSegments, QueuePlane.matchParts]
  | cons p ps ih =>
    have htails : (ws.map nameBytes).tails.any (matchSegments · (ps.map nameBytes)) =
        ws.tails.any (QueuePlane.matchParts · ps) := by
      simp [map_tails, Function.comp_def, ih]
    cases ws with
    | nil => simp_all [matchSegments, QueuePlane.matchParts]
    | cons w ws =>
      rw [map_cons] at htails ⊢
      simp only [map_cons, matchSegments, QueuePlane.matchParts, htails, ih, nameBytes_inj,
        map_eq_nil_iff]

/-- The exchanges and the access rules match a key against a pattern in the same way, which
is that the words of the pattern can be laid over those of the key. -/
theorem Identity.wildcard_matchers_agree :
    (∀ key pattern : String, QueuePlane.topicMatch key pattern = true ↔
      Aligned "*" "#" (key.splitOn ".") (pattern.splitOn ".")) ∧
    (∀ topic pattern : Bytes, topicMatch topic pattern = true ↔
      Aligned (nameBytes "*") (nameBytes "#") (segments topic) (segments pattern)) ∧
    ∀ key pattern : String,
      topicMatch (nameBytes key) (nameBytes pattern) = QueuePlane.topicMatch key pattern := by
  refine ⟨fun _ _ => QueuePlane.topicMatch_iff, fun _ _ => topicMatch_iff, fun key pattern => ?_⟩
  rw [Bool.eq_iff_iff, topicMatch_iff, ← matchSegments_iff, segments_nameBytes, segments_nameBytes,
    matchSegments_nameBytes, QueuePlane.topicMatch]

end Boltq
