import Boltq.Lib.Frames
import Boltq.Lib.Run
import Boltq.QueuePlane.Broker

namespace Boltq.QueuePlane
open Lib List Function Broker

abbrev Path := List Bytes

abbrev Files := Path → Option Bytes

def dotSpill : Bytes := [46, 115, 112, 105, 108, 108]

def dotTmp : Bytes := [46, 116, 109, 112]

def components : Bytes → List Bytes
  | [] => [[]]
  | c :: s =>
    if c = 47 then [] :: components s
    else
      match components s with
      | [] => [[c]]
      | p :: ps => (c :: p) :: ps

def cleanStep (p : Path) (c : Bytes) : Path :=
  if c = [] ∨ c = [46] then p
  else if c = [46, 46] then
    if p = [] ∨ p.getLast? = some [46, 46] then p ++ [[46, 46]] else p.dropLast
  else p ++ [c]

def spillPath (dir : Path) (name : Bytes) : Path :=
  (components (name ++ dotSpill)).foldl cleanStep dir

def tempPath (p : Path) : Path := p.dropLast ++ [(p.getLast?).getD [] ++ dotTmp]

def PlainName (name : Bytes) : Prop := (47 : UInt8) ∉ name
  deriving Decidable

theorem components_of_plain (h : (47 : UInt8) ∉ s) : components s = [s] := by
  induction s with
  | nil => rfl
  | cons c s ih =>
    obtain ⟨hc, hs⟩ := ne_and_not_mem_of_not_mem_cons h
    rw [components, if_neg hc.symm, ih hs]

theorem spillPath_of_plain (h : PlainName name) (dir : Path) :
    spillPath dir name = dir ++ [name ++ dotSpill] := by
  have hlen : 6 ≤ (name ++ dotSpill).length := by simp [dotSpill]
  have hsep : (47 : UInt8) ∉ name ++ dotSpill := by
    intro hmem
    rcases mem_append.mp hmem with hn | hd
    · exact h hn
    · exact absurd hd (by decide)
  have hshort : ∀ s : Bytes, s.length < 6 → name ++ dotSpill ≠ s := by
    rintro s hs rfl
    omega
  rw [spillPath, components_of_plain hsep, foldl_cons, foldl_nil, cleanStep,
    if_neg (not_or.mpr ⟨hshort _ (by decide), hshort _ (by decide)⟩), if_neg (hshort _ (by decide))]

theorem spillPath_inj (ha : PlainName a) (hb : PlainName b) (h : spillPath dir a = spillPath dir b) :
    a = b := by
  rw [spillPath_of_plain ha, spillPath_of_plain hb] at h
  have hlast : a ++ dotSpill = b ++ dotSpill := by simpa using h
  exact append_cancel_right hlast

theorem tempPath_of_plain (h : PlainName name) (dir : Path) :
    tempPath (spillPath dir name) = dir ++ [name ++ dotSpill ++ dotTmp] := by
  rw [spillPath_of_plain h]
  simp [tempPath]

theorem tempPath_ne_spill (h : PlainName name) (dir : Path) (other : Bytes) :
    dir ++ [other ++ dotSpill] ≠ tempPath (spillPath dir name) := by
  rw [tempPath_of_plain h]
  intro he
  have hbytes : other ++ dotSpill = name ++ dotSpill ++ dotTmp := by simpa using he
  have hlast := congrArg getLast? hbytes
  rw [getLast?_append, getLast?_append] at hlast
  exact absurd hlast (by simp [dotSpill, dotTmp])

structure Codec where
  encode : Message → Bytes
  decode : Bytes → Option Message

def lengthPrefixed (data : Bytes) : Bytes := le 4 data.length ++ data

theorem lengthPrefixed_ne_nil (data : Bytes) : lengthPrefixed data ≠ [] := by
  intro h
  have hlen := congrArg length h
  simp [lengthPrefixed] at hlen

def spillToDiskLocked (c : Codec) (dir : Path) (files : Files) (name : Bytes) (m : Message) :
    Files :=
  update files (spillPath dir name)
    (some ((files (spillPath dir name)).getD [] ++ lengthPrefixed (c.encode m)))

structure Reload where
  queue : PriorityQueue Held
  nextRef : Nat
  taken : List Message
  temp : Bytes
  rest : Bytes

def reloadLoop (c : Codec) : Nat → PriorityQueue Held → Nat → Bytes → List Message → Reload
  | 0, q, ref, reader, taken => ⟨q, ref, taken, [], reader⟩
  | fuel+1, q, ref, reader, taken =>
    if q.isFull then ⟨q, ref, taken, [], reader⟩
    else if reader.length < 4 then ⟨q, ref, taken, [], []⟩
    else if (reader.drop 4).length < unle (reader.take 4) then ⟨q, ref, taken, [], []⟩
    else
      let data := (reader.drop 4).take (unle (reader.take 4))
      let reader := (reader.drop 4).drop (unle (reader.take 4))
      match c.decode data with
      | none => reloadLoop c fuel q ref reader taken
      | some m =>
        match q.push (clampPriority m.priority) ⟨ref, m⟩ with
        | some q => reloadLoop c fuel q (ref + 1) reader (taken ++ [m])
        | none => ⟨q, ref, taken, lengthPrefixed data, reader⟩

structure Processed where
  files : Files
  queue : PriorityQueue Held
  nextRef : Nat
  taken : List Message

def rewriteFile (files : Files) (path : Path) (reloadedCount : Nat) (left : Bytes) : Files :=
  let files := update files (tempPath path) (some left)
  if 0 < reloadedCount then
    if left.length = 0 then update (update files (tempPath path) none) path none
    else update (update files path (some left)) (tempPath path) none
  else update files (tempPath path) none

def processSpillFile (c : Codec) (files : Files) (path : Path) (q : PriorityQueue Held)
    (ref : Nat) : Processed :=
  match files path with
  | none => ⟨files, q, ref, []⟩
  | some bytes =>
    let r := reloadLoop c bytes.length q ref bytes []
    ⟨rewriteFile files path r.taken.length (r.temp ++ r.rest), r.queue, r.nextRef, r.taken⟩

section Rewriting
variable {files : Files} {path : Path}

theorem rewriteFile_other (hp : p ≠ path) (ht : p ≠ tempPath path) (n : Nat) (left : Bytes) :
    rewriteFile files path n left p = files p := by
  unfold rewriteFile
  split
  · split
    · rw [update_of_ne hp, update_of_ne ht, update_of_ne ht]
    · rw [update_of_ne ht, update_of_ne hp, update_of_ne ht]
  · rw [update_of_ne ht, update_of_ne ht]

theorem rewriteFile_temp (hne : path ≠ tempPath path) (n : Nat) (left : Bytes) :
    rewriteFile files path n left (tempPath path) = none := by
  unfold rewriteFile
  split
  · split
    · rw [update_of_ne hne.symm, update_self]
    · rw [update_self]
  · rw [update_self]

theorem rewriteFile_path (hne : path ≠ tempPath path)
    (hkept : n = 0 → (files path).getD [] = left) :
    (rewriteFile files path n left path).getD [] = left := by
  unfold rewriteFile
  split
  · split
    · rename_i hempty
      rw [update_self, List.length_eq_zero_iff.mp hempty]
      rfl
    · rw [update_of_ne hne, update_self]
      rfl
  · rename_i hnone
    rw [update_of_ne hne, update_of_ne hne]
    exact hkept (Nat.eq_zero_of_not_pos hnone)

end Rewriting

def Codec.Returns (c : Codec) (m : Message) : Prop :=
  c.decode (c.encode m) = some m ∧ (c.encode m).length < 2 ^ 32
  deriving Decidable

def Codec.file (c : Codec) (ms : List Message) : Bytes :=
  stored (fun m => lengthPrefixed (c.encode m)) ms

structure Reload.Matches (c : Codec) (r : Reload) (taken ms : List Message)
    (i : PriorityQueue Held × List Message × Nat) : Prop where
  queue : r.queue = i.1
  nextRef : r.nextRef = i.2.2
  taken : ∃ got, ms = got ++ i.2.1 ∧ r.taken = taken ++ got
  left : r.temp ++ r.rest = c.file i.2.1

section Reloading
variable {c : Codec}

theorem reloadLoop_cons (hm : c.Returns m) (fuel : Nat) (q : PriorityQueue Held) (ref : Nat)
    (bs : Bytes) (taken : List Message) (hfull : q.isFull = false) :
    reloadLoop c (fuel + 1) q ref (lengthPrefixed (c.encode m) ++ bs) taken =
      match q.push (clampPriority m.priority) ⟨ref, m⟩ with
      | some q => reloadLoop c fuel q (ref + 1) bs (taken ++ [m])
      | none => ⟨q, ref, taken, lengthPrefixed (c.encode m), bs⟩ := by
  have htake : (lengthPrefixed (c.encode m) ++ bs).take 4 = le 4 (c.encode m).length := by
    rw [lengthPrefixed, append_assoc, take_left' (length_le 4 _)]
  have hdrop : (lengthPrefixed (c.encode m) ++ bs).drop 4 = c.encode m ++ bs := by
    rw [lengthPrefixed, append_assoc, drop_left' (length_le 4 _)]
  have hlen : ¬ (lengthPrefixed (c.encode m) ++ bs).length < 4 := by
    simp [lengthPrefixed]
  have hword : unle (le 4 (c.encode m).length) = (c.encode m).length :=
    unle_le_of_lt (Nat.lt_of_lt_of_eq hm.2 (by decide))
  have hbody : ¬ (c.encode m ++ bs).length < (c.encode m).length := by
    simp
  rw [reloadLoop, hfull, if_neg Bool.false_ne_true, if_neg hlen]
  simp only [htake, hdrop, hword, if_neg hbody, take_left, drop_left, hm.1]

theorem reloadLoop_file (hms : ∀ m ∈ ms, c.Returns m) (hf : ms.length ≤ fuel)
    (q : PriorityQueue Held) (ref : Nat) (taken : List Message) :
    (reloadLoop c fuel q ref (c.file ms) taken).Matches c taken ms (reloadInto ms q ref) := by
  induction ms generalizing fuel q ref taken with
  | nil =>
    have hloop : reloadLoop c fuel q ref (c.file []) taken = ⟨q, ref, taken, [], []⟩ := by
      cases fuel with
      | zero => rfl
      | succ fuel => cases hfull : q.isFull <;> simp [reloadLoop, hfull, Codec.file]
    rw [hloop]
    exact ⟨rfl, rfl, ⟨[], rfl, (append_nil _).symm⟩, rfl⟩
  | cons m ms ih =>
    have hfile : c.file (m :: ms) = lengthPrefixed (c.encode m) ++ c.file ms := stored_cons _ _
    obtain ⟨fuel, rfl⟩ : ∃ n, fuel = n + 1 := ⟨fuel - 1, by rw [length_cons] at hf; omega⟩
    cases hfull : q.isFull with
    | true =>
      rw [reloadLoop, reloadInto, if_pos hfull, if_pos hfull]
      exact ⟨rfl, rfl, ⟨[], rfl, (append_nil _).symm⟩, rfl⟩
    | false =>
      rw [hfile, reloadLoop_cons (hms m (by simp)) fuel q ref (c.file ms) taken hfull]
      cases hpush : q.push (clampPriority m.priority) ⟨ref, m⟩ with
      | none =>
        have hinto : reloadInto (m :: ms) q ref = (q, m :: ms, ref) := by
          simp [reloadInto, hfull, hpush]
        rw [hinto]
        exact ⟨rfl, rfl, ⟨[], rfl, (append_nil _).symm⟩, hfile.symm⟩
      | some q' =>
        have hinto : reloadInto (m :: ms) q ref = reloadInto ms q' (ref + 1) := by
          simp [reloadInto, hfull, hpush]
        rw [hinto]
        have h := ih (fun x hx => hms x (by simp [hx])) (Nat.le_of_succ_le_succ hf) q' (ref + 1)
          (taken ++ [m])
        obtain ⟨got, hsplit, htaken⟩ := h.taken
        refine ⟨h.queue, h.nextRef, ⟨m :: got, ?_, ?_⟩, h.left⟩
        · rw [cons_append, ← hsplit]
        · rw [htaken, append_assoc, singleton_append]

theorem reloadInto_stops (h : (reloadInto ms q ref).2.1 = m :: rest) :
    (reloadInto ms q ref).1.isFull = true ∨ (reloadInto ms q ref).1.push (clampPriority m.priority)
        ⟨(reloadInto ms q ref).2.2, m⟩ = none := by
  induction ms generalizing q ref with
  | nil => cases h
  | cons x ms ih =>
    cases hfull : q.isFull with
    | true =>
      rw [reloadInto, if_pos hfull]
      exact .inl hfull
    | false =>
      cases hpush : q.push (clampPriority x.priority) ⟨ref, x⟩ with
      | none =>
        have hinto : reloadInto (x :: ms) q ref = (q, x :: ms, ref) := by
          simp [reloadInto, hfull, hpush]
        rw [hinto] at h ⊢
        cases h
        exact .inr hpush
      | some q' =>
        have hinto : reloadInto (x :: ms) q ref = reloadInto ms q' (ref + 1) := by
          simp [reloadInto, hfull, hpush]
        rw [hinto] at h ⊢
        exact ih h

structure Processed.Matches (c : Codec) (r : Processed) (files : Files) (path : Path)
    (ms : List Message) (i : PriorityQueue Held × List Message × Nat) : Prop where
  queue : r.queue = i.1
  nextRef : r.nextRef = i.2.2
  taken : ms = r.taken ++ i.2.1
  left : (r.files path).getD [] = c.file i.2.1
  temp : files (tempPath path) = none → r.files (tempPath path) = none
  others : ∀ p, p ≠ path → p ≠ tempPath path → r.files p = files p

theorem length_le_file (c : Codec) (ms : List Message) : ms.length ≤ (c.file ms).length :=
  length_le_stored (fun _ _ => lengthPrefixed_ne_nil _)

theorem processSpillFile_file (hms : ∀ m ∈ ms, c.Returns m)
    (hfile : (files path).getD [] = c.file ms) (hne : path ≠ tempPath path) (q : PriorityQueue Held)
    (ref : Nat) :
    (processSpillFile c files path q ref).Matches c files path ms (reloadInto ms q ref) := by
  have hlen := length_le_file c ms
  rw [← hfile] at hlen
  cases hp : files path with
  | none =>
    have hproc : processSpillFile c files path q ref = ⟨files, q, ref, []⟩ := by
      rw [processSpillFile, hp]
    rw [hp] at hlen
    obtain rfl : ms = [] := length_eq_zero_iff.mp (Nat.le_zero.mp hlen)
    rw [hproc]
    exact ⟨rfl, rfl, rfl, hfile, id, fun _ _ _ => rfl⟩
  | some bytes =>
    obtain rfl : bytes = c.file ms := by
      rw [hp] at hfile
      exact hfile
    have h := reloadLoop_file hms (length_le_file c ms) q ref []
    obtain ⟨got, hsplit, htaken⟩ := h.taken
    rw [nil_append] at htaken
    rw [← htaken] at hsplit
    rw [processSpillFile, hp]
    refine ⟨h.queue, h.nextRef, hsplit, ?_, fun _ => rewriteFile_temp hne _ _,
      fun p h1 h2 => rewriteFile_other h1 h2 _ _⟩
    rw [← h.left]
    refine rewriteFile_path hne (fun hnone => ?_)
    rw [length_eq_zero_iff.mp hnone, nil_append] at hsplit
    rw [h.left, hfile]
    exact congrArg c.file hsplit

end Reloading

inductive SpillOp where
  | spill (name : Bytes) (m : Message)
  | processSpillFile (name : Bytes)
  | reloadFromDisk (names : List Bytes)
  | use (name : Bytes) (q : PriorityQueue Held)

structure Spills where
  files : Files
  queues : Bytes → PriorityQueue Held
  nextRef : Nat
  spilled : Bytes → List Message
  returned : Bytes → List Message

namespace Spills

def start (queues : Bytes → PriorityQueue Held) : Spills :=
  ⟨fun _ => none, queues, 0, fun _ => [], fun _ => []⟩

def spill (c : Codec) (dir : Path) (w : Spills) (name : Bytes) (m : Message) : Spills :=
  { w with
    files := spillToDiskLocked c dir w.files name m
    spilled := update w.spilled name (w.spilled name ++ [m]) }

def process (c : Codec) (dir : Path) (w : Spills) (name : Bytes) : Spills :=
  let r := processSpillFile c w.files (spillPath dir name) (w.queues name) w.nextRef
  { w with
    files := r.files
    queues := update w.queues name r.queue
    nextRef := r.nextRef
    returned := update w.returned name (w.returned name ++ r.taken) }

def reload (c : Codec) (dir : Path) (w : Spills) (name : Bytes) : Spills :=
  if (w.queues name).isFull then w
  else if w.files (spillPath dir name) = none then w
  else w.process c dir name

def after (c : Codec) (dir : Path) (w : Spills) : SpillOp → Spills
  | .spill name m => w.spill c dir name m
  | .processSpillFile name => w.process c dir name
  | .reloadFromDisk names => names.foldl (reload c dir) w
  | .use name q => { w with queues := update w.queues name q }

def Step (c : Codec) (dir : Path) (w : Spills) (op : SpillOp) (w' : Spills) : Prop :=
  w.after c dir op = w'

/-- Queue names are plain and messages survive the codec. -/
def Plain (c : Codec) (_ : Spills) : SpillOp → Prop
  | .spill name m => PlainName name ∧ c.Returns m
  | .processSpillFile name => PlainName name
  | .reloadFromDisk names => ∀ name ∈ names, PlainName name
  | .use _ _ => True

instance (c : Codec) (w : Spills) (op : SpillOp) : Decidable (Plain c w op) :=
  match op with
  | .spill _ _ => inferInstanceAs (Decidable (_ ∧ _))
  | .processSpillFile name => inferInstanceAs (Decidable (PlainName name))
  | .reloadFromDisk names => inferInstanceAs (Decidable (∀ name ∈ names, PlainName name))
  | .use _ _ => inferInstanceAs (Decidable True)

section
variable (c : Codec) (dir : Path) (w : Spills) (name : Bytes)

@[simp] theorem spill_files (m : Message) :
    (w.spill c dir name m).files = spillToDiskLocked c dir w.files name m := rfl

@[simp] theorem spill_spilled (m : Message) :
    (w.spill c dir name m).spilled = update w.spilled name (w.spilled name ++ [m]) := rfl

@[simp] theorem spill_returned (m : Message) :
    (w.spill c dir name m).returned = w.returned := rfl

@[simp] theorem process_spilled :
    (w.process c dir name).spilled = w.spilled := rfl

@[simp] theorem process_returned :
    (w.process c dir name).returned = update w.returned name (w.returned name ++
      (processSpillFile c w.files (spillPath dir name) (w.queues name) w.nextRef).taken) := rfl

@[simp] theorem process_queues :
    (w.process c dir name).queues = update w.queues name
      (processSpillFile c w.files (spillPath dir name) (w.queues name) w.nextRef).queue := rfl

end

structure Kept (c : Codec) (dir : Path) (w : Spills) : Prop where
  split : ∀ name, PlainName name → ∃ rest, w.spilled name = w.returned name ++ rest ∧
    (w.files (spillPath dir name)).getD [] = c.file rest ∧ ∀ m ∈ rest, c.Returns m
  inside : ∀ p, w.files p ≠ none → ∃ name, PlainName name ∧ p = dir ++ [name ++ dotSpill]

variable {c : Codec} {dir : Path} {w : Spills} {name : Bytes}

theorem Kept.start (c : Codec) (dir : Path) (queues : Bytes → PriorityQueue Held) :
    Kept c dir (start queues) :=
  ⟨fun _ _ => ⟨[], rfl, rfl, forall_mem_nil _⟩, fun _ h => absurd rfl h⟩

theorem Kept.no_temp (h : Kept c dir w) (hn : PlainName name) :
    w.files (tempPath (spillPath dir name)) = none := by
  by_contra hsome
  obtain ⟨other, _, hp⟩ := h.inside _ hsome
  exact tempPath_ne_spill hn dir other hp.symm

theorem spillPath_ne_temp (ho : PlainName other) (hn : PlainName name) :
    spillPath dir other ≠ tempPath (spillPath dir name) := by
  rw [spillPath_of_plain ho]
  exact tempPath_ne_spill hn dir other

section
variable (h : Kept c dir w)
include h

theorem Kept.spill (hn : PlainName name) (hm : c.Returns m) :
    Kept c dir (w.spill c dir name m) := by
  refine ⟨fun n hplain => ?_, fun p hp => ?_⟩
  · obtain ⟨rest, hsplit, hfile, hrest⟩ := h.split n hplain
    by_cases hsame : n = name
    · subst hsame
      refine ⟨rest ++ [m], ?_, ?_, ?_⟩
      · rw [spill_spilled, update_self, spill_returned, hsplit, append_assoc]
      · rw [spill_files, spillToDiskLocked, update_self, Option.getD_some, hfile]
        simp [Codec.file]
      · intro x hx
        rcases mem_append.mp hx with hx | hx
        · exact hrest x hx
        · rwa [mem_singleton.mp hx]
    · have hpath : spillPath dir n ≠ spillPath dir name :=
        fun he => hsame (spillPath_inj hplain hn he)
      refine ⟨rest, ?_, ?_, hrest⟩
      · rw [spill_spilled, update_of_ne hsame, spill_returned, hsplit]
      · rw [spill_files, spillToDiskLocked, update_of_ne hpath, hfile]
  · by_cases hat : p = spillPath dir name
    · exact ⟨name, hn, hat.trans (spillPath_of_plain hn dir)⟩
    · rw [spill_files, spillToDiskLocked, update_of_ne hat] at hp
      exact h.inside p hp

theorem Kept.process (hn : PlainName name) : Kept c dir (w.process c dir name) := by
  obtain ⟨rest, hsplit, hfile, hrest⟩ := h.split name hn
  have hm := processSpillFile_file hrest hfile (spillPath_ne_temp hn hn) (w.queues name) w.nextRef
  refine ⟨fun n hplain => ?_, fun p hp => ?_⟩
  · by_cases hsame : n = name
    · subst hsame
      refine ⟨_, ?_, hm.left, fun m hmem => hrest m ?_⟩
      · rw [process_spilled, process_returned, update_self, append_assoc, ← hm.taken, hsplit]
      · rw [hm.taken]
        exact mem_append_right _ hmem
    · obtain ⟨rest', hsplit', hfile', hrest'⟩ := h.split n hplain
      refine ⟨rest', ?_, ?_, hrest'⟩
      · rw [process_spilled, process_returned, update_of_ne hsame, hsplit']
      rw [← hfile']
      exact congrArg (Option.getD · []) (hm.others _
        (fun he => hsame (spillPath_inj hplain hn he)) (spillPath_ne_temp hplain hn))
  · by_cases hat : p = spillPath dir name
    · exact ⟨name, hn, hat.trans (spillPath_of_plain hn dir)⟩
    by_cases htemp : p = tempPath (spillPath dir name)
    · rw [htemp] at hp
      exact absurd (hm.temp (h.no_temp hn)) hp
    · exact h.inside p (fun hnone => hp ((hm.others p hat htemp).trans hnone))

theorem Kept.reload (hn : PlainName name) : Kept c dir (w.reload c dir name) := by
  unfold Spills.reload
  split
  · exact h
  split
  · exact h
  · exact h.process hn

theorem Kept.step (hp : Plain c w op) (hs : Step c dir w op w') :
    Kept c dir w' := by
  subst hs
  cases op with
  | spill name m => exact h.spill hp.1 hp.2
  | processSpillFile name => exact h.process hp
  | reloadFromDisk names =>
    change Kept c dir (names.foldl (Spills.reload c dir) w)
    -- the queues are gone through one after another
    induction names generalizing w with
    | nil => exact h
    | cons n names ih =>
      exact ih (h.reload (hp n (by simp))) (fun x hx => hp x (mem_cons_of_mem _ hx))
  | use name q => exact ⟨h.split, h.inside⟩

end

/-- While queue names have no separator, each queue has a file of its own right
inside the directory; the messages pushed back to it are the first of those
spilled for it, in their order, its file has the others, and the next reload goes
on with them for as long as the queue takes them. -/
theorem spilled_messages_come_back {queues : Bytes → PriorityQueue Held} {ops : List SpillOp}
    (hr : Run (Step c dir) (Plain c) (Spills.start queues) ops w) (hn : PlainName name) :
    spillPath dir name = dir ++ [name ++ dotSpill] ∧
    (∀ other, PlainName other → spillPath dir other = spillPath dir name → other = name) ∧
    (∀ m p, spillToDiskLocked c dir w.files name m p ≠ w.files p → p = dir ++ [name ++ dotSpill]) ∧
    (∀ p, w.files p ≠ none → ∃ n, PlainName n ∧ p = dir ++ [n ++ dotSpill]) ∧
    ∃ rest, w.spilled name = w.returned name ++ rest ∧
      (w.files (spillPath dir name)).getD [] = c.file rest ∧
      (w.process c dir name).queues name = (Broker.reloadInto rest (w.queues name) w.nextRef).1 ∧
      ∃ left, w.spilled name = (w.process c dir name).returned name ++ left ∧
        ∀ m ms, left = m :: ms → ((w.process c dir name).queues name).isFull = true ∨
          ((w.process c dir name).queues name).push (clampPriority m.priority)
            ⟨(w.process c dir name).nextRef, m⟩ = none := by
  have hk : Kept c dir w :=
    hr.invariant (Kept c dir) (Kept.start c dir queues) (fun _ _ _ h hp hs => h.step hp hs)
  obtain ⟨rest, hsplit, hfile, hrest⟩ := hk.split name hn
  have hm := processSpillFile_file hrest hfile (spillPath_ne_temp hn hn) (w.queues name) w.nextRef
  have hqueue : (w.process c dir name).queues name =
      (reloadInto rest (w.queues name) w.nextRef).1 := by
    rw [process_queues, update_self, hm.queue]
  have hreturned : w.spilled name = (w.process c dir name).returned name ++
      (reloadInto rest (w.queues name) w.nextRef).2.1 := by
    rw [process_returned, update_self, append_assoc, ← hm.taken, hsplit]
  refine ⟨spillPath_of_plain hn dir, fun other ho he => spillPath_inj ho hn he, fun m p hp => ?_,
    hk.inside, rest, hsplit, hfile, hqueue, _, hreturned, fun m ms hleft => ?_⟩
  · by_contra hout
    rw [← spillPath_of_plain hn] at hout
    exact hp (update_of_ne hout _ _)
  · have hnext : (w.process c dir name).nextRef =
        (reloadInto rest (w.queues name) w.nextRef).2.2 := hm.nextRef
    rw [hqueue, hnext]
    exact reloadInto_stops hleft

def payloads : Codec := ⟨Message.payload, fun data => some { id := "", payload := data }⟩

def oneByte (b : UInt8) : Message := { id := "", payload := [b] }

def spillDir : Path := [[100, 97, 116, 97], [115, 112, 105, 108, 108]]

theorem two_spilled_one_comes_back : ∃ w, Run (Step payloads spillDir) (Plain payloads)
        (start (fun _ => .new numPriorityLevels 1))
        [.spill [120] (oneByte 1), .spill [120] (oneByte 2), .processSpillFile [120]] w ∧
      w.returned [120] = [oneByte 1] ∧ ∃ rest, w.spilled [120] = w.returned [120] ++ rest ∧
        (w.files (spillPath spillDir [120])).getD [] = payloads.file rest := by
  have hf : ∀ w op w', some (after payloads spillDir w op) = some w' →
      Step payloads spillDir w op w' := fun _ _ _ h => Option.some.inj h
  obtain ⟨w, hr, hw⟩ := Run.found_of hf (fun w : Spills => w.returned [120] = [oneByte 1])
    (by decide +kernel : (execAll (Plain payloads) (fun w op => some (w.after payloads spillDir op))
      (start (fun _ => .new numPriorityLevels 1))
      [.spill [120] (oneByte 1), .spill [120] (oneByte 2), .processSpillFile [120]]).any
        (fun w => decide (w.returned [120] = [oneByte 1])) = true)
  obtain ⟨rest, hsplit, hfile, _⟩ :=
    (spilled_messages_come_back hr (by decide : PlainName [120])).2.2.2.2
  exact ⟨w, hr, hw, rest, hsplit, hfile⟩

/-- The queues "x" and "./x" share a file, so that what is spilled for one comes
back to the other, and the file of the queue "../x" is outside the directory. -/
theorem separators_mix_spill_files :
    spillPath spillDir [46, 46, 47, 120] = [[100, 97, 116, 97], [120] ++ dotSpill] ∧
    spillPath spillDir [46, 47, 120] = spillPath spillDir [120] ∧
    ∃ w, Run (Step payloads spillDir) always (start (fun _ => .new numPriorityLevels 1))
        [.spill [46, 47, 120] (oneByte 1), .processSpillFile [120]] w ∧
      w.spilled [120] = [] ∧ w.returned [120] = [oneByte 1] ∧ w.returned [46, 47, 120] = [] := by
  refine ⟨by decide, by decide, ?_⟩
  refine ⟨_, .snoc [_] _ _ _ (.snoc [] _ _ _ .nil trivial rfl) trivial rfl, ?_, ?_, ?_⟩ <;>
    decide +kernel

end Spills

end Boltq.QueuePlane
