import Maple.Lib.Runs
import Maple.Core.BasicTypes

/-! The trace log of `tracer/log.cc`: a directory with one file per slice. `E` is an
entry with all its fields set. Files and protocol buffers keep what is put into them. -/
namespace Maple.Tracer

/-- `LOG_SLICE_SIZE` -/
@[irreducible] def logSliceSize : ℕ := 1024 * 128

theorem logSliceSize_pos : 0 < logSliceSize := by
  unfold logSliceSize
  decide

structure LogMeta where
  uid : ℕ
  sliceCount : ℕ

/-- A cleared buffer has the default values. -/
structure LogSlice (E : Type) where
  uid : ℕ := 0
  sliceNo : ℕ := 0
  entries : List E := []

structure LogDir (E : Type) where
  metaFile : Option LogMeta := none
  slices : OrdMap ℕ (LogSlice E) := ∅

/-- Slice numbers are `uint32`. -/
@[irreducible] def sliceNos : ℕ := 2 ^ 32

def nextSliceNo (no : ℕ) : ℕ := (no + 1) % sliceNos

theorem one_lt_sliceNos : 1 < sliceNos := by
  unfold sliceNos
  decide

variable {E : Type}

/-- A `TraceLog` in write mode. -/
structure LogWriter (E : Type) where
  dir : LogDir E
  metaInfo : LogMeta
  currSlice : LogSlice E

namespace LogWriter

def openForWrite (uid : ℕ) : LogWriter E where
  dir := {}
  metaInfo := ⟨uid, 1⟩
  currSlice := { uid, sliceNo := 1 }

def saveSlice (w : LogWriter E) : LogDir E :=
  { w.dir with slices := w.dir.slices.insert w.currSlice.sliceNo w.currSlice }

def switchSliceForWrite (w : LogWriter E) : LogWriter E :=
  let nextNo := nextSliceNo w.currSlice.sliceNo
  { dir := w.saveSlice
    metaInfo := { w.metaInfo with sliceCount := nextNo }
    currSlice := { uid := w.metaInfo.uid, sliceNo := nextNo } }

def addEntry (w : LogWriter E) (entry : E) : LogWriter E :=
  { w with currSlice := { w.currSlice with entries := w.currSlice.entries ++ [entry] } }

def newEntry (w : LogWriter E) (entry : E) : LogWriter E :=
  if logSliceSize ≤ w.currSlice.entries.length then w.switchSliceForWrite.addEntry entry
  else w.addEntry entry

def closeForWrite (w : LogWriter E) : LogDir E := { w.saveSlice with metaFile := some w.metaInfo }

/-- A whole log. -/
def write (uid : ℕ) (entries : List E) : LogDir E :=
  (entries.foldl newEntry (openForWrite uid)).closeForWrite

end LogWriter

inductive ReadCall where
  | hasNextEntry
  | nextEntry
  deriving DecidableEq

inductive ReadResult (E : Type) where
  | hasNext (answer : Bool)
  | entry (entry : E)
  deriving DecidableEq

/-- A `TraceLog` in read mode. -/
structure LogReader (E : Type) where
  dir : LogDir E
  currSlice : LogSlice E
  entryCursor : ℕ
  hasNext : Bool

namespace LogReader

/-- A missing file or a failed assertion gives `none`. -/
def openForRead (dir : LogDir E) : Option (LogReader E) := do
  let metaInfo ← dir.metaFile
  let slice ← dir.slices[1]?
  if metaInfo.uid = slice.uid then
    return { dir, currSlice := slice, entryCursor := 0, hasNext := !slice.entries.isEmpty }
  else none

def switchSliceForRead (r : LogReader E) : Option (LogReader E) :=
  match r.dir.slices[nextSliceNo r.currSlice.sliceNo]? with
  | some slice =>
    if slice.entries.isEmpty then none
    else some { r with currSlice := slice, entryCursor := 0, hasNext := true }
  | none => some { r with currSlice := {}, hasNext := false }

def hasNextEntry (r : LogReader E) : Option (LogReader E × Bool) :=
  if r.hasNext then some (r, true)
  else r.switchSliceForRead.map fun r => (r, r.hasNext)

def nextEntry (r : LogReader E) : Option (LogReader E × E) :=
  if r.hasNext then do
    let entry ← r.currSlice.entries[r.entryCursor]?
    let cursor := r.entryCursor + 1
    return ({ r with
      entryCursor := cursor
      hasNext := r.hasNext && cursor ≠ r.currSlice.entries.length }, entry)
  else none

def step (r : LogReader E) : ReadCall → Option (LogReader E × ReadResult E)
  | .hasNextEntry => r.hasNextEntry.map fun (r, answer) => (r, .hasNext answer)
  | .nextEntry => r.nextEntry.map fun (r, entry) => (r, .entry entry)

end LogReader

/-- Open a directory, make the calls, and collect what they return. -/
def readLog (dir : LogDir E) (calls : List ReadCall) : Option (List (ReadResult E)) := do
  let r ← LogReader.openForRead dir
  let (_, results) ← Runs.run LogReader.step r calls
  return results

/-- What a log is for: a list of entries that the reader has not seen yet. -/
def unreadStep : List E → ReadCall → Option (List E × ReadResult E)
  | unread, .hasNextEntry => some (unread, .hasNext !unread.isEmpty)
  | entry :: rest, .nextEntry => some (rest, .entry entry)
  | [], .nextEntry => none

def specRead (entries : List E) (calls : List ReadCall) : Option (List (ReadResult E)) :=
  (Runs.run unreadStep entries calls).map Prod.snd

/-- `NextEntry` opens no slice: behind the last entry of a slice `HasNextEntry` is called
first. An entry of the current slice is `ready` as long as it has one. -/
def asksFirst (ready : Bool) (taken : ℕ) : List ReadCall → Bool
  | [] => true
  | .hasNextEntry :: calls => asksFirst true taken calls
  | .nextEntry :: calls => ready && asksFirst ((taken + 1) % logSliceSize ≠ 0) (taken + 1) calls

/-- How often `HasNextEntry` is called when no unread entry remains. -/
def asksAtEnd : List E → List ReadCall → ℕ
  | _, [] => 0
  | [], .hasNextEntry :: calls => asksAtEnd [] calls + 1
  | entry :: rest, .hasNextEntry :: calls => asksAtEnd (entry :: rest) calls
  | unread, .nextEntry :: calls => asksAtEnd unread.tail calls

/-! The files of a log: one for each chunk of the entries, in order. -/

/-- The most entries whose slices have different numbers other than 0. -/
def logCapacity : ℕ := logSliceSize * (sliceNos - 1)

theorem sliceNos_le_logCapacity : sliceNos - 1 ≤ logCapacity :=
  Nat.le_mul_of_pos_left _ logSliceSize_pos

/-- All slices but the last are full, and none but the first may be empty. -/
structure Chunked (entries : List E) (full : List (List E)) (last : List E) : Prop where
  whole : entries = full.flatten ++ last
  size : ∀ chunk ∈ full, chunk.length = logSliceSize
  fits : last.length ≤ logSliceSize
  inhabited : full ≠ [] → last ≠ []

/-- Slices are numbered from 1. -/
def Stored (uid : ℕ) (chunks : List (List E)) (slices : OrdMap ℕ (LogSlice E)) : Prop :=
  slices[0]? = none ∧ ∀ k, slices[k + 1]? = chunks[k]?.map fun chunk => ⟨uid, k + 1, chunk⟩

section Write
variable {uid : ℕ} {entries : List E} {full chunks : List (List E)} {last chunk : List E}
  {slices : OrdMap ℕ (LogSlice E)} {w : LogWriter E} {entry : E}

theorem Stored.push (stored : Stored uid chunks slices) (chunk : List E) :
    Stored uid (chunks ++ [chunk]) (slices.insert (chunks.length + 1) ⟨uid, chunks.length + 1, chunk⟩) := by
  refine ⟨?_, fun k => ?_⟩
  · rw [getElem?_insert_thread, if_neg (Nat.succ_ne_zero _)]
    exact stored.1
  · rw [getElem?_insert_thread]
    by_cases new : chunks.length = k
    · subst new
      simp
    · rw [if_neg (fun same => new (Nat.succ.inj same)), stored.2 k, List.getElem?_append]
      split
      · rfl
      · next beyond =>
        rw [List.getElem?_eq_none (Nat.le_of_not_lt beyond), List.getElem?_eq_none (by simp; omega)]

theorem length_flatten_of_size {size : ℕ} (sizes : ∀ chunk ∈ full, chunk.length = size) :
    full.flatten.length = size * full.length := by
  induction full with
  | nil => rfl
  | cons chunk rest ih =>
    obtain ⟨here, others⟩ := List.forall_mem_cons.mp sizes
    rw [List.flatten_cons, List.length_append, here, ih others, List.length_cons, Nat.mul_succ,
      Nat.add_comm]

theorem Chunked.full_bound (chunked : Chunked entries full last) (bound : entries.length ≤ logCapacity) :
    full.length + 1 < sliceNos := by
  by_cases many : full = []
  · subst many
    exact one_lt_sliceNos
  have extra := List.length_pos_of_ne_nil (chunked.inhabited many)
  rw [chunked.whole, List.length_append, length_flatten_of_size chunked.size, logCapacity] at bound
  have fewer : logSliceSize * full.length < logSliceSize * (sliceNos - 1) := by omega
  have below := Nat.lt_of_mul_lt_mul_left fewer
  omega

/-- The writer has put away the full slices and holds the last one. -/
structure Writes (uid : ℕ) (entries : List E) (w : LogWriter E) (full : List (List E)) : Prop where
  chunked : Chunked entries full w.currSlice.entries
  stored : Stored uid full w.dir.slices
  metaUid : w.metaInfo.uid = uid
  slice : w.currSlice = ⟨uid, full.length + 1, w.currSlice.entries⟩

theorem writes_open (uid : ℕ) : Writes uid ([] : List E) (.openForWrite uid) [] where
  chunked := ⟨rfl, nofun, Nat.zero_le _, fun some => absurd rfl some⟩
  stored := ⟨by simp [LogWriter.openForWrite], by simp [LogWriter.openForWrite]⟩
  metaUid := rfl
  slice := rfl

theorem Writes.addEntry (writes : Writes uid entries w full)
    (room : w.currSlice.entries.length < logSliceSize) :
    Writes uid (entries ++ [entry]) (w.addEntry entry) full where
  chunked := by
    refine ⟨?_, writes.chunked.size, ?_, fun _ => by simp [LogWriter.addEntry]⟩
    · rw [LogWriter.addEntry, writes.chunked.whole, List.append_assoc]
    · simp only [LogWriter.addEntry, List.length_append, List.length_singleton]
      exact room
  stored := writes.stored
  metaUid := writes.metaUid
  slice := by
    simp only [LogWriter.addEntry]
    rw [writes.slice]

theorem Writes.save (writes : Writes uid entries w full) :
    Stored uid (full ++ [w.currSlice.entries]) w.saveSlice.slices := by
  have number : w.currSlice.sliceNo = full.length + 1 := congrArg LogSlice.sliceNo writes.slice
  have pushed := writes.stored.push w.currSlice.entries
  rw [← writes.slice, ← number] at pushed
  exact pushed

/-- Between two slices the new one is still empty; only an entry is due. -/
theorem Writes.newEntry (writes : Writes uid entries w full)
    (bound : (entries ++ [entry]).length ≤ logCapacity) :
    ∃ full', Writes uid (entries ++ [entry]) (w.newEntry entry) full' := by
  unfold LogWriter.newEntry
  by_cases switch : logSliceSize ≤ w.currSlice.entries.length
  · rw [if_pos switch]
    have size := Nat.le_antisymm writes.chunked.fits switch
    have chunked : Chunked (entries ++ [entry]) (full ++ [w.currSlice.entries]) [entry] := by
      refine ⟨by simp [writes.chunked.whole], ?_, logSliceSize_pos, fun _ => by simp⟩
      intro chunk member
      rcases List.mem_append.mp member with old | new
      · exact writes.chunked.size chunk old
      · rw [List.mem_singleton.mp new]
        exact size
    have number : nextSliceNo w.currSlice.sliceNo = full.length + 2 := by
      have room := chunked.full_bound bound
      rw [List.length_append, List.length_singleton] at room
      rw [writes.slice]
      exact Nat.mod_eq_of_lt room
    refine ⟨full ++ [w.currSlice.entries], chunked, writes.save, writes.metaUid, ?_⟩
    · simp only [LogWriter.addEntry, LogWriter.switchSliceForWrite, number, writes.metaUid,
        List.length_append, List.length_singleton]
  · rw [if_neg switch]
    exact ⟨full, writes.addEntry (Nat.lt_of_not_le switch)⟩

theorem writes_all (uid : ℕ) (entries : List E) (bound : entries.length ≤ logCapacity) :
    ∃ full, Writes uid entries (entries.foldl LogWriter.newEntry (.openForWrite uid)) full := by
  induction entries using List.reverseRecOn with
  | nil => exact ⟨[], writes_open uid⟩
  | append_singleton entries entry ih =>
    obtain ⟨full, writes⟩ := ih (Nat.le_trans (by simp) bound)
    rw [List.foldl_append]
    exact writes.newEntry bound

/-- What is on disk when the log is closed. -/
theorem stored_write (uid : ℕ) (entries : List E) (bound : entries.length ≤ logCapacity) :
    ∃ full last, Chunked entries full last ∧ full.length + 1 < sliceNos ∧
      Stored uid (full ++ [last]) (LogWriter.write uid entries).slices ∧
      ∃ metaInfo, (LogWriter.write uid entries).metaFile = some metaInfo ∧ metaInfo.uid = uid := by
  obtain ⟨full, writes⟩ := writes_all uid entries bound
  exact ⟨full, _, writes.chunked, writes.chunked.full_bound bound, writes.save, _, rfl, writes.metaUid⟩

end Write

section Read
variable {uid : ℕ} {chunks : List (List E)} {r : LogReader E} {unread last : List E} {taken : ℕ} {ready : Bool}
  {calls : List ReadCall} {results : List (ReadResult E)}

/-- The reader stands in a slice, in front of the unread entries. -/
structure Stands (uid : ℕ) (chunks : List (List E)) (r : LogReader E) (unread : List E) (taken : ℕ)
    (ready : Bool) : Prop where
  stored : Stored uid chunks r.dir.slices
  few : chunks.length < sliceNos
  inhabited : ∀ k chunk, chunks[k + 1]? = some chunk → chunk ≠ []
  fits : ∀ chunk ∈ chunks, chunk.length ≤ logSliceSize
  full : ∀ k chunk, chunks[k]? = some chunk → k + 1 < chunks.length → chunk.length = logSliceSize
  place : ∃ i chunk, chunks[i]? = some chunk ∧ r.currSlice = ⟨uid, i + 1, chunk⟩ ∧
    unread = chunk.drop r.entryCursor ++ (chunks.drop (i + 1)).flatten ∧
    (r.hasNext = true ↔ r.entryCursor < chunk.length) ∧ r.entryCursor ≤ chunk.length ∧
    taken % logSliceSize = r.entryCursor % logSliceSize
  ready : unread ≠ [] → r.hasNext = ready

/-- The reader has looked behind the last slice, and forgotten where it was. -/
structure Spent (uid : ℕ) (chunks : List (List E)) (r : LogReader E) : Prop where
  stored : Stored uid chunks r.dir.slices
  nonempty : chunks ≠ []
  forgotten : r.currSlice.sliceNo = 0
  flag : r.hasNext = false

theorem Stands.nextEntry {entry : E} (stands : Stands uid chunks r (entry :: unread) taken true) :
    ∃ r', r.nextEntry = some (r', entry) ∧
      Stands uid chunks r' unread (taken + 1) ((taken + 1) % logSliceSize ≠ 0) := by
  have flag := stands.ready (List.cons_ne_nil _ _)
  obtain ⟨i, chunk, here, slice, whole, more, -, count⟩ := stands.place
  have below := more.mp flag
  have entries : r.currSlice.entries = chunk := congrArg LogSlice.entries slice
  rw [List.drop_eq_getElem_cons below, List.cons_append] at whole
  obtain ⟨same, rest⟩ := List.cons.inj whole
  have counted : (taken + 1) % logSliceSize = (r.entryCursor + 1) % logSliceSize := by
    rw [Nat.add_mod, count, ← Nat.add_mod]
  refine ⟨{ r with
      entryCursor := r.entryCursor + 1
      hasNext := r.hasNext && r.entryCursor + 1 ≠ chunk.length }, ?_, ?_⟩
  · simp [LogReader.nextEntry, flag, entries, List.getElem?_eq_getElem below, same]
  · refine ⟨stands.stored, stands.few, stands.inhabited, stands.fits, stands.full,
      ⟨i, chunk, here, slice, rest, ?_, below, counted⟩, fun some => ?_⟩
    · simp only [flag, Bool.true_and, decide_eq_true_eq]
      omega
    · simp only [flag, Bool.true_and, decide_eq_decide, counted]
      -- the slice ends at a multiple of its size, unless it is the last one
      have fits := stands.fits chunk (List.mem_of_getElem? here)
      by_cases final : i + 1 < chunks.length
      · rw [stands.full i chunk here final] at below ⊢
        rw [ne_eq, ne_eq, ← Nat.dvd_iff_mod_eq_zero, not_iff_not]
        exact ⟨fun whole => whole ▸ Nat.dvd_refl _,
          fun whole => Nat.le_antisymm below (Nat.le_of_dvd (Nat.succ_pos _) whole)⟩
      · rw [List.drop_eq_nil_iff.mpr (Nat.le_of_not_lt final), List.flatten_nil, List.append_nil] at rest
        have left : r.entryCursor + 1 < chunk.length := by
          rw [← Nat.not_le, ← List.drop_eq_nil_iff, ← rest]
          exact some
        rw [Nat.mod_eq_of_lt (left.trans_le fits)]
        exact iff_of_true left.ne (Nat.succ_ne_zero _)

/-- Without an entry at hand `NextEntry` fails its assertion. -/
theorem Stands.nextEntry_none (stands : Stands uid chunks r unread taken false) (some : unread ≠ []) :
    r.nextEntry = none := by
  simp [LogReader.nextEntry, stands.ready some]

/-- The file behind that of slice `i`, where slice numbers do not wrap onto another. -/
theorem Stored.getElem?_nextSliceNo {slices : OrdMap ℕ (LogSlice E)} (stored : Stored uid chunks slices)
    (few : chunks.length < sliceNos) {i : ℕ} (bound : i < chunks.length) :
    slices[nextSliceNo (i + 1)]? = chunks[i + 1]?.map fun chunk => ⟨uid, i + 2, chunk⟩ := by
  by_cases wraps : i + 2 = sliceNos
  · have zero : nextSliceNo (i + 1) = 0 := by
      rw [nextSliceNo, wraps, Nat.mod_self]
    rw [zero, stored.1, List.getElem?_eq_none (by omega)]
    rfl
  · have number : nextSliceNo (i + 1) = i + 2 := Nat.mod_eq_of_lt (by omega)
    rw [number, stored.2 (i + 1)]

theorem Stands.hasNextEntry_more (stands : Stands uid chunks r unread taken ready) (more : unread ≠ []) :
    ∃ r', r.hasNextEntry = some (r', true) ∧ Stands uid chunks r' unread taken true := by
  obtain ⟨i, chunk, here, slice, whole, behind, inside, count⟩ := stands.place
  cases flag : r.hasNext with
  | true =>
    exact ⟨r, by simp [LogReader.hasNextEntry, flag], stands.stored, stands.few, stands.inhabited,
      stands.fits, stands.full, ⟨i, chunk, here, slice, whole, behind, inside, count⟩, fun _ => flag⟩
  | false =>
    have bound := (List.getElem?_eq_some_iff.mp here).1
    have file := stands.stored.getElem?_nextSliceNo stands.few bound
    have past : chunk.length ≤ r.entryCursor := by
      rw [← Nat.not_lt, ← behind, flag]
      exact Bool.false_ne_true
    rw [List.drop_eq_nil_iff.mpr past, List.nil_append] at whole
    cases found : chunks[i + 1]? with
    | none =>
      rw [List.getElem?_eq_none_iff] at found
      rw [List.drop_eq_nil_iff.mpr found] at whole
      exact absurd whole more
    | some following =>
      have inhabited := stands.inhabited i following found
      obtain ⟨below, same⟩ := List.getElem?_eq_some_iff.mp found
      rw [found] at file
      refine ⟨{ r with currSlice := ⟨uid, i + 2, following⟩, entryCursor := 0, hasNext := true }, ?_,
        stands.stored, stands.few, stands.inhabited, stands.fits, stands.full,
        ⟨i + 1, following, found, rfl, ?_, ?_, Nat.zero_le _, ?_⟩, fun _ => rfl⟩
      · simp [LogReader.hasNextEntry, flag, LogReader.switchSliceForRead, slice, file, inhabited]
      · rw [whole, List.drop_eq_getElem_cons below, same, List.flatten_cons, List.drop_zero]
      · simp only [true_iff]
        exact List.length_pos_of_ne_nil inhabited
      · rw [count, Nat.le_antisymm inside past, stands.full i chunk here below, Nat.mod_self, Nat.zero_mod]

theorem Stands.hasNextEntry_end (stands : Stands uid chunks r [] taken ready) :
    ∃ r', r.hasNextEntry = some (r', false) ∧ Spent uid chunks r' := by
  obtain ⟨i, chunk, here, slice, done, behind, -⟩ := stands.place
  have bound := (List.getElem?_eq_some_iff.mp here).1
  obtain ⟨passed, none⟩ := List.append_eq_nil_iff.mp done.symm
  have flag : r.hasNext = false := by
    rw [Bool.eq_false_iff, ne_eq, behind, Nat.not_lt]
    exact List.drop_eq_nil_iff.mp passed
  have absent : chunks[i + 1]? = Option.none := by
    cases found : chunks[i + 1]? with
    | none => rfl
    | some following =>
      obtain ⟨below, same⟩ := List.getElem?_eq_some_iff.mp found
      rw [List.drop_eq_getElem_cons below, List.flatten_cons, List.append_eq_nil_iff, same] at none
      exact absurd none.1 (stands.inhabited i following found)
  have file := stands.stored.getElem?_nextSliceNo stands.few bound
  rw [absent] at file
  refine ⟨{ r with currSlice := {}, hasNext := false }, ?_, stands.stored, ?_, rfl, rfl⟩
  · simp [LogReader.hasNextEntry, flag, LogReader.switchSliceForRead, slice, file]
  · exact List.ne_nil_of_length_pos (Nat.zero_lt_of_lt bound)

/-- At the second call behind the end the reader opens the first slice again. -/
theorem Spent.hasNextEntry (spent : Spent uid chunks r) :
    r.hasNextEntry = none ∨ ∃ r', r.hasNextEntry = some (r', true) := by
  obtain ⟨first, rest, rfl⟩ := List.exists_cons_of_ne_nil spent.nonempty
  have number : nextSliceNo r.currSlice.sliceNo = 1 := by
    rw [spent.forgotten]
    exact Nat.mod_eq_of_lt one_lt_sliceNos
  have again : r.dir.slices[1]? = some ⟨uid, 1, first⟩ := spent.stored.2 0
  simp only [LogReader.hasNextEntry, spent.flag, LogReader.switchSliceForRead, number, again]
  split
  · next impossible => exact nomatch impossible
  · split
    · exact Or.inl rfl
    · exact Or.inr ⟨_, rfl⟩

/-- No entry can be taken behind the end. -/
theorem asksFirst_end (answered : Runs.run unreadStep [] calls = some (last, results)) :
    asksFirst ready taken calls = true := by
  induction calls generalizing results ready with
  | nil => rfl
  | cons call rest ih =>
    obtain ⟨_, _, _, stepped, continued, -⟩ := Runs.run_cons_inv answered
    cases call with
    | nextEntry => cases stepped
    | hasNextEntry =>
      cases stepped
      exact ih continued

/-- Behind the end every further call gives the wrong answer. -/
theorem Spent.read_iff (spent : Spent uid chunks r)
    (answered : Runs.run unreadStep [] calls = some (last, results)) :
    (∃ r', Runs.run LogReader.step r calls = some (r', results)) ↔ asksAtEnd ([] : List E) calls = 0 := by
  cases calls with
  | nil =>
    cases answered
    exact ⟨fun _ => rfl, fun _ => ⟨r, rfl⟩⟩
  | cons call rest =>
    obtain ⟨_, result, tail, stepped, -, rfl⟩ := Runs.run_cons_inv answered
    cases call with
    | nextEntry => cases stepped
    | hasNextEntry =>
      cases stepped
      refine iff_of_false ?_ (Nat.succ_ne_zero _)
      rintro ⟨r', ran⟩
      obtain ⟨_, _, _, called, -, same⟩ := Runs.run_cons_inv ran
      rw [← (List.cons.inj same).1] at called
      rcases spent.hasNextEntry with failed | ⟨r'', wrong⟩
      · simp [LogReader.step, failed] at called
      · simp [LogReader.step, wrong] at called

theorem Stands.read_iff (stands : Stands uid chunks r unread taken ready)
    (answered : Runs.run unreadStep unread calls = some (last, results)) :
    (∃ r', Runs.run LogReader.step r calls = some (r', results)) ↔
      asksFirst ready taken calls = true ∧ asksAtEnd unread calls ≤ 1 := by
  induction calls generalizing r unread taken ready results with
  | nil =>
    cases answered
    exact ⟨fun _ => by simp [asksFirst, asksAtEnd], fun _ => ⟨r, rfl⟩⟩
  | cons call rest ih =>
    obtain ⟨unread', result, tail, stepped, continued, rfl⟩ := Runs.run_cons_inv answered
    -- the first call gives the answer of the list, so the others decide
    have onwards : ∀ r₁, r.step call = some (r₁, result) →
        ((∃ r', Runs.run LogReader.step r (call :: rest) = some (r', result :: tail)) ↔
          ∃ r', Runs.run LogReader.step r₁ rest = some (r', tail)) := by
      intro r₁ called
      constructor
      · rintro ⟨r', ran⟩
        obtain ⟨r₂, _, _, again, later, same⟩ := Runs.run_cons_inv ran
        cases called.symm.trans again
        cases same
        exact ⟨r', later⟩
      · rintro ⟨r', ran⟩
        exact ⟨r', Runs.run_cons called ran⟩
    cases call with
    | nextEntry =>
      cases unread with
      | nil => cases stepped
      | cons entry others =>
        cases stepped
        cases ready with
        | false =>
          refine iff_of_false ?_ (by simp [asksFirst])
          rintro ⟨r', ran⟩
          obtain ⟨_, _, _, called, -, -⟩ := Runs.run_cons_inv ran
          simp [LogReader.step, stands.nextEntry_none (List.cons_ne_nil _ _)] at called
        | true =>
          obtain ⟨r₁, called, stands⟩ := stands.nextEntry
          rw [onwards r₁ (by simp [LogReader.step, called]), ih stands continued, asksFirst, Bool.true_and]
          rfl
    | hasNextEntry =>
      cases stepped
      rw [asksFirst]
      cases unread with
      | nil =>
        obtain ⟨r₁, called, spent⟩ := stands.hasNextEntry_end
        rw [onwards r₁ (by simp [LogReader.step, called]), spent.read_iff continued, asksAtEnd,
          and_iff_right (asksFirst_end continued)]
        omega
      | cons entry others =>
        obtain ⟨r₁, called, stands⟩ := stands.hasNextEntry_more (List.cons_ne_nil _ _)
        rw [onwards r₁ (by simp [LogReader.step, called])]
        exact ih stands continued

theorem stands_open {entries : List E} (uid : ℕ) (bound : entries.length ≤ logCapacity) :
    ∃ chunks r, LogReader.openForRead (LogWriter.write uid entries) = some r ∧
      Stands uid chunks r entries 0 true := by
  obtain ⟨full, last, chunked, few, stored, metaInfo, metaFile, same⟩ := stored_write uid entries bound
  obtain ⟨first, rest, whole⟩ : ∃ first rest, full ++ [last] = first :: rest :=
    List.exists_cons_of_ne_nil (by simp)
  have slice : (LogWriter.write uid entries).slices[1]? = some ⟨uid, 1, first⟩ := by
    rw [stored.2 0, whole]
    rfl
  have sized : ∀ k chunk, (full ++ [last])[k]? = some chunk → k + 1 < (full ++ [last]).length →
      chunk.length = logSliceSize := by
    intro k chunk found inner
    rw [List.length_append, List.length_singleton, Nat.add_lt_add_iff_right] at inner
    rw [List.getElem?_append_left inner] at found
    exact chunked.size chunk (List.mem_of_getElem? found)
  refine ⟨full ++ [last], ⟨LogWriter.write uid entries, ⟨uid, 1, first⟩, 0, !first.isEmpty⟩, ?_, stored,
    by simpa using few, ?_, ?_, sized, ⟨0, first, by simp [whole], rfl, ?_, ?_, Nat.zero_le _, rfl⟩, ?_⟩
  · simp [LogReader.openForRead, metaFile, slice, same]
  · intro k chunk found
    by_cases inner : k + 1 < full.length
    · have size := sized (k + 1) chunk found (by simpa using inner)
      exact List.ne_nil_of_length_pos (size.symm ▸ logSliceSize_pos)
    · have bounded := (List.getElem?_eq_some_iff.mp found).1
      simp only [List.length_append, List.length_singleton] at bounded
      have last' : k + 1 = full.length := by omega
      rw [List.getElem?_append_right (Nat.le_of_eq last'.symm)] at found
      simp only [last', Nat.sub_self, List.getElem?_cons_zero, Option.some.injEq] at found
      rw [← found]
      exact chunked.inhabited (List.ne_nil_of_length_pos (by omega))
  · intro chunk member
    rcases List.mem_append.mp member with inner | final
    · exact (chunked.size chunk inner).le
    · rw [List.mem_singleton.mp final]
      exact chunked.fits
  · rw [List.drop_zero, Nat.zero_add, whole, List.drop_one, List.tail_cons, ← List.flatten_cons, ← whole,
      List.flatten_append, List.flatten_singleton]
    exact chunked.whole
  · simp [List.length_pos_iff]
  · intro some
    cases first with
    | cons entry others => rfl
    | nil =>
      -- only the one slice of an empty log is empty
      cases rest with
      | nil =>
        rw [chunked.whole, ← List.flatten_concat, whole] at some
        exact absurd rfl some
      | cons second others =>
        have size := sized 0 [] (by rw [whole]; rfl) (by rw [whole]; simp)
        exact absurd size logSliceSize_pos.ne

end Read

/-- Reading a log gives back what was written, and `HasNextEntry` tells the truth,
exactly if the reader asks for every slice, and not again behind the end. -/
theorem readLog_iff {uid : ℕ} {entries : List E} (bound : entries.length ≤ logCapacity)
    {calls : List ReadCall} {results : List (ReadResult E)}
    (answered : specRead entries calls = some results) :
    readLog (LogWriter.write uid entries) calls = some results ↔
      asksFirst true 0 calls = true ∧ asksAtEnd entries calls ≤ 1 := by
  obtain ⟨chunks, r, opened, stands⟩ := stands_open uid bound
  obtain ⟨⟨last, _⟩, ran, rfl⟩ := Option.map_eq_some_iff.mp answered
  rw [← stands.read_iff ran]
  simp [readLog, opened, Option.bind_eq_some_iff]

/-- Ask before every entry and once behind the last one. -/
def readAll : ℕ → List ReadCall
  | 0 => [.hasNextEntry]
  | n + 1 => .hasNextEntry :: .nextEntry :: readAll n

theorem run_readAll (entries : List E) : Runs.run unreadStep entries (readAll entries.length) =
    some ([], (entries.flatMap fun entry => [.hasNext true, .entry entry]) ++ [.hasNext false]) := by
  induction entries with
  | nil => rfl
  | cons entry rest ih => exact Runs.run_cons rfl (Runs.run_cons rfl ih)

theorem specRead_readAll (entries : List E) : specRead entries (readAll entries.length) =
    some ((entries.flatMap fun entry => [.hasNext true, .entry entry]) ++ [.hasNext false]) := by
  rw [specRead, run_readAll, Option.map_some]

theorem asksFirst_readAll (ready : Bool) (taken n : ℕ) : asksFirst ready taken (readAll n) = true := by
  induction n generalizing ready taken with
  | zero => rfl
  | succ n ih => exact ih _ _

theorem asksAtEnd_readAll (entries : List E) : asksAtEnd entries (readAll entries.length) = 1 := by
  induction entries with
  | nil => rfl
  | cons entry rest ih => exact ih

/-- A log of two slices. -/
theorem readLog_iff_slices : ∃ results,
    specRead (List.replicate (logSliceSize + 1) 5) (readAll (logSliceSize + 1)) = some results ∧
    readLog (LogWriter.write 3 (List.replicate (logSliceSize + 1) 5)) (readAll (logSliceSize + 1)) =
      some results := by
  have answered := specRead_readAll (List.replicate (logSliceSize + 1) 5)
  have once := asksAtEnd_readAll (List.replicate (logSliceSize + 1) 5)
  rw [List.length_replicate] at answered once
  refine ⟨_, answered, (readLog_iff ?_ answered).mpr ⟨asksFirst_readAll _ _ _, once.le⟩⟩
  rw [List.length_replicate]
  unfold logCapacity logSliceSize sliceNos
  decide

/-- Asked again, the reader starts over with the first slice. -/
theorem readLog_starts_over :
    specRead [5] [.hasNextEntry, .nextEntry, .hasNextEntry, .hasNextEntry] =
      some [.hasNext true, .entry 5, .hasNext false, .hasNext false] ∧
    readLog (LogWriter.write 3 [5]) [.hasNextEntry, .nextEntry, .hasNextEntry, .hasNextEntry] =
      some [.hasNext true, .entry 5, .hasNext false, .hasNext true] := by
  decide +kernel

end Maple.Tracer
