import Maple.Tracer.Log

/-! A log of more slices than there are slice numbers. Its last slices replace the first
ones, and behind the highest number the reader goes on with number 0 for ever. -/
namespace Maple.Tracer
variable {E : Type}

/-- The writer has put away `full` slices, some of them under numbers used before. -/
structure Counts (entries full : ℕ) (w : LogWriter E) : Prop where
  number : w.currSlice.sliceNo = (full + 1) % sliceNos
  count : logSliceSize * full + w.currSlice.entries.length = entries
  fits : w.currSlice.entries.length ≤ logSliceSize
  inhabited : 0 < full → w.currSlice.entries ≠ []
  files : ∀ k < full, ∃ slice, w.dir.slices[(k + 1) % sliceNos]? = some slice ∧ slice.entries ≠ []

section Write
variable {entries full : ℕ} {w : LogWriter E}

theorem counts_open (uid : ℕ) : Counts 0 0 (.openForWrite uid : LogWriter E) where
  number := (Nat.mod_eq_of_lt one_lt_sliceNos).symm
  count := by simp [LogWriter.openForWrite]
  fits := Nat.zero_le _
  inhabited := nofun
  files := nofun

theorem Counts.save (counts : Counts entries full w) (inhabited : w.currSlice.entries ≠ []) :
    ∀ k < full + 1, ∃ slice, w.saveSlice.slices[(k + 1) % sliceNos]? = some slice ∧ slice.entries ≠ [] := by
  intro k below
  rw [LogWriter.saveSlice, getElem?_insert_thread, counts.number]
  split
  · exact ⟨_, rfl, inhabited⟩
  · next other =>
    have earlier : k ≠ full := fun same => other (by rw [same])
    exact counts.files k (by omega)

theorem Counts.newEntry (counts : Counts entries full w) (entry : E) :
    ∃ full', Counts (entries + 1) full' (w.newEntry entry) := by
  have total := counts.count
  have fits := counts.fits
  unfold LogWriter.newEntry
  split
  · next switch =>
    have inhabited := List.ne_nil_of_length_pos (Nat.lt_of_lt_of_le logSliceSize_pos switch)
    refine ⟨full + 1, ?_, ?_, logSliceSize_pos, fun _ => by simp [LogWriter.addEntry], counts.save inhabited⟩
    · simp only [LogWriter.addEntry, LogWriter.switchSliceForWrite, nextSliceNo, counts.number, Nat.mod_add_mod]
    · simp only [LogWriter.addEntry, LogWriter.switchSliceForWrite, List.nil_append, List.length_singleton]
      rw [Nat.mul_succ]
      omega
  · next room =>
    refine ⟨full, counts.number, ?_, ?_, fun _ => by simp [LogWriter.addEntry], counts.files⟩
    · simp only [LogWriter.addEntry, List.length_append, List.length_singleton]
      omega
    · simp only [LogWriter.addEntry, List.length_append, List.length_singleton]
      omega

theorem counts_all (uid : ℕ) (entries : List E) :
    ∃ full, Counts entries.length full (entries.foldl LogWriter.newEntry (.openForWrite uid)) := by
  induction entries using List.reverseRecOn with
  | nil => exact ⟨0, counts_open uid⟩
  | append_singleton entries entry ih =>
    obtain ⟨full, counts⟩ := ih
    rw [List.foldl_append, List.length_append]
    exact counts.newEntry entry

/-- Every number has a slice to read from. -/
def Wrapped (dir : LogDir E) : Prop :=
  ∀ no < sliceNos, ∃ slice, dir.slices[no]? = some slice ∧ slice.entries ≠ []

theorem wrapped_write (uid : ℕ) {entries : List E} (many : logCapacity < entries.length) :
    Wrapped (LogWriter.write uid entries) := by
  obtain ⟨full, counts⟩ := counts_all uid entries
  have total := counts.count
  have fits := counts.fits
  have positive := one_lt_sliceNos
  have slices : sliceNos ≤ full + 1 := by
    have more : logSliceSize * (sliceNos - 1) < logSliceSize * (full + 1) := by
      rw [Nat.mul_succ]
      exact Nat.lt_of_lt_of_le many (by omega)
    have := Nat.lt_of_mul_lt_mul_left more
    omega
  have files := counts.save (counts.inhabited (by omega))
  intro no below
  cases no with
  | zero =>
    obtain ⟨slice, found, inhabited⟩ := files (sliceNos - 1) (by omega)
    rw [Nat.sub_add_cancel (by omega), Nat.mod_self] at found
    exact ⟨slice, found, inhabited⟩
  | succ no =>
    obtain ⟨slice, found, inhabited⟩ := files no (by omega)
    rw [Nat.mod_eq_of_lt below] at found
    exact ⟨slice, found, inhabited⟩

end Write

section Read
variable {r r' : LogReader E}

theorem nextSliceNo_lt (no : ℕ) : nextSliceNo no < sliceNos :=
  Nat.mod_lt _ (Nat.zero_lt_of_lt one_lt_sliceNos)

/-- There is always a next entry. -/
theorem Wrapped.hasNextEntry (wrapped : Wrapped r.dir) :
    ∃ r', r.hasNextEntry = some (r', true) ∧ r'.dir = r.dir := by
  cases flag : r.hasNext with
  | true => exact ⟨r, by simp [LogReader.hasNextEntry, flag], rfl⟩
  | false =>
    obtain ⟨slice, found, inhabited⟩ := wrapped _ (nextSliceNo_lt r.currSlice.sliceNo)
    refine ⟨{ r with currSlice := slice, entryCursor := 0, hasNext := true }, ?_, rfl⟩
    simp [LogReader.hasNextEntry, flag, LogReader.switchSliceForRead, found, inhabited]

theorem dir_nextEntry {entry : E} (taken : r.nextEntry = some (r', entry)) : r'.dir = r.dir := by
  unfold LogReader.nextEntry at taken
  split at taken
  · obtain ⟨entry', -, same⟩ := Option.bind_eq_some_iff.mp taken
    cases same
    rfl
  · exact nomatch taken

theorem dir_openForRead {dir : LogDir E} (opened : LogReader.openForRead dir = some r) : r.dir = dir := by
  obtain ⟨metaInfo, -, opened⟩ := Option.bind_eq_some_iff.mp opened
  obtain ⟨slice, -, opened⟩ := Option.bind_eq_some_iff.mp opened
  split at opened
  · cases opened
    rfl
  · exact nomatch opened

end Read
end Maple.Tracer
