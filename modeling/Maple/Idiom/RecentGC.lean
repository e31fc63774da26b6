import Maple.Idiom.RecentInfo

/-! Collecting the recent accesses that have left the window is invisible: a queue is ordered
by the clock of its thread, so that every search stops before the entries that were dropped. -/
namespace Maple.Idiom.ObserverNew

theorem timeDistance_le {start now later : ℕ} (past : start ≤ now) (grown : now ≤ later) :
    timeDistance start now ≤ timeDistance start later := by
  rw [timeDistance, timeDistance, if_pos past, if_pos (past.trans grown)]
  omega

/-! ### Searches -/

/-- Entries that have left the window, as seen from a clock. -/
def Outside (vw clk : ℕ) (entries : List Entry) : Prop := ∀ e ∈ entries, vw ≤ timeDistance e.acc.clk clk

section Searches
variable {c : Config} {curr : Acc} {currMeta clk uid : ℕ} {preds : List Acc} {succ : Succ} {dropped : List Entry}

theorem searchSingleVar_append (outside : Outside c.vw curr.clk dropped) (queue : List Entry) :
    searchSingleVar c curr currMeta preds (queue ++ dropped) = searchSingleVar c curr currMeta preds queue := by
  induction queue with
  | nil =>
    cases dropped with
    | nil => rfl
    | cons e rest => simp [searchSingleVar, outside e (by simp)]
  | cons prev rest ih => simp only [List.cons_append, searchSingleVar, ih]

theorem searchMetas_append (outside : Outside c.vw curr.clk dropped) (queue : List Entry) (visitedMeta : List ℕ) :
    searchMetas c curr currMeta preds visitedMeta (queue ++ dropped) =
      searchMetas c curr currMeta preds visitedMeta queue := by
  induction queue generalizing visitedMeta with
  | nil =>
    cases dropped with
    | nil => rfl
    | cons e rest => simp [searchMetas, outside e (by simp)]
  | cons prev rest ih => simp only [List.cons_append, searchMetas, ih]

theorem searchPrevs_append (outside : Outside c.vw curr.clk dropped) (queue : List Entry) :
    searchPrevs c curr currMeta preds (queue ++ dropped) = searchPrevs c curr currMeta preds queue := by
  rw [searchPrevs, searchPrevs, searchSingleVar_append outside, searchMetas_append outside]

theorem addSucc_append (outside : Outside c.vw clk dropped) (queue : List Entry) :
    addSucc c clk uid succ (queue ++ dropped) = addSucc c clk uid succ queue ++ dropped := by
  induction queue with
  | nil =>
    cases dropped with
    | nil => rfl
    | cons e rest => simp [addSucc, outside e (by simp)]
  | cons entry rest ih =>
    simp only [List.cons_append, addSucc, ih]
    split
    · rfl
    · split
      · rfl
      · rfl

/-- A new successor leaves the clocks of a queue alone. -/
theorem addSucc_clocks (queue : List Entry) :
    (addSucc c clk uid succ queue).map (·.acc.clk) = queue.map (·.acc.clk) := by
  induction queue with
  | nil => rfl
  | cons entry rest ih =>
    simp only [addSucc]
    split
    · rfl
    · split
      · rfl
      · simp only [List.map_cons, ih]

end Searches

/-! ### Queues -/

/-- The clocks of a queue fall from the last recorded one on. -/
def RecentInfo.Ordered (ri : RecentInfo) : Prop :=
  (ri.currThdClk :: ri.entryQueue.map (·.acc.clk)).Pairwise (· ≥ ·)

/-- A queue that has lost entries outside the window, beside one that keeps all. -/
structure Trimmed (vw : ℕ) (ri full : RecentInfo) : Prop where
  clk : ri.currThdClk = full.currThdClk
  split : ∃ dropped, full.entryQueue = ri.entryQueue ++ dropped ∧ Outside vw ri.currThdClk dropped
  ordered : full.Ordered

/-- A time at which the thread may act. -/
def RecentInfo.Before (ri : RecentInfo) (clk : ℕ) : Prop := ri.entryQueue = [] ∨ ri.currThdClk ≤ clk

section Queues
variable {c : Config} {ri full : RecentInfo} {curr : Acc} {clk currMeta : ℕ}

theorem RecentInfo.Ordered.past (ordered : ri.Ordered) {e : Entry} (member : e ∈ ri.entryQueue) :
    e.acc.clk ≤ ri.currThdClk :=
  (List.pairwise_cons.mp ordered).1 _ (List.mem_map_of_mem member)

theorem Trimmed.fresh (vw : ℕ) : Trimmed vw {} {} where
  clk := rfl
  split := ⟨[], rfl, fun _ member => nomatch member⟩
  ordered := List.pairwise_singleton _ _

/-- What has left the window of a thread stays outside. -/
theorem Trimmed.outside (trimmed : Trimmed c.vw ri full) (before : full.Before clk) :
    ∃ dropped, full.entryQueue = ri.entryQueue ++ dropped ∧ Outside c.vw clk dropped := by
  obtain ⟨dropped, split, outside⟩ := trimmed.split
  refine ⟨dropped, split, fun e member => ?_⟩
  have queued : e ∈ full.entryQueue := split ▸ List.mem_append_right _ member
  rcases before with empty | grown
  · exact absurd queued (by simp [empty])
  · have far := outside e member
    rw [trimmed.clk] at far
    exact far.trans (timeDistance_le (trimmed.ordered.past queued) grown)

theorem Trimmed.left_ordered (trimmed : Trimmed c.vw ri full) : ri.Ordered := by
  obtain ⟨dropped, split, -⟩ := trimmed.split
  have ordered := trimmed.ordered
  rw [RecentInfo.Ordered, split, List.map_append, ← List.cons_append, ← trimmed.clk] at ordered
  exact (List.pairwise_append.mp ordered).1

theorem Trimmed.trans {ri₀ : RecentInfo} (first : Trimmed c.vw ri₀ ri) (second : Trimmed c.vw ri full) :
    Trimmed c.vw ri₀ full := by
  obtain ⟨dropped, split, outside⟩ := first.split
  obtain ⟨dropped', split', outside'⟩ := second.split
  refine ⟨first.clk.trans second.clk, ⟨dropped ++ dropped', by rw [split', split, List.append_assoc], ?_⟩,
    second.ordered⟩
  rw [← first.clk] at outside'
  exact List.forall_mem_append.mpr ⟨outside, outside'⟩

theorem Trimmed.searchPrevs (trimmed : Trimmed c.vw ri full) (before : full.Before curr.clk) (preds : List Acc) :
    searchPrevs c curr currMeta preds full.entryQueue = searchPrevs c curr currMeta preds ri.entryQueue := by
  obtain ⟨dropped, split, outside⟩ := trimmed.outside before
  rw [split, searchPrevs_append outside]

theorem Trimmed.addSucc (trimmed : Trimmed c.vw ri full) (uid : ℕ) (succ : Succ) :
    Trimmed c.vw (ri.addSucc c uid succ) (full.addSucc c uid succ) := by
  obtain ⟨dropped, split, outside⟩ := trimmed.split
  refine ⟨trimmed.clk, ⟨dropped, ?_, outside⟩, ?_⟩
  · simp only [RecentInfo.addSucc, ← trimmed.clk, split]
    exact addSucc_append outside _
  · simp only [RecentInfo.Ordered, RecentInfo.addSucc, addSucc_clocks]
    exact trimmed.ordered

theorem RecentInfo.Before.addSucc (before : full.Before clk) (uid : ℕ) (succ : Succ) :
    (full.addSucc c uid succ).Before clk := by
  refine before.imp (fun empty => ?_) id
  simp only [RecentInfo.addSucc, empty, ObserverNew.addSucc]

theorem RecentInfo.Ordered.push (ordered : ri.Ordered) (before : ri.Before curr.clk) :
    (ri.push c none curr currMeta).Ordered := by
  have past : ∀ clk ∈ ri.entryQueue.map (·.acc.clk), curr.clk ≥ clk := by
    intro clk member
    obtain ⟨e, queued, rfl⟩ := List.mem_map.mp member
    rcases before with empty | grown
    · exact absurd queued (by simp [empty])
    · exact (ordered.past queued).trans grown
  refine List.pairwise_cons.mpr ⟨?_, List.pairwise_cons.mpr ⟨past, (List.pairwise_cons.mp ordered).2⟩⟩
  intro clk member
  rcases List.mem_cons.mp member with rfl | member
  · exact le_rfl
  · exact past clk member

/-- Behind the first entry outside the window there are only such entries. -/
theorem outside_dropWhile {vw : ℕ} {queue : List Entry} (sorted : (queue.map (·.acc.clk)).Pairwise (· ≥ ·))
    (past : ∀ e ∈ queue, e.acc.clk ≤ clk) :
    Outside vw clk (queue.dropWhile fun e => timeDistance e.acc.clk clk < vw) := by
  induction queue with
  | nil => exact fun _ member => nomatch member
  | cons first rest ih =>
    obtain ⟨below, sorted⟩ := List.pairwise_cons.mp sorted
    obtain ⟨first_past, rest_past⟩ := List.forall_mem_cons.mp past
    rw [List.dropWhile_cons]
    split
    · exact ih sorted rest_past
    · next far =>
      have far : vw ≤ timeDistance first.acc.clk clk := by simpa using far
      refine List.forall_mem_cons.mpr ⟨far, fun e member => far.trans ?_⟩
      have older : e.acc.clk ≤ first.acc.clk := below _ (List.mem_map_of_mem member)
      simp only [timeDistance, if_pos first_past, if_pos (rest_past e member)]
      omega

theorem RecentInfo.Ordered.gc (ordered : ri.Ordered) (threshold : ℕ) :
    Trimmed c.vw (ri.gc c ri.currThdClk threshold) ri := by
  rw [RecentInfo.gc]
  split
  · exact ⟨rfl, ⟨[], by simp, fun _ member => nomatch member⟩, ordered⟩
  · refine ⟨rfl, ⟨_, (List.takeWhile_append_dropWhile ..).symm, ?_⟩, ordered⟩
    exact outside_dropWhile (List.pairwise_cons.mp ordered).2 fun e member => ordered.past member

theorem Trimmed.push (trimmed : Trimmed c.vw ri full) (before : full.Before curr.clk) (limit : Option ℕ) :
    Trimmed c.vw (ri.push c limit curr currMeta) (full.push c none curr currMeta) := by
  have ordered : (full.push c none curr currMeta).Ordered := trimmed.ordered.push before
  have pushed : Trimmed c.vw (ri.push c none curr currMeta) (full.push c none curr currMeta) := by
    obtain ⟨dropped, split, outside⟩ := trimmed.outside before
    exact ⟨rfl, ⟨dropped, congrArg (_ :: ·) split, outside⟩, ordered⟩
  cases limit with
  | none => exact pushed
  | some threshold =>
    have collected := pushed.left_ordered.gc (c := c) threshold
    exact collected.trans pushed

end Queues

/-! ### States -/

/-- Two states that differ in the entries outside the windows only; `future` has the times at
which a thread still acts. -/
structure Hidden (vw : ℕ) (future : ThreadId → ℕ → Prop) (s full : State) : Prop where
  rest : full = { s with riTable := full.riTable }
  queues : ∀ t, Trimmed vw (s.recentInfo t) (full.recentInfo t)
  before : ∀ t clk, future t clk → (full.recentInfo t).Before clk

/-- Both states and outputs of a step. -/
abbrev HiddenStep (vw : ℕ) (future : ThreadId → ℕ → Prop) (r full : State × List ObservedCall) : Prop :=
  Hidden vw future r.1 full.1 ∧ r.2 = full.2

@[simp] theorem State.recentInfo_setRecentInfo (s : State) (t u : ThreadId) (ri : RecentInfo) :
    (s.setRecentInfo t ri).recentInfo u = if t = u then ri else s.recentInfo u := by
  rw [recentInfo, setRecentInfo, getElem?_insert_thread]
  split
  · rfl
  · rfl

section States
variable {c : Config} {future : ThreadId → ℕ → Prop} {s full : State} {curr : Acc} {currMeta : ℕ}

theorem Hidden.base (hidden : Hidden c.vw future s full) : full.toObserverBase = s.toObserverBase := by
  rw [hidden.rest]

theorem Hidden.currAccUid (hidden : Hidden c.vw future s full) : full.currAccUid = s.currAccUid := by
  rw [hidden.rest]

theorem Hidden.nextMeta (hidden : Hidden c.vw future s full) : full.nextMeta = s.nextMeta := by
  rw [hidden.rest]

theorem Hidden.setRecentInfo (hidden : Hidden c.vw future s full) {t : ThreadId} {ri ri' : RecentInfo}
    (trimmed : Trimmed c.vw ri ri') (before : ∀ clk, future t clk → ri'.Before clk) :
    Hidden c.vw future (s.setRecentInfo t ri) (full.setRecentInfo t ri') := by
  refine ⟨?_, fun u => ?_, fun u clk acts => ?_⟩
  · rw [hidden.rest]
    rfl
  · simp only [State.recentInfo_setRecentInfo]
    split
    · exact trimmed
    · exact hidden.queues u
  · rw [State.recentInfo_setRecentInfo]
    split
    · next same => exact before clk (same ▸ acts)
    · exact hidden.before u clk acts

theorem Hidden.addSuccs (hidden : Hidden c.vw future s full) (succ : Succ) (preds : List Acc) :
    Hidden c.vw future (s.addSuccs c succ preds) (full.addSuccs c succ preds) := by
  induction preds generalizing s full with
  | nil => exact hidden
  | cons pred rest ih =>
    refine ih (hidden.setRecentInfo ((hidden.queues pred.thdId).addSucc pred.uid succ) fun clk acts => ?_)
    exact (hidden.before pred.thdId clk acts).addSucc pred.uid succ

/-- Changes of other members. -/
theorem Hidden.congr (hidden : Hidden c.vw future s full) {s' full' : State} (table : s'.riTable = s.riTable)
    (full_table : full'.riTable = full.riTable) (rest : full' = { s' with riTable := full'.riTable }) :
    Hidden c.vw future s' full' := by
  refine ⟨rest, fun t => ?_, fun t clk acts => ?_⟩
  · rw [State.recentInfo, State.recentInfo, table, full_table]
    exact hidden.queues t
  · rw [State.recentInfo, full_table]
    exact hidden.before t clk acts

/-- The thread of an access acts now, and not earlier again. -/
structure Now (future : ThreadId → ℕ → Prop) (access : ObserverAccess) : Prop where
  acts : future access.thdId access.clk
  last : ∀ clk, future access.thdId clk → access.clk ≤ clk

theorem Hidden.push (hidden : Hidden c.vw future s full) (now : Now future curr.toObserverAccess) (limit : Option ℕ) :
    Hidden c.vw future
      (s.setRecentInfo curr.thdId ((s.recentInfo curr.thdId).push c limit curr currMeta))
      (full.setRecentInfo curr.thdId ((full.recentInfo curr.thdId).push c none curr currMeta)) :=
  hidden.setRecentInfo ((hidden.queues curr.thdId).push (hidden.before _ _ now.acts) limit)
    fun clk acts => Or.inr (now.last clk acts)

theorem Hidden.processRecentInfo (hidden : Hidden c.vw future s full) (now : Now future curr.toObserverAccess)
    (limit : Option ℕ) (preds : List Acc) :
    Option.Rel (HiddenStep c.vw future) (s.processRecentInfo c limit curr currMeta preds)
      (full.processRecentInfo c none curr currMeta preds) := by
  have db : full.irootDb = s.irootDb := by rw [hidden.rest]
  simp only [State.processRecentInfo]
  split
  · exact .some ⟨hidden.push now limit, rfl⟩
  · rw [(hidden.queues curr.thdId).searchPrevs (hidden.before _ _ now.acts) preds, db]
    cases (ObserverNew.searchPrevs c curr currMeta preds (s.recentInfo curr.thdId).entryQueue).run (s.irootDb, []) with
    | none => exact .none
    | some found =>
      obtain ⟨prevs, irootDb, observed⟩ := found
      have updated : Hidden c.vw future { s with irootDb } { full with irootDb } :=
        hidden.congr rfl rfl (by rw [hidden.rest])
      exact .some ⟨(updated.addSuccs ⟨curr, prevs⟩ preds).push now limit, by rw [hidden.base]⟩

theorem Hidden.processiRootEvent (hidden : Hidden c.vw future s full) {access : ObserverAccess}
    (now : Now future access) (limit : Option ℕ) (iaddr : Address) (m : AccMeta) :
    Option.Rel (HiddenStep c.vw future) (s.processiRootEvent c limit access iaddr m)
      (full.processiRootEvent c none access iaddr m) := by
  simp only [State.processiRootEvent, hidden.base, hidden.currAccUid, Option.bind_eq_bind]
  generalize updateiRoots c.ptrs s.shadow access _ s.irootDb = updated
  obtain ⟨irootDb, calls⟩ := updated
  have numbered : Hidden c.vw future { s with currAccUid := s.currAccUid + 1, irootDb }
      { full with currAccUid := s.currAccUid + 1, irootDb } := hidden.congr rfl rfl (by rw [hidden.rest])
  simp only [hidden.base] at numbered
  have stored : ∀ r r' : State × List ObservedCall, HiddenStep c.vw future r r' →
      HiddenStep c.vw future
        ({ r.1 with metaTable := r.1.metaTable.insert iaddr (updateMeta ⟨access, s.currAccUid + 1⟩ m) }, calls ++ r.2)
        ({ r'.1 with metaTable := r'.1.metaTable.insert iaddr (updateMeta ⟨access, s.currAccUid + 1⟩ m) },
          calls ++ r'.2) :=
    fun r r' same => ⟨same.1.congr rfl rfl (by rw [same.1.rest]), by rw [same.2]⟩
  split
  · have now : Now future (Acc.mk access (s.currAccUid + 1)).toObserverAccess := now
    exact Runs.rel_bind (numbered.processRecentInfo now limit _)
      fun r r' same => .some (stored r r' same)
  · exact .some (stored _ _ ⟨numbered, rfl⟩)

theorem Hidden.allocate (hidden : Hidden c.vw future s full) :
    Hidden c.vw future { s with nextMeta := s.nextMeta + 1 } { full with nextMeta := full.nextMeta + 1 } :=
  hidden.congr rfl rfl (by rw [hidden.rest])

theorem Hidden.getMemMeta (hidden : Hidden c.vw future s full) (iaddr : Address) :
    Hidden c.vw future (s.getMemMeta iaddr).1 (full.getMemMeta iaddr).1 ∧
      (s.getMemMeta iaddr).2 = (full.getMemMeta iaddr).2 := by
  have entry : full.metaTable[iaddr]? = s.metaTable[iaddr]? := by rw [hidden.base]
  rw [State.getMemMeta, State.getMemMeta, entry]
  cases s.metaTable[iaddr]? with
  | none => exact ⟨hidden.allocate, by rw [hidden.nextMeta]⟩
  | some m =>
    dsimp only
    cases m.type with
    | mem => exact ⟨hidden, rfl⟩
    | mutex => exact ⟨hidden, rfl⟩

theorem Hidden.getMutexMeta (hidden : Hidden c.vw future s full) (iaddr : Address) :
    Hidden c.vw future (s.getMutexMeta iaddr).1 (full.getMutexMeta iaddr).1 ∧
      (s.getMutexMeta iaddr).2 = (full.getMutexMeta iaddr).2 := by
  have entry : full.metaTable[iaddr]? = s.metaTable[iaddr]? := by rw [hidden.base]
  rw [State.getMutexMeta, State.getMutexMeta, entry]
  cases s.metaTable[iaddr]? with
  | none => exact ⟨hidden.allocate, by rw [hidden.nextMeta]⟩
  | some m =>
    dsimp only
    cases m.type with
    | mem => exact ⟨hidden.allocate, by rw [hidden.nextMeta]⟩
    | mutex => exact ⟨hidden, rfl⟩

theorem Hidden.onUnit (hidden : Hidden c.vw future s full) {access : ObserverAccess} (now : Now future access)
    (limit : Option ℕ) (iaddr : Address) :
    Option.Rel (HiddenStep c.vw future) (s.onUnit c limit access iaddr) (full.onUnit c none access iaddr) := by
  obtain ⟨found, same⟩ := hidden.getMemMeta iaddr
  rw [State.onUnit, State.onUnit]
  generalize s.getMemMeta iaddr = result, full.getMemMeta iaddr = result' at found same
  obtain ⟨state, m⟩ := result
  obtain ⟨state', m'⟩ := result'
  cases same
  cases m with
  | none => exact .some ⟨hidden, rfl⟩
  | some m => exact found.processiRootEvent now limit iaddr m

theorem Hidden.onUnits (hidden : Hidden c.vw future s full) {access : ObserverAccess} (now : Now future access)
    (limit : Option ℕ) (units : List Address) :
    Option.Rel (HiddenStep c.vw future) (State.onUnits c limit access units s)
      (State.onUnits c none access units full) := by
  induction units generalizing s full with
  | nil => exact .some ⟨hidden, rfl⟩
  | cons iaddr rest ih =>
    simp only [State.onUnits, Option.bind_eq_bind]
    exact Runs.rel_bind (hidden.onUnit now limit iaddr) fun r r' next => Runs.rel_bind (ih next.1) fun _ _ last =>
      .some ⟨last.1, by rw [next.2, last.2]⟩

theorem Hidden.beforeMem (hidden : Hidden c.vw future s full) {access : ObserverAccess} (now : Now future access)
    (limit : Option ℕ) (addr size : Address) :
    Option.Rel (HiddenStep c.vw future) (s.beforeMem c limit access addr size)
      (full.beforeMem c none access addr size) := by
  rw [State.beforeMem, State.beforeMem, hidden.base]
  split
  · exact .some ⟨hidden, rfl⟩
  · exact hidden.onUnits now limit _

theorem Hidden.onMutex (hidden : Hidden c.vw future s full) {access : ObserverAccess} (now : Now future access)
    (limit : Option ℕ) (addr : Address) :
    Option.Rel (HiddenStep c.vw future) (s.onMutex c limit access addr) (full.onMutex c none access addr) := by
  obtain ⟨found, same⟩ := hidden.getMutexMeta addr
  simp only [State.onMutex, hidden.base, ← same]
  cases assertIn c.debug (unitDownAlign addr s.unitSize = addr) with
  | none => exact .none
  | some _ => exact found.processiRootEvent now limit addr _

theorem Hidden.onRegions (hidden : Hidden c.vw future s full)
    (change : ObserverBase AccMeta → Option (ObserverBase AccMeta)) :
    Option.Rel (HiddenStep c.vw future) (s.onRegions (change s.toObserverBase))
      (full.onRegions (change full.toObserverBase)) := by
  rw [hidden.base, State.onRegions, State.onRegions]
  cases change s.toObserverBase with
  | none => exact .none
  | some next => exact .some ⟨hidden.congr rfl rfl (by rw [hidden.rest]), rfl⟩

end States

/-! ### Runs -/

/-- The thread that a hook makes an access for, and its clock. -/
def clockOf : ObserverHook → Option (ThreadId × ℕ)
  | .beforeMemRead curr clk .. | .beforeMemWrite curr clk ..
  | .afterPthreadMutexLock curr clk .. | .beforePthreadMutexUnlock curr clk ..
  | .beforePthreadCondWait curr clk .. | .afterPthreadCondWait curr clk ..
  | .beforePthreadCondTimedwait curr clk .. | .afterPthreadCondTimedwait curr clk .. => some (curr, clk)
  | _ => none

/-- The clock of a thread does not decrease. -/
def InOrder (e later : ObserverHook) : Prop :=
  ∀ now ∈ clockOf e, ∀ next ∈ clockOf later, now.1 = next.1 → now.2 ≤ next.2

instance : DecidableRel InOrder := fun e later =>
  inferInstanceAs (Decidable (∀ now ∈ clockOf e, ∀ next ∈ clockOf later, now.1 = next.1 → now.2 ≤ next.2))

/-- The times of the accesses to come. -/
def futureOf (tr : List ObserverHook) (t : ThreadId) (clk : ℕ) : Prop := ∃ e ∈ tr, clockOf e = some (t, clk)

theorem Now.head {e : ObserverHook} {rest : List ObserverHook} (sorted : (e :: rest).Pairwise InOrder)
    {access : ObserverAccess} (made : clockOf e = some (access.thdId, access.clk)) :
    Now (futureOf (e :: rest)) access := by
  refine ⟨⟨e, List.mem_cons_self, made⟩, ?_⟩
  rintro clk ⟨later, member, acts⟩
  rcases List.mem_cons.mp member with rfl | member
  · rw [made] at acts
    cases acts
    exact le_rfl
  · exact (List.pairwise_cons.mp sorted).1 later member _ made _ acts rfl

theorem Hidden.tail {vw : ℕ} {e : ObserverHook} {rest : List ObserverHook} {s full : State}
    (hidden : Hidden vw (futureOf (e :: rest)) s full) : Hidden vw (futureOf rest) s full where
  rest := hidden.rest
  queues := hidden.queues
  before t clk := by
    rintro ⟨later, member, acts⟩
    exact hidden.before t clk ⟨later, List.mem_cons_of_mem _ member, acts⟩

theorem Hidden.step {c : Config} {future : ThreadId → ℕ → Prop} {s full : State}
    (hidden : Hidden c.vw future s full) (limit : Option ℕ) {e : ObserverHook}
    (now : ∀ access : ObserverAccess, clockOf e = some (access.thdId, access.clk) → Now future access) :
    Option.Rel (HiddenStep c.vw future) (s.step c limit e) (full.step c none e) := by
  cases e with
  | imageLoad lowAddr highAddr dataStart dataSize bssStart bssSize =>
    exact hidden.onRegions (·.imageLoad c.debug lowAddr highAddr dataStart dataSize bssStart bssSize)
  | imageUnload lowAddr dataStart bssStart => exact hidden.onRegions (·.imageUnload c.debug lowAddr dataStart bssStart)
  | threadStart | threadExit => exact .some ⟨hidden, rfl⟩
  | beforeMemRead | beforeMemWrite => exact hidden.beforeMem (now _ rfl) limit _ _
  | afterPthreadMutexLock | afterPthreadCondWait | afterPthreadCondTimedwait
  | beforePthreadMutexUnlock | beforePthreadCondWait | beforePthreadCondTimedwait =>
    exact hidden.onMutex (now _ rfl) limit _
  | afterMalloc size addr | afterValloc size addr | afterRealloc size addr =>
    exact hidden.onRegions (·.allocAddrRegion c.debug addr size)
  | afterCalloc nmemb size addr => exact hidden.onRegions (·.allocAddrRegion c.debug addr (size * nmemb))
  | beforeRealloc addr | beforeFree addr => exact hidden.onRegions fun b => some (b.freeAddrRegion addr)

/-- The calls of `Observed` are those of the observer that collects nothing. -/
theorem recentInfoGC_invisible (c : Config) (threshold : ℕ) (unitSize : Address) (shadow : Bool) (irootDb : IRootDb)
    (tr : List ObserverHook) (ordered : tr.Pairwise InOrder) :
    observedCalls c (some threshold) unitSize shadow irootDb tr = observedCalls c none unitSize shadow irootDb tr := by
  let start : State := { unitSize, shadow, irootDb }
  have initial : Hidden c.vw (futureOf tr) start start := by
    have empty : ∀ t, start.recentInfo t = {} := fun t => by simp [start, State.recentInfo]
    refine ⟨rfl, fun t => ?_, fun t clk _ => ?_⟩
    · rw [empty]
      exact .fresh c.vw
    · rw [empty]
      exact Or.inl rfl
  refine Runs.outputs_eq (fun n s full => Hidden c.vw (futureOf (tr.drop n)) s full) tr
    (fun n s full e here hidden => ?_) start start initial
  obtain ⟨bound, rfl⟩ := List.getElem?_eq_some_iff.mp here
  rw [List.drop_eq_getElem_cons bound] at hidden
  have sorted := ordered.drop (i := n)
  rw [List.drop_eq_getElem_cons bound] at sorted
  exact Runs.rel_mono (hidden.step (some threshold) fun access made => .head sorted made)
    fun _ _ next => ⟨next.1.tail, next.2⟩

/-- A window of ten instructions: the second write of 20 by thread 1 drops its older entries. -/
def writesAcrossWindow : List ObserverHook :=
  [.afterMalloc 8 16, .beforeMemWrite 1 1 7 16 4, .beforeMemWrite 2 1 8 20 4, .beforeMemWrite 2 2 9 16 4,
    .beforeMemWrite 1 2 10 20 4, .beforeMemRead 2 3 8 20 4, .beforeMemWrite 2 4 9 16 4, .beforeMemWrite 1 3 7 16 4,
    .beforeMemWrite 1 20 11 20 4, .beforeMemWrite 2 5 9 20 4, .beforeMemWrite 1 22 11 20 4]

theorem recentInfoGC_invisible_acrossWindow :
    let c : Config :=
      { ptrs := ⟨fun inst => 64 * BitVec.ofNat 64 inst, fun place => 4096 + 32 * BitVec.ofNat 64 place⟩
        debug := true, complexIdioms := true, singleVarIdioms := false, vw := 10 }
    observedCalls c (some 2) 4 false {} writesAcrossWindow = observedCalls c none 4 false {} writesAcrossWindow ∧
      (observedCalls c (some 2) 4 false {} writesAcrossWindow).map (·.map (·.map (·.iroot.idiom))) =
        some [[], [], [], [.idiom1], [.idiom1, .idiom5, .idiom5], [.idiom1, .idiom2], [],
          [.idiom1, .idiom4, .idiom3], [.idiom1], [.idiom1, .idiom4, .idiom2], [.idiom1, .idiom2]] := by
  refine ⟨recentInfoGC_invisible _ 2 4 false {} writesAcrossWindow (by decide), ?_⟩
  decide +kernel

end Maple.Idiom.ObserverNew
