import Maple.Race.UnitSteps
import Maple.Pintool.MultiLockExact

/-! The instruction tables of MultiLock against its access sets. The tables are maps
under `operator<`, which identifies locksets of one size with equal hashes, while the
sets compare locksets as they are. -/
namespace Maple.Pintool
open Race

/-- An access of the run, made in the epoch of the record with its lockset. -/
def RecordedBy (start : Detector (OrdMap ThreadId Lockset) MultiLockMeta) (tr : List Hook) (n : ℕ) (x : Address)
    (k : RaceEventType) (t : ThreadId) (elp : Elp) (inst : InstId) : Prop :=
  ∃ i < n, ∃ d addr size currVc, Runs.At (Detector.step multiLock) start tr i d ∧
    tr[i]? = some (k.hook t inst addr size) ∧ x ∈ unitsOf d.unitSize addr size ∧
    d.currVcMap[t]? = some currVc ∧
    elp = (Epoch.make t (currVc.getClock t), MultiLock.locksetOf d.own t)

/-- Every record has an entry in the table of its kind, that of an access which made it. -/
def MultiLockMeta.Named (m : MultiLockMeta)
    (Source : RaceEventType → ThreadId → Elp → InstId → Prop) : Prop :=
  ∀ k t, ∀ elp ∈ m.els k t, ∃ inst, m.insts k (instKey elp) = some inst ∧ Source k t elp inst

/-- No record is eliminated, and `operator<` separates the new record from the others. -/
def MultiLockMeta.Separate (m : MultiLockMeta) (k : RaceEventType) (curr : ThreadId) (currVc : VectorClock)
    (currLs : Lockset) : Prop :=
  m.Spares k curr currVc currLs ∧ (m.skips curr currVc currLs k = false → ∀ kept ∈ m.els k curr,
    instKey kept = instKey (Epoch.make curr (currVc.getClock curr), currLs) → kept.2.isMatch currLs = true)

instance (m : MultiLockMeta) (k : RaceEventType) (curr : ThreadId) (currVc : VectorClock) (currLs : Lockset) :
    Decidable (m.Separate k curr currVc currLs) :=
  inferInstanceAs (Decidable (_ ∧ (_ → ∀ _ ∈ m.els k curr, _ → _)))

/-- An access that is looked at, at each of its units. -/
def SeparateAt (d : Detector (OrdMap ThreadId Lockset) MultiLockMeta) (k : RaceEventType) (curr : ThreadId)
    (addr size : Address) : Prop :=
  Detector.monitored multiLock d.toDetectorBase curr addr = true → ∀ x ∈ unitsOf d.unitSize addr size,
    ∀ currVc ∈ d.currVcMap[curr]?,
      (d.metaTable[x]?.getD {}).Separate k curr currVc (MultiLock.locksetOf d.own curr)

instance (d : Detector (OrdMap ThreadId Lockset) MultiLockMeta) (k : RaceEventType) (curr : ThreadId)
    (addr size : Address) : Decidable (SeparateAt d k curr addr size) :=
  -- the instance search would enumerate all addresses
  have : Decidable (∀ x ∈ unitsOf d.unitSize addr size, ∀ currVc ∈ d.currVcMap[curr]?,
      (d.metaTable[x]?.getD {}).Separate k curr currVc (MultiLock.locksetOf d.own curr)) :=
    List.decidableBAll _ _
  inferInstanceAs (Decidable (_ → _))

def SeparateSteps (d : Detector (OrdMap ThreadId Lockset) MultiLockMeta) : Hook → Prop
  | .beforeMemRead curr _ addr size => SeparateAt d .read curr addr size
  | .beforeMemWrite curr _ addr size => SeparateAt d .write curr addr size
  | _ => True

instance (d : Detector (OrdMap ThreadId Lockset) MultiLockMeta) (e : Hook) : Decidable (SeparateSteps d e) := by
  induction e using Hook.casesOn <;> simp only [SeparateSteps] <;> infer_instance

theorem SeparateSteps.access {d : Detector (OrdMap ThreadId Lockset) MultiLockMeta} {k : RaceEventType}
    {curr : ThreadId} {inst : InstId} {addr size : Address}
    (separate : SeparateSteps d (k.hook curr inst addr size)) : SeparateAt d k curr addr size := by
  cases k <;> exact separate

/-- The records of a unit and their entries: the keys of one thread's records differ. -/
structure TablesInv (m : MultiLockMeta) (Source : RaceEventType → ThreadId → Elp → InstId → Prop) : Prop where
  own : ∀ k t, ∀ elp ∈ m.els k t, elp.1.tid = t
  named : m.Named Source
  apart : ∀ k t, ∀ elp ∈ m.els k t, ∀ other ∈ m.els k t, instKey elp = instKey other → elp = other

section
variable {m m' : MultiLockMeta} {Source Source' : RaceEventType → ThreadId → Elp → InstId → Prop}
  {k l : RaceEventType} {curr t : ThreadId} {currVc : VectorClock} {currLs : Lockset} {inst : InstId} {elp : Elp}

theorem TablesInv.blank : TablesInv {} Source := by
  have none : ∀ k t, ∀ elp : Elp, elp ∉ MultiLockMeta.els {} k t := by
    intro k t elp
    cases k <;> simp [MultiLockMeta.els, MultiLockMeta.readerEls, MultiLockMeta.writerEls]
  exact ⟨fun k t elp member => absurd member (none k t elp), fun k t elp member => absurd member (none k t elp),
    fun k t elp member => absurd member (none k t elp)⟩

theorem TablesInv.mono (inv : TablesInv m Source)
    (implied : ∀ k t elp inst, Source k t elp inst → Source' k t elp inst) : TablesInv m Source' where
  own := inv.own
  named k t elp member := by
    obtain ⟨inst, found, source⟩ := inv.named k t elp member
    exact ⟨inst, found, implied k t elp inst source⟩
  apart := inv.apart

/-- A recorded access. -/
theorem TablesInv.record (inv : TablesInv m Source) (looked : m.skips curr currVc currLs l = false)
    (separate : m.Separate l curr currVc currLs)
    (source : Source l curr (Epoch.make curr (currVc.getClock curr), currLs) inst) :
    TablesInv (recordAs l curr m currVc currLs inst) Source := by
  have updated : Updated l curr currVc currLs inst m (recordAs l curr m currVc currLs inst) := recordAs_spec
  let new : Elp := (Epoch.make curr (currVc.getClock curr), currLs)
  have origin : ∀ k t, ∀ elp ∈ (recordAs l curr m currVc currLs inst).els k t, (k = l ∧ t = curr ∧ elp = new) ∨
      elp ∈ m.els k t := by
    intro k t elp member
    by_cases here : t = curr
    · subst here
      rcases (updated.els k elp).mp member with old | ⟨rfl, rfl⟩
      · exact Or.inr old
      · exact Or.inl ⟨rfl, rfl, rfl⟩
    · rw [updated.others k t here] at member
      exact Or.inr member
  have same_new : ∀ t, ∀ kept ∈ m.els l t, instKey kept = instKey new → kept = new := by
    intro t kept member same
    have epochs : kept.1 = new.1 := congrArg InstKey.epoch same
    obtain rfl : t = curr := (inv.own l t kept member).symm.trans (congrArg Epoch.tid epochs)
    exact Prod.ext epochs (Lockset.isMatch_iff.mp (separate.2 looked kept member same))
  refine ⟨fun k t elp member => ?_, fun k t elp member => ?_, fun k t elp member other member' same => ?_⟩
  · rcases origin k t elp member with ⟨_, rfl, rfl⟩ | old
    · rfl
    · exact inv.own k t elp old
  · by_cases fresh : k = l ∧ t = curr ∧ elp = new
    · obtain ⟨rfl, rfl, rfl⟩ := fresh
      exact ⟨inst, updated.named, source⟩
    · have old := (origin k t elp member).resolve_left fresh
      obtain ⟨inst', found, made⟩ := inv.named k t elp old
      refine ⟨inst', ?_, made⟩
      rw [updated.insts, if_neg, found]
      rintro ⟨rfl, same⟩
      obtain rfl := same_new t elp old same
      exact fresh ⟨rfl, (inv.own k t new old).symm, rfl⟩
  · rcases origin k t elp member with ⟨rfl, rfl, rfl⟩ | old
    · rcases origin k t other member' with ⟨_, _, rfl⟩ | old
      · rfl
      · exact (same_new t other old same.symm).symm
    · rcases origin k t other member' with ⟨rfl, rfl, rfl⟩ | old'
      · exact same_new t elp old same
      · exact inv.apart k t elp old other old' same

theorem checkEls_calls {table : InstMap} {report : ThreadId → InstId → RaceReport} {els : ElpSet} {raced : Bool}
    {calls : List DbCall} (ran : MultiLock.checkEls curr currVc currLs table report els = some (raced, calls)) :
    ∀ call ∈ calls, ∃ elp ∈ els, ∃ inst, table (instKey elp) = some inst ∧
      call = .createRace (report elp.1.tid inst) := by
  induction els generalizing raced calls with
  | nil =>
    cases ran
    exact fun call made => nomatch made
  | cons elp rest ih =>
    simp only [MultiLock.checkEls, Option.bind_eq_bind, Option.bind_eq_some_iff] at ran
    obtain ⟨⟨racedLater, later⟩, ranLater, ran⟩ := ran
    have among : ∀ call ∈ later, ∃ elp' ∈ elp :: rest, ∃ inst, table (instKey elp') = some inst ∧
        call = .createRace (report elp'.1.tid inst) := by
      intro call made
      obtain ⟨elp', member, found⟩ := ih ranLater call made
      exact ⟨elp', List.mem_cons_of_mem _ member, found⟩
    split at ran
    · split at ran
      · obtain ⟨inst, found, same⟩ := Option.bind_eq_some_iff.mp ran
        cases same
        exact List.forall_mem_cons.mpr ⟨⟨elp, List.mem_cons_self, inst, found, rfl⟩, among⟩
      · cases ran
        exact among
    · cases ran
      exact among

/-- The checks of an access against the records of the other threads: no table
assertion fails, and a report names the instruction of the record. -/
theorem TablesInv.check (inv : TablesInv m Source) (curr : ThreadId) (currVc : VectorClock) (currLs : Lockset)
    (k : RaceEventType) (report : ThreadId → InstId → RaceReport) :
    ∃ raced calls, MultiLock.checkEls curr currVc currLs (m.insts k) report
      (MultiLock.otherEls curr (m.elsMap k)) = some (raced, calls) ∧ ∀ call ∈ calls,
        ∃ t ≠ curr, ∃ elp ∈ m.els k t, ∃ inst, Source k t elp inst ∧ call = .createRace (report t inst) := by
  have member_iff : ∀ elp, elp ∈ MultiLock.otherEls curr (m.elsMap k) ↔ ∃ t ≠ curr, elp ∈ m.els k t := by
    intro elp
    rw [mem_otherEls]
    exact exists_congr fun t => and_congr_right fun _ => by rw [MultiLockMeta.els_eq]
  obtain ⟨raced, calls, ran, _⟩ := checkEls_spec curr currVc currLs (m.insts k) report
    (MultiLock.otherEls curr (m.elsMap k)) (by
      intro elp member
      obtain ⟨t, _, member⟩ := (member_iff elp).mp member
      obtain ⟨inst, found, _⟩ := inv.named k t elp member
      exact ⟨inst, found⟩)
  refine ⟨raced, calls, ran, fun call made => ?_⟩
  obtain ⟨elp, member, inst, found, rfl⟩ := checkEls_calls ran call made
  obtain ⟨t, other, member⟩ := (member_iff elp).mp member
  obtain ⟨inst', found', source⟩ := inv.named k t elp member
  cases found.symm.trans found'
  exact ⟨t, other, elp, member, inst, source, by rw [inv.own k t elp member]⟩

theorem TablesInv.congr (inv : TablesInv m Source) (insts : m'.insts = m.insts) (els : m'.els = m.els) :
    TablesInv m' Source := by
  refine ⟨?_, ?_, ?_⟩
  · rw [els]
    exact inv.own
  · intro k t elp member
    rw [els] at member
    rw [insts]
    exact inv.named k t elp member
  · rw [els]
    exact inv.apart

/-- Records of other threads stay as they are. -/
theorem recordAs_others (t : ThreadId) (other : t ≠ curr) (k : RaceEventType) :
    (recordAs l curr m currVc currLs inst).els k t = m.els k t := recordAs_spec.others k t other

variable {b : DetectorBase (OrdMap ThreadId Lockset)} {x : Address}

/-- One call of `ProcessRead` or `ProcessWrite`. -/
theorem TablesInv.process (inv : TablesInv m Source) (found : b.currVcMap[curr]? = some currVc)
    (separate : m.Separate k curr currVc (MultiLock.locksetOf b.own curr))
    (source : Source k curr (Epoch.make curr (currVc.getClock curr), MultiLock.locksetOf b.own curr) inst) :
    ∃ next calls, multiLock.process k b curr x m inst = some (next, calls) ∧ TablesInv next Source ∧
      ∀ call ∈ calls, ∃ r, call = .createRace r ∧ r.addr = x ∧ r.t0 ≠ curr ∧
        ∃ elp ∈ m.els r.p0 r.t0, Source r.p0 r.t0 elp r.i0 := by
  let currLs := MultiLock.locksetOf b.own curr
  cases looked : m.skips curr currVc currLs k with
  | true =>
    refine ⟨m, [], ?_, inv, fun call made => by cases made⟩
    cases k with
    | read =>
      have redundant : MultiLock.updateOnRead curr m currVc currLs inst = some (m, true) :=
        updateOn_redundant looked
      simp [Algorithm.process, multiLock, MultiLock.processRead, found, redundant, currLs]
    | write =>
      have redundant : MultiLock.updateOnWrite curr m currVc currLs inst = some (m, true) :=
        updateOn_redundant looked
      simp [Algorithm.process, multiLock, MultiLock.processWrite, found, redundant, currLs]
  | false =>
    have kept : TablesInv (recordAs k curr m currVc currLs inst) Source := inv.record looked separate source
    cases k with
    | read =>
      have recorded : MultiLock.updateOnRead curr m currVc currLs inst =
          some (recordAs .read curr m currVc currLs inst, false) := updateOn_recorded looked separate.1
      obtain ⟨raced, calls, ran, reports⟩ := kept.check curr currVc currLs .write
        (fun thdId writerInst => ⟨x, thdId, writerInst, .write, curr, inst, .read⟩)
      simp only [MultiLockMeta.insts, MultiLockMeta.elsMap] at ran
      let next := recordAs .read curr m currVc currLs inst
      refine ⟨{ next with
          racy := next.racy || raced
          raceInstSet := trackInst b.trackRacyInst next.raceInstSet inst }, calls,
        by simp [Algorithm.process, multiLock, MultiLock.processRead, found, recorded, ran, next, currLs],
        kept.congr rfl rfl, fun call made => ?_⟩
      obtain ⟨t, other, elp, member, inst', known, rfl⟩ := reports call made
      exact ⟨_, rfl, rfl, other, elp, by rwa [recordAs_others t other] at member, known⟩
    | write =>
      have recorded : MultiLock.updateOnWrite curr m currVc currLs inst =
          some (recordAs .write curr m currVc currLs inst, false) := updateOn_recorded looked separate.1
      obtain ⟨racedW, callsW, ranW, reportsW⟩ := kept.check curr currVc currLs .write
        (fun thdId writerInst => ⟨x, thdId, writerInst, .write, curr, inst, .write⟩)
      obtain ⟨racedR, callsR, ranR, reportsR⟩ := kept.check curr currVc currLs .read
        (fun thdId readerInst => ⟨x, thdId, readerInst, .read, curr, inst, .write⟩)
      simp only [MultiLockMeta.insts, MultiLockMeta.elsMap] at ranW ranR
      let next := recordAs .write curr m currVc currLs inst
      refine ⟨{ next with
          racy := next.racy || racedW || racedR
          raceInstSet := trackInst b.trackRacyInst next.raceInstSet inst }, callsW ++ callsR,
        by simp [Algorithm.process, multiLock, MultiLock.processWrite, found, recorded, ranW, ranR, next, currLs],
        kept.congr rfl rfl, fun call made => ?_⟩
      rcases List.mem_append.mp made with made | made
      · obtain ⟨t, other, elp, member, inst', known, rfl⟩ := reportsW call made
        exact ⟨_, rfl, rfl, other, elp, by rwa [recordAs_others t other] at member, known⟩
      · obtain ⟨t, other, elp, member, inst', known, rfl⟩ := reportsR call made
        exact ⟨_, rfl, rfl, other, elp, by rwa [recordAs_others t other] at member, known⟩

end

section Runs
variable {start d next : Detector (OrdMap ThreadId Lockset) MultiLockMeta} {tr : List Hook} {n : ℕ} {e : Hook}
  {out : List DbCall} {x : Address} {k : RaceEventType} {curr t : ThreadId} {inst : InstId} {addr size : Address}
  {elp : Elp}

theorem RecordedBy.later (recorded : RecordedBy start tr n x k t elp inst) :
    RecordedBy start tr (n + 1) x k t elp inst := by
  obtain ⟨i, bound, rest⟩ := recorded
  exact ⟨i, Nat.lt_succ_of_lt bound, rest⟩

/-- The tables at every unit. -/
def TablesAt (start : Detector (OrdMap ThreadId Lockset) MultiLockMeta) (tr : List Hook) (n : ℕ)
    (d : Detector (OrdMap ThreadId Lockset) MultiLockMeta) : Prop :=
  ∀ x : Address, TablesInv (d.metaTable[x]?.getD {}) (RecordedBy start tr n x)

theorem TablesAt.later (tables : TablesAt start tr n d) : TablesAt start tr (n + 1) d :=
  fun x => (tables x).mono fun _ _ _ _ recorded => recorded.later

theorem process_clockless {b : DetectorBase (OrdMap ThreadId Lockset)} {m : MultiLockMeta}
    (missing : b.currVcMap[curr]? = none) : multiLock.process k b curr x m inst = none := by
  cases k with
  | read => simp [Algorithm.process, multiLock, MultiLock.processRead, missing]
  | write => simp [Algorithm.process, multiLock, MultiLock.processWrite, missing]

theorem TablesAt.step (tables : TablesAt start tr n d) (reached : Runs.At (Detector.step multiLock) start tr n d)
    (here : tr[n]? = some e) (separate : SeparateSteps d e)
    (stepped : d.step multiLock e = some (next, out)) : TablesAt start tr (n + 1) next := by
  intro x
  have known := Detector.step_meta stepped x
  rw [show multiLock.newMeta = {} from rfl] at known
  generalize next.metaTable[x]?.getD {} = m at known
  cases known with
  | kept => exact tables.later x
  | freed => exact .blank
  | @processed _ k curr inst addr size calls hook member looked ran among =>
    subst hook
    cases found : d.currVcMap[curr]? with
    | none => exact nomatch (process_clockless found).symm.trans ran
    | some currVc =>
      obtain ⟨m', calls', ran', kept, _⟩ := (tables.later x).process (b := d.toDetectorBase) (x := x) found
        (separate.access looked x member currVc found)
        ⟨n, Nat.lt_succ_self n, d, addr, size, currVc, reached, here, member, found, rfl⟩
      cases ran.symm.trans ran'
      exact kept

/-- A record of another thread was there before the access at hand. -/
theorem RecordedBy.earlier (recorded : RecordedBy start tr (n + 1) x k t elp inst) {l : RaceEventType}
    {inst' : InstId} (here : tr[n]? = some (l.hook curr inst' addr size)) (other : t ≠ curr) :
    RecordedBy start tr n x k t elp inst := by
  obtain ⟨i, bound, d, addr', size', currVc, reached, there, rest⟩ := recorded
  refine ⟨i, Nat.lt_of_le_of_ne (Nat.le_of_lt_succ bound) ?_, d, addr', size', currVc, reached, there, rest⟩
  rintro rfl
  exact other (RaceEventType.hook_inj (Option.some.inj (there.symm.trans here))).2.1

/-- A hook in a state of the run: the tables name the accesses that made the records,
no check fails on an access, and a report names the access of its record. -/
structure ChecksPass (start : Detector (OrdMap ThreadId Lockset) MultiLockMeta) (tr : List Hook) (n : ℕ)
    (d : Detector (OrdMap ThreadId Lockset) MultiLockMeta) : Prop where
  named : ∀ x : Address, (d.metaTable[x]?.getD {}).Named (RecordedBy start tr n x)
  succeeds : ∀ k curr inst addr size, tr[n]? = some (RaceEventType.hook k curr inst addr size) →
    curr ∈ d.currVcMap → ∃ next out, d.step multiLock (k.hook curr inst addr size) = some (next, out)
  reports : ∀ e next out, tr[n]? = some e → d.step multiLock e = some (next, out) → ∀ r, .createRace r ∈ out →
    ∃ elp ∈ (d.metaTable[r.addr]?.getD {}).els r.p0 r.t0, RecordedBy start tr n r.addr r.p0 r.t0 elp r.i0

theorem processFree_silent (b : DetectorBase (OrdMap ThreadId Lockset)) (m : MultiLockMeta) (r : RaceReport) :
    .createRace r ∉ multiLock.processFree b m := by
  intro made
  simp only [multiLock, MultiLock.processFree, releaseInsts] at made
  split at made
  · obtain ⟨inst, _, impossible⟩ := List.mem_map.mp made
    cases impossible
  · cases made

theorem TablesAt.checksPass (tables : TablesAt start tr n d)
    (reached : Runs.At (Detector.step multiLock) start tr n d)
    (separate : ∀ e, tr[n]? = some e → SeparateSteps d e) : ChecksPass start tr n d := by
  have process : ∀ {k curr inst addr size}, tr[n]? = some (RaceEventType.hook k curr inst addr size) →
      Detector.monitored multiLock d.toDetectorBase curr addr = true → ∀ currVc, d.currVcMap[curr]? = some currVc →
      ∀ x ∈ unitsOf d.unitSize addr size, ∃ v calls,
        multiLock.process k d.toDetectorBase curr x (d.metaTable[x]?.getD {}) inst = some (v, calls) ∧
        ∀ call ∈ calls, ∃ r, call = .createRace r ∧ r.addr = x ∧ r.t0 ≠ curr ∧
          ∃ elp ∈ (d.metaTable[x]?.getD {}).els r.p0 r.t0, RecordedBy start tr (n + 1) x r.p0 r.t0 elp r.i0 := by
    intro k curr inst addr size here looked currVc found x member
    obtain ⟨v, calls, ran, _, reports⟩ := (tables.later x).process (b := d.toDetectorBase) (x := x) found
      ((separate _ here).access looked x member currVc found)
      ⟨n, Nat.lt_succ_self n, d, addr, size, currVc, reached, here, member, found, rfl⟩
    exact ⟨v, calls, ran, reports⟩
  refine ⟨fun x => (tables x).named, fun k curr inst addr size here started => ?_,
    fun e next out here stepped r made => ?_⟩
  · rw [step_hook, Detector.beforeMem]
    split
    · next looked =>
      obtain ⟨currVc, found⟩ : ∃ currVc, d.currVcMap[curr]? = some currVc :=
        ⟨_, Std.ExtTreeMap.getElem?_eq_some_getElem started⟩
      obtain ⟨table, outs, looped, _⟩ := accessLoop_exact multiLock.newMeta
        (fun iaddr accessed => multiLock.process k d.toDetectorBase curr iaddr accessed inst)
        (unitsOf d.unitSize addr size) (unitsOf_nodup _ _ _) d.metaTable fun x member => by
          obtain ⟨v, calls, ran, _⟩ := process here looked currVc found x member
          exact ⟨v, calls, ran⟩
      exact ⟨{ d with metaTable := table }, outs, by rw [looped]; rfl⟩
    · exact ⟨d, [], rfl⟩
  · by_cases access : ∃ (k : RaceEventType) (curr : _) (inst : _) (addr : _) (size : _), e = k.hook curr inst addr size
    · obtain ⟨k, curr, inst, addr, size, rfl⟩ := access
      obtain ⟨looked, x, member, v, calls, ran, made⟩ := Detector.access_calls stepped _ made
      cases found : d.currVcMap[curr]? with
      | none => cases (process_clockless found).symm.trans ran
      | some currVc =>
        obtain ⟨v', calls', ran', reports⟩ := process here looked currVc found x member
        cases ran.symm.trans ran'
        obtain ⟨r', same, rfl, other, elp, inside, recorded⟩ := reports _ made
        cases same
        exact ⟨elp, inside, recorded.earlier here other⟩
    · obtain ⟨b, m, freed⟩ := Detector.other_calls
        (fun k curr inst addr size same => access ⟨k, curr, inst, addr, size, same⟩) stepped _ made
      exact absurd freed (processFree_silent b m r)

theorem tablesAt (fresh : start.metaTable = ∅) (separate : ∀ n d e, Runs.At (Detector.step multiLock) start tr n d →
    tr[n]? = some e → SeparateSteps d e) (reached : Runs.At (Detector.step multiLock) start tr n d) :
    TablesAt start tr n d := by
  induction n generalizing d with
  | zero =>
    obtain rfl := reached.unique Runs.at_zero
    intro x
    rw [fresh, Std.ExtTreeMap.getElem?_empty]
    exact .blank
  | succ n ih =>
    cases here : tr[n]? with
    | none => exact (ih (reached.last here)).later
    | some e =>
      obtain ⟨before, out, at_n, stepped⟩ := reached.inv here
      exact (ih at_n).step at_n here (separate n before e at_n here) stepped

/-- The tables name the instructions of the recorded accesses in every state of a run
in which no access eliminates a record or shares its key with one. -/
theorem multiLock_tables_match {unitSize : Address} {trackRacyInst : Bool} {filter : RegionFilter} {tr : List Hook}
    (separate : Runs.Along (Detector.step multiLock) SeparateSteps
      (Pintool.start _ unitSize trackRacyInst filter ∅) tr) (n : ℕ)
    (d : Detector (OrdMap ThreadId Lockset) MultiLockMeta)
    (reached : Runs.At (Detector.step multiLock) (Pintool.start _ unitSize trackRacyInst filter ∅) tr n d) :
    ChecksPass (Pintool.start _ unitSize trackRacyInst filter ∅) tr n d := by
  have conditions : ∀ n d e, Runs.At (Detector.step multiLock) (Pintool.start _ unitSize trackRacyInst filter ∅) tr n d →
      tr[n]? = some e → SeparateSteps d e := by
    rintro n d e ⟨outs, ran⟩ here
    exact Runs.along_at separate ran here
  exact (tablesAt rfl conditions reached).checksPass reached fun e here => conditions n d e reached here

/-- Two writes of one epoch under two sets of mutexes, then a write of thread 2. -/
def twoLocksetsTrace (a b : Address) : List Hook :=
  [.threadStart 1 invalidThdId, .threadStart 2 1,
    .afterPthreadMutexLock 1 8, .afterPthreadMutexLock 1 24, .beforeMemWrite 1 7 64 4,
    .beforePthreadMutexUnlock 1 24, .beforePthreadMutexUnlock 1 8,
    .afterPthreadMutexLock 1 a, .afterPthreadMutexLock 1 b, .beforeMemWrite 1 9 64 4,
    .beforeMemWrite 2 13 64 4]

theorem multiLock_tables_match_twoLocksets : ∃ d,
    Runs.At (Detector.step multiLock) (Pintool.start _ 4 false (.addRegion {} 64 4) ∅) (twoLocksetsTrace 16 48) 10 d ∧
      ChecksPass (Pintool.start _ 4 false (.addRegion {} 64 4) ∅) (twoLocksetsTrace 16 48) 10 d := by
  have ran : (Runs.run (Detector.step multiLock) (Pintool.start _ 4 false (.addRegion {} 64 4) ∅)
      ((twoLocksetsTrace 16 48).take 10)).isSome = true := by decide +kernel
  obtain ⟨⟨d, outs⟩, ran⟩ := Option.isSome_iff_exists.mp ran
  exact ⟨d, ⟨outs, ran⟩, multiLock_tables_match (by decide +kernel) 10 d ⟨outs, ran⟩⟩

/-- Locksets {8, 24} and {16, 40} have one hash. The second write of the epoch takes the
entry of the first one, whose record stays, and the write of thread 2 is reported twice
with the second write's instruction. -/
theorem multiLock_tables_confuse : Conforms 4 (twoLocksetsTrace 16 40) ∧ UnlocksFree (twoLocksetsTrace 16 40) ∧
    (∃ d, Runs.At (Detector.step multiLock) (Pintool.start _ 4 false (.addRegion {} 64 4) ∅)
        (twoLocksetsTrace 16 40) 10 d ∧ ¬ (d.metaTable[(64 : Address)]?.getD {}).Named
          (RecordedBy (Pintool.start _ 4 false (.addRegion {} 64 4) ∅) (twoLocksetsTrace 16 40) 10 64)) ∧
    (Detector.run multiLock (Pintool.start _ 4 false (.addRegion {} 64 4) ∅) (twoLocksetsTrace 16 40)).map
      (fun result => result.2[10]?) =
        some (some [.createRace ⟨64, 1, 9, .write, 2, 13, .write⟩, .createRace ⟨64, 1, 9, .write, 2, 13, .write⟩]) := by
  let first := Pintool.start MultiLockMeta 4 false (.addRegion {} 64 4) (∅ : OrdMap ThreadId Lockset)
  have test : (Runs.run (Detector.step multiLock) first ((twoLocksetsTrace 16 40).take 10)).any (fun r =>
      ((r.1.metaTable[(64 : Address)]?.getD {}).els .write 1).any fun elp => elp.2.set.toList = [8, 24] &&
        (r.1.metaTable[(64 : Address)]?.getD {}).insts .write (instKey elp) = some 9) = true := by decide +kernel
  have before : (Runs.run (Detector.step multiLock) first ((twoLocksetsTrace 16 40).take 9)).all (fun r =>
      (MultiLock.locksetOf r.1.own 1).set.toList ≠ [8, 24]) = true := by decide +kernel
  obtain ⟨⟨d, outs⟩, ran, test⟩ := (Option.any_eq_true _ _).mp test
  obtain ⟨elp, member, test⟩ := List.any_eq_true.mp test
  simp only [Bool.and_eq_true, decide_eq_true_eq] at test
  refine ⟨by decide +kernel, by decide +kernel, ⟨d, ⟨outs, ran⟩, fun named => ?_⟩, by decide +kernel⟩
  obtain ⟨inst, found, i, bound, d', addr, size, vc, ⟨outs', ran'⟩, here, _, _, same⟩ := named .write 1 elp member
  cases found.symm.trans test.2
  have last : i = 9 := by
    interval_cases i <;> simp_all [twoLocksetsTrace, RaceEventType.hook]
  subst last
  have other := (Option.all_eq_true _ _).mp before _ ran'
  rw [decide_eq_true_eq] at other
  exact other (by rw [← test.1, same])

end Runs
end Maple.Pintool
