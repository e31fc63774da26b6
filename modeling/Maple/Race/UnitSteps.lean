import Maple.Race.Genuine

/-! What one hook does to the metadata of one unit, for every detector class and
every hook: it is processed, freed, or left alone. -/
namespace Maple.Race

/-- Hooks that free memory. -/
def Hook.frees : Hook → Bool
  | .imageUnload .. | .beforeRealloc .. | .beforeFree .. => true
  | _ => false

section
variable {G M : Type} {alg : Algorithm G M} {d next : Detector G M} {e : Hook} {x : Address}
  {out : List DbCall}

/-- The metadata of a unit, before and after a hook. -/
inductive UnitStep (alg : Algorithm G M) (d : Detector G M) (e : Hook) (x : Address) (out : List DbCall) :
    M → M → Prop
  | kept {m : M} (idle : ∀ k curr inst addr size, e = RaceEventType.hook k curr inst addr size →
      Detector.monitored alg d.toDetectorBase curr addr = true → x ∉ unitsOf d.unitSize addr size) :
      UnitStep alg d e x out m m
  | freed {m : M} (frees : e.frees = true) : UnitStep alg d e x out m alg.newMeta
  | processed {m m' : M} {k : RaceEventType} {curr : ThreadId} {inst : InstId} {addr size : Address}
      {calls : List DbCall} (hook : e = k.hook curr inst addr size) (member : x ∈ unitsOf d.unitSize addr size)
      (looked : Detector.monitored alg d.toDetectorBase curr addr = true)
      (ran : alg.process k d.toDetectorBase curr x m inst = some (m', calls))
      (among : ∀ call ∈ calls, call ∈ out) : UnitStep alg d e x out m m'

theorem freeAddrRegion_unit (alg : Algorithm G M) (d : Detector G M) (addr x : Address) :
    (d.freeAddrRegion alg addr).1.metaTable[x]? = d.metaTable[x]? ∨
      (d.freeAddrRegion alg addr).1.metaTable[x]? = none := by
  unfold Detector.freeAddrRegion
  split
  · exact Or.inl rfl
  · simp only [(freeLoop_spec _ _ _).1]
    split
    · exact Or.inr rfl
    · exact Or.inl rfl

theorem Detector.access_unit {k : RaceEventType} {curr : ThreadId} {inst : InstId} {addr size : Address}
    (stepped : d.step alg (k.hook curr inst addr size) = some (next, out)) (x : Address) :
    UnitStep alg d (k.hook curr inst addr size) x out (d.metaTable[x]?.getD alg.newMeta)
      (next.metaTable[x]?.getD alg.newMeta) := by
  rw [step_hook, Detector.beforeMem] at stepped
  split at stepped
  · next looked =>
    simp only [Option.bind_eq_bind, Option.bind_eq_some_iff] at stepped
    obtain ⟨⟨table, outs⟩, looped, emitted⟩ := stepped
    cases Option.some.inj emitted
    obtain ⟨frame, processed⟩ := accessLoop_inv (unitsOf_nodup _ _ _) looped x
    by_cases member : x ∈ unitsOf d.unitSize addr size
    · obtain ⟨v, calls, ran, entry, among⟩ := processed member
      simp only [entry, Option.getD_some]
      exact .processed rfl member looked ran among
    · simp only [frame member]
      refine .kept fun l curr' inst' addr' size' same _ => ?_
      obtain ⟨_, _, _, rfl, rfl⟩ := RaceEventType.hook_inj same
      exact member
  · next ignored =>
    cases stepped
    refine .kept fun l curr' inst' addr' size' same looked => absurd looked ?_
    obtain ⟨_, rfl, _, rfl, _⟩ := RaceEventType.hook_inj same
    exact ignored

/-- One hook, at one unit. -/
theorem Detector.step_meta (stepped : d.step alg e = some (next, out)) (x : Address) :
    UnitStep alg d e x out (d.metaTable[x]?.getD alg.newMeta) (next.metaTable[x]?.getD alg.newMeta) := by
  have silent : (∀ (k : RaceEventType) curr inst addr size, e ≠ k.hook curr inst addr size) →
      d.silent (d.toDetectorBase.onHook alg e) = some (next, out) →
      UnitStep alg d e x out (d.metaTable[x]?.getD alg.newMeta) (next.metaTable[x]?.getD alg.newMeta) := by
    intro other ran
    rw [Detector.silent_metaTable ran]
    exact .kept fun k curr inst addr size same => absurd same (other k curr inst addr size)
  have freed : (∀ (k : RaceEventType) curr inst addr size, e ≠ k.hook curr inst addr size) → e.frees = true →
      next.metaTable[x]? = d.metaTable[x]? ∨ next.metaTable[x]? = none →
      UnitStep alg d e x out (d.metaTable[x]?.getD alg.newMeta) (next.metaTable[x]?.getD alg.newMeta) := by
    intro other frees either
    rcases either with same | gone
    · rw [same]
      exact .kept fun k curr inst addr size same => absurd same (other k curr inst addr size)
    · rw [gone]
      exact .freed frees
  cases e with
  | beforeMemRead curr inst addr size => exact Detector.access_unit (k := .read) stepped x
  | beforeMemWrite curr inst addr size => exact Detector.access_unit (k := .write) stepped x
  | beforeRealloc addr =>
    have last : (d.freeAddrRegion alg addr).1 = next := congrArg Prod.fst (Option.some.inj stepped)
    exact freed (fun k => by cases k <;> nofun) rfl (last ▸ freeAddrRegion_unit alg d addr x)
  | beforeFree addr =>
    have last : (d.freeAddrRegion alg addr).1 = next := congrArg Prod.fst (Option.some.inj stepped)
    exact freed (fun k => by cases k <;> nofun) rfl (last ▸ freeAddrRegion_unit alg d addr x)
  | imageUnload lowAddr dataStart bssStart =>
    obtain ⟨_, _, ran⟩ := Option.bind_eq_some_iff.mp stepped
    have last : ((d.freeAddrRegion alg dataStart).1.freeAddrRegion alg bssStart).1 = next :=
      congrArg Prod.fst (Option.some.inj ran)
    refine freed (fun k => by cases k <;> nofun) rfl (last ▸ ?_)
    rcases freeAddrRegion_unit alg (d.freeAddrRegion alg dataStart).1 bssStart x with same | gone
    · rw [same]
      exact freeAddrRegion_unit alg d dataStart x
    · exact Or.inr gone
  | _ => exact silent (fun k => by cases k <;> nofun) stepped

/-- The calls of a loop that finished are those of its rounds. -/
theorem accessLoop_calls {newMeta : M} {process : Address → M → Option (M × List DbCall)}
    {units : List Address} (distinct : units.Nodup) {table last : OrdMap Address M} {outs : List DbCall}
    (looped : accessLoop newMeta process units table = some (last, outs)) :
    ∀ call ∈ outs, ∃ x ∈ units, ∃ v calls, process x (table[x]?.getD newMeta) = some (v, calls) ∧ call ∈ calls := by
  induction units generalizing table outs with
  | nil =>
    cases looped
    exact fun call made => nomatch made
  | cons iaddr rest ih =>
    obtain ⟨absent, distinct⟩ := List.nodup_cons.mp distinct
    simp only [accessLoop, Option.bind_eq_bind, Option.bind_eq_some_iff] at looped
    obtain ⟨⟨changed, out⟩, ran, ⟨final, tail⟩, continued, emitted⟩ := looped
    cases Option.some.inj emitted
    intro call made
    rcases List.mem_append.mp made with made | made
    · exact ⟨iaddr, List.mem_cons_self, changed, out, ran, made⟩
    · obtain ⟨x, member, v, calls, ran', made⟩ := ih distinct continued call made
      have other : x ≠ iaddr := by
        rintro rfl
        exact absent member
      rw [getElem?_insert_address, if_neg (Ne.symm other)] at ran'
      exact ⟨x, List.mem_cons_of_mem _ member, v, calls, ran', made⟩

/-- The calls of an access hook come from the units it accesses. -/
theorem Detector.access_calls {k : RaceEventType} {curr : ThreadId} {inst : InstId} {addr size : Address}
    (stepped : d.step alg (k.hook curr inst addr size) = some (next, out)) : ∀ call ∈ out,
    Detector.monitored alg d.toDetectorBase curr addr = true ∧ ∃ x ∈ unitsOf d.unitSize addr size,
      ∃ v calls, alg.process k d.toDetectorBase curr x
      (d.metaTable[x]?.getD alg.newMeta) inst = some (v, calls) ∧ call ∈ calls := by
  rw [step_hook, Detector.beforeMem] at stepped
  split at stepped
  · next looked =>
    simp only [Option.bind_eq_bind, Option.bind_eq_some_iff] at stepped
    obtain ⟨⟨table, outs⟩, looped, emitted⟩ := stepped
    cases Option.some.inj emitted
    exact fun call made => ⟨looked, accessLoop_calls (unitsOf_nodup _ _ _) looped call made⟩
  · cases stepped
    exact fun call made => by cases made

theorem freeAddrRegion_calls (alg : Algorithm G M) (d : Detector G M) (addr : Address) :
    ∀ call ∈ (d.freeAddrRegion alg addr).2, ∃ b m, call ∈ alg.processFree b m := by
  unfold Detector.freeAddrRegion
  split
  · exact fun call made => nomatch made
  · intro call made
    obtain ⟨m, among⟩ := (freeLoop_spec _ _ _).2 call made
    exact ⟨_, m, among⟩

/-- Other hooks only make the calls of `ProcessFree`. -/
theorem Detector.other_calls (other : ∀ (k : RaceEventType) curr inst addr size, e ≠ k.hook curr inst addr size)
    (stepped : d.step alg e = some (next, out)) : ∀ call ∈ out, ∃ b m, call ∈ alg.processFree b m := by
  have silent : d.silent (d.toDetectorBase.onHook alg e) = some (next, out) →
      ∀ call ∈ out, ∃ b m, call ∈ alg.processFree b m := by
    intro ran call made
    obtain ⟨b, _, same⟩ := Option.map_eq_some_iff.mp ran
    cases same
    exact nomatch made
  cases e with
  | beforeMemRead curr inst addr size => exact absurd rfl (other .read curr inst addr size)
  | beforeMemWrite curr inst addr size => exact absurd rfl (other .write curr inst addr size)
  | beforeRealloc addr | beforeFree addr =>
    have last : (d.freeAddrRegion alg addr).2 = out := congrArg Prod.snd (Option.some.inj stepped)
    exact last ▸ freeAddrRegion_calls alg d addr
  | imageUnload lowAddr dataStart bssStart =>
    obtain ⟨_, _, ran⟩ := Option.bind_eq_some_iff.mp stepped
    have last : (d.freeAddrRegion alg dataStart).2 ++
        ((d.freeAddrRegion alg dataStart).1.freeAddrRegion alg bssStart).2 = out :=
      congrArg Prod.snd (Option.some.inj ran)
    intro call made
    rw [← last, List.mem_append] at made
    exact made.elim (freeAddrRegion_calls alg d dataStart call) (freeAddrRegion_calls alg _ bssStart call)
  | _ => exact silent stepped

end
end Maple.Race
