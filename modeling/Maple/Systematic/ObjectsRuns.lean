import Maple.Systematic.Objects

/-! The identifiers that the controller hands out are a renaming of names that depend on the
history of the run only, over any number of runs. -/
namespace Maple.Systematic.Objects
open Names (StaticInfo Program ThreadKey ObjectKey Key)

/-- Which thread an identifier of the program stands for. -/
inductive ThreadNamed (p : Program) : BitVec 32 → ThreadName → Prop
  | main {uid : BitVec 32} (named : p.named (.thread uid) = some (.thread none)) : ThreadNamed p uid .main
  | child {uid creator idx : BitVec 32} {parent : ThreadName}
      (named : p.named (.thread uid) = some (.thread (some (creator, idx)))) (own : ThreadNamed p creator parent) :
      ThreadNamed p uid (.child parent idx.toNat)

inductive BlockNamed (p : Program) : Region → BlockName → Prop
  | static (block : Maple.Region) (image : BitVec 32) : BlockNamed p (.sregion block image) (.static image)
  | dynamic (block : Maple.Region) {creator : BitVec 32} (inst idx : BitVec 32) {name : ThreadName}
      (own : ThreadNamed p creator name) :
      BlockNamed p (.dregion block creator inst idx) (.dynamic name inst idx.toNat)

/-- The key that `GetThread` looks up. -/
inductive ThreadKeyNamed (p : Program) : ThreadKey → ThreadName → Prop
  | main : ThreadKeyNamed p none .main
  | child {creator : BitVec 32} (idx : BitVec 32) {parent : ThreadName} (own : ThreadNamed p creator parent) :
      ThreadKeyNamed p (some (creator, idx)) (.child parent idx.toNat)

inductive ObjectKeyNamed (p : Program) : ObjectKey → ObjectName → Prop
  | static (image : BitVec 32) (offset : Address) : ObjectKeyNamed p (.static image offset) ⟨.static image, offset⟩
  | dynamic {creator : BitVec 32} (inst idx : BitVec 32) (offset : Address) {name : ThreadName}
      (own : ThreadNamed p creator name) :
      ObjectKeyNamed p (.dynamic creator inst idx offset) ⟨.dynamic name inst idx.toNat, offset⟩

/-- Which object an identifier of the program stands for. -/
def ObjectNamed (p : Program) (uid : BitVec 32) (name : ObjectName) : Prop :=
  ∃ key, p.named (.object uid) = some (.object key) ∧ ObjectKeyNamed p key name

section Names
variable {sinfo : StaticInfo} {p next : Program} {uid uid' : BitVec 32}

theorem ThreadNamed.mono {name : ThreadName} (own : ThreadNamed p uid name) (kept : p.Kept next) :
    ThreadNamed next uid name := by
  induction own with
  | main named => exact .main (kept _ _ named)
  | child named _ ih => exact .child (kept _ _ named) ih

theorem threadNamed_iff {name : ThreadName} :
    ThreadNamed p uid name ↔ ∃ key, p.named (.thread uid) = some (.thread key) ∧ ThreadKeyNamed p key name := by
  constructor
  · intro own
    cases own with
    | main named => exact ⟨none, named, .main⟩
    | child named own => exact ⟨_, named, .child _ own⟩
  · rintro ⟨key, named, own⟩
    cases own with
    | main => exact .main named
    | child idx own => exact .child named own

theorem ThreadNamed.unique {name name' : ThreadName} (own : ThreadNamed p uid name)
    (other : ThreadNamed p uid name') : name = name' := by
  induction own generalizing name' with
  | main named =>
    cases other with
    | main => rfl
    | child named' => simp [named] at named'
  | child named _ ih =>
    cases other with
    | main named' => simp [named] at named'
    | child named' own' =>
      rw [named, Option.some.injEq, Key.thread.injEq, Option.some.injEq, Prod.mk.injEq] at named'
      obtain ⟨rfl, rfl⟩ := named'
      rw [ih own']

theorem ThreadNamed.inj (inv : p.Inv sinfo) {name : ThreadName} (own : ThreadNamed p uid name)
    (other : ThreadNamed p uid' name) : uid = uid' := by
  induction own generalizing uid' with
  | main named =>
    cases other with
    | main named' => exact Names.Uid.thread.inj (inv.named_unique named named')
  | @child uid creator idx parent named _ ih =>
    generalize same : idx.toNat = n at other
    cases other with
    | child named' own' =>
      have indices := BitVec.eq_of_toNat_eq same
      rw [indices, ih own'] at named
      exact Names.Uid.thread.inj (inv.named_unique named named')

theorem ThreadKeyNamed.inj (inv : p.Inv sinfo) {key key' : ThreadKey} {name : ThreadName}
    (own : ThreadKeyNamed p key name) (other : ThreadKeyNamed p key' name) : key = key' := by
  cases own with
  | main =>
    cases other with
    | main => rfl
  | child idx own =>
    generalize same : idx.toNat = n at other
    cases other with
    | child idx' own' => rw [BitVec.eq_of_toNat_eq same, own.inj inv own']

theorem ThreadKeyNamed.mono {key : ThreadKey} {name : ThreadName} (own : ThreadKeyNamed p key name)
    (kept : p.Kept next) : ThreadKeyNamed next key name := by
  cases own with
  | main => exact .main
  | child idx own => exact .child idx (own.mono kept)

theorem ObjectKeyNamed.mono {key : ObjectKey} {name : ObjectName} (own : ObjectKeyNamed p key name)
    (kept : p.Kept next) : ObjectKeyNamed next key name := by
  cases own with
  | static image offset => exact .static image offset
  | dynamic inst idx offset own => exact .dynamic inst idx offset (own.mono kept)

theorem BlockNamed.mono {region : Region} {name : BlockName} (own : BlockNamed p region name)
    (kept : p.Kept next) : BlockNamed next region name := by
  cases own with
  | static block image => exact .static block image
  | dynamic block inst idx own => exact .dynamic block inst idx (own.mono kept)

theorem ObjectKeyNamed.unique {key : ObjectKey} {name name' : ObjectName} (own : ObjectKeyNamed p key name)
    (other : ObjectKeyNamed p key name') : name = name' := by
  cases own with
  | static image offset =>
    cases other with
    | static => rfl
  | dynamic inst idx offset own =>
    cases other with
    | dynamic _ _ _ own' => rw [own.unique own']

theorem ObjectKeyNamed.inj (inv : p.Inv sinfo) {key key' : ObjectKey} {name : ObjectName}
    (own : ObjectKeyNamed p key name) (other : ObjectKeyNamed p key' name) : key = key' := by
  cases own with
  | static image offset =>
    cases other with
    | static => rfl
  | dynamic inst idx offset own =>
    generalize same : idx.toNat = n at other
    cases other with
    | dynamic _ idx' _ own' => rw [BitVec.eq_of_toNat_eq same, own.inj inv own']

theorem ObjectNamed.mono {name : ObjectName} (own : ObjectNamed p uid name) (kept : p.Kept next) :
    ObjectNamed next uid name := by
  obtain ⟨key, named, own⟩ := own
  exact ⟨key, kept _ _ named, own.mono kept⟩

theorem ObjectNamed.unique {name name' : ObjectName} (own : ObjectNamed p uid name)
    (other : ObjectNamed p uid name') : name = name' := by
  obtain ⟨key, named, own⟩ := own
  obtain ⟨key', named', other⟩ := other
  cases named.symm.trans named'
  exact own.unique other

theorem ObjectNamed.inj (inv : p.Inv sinfo) {name : ObjectName} (own : ObjectNamed p uid name)
    (other : ObjectNamed p uid' name) : uid = uid' := by
  obtain ⟨key, named, own⟩ := own
  obtain ⟨key', named', other⟩ := other
  cases own.inj inv other
  exact Names.Uid.object.inj (inv.named_unique named named')

/-- Everything in the program has a name from these sets. -/
structure Listed (threads : Finset ThreadName) (objects : Finset ObjectName) (p : Program) : Prop where
  thread : ∀ uid key, p.named (.thread uid) = some (.thread key) → ∃ name ∈ threads, ThreadKeyNamed p key name
  object : ∀ uid key, p.named (.object uid) = some (.object key) → ∃ name ∈ objects, ObjectKeyNamed p key name

def threadKeysOf (p : Program) : Finset ThreadKey := (p.threads.byId.toList.map fun entry => entry.2.key).toFinset
def objectKeysOf (p : Program) : Finset ObjectKey := (p.objects.byId.toList.map fun entry => entry.2.key).toFinset

theorem mem_threadKeysOf {key : ThreadKey} :
    key ∈ threadKeysOf p ↔ ∃ uid, p.named (.thread uid) = some (.thread key) := by
  simp only [threadKeysOf, List.mem_toFinset, List.mem_map, Prod.exists,
    Std.ExtTreeMap.mem_toList_iff_getElem?_eq_some, Program.named, Program.findThread, Option.map_eq_some_iff,
    Key.thread.injEq]

theorem mem_objectKeysOf {key : ObjectKey} :
    key ∈ objectKeysOf p ↔ ∃ uid, p.named (.object uid) = some (.object key) := by
  simp only [objectKeysOf, List.mem_toFinset, List.mem_map, Prod.exists,
    Std.ExtTreeMap.mem_toList_iff_getElem?_eq_some, Program.named, Program.findObject, Option.map_eq_some_iff,
    Key.object.injEq]

theorem among_keysOf (p : Program) : p.Among (threadKeysOf p) (objectKeysOf p) where
  threads i thd found := mem_threadKeysOf.mpr ⟨i, Option.map_eq_some_iff.mpr ⟨thd, found, rfl⟩⟩
  objects i obj found := mem_objectKeysOf.mpr ⟨i, Option.map_eq_some_iff.mpr ⟨obj, found, rfl⟩⟩

variable {threads : Finset ThreadName} {objects : Finset ObjectName}

/-- Keys with a name from a set are no more than the set. -/
theorem card_keys {K N : Type} {known : Finset K} {names : Finset N} (KeyNamed : K → N → Prop)
    (inj : ∀ key key' name, KeyNamed key name → KeyNamed key' name → key = key')
    (named : ∀ key ∈ known, ∃ name ∈ names, KeyNamed key name) : known.card ≤ names.card := by
  apply Finset.card_le_card_of_forall_subsingleton KeyNamed named
  rintro name _ key ⟨_, own⟩ key' ⟨_, own'⟩
  exact inj key key' name own own'

theorem Listed.thread_call (listed : Listed threads objects p) (inv : p.Inv sinfo) (few : threads.card ≤ 2 ^ 32)
    {key : ThreadKey} {name : ThreadName} (own : ThreadKeyNamed p key name) (member : name ∈ threads) :
    let got := Names.Interned p.threads key
    let next : Program := { p with threads := got.1 }
    next.Inv sinfo ∧ p.Kept next ∧ Listed threads objects next ∧ ThreadNamed next got.2.uid name := by
  intro got next
  have creators : ∀ creator creatorIdx, key = some (creator, creatorIdx) → creator ∈ p.threads.byId := by
    rintro creator idx rfl
    cases own with
    | child _ own =>
      obtain ⟨_, named, _⟩ := threadNamed_iff.mp own
      obtain ⟨thd, found, _⟩ := Option.map_eq_some_iff.mp named
      exact Std.ExtTreeMap.mem_iff_isSome_getElem?.mpr (by rw [Program.findThread] at found; simp [found])
  have among : p.Among (insert key (threadKeysOf p)) (objectKeysOf p) :=
    ⟨fun i thd found => Finset.mem_insert_of_mem ((among_keysOf p).threads i thd found), (among_keysOf p).objects⟩
  have room : (insert key (threadKeysOf p)).card ≤ 2 ^ 32 := by
    refine (card_keys (ThreadKeyNamed p) (fun _ _ _ => ThreadKeyNamed.inj inv) fun key' present => ?_).trans few
    rcases Finset.mem_insert.mp present with rfl | present
    · exact ⟨name, member, own⟩
    · obtain ⟨uid, named⟩ := mem_threadKeysOf.mp present
      exact listed.thread uid key' named
  have called := inv.call_thread among creators (Finset.mem_insert_self ..) room
  refine ⟨called.inv, called.kept, ⟨fun uid key' named => ?_, fun uid key' named => ?_⟩,
    threadNamed_iff.mpr ⟨key, called.named, own.mono called.kept⟩⟩
  · obtain ⟨thd, found, same⟩ := Option.map_eq_some_iff.mp named
    cases same
    rcases Finset.mem_insert.mp (called.among.threads uid thd found) with same | present
    · rw [same]
      exact ⟨name, member, own.mono called.kept⟩
    · obtain ⟨uid', named'⟩ := mem_threadKeysOf.mp present
      obtain ⟨name', member', own'⟩ := listed.thread uid' _ named'
      exact ⟨name', member', own'.mono called.kept⟩
  · obtain ⟨name', member', own'⟩ := listed.object uid key' named
    exact ⟨name', member', own'.mono called.kept⟩

theorem Listed.object_call (listed : Listed threads objects p) (inv : p.Inv sinfo) (few : objects.card ≤ 2 ^ 32)
    {key : ObjectKey} {name : ObjectName} (own : ObjectKeyNamed p key name) (member : name ∈ objects)
    (make : BitVec 32 → Names.Object) (ids : ∀ uid, (make uid).uid = uid) (made : ∀ uid, (make uid).key = key)
    (known : ∀ uid, (make uid).Known sinfo p.threads) :
    let got := p.objects.get (Names.Object.hash key) (fun obj => obj.key = key) make
    let next : Program := { p with objects := got.1 }
    next.Inv sinfo ∧ p.Kept next ∧ Listed threads objects next ∧ ObjectNamed next got.2.uid name := by
  intro got next
  have among : p.Among (threadKeysOf p) (insert key (objectKeysOf p)) :=
    ⟨(among_keysOf p).threads, fun i obj found => Finset.mem_insert_of_mem ((among_keysOf p).objects i obj found)⟩
  have room : (insert key (objectKeysOf p)).card ≤ 2 ^ 32 := by
    refine (card_keys (ObjectKeyNamed p) (fun _ _ _ => ObjectKeyNamed.inj inv) fun key' present => ?_).trans few
    rcases Finset.mem_insert.mp present with rfl | present
    · exact ⟨name, member, own⟩
    · obtain ⟨uid, named⟩ := mem_objectKeysOf.mp present
      exact listed.object uid key' named
  have called := inv.call_object among make ids made known (Finset.mem_insert_self ..) room
  refine ⟨called.inv, called.kept, ⟨fun uid key' named => ?_, fun uid key' named => ?_⟩,
    ⟨key, called.named, own.mono called.kept⟩⟩
  · obtain ⟨name', member', own'⟩ := listed.thread uid key' named
    exact ⟨name', member', own'.mono called.kept⟩
  · obtain ⟨obj, found, same⟩ := Option.map_eq_some_iff.mp named
    cases same
    rcases Finset.mem_insert.mp (called.among.objects uid obj found) with same | present
    · rw [same]
      exact ⟨name, member, own.mono called.kept⟩
    · obtain ⟨uid', named'⟩ := mem_objectKeysOf.mp present
      obtain ⟨name', member', own'⟩ := listed.object uid' _ named'
      exact ⟨name', member', own'.mono called.kept⟩

end Names

section Counters
variable (thd : ThreadId) (inst : BitVec 32)

theorem isMatch_iff {thd : ThreadId} {inst : BitVec 32} {info : CreationInfo} :
    info.isMatch thd inst = true ↔ info.creatorThdId = thd ∧ info.creatorInst = inst := by
  simp [CreationInfo.isMatch]

theorem nextCreatorIdx_spec (vec : List CreationInfo) :
    (nextCreatorIdx thd inst vec).2 = currIdx thd inst vec + 1 ∧
      ∀ t i, currIdx t i (nextCreatorIdx thd inst vec).1 =
        if t = thd ∧ i = inst then currIdx t i vec + 1 else currIdx t i vec := by
  induction vec with
  | nil =>
    refine ⟨by simp [nextCreatorIdx, currIdx], fun t i => ?_⟩
    by_cases same : t = thd ∧ i = inst
    · obtain ⟨rfl, rfl⟩ := same
      simp [nextCreatorIdx, currIdx, CreationInfo.isMatch]
    · have other : ¬ (thd = t ∧ inst = i) := by
        rintro ⟨rfl, rfl⟩
        exact same ⟨rfl, rfl⟩
      simp [nextCreatorIdx, currIdx, CreationInfo.isMatch, same, other]
  | cons info vec ih =>
    by_cases found : info.isMatch thd inst = true
    · simp only [nextCreatorIdx, found, if_true]
      obtain ⟨rfl, rfl⟩ := isMatch_iff.mp found
      refine ⟨by simp [currIdx, found], fun t i => ?_⟩
      by_cases same : t = info.creatorThdId ∧ i = info.creatorInst
      · obtain ⟨rfl, rfl⟩ := same
        simp [currIdx, CreationInfo.isMatch]
      · have other : ¬ (info.creatorThdId = t ∧ info.creatorInst = i) := by
          rintro ⟨rfl, rfl⟩
          exact same ⟨rfl, rfl⟩
        simp [currIdx, CreationInfo.isMatch, same, other]
    · simp only [nextCreatorIdx, found, Bool.false_eq_true, if_false]
      refine ⟨by simpa [currIdx, found] using ih.1, fun t i => ?_⟩
      have rest := ih.2 t i
      by_cases here : info.isMatch t i = true
      · obtain ⟨rfl, rfl⟩ := isMatch_iff.mp here
        have other : ¬ (info.creatorThdId = thd ∧ info.creatorInst = inst) := fun same => found (isMatch_iff.mpr same)
        simp [currIdx, here, other]
      · simpa [currIdx, here] using rest

theorem getCreatorIdx_spec (c : Naming) :
    (c.getCreatorIdx thd inst).2 = c.creatorCount thd inst + 1 ∧
      ∀ t i, (c.getCreatorIdx thd inst).1.creatorCount t i =
        if t = thd ∧ i = inst then c.creatorCount t i + 1 else c.creatorCount t i := by
  obtain ⟨own, others⟩ := nextCreatorIdx_spec thd inst (c.creationInfo[CreationInfo.hash thd inst]?.getD [])
  refine ⟨own, fun t i => ?_⟩
  simp only [Naming.creatorCount, Naming.getCreatorIdx, getElem?_insert_address]
  split
  · next same => rw [← same, Option.getD_some, others]
  · next other =>
    rw [if_neg]
    rintro ⟨rfl, rfl⟩
    exact other rfl

end Counters

/-- Regions are of known images and of known instructions. -/
def Region.Known (sinfo : StaticInfo) : Region → Prop
  | sregion _ image => sinfo.findImage image = true
  | dregion _ _ inst _ => sinfo.findInst inst = true

/-- The table of regions against the blocks that are there. A block of the null pointer is in
the table when the allocator has failed. -/
structure RegionsOk (sinfo : StaticInfo) (p : Program) (live : List (Maple.Region × BlockName))
    (table : OrdMap Address Region) : Prop where
  keys : ∀ (a : Address) r, table[a]? = some r → r.block.addr = a
  ends : ∀ (a : Address) r, table[a]? = some r → a ≠ 0 → a.toNat + r.block.size.toNat < 2 ^ 64
  apart : ∀ (a b : Address) r s, table[a]? = some r → table[b]? = some s → a ≠ 0 → b ≠ 0 → a ≠ b →
    r.block.Disjoint s.block
  named : ∀ (a : Address) r, table[a]? = some r → a ≠ 0 → ∃ name, BlockNamed p r name ∧ (r.block, name) ∈ live
  live : ∀ b name, (b, name) ∈ live → b.addr ≠ 0 ∧ ∃ r, table[b.addr]? = some r ∧ r.block = b ∧ BlockNamed p r name
  known : ∀ (a : Address) r, table[a]? = some r → r.Known sinfo

namespace RegionsOk
variable {sinfo : StaticInfo} {p next : Program} {live : List (Maple.Region × BlockName)}
  {table : OrdMap Address Region} {a iaddr start size : Address} {r : Region}

theorem empty (p : Program) : RegionsOk sinfo p [] {} where
  keys := by simp
  ends := by simp
  apart := by simp
  named := by simp
  live := by simp
  known := by simp

theorem mono (ok : RegionsOk sinfo p live table) (kept : p.Kept next) : RegionsOk sinfo next live table where
  keys := ok.keys
  ends := ok.ends
  apart := ok.apart
  named a r found present := by
    obtain ⟨name, own, member⟩ := ok.named a r found present
    exact ⟨name, own.mono kept, member⟩
  live b name member := by
    obtain ⟨present, r, found, same, own⟩ := ok.live b name member
    exact ⟨present, r, found, same, own.mono kept⟩
  known := ok.known

/-- Two regions with one address are the same. -/
theorem eq_of_covers (ok : RegionsOk sinfo p live table) {b : Address} {s : Region} (found : table[a]? = some r)
    (found' : table[b]? = some s) (present : a ≠ 0) (present' : b ≠ 0) (covers : r.block.Covers iaddr 1)
    (reached : b ≤ iaddr) (greatest : a ≤ b) : a = b := by
  by_contra other
  have apart := ok.apart a b r s found found' present present' other
  have first := ok.keys a r found
  have second := ok.keys b s found'
  have ends := ok.ends a r found present
  have ends' := ok.ends b s found' present'
  simp only [Maple.Region.Disjoint, Maple.Region.Covers] at apart covers
  bv_omega

theorem findRegion_eq {c : Naming} (ok : RegionsOk sinfo p live c.regionTable) (found : c.regionTable[a]? = some r)
    (present : a ≠ 0) (covers : r.block.Covers iaddr 1) : c.findRegion iaddr = some r := by
  have own := ok.keys a r found
  obtain ⟨b, s, entry, found', reached, greatest⟩ :=
    Std.ExtTreeMap.getEntryLE?_greatest found ((compare_isLE_iff _ _).mpr (own ▸ covers.1))
  rw [compare_isLE_iff] at reached greatest
  have present' : b ≠ 0 := by bv_omega
  cases ok.eq_of_covers found found' present present' covers reached greatest
  cases found.symm.trans found'
  have ends := ok.ends a r found present
  have inside : r.block.addr ≤ iaddr ∧ iaddr < r.block.addr + r.block.size := by
    refine ⟨covers.1, ?_⟩
    have below := covers.2.1
    bv_omega
  simp only [Naming.findRegion, entry, if_pos inside]

/-- The block that a name is read off is the region that the table finds. -/
theorem find_block (ok : RegionsOk sinfo p live table) (found : table[a]? = some r) (present : a ≠ 0)
    (covers : r.block.Covers iaddr 1) :
    ∃ name, live.find? (fun entry => entry.1.Covers iaddr 1) = some (r.block, name) ∧ BlockNamed p r name := by
  obtain ⟨name, _, member⟩ := ok.named a r found present
  have listed : (live.find? fun entry => entry.1.Covers iaddr 1).isSome = true :=
    List.find?_isSome.mpr ⟨(r.block, name), member, decide_eq_true covers⟩
  obtain ⟨⟨b, name'⟩, first⟩ := Option.isSome_iff_exists.mp listed
  have covers' : b.Covers iaddr 1 := by simpa using List.find?_some first
  obtain ⟨present', s, found', same, own'⟩ := ok.live b name' (List.mem_of_find?_eq_some first)
  obtain rfl : r = s := by
    have key := ok.keys a r found
    rcases Std.le_total (a := a) (b := b.addr) with before | after
    · cases ok.eq_of_covers found found' present present' covers covers'.1 before
      exact Option.some.inj (found.symm.trans found')
    · cases ok.eq_of_covers found' found present' present (same ▸ covers') (key ▸ covers.1) after
      exact Option.some.inj (found.symm.trans found')
  exact ⟨name', same ▸ first, own'⟩

theorem insert (ok : RegionsOk sinfo p live table) {name : BlockName} (own : BlockNamed p r name)
    (source : r.Known sinfo) (ends : r.block.addr.toNat + r.block.size.toNat < 2 ^ 64) (present : r.block.addr ≠ 0)
    (fresh : ∀ (b : Address) s, table[b]? = some s → b ≠ 0 → b ≠ r.block.addr ∧ s.block.Disjoint r.block) :
    RegionsOk sinfo p ((r.block, name) :: live) (table.insert r.block.addr r) where
  keys a s found := by
    rw [getElem?_insert_address] at found
    split at found
    · next same =>
      cases found
      exact same
    · exact ok.keys a s found
  ends a s found present' := by
    rw [getElem?_insert_address] at found
    split at found
    · next same =>
      cases found
      exact same ▸ ends
    · exact ok.ends a s found present'
  apart a b s s' found found' present present' other := by
    rw [getElem?_insert_address] at found found'
    split at found
    · next same =>
      cases found
      rw [if_neg (same ▸ other)] at found'
      exact (fresh b s' found' present').2.symm
    · split at found'
      · cases found'
        exact (fresh a s found present).2
      · exact ok.apart a b s s' found found' present present' other
  named a s found present' := by
    rw [getElem?_insert_address] at found
    split at found
    · cases found
      exact ⟨name, own, List.mem_cons_self⟩
    · obtain ⟨name', own', member⟩ := ok.named a s found present'
      exact ⟨name', own', List.mem_cons_of_mem _ member⟩
  live b name' member := by
    rcases List.mem_cons.mp member with same | member
    · cases same
      exact ⟨present, r, by rw [getElem?_insert_address, if_pos rfl], rfl, own⟩
    · obtain ⟨present', s, found, same, own'⟩ := ok.live b name' member
      refine ⟨present', s, ?_, same, own'⟩
      rw [getElem?_insert_address, if_neg (fresh b.addr s found present').1.symm]
      exact found
  known a s found := by
    rw [getElem?_insert_address] at found
    split at found
    · cases found
      exact source
    · exact ok.known a s found

/-- The region of the null pointer is not a block. -/
theorem insert_null (ok : RegionsOk sinfo p live table) (source : r.Known sinfo) (null : r.block.addr = 0) :
    RegionsOk sinfo p live (table.insert 0 r) where
  keys a s found := by
    rw [getElem?_insert_address] at found
    split at found
    · next same =>
      cases found
      rw [null, same]
    · exact ok.keys a s found
  ends a s found present := by
    rw [getElem?_insert_address, if_neg present.symm] at found
    exact ok.ends a s found present
  apart a b s s' found found' present present' := by
    rw [getElem?_insert_address, if_neg present.symm] at found
    rw [getElem?_insert_address, if_neg present'.symm] at found'
    exact ok.apart a b s s' found found' present present'
  named a s found present := by
    rw [getElem?_insert_address, if_neg present.symm] at found
    exact ok.named a s found present
  live b name member := by
    obtain ⟨present, s, found, same, own⟩ := ok.live b name member
    exact ⟨present, s, by rwa [getElem?_insert_address, if_neg present.symm], same, own⟩
  known a s found := by
    rw [getElem?_insert_address] at found
    split at found
    · cases found
      exact source
    · exact ok.known a s found

theorem erase (ok : RegionsOk sinfo p live table) (start : Address) :
    RegionsOk sinfo p (History.remove start live) (table.erase start) where
  keys a s found := by
    rw [getElem?_erase_address] at found
    split at found
    · contradiction
    · exact ok.keys a s found
  ends a s found := by
    rw [getElem?_erase_address] at found
    split at found
    · contradiction
    · exact ok.ends a s found
  apart a b s s' found found' := by
    rw [getElem?_erase_address] at found found'
    split at found
    · contradiction
    · split at found'
      · contradiction
      · exact ok.apart a b s s' found found'
  named a s found present := by
    rw [getElem?_erase_address] at found
    split at found
    · contradiction
    · next other =>
      obtain ⟨name, own, member⟩ := ok.named a s found present
      have key := ok.keys a s found
      exact ⟨name, own, List.mem_filter.mpr ⟨member, by simpa [key] using ne_comm.mp other⟩⟩
  live b name member := by
    obtain ⟨member, other⟩ := List.mem_filter.mp member
    obtain ⟨present, s, found, same, own⟩ := ok.live b name member
    refine ⟨present, s, ?_, same, own⟩
    rw [getElem?_erase_address, if_neg]
    · exact found
    · exact fun same => absurd same.symm (of_decide_eq_true other)
  known a s found := by
    rw [getElem?_erase_address] at found
    split at found
    · contradiction
    · exact ok.known a s found

/-- Nothing is there to be removed. -/
theorem remove_absent (ok : RegionsOk sinfo p live table) (absent : table[start]? = none) :
    History.remove start live = live := by
  refine List.filter_eq_self.mpr fun entry member => ?_
  obtain ⟨b, name⟩ := entry
  obtain ⟨_, s, found, _⟩ := ok.live b name member
  refine decide_eq_true fun same => ?_
  rw [show b.addr = start from same, absent] at found
  contradiction

theorem insert_fresh {c : Naming} (ok : RegionsOk sinfo p live c.regionTable) {name : BlockName}
    (own : BlockNamed p r name) (source : r.Known sinfo) (fresh : c.Fresh r.block) :
    RegionsOk sinfo p ((r.block, name) :: live) (c.regionTable.insert r.block.addr r) := by
  obtain ⟨present, ends, others⟩ := fresh
  exact ok.insert own source ends present fun b s found =>
    others (b, s) (Std.ExtTreeMap.mem_toList_iff_getElem?_eq_some.mpr found)

theorem loadSection {c : Naming} (ok : RegionsOk sinfo c.program live c.regionTable) {image : BitVec 32}
    (source : sinfo.findImage image = true) (loadable : c.Loadable start size) :
    ∃ table, c.loadSection image start size = some { c with regionTable := table } ∧
      RegionsOk sinfo c.program (History.addStatic image start size live) table := by
  by_cases null : start = 0
  · refine ⟨c.regionTable, ?_, ?_⟩
    · rw [Naming.loadSection, if_pos null]
    · rwa [History.addStatic, if_pos null]
  · obtain ⟨positive, fresh⟩ := loadable.resolve_left null
    refine ⟨c.regionTable.insert start (.sregion ⟨start, size⟩ image), ?_, ?_⟩
    · rw [Naming.loadSection, if_neg null, debugAssert_pos positive]
      rfl
    · rw [History.addStatic, if_neg null]
      exact ok.insert_fresh (.static ⟨start, size⟩ image) source fresh

theorem unloadSection {c : Naming} (ok : RegionsOk sinfo c.program live c.regionTable)
    (frees : start = 0 ∨ c.Frees true start) :
    ∃ table, c.unloadSection start = some { c with regionTable := table } ∧
      RegionsOk sinfo c.program (History.remove start live) table ∧
      ∀ (a : Address) region, table[a]? = some region → c.regionTable[a]? = some region := by
  by_cases null : start = 0
  · refine ⟨c.regionTable, ?_, ?_, fun _ _ => id⟩
    · rw [Naming.unloadSection, if_pos null]
    · have kept : History.remove start live = live := by
        refine List.filter_eq_self.mpr fun entry member => ?_
        obtain ⟨b, name⟩ := entry
        exact decide_eq_true (null ▸ (ok.live b name member).1)
      rwa [kept]
  · rw [Naming.unloadSection, if_neg null, Naming.freeSRegion]
    cases found : c.regionTable[start]? with
    | none => exact ⟨c.regionTable, rfl, by rwa [ok.remove_absent found], fun _ _ => id⟩
    | some region =>
      refine ⟨c.regionTable.erase start, ?_, ok.erase start, fun a s found => ?_⟩
      · simp only [debugAssert_pos (frees.resolve_left null region found)]
        rfl
      · rw [getElem?_erase_address] at found
        split at found
        · contradiction
        · exact found

theorem freeDRegion {c : Naming} (ok : RegionsOk sinfo c.program live c.regionTable) (frees : c.Frees false start) :
    ∃ table, c.freeDRegion start = some { c with regionTable := table } ∧
      RegionsOk sinfo c.program (History.remove start live) table := by
  rw [Naming.freeDRegion]
  cases found : c.regionTable[start]? with
  | none => exact ⟨c.regionTable, rfl, by rwa [ok.remove_absent found]⟩
  | some region =>
    refine ⟨c.regionTable.erase start, ?_, ok.erase start⟩
    simp only [debugAssert_pos (frees region found)]
    rfl

end RegionsOk

/-- What holds in a run with this history. -/
structure Tracks (sinfo : StaticInfo) (threads : Finset ThreadName) (objects : Finset ObjectName)
    (past : List Event) (c : Naming) : Prop where
  inv : c.program.Inv sinfo
  listed : Listed threads objects c.program
  started : c.mainThreadStarted = past.any Event.isStart
  known : ∀ thd, Option.Rel (ThreadNamed c.program) c.threadTable[thd]? (History.threadName past thd)
  valid : invalidThdId ∉ c.threadTable
  unborn : ∀ thd, thd ∉ c.threadTable → c.threadCreationInfo[thd]?.getD 0 = 0
  children : ∀ thd, thd ≠ invalidThdId →
    (c.threadCreationInfo[thd]?.getD 0).toNat = History.children thd past
  counts : ∀ thd inst, (c.creatorCount thd inst).toNat = History.allocations thd inst past
  regions : RegionsOk sinfo c.program (History.blocks past) c.regionTable

/-- The output of a step has this label. -/
inductive Says (p : Program) : Label (BitVec 32) (BitVec 32) → Label ThreadName ObjectName → Prop
  | none : Says p .none .none
  | thread {uid : BitVec 32} {name : ThreadName} (own : ThreadNamed p uid name) : Says p (.thread uid) (.thread name)
  | action {uid : BitVec 32} {name : ThreadName} {obj : Option (BitVec 32)} {objName : Option ObjectName}
      (own : ThreadNamed p uid name) (about : Option.Rel (ObjectNamed p) obj objName) :
      Says p (.action uid obj) (.action name objName)

theorem Says.mono {p next : Program} {out : Label (BitVec 32) (BitVec 32)} {label : Label ThreadName ObjectName}
    (told : Says p out label) (kept : p.Kept next) : Says next out label := by
  cases told with
  | none => exact .none
  | thread own => exact .thread (own.mono kept)
  | action own about => exact .action (own.mono kept) (Runs.rel_mono about fun _ _ own => own.mono kept)

/-- The names in labels. -/
def Label.threads {T O : Type} : Label T O → List T
  | .none => []
  | .thread thd => [thd]
  | .action thd _ => [thd]

def Label.objects {T O : Type} : Label T O → List O
  | .action _ (some obj) => [obj]
  | _ => []

namespace Tracks
variable {sinfo : StaticInfo} {threads : Finset ThreadName} {objects : Finset ObjectName} {past : List Event}
  {c : Naming} {thd parent : ThreadId}

theorem start {p : Program} (inv : p.Inv sinfo) (listed : Listed threads objects p) :
    Tracks sinfo threads objects [] { program := p } where
  inv := inv
  listed := listed
  started := rfl
  known _ := by simp [History.threadName]
  valid := by simp
  unborn := by simp
  children := by simp [History.children]
  counts := by simp [History.allocations, Naming.creatorCount, currIdx]
  regions := .empty p

theorem thread_of_mem (tracks : Tracks sinfo threads objects past c) (member : thd ∈ c.threadTable) :
    ∃ uid name, c.threadTable[thd]? = some uid ∧ History.threadName past thd = some name ∧
      ThreadNamed c.program uid name := by
  have related := tracks.known thd
  have found := Std.ExtTreeMap.getElem?_eq_some_getElem member
  rw [found] at related
  generalize named : History.threadName past thd = name at related
  cases related with
  | some own => exact ⟨_, _, found, rfl, own⟩

/-- Steps that change the regions only. -/
theorem setRegions (tracks : Tracks sinfo threads objects past c) {e : Event} {table : OrdMap Address Region}
    (start : e.isStart = false) (thread : History.threadName (e :: past) = History.threadName past)
    (children : ∀ t, History.children t (e :: past) = History.children t past)
    (allocations : ∀ t i, History.allocations t i (e :: past) = History.allocations t i past)
    (regions : RegionsOk sinfo c.program (History.blocks (e :: past)) table) :
    Tracks sinfo threads objects (e :: past) { c with regionTable := table } where
  inv := tracks.inv
  listed := tracks.listed
  started := by rw [List.any_cons, start, Bool.false_or, tracks.started]
  known t := thread ▸ tracks.known t
  valid := tracks.valid
  unborn := tracks.unborn
  children t valid := (tracks.children t valid).trans (children t).symm
  counts t i := (tracks.counts t i).trans (allocations t i).symm
  regions := regions

theorem imageLoad (tracks : Tracks sinfo threads objects past c) {image : BitVec 32}
    {dataStart dataSize bssStart bssSize : Address} (source : sinfo.findImage image = true)
    (first : c.Loadable dataStart dataSize)
    (second : ∀ next ∈ c.loadSection image dataStart dataSize, next.Loadable bssStart bssSize) :
    ∃ table, c.handleImageLoad image dataStart dataSize bssStart bssSize = some { c with regionTable := table } ∧
      Tracks sinfo threads objects (.imageLoad image dataStart dataSize bssStart bssSize :: past)
        { c with regionTable := table } := by
  obtain ⟨middle, loaded, ok⟩ := tracks.regions.loadSection source first
  obtain ⟨table, loaded', ok'⟩ := RegionsOk.loadSection (c := { c with regionTable := middle }) ok source
    (second _ loaded)
  refine ⟨table, ?_, tracks.setRegions rfl rfl ?_ ?_ ok'⟩
  · rw [Naming.handleImageLoad, loaded]
    exact loaded'
  · simp [History.children]
  · simp [History.allocations]

theorem imageUnload (tracks : Tracks sinfo threads objects past c) {dataStart bssStart : Address}
    (first : dataStart = 0 ∨ c.Frees true dataStart) (second : bssStart = 0 ∨ c.Frees true bssStart) :
    ∃ table, c.handleImageUnload dataStart bssStart = some { c with regionTable := table } ∧
      Tracks sinfo threads objects (.imageUnload dataStart bssStart :: past) { c with regionTable := table } := by
  obtain ⟨middle, unloaded, ok, kept⟩ := tracks.regions.unloadSection first
  obtain ⟨table, unloaded', ok', -⟩ := RegionsOk.unloadSection (c := { c with regionTable := middle }) ok
    (second.imp_right fun frees region found => frees region (kept bssStart region found))
  refine ⟨table, ?_, tracks.setRegions rfl rfl ?_ ?_ ok'⟩
  · rw [Naming.handleImageUnload, unloaded]
    exact unloaded'
  · simp [History.children]
  · simp [History.allocations]

theorem free (tracks : Tracks sinfo threads objects past c) {addr : Address} (frees : c.Frees false addr) :
    ∃ table, c.freeDRegion addr = some { c with regionTable := table } ∧
      Tracks sinfo threads objects (.free addr :: past) { c with regionTable := table } := by
  obtain ⟨table, freed, ok⟩ := tracks.regions.freeDRegion frees
  refine ⟨table, freed, tracks.setRegions rfl rfl ?_ ?_ ok⟩
  · simp [History.children]
  · simp [History.allocations]

theorem malloc (tracks : Tracks sinfo threads objects past c) {inst : BitVec 32} {size ret : Address}
    (allocates : c.Allocates sinfo thd inst size ret) :
    ∃ next, c.allocDRegion thd ret size inst = some next ∧ next.program = c.program ∧
      Tracks sinfo threads objects (.malloc thd inst size ret :: past) next := by
  obtain ⟨present, source, few, memory⟩ := allocates
  obtain ⟨creator, name, found, named, own⟩ := tracks.thread_of_mem present
  obtain ⟨index, counts⟩ := getCreatorIdx_spec thd inst c
  have count := tracks.counts thd inst
  have idx : (c.getCreatorIdx thd inst).2.toNat = History.allocations thd inst past + 1 := by
    rw [index, BitVec.toNat_add, count]
    exact Nat.mod_eq_of_lt (by rwa [count] at few)
  let region : Region := .dregion ⟨ret, size⟩ creator inst (c.getCreatorIdx thd inst).2
  refine ⟨{ (c.getCreatorIdx thd inst).1 with regionTable := c.regionTable.insert ret region }, ?_, rfl, ?_⟩
  · simp only [Naming.allocDRegion, Naming.findThread, found, Option.bind_eq_bind, Option.bind_some]
    rfl
  · refine ⟨tracks.inv, tracks.listed, by simp [tracks.started, Event.isStart, Naming.getCreatorIdx], tracks.known,
      tracks.valid, tracks.unborn, fun t valid => ?_, fun t i => ?_, ?_⟩
    · rw [History.children, List.countP_cons_of_neg (by simp)]
      exact tracks.children t valid
    · refine (congrArg BitVec.toNat (counts t i)).trans ?_
      rw [History.allocations, List.countP_cons]
      split
      · next same =>
        obtain ⟨rfl, rfl⟩ := same
        simpa [History.allocations] using (congrArg BitVec.toNat index).symm.trans idx
      · next other =>
        have apart : ¬ (thd = t ∧ inst = i) := by
          rintro ⟨rfl, rfl⟩
          exact other ⟨rfl, rfl⟩
        simpa [apart, History.allocations] using tracks.counts t i
    · simp only [History.blocks, History.addDynamic, named]
      have own' : BlockNamed c.program region (.dynamic name inst (History.allocations thd inst past + 1)) :=
        idx ▸ .dynamic ⟨ret, size⟩ inst _ own
      by_cases null : ret = 0
      · rw [if_pos null, null]
        exact tracks.regions.insert_null (r := region) source null
      · rw [if_neg null]
        exact tracks.regions.insert_fresh own' source (memory.resolve_left null)

/-- `calloc` is `malloc` of the product. -/
theorem calloc {inst : BitVec 32} {nmemb size ret : Address}
    (tracks : Tracks sinfo threads objects (.malloc thd inst (nmemb * size) ret :: past) c) :
    Tracks sinfo threads objects (.calloc thd inst nmemb size ret :: past) c where
  inv := tracks.inv
  listed := tracks.listed
  started := tracks.started
  known := tracks.known
  valid := tracks.valid
  unborn := tracks.unborn
  children := tracks.children
  counts := tracks.counts
  regions := tracks.regions

/-- The thread that starts gets the key with its name. -/
theorem addThread (tracks : Tracks sinfo threads objects past c) {key : ThreadKey} {name : ThreadName}
    (info : OrdMap ThreadId (BitVec 32)) (few : threads.card ≤ 2 ^ 32) (legal : thd ≠ invalidThdId)
    (absent : thd ∉ c.threadTable) (own : ThreadKeyNamed c.program key name) (member : name ∈ threads)
    (named : History.threadName (.threadStart thd parent :: past) thd = some name) (apart : parent ≠ thd)
    (unborn : ∀ t, t ∉ c.threadTable → info[t]?.getD 0 = 0)
    (children : ∀ t, t ≠ thd → t ≠ invalidThdId →
      (info[t]?.getD 0).toNat = History.children t (.threadStart thd parent :: past)) :
    let got := Names.Interned c.program.threads key
    let next : Naming := { c with program := { c.program with threads := got.1 }, threadCreationInfo := info }
    Tracks sinfo threads objects (.threadStart thd parent :: past) (next.addThread thd got.2.uid) ∧
      c.program.Kept next.program ∧ ThreadNamed next.program got.2.uid name := by
  intro got next
  obtain ⟨inv, kept, listed, here⟩ := tracks.listed.thread_call tracks.inv few own member
  have count : History.children thd (.threadStart thd parent :: past) = 0 := by
    rw [History.children, List.countP_cons_of_neg (by simpa using apart)]
    exact (tracks.children thd legal).symm.trans (congrArg BitVec.toNat (tracks.unborn thd absent))
  refine ⟨⟨inv, listed, by simp [Naming.addThread, Event.isStart], fun t => ?_, ?_, fun t outside => ?_,
    fun t proper => ?_, fun t i => ?_, tracks.regions.mono kept⟩, kept, here⟩
  · simp only [Naming.addThread, getElem?_insert_thread]
    split
    · next same =>
      subst same
      rw [named]
      exact .some here
    · next other =>
      rw [History.threadName, if_neg (Ne.symm other)]
      exact Runs.rel_mono (tracks.known t) fun uid name own => own.mono kept
  · simpa [Naming.addThread, next, legal] using tracks.valid
  · simp only [Naming.addThread, next, Std.ExtTreeMap.mem_insert, not_or, compare_eq_iff_eq] at outside
    simp only [Naming.addThread, getElem?_insert_thread, next, if_neg outside.1]
    exact unborn t outside.2
  · simp only [Naming.addThread, getElem?_insert_thread]
    split
    · next same =>
      subst same
      simpa using count.symm
    · next other => exact children t (Ne.symm other) proper
  · rw [History.allocations, List.countP_cons_of_neg (by simp)]
    exact tracks.counts t i

theorem threadStart (tracks : Tracks sinfo threads objects past c) (few : threads.card ≤ 2 ^ 32)
    (allowed : c.Allows sinfo (.threadStart thd parent))
    (listed : ∀ name, History.threadName (.threadStart thd parent :: past) thd = some name → name ∈ threads) :
    ∃ next uid name, c.handleThreadStart thd parent = some (next, uid) ∧
      Tracks sinfo threads objects (.threadStart thd parent :: past) next ∧ c.program.Kept next.program ∧
      History.threadName (.threadStart thd parent :: past) thd = some name ∧ ThreadNamed next.program uid name := by
  obtain ⟨legal, absent, others⟩ := allowed
  have count : ∀ t, History.children t (.threadStart thd parent :: past) =
      History.children t past + if parent = t then 1 else 0 := by
    intro t
    simp [History.children, List.countP_cons]
  cases started : c.mainThreadStarted with
  | false =>
    rw [if_neg (by simp [started])] at others
    subst others
    have named : History.threadName (.threadStart thd invalidThdId :: past) thd = some .main := by
      rw [History.threadName, if_pos rfl, if_neg (by simp [← tracks.started, started])]
    obtain ⟨next, kept, own⟩ := tracks.addThread c.threadCreationInfo few legal absent .main (listed _ named) named
      legal.symm tracks.unborn fun t _ proper => by
        rw [count, if_neg proper.symm, tracks.children t proper, Nat.add_zero]
    refine ⟨_, _, .main, ?_, next, kept, named, own⟩
    simp only [Naming.handleThreadStart, started, if_true, tracks.inv.getMainThread_eq, Option.bind_eq_bind,
      Option.bind_some]
    rfl
  | true =>
    rw [if_pos started] at others
    obtain ⟨present, few'⟩ := others
    obtain ⟨creator, parentName, found, parentNamed, creatorOwn⟩ := tracks.thread_of_mem present
    have proper : parent ≠ invalidThdId := fun same => tracks.valid (same ▸ present)
    have apart : parent ≠ thd := fun same => absent (same ▸ present)
    have idx : (c.threadCreationInfo[parent]?.getD 0 + 1).toNat = History.children parent past + 1 := by
      rw [BitVec.toNat_add, tracks.children parent proper]
      exact Nat.mod_eq_of_lt (by rwa [tracks.children parent proper] at few')
    have named : History.threadName (.threadStart thd parent :: past) thd =
        some (.child parentName (History.children parent past + 1)) := by
      rw [History.threadName, if_pos rfl, if_pos (by simp [← tracks.started, started]), parentNamed]
      rfl
    have own := ThreadKeyNamed.child (c.threadCreationInfo[parent]?.getD 0 + 1) creatorOwn
    rw [idx] at own
    obtain ⟨next, kept, here⟩ := tracks.addThread
      (c.threadCreationInfo.insert parent (c.threadCreationInfo[parent]?.getD 0 + 1)) few legal absent own
      (listed _ named) named apart
      (fun t outside => by
        have other : parent ≠ t := fun same => outside (same ▸ present)
        rw [getElem?_insert_thread, if_neg other]
        exact tracks.unborn t outside)
      (fun t _ valid => by
        rw [getElem?_insert_thread, count]
        split
        · next same =>
          subst same
          exact idx
        · exact tracks.children t valid)
    refine ⟨_, _, _, ?_, next, kept, named, here⟩
    simp only [Naming.handleThreadStart, started, Bool.true_eq_false, if_false, debugAssert_pos proper,
      Naming.findThread, found, Option.bind_eq_bind, Option.bind_some]
    rfl

/-- A scheduling point changes the program only. -/
theorem setProgram (tracks : Tracks sinfo threads objects past c) {p : Program} {iaddr : Address}
    (inv : p.Inv sinfo) (listed : Listed threads objects p) (kept : c.program.Kept p) :
    Tracks sinfo threads objects (.createAction thd iaddr :: past) { c with program := p } where
  inv := inv
  listed := listed
  started := by simp [tracks.started, Event.isStart]
  known t := Runs.rel_mono (tracks.known t) fun uid name own => own.mono kept
  valid := tracks.valid
  unborn := tracks.unborn
  children t proper := by
    rw [History.children, List.countP_cons_of_neg (by simp)]
    exact tracks.children t proper
  counts t i := by
    rw [History.allocations, List.countP_cons_of_neg (by simp)]
    exact tracks.counts t i
  regions := tracks.regions.mono kept

theorem getObject (tracks : Tracks sinfo threads objects past c) (few : objects.card ≤ 2 ^ 32) {a iaddr : Address}
    {r : Region} (found : c.regionTable[a]? = some r) (present : a ≠ 0) (covers : r.block.Covers iaddr 1)
    (listed : ∀ name, History.objectName past iaddr = some name → name ∈ objects) :
    ∃ p uid name, c.getObject iaddr = some ({ c with program := p }, uid) ∧ p.Inv sinfo ∧ c.program.Kept p ∧
      Listed threads objects p ∧ History.objectName past iaddr = some name ∧ ObjectNamed p uid name := by
  obtain ⟨name, first, own⟩ := tracks.regions.find_block found present covers
  have region := tracks.regions.findRegion_eq found present covers
  have source := tracks.regions.known a r found
  have named : History.objectName past iaddr = some ⟨name, iaddr - r.block.addr⟩ := by
    rw [History.objectName, first]
    rfl
  have member := listed _ named
  cases own with
  | static block image =>
    obtain ⟨inv, kept, listed', own⟩ := tracks.listed.object_call tracks.inv few (.static image _) member
      (fun uid => .sobject uid image (iaddr - block.addr)) (fun _ => rfl) (fun _ => rfl) fun _ => source
    exact ⟨_, _, _, by rw [Naming.getObject, region]; rfl, inv, kept, listed', named, own⟩
  | @dynamic block creator inst idx name own =>
    have creators : creator ∈ c.program.threads.byId := by
      obtain ⟨_, found, _⟩ := threadNamed_iff.mp own
      obtain ⟨thd, found, _⟩ := Option.map_eq_some_iff.mp found
      exact Std.ExtTreeMap.mem_iff_isSome_getElem?.mpr (Option.isSome_iff_exists.mpr ⟨thd, found⟩)
    obtain ⟨inv, kept, listed', own⟩ := tracks.listed.object_call tracks.inv few (.dynamic inst idx _ own) member
      (fun uid => .dobject uid creator inst idx (iaddr - block.addr)) (fun _ => rfl) (fun _ => rfl)
      fun _ => ⟨creators, source⟩
    exact ⟨_, _, _, by rw [Naming.getObject, region]; rfl, inv, kept, listed', named, own⟩

theorem createAction (tracks : Tracks sinfo threads objects past c) (few : objects.card ≤ 2 ^ 32) {iaddr : Address}
    (allowed : c.Allows sinfo (.createAction thd iaddr))
    (listed : ∀ name ∈ (History.label past (.createAction thd iaddr)).objects, name ∈ objects) :
    ∃ next out, c.createAction thd iaddr = some (next, out) ∧
      Tracks sinfo threads objects (.createAction thd iaddr :: past) next ∧ c.program.Kept next.program ∧
      Says next.program (.action out.1 out.2) (History.label past (.createAction thd iaddr)) := by
  obtain ⟨present, memory⟩ := allowed
  obtain ⟨uid, name, found, named, own⟩ := tracks.thread_of_mem present
  by_cases null : iaddr = 0
  · refine ⟨c, (uid, none), ?_, tracks.setProgram tracks.inv tracks.listed (.refl _), .refl _, ?_⟩
    · simp [Naming.createAction, Naming.findThread, found, null]
    · rw [History.label, named, null]
      exact .action own .none
  · obtain ⟨⟨a, r⟩, member, nonzero, covers⟩ := memory.resolve_left null
    have entry := Std.ExtTreeMap.mem_toList_iff_getElem?_eq_some.mp member
    obtain ⟨p, obj, objName, got, inv, kept, all, about, objOwn⟩ := tracks.getObject few entry nonzero covers (by
      intro objName about
      apply listed
      rw [History.label, named, Option.elim_some, if_neg null, about]
      exact List.mem_singleton_self _)
    refine ⟨_, (uid, some obj), ?_, tracks.setProgram inv all kept, kept, ?_⟩
    · simp only [Naming.createAction, Naming.findThread, found, Option.bind_eq_bind, Option.bind_some, if_neg null, got]
      rfl
    · rw [History.label, named, Option.elim_some, if_neg null, about]
      exact .action (own.mono kept) (.some objOwn)

theorem step (tracks : Tracks sinfo threads objects past c) (fewThreads : threads.card ≤ 2 ^ 32)
    (fewObjects : objects.card ≤ 2 ^ 32) {e : Event} (allowed : c.Allows sinfo e)
    (listedThreads : ∀ name ∈ (History.label past e).threads, name ∈ threads)
    (listedObjects : ∀ name ∈ (History.label past e).objects, name ∈ objects) :
    ∃ next out, c.step sinfo e = some (next, out) ∧ Tracks sinfo threads objects (History.extend past e) next ∧
      c.program.Kept next.program ∧ Says next.program out (History.label past e) := by
  cases e with
  | imageLoad image dataStart dataSize bssStart bssSize =>
    obtain ⟨table, ran, next⟩ := tracks.imageLoad allowed.1 allowed.2.1 allowed.2.2
    exact ⟨_, _, by rw [Naming.step, ran]; rfl, next, .refl _, .none⟩
  | imageUnload dataStart bssStart =>
    obtain ⟨table, ran, next⟩ := tracks.imageUnload allowed.1 allowed.2
    exact ⟨_, _, by rw [Naming.step, ran]; rfl, next, .refl _, .none⟩
  | threadStart thd parent =>
    obtain ⟨next, uid, name, ran, after, kept, named, own⟩ := tracks.threadStart fewThreads allowed fun name named =>
      listedThreads name (by simp [History.label, named, Label.threads])
    refine ⟨next, _, by rw [Naming.step, ran]; rfl, after, kept, ?_⟩
    rw [History.label, named]
    exact .thread own
  | malloc thd inst size ret =>
    obtain ⟨next, ran, same, after⟩ := tracks.malloc allowed
    exact ⟨next, _, by rw [Naming.step, ran]; rfl, after, same ▸ .refl _, .none⟩
  | calloc thd inst nmemb size ret =>
    obtain ⟨next, ran, same, after⟩ := tracks.malloc allowed
    exact ⟨next, _, by rw [Naming.step, ran]; rfl, after.calloc, same ▸ .refl _, .none⟩
  | free addr =>
    obtain ⟨table, ran, next⟩ := tracks.free allowed
    exact ⟨_, _, by rw [Naming.step, ran]; rfl, next, .refl _, .none⟩
  | createAction thd iaddr =>
    obtain ⟨next, out, ran, after, kept, told⟩ := tracks.createAction fewObjects allowed listedObjects
    exact ⟨next, _, by rw [Naming.step, ran]; rfl, after, kept, told⟩
  | restart proto =>
    obtain ⟨next, ran, restored⟩ := tracks.inv.load_spec allowed
    have back : next.Kept c.program := Program.kept_of_tables (fun i thd found => restored.threads i ▸ found)
      fun i obj found => restored.objects i ▸ found
    have kept : c.program.Kept next := Program.kept_of_tables
      (fun i thd found => (restored.threads i).symm ▸ found) fun i obj found => (restored.objects i).symm ▸ found
    refine ⟨_, _, by rw [Naming.step, ran]; rfl, .start restored.inv ⟨fun uid key named => ?_,
      fun uid key named => ?_⟩, kept, .none⟩
    · obtain ⟨name, member, own⟩ := tracks.listed.thread uid key (back _ _ named)
      exact ⟨name, member, own.mono kept⟩
    · obtain ⟨name, member, own⟩ := tracks.listed.object uid key (back _ _ named)
      exact ⟨name, member, own.mono kept⟩

/-- A whole run, whose labels name what is in these sets. -/
theorem run {tr : List Event} (tracks : Tracks sinfo threads objects past c) (fewThreads : threads.card ≤ 2 ^ 32)
    (fewObjects : objects.card ≤ 2 ^ 32) (allowed : Runs.Along (Naming.step sinfo) (Naming.Allows sinfo) c tr)
    (listedThreads : ∀ label ∈ History.labels past tr, ∀ name ∈ label.threads, name ∈ threads)
    (listedObjects : ∀ label ∈ History.labels past tr, ∀ name ∈ label.objects, name ∈ objects) :
    ∃ last outs, Runs.run (Naming.step sinfo) c tr = some (last, outs) ∧ last.program.Inv sinfo ∧
      c.program.Kept last.program ∧ List.Forall₂ (Says last.program) outs (History.labels past tr) := by
  induction tr generalizing past c with
  | nil => exact ⟨c, [], rfl, tracks.inv, .refl _, .nil⟩
  | cons e tr ih =>
    obtain ⟨here, along⟩ := allowed
    obtain ⟨firstThreads, restThreads⟩ := List.forall_mem_cons.mp listedThreads
    obtain ⟨firstObjects, restObjects⟩ := List.forall_mem_cons.mp listedObjects
    obtain ⟨next, out, stepped, after, kept, told⟩ :=
      tracks.step fewThreads fewObjects here firstThreads firstObjects
    simp only [stepped] at along
    obtain ⟨last, outs, ran, inv, keptRest, toldRest⟩ := ih after along restThreads restObjects
    exact ⟨last, out :: outs, Runs.run_cons stepped ran, inv, kept.trans keptRest, .cons (told.mono keptRest) toldRest⟩

end Tracks

def Label.map {T T' O O' : Type} (f : T → T') (g : O → O') : Label T O → Label T' O'
  | .none => .none
  | .thread thd => .thread (f thd)
  | .action thd obj => .action (f thd) (obj.map g)

section Renaming
variable {p : Program} {outs : List (Label (BitVec 32) (BitVec 32))} {labels : List (Label ThreadName ObjectName)}

/-- Outputs are their labels renamed. -/
theorem Says.map_eq {f : ThreadName → BitVec 32} {g : ObjectName → BitVec 32}
    (thread : ∀ uid name, ThreadNamed p uid name → f name = uid)
    (object : ∀ uid name, ObjectNamed p uid name → g name = uid) (told : List.Forall₂ (Says p) outs labels) :
    outs = labels.map (Label.map f g) := by
  induction told with
  | nil => rfl
  | cons here _ ih =>
    rw [List.map_cons, ih]
    congr 1
    cases here with
    | none => rfl
    | thread own => rw [Label.map, thread _ _ own]
    | action own about =>
      rw [Label.map, thread _ _ own]
      cases about with
      | none => rfl
      | some own' => rw [Option.map_some, object _ _ own']

theorem Says.thread_of_mem (told : List.Forall₂ (Says p) outs labels) {name : ThreadName}
    (member : name ∈ labels.flatMap Label.threads) : ∃ uid, ThreadNamed p uid name := by
  induction told with
  | nil => contradiction
  | cons here _ ih =>
    rcases List.mem_append.mp member with first | later
    · cases here with
      | none => contradiction
      | thread own => exact ⟨_, List.mem_singleton.mp first ▸ own⟩
      | action own _ => exact ⟨_, List.mem_singleton.mp first ▸ own⟩
    · exact ih later

theorem Says.object_of_mem (told : List.Forall₂ (Says p) outs labels) {name : ObjectName}
    (member : name ∈ labels.flatMap Label.objects) : ∃ uid, ObjectNamed p uid name := by
  induction told with
  | nil => contradiction
  | cons here _ ih =>
    rcases List.mem_append.mp member with first | later
    · cases here with
      | none => contradiction
      | thread _ => contradiction
      | action _ about =>
        cases about with
        | none => contradiction
        | some own => exact ⟨_, List.mem_singleton.mp first ▸ own⟩
    · exact ih later

end Renaming

/-- The names in a trace of any number of runs. -/
def threadNames (tr : List Event) : List ThreadName := (History.labels [] tr).flatMap Label.threads
def objectNames (tr : List Event) : List ObjectName := (History.labels [] tr).flatMap Label.objects

/-- A trace with enough identifiers for its threads and for its objects. -/
structure Fits (tr : List Event) : Prop where
  threads : (threadNames tr).toFinset.card ≤ 2 ^ 32
  objects : (objectNames tr).toFinset.card ≤ 2 ^ 32

/-- Over any number of runs, threads and objects are identified by names that depend only on
how often a thread has started children, and has allocated at an instruction. Objects at one
offset of the two sections of an image have one name. -/
theorem names_canonical {sinfo : StaticInfo} {tr : List Event}
    (allowed : Runs.Along (Naming.step sinfo) (Naming.Allows sinfo) {} tr) (fits : Fits tr) :
    ∃ threadUid objectUid last outs, Runs.run (Naming.step sinfo) {} tr = some (last, outs) ∧
      outs = (History.labels [] tr).map (Label.map threadUid objectUid) ∧
      Set.InjOn threadUid {name | name ∈ threadNames tr} ∧ Set.InjOn objectUid {name | name ∈ objectNames tr} := by
  have listed : ∀ label ∈ History.labels [] tr, (∀ name ∈ label.threads, name ∈ (threadNames tr).toFinset) ∧
      ∀ name ∈ label.objects, name ∈ (objectNames tr).toFinset := by
    intro label member
    exact ⟨fun name own => List.mem_toFinset.mpr (List.mem_flatMap.mpr ⟨label, member, own⟩),
      fun name own => List.mem_toFinset.mpr (List.mem_flatMap.mpr ⟨label, member, own⟩)⟩
  have start : Tracks sinfo (threadNames tr).toFinset (objectNames tr).toFinset [] {} :=
    .start Program.inv_empty ⟨by simp [Program.named, Program.findThread], by simp [Program.named, Program.findObject]⟩
  obtain ⟨last, outs, ran, inv, -, told⟩ := start.run fits.threads fits.objects allowed
    (fun label member => (listed label member).1) fun label member => (listed label member).2
  classical
  let threadUid : ThreadName → BitVec 32 := fun name =>
    if own : ∃ uid, ThreadNamed last.program uid name then own.choose else 0
  let objectUid : ObjectName → BitVec 32 := fun name =>
    if own : ∃ uid, ObjectNamed last.program uid name then own.choose else 0
  have threadOwn : ∀ uid name, ThreadNamed last.program uid name → threadUid name = uid := by
    intro uid name own
    have some : ∃ uid, ThreadNamed last.program uid name := ⟨uid, own⟩
    simp only [threadUid, dif_pos some]
    exact some.choose_spec.inj inv own
  have objectOwn : ∀ uid name, ObjectNamed last.program uid name → objectUid name = uid := by
    intro uid name own
    have some : ∃ uid, ObjectNamed last.program uid name := ⟨uid, own⟩
    simp only [objectUid, dif_pos some]
    exact some.choose_spec.inj inv own
  refine ⟨threadUid, objectUid, last, outs, ran, ?_, ?_, ?_⟩
  · exact Says.map_eq threadOwn objectOwn told
  · rintro name member name' member' same
    obtain ⟨uid, own⟩ := Says.thread_of_mem told member
    obtain ⟨uid', own'⟩ := Says.thread_of_mem told member'
    rw [threadOwn uid name own, threadOwn uid' name' own'] at same
    subst same
    exact own.unique own'
  · rintro name member name' member' same
    obtain ⟨uid, own⟩ := Says.object_of_mem told member
    obtain ⟨uid', own'⟩ := Says.object_of_mem told member'
    rw [objectOwn uid name own, objectOwn uid' name' own'] at same
    subst same
    exact own.unique own'

/-- Two runs of a main thread and its child, where the second run allocates elsewhere and has
other identifiers of threads. The child's first block keeps its name, and the addresses in
the two sections of the image are one object. -/
def objectsTrace : List Event :=
  [.threadStart 10 invalidThdId, .imageLoad 1 0x1000 0x100 0x2000 0x100, .threadStart 11 10,
    .malloc 11 5 16 0x8000, .createAction 11 0x8004, .createAction 10 0x2008, .createAction 10 0x1008,
    .free 0x8000,
    .restart
      { thread := [{ uid := 1 }, ⟨2, some 1, 1⟩]
        sobject := [⟨2, 1, 8⟩]
        dobject := [⟨1, 2, 5, 1, 4⟩] },
    .threadStart 20 invalidThdId, .calloc 20 5 2 4 0x8000, .threadStart 21 20, .calloc 21 5 4 4 0x9000,
    .createAction 20 0x8004, .createAction 21 0x9004]

theorem names_canonical_restart :
    ∃ threadUid objectUid last outs, Runs.run (Naming.step Names.allKnown) {} objectsTrace = some (last, outs) ∧
      outs = (History.labels [] objectsTrace).map (Label.map threadUid objectUid) ∧
      Set.InjOn threadUid {name | name ∈ threadNames objectsTrace} ∧
      Set.InjOn objectUid {name | name ∈ objectNames objectsTrace} :=
  names_canonical (by decide +kernel) ⟨by decide, by decide⟩

end Maple.Systematic.Objects
