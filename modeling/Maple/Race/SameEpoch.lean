import Maple.Race.DjitExact

/-! Accesses of one thread in one epoch are seen by the same observers. Detectors
that skip an access of an epoch they already remember rest on this. -/
namespace Maple.Race
variable {G : Type} {order : Causality.Model Hook Channel} {tr : List Hook} {n : ℕ}
  {b : DetectorBase G} {epoch : Stamps} {acc : ℕ → ThreadId → InstId → Prop}

/-- Whoever has seen `w` has seen `i`. -/
def Covers (order : Causality.Model Hook Channel) (tr : List Hook) (epoch : Stamps) (i w : ℕ) : Prop :=
  epoch i = epoch w ∨ order.HB tr i w

theorem SyncInv.known_of_covers (sync : SyncInv order tr n b epoch) {i w : ℕ} {e : ThreadId × ℕ}
    (covers : Covers order tr epoch i w) (stamp : epoch w = some e) {c : Channel}
    (known : order.Known tr n c w) : order.Known tr n c i := by
  rcases covers with same | ordered
  · rw [stamp] at same
    exact (sync.exact.exact same c).mpr ((sync.exact.exact stamp c).mp known)
  · exact Causality.known_of_hb ordered known

/-- Between two accesses of a thread in one epoch nobody has seen the first, and
what the second has not seen the first has not seen either. -/
theorem SyncInv.unordered_of_same_epoch (sync : SyncInv order tr (n + 1) b epoch)
    (hooks : HookOrder order) {curr t : ThreadId} {d e f : Hook} {p i s : ℕ}
    (first : tr[p]? = some d) (second : tr[n]? = some e) (acts : d.thread = some curr)
    (actsAgain : e.thread = some curr) (earlier : p < n) (stamp : epoch p = some (curr, s))
    (own : b.clockOf (.thread curr) curr = s) (live : curr ∉ (progressAt tr (n + 1)).joined)
    (between : tr[i]? = some f) (actsOther : f.thread = some t) (other : t ≠ curr) (bound : i < n) :
    (¬ order.HB tr i n → ¬ order.HB tr i p) ∧ ¬ order.HB tr p i := by
  constructor
  · exact fun unordered ordered =>
      unordered (ordered.trans (hooks.hb_of_thread first second acts actsAgain earlier))
  · intro ordered
    have known : order.Known tr (n + 1) (.thread t) p :=
      ⟨i, by omega, f, between, (hooks.own actsOther).2, Or.inr ordered⟩
    have seen := (sync.exact.exact stamp (.thread t)).mp known
    have ahead := sync.exact.ahead (sync.exact.stamped stamp).1 live
      (fun same => other (thread_injective same) : Channel.thread t ≠ .thread curr)
    simp only [DetectorBase.view, own] at seen ahead
    omega

/-- An epoch stands for one access; if `complete`, that access covers all others. -/
def Remembers (order : Causality.Model Hook Channel) (tr : List Hook) (epoch : Stamps)
    (acc : ℕ → ThreadId → InstId → Prop) (n : ℕ) (e : ThreadId × ℕ) (complete : Prop) : Prop :=
  (e = (0, 0) ∧ ∀ i < n, ∀ t inst, ¬ acc i t inst) ∨
    ∃ w < n, (∃ inst, acc w e.1 inst) ∧ epoch w = some e ∧
      (complete → ∀ i < n, ∀ t inst, acc i t inst → Covers order tr epoch i w)

section Remembers
variable {e : ThreadId × ℕ} {complete : Prop}

theorem Remembers.blank : Remembers order tr epoch acc 0 (0, 0) complete :=
  Or.inl ⟨rfl, fun _ bound => absurd bound (Nat.not_lt_zero _)⟩

theorem Remembers.restamp {epoch' : Stamps} (remembers : Remembers order tr epoch acc n e complete)
    (same : ∀ i < n, epoch' i = epoch i) : Remembers order tr epoch' acc n e complete := by
  rcases remembers with blank | ⟨w, bound, access, stamp, covers⟩
  · exact Or.inl blank
  · refine Or.inr ⟨w, bound, access, (same w bound).trans stamp, fun holds i below t inst member => ?_⟩
    rw [Covers, same i below, same w bound]
    exact covers holds i below t inst member

theorem Remembers.weaken {weaker : Prop} (remembers : Remembers order tr epoch acc n e complete)
    (implied : weaker → complete) : Remembers order tr epoch acc n e weaker := by
  rcases remembers with blank | ⟨w, bound, access, stamp, covers⟩
  · exact Or.inl blank
  · exact Or.inr ⟨w, bound, access, stamp, fun holds => covers (implied holds)⟩

theorem Remembers.skip (remembers : Remembers order tr epoch acc n e complete)
    (none : ∀ t inst, ¬ acc n t inst) : Remembers order tr epoch acc (n + 1) e complete := by
  have earlier : ∀ {i t inst}, i < n + 1 → acc i t inst → i < n := by
    intro i t inst bound access
    rcases Nat.lt_succ_iff_lt_or_eq.mp bound with below | rfl
    · exact below
    · exact absurd access (none t inst)
  rcases remembers with ⟨blank, unused⟩ | ⟨w, bound, access, stamp, covers⟩
  · exact Or.inl ⟨blank, fun i bound t inst access => unused i (earlier bound access) t inst access⟩
  · exact Or.inr ⟨w, Nat.lt_succ_of_lt bound, access, stamp,
      fun holds i below t inst member => covers holds i (earlier below member) t inst member⟩

/-- A skipped access has the remembered stamp. -/
theorem Remembers.same (remembers : Remembers order tr epoch acc n e complete) (used : e ≠ (0, 0))
    (stamp : epoch n = some e) : Remembers order tr epoch acc (n + 1) e complete := by
  rcases remembers with ⟨blank, _⟩ | ⟨w, bound, access, stamped, covers⟩
  · exact absurd blank used
  · refine Or.inr ⟨w, Nat.lt_succ_of_lt bound, access, stamped, fun holds i below t inst member => ?_⟩
    rcases Nat.lt_succ_iff_lt_or_eq.mp below with earlier | rfl
    · exact covers holds i earlier t inst member
    · exact Or.inl (stamp.trans stamped.symm)

/-- A new access takes over when it has seen all others. -/
theorem Remembers.record {curr : ThreadId} {s : ℕ} {inst : InstId} (here : acc n curr inst)
    (stamp : epoch n = some (curr, s))
    (ordered : complete → ∀ i < n, ∀ t inst, acc i t inst → order.HB tr i n) :
    Remembers order tr epoch acc (n + 1) (curr, s) complete := by
  refine Or.inr ⟨n, Nat.lt_succ_self n, ⟨inst, here⟩, stamp, fun holds i below t inst' member => ?_⟩
  rcases Nat.lt_succ_iff_lt_or_eq.mp below with earlier | rfl
  · exact Or.inr (ordered holds i earlier t inst' member)
  · exact Or.inl rfl

/-- Having seen the epoch means having seen every access. -/
theorem Remembers.ordered (remembers : Remembers order tr epoch acc n e complete)
    (hooks : HookOrder order) (sync : SyncInv order tr (n + 1) b epoch) {l : RaceEventType}
    {curr : ThreadId} {inst : InstId} {addr size : Address} {currVc : VectorClock}
    (here : tr[n]? = some (l.hook curr inst addr size)) (found : b.currVcMap[curr]? = some currVc)
    (holds : complete) (seen : e.2 ≤ currVc.getClock e.1) {i : ℕ} (bound : i < n) {t : ThreadId}
    {inst' : InstId} (access : acc i t inst') : order.HB tr i n := by
  rcases remembers with ⟨_, unused⟩ | ⟨w, below, _, stamp, covers⟩
  · exact absurd access (unused i bound t inst')
  · have known : order.Known tr (n + 1) (.thread curr) w := by
      have exact := sync.exact.exact stamp (.thread curr)
      simp only [DetectorBase.view, clockOf_of_vc found] at exact
      exact exact.mpr seen
    have covered := sync.known_of_covers (covers holds i bound t inst' access) stamp known
    rw [hooks.known_access here bound.ne] at covered
    exact (hooks.hb_access_iff here).mpr covered

end Remembers
end Maple.Race
