import Mathlib
import Equilibria.Proofs.Restriction

/-!
# Strict dominance

What the search for dominated strategies finds in a valid game:

* `Game.Better`, `Game.dominates_iff` — the test compares two strategies against every profile;
* `Game.mem_undominated_iff` — what is kept is what no strategy beats;
* `Game.exists_better_undominated` — a strategy that is removed is beaten by one that is kept;
* `Game.undominated_ne_nil` — some strategy is kept.

The last two follow the payoffs against one fixed profile: of finitely many strategies one does best
there, and nothing beats it.
-/

namespace Equilibria

namespace Game

variable {g : Game} {p : ℕ}

/-- One strategy of a player gives more than another against every profile. -/
def Better (g : Game) (p better worse : ℕ) : Prop :=
  ∀ s ∈ profiles g.counts, g.payoff p (s.set p worse) < g.payoff p (s.set p better)

theorem beatsFrom_iff (g : Game) (p better worse : ℕ) (radix : List ℕ) (n : ℕ) (s : List ℕ) :
    g.beatsFrom p better worse radix n s = true ↔
      ∀ t ∈ successive radix n s, g.payoff p (t.set p worse) < g.payoff p (t.set p better) := by
  induction n generalizing s with
  | zero => simp [beatsFrom, successive]
  | succ n ih =>
    rw [beatsFrom, successive, List.forall_mem_cons]
    split_ifs with hle
    · simp only [false_iff, not_and]
      intro hlt
      exact absurd hlt (not_lt.mpr hle)
    · rw [ih]
      exact (and_iff_right (not_le.mp hle)).symm

theorem Valid.counts_pos (hvalid : g.Valid) {q : ℕ} (hq : q < g.counts.length) :
    0 < g.counts.getD q 0 :=
  numStrategies_pos hvalid.accepted (by rwa [← length_counts])

theorem Valid.zeroDigits_mem (hvalid : g.Valid) : zeroDigits g.counts ∈ profiles g.counts := by
  refine mem_profiles_iff_getD.mpr ⟨List.length_replicate, fun k hk => ?_⟩
  have hzero : (zeroDigits g.counts).getD k 0 = 0 := by
    simp [zeroDigits, List.getD_eq_getElem?_getD, hk]
  rw [hzero]
  exact hvalid.counts_pos hk

theorem getD_set_one (hp : p < g.counts.length) (k : ℕ) :
    (g.counts.set p 1).getD k 0 = if k = p then 1 else g.counts.getD k 0 :=
  getD_set 0 hp 1 k

/-- The profiles of the others, the player being fixed to the first strategy. -/
theorem mem_profiles_set_one (hvalid : g.Valid) (hp : p < g.counts.length) {t : List ℕ} :
    t ∈ profiles (g.counts.set p 1) ↔ t ∈ profiles g.counts ∧ t.getD p 0 = 0 := by
  rw [mem_profiles_iff_getD, mem_profiles_iff_getD, List.length_set]
  constructor
  · rintro ⟨hlength, hlt⟩
    have hzero : t.getD p 0 = 0 := by
      have h := hlt p hp
      rw [getD_set_one hp, if_pos rfl] at h
      omega
    refine ⟨⟨hlength, fun k hk => ?_⟩, hzero⟩
    by_cases hkp : k = p
    · rw [hkp, hzero]
      exact hvalid.counts_pos hp
    · have h := hlt k hk
      rwa [getD_set_one hp, if_neg hkp] at h
  · rintro ⟨⟨hlength, hlt⟩, hzero⟩
    refine ⟨hlength, fun k hk => ?_⟩
    rw [getD_set_one hp]
    split_ifs with hkp
    · rw [hkp, hzero]
      exact Nat.zero_lt_one
    · exact hlt k hk

theorem prod_set_one_le (hvalid : g.Valid) (hp : p < g.counts.length) :
    (g.counts.set p 1).prod ≤ g.counts.prod := by
  apply List.Forall₂.prod_le_prod'
  rw [List.forall₂_iff_get]
  refine ⟨List.length_set, fun k hk hk' => ?_⟩
  have hle : (g.counts.set p 1).getD k 0 ≤ g.counts.getD k 0 := by
    rw [getD_set_one hp]
    split_ifs with hkp
    · rw [hkp]
      exact hvalid.counts_pos hp
    · exact le_rfl
  rwa [List.getD_eq_getElem _ _ hk, List.getD_eq_getElem _ _ hk'] at hle

/-- **The test for dominance compares against every profile.** -/
theorem dominates_iff (hvalid : g.Valid) (hp : p < g.counts.length) {better worse : ℕ} :
    g.dominates p better worse = true ↔ g.Better p better worse := by
  have hradix : g.dominates p better worse = g.beatsFrom p better worse (g.counts.set p 1)
      (tableSize (g.counts.set p 1)) (zeroDigits (g.counts.set p 1)) := rfl
  rw [hradix, beatsFrom_iff, tableSize_eq, successive_eq_profiles]
  constructor
  · intro hall s hs
    have hzero : (s.set p 0).getD p 0 = 0 := by
      rw [getD_set 0 (by rwa [length_of_mem_profiles hs]), if_pos rfl]
    have h := hall (s.set p 0) ((mem_profiles_set_one hvalid hp).mpr
      ⟨set_mem_profiles hs (hvalid.counts_pos hp), hzero⟩)
    rwa [List.set_set, List.set_set] at h
  · intro hall t ht
    exact hall t ((mem_profiles_set_one hvalid hp).mp ht).1

theorem Better.trans {a b c : ℕ} (hab : g.Better p a b) (hbc : g.Better p b c) : g.Better p a c :=
  fun s hs => (hbc s hs).trans (hab s hs)

theorem not_better_self (hvalid : g.Valid) (a : ℕ) : ¬g.Better p a a :=
  fun h => lt_irrefl _ (h _ hvalid.zeroDigits_mem)

theorem mem_undominated_iff (hvalid : g.Valid) (hp : p < g.counts.length) {b : ℕ} :
    b ∈ g.undominated p ↔ b < g.numStrategies p ∧ ∀ a < g.numStrategies p, ¬g.Better p a b := by
  simp only [undominated, List.mem_filter, List.mem_range, Bool.not_eq_true', ← Bool.not_eq_true,
    List.any_eq_true, Bool.and_eq_true, decide_eq_true_eq, dominates_iff hvalid hp, not_exists, not_and]
  refine and_congr_right fun _ => forall₂_congr fun a _ => ⟨fun h hbetter => ?_, fun h _ => h⟩
  refine h ?_ hbetter
  rintro rfl
  exact not_better_self hvalid a hbetter

theorem nodup_undominated (g : Game) (p : ℕ) : (g.undominated p).Nodup :=
  List.nodup_range.filter _

/-- Of some strategies one does best against the first profile, and none of them beats it. -/
theorem exists_unbeaten (hvalid : g.Valid) {P : ℕ → Prop}
    (hne : ∃ a, a < g.numStrategies p ∧ P a) :
    ∃ a, a < g.numStrategies p ∧ P a ∧ ∀ e < g.numStrategies p, P e → ¬g.Better p e a := by
  obtain ⟨a, ⟨ha, hPa⟩, hmax⟩ := Set.exists_max_image {a | a < g.numStrategies p ∧ P a}
    (fun a => g.payoff p ((zeroDigits g.counts).set p a))
    ((Set.finite_lt_nat (g.numStrategies p)).subset fun a ha => ha.1) hne
  refine ⟨a, ha, hPa, fun e he hPe hbetter => ?_⟩
  exact absurd (hbetter _ hvalid.zeroDigits_mem) (not_lt.mpr (hmax e ⟨he, hPe⟩))

theorem undominated_ne_nil (hvalid : g.Valid) (hp : p < g.counts.length) : g.undominated p ≠ [] := by
  obtain ⟨a, ha, -, hunbeaten⟩ := exists_unbeaten hvalid (p := p) (P := fun _ => True)
    ⟨0, hvalid.counts_pos hp, trivial⟩
  refine List.ne_nil_of_mem ((mem_undominated_iff hvalid hp).mpr ⟨ha, fun e he => ?_⟩)
  exact hunbeaten e he trivial

/-- **A strategy that is removed is beaten by one that is kept.** -/
theorem exists_better_undominated (hvalid : g.Valid) (hp : p < g.counts.length) {b : ℕ}
    (hb : b < g.numStrategies p) (hremoved : b ∉ g.undominated p) :
    ∃ a ∈ g.undominated p, g.Better p a b := by
  have hbeaten : ∃ a, a < g.numStrategies p ∧ g.Better p a b := by
    rw [mem_undominated_iff hvalid hp] at hremoved
    push Not at hremoved
    exact hremoved hb
  obtain ⟨a, ha, hbetter, hunbeaten⟩ := exists_unbeaten hvalid hbeaten
  refine ⟨a, (mem_undominated_iff hvalid hp).mpr ⟨ha, fun e he hea => ?_⟩, hbetter⟩
  exact hunbeaten e he (hea.trans hbetter) hea

end Game

end Equilibria
