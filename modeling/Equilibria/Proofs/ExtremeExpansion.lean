import Mathlib
import Equilibria.Proofs.Elimination
import Equilibria.Proofs.GroupedLists
import Equilibria.Proofs.TwoPlayers

/-!
# Extreme equilibria and elimination

For a sound reduction of a game of two players, expansion carries the extreme equilibria of what is
left to those of the whole game:

* `Reduction.embed` — the expansion of one mixture, as a linear map;
* `Sound.isEquilibrium_embedding_iff`, `Sound.fibre_embedding` — equilibria, and the mixtures in
  equilibrium with a given one, are carried along;
* `Sound.isExtreme_embedding_iff` — so are the extreme ones, since a linear map that is injective
  keeps extreme points;
* `Game.Carries`, `Game.Carries.joined_iff` — a map that takes the extreme equilibria of one game to
  those of another and keeps which of them share a mixture also keeps chains of these;
* `Sound.carries` — expansion is such a map.

Nothing here is about polytopes: the two games may have different ones.
-/

namespace Equilibria

open Matrix
open Finset (range)

/-- An injective linear map keeps extreme points. -/
theorem map_mem_extremePoints_iff {E F : Type*} [AddCommGroup E] [Module ℚ E] [AddCommGroup F]
    [Module ℚ F] {L : E →ₗ[ℚ] F} (hL : Function.Injective L) {S : Set E} {x : E} :
    L x ∈ (L '' S).extremePoints ℚ ↔ x ∈ S.extremePoints ℚ := by
  have hsegment : ∀ u v : E, openSegment ℚ (L u) (L v) = L '' openSegment ℚ u v :=
    fun u v => (image_openSegment ℚ L.toAffineMap u v).symm
  simp only [mem_extremePoints, Set.forall_mem_image, hsegment, hL.mem_set_image, hL.eq_iff]

namespace Reduction

/-! ### One mixture -/

/-- The mixture of the whole game that a mixture of what is left stands for. -/
def embed (K : List ℕ) (m n : ℕ) : (Fin m → ℚ) →ₗ[ℚ] (Fin n → ℚ) where
  toFun x a := ∑ i : Fin m, if K.getD i 0 = a then x i else 0
  map_add' x y := by
    funext a
    rw [Pi.add_apply, ← Finset.sum_add_distrib]
    refine Finset.sum_congr rfl fun i _ => ?_
    split_ifs
    · rfl
    · rw [add_zero]
  map_smul' q x := by
    funext a
    rw [Pi.smul_apply, smul_eq_mul, Finset.mul_sum]
    refine Finset.sum_congr rfl fun i _ => ?_
    split_ifs
    · rfl
    · exact (mul_zero q).symm

variable {K : List ℕ} {m n : ℕ}

theorem getD_ofFn {n : ℕ} (x : Fin n → ℚ) (i : Fin n) : (List.ofFn x).getD i 0 = x i := by
  rw [List.getD_eq_getElem _ _ (by simp), List.getElem_ofFn]

section Embed

variable (hnodup : K.Nodup) (hlt : ∀ a ∈ K, a < n) (hlength : K.length = m)

include hnodup hlt hlength

theorem expandRow_ofFn (x : Fin m → ℚ) : expandRow K n (List.ofFn x) = List.ofFn (embed K m n x) := by
  subst hlength
  apply List.ext_getElem
  · rw [length_expandRow, List.length_ofFn]
  · intro a ha ha'
    rw [← List.getD_eq_getElem _ 0 ha, getD_expandRow hnodup hlt, List.getElem_ofFn, Finset.sum_range]
    refine Finset.sum_congr rfl fun i _ => ?_
    rw [getD_ofFn]

/-- A strategy that is left keeps its number. -/
theorem embed_kept (x : Fin m → ℚ) (i : Fin m) : ∃ a : Fin n, embed K m n x a = x i := by
  have hi : i.val < K.length := hlength ▸ i.isLt
  have ha : K.getD i 0 < n := by
    rw [List.getD_eq_getElem _ _ hi]
    exact hlt _ (List.getElem_mem hi)
  refine ⟨⟨K.getD i 0, ha⟩, ?_⟩
  have hrow := getD_expandRow_getD hnodup hlt (List.ofFn x) hi
  rwa [expandRow_ofFn hnodup hlt hlength, getD_ofFn x i,
    getD_ofFn (embed K m n x) ⟨K.getD i 0, ha⟩] at hrow

theorem embed_injective : Function.Injective (embed K m n) := by
  rw [injective_iff_map_eq_zero]
  intro x hx
  funext i
  obtain ⟨a, ha⟩ := embed_kept hnodup hlt hlength x i
  rw [← ha, hx]
  rfl

theorem embed_mem_stdSimplex_iff {x : Fin m → ℚ} :
    embed K m n x ∈ stdSimplex ℚ (Fin n) ↔ x ∈ stdSimplex ℚ (Fin m) := by
  have hsum : ∑ a, embed K m n x a = ∑ i, x i := by
    have hwhole := sum_expandRow hnodup hlt (List.ofFn x) fun _ => 1
    simp only [mul_one, hlength] at hwhole
    rw [expandRow_ofFn hnodup hlt hlength, Finset.sum_range, Finset.sum_range] at hwhole
    simpa [List.getD_eq_getElem?_getD] using hwhole
  constructor
  · rintro ⟨hnonneg, hone⟩
    refine ⟨fun i => ?_, hsum ▸ hone⟩
    obtain ⟨a, ha⟩ := embed_kept hnodup hlt hlength x i
    rw [← ha]
    exact hnonneg a
  · rintro ⟨hnonneg, hone⟩
    refine ⟨fun a => ?_, hsum ▸ hone⟩
    show 0 ≤ ∑ i : Fin m, if K.getD i 0 = a then x i else 0
    apply Finset.sum_nonneg
    intro i _
    split_ifs
    · exact hnonneg i
    · exact le_rfl

end Embed

/-- One player's mixture of what is left as one of the whole game. -/
def embedding (g : Game) (r : Reduction) (p : ℕ) :
    (Fin (r.game.numStrategies p) → ℚ) →ₗ[ℚ] (Fin (g.numStrategies p) → ℚ) :=
  embed (r.kept.getD p []) _ _

variable {g : Game} {r : Reduction}

namespace Sound

/-! ### Equilibria -/

theorem embedding_injective (h : Sound g r) {p : ℕ} (hp : p < g.numPlayers) :
    Function.Injective (r.embedding g p) :=
  embed_injective (h.nodup_kept hp) (fun _ => h.lt_of_mem_kept hp) (h.numStrategies_eq p).symm

theorem embedding_mem_stdSimplex_iff (h : Sound g r) {p : ℕ} (hp : p < g.numPlayers)
    {x : Fin (r.game.numStrategies p) → ℚ} :
    r.embedding g p x ∈ stdSimplex ℚ (Fin (g.numStrategies p)) ↔
      x ∈ stdSimplex ℚ (Fin (r.game.numStrategies p)) :=
  embed_mem_stdSimplex_iff (h.nodup_kept hp) (fun _ => h.lt_of_mem_kept hp)
    (h.numStrategies_eq p).symm

section TwoPlayers

variable (h : Sound g r) (htwo : g.numPlayers = 2)

include h htwo

/-- Both mixtures of a profile are expanded. -/
theorem expand_pairProfile (x : Fin (r.game.numStrategies 0) → ℚ)
    (y : Fin (r.game.numStrategies 1) → ℚ) :
    r.expand (pairProfile x y) = pairProfile (r.embedding g 0 x) (r.embedding g 1 y) := by
  have hrow : ∀ p < g.numPlayers, ∀ z : Fin (r.game.numStrategies p) → ℚ,
      (pairProfile x y).player p = List.ofFn z →
        (r.expand (pairProfile x y)).probs.getD p [] = List.ofFn (r.embedding g p z) := by
    intro p hp z hz
    rw [h.getD_probs_expand _ hp, hz]
    exact expandRow_ofFn (h.nodup_kept hp) (fun _ => h.lt_of_mem_kept hp)
      (h.numStrategies_eq p).symm z
  have hfirst := hrow 0 (by omega) x rfl
  have hsecond := hrow 1 (by omega) y rfl
  have hlength : (r.expand (pairProfile x y)).probs.length = 2 := by
    rw [MixedProfile.length_probs (h.shape_expand _), htwo]
  generalize r.expand (pairProfile x y) = z at hfirst hsecond hlength
  obtain ⟨probs⟩ := z
  match probs, hlength with
  | [first, second], _ =>
    obtain rfl : first = _ := hfirst
    obtain rfl : second = _ := hsecond
    rfl

theorem players_left : r.game.numPlayers = 2 := h.numPlayers_eq.trans htwo

/-- **Equilibria are carried along.** -/
theorem isEquilibrium_embedding_iff (hg : g.Valid) {x : Fin (r.game.numStrategies 0) → ℚ}
    {y : Fin (r.game.numStrategies 1) → ℚ} :
    Bimatrix.IsEquilibrium g.rowPayoffs g.columnPayoffs (r.embedding g 0 x) (r.embedding g 1 y) ↔
      Bimatrix.IsEquilibrium r.game.rowPayoffs r.game.columnPayoffs x y := by
  have hfirst := h.embedding_mem_stdSimplex_iff (p := 0) (by omega) (x := x)
  have hsecond := h.embedding_mem_stdSimplex_iff (p := 1) (by omega) (x := y)
  have hmixtures : x ∈ stdSimplex ℚ _ → y ∈ stdSimplex ℚ _ →
      (Bimatrix.IsEquilibrium g.rowPayoffs g.columnPayoffs (r.embedding g 0 x) (r.embedding g 1 y) ↔
        Bimatrix.IsEquilibrium r.game.rowPayoffs r.game.columnPayoffs x y) := by
    intro hx hy
    have hleft := players_left h htwo
    rw [← isNash_pairProfile_iff hg htwo (hfirst.mpr hx) (hsecond.mpr hy),
      ← isNash_pairProfile_iff h.valid hleft hx hy, ← expand_pairProfile h htwo,
      h.isNash_expand hg (shape_pairProfile hleft x y) (isNormalized_pairProfile_iff.mpr ⟨hx, hy⟩)]
  constructor
  · intro heq
    exact (hmixtures (hfirst.mp heq.first_mem) (hsecond.mp heq.second_mem)).mp heq
  · intro heq
    exact (hmixtures heq.first_mem heq.second_mem).mpr heq

/-- Every equilibrium of the whole game is an expansion. -/
theorem exists_embedding (hg : g.Valid) {x : Fin (g.numStrategies 0) → ℚ}
    {y : Fin (g.numStrategies 1) → ℚ}
    (heq : Bimatrix.IsEquilibrium g.rowPayoffs g.columnPayoffs x y) :
    ∃ x' y', r.embedding g 0 x' = x ∧ r.embedding g 1 y' = y := by
  have hshape := shape_pairProfile htwo x y
  have hnormal : (pairProfile x y).isNormalized = true :=
    isNormalized_pairProfile_iff.mpr ⟨heq.first_mem, heq.second_mem⟩
  have hnash : (pairProfile x y).isNash g = true :=
    (isNash_pairProfile_iff hg htwo heq.first_mem heq.second_mem).mpr heq
  obtain ⟨x', -, y', -, hcontract⟩ := exists_eq_pairProfile (players_left h htwo)
    (h.shape_contract (pairProfile x y)) (h.isNormalized_contract hshape hnormal hnash)
  have hback := h.expand_contract hshape hnormal hnash
  rw [hcontract, expand_pairProfile h htwo, pairProfile_inj] at hback
  exact ⟨x', y', hback.1, hback.2⟩

/-- **The mixtures in equilibrium with an expansion are the expansions** of those in equilibrium with
what it expands. -/
theorem fibre_embedding (hg : g.Valid) (y : Fin (r.game.numStrategies 1) → ℚ) :
    Bimatrix.fibre g.rowPayoffs g.columnPayoffs (r.embedding g 1 y) =
      r.embedding g 0 '' Bimatrix.fibre r.game.rowPayoffs r.game.columnPayoffs y := by
  ext x
  constructor
  · intro heq
    obtain ⟨x', y', rfl, hy⟩ := exists_embedding h htwo hg heq
    obtain rfl := h.embedding_injective (by omega) hy
    exact ⟨x', (isEquilibrium_embedding_iff h htwo hg).mp heq, rfl⟩
  · rintro ⟨x', heq, rfl⟩
    exact (isEquilibrium_embedding_iff h htwo hg).mpr heq

theorem fibre_embedding_second (hg : g.Valid) (x : Fin (r.game.numStrategies 0) → ℚ) :
    Bimatrix.fibre g.columnPayoffs g.rowPayoffs (r.embedding g 0 x) =
      r.embedding g 1 '' Bimatrix.fibre r.game.columnPayoffs r.game.rowPayoffs x := by
  ext y
  constructor
  · intro heq
    obtain ⟨x', y', hx, rfl⟩ := exists_embedding h htwo hg (Bimatrix.IsEquilibrium.swap heq)
    obtain rfl := h.embedding_injective (by omega) hx
    exact ⟨y', ((isEquilibrium_embedding_iff h htwo hg).mp heq.swap).swap, rfl⟩
  · rintro ⟨y', heq, rfl⟩
    exact ((isEquilibrium_embedding_iff h htwo hg).mpr heq.swap).swap

/-- **Extreme equilibria are carried along.** -/
theorem isExtreme_embedding_iff (hg : g.Valid) {x : Fin (r.game.numStrategies 0) → ℚ}
    {y : Fin (r.game.numStrategies 1) → ℚ} :
    Bimatrix.IsExtreme g.rowPayoffs g.columnPayoffs (r.embedding g 0 x) (r.embedding g 1 y) ↔
      Bimatrix.IsExtreme r.game.rowPayoffs r.game.columnPayoffs x y := by
  have hfirst : r.embedding g 0 x ∈
      (Bimatrix.fibre g.rowPayoffs g.columnPayoffs (r.embedding g 1 y)).extremePoints ℚ ↔
        x ∈ (Bimatrix.fibre r.game.rowPayoffs r.game.columnPayoffs y).extremePoints ℚ := by
    rw [fibre_embedding h htwo hg]
    exact map_mem_extremePoints_iff (h.embedding_injective (by omega))
  have hsecond : r.embedding g 1 y ∈
      (Bimatrix.fibre g.columnPayoffs g.rowPayoffs (r.embedding g 0 x)).extremePoints ℚ ↔
        y ∈ (Bimatrix.fibre r.game.columnPayoffs r.game.rowPayoffs x).extremePoints ℚ := by
    rw [fibre_embedding_second h htwo hg]
    exact map_mem_extremePoints_iff (h.embedding_injective (by omega))
  constructor
  · rintro ⟨heq, hx, hy⟩
    exact ⟨(isEquilibrium_embedding_iff h htwo hg).mp heq, hfirst.mp hx, hsecond.mp hy⟩
  · rintro ⟨heq, hx, hy⟩
    exact ⟨(isEquilibrium_embedding_iff h htwo hg).mpr heq, hfirst.mpr hx, hsecond.mpr hy⟩

end TwoPlayers

end Sound

end Reduction

/-! ### Extreme equilibria as profiles -/

/-- Whether a profile is an extreme equilibrium of a game of two players. -/
def Game.Extreme (g : Game) (z : MixedProfile ℚ) : Prop :=
  ∃ x y, z = pairProfile x y ∧ Bimatrix.IsExtreme g.rowPayoffs g.columnPayoffs x y

/-- Whether two extreme equilibria share a player's mixture. -/
def Game.Touching (g : Game) (z w : MixedProfile ℚ) : Prop :=
  g.Extreme z ∧ g.Extreme w ∧ (z.player 0 = w.player 0 ∨ z.player 1 = w.player 1)

/-- Whether a chain of extreme equilibria, each two of which share a mixture, leads from one profile
to another. -/
def Game.Joined (g : Game) : MixedProfile ℚ → MixedProfile ℚ → Prop :=
  Relation.ReflTransGen g.Touching

theorem player_pairProfile {m n : ℕ} (x : Fin m → ℚ) (y : Fin n → ℚ) :
    (pairProfile x y).player 0 = List.ofFn x ∧ (pairProfile x y).player 1 = List.ofFn y := ⟨rfl, rfl⟩

theorem Game.Extreme.eq_of_players {g : Game} {z w : MixedProfile ℚ} (hz : g.Extreme z)
    (hw : g.Extreme w) (hsame : ∀ p : Fin 2, z.player p = w.player p) : z = w := by
  obtain ⟨x, y, rfl, -⟩ := hz
  obtain ⟨x', y', rfl, -⟩ := hw
  exact pairProfile_inj.mpr ⟨List.ofFn_injective (hsame 0), List.ofFn_injective (hsame 1)⟩

/-! ### Corresponding games -/

/-- **A correspondence of games**: the extreme equilibria of `g` are the images of those of `g'`, and
images share the mixture of player `σ p` exactly when the equilibria share that of player `p`. -/
structure Game.Carries (g' g : Game) (σ : Equiv.Perm (Fin 2))
    (φ : MixedProfile ℚ → MixedProfile ℚ) : Prop where
  extreme_iff : ∀ z, g.Extreme z ↔ ∃ w, g'.Extreme w ∧ φ w = z
  player_iff : ∀ z w, g'.Extreme z → g'.Extreme w → ∀ p : Fin 2,
    (φ z).player (σ p) = (φ w).player (σ p) ↔ z.player p = w.player p

namespace Game.Carries

variable {g g' : Game} {σ : Equiv.Perm (Fin 2)} {φ : MixedProfile ℚ → MixedProfile ℚ}
  {z w : MixedProfile ℚ} (h : Carries g' g σ φ)

include h

theorem extreme (hz : g'.Extreme z) : g.Extreme (φ z) := (h.extreme_iff _).mpr ⟨z, hz, rfl⟩

theorem inj (hz : g'.Extreme z) (hw : g'.Extreme w) (hsame : φ z = φ w) : z = w :=
  hz.eq_of_players hw fun p => (h.player_iff z w hz hw p).mp (by rw [hsame])

theorem touching_iff (hz : g'.Extreme z) (hw : g'.Extreme w) :
    g.Touching (φ z) (φ w) ↔ g'.Touching z w := by
  have hshared : ∀ v v' : MixedProfile ℚ, (v.player 0 = v'.player 0 ∨ v.player 1 = v'.player 1) ↔
      ∃ p : Fin 2, v.player p = v'.player p :=
    fun v v' => (Fin.exists_fin_two (p := fun p => v.player p = v'.player p)).symm
  unfold Touching
  rw [and_iff_right hz, and_iff_right hw, and_iff_right (h.extreme hz),
    and_iff_right (h.extreme hw), hshared, hshared, ← σ.exists_congr_right]
  exact exists_congr fun p => h.player_iff z w hz hw p

/-- **Chains are carried along.** -/
theorem joined_iff (hz : g'.Extreme z) (hw : g'.Extreme w) :
    g.Joined (φ z) (φ w) ↔ g'.Joined z w :=
  reflTransGen_map_iff (P := g'.Extreme) (fun _ _ => h.inj) (fun _ _ => h.touching_iff)
    (fun _ _ hstep => ⟨hstep.1, hstep.2.1⟩) (fun z _ hstep => (h.extreme_iff z).mp hstep.1) hz hw

end Game.Carries

namespace Reduction.Sound

variable {g : Game} {r : Reduction} (h : Sound g r) (hg : g.Valid) (htwo : g.numPlayers = 2)

include h hg htwo

/-- **The extreme equilibria of the whole game are the expansions** of those of what is left. -/
theorem extreme_iff {z : MixedProfile ℚ} :
    g.Extreme z ↔ ∃ w, r.game.Extreme w ∧ r.expand w = z := by
  constructor
  · rintro ⟨x, y, rfl, hxy⟩
    obtain ⟨x', y', rfl, rfl⟩ := exists_embedding h htwo hg hxy.equilibrium
    exact ⟨pairProfile x' y', ⟨x', y', rfl, (isExtreme_embedding_iff h htwo hg).mp hxy⟩,
      expand_pairProfile h htwo x' y'⟩
  · rintro ⟨_, ⟨x', y', rfl, hxy⟩, rfl⟩
    exact ⟨_, _, expand_pairProfile h htwo x' y', (isExtreme_embedding_iff h htwo hg).mpr hxy⟩

/-- **What a sound reduction leaves corresponds to the whole game.** -/
theorem carries : r.game.Carries g 1 r.expand where
  extreme_iff _ := extreme_iff h hg htwo
  player_iff := by
    rintro _ _ ⟨x, y, rfl, -⟩ ⟨x', y', rfl, -⟩
    rw [expand_pairProfile h htwo, expand_pairProfile h htwo]
    refine Fin.forall_fin_two.mpr ⟨?_, ?_⟩
    · exact (List.ofFn_injective.eq_iff.trans
        (h.embedding_injective (p := 0) (by omega)).eq_iff).trans List.ofFn_injective.eq_iff.symm
    · exact (List.ofFn_injective.eq_iff.trans
        (h.embedding_injective (p := 1) (by omega)).eq_iff).trans List.ofFn_injective.eq_iff.symm

end Reduction.Sound

end Equilibria
