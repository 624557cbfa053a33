import Mathlib
import Equilibria.Payoffs
import Equilibria.Proofs.GroupedLists

/-!
# Pure profiles and their rows

The pure profiles of a game in the order of its table, as a recursion on the strategy counts, and
what the counter and the row numbers of the game have to do with them:

* `successive_eq_profiles` — the counter runs through all profiles;
* `flatIndex_profiles` — their numbers are `0, 1, 2, …`;
* `tableSize_eq`, `sum_strides` — sizes and row numbers are products of the counts and numbers of
  profiles;
* `FitsWord`, `tableSize?_eq_some_iff`, `Game.profileIndex?_eq` — when a run goes through with them and
  is not aborted;
* `Game.build_eq_ok_iff` — the games that are built;
* `Game.Valid` — a game as it is meant to be: accepted when it was built and accepted by `validate`;
* `Game.Valid.rows_eq` — the rows of such a game are those of its profiles;
* `Game.dilemma` — a small game of that kind.
-/

namespace Equilibria

/-! ### Lists place by place -/

section Places

variable {α : Type}

theorem ext_getD {s t : List ℕ} (hlength : s.length = t.length)
    (h : ∀ k < s.length, s.getD k 0 = t.getD k 0) : s = t := by
  apply List.ext_getElem hlength
  intro k hk hk'
  have heq := h k hk
  rwa [List.getD_eq_getElem _ _ hk, List.getD_eq_getElem _ _ hk'] at heq

theorem getD_set (d : α) {s : List α} {p : ℕ} (hp : p < s.length) (a : α) (k : ℕ) :
    (s.set p a).getD k d = if k = p then a else s.getD k d := by
  split_ifs with hk
  · subst hk
    rw [List.getD_eq_getElem _ _ (by simpa using hp), List.getElem_set_self]
  · simp [List.getD_eq_getElem?_getD, Ne.symm hk]

theorem getD_map_length (rows : List (List α)) (k : ℕ) :
    (rows.map List.length).getD k 0 = (rows.getD k []).length := by
  rcases Nat.lt_or_ge k rows.length with hk | hk
  · simp [List.getD_eq_getElem?_getD, hk]
  · simp [List.getD_eq_getElem?_getD, hk]

end Places

/-! ### The profiles in the order of the table -/

/-- All pure profiles for the given strategy counts, the first player's strategy varying fastest. -/
def profiles : List ℕ → List (List ℕ)
  | [] => [[]]
  | n :: ns => (profiles ns).flatMap fun s => (List.range n).map fun d => d :: s

/-- The number of a profile in the table. -/
def flatIndex : List ℕ → List ℕ → ℕ
  | n :: ns, d :: ds => d + n * flatIndex ns ds
  | _, _ => 0

theorem mem_profiles {counts s : List ℕ} : s ∈ profiles counts ↔ List.Forall₂ (· < ·) s counts := by
  induction counts generalizing s with
  | nil => simp [profiles]
  | cons n ns ih =>
    cases s with
    | nil => simp [profiles]
    | cons d ds => simp [profiles, ih, and_comm]

theorem length_of_mem_profiles {counts s : List ℕ} (hs : s ∈ profiles counts) :
    s.length = counts.length :=
  (mem_profiles.mp hs).length_eq

theorem getD_lt_of_mem_profiles {counts s : List ℕ} (hs : s ∈ profiles counts) {k : ℕ}
    (hk : k < counts.length) : s.getD k 0 < counts.getD k 0 := by
  have hk' : k < s.length := by rwa [length_of_mem_profiles hs]
  rw [List.getD_eq_getElem _ _ hk, List.getD_eq_getElem _ _ hk']
  exact (mem_profiles.mp hs).get hk' hk

theorem length_profiles (counts : List ℕ) : (profiles counts).length = counts.prod := by
  induction counts with
  | nil => rfl
  | cons n ns ih =>
    simp only [profiles, List.length_flatMap, List.length_map, List.length_range, List.map_const',
      List.sum_replicate, ih, List.prod_cons, smul_eq_mul]
    exact Nat.mul_comm _ _

theorem range_mul (n k : ℕ) :
    List.range (n * k) = (List.range k).flatMap fun q => (List.range n).map fun d => d + n * q := by
  induction k with
  | zero => rfl
  | succ k ih =>
    rw [Nat.mul_succ, List.range_add, ih, List.range_succ, List.flatMap_append,
      List.flatMap_singleton]
    simp only [Nat.add_comm]

/-- **The profiles stand in the table in their order.** -/
theorem flatIndex_profiles (counts : List ℕ) :
    (profiles counts).map (flatIndex counts) = List.range counts.prod := by
  induction counts with
  | nil => rfl
  | cons n ns ih =>
    rw [List.prod_cons, range_mul, ← ih, List.flatMap_map, profiles, List.map_flatMap]
    simp only [List.map_map, Function.comp_def, flatIndex]

theorem flatIndex_lt {counts s : List ℕ} (hs : s ∈ profiles counts) :
    flatIndex counts s < counts.prod := by
  have hmem := List.mem_map_of_mem (f := flatIndex counts) hs
  rw [flatIndex_profiles] at hmem
  exact List.mem_range.mp hmem

/-- A profile stands at its number. -/
theorem getElem?_flatIndex {counts s : List ℕ} (hs : s ∈ profiles counts) :
    (profiles counts)[flatIndex counts s]? = some s := by
  obtain ⟨i, hi, rfl⟩ := List.getElem_of_mem hs
  have hnumber : flatIndex counts (profiles counts)[i] = i := by
    have hplace := congrArg (·[i]?) (flatIndex_profiles counts)
    have hlt : i < counts.prod := by rwa [← length_profiles]
    simpa [List.getElem?_eq_getElem hi, List.getElem?_range hlt] using hplace
  rw [hnumber]
  exact List.getElem?_eq_getElem hi

/-- The counter finishes the first digit before it touches the others. -/
theorem successive_cons (n : ℕ) (ns ds : List ℕ) (r a : ℕ) {d : ℕ} (h : d + (a + 1) = n) :
    successive (n :: ns) (a + 1 + r) (d :: ds) =
      (List.range' d (a + 1)).map (fun e => e :: ds) ++
        successive (n :: ns) r (0 :: advance ds ns) := by
  induction a generalizing d with
  | zero =>
    have hlast : ¬d + 1 < n := by omega
    rw [show 0 + 1 + r = r + 1 by omega, successive, advance, if_neg hlast]
    rfl
  | succ a ih =>
    have hnext : d + 1 < n := by omega
    rw [show a + 1 + 1 + r = (a + 1 + r) + 1 by omega, successive, advance, if_pos hnext,
      ih (by omega), List.range'_succ]
    rfl

theorem successive_mul (n : ℕ) (ns : List ℕ) (k : ℕ) (ds : List ℕ) :
    successive (n :: ns) (n * k) (0 :: ds) =
      (successive ns k ds).flatMap fun s => (List.range n).map fun d => d :: s := by
  induction k generalizing ds with
  | zero => rfl
  | succ k ih =>
    rw [successive, List.flatMap_cons, ← ih]
    cases n with
    | zero => simp [successive]
    | succ n =>
      rw [Nat.mul_succ, Nat.add_comm ((n + 1) * k), successive_cons (n + 1) ns ds _ n (Nat.zero_add _),
        List.range_eq_range']

/-- **The counter runs through the profiles.** -/
theorem successive_eq_profiles (counts : List ℕ) :
    successive counts counts.prod (zeroDigits counts) = profiles counts := by
  induction counts with
  | nil => rfl
  | cons n ns ih =>
    rw [profiles, ← ih, List.prod_cons]
    exact successive_mul n ns _ _

/-! ### Sizes and row numbers -/

theorem tableSize_eq (counts : List ℕ) : tableSize counts = counts.prod := List.prod_eq_foldl.symm

/-- The row number of a profile. -/
theorem sum_strides (stride : ℕ) {counts s : List ℕ} (hs : s.length = counts.length) :
    (List.zipWith (fun d stride => d * stride) s (stridesFrom stride counts)).sum =
      stride * flatIndex counts s := by
  induction counts generalizing s stride with
  | nil => cases s <;> rfl
  | cons n ns ih =>
    cases s with
    | nil => exact absurd hs (Nat.succ_ne_zero _).symm
    | cons d ds =>
      rw [stridesFrom, List.zipWith_cons_cons, List.sum_cons, ih _ (Nat.succ.inj hs), flatIndex]
      ring

/-! ### Words -/

theorem word?_of_lt {n : ℕ} (h : n < UInt64.size) : word? n = some n := if_pos h

theorem word?_of_le {n : ℕ} (h : UInt64.size ≤ n) : word? n = none := if_neg (not_lt.mpr h)

/-- Whether no product of the counts of some first players is too large for a word. -/
def FitsWord (counts : List ℕ) : Prop := ∀ p, (counts.take p).prod < UInt64.size

theorem FitsWord.prod_lt {counts : List ℕ} (h : FitsWord counts) : counts.prod < UInt64.size := by
  have hall := h counts.length
  rwa [List.take_length] at hall

/-- If every player has a strategy, the product of all counts is the largest one. -/
theorem fitsWord_of_prod_lt {counts : List ℕ} (hpos : ∀ n ∈ counts, 0 < n)
    (h : counts.prod < UInt64.size) : FitsWord counts := by
  intro p
  have hdrop : 0 < (counts.drop p).prod :=
    Nat.pos_of_ne_zero fun hzero =>
      (hpos 0 (List.mem_of_mem_drop (List.prod_eq_zero_iff.mp hzero))).ne rfl
  calc (counts.take p).prod ≤ (counts.take p).prod * (counts.drop p).prod :=
        Nat.le_mul_of_pos_right _ hdrop
    _ = counts.prod := List.prod_take_mul_prod_drop counts p
    _ < UInt64.size := h

/-- Counts are multiplied up as long as all products on the way are words. -/
theorem foldlM_word?_eq_some_iff {size total : ℕ} (hsize : size < UInt64.size) (counts : List ℕ) :
    counts.foldlM (fun size n => word? (size * n)) size = some total ↔
      (∀ p, size * (counts.take p).prod < UInt64.size) ∧ size * counts.prod = total := by
  induction counts generalizing size with
  | nil => simpa using fun _ => hsize
  | cons n ns ih =>
    rw [List.foldlM_cons, List.prod_cons, ← Nat.mul_assoc]
    rcases Nat.lt_or_ge (size * n) UInt64.size with hn | hn
    · rw [word?_of_lt hn, Option.bind_eq_bind, Option.bind_some, ih hn]
      refine and_congr_left fun _ => ⟨fun h p => ?_, fun h p => ?_⟩
      · cases p with
        | zero => simpa using hsize
        | succ p => simpa [Nat.mul_assoc] using h p
      · simpa [Nat.mul_assoc] using h (p + 1)
    · rw [word?_of_le hn]
      simp only [Option.bind_eq_bind, Option.bind_none, reduceCtorEq, false_iff, not_and]
      exact fun h => absurd (h 1) (by simpa using hn)

/-- **When the number of rows is found, and what it is.** -/
theorem tableSize?_eq_some_iff {counts : List ℕ} {size : ℕ} :
    tableSize? counts = some size ↔ FitsWord counts ∧ counts.prod = size := by
  unfold tableSize? FitsWord
  rw [foldlM_word?_eq_some_iff (by decide)]
  simp only [Nat.one_mul]

theorem tableSize?_eq_none_iff {counts : List ℕ} : tableSize? counts = none ↔ ¬FitsWord counts := by
  rw [Option.eq_none_iff_forall_ne_some]
  simp only [ne_eq, tableSize?_eq_some_iff]
  exact ⟨fun h hfits => h _ ⟨hfits, rfl⟩, fun h _ hsome => h hsome.1⟩

/-- A product that leaves the word makes the sum leave it. -/
theorem Game.addProduct?_eq (index : ℕ) (factors : ℕ × ℕ) :
    addProduct? index factors = word? (index + factors.1 * factors.2) := by
  unfold addProduct?
  rcases Nat.lt_or_ge (factors.1 * factors.2) UInt64.size with hlt | hle
  · rw [word?_of_lt hlt]
    rfl
  · rw [word?_of_le hle, word?_of_le (hle.trans (Nat.le_add_left _ _))]
    rfl

/-- Products are added up as long as their sum is a word. -/
theorem Game.foldlM_addProduct? {index : ℕ} (hindex : index < UInt64.size) (terms : List (ℕ × ℕ)) :
    terms.foldlM addProduct? index =
      word? (index + (terms.map fun factors => factors.1 * factors.2).sum) := by
  induction terms generalizing index with
  | nil => exact (word?_of_lt hindex).symm
  | cons factors terms ih =>
    rw [List.foldlM_cons, addProduct?_eq, List.map_cons, List.sum_cons, ← Nat.add_assoc]
    rcases Nat.lt_or_ge (index + factors.1 * factors.2) UInt64.size with hlt | hle
    · rw [word?_of_lt hlt]
      exact ih hlt
    · rw [word?_of_le hle, word?_of_le (hle.trans (Nat.le_add_right _ _))]
      rfl

/-! ### Valid games -/

namespace Game

/-- **A valid game** was accepted when it was built and passes `validate`. -/
structure Valid (g : Game) : Prop where
  /-- The game was accepted when it was built. -/
  built : build g.title g.players g.payoffs = .ok g
  /-- There are players, and each can choose something. -/
  accepted : g.validate = .ok ()

variable {g : Game}

theorem validate_eq_ok_iff :
    g.validate = .ok () ↔ g.players ≠ [] ∧ ∀ p ∈ g.players, p.strategies ≠ [] := by
  unfold validate
  rw [← List.isEmpty_eq_false_iff]
  cases hplayers : g.players.isEmpty with
  | true => simp
  | false =>
    cases hfind : g.players.find? fun p => p.strategies.isEmpty with
    | some p =>
      have hmem := List.mem_of_find?_eq_some hfind
      obtain ⟨hempty, -⟩ := List.find?_eq_some_iff_append.mp hfind
      simp only [Bool.false_eq_true, if_false, reduceCtorEq, false_iff, not_and, not_forall]
      exact fun _ => ⟨p, hmem, fun hne => hne (List.isEmpty_iff.mp hempty)⟩
    | none => simpa using hfind

theorem numStrategies_pos (hvalid : g.validate = .ok ()) {k : ℕ} (hk : k < g.numPlayers) :
    0 < g.numStrategies k := by
  have hk' : k < g.players.length := hk
  have hne := (validate_eq_ok_iff.mp hvalid).2 _ (List.getElem_mem hk')
  unfold numStrategies counts
  rw [List.getD_eq_getElem _ _ (by simpa using hk'), List.getElem_map]
  exact List.length_pos_iff.mpr hne

theorem length_counts (g : Game) : g.counts.length = g.numPlayers := List.length_map _

/-- **What `build` accepts**: a row for every pure profile and an entry for every player in each, as long
as the profiles can be counted in a word. -/
theorem build_eq_ok_iff :
    build g.title g.players g.payoffs = .ok g ↔
      FitsWord g.counts ∧ g.payoffs.length = g.counts.prod ∧
        (∀ row ∈ g.payoffs, row.length = g.numPlayers) ∧ g.strides = stridesFrom 1 g.counts := by
  have hcounts : (g.players.map fun p => p.strategies.length) = g.counts := rfl
  unfold build
  simp only [hcounts]
  cases hsize : tableSize? g.counts with
  | none => simp [tableSize?_eq_none_iff.mp hsize]
  | some size =>
    obtain ⟨hfits, rfl⟩ := tableSize?_eq_some_iff.mp hsize
    simp only [hfits, true_and]
    by_cases hlength : g.payoffs.length = g.counts.prod
    · rw [if_neg (not_not.mpr hlength)]
      cases hfind : g.payoffs.find? fun row => row.length ≠ g.players.length with
      | some row =>
        obtain ⟨hwidth, -⟩ := List.find?_eq_some_iff_append.mp hfind
        have hmem := List.mem_of_find?_eq_some hfind
        simp only [reduceCtorEq, false_iff, not_and]
        intro _ hall
        exact absurd (hall row hmem) (by simpa [numPlayers] using hwidth)
      | none =>
        have hall : ∀ row ∈ g.payoffs, row.length = g.numPlayers := by
          simpa [numPlayers] using hfind
        simp only [hlength, true_and]
        constructor
        · intro h
          exact ⟨hall, (congrArg strides (Except.ok.inj h)).symm⟩
        · rintro ⟨-, hstrides⟩
          show Except.ok { g with strides := stridesFrom 1 g.counts } = Except.ok g
          rw [← hstrides]
    · rw [if_pos hlength]
      simp [hlength]

theorem build_eq_error (h : ¬FitsWord g.counts) :
    build g.title g.players g.payoffs = .error .sizeOverflow := by
  have hsize : tableSize? (g.players.map fun p => p.strategies.length) = none :=
    tableSize?_eq_none_iff.mpr h
  rw [build, hsize]

/-- The row number of a profile is its number, if the strides are those of the counts. -/
theorem profileIndex_of_strides {counts s : List ℕ} (hstrides : g.strides = stridesFrom 1 counts)
    (hs : s ∈ profiles counts) : g.profileIndex s = flatIndex counts s := by
  have hsum := sum_strides 1 (length_of_mem_profiles hs)
  rw [Nat.one_mul] at hsum
  unfold profileIndex
  rw [hstrides, ← List.sum_eq_foldl]
  exact hsum

/-- In a table that was accepted every profile has a row. -/
theorem profileIndex_lt (hbuilt : build g.title g.players g.payoffs = .ok g) {s : List ℕ}
    (hs : s ∈ profiles g.counts) : g.profileIndex s < g.payoffs.length := by
  obtain ⟨-, hlength, -, hstrides⟩ := build_eq_ok_iff.mp hbuilt
  rw [profileIndex_of_strides hstrides hs, hlength]
  exact flatIndex_lt hs

/-- **Row numbers are found just if they are words.** -/
theorem profileIndex?_eq (g : Game) (s : List ℕ) : g.profileIndex? s = word? (g.profileIndex s) := by
  unfold profileIndex? profileIndex
  rw [foldlM_addProduct? (by decide), Nat.zero_add, ← List.sum_eq_foldl, List.zip_eq_zipWith,
    List.map_zipWith]

/-- **In a table that was accepted no look-up of a profile is aborted.** -/
theorem profileIndex?_eq_some (hbuilt : build g.title g.players g.payoffs = .ok g) {s : List ℕ}
    (hs : s ∈ profiles g.counts) : g.profileIndex? s = some (g.profileIndex s) := by
  obtain ⟨hfits, hlength, -, -⟩ := build_eq_ok_iff.mp hbuilt
  rw [profileIndex?_eq, word?_of_lt]
  calc g.profileIndex s < g.payoffs.length := profileIndex_lt hbuilt hs
    _ = g.counts.prod := hlength
    _ < UInt64.size := hfits.prod_lt

namespace Valid

theorem fitsWord (h : g.Valid) : FitsWord g.counts := (build_eq_ok_iff.mp h.built).1

theorem prod_lt (h : g.Valid) : g.counts.prod < UInt64.size := h.fitsWord.prod_lt

/-- There is one row for every pure profile. -/
theorem complete (h : g.Valid) : g.payoffs.length = g.counts.prod := (build_eq_ok_iff.mp h.built).2.1

theorem widths (h : g.Valid) : ∀ row ∈ g.payoffs, row.length = g.numPlayers :=
  (build_eq_ok_iff.mp h.built).2.2.1

theorem strides_eq (h : g.Valid) : g.strides = stridesFrom 1 g.counts :=
  (build_eq_ok_iff.mp h.built).2.2.2

theorem numPlayers_pos (h : g.Valid) : 0 < g.numPlayers :=
  List.length_pos_iff.mpr (validate_eq_ok_iff.mp h.accepted).1

/-- Every profile has the row of its number. -/
theorem profileIndex_eq (h : g.Valid) {s : List ℕ} (hs : s ∈ profiles g.counts) :
    g.profileIndex s = flatIndex g.counts s :=
  profileIndex_of_strides h.strides_eq hs

/-- The rows of the table, profile by profile. -/
theorem payoffs_eq (h : g.Valid) :
    g.payoffs = (profiles g.counts).map fun s => g.payoffs.getD (g.profileIndex s) [] := by
  conv_lhs => rw [← map_getD_range g.payoffs [], h.complete, ← flatIndex_profiles, List.map_map]
  refine List.map_congr_left fun s hs => ?_
  show g.payoffs.getD (flatIndex g.counts s) [] = g.payoffs.getD (g.profileIndex s) []
  rw [h.profileIndex_eq hs]

/-- **The rows of a valid game are those of its profiles.** -/
theorem rows_eq (h : g.Valid) :
    (Payoffs.ofGame g : Payoffs ℚ).rows =
      (profiles g.counts).map fun s => (g.payoffs.getD (g.profileIndex s) [], s) := by
  have htable : (Payoffs.ofGame g : Payoffs ℚ).table = g.payoffs := by
    simp [Payoffs.ofGame, Scalar.ofRational]
  have hcounts : (Payoffs.ofGame g : Payoffs ℚ).counts = g.counts := rfl
  unfold Payoffs.rows
  rw [htable, hcounts, h.complete, successive_eq_profiles]
  conv_lhs => rw [h.payoffs_eq]
  rw [List.zip_eq_zipWith, List.zipWith_map_left, List.zipWith_self]

/-- In any domain, a row of the table is that of a profile. -/
theorem mem_profiles_of_mem_rows {α : Type} [Scalar α] (h : g.Valid) {c : List α × List ℕ}
    (hc : c ∈ (Payoffs.ofGame g : Payoffs α).rows) : c.2 ∈ profiles g.counts := by
  have htable : (Payoffs.ofGame g : Payoffs α).table.length = g.counts.prod := by
    rw [Payoffs.ofGame, List.length_map, h.complete]
  have hsuccessive := (List.of_mem_zip hc).2
  rwa [htable, show (Payoffs.ofGame g : Payoffs α).counts = g.counts from rfl,
    successive_eq_profiles] at hsuccessive

end Valid

/-- Two players of whom each does better by the second strategy, whatever the other one does. -/
def dilemma : Game :=
  ⟨"Dilemma", [⟨"Row", ["silent", "talk"]⟩, ⟨"Column", ["silent", "talk"]⟩],
    [[3, 3], [5, 0], [0, 5], [1, 1]], [1, 2]⟩

theorem valid_dilemma : dilemma.Valid where
  built := rfl
  accepted := rfl

end Game

end Equilibria
