import Mathlib
import Equilibria.Proofs.TableSizes

/-!
# Numbers of pure profiles

A pure profile is a number in mixed radix.  It is read off an index by repeated division, turned into an
index by the strides, and counted on by carries:

* `Game.advance_digitsOfIndex` — the counter takes the digits of an index to those of the next one;
* `Game.flatIndex_digitsOfIndex`, `Game.digitsOfIndex_flatIndex` — digits and indices undo each other;
* `Game.Numbered`, `Game.Obtained.numbered` — on every game the three agree, and number its rows;
* `Game.matrix_bimatrix` — a game of two matrices shows these matrices;
* `Game.numbered_spec` — both.
-/

namespace Equilibria

namespace Game

variable {g : Game} {radix counts s : List ℕ}

/-! ### Digits and carries -/

theorem digitsOfIndex_zero (radix : List ℕ) : digitsOfIndex 0 radix = zeroDigits radix := by
  induction radix with
  | nil => rfl
  | cons n ns ih =>
    rw [digitsOfIndex, Nat.zero_mod, Nat.zero_div, ih]
    rfl

/-- **The counter adds one.**  A digit that reaches its radix becomes zero and carries. -/
theorem advance_digitsOfIndex (hpos : ∀ n ∈ radix, 0 < n) (i : ℕ) :
    advance (digitsOfIndex i radix) radix = digitsOfIndex (i + 1) radix := by
  induction radix generalizing i with
  | nil => rfl
  | cons n ns ih =>
    obtain ⟨hn, hns⟩ := List.forall_mem_cons.mp hpos
    have hdivision : i % n + n * (i / n) = i := Nat.mod_add_div i n
    have hdigit : i % n < n := Nat.mod_lt i hn
    rw [digitsOfIndex, digitsOfIndex, advance]
    split_ifs with hlt
    · -- no carry
      obtain ⟨hquotient, hremainder⟩ :=
        (Nat.div_mod_unique hn).mpr ⟨show i % n + 1 + n * (i / n) = i + 1 by omega, hlt⟩
      rw [hquotient, hremainder]
    · obtain ⟨hquotient, hremainder⟩ :=
        (Nat.div_mod_unique hn).mpr
          ⟨show 0 + n * (i / n + 1) = i + 1 by rw [Nat.mul_succ]; omega, hn⟩
      rw [hquotient, hremainder, ih hns]

/-- Counting from zero. -/
theorem iterate_advance (hpos : ∀ n ∈ radix, 0 < n) (i : ℕ) :
    (fun digits => advance digits radix)^[i] (zeroDigits radix) = digitsOfIndex i radix := by
  induction i with
  | zero => exact (digitsOfIndex_zero radix).symm
  | succ i ih => rw [Function.iterate_succ_apply', ih, advance_digitsOfIndex hpos]

/-- After all numbers the counter is back at zero. -/
theorem digitsOfIndex_prod (hpos : ∀ n ∈ radix, 0 < n) :
    digitsOfIndex radix.prod radix = zeroDigits radix := by
  induction radix with
  | nil => rfl
  | cons n ns ih =>
    obtain ⟨hn, hns⟩ := List.forall_mem_cons.mp hpos
    rw [digitsOfIndex, List.prod_cons, Nat.mul_mod_right, Nat.mul_div_cancel_left _ hn, ih hns]
    rfl

theorem digitsOfIndex_mem_profiles (hpos : ∀ n ∈ radix, 0 < n) (i : ℕ) :
    digitsOfIndex i radix ∈ profiles radix := by
  rw [mem_profiles]
  induction radix generalizing i with
  | nil => exact .nil
  | cons n ns ih =>
    obtain ⟨hn, hns⟩ := List.forall_mem_cons.mp hpos
    exact .cons (Nat.mod_lt i hn) (ih hns _)

theorem flatIndex_digitsOfIndex (i : ℕ) (radix : List ℕ) :
    flatIndex radix (digitsOfIndex i radix) = i % radix.prod := by
  induction radix generalizing i with
  | nil => exact (Nat.mod_one i).symm
  | cons n ns ih => rw [digitsOfIndex, flatIndex, ih, List.prod_cons, Nat.mod_mul]

theorem digitsOfIndex_flatIndex (hs : s ∈ profiles radix) :
    digitsOfIndex (flatIndex radix s) radix = s := by
  rw [mem_profiles] at hs
  induction hs with
  | nil => rfl
  | @cons d n ds ns hd _ ih =>
    have hn : 0 < n := (Nat.zero_le d).trans_lt hd
    rw [flatIndex, digitsOfIndex, Nat.add_mul_mod_self_left, Nat.mod_eq_of_lt hd,
      Nat.add_mul_div_left _ _ hn, Nat.div_eq_of_lt hd, Nat.zero_add, ih]

/-! ### Games -/

/-- The pure profiles: a strategy of every player. -/
def inRange (g : Game) : Set (List ℕ) := {s | List.Forall₂ (· < ·) s g.counts}

theorem mem_inRange : s ∈ g.inRange ↔ s ∈ profiles g.counts := mem_profiles.symm

/-- **The ways of numbering agree.**  Rows and profiles are in one-to-one correspondence, and the counter
runs through the profiles in the order of the rows. -/
structure Numbered (g : Game) : Prop where
  profileIndex : Set.BijOn g.profileIndex g.inRange {i | i < g.numProfiles}
  /-- No index leaves the word. -/
  found : ∀ s ∈ g.inRange, g.profileIndex? s = some (g.profileIndex s)
  decode : Set.BijOn g.decode {i | i < g.numProfiles} g.inRange
  inverse : Set.InvOn g.decode g.profileIndex g.inRange {i | i < g.numProfiles}
  /-- What is counted from zero. -/
  counted : ∀ i < g.numProfiles,
    (fun digits => advance digits g.counts)^[i] (zeroDigits g.counts) = g.decode i
  /-- After the last profile comes the first one. -/
  returns : (fun digits => advance digits g.counts)^[g.numProfiles] (zeroDigits g.counts) =
    zeroDigits g.counts

/-- **Every game is numbered.** -/
theorem Obtained.numbered (h : g.Obtained) (hpos : ∀ n ∈ g.counts, 0 < n) : g.Numbered := by
  obtain ⟨-, hlength, -, hstrides⟩ := build_eq_ok_iff.mp h.build_eq
  have hrows : g.numProfiles = g.counts.prod := hlength
  have hindex : ∀ s ∈ g.inRange, g.profileIndex s = flatIndex g.counts s := fun s hs =>
    profileIndex_of_strides hstrides (mem_inRange.mp hs)
  have htoRows : Set.MapsTo g.profileIndex g.inRange {i | i < g.numProfiles} := by
    intro s hs
    show g.profileIndex s < g.numProfiles
    rw [hindex s hs, hrows]
    exact flatIndex_lt (mem_inRange.mp hs)
  have htoProfiles : Set.MapsTo g.decode {i | i < g.numProfiles} g.inRange :=
    fun i _ => mem_inRange.mpr (digitsOfIndex_mem_profiles hpos i)
  have hinverse : Set.InvOn g.decode g.profileIndex g.inRange {i | i < g.numProfiles} := by
    refine ⟨fun s hs => ?_, fun i hi => ?_⟩
    · rw [hindex s hs]
      exact digitsOfIndex_flatIndex (mem_inRange.mp hs)
    · rw [hindex _ (htoProfiles hi), Game.decode, flatIndex_digitsOfIndex, ← hrows]
      exact Nat.mod_eq_of_lt hi
  refine ⟨hinverse.bijOn htoRows htoProfiles,
    fun s hs => profileIndex?_eq_some h.build_eq (mem_inRange.mp hs),
    hinverse.symm.bijOn htoProfiles htoRows, hinverse, fun i _ => iterate_advance hpos i, ?_⟩
  rw [iterate_advance hpos, hrows, digitsOfIndex_prod hpos]

/-- The first player's strategy varies fastest. -/
example : (List.range 4).map dilemma.decode = [[0, 0], [1, 0], [0, 1], [1, 1]] := by decide

/-! ### Two matrices -/

/-- A table written down profile by profile pays at a profile what is written there. -/
theorem payoff_of_rows {row : List ℕ → List ℚ} (hstrides : g.strides = stridesFrom 1 counts)
    (hpayoffs : g.payoffs = (profiles counts).map row) (hs : s ∈ profiles counts) (p : ℕ) :
    g.payoff p s = (row s).getD p 0 := by
  have hrow : g.payoffs[g.profileIndex s]? = some (row s) := by
    rw [profileIndex_of_strides hstrides hs, hpayoffs, List.getElem?_map, getElem?_flatIndex hs]
    rfl
  have hlookup : g.payoffs.getD (g.profileIndex s) [] = row s := by
    rw [List.getD_eq_getElem?_getD, hrow, Option.getD_some]
  exact congrArg (List.getD · p 0) hlookup

/-- A matrix of the given numbers of rows and columns. -/
structure Shaped (rows columns : ℕ) (m : List (List ℚ)) : Prop where
  length : m.length = rows
  widths : ∀ row ∈ m, row.length = columns

theorem Shaped.entries_eq {rows columns : ℕ} {m : List (List ℚ)} (h : Shaped rows columns m) :
    ((List.range rows).map fun r => (List.range columns).map fun c => entry m r c) = m := by
  obtain ⟨rfl, hwidths⟩ := h
  conv_rhs => rw [← map_getD_range m []]
  refine List.map_congr_left fun r hr => ?_
  have hmem : m.getD r [] ∈ m := by
    rw [List.getD_eq_getElem _ _ (List.mem_range.mp hr)]
    exact List.getElem_mem _
  rw [← hwidths _ hmem]
  exact map_getD_range (m.getD r []) 0

/-- The payoffs of two players at a profile, from a matrix of each. -/
def entries (a b : List (List ℚ)) (s : List ℕ) : List ℚ :=
  [entry a (s.getD 0 0) (s.getD 1 0), entry b (s.getD 0 0) (s.getD 1 0)]

/-- The table of two matrices is written down profile by profile. -/
theorem bimatrix_eq_build (title : String) {rows columns : ℕ} {a b : List (List ℚ)}
    (ha : Shaped rows columns a) (hb : Shaped rows columns b) (hrows : 0 < rows) :
    Game.bimatrix title a b =
      build title [Player.numbered "Player 1" rows, Player.numbered "Player 2" columns]
        ((profiles [rows, columns]).map (entries a b)) := by
  have hcolumns : (a.getD 0 []).length = columns := by
    rw [List.getD_eq_getElem _ _ (by rwa [ha.length])]
    exact ha.widths _ (List.getElem_mem _)
  have hall : ((a ++ b).all fun row => row.length = columns) = true := by
    simpa [or_imp, forall_and] using ⟨ha.widths, hb.widths⟩
  have htable : ((profiles [rows, columns]).map (entries a b)) =
      (List.range columns).flatMap fun c =>
        (List.range rows).map fun r => [entry a r c, entry b r c] := by
    simp [profiles, entries, List.flatMap_map, List.map_flatMap, Function.comp_def]
  have hshape : ¬(b.length ≠ a.length ∨ ¬((a ++ b).all fun row => row.length = columns) = true) := by
    rw [ha.length, hb.length, hall]
    simp
  rw [htable, Game.bimatrix, hcolumns, if_neg hshape, ha.length]

theorem fitsWord_pair {rows columns : ℕ} (hcolumns : 0 < columns) :
    FitsWord [rows, columns] ↔ rows * columns < UInt64.size := by
  have hprod : [rows, columns].prod = rows * columns := by simp
  constructor
  · intro h
    exact hprod ▸ h.prod_lt
  · intro h p
    match p with
    | 0 => exact (by decide : 1 < UInt64.size)
    | 1 =>
      have hle : rows ≤ rows * columns := Nat.le_mul_of_pos_right _ hcolumns
      simpa using hle.trans_lt h
    | p + 2 => simpa using h

/-- **A game of two matrices shows these matrices.**  It is not made if its profiles cannot be counted in
a word. -/
theorem matrix_bimatrix (title : String) {rows columns : ℕ} {a b : List (List ℚ)}
    (ha : Shaped rows columns a) (hb : Shaped rows columns b) (hrows : 0 < rows)
    (hcolumns : 0 < columns) :
    (rows * columns < UInt64.size →
      ∃ g, Game.bimatrix title a b = .ok g ∧ g.matrix 0 = a ∧ g.matrix 1 = b) ∧
    (UInt64.size ≤ rows * columns → Game.bimatrix title a b = .error .sizeOverflow) := by
  let g : Game :=
    ⟨title, [Player.numbered "Player 1" rows, Player.numbered "Player 2" columns],
      (profiles [rows, columns]).map (entries a b), stridesFrom 1 [rows, columns]⟩
  have hcounts : g.counts = [rows, columns] := by simp [g, counts, Player.numbered]
  have hbimatrix : Game.bimatrix title a b = build g.title g.players g.payoffs :=
    bimatrix_eq_build title ha hb hrows
  have hpayoff : ∀ p, ∀ r < rows, ∀ c < columns, g.payoff p [r, c] = (entries a b [r, c]).getD p 0 :=
    fun p r hr c hc => payoff_of_rows rfl rfl (mem_profiles.mpr (.cons hr (.cons hc .nil))) p
  have hmatrix : ∀ p, g.matrix p = (List.range rows).map fun r => (List.range columns).map fun c =>
      (entries a b [r, c]).getD p 0 := by
    intro p
    unfold matrix numStrategies
    rw [hcounts]
    refine List.map_congr_left fun r hr => List.map_congr_left fun c hc => ?_
    exact hpayoff p r (List.mem_range.mp hr) c (List.mem_range.mp hc)
  refine ⟨fun hfits => ⟨g, ?_, (hmatrix 0).trans ha.entries_eq, (hmatrix 1).trans hb.entries_eq⟩,
    fun hlarge => ?_⟩
  · rw [hbimatrix, build_eq_ok_iff, hcounts]
    refine ⟨(fitsWord_pair hcolumns).mpr hfits, ?_, List.forall_mem_map.mpr fun _ _ => rfl, rfl⟩
    show (List.map _ (profiles _)).length = _
    rw [List.length_map, length_profiles]
  · rw [hbimatrix]
    refine build_eq_error ?_
    rw [hcounts, fitsWord_pair hcolumns]
    exact not_lt.mpr hlarge

/-! ### Games and matrices -/

/-- **Numbers, profiles and matrices.**  On every game whose players have strategies the numbers below the
number of rows stand for the pure profiles, in the order of the counter; and a game of two matrices, if
it is made, shows these matrices. -/
theorem numbered_spec :
    (∀ g : Game, g.Obtained → (∀ n ∈ g.counts, 0 < n) → g.Numbered) ∧
    ∀ (title : String) (rows columns : ℕ) (a b : List (List ℚ)), Shaped rows columns a →
      Shaped rows columns b → 0 < rows → 0 < columns →
        (rows * columns < UInt64.size →
          ∃ g, Game.bimatrix title a b = .ok g ∧ g.matrix 0 = a ∧ g.matrix 1 = b) ∧
        (UInt64.size ≤ rows * columns → Game.bimatrix title a b = .error .sizeOverflow) :=
  ⟨fun _ h hpos => h.numbered hpos,
    fun title _ _ _ _ ha hb hrows hcolumns => matrix_bimatrix title ha hb hrows hcolumns⟩

/-- The dilemma, and a game of two matrices with two rows and three columns. -/
theorem numbered_spec_dilemma :
    dilemma.Obtained ∧ (∀ n ∈ dilemma.counts, 0 < n) ∧ dilemma.Numbered ∧
      Shaped 2 3 [[1, 2, 3], [4, 5, 6]] ∧ Shaped 2 3 [[0, 0, 0], [0, 0, 1]] ∧
      ∃ g, Game.bimatrix "" [[1, 2, 3], [4, 5, 6]] [[0, 0, 0], [0, 0, 1]] = .ok g ∧
        g.matrix 0 = [[1, 2, 3], [4, 5, 6]] ∧ g.matrix 1 = [[0, 0, 0], [0, 0, 1]] := by
  have hobtained : dilemma.Obtained := .built valid_dilemma.built
  have hpos : ∀ n ∈ dilemma.counts, 0 < n := by decide
  have ha : Shaped 2 3 [[1, 2, 3], [4, 5, 6]] := ⟨rfl, by decide⟩
  have hb : Shaped 2 3 [[0, 0, 0], [0, 0, 1]] := ⟨rfl, by decide⟩
  exact ⟨hobtained, hpos, numbered_spec.1 dilemma hobtained hpos, ha, hb,
    (numbered_spec.2 "" 2 3 _ _ ha hb Nat.two_pos (by decide)).1 (by decide)⟩

end Game

end Equilibria
