import Mathlib

/-!
# Reversible steps

A walk whose steps can be turned around meets no state twice:

* `Reversible` — steps that are determined by where they start, and that a turn takes back;
* `Walk` — the states met after a number of steps;
* `Reversible.walk_injective` — a walk from a state that no step leads to meets no state again;
* `Reversible.walk_ne_turn` — and it meets no state that it has met turned.
-/

namespace Equilibria

/-- Steps that lead on in one way at most, and that are taken back from a turned state. -/
structure Reversible {Q : Type*} (step : Q → Q → Prop) (turn : Q → Q) : Prop where
  functional : ∀ {a b c}, step a b → step a c → b = c
  back : ∀ {a b}, step a b → step (turn b) (turn a)
  turn_turn : ∀ {a b}, step a b → turn (turn a) = a ∧ turn (turn b) = b

/-- The states that are met after a number of steps. -/
inductive Walk {Q : Type*} (step : Q → Q → Prop) (start : Q) : ℕ → Q → Prop where
  | start : Walk step start 0 start
  | next {k : ℕ} {a b : Q} (h : Walk step start k a) (hstep : step a b) : Walk step start (k + 1) b

namespace Reversible

variable {Q : Type*} {step : Q → Q → Prop} {turn : Q → Q} {start a b : Q} {i j k : ℕ}

theorem walk_unique (h : Reversible step turn) (ha : Walk step start k a)
    (hb : Walk step start k b) : a = b := by
  induction ha generalizing b with
  | start =>
    cases hb
    rfl
  | next _ hstep ih =>
    cases hb with
    | next hb hstep' =>
      obtain rfl := ih hb
      exact h.functional hstep hstep'

/-- **No state is met twice**: taken back, two ways to one state would lead to the start from another
state. -/
theorem walk_injective (h : Reversible step turn) (hstart : ∀ b, ¬step (turn start) b)
    (hi : Walk step start i a) (hj : Walk step start j a) : i = j := by
  induction hi generalizing j with
  | start =>
    cases hj with
    | start => rfl
    | next _ hstep => exact absurd (h.back hstep) (hstart _)
  | next _ hstep ih =>
    cases hj with
    | start => exact absurd (h.back hstep) (hstart _)
    | next hj hstep' =>
      have hturned := h.functional (h.back hstep) (h.back hstep')
      have hsame := congrArg turn hturned
      rw [(h.turn_turn hstep).1, (h.turn_turn hstep').1] at hsame
      subst hsame
      rw [ih hj]

/-- **No state is met that was met turned**: from the two, the walk would close in on a state that is
its own turn, or on a step that is its own turn. -/
theorem walk_ne_turn (h : Reversible step turn) (hne : ∀ a, turn a ≠ a)
    (hturn : ∀ a, ¬step a (turn a)) (hstart : turn (turn start) = start)
    (hi : Walk step start i (turn b)) (hj : Walk step start j b) : False := by
  have hback : ∀ {k a}, Walk step start k a → turn (turn a) = a := by
    intro k a hk
    cases hk with
    | start => exact hstart
    | next _ hstep => exact (h.turn_turn hstep).2
  have hclose : ∀ d i b, Walk step start i (turn b) → Walk step start (i + d) b → False := by
    intro d
    induction d using Nat.twoStepInduction with
    | zero => exact fun i b hi hj => hne b (h.walk_unique hi hj)
    | one =>
      intro i b hi hj
      have hrev := hback hj
      cases hj with
      | next hj hstep =>
        obtain rfl := h.walk_unique hi hj
        exact hturn (turn b) (by rwa [hrev])
    | more d ih _ =>
      intro i b hi hj
      cases hj with
      | next hj hstep =>
        refine ih (i + 1) _ (hi.next (h.back hstep)) ?_
        rwa [Nat.add_right_comm]
  cases le_total i j with
  | inl hle =>
    obtain ⟨d, rfl⟩ := Nat.exists_eq_add_of_le hle
    exact hclose d i b hi hj
  | inr hle =>
    obtain ⟨d, rfl⟩ := Nat.exists_eq_add_of_le hle
    exact hclose d j (turn b) (by rwa [hback hj]) hi

end Reversible

end Equilibria
