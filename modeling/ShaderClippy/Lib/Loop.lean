/-
  ShaderClippy.Lib.Loop

  **`while` LOOPS WITH FUEL, AND THE RULE TO LEAVE THEM.**

  `loop step fuel s` turns a loop body into a function: the body either asks
  for another turn with a new state or is done with a result; it may itself
  run out of fuel (`none`). The one rule about loops is `loop_spec`: a body
  that keeps an invariant and decreases a measure terminates, with any fuel
  above the measure, in a result the invariant promises.
-/

namespace Loop

variable {σ ρ : Type}

/-- What one turn of a loop body comes to. -/
inductive Turn (σ ρ : Type) where
  | more (s : σ)
  | done (r : ρ)

/-- Run the body until it is done; `none` when the fuel runs out. -/
def loop (step : σ → Option (Turn σ ρ)) : Nat → σ → Option ρ
  | 0, _ => none
  | fuel + 1, s =>
      match step s with
      | none => none
      | some (.done r) => some r
      | some (.more s') => loop step fuel s'

/-- One turn keeps `Inv` and decreases `μ`, or ends in `Post`. -/
def TurnOk (Inv : σ → Prop) (μ : σ → Nat) (Post : ρ → Prop) (s : σ) : Option (Turn σ ρ) → Prop
  | none => False
  | some (.more s') => Inv s' ∧ μ s' < μ s
  | some (.done r) => Post r

/-- **The loop rule.** -/
theorem loop_spec {step : σ → Option (Turn σ ρ)} {Inv : σ → Prop} {μ : σ → Nat}
    {Post : ρ → Prop} (hstep : ∀ s, Inv s → TurnOk Inv μ Post s (step s)) :
    ∀ (fuel : Nat) (s : σ), Inv s → μ s < fuel → ∃ r, loop step fuel s = some r ∧ Post r := by
  intro fuel
  induction fuel with
  | zero => intro s _ hμ; exact absurd hμ (Nat.not_lt_zero _)
  | succ fuel ih =>
      intro s hs hμ
      have hturn := hstep s hs
      rw [loop]
      cases hst : step s with
      | none =>
          rw [hst] at hturn
          exact absurd hturn id
      | some t =>
          rw [hst] at hturn
          cases t with
          | done r => exact ⟨r, rfl, hturn⟩
          | more s' =>
              obtain ⟨hinv, hlt⟩ := hturn
              exact ih s' hinv (by omega)

end Loop
