/-!
# Long iterations

A step function is iterated until it gives a result, for at most `2 ^ rounds - 1` steps. Round `k`
takes up to `2 ^ k` steps by halving, so that the number of rounds is a bound on the logarithm of
the number of steps: the recursion stays shallow and structural although the iteration may be long.
-/

namespace BacktrackRegex.Search

/-- Takes `2 ^ k` steps, fewer if one of them gives a result. -/
@[specialize] def stepsFor {σ ρ : Type} (step : σ → σ ⊕ ρ) : Nat → σ → σ ⊕ ρ
  | 0, s => step s
  | k + 1, s =>
    match stepsFor step k s with
    | .inl s => stepsFor step k s
    | .inr r => .inr r

/-- Takes rounds of `2 ^ k`, `2 ^ (k + 1)`, … steps until one of them gives a result. -/
@[specialize] def roundsFrom {σ ρ : Type} (step : σ → σ ⊕ ρ) : Nat → Nat → σ → σ ⊕ ρ
  | 0, _, s => .inl s
  | rounds + 1, k, s =>
    match stepsFor step k s with
    | .inl s => roundsFrom step rounds (k + 1) s
    | .inr r => .inr r

/-- Iterates a step function for at most `2 ^ rounds - 1` steps. -/
@[inline] def iterate {σ ρ : Type} (step : σ → σ ⊕ ρ) (rounds : Nat) (s : σ) : σ ⊕ ρ :=
  roundsFrom step rounds 0 s

end BacktrackRegex.Search
