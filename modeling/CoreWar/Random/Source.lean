/-!
# Random draws

A source gives words of thirty-two and of sixty-four bits.  A number below `n`
is drawn by multiplying a word by `n` and keeping the upper half of the product.
Words whose lower half falls behind the last whole multiple are drawn again, so
that every number is equally likely if every word is.

A list is shuffled from its end: each place takes one of the items up to it.
-/

namespace CoreWar
namespace Random

/-- Something that words can be drawn from. -/
class Source (σ : Type) where
  word32 : σ → UInt32 × σ
  word64 : σ → UInt64 × σ

/-- A computation that draws; none if it ran out of attempts. -/
abbrev Draw (σ : Type) := StateT σ Option

/-- How often a draw may be repeated. -/
def attempts : Nat := 0x4000000000000000

/-- The number below `n` that a word of some bits stands for, unless the word is
to be drawn again. -/
def scaled? (bits n word : Nat) : Option Nat :=
  let product := word * n
  let upper := product >>> bits
  let lower := product - upper <<< bits
  if lower < n <<< (bits - 1 - n.log2) then some upper else none

/-- The first result among a number of draws. -/
def retry {σ α : Type} (draw : σ → α × σ) (accept? : α → Option Nat) : Nat → Draw σ Nat
  | 0, _ => none
  | n + 1, s =>
    match draw s with
    | (x, s) =>
      match accept? x with
      | some k => some (k, s)
      | none => retry draw accept? n s

variable {σ : Type} [Source σ]

/-- A number below `n`, from words of thirty-two bits. -/
def below32 (n : Nat) : Draw σ Nat :=
  retry Source.word32 (fun x => scaled? 32 n x.toNat) attempts

/-- A number below `n`, from words of sixty-four bits. -/
def below64 (n : Nat) : Draw σ Nat :=
  retry Source.word64 (fun x => scaled? 64 n x.toNat) attempts

/-- Shuffles the first `n` places of an array. -/
def shuffleFirst {α : Type} (xs : Array α) : Nat → Draw σ (Array α)
  | 0 => pure xs
  | 1 => pure xs
  | n + 2 => do
    let i ← below32 (n + 2)
    shuffleFirst (xs.swapIfInBounds (n + 1) i) (n + 1)

/-- Shuffles a list. -/
def shuffle {α : Type} (xs : List α) : Draw σ (List α) := do
  let ys ← shuffleFirst xs.toArray xs.length
  return ys.toList

/-- An accepted word stands for a number below `n`. -/
theorem lt_of_scaled? {bits n word k : Nat} (hw : word < 1 <<< bits)
    (h : scaled? bits n word = some k) : k < n := by
  simp only [scaled?, Option.ite_none_right_eq_some, Option.some.injEq] at h
  obtain ⟨hz, rfl⟩ := h
  have hn : 0 < n := by
    rcases Nat.eq_zero_or_pos n with rfl | hn
    · simp at hz
    · exact hn
  rw [Nat.one_shiftLeft] at hw
  rw [Nat.shiftRight_eq_div_pow, Nat.div_lt_iff_lt_mul (Nat.two_pow_pos bits), Nat.mul_comm n]
  exact Nat.mul_lt_mul_of_pos_right hw hn

end Random
end CoreWar
