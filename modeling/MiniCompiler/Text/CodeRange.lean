/-!
# Ranges of code points

A class of characters is kept as a list of closed ranges of code points in increasing order.
Membership stops at the first range that starts beyond the character. Tables are written as the lengths
of the runs of code points that are outside and inside of the class.
-/

namespace MiniCompiler.Text

/-- A closed range of code points, first and last. -/
abbrev CodeRange := Nat × Nat

/-- The ranges of a class, by the lengths of the runs outside and inside of it, in turns from `n` on. -/
def CodeRange.ofRuns (n : Nat) : List Nat → List CodeRange
  | outside :: inside :: runs =>
    let first := n + outside
    (first, first + inside - 1) :: CodeRange.ofRuns (first + inside) runs
  | _ => []

/-- Does one of the ranges, which are in increasing order, hold the code point `n`? -/
def CodeRange.anyHolds : List CodeRange → Nat → Bool
  | [], _ => false
  | (first, last) :: ranges, n =>
    if n < first then false else if n ≤ last then true else CodeRange.anyHolds ranges n

/-- What `anyHolds` finds is in one of the ranges. -/
theorem CodeRange.exists_of_anyHolds {ranges : List CodeRange} {n : Nat}
    (h : CodeRange.anyHolds ranges n = true) : ∃ r ∈ ranges, r.1 ≤ n ∧ n ≤ r.2 := by
  induction ranges with
  | nil => simp [anyHolds] at h
  | cons r ranges ih =>
    obtain ⟨first, last⟩ := r
    rw [anyHolds] at h
    split at h
    next => contradiction
    next hfirst =>
      split at h
      next hlast => exact ⟨(first, last), by simp, by simp only; omega, hlast⟩
      next =>
        obtain ⟨r, hr, hn⟩ := ih h
        exact ⟨r, by simp [hr], hn⟩

end MiniCompiler.Text
