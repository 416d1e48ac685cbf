/-!
# Words of 64 bits

Sizes, offsets and displacements are integers. Where they leave the range of a signed 64-bit word
they wrap around: `wrap` is the signed word that agrees with an integer modulo 2^64. `alignUp`
rounds up to a multiple in that arithmetic.
-/

namespace MiniCompiler

/-- The number of words, 2^64. -/
def wordCount : Nat := 0x10000000000000000

/-- The first integer above the signed words, 2^63. -/
def wordBound : Int := 0x8000000000000000

/-- The first integer above the signed words of half the size, 2^31. -/
def halfBound : Int := 0x80000000

/-- The signed 64-bit word that agrees with `n` modulo 2^64. -/
def wrap (n : Int) : Int := n.bmod wordCount

theorem wrap_of_mem_range {n : Int} (hlo : -wordBound ≤ n) (hhi : n < wordBound) : wrap n = n := by
  unfold wordBound at hlo hhi
  rw [wrap, wordCount, Int.bmod_eq_of_le]
  all_goals omega

theorem wrap_lt (n : Int) : wrap n < wordBound := by
  have := @Int.bmod_lt n wordCount (by decide)
  unfold wordCount at this
  unfold wrap wordCount wordBound
  omega

theorem le_wrap (n : Int) : -wordBound ≤ wrap n := by
  have := @Int.le_bmod n wordCount (by decide)
  unfold wordCount at this
  unfold wrap wordCount wordBound
  omega

/-- Rounds `n` up to a multiple of `align`, or leaves it alone if `align` is at most 1. The sum and
    the product wrap around. -/
def alignUp (n align : Int) : Int :=
  if align ≤ 1 then n else wrap ((wrap (n + align - 1)).tdiv align * align)

end MiniCompiler
