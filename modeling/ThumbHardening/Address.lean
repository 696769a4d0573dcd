/-!
# Address arithmetic

Sizes, offsets and addresses are natural numbers. An address has 64 bits, so every sum and product that
could leave that range is reduced by `wrap`; alignments are powers of two wherever a global is built. Checked
arithmetic would stop where `wrap` goes around: this concerns sums that only measure or place something. The
sum that decides whether the guard fits is not reduced but fails, with `Fault.sizeOverflow`.
-/

namespace ThumbHardening
namespace Address

/-- Reduces a sum or a product to 64 bits. -/
def wrap (n : Nat) : Nat :=
  n % Nat.pow 2 64

/-- The least multiple of `align` that is not below `value`, reduced to 64 bits. -/
def alignUp (value align : Nat) : Nat :=
  if align ≤ 1 then value else wrap ((value + align - 1) / align * align)

/-- Whether `n` is a power of two. -/
def isPowerOfTwo (n : Nat) : Bool :=
  n == Nat.pow 2 (Nat.log2 n)

end Address
end ThumbHardening
