/-!
# Random streams

A stream of random 32-bit words, given block by block, and what is drawn from it: words, numbers below a
bound, and permutations. Nothing here depends on how the blocks are made.

A draw below a bound is refused until one is in the zone. A sampler has no limit on how often that happens, but
a stream may be refused for ever, and here every draw has a result. So there is a limit, and the draw behind it
is taken even if it is outside of the zone.
-/

namespace ThumbHardening

structure RandomStream where
  /-- The words of the stream, 16 at a time. -/
  block : Nat → Vector UInt32 16
  /-- The number of the next block. -/
  counter : Nat := 0
  /-- The words of the current block that have not been drawn. -/
  pending : List UInt32 := []

namespace RandomStream

/-- Draws a 32-bit word. -/
def next32 (s : RandomStream) : Nat × RandomStream :=
  match s.pending with
  | word :: rest => (word.toNat, { s with pending := rest })
  | [] =>
    let words := s.block s.counter
    (words[0].toNat, { s with counter := s.counter + 1, pending := words.toList.drop 1 })

/-- Draws two words, the lower half first. -/
def next64 (s : RandomStream) : Nat × RandomStream :=
  let (low, s) := s.next32
  let (high, s) := s.next32
  (low + Nat.pow 2 32 * high, s)

/-- Draws a list of values, one after the other. -/
def replicate {α : Type} (draw : RandomStream → α × RandomStream) :
    (count : Nat) → RandomStream → List α × RandomStream
  | 0, s => ([], s)
  | count + 1, s =>
    let (value, s) := draw s
    let (values, s) := replicate draw count s
    (value :: values, s)

/-- How often a draw is refused before the next one is taken as it is. This is where the draws deviate from those of
a sampler without a limit, which goes on. No less than half of all draws are in the zone, so of evenly distributed
streams no more than one in `2 ^ 256` is refused so often. -/
def maxRefusals : Nat := 256

/-- The largest low half of a product at which a draw of so many bits is taken for a number below `n`. It
makes the numbers below `n` equally likely. -/
def acceptanceZone (bits n : Nat) : Nat :=
  n * Nat.pow 2 (bits - 1 - Nat.log2 n) - 1

/-- Draws a number below `n`: the high half of the product of `n` and a draw of so many bits. A draw whose
low half is beyond the zone is refused, as long as `tries` allows. Behind that the draw is not looked at any
more, where a sampler without a limit goes on. -/
def drawBelow (bits : Nat) (draw : RandomStream → Nat × RandomStream) (n : Nat) :
    (tries : Nat) → RandomStream → Nat × RandomStream
  | 0, s =>
    let (value, s) := draw s
    (value * n / Nat.pow 2 bits, s)
  | tries + 1, s =>
    let (value, s) := draw s
    if value * n % Nat.pow 2 bits ≤ acceptanceZone bits n then (value * n / Nat.pow 2 bits, s)
    else drawBelow bits draw n tries s

/-- Draws an index of a list of length `n` that is not empty. -/
def index (n : Nat) (s : RandomStream) : Nat × RandomStream :=
  drawBelow 64 next64 n maxRefusals s

/-- Draws a number below `n` from single words. -/
def index32 (n : Nat) (s : RandomStream) : Nat × RandomStream :=
  drawBelow 32 next32 n maxRefusals s

/-- Exchanges each of the positions `count` to 1 with a random one that is not behind it. -/
def shuffleTo {α : Type} : (count : Nat) → Array α → RandomStream → Array α × RandomStream
  | 0, xs, s => (xs, s)
  | count + 1, xs, s =>
    let (j, s) := s.index32 (count + 2)
    shuffleTo count (xs.swapIfInBounds (count + 1) j) s

/-- Puts a list into random order. -/
def shuffle {α : Type} (xs : List α) (s : RandomStream) : List α × RandomStream :=
  let (xs, s) := shuffleTo (xs.length - 1) xs.toArray s
  (xs.toList, s)

end RandomStream
end ThumbHardening
