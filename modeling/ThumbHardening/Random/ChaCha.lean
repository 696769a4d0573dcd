import ThumbHardening.Random.Stream

/-!
# ChaCha20

The random stream that a 64-bit seed stands for: the key stream of ChaCha with 20 rounds, a 64-bit block
counter that starts at 0, and a nonce of zeros. The key words come from a linear congruential generator whose
output is permuted.
-/

namespace ThumbHardening
namespace ChaCha

abbrev Words := Vector UInt32 16

def rotateLeft (x : UInt32) (n : UInt32) : UInt32 :=
  x <<< n ||| x >>> (32 - n)

/-- Mixes four words of a block. -/
def quarterRound (s : Words) (i j k l : Fin 16) : Words :=
  let a := s[i] + s[j]
  let d := rotateLeft (s[l] ^^^ a) 16
  let c := s[k] + d
  let b := rotateLeft (s[j] ^^^ c) 12
  let a := a + b
  let d := rotateLeft (d ^^^ a) 8
  let c := c + d
  let b := rotateLeft (b ^^^ c) 7
  (((s.set i a).set j b).set k c).set l d

/-- Two rounds: the columns, then the diagonals. -/
def doubleRound (s : Words) : Words :=
  let s := quarterRound s 0 4 8 12
  let s := quarterRound s 1 5 9 13
  let s := quarterRound s 2 6 10 14
  let s := quarterRound s 3 7 11 15
  let s := quarterRound s 0 5 10 15
  let s := quarterRound s 1 6 11 12
  let s := quarterRound s 2 7 8 13
  quarterRound s 3 4 9 14

/-- The key stream block with the given number under a key of eight words. -/
def block (key : Vector UInt32 8) (number : Nat) : Words :=
  let start : Words :=
    #v[0x61707865, 0x3320646e, 0x79622d32, 0x6b206574,
      key[0], key[1], key[2], key[3], key[4], key[5], key[6], key[7],
      UInt32.ofNat number, UInt32.ofNat (number / Nat.pow 2 32), 0, 0]
  let mixed := Nat.repeat doubleRound 10 start
  Vector.zipWith (· + ·) mixed start

/-- The generator behind the key words, one step on. -/
def advance (state : UInt64) : UInt64 :=
  state * 6364136223846793005 + 11634580027462260723

/-- The key word of a state of the generator: its upper half folded and rotated. -/
def keyWord (state : UInt64) : UInt32 :=
  let folded := (((state >>> 18) ^^^ state) >>> 27).toUInt32
  let amount := (state >>> 59).toUInt32
  folded >>> amount ||| folded <<< ((32 - amount) % 32)

/-- The key of a seed. -/
def key (seed : UInt64) : Vector UInt32 8 :=
  Vector.ofFn fun i => keyWord (Nat.repeat advance (i.val + 1) seed)

def stream (seed : Nat) : RandomStream :=
  let words := key (UInt64.ofNat seed)
  { block := block words }

end ChaCha
end ThumbHardening
