/-!
# Modified immediates

The 32-bit constants that one instruction can hold: a byte, a byte repeated in one of three patterns,
or a byte with its top bit set, rotated.
-/

namespace ThumbHardening

/-- Whether an instruction can hold `value` as a modified immediate. -/
def isModifiedImmediate (value : BitVec 32) : Bool :=
  let byte := value &&& 0xff#32
  let high := value &&& 0xff00#32
  value ≤ 0xff#32
    || value == (byte <<< 16 ||| byte)
    || value == (byte <<< 24 ||| byte <<< 16 ||| byte <<< 8 ||| byte)
    || value == (high <<< 16 ||| high)
    || (List.range' 8 24).any fun amount =>
      let unrotated := value.rotateLeft amount
      unrotated ≤ 0xff#32 && unrotated &&& 0x80#32 != 0#32

end ThumbHardening
