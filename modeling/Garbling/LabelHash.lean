-- The hash that encrypts the rows of a garbled table. It is built from a
-- permutation of blocks, takes a tweak, and gives the two labels of a
-- gate tweaks of their own, so that swapping them changes the result.
import Garbling.Cipher.Aes

namespace Garbling

/-- The hash of a block under a tweak: π(π(x) + t) + π(x), with + the exclusive or. -/
def tweakedHash (permutation : Block → Block) (tweak x : Block) : Block :=
  let y := permutation x
  permutation (y ^^^ tweak) ^^^ y

/-- The hash of a pair of labels at a gate. -/
abbrev PairHash := Nat → Block → Block → Block

/-- The tweaks of the two labels of a gate. -/
def gateTweaks (gate : Nat) : Block × Block :=
  (BitVec.ofNat 128 (2 * gate), BitVec.ofNat 128 (2 * gate + 1))

/-- Hashes each label of the pair under its own tweak. -/
def pairHash (permutation : Block → Block) : PairHash := fun gate x y =>
  tweakedHash permutation (gateTweaks gate).1 x ^^^ tweakedHash permutation (gateTweaks gate).2 y

/-! ## The fixed permutation -/

/-- The key of the fixed permutation; any key would do. -/
def fixedKey : Block := 193502124791825095790518994062991136444#128

/-- The round keys of the fixed key. -/
def fixedRoundKeys : Cipher.RoundKeys := .ofKey fixedKey

/-- AES-128 under the fixed key. -/
def fixedPermutation (b : Block) : Block := fixedRoundKeys.encrypt b

/-- The tweaked hash of the fixed permutation. -/
def fixedHash (tweak x : Block) : Block := tweakedHash fixedPermutation tweak x

/-- The pair hash of the fixed permutation. -/
def fixedPairHash : PairHash := fun gate x y => pairHash fixedPermutation gate x y

end Garbling
