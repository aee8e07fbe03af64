-- An incremental hash object: it absorbs byte strings one after the
-- other, and gives the digest of all of them together.
import Garbling.Cipher.Blake3

namespace Garbling

/-- A hash object, with everything it has absorbed since its last digest. -/
structure Digest where
  absorbed : Bytes := []
deriving DecidableEq, Repr

namespace Digest

/-- The number of bytes of a digest. -/
def size (_ : Digest) : Nat := Cipher.Blake3.digestSize

/-- Absorbs more bytes. -/
def update (d : Digest) (bytes : Bytes) : Digest := ⟨d.absorbed ++ bytes⟩

/-- The digest of what was absorbed, and the object as if it were new. -/
def finalize (d : Digest) : Bytes × Digest := (Cipher.Blake3.hash d.absorbed, {})

@[simp] theorem absorbed_update (d : Digest) (bytes : Bytes) :
    (d.update bytes).absorbed = d.absorbed ++ bytes := rfl

theorem update_update (d : Digest) (a b : Bytes) : (d.update a).update b = d.update (a ++ b) := by
  simp [update]

@[simp] theorem finalize_snd (d : Digest) : d.finalize.2 = {} := rfl

end Digest

end Garbling
