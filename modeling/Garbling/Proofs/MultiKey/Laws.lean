-- What both schemes promise, whatever their keys are. Decryption undoes
-- encryption up to the zero padding, encryption undoes decryption, and a
-- key that can encrypt can decrypt any block.
import Garbling.MultiKey.BlockScheme
import Garbling.MultiKey.FeistelScheme
import Garbling.Proofs.Outcomes

namespace Garbling.Scheme

/-- The schemes of this library. -/
inductive Shipped : Scheme → Prop
  | block : Shipped Scheme.block
  | feistel (cipherSize : Nat) : Shipped (Scheme.feistel cipherSize)

/-- Encryption and decryption under one keying are inverse on blocks. -/
structure Lawful (s : Scheme) : Prop where
  decrypt_of_encrypt : ∀ {k plaintext ciphertext}, s.encrypt k plaintext = .ok ciphertext →
    s.decrypt k ciphertext = .ok (plaintext.padTo s.cipherSize)
  encrypt_of_decrypt : ∀ {k plaintext ciphertext}, s.decrypt k ciphertext = .ok plaintext →
    s.encrypt k plaintext = .ok ciphertext
  length_decrypt : ∀ {k plaintext ciphertext}, s.decrypt k ciphertext = .ok plaintext →
    plaintext.length = s.cipherSize
  exists_decrypt : ∀ {k plaintext ciphertext block}, s.encrypt k plaintext = .ok ciphertext →
    block.length = s.cipherSize → ∃ opened, s.decrypt k block = .ok opened

/-- What is needed of one keying only: its encryption and decryption are inverse on blocks, up to
the zero padding, and where it can encrypt it can decrypt any block. -/
structure LawfulUnder (s : Scheme) (k : Keying) : Prop where
  decrypt_of_encrypt : ∀ {plaintext ciphertext}, plaintext.length ≤ s.cipherSize →
    s.encrypt k plaintext = .ok ciphertext →
    s.decrypt k ciphertext = .ok (plaintext.padTo s.cipherSize)
  encrypt_of_decrypt : ∀ {plaintext ciphertext}, ciphertext.length = s.cipherSize →
    s.decrypt k ciphertext = .ok plaintext → s.encrypt k plaintext = .ok ciphertext
  length_decrypt : ∀ {plaintext ciphertext}, ciphertext.length = s.cipherSize →
    s.decrypt k ciphertext = .ok plaintext → plaintext.length = s.cipherSize
  exists_decrypt : ∀ {plaintext ciphertext block}, plaintext.length ≤ s.cipherSize →
    s.encrypt k plaintext = .ok ciphertext → block.length = s.cipherSize →
    ∃ opened, s.decrypt k block = .ok opened

theorem Lawful.under {s : Scheme} (law : s.Lawful) (k : Keying) : s.LawfulUnder k where
  decrypt_of_encrypt _ h := law.decrypt_of_encrypt h
  encrypt_of_decrypt _ h := law.encrypt_of_decrypt h
  length_decrypt _ h := law.length_decrypt h
  exists_decrypt _ h hblock := law.exists_decrypt h hblock

/-- What a lawful scheme encrypts fits into a block. -/
theorem Lawful.length_le {s : Scheme} (law : s.Lawful) {k : Keying} {plaintext ciphertext : Bytes}
    (h : s.encrypt k plaintext = .ok ciphertext) : plaintext.length ≤ s.cipherSize := by
  have hlen := law.length_decrypt (law.decrypt_of_encrypt h)
  rw [Bytes.padTo, List.length_append] at hlen
  omega

theorem pad_eq_ok {cipherSize : Nat} {plaintext block : Bytes} :
    pad cipherSize plaintext = .ok block ↔
      plaintext.length ≤ cipherSize ∧ plaintext.padTo cipherSize = block := by
  unfold pad
  split <;> simp [*]

/-- Padding copies the plaintext over the front of a block of zeros. -/
theorem write?_of_pad {cipherSize : Nat} {plaintext block : Bytes}
    (h : pad cipherSize plaintext = .ok block) : block.length = cipherSize ∧
      (Bytes.zeros cipherSize).write? 0 plaintext.length plaintext = some block := by
  obtain ⟨hle, rfl⟩ := pad_eq_ok.1 h
  refine ⟨Bytes.length_padTo hle, ?_⟩
  have hzeros : Bytes.zeros cipherSize =
      [] ++ Bytes.zeros plaintext.length ++ Bytes.zeros (cipherSize - plaintext.length) := by
    simp only [Bytes.zeros, List.nil_append, List.replicate_append_replicate]
    congr 1
    omega
  rw [hzeros]
  exact Bytes.write?_append rfl (Bytes.length_zeros _) rfl

/-- The number of the gate is copied into the last four bytes of a tweak. -/
theorem write?_tweak (t : Tweak) :
    (Bytes.zeros 16).write? 12 4 (beBytes 4 t.gate.toNat) = some t.toBytes := by
  have hzeros : Bytes.zeros 16 = Bytes.zeros 12 ++ Bytes.zeros 4 ++ [] := rfl
  have hgate : (beBytes 4 t.gate.toNat).length = 4 := by simp [beBytes]
  rw [hzeros, Bytes.write?_append (Bytes.length_zeros 12) (Bytes.length_zeros 4) hgate,
    List.append_nil, Tweak.toBytes]

theorem checkCiphertext_eq_ok {cipherSize : Nat} {ciphertext : Bytes} :
    checkCiphertext cipherSize ciphertext = .ok () ↔ ciphertext.length = cipherSize := by
  unfold checkCiphertext
  split <;> simp [*]

/-! ## Blocks of sixteen bytes -/

namespace BlockScheme

theorem encrypt_eq_ok {k : Keying} {plaintext ciphertext : Bytes} :
    encrypt k plaintext = .ok ciphertext ↔ ∃ keys, cipher k = .ok keys ∧
      plaintext.length ≤ Block.size ∧
      (keys.encrypt (Block.ofBytes (plaintext.padTo Block.size))).toBytes = ciphertext := by
  unfold encrypt
  rw [bind_eq_ok]
  constructor
  · rintro ⟨keys, hkeys, h⟩
    obtain ⟨block, hblock, h⟩ := bind_eq_ok.1 h
    obtain ⟨hlen, rfl⟩ := pad_eq_ok.1 hblock
    exact ⟨keys, hkeys, hlen, pure_eq_ok.1 h⟩
  · rintro ⟨keys, hkeys, hlen, h⟩
    exact ⟨keys, hkeys, bind_eq_ok.2 ⟨_, pad_eq_ok.2 ⟨hlen, rfl⟩, pure_eq_ok.2 h⟩⟩

theorem decrypt_eq_ok {k : Keying} {plaintext ciphertext : Bytes} :
    decrypt k ciphertext = .ok plaintext ↔ ∃ keys, cipher k = .ok keys ∧
      ciphertext.length = Block.size ∧
      (keys.decrypt (Block.ofBytes ciphertext)).toBytes = plaintext := by
  unfold decrypt
  rw [bind_eq_ok]
  constructor
  · rintro ⟨_, hlen, h⟩
    obtain ⟨keys, hkeys, h⟩ := bind_eq_ok.1 h
    exact ⟨keys, hkeys, checkCiphertext_eq_ok.1 hlen, pure_eq_ok.1 h⟩
  · rintro ⟨keys, hkeys, hlen, h⟩
    exact ⟨(), checkCiphertext_eq_ok.2 hlen, bind_eq_ok.2 ⟨keys, hkeys, pure_eq_ok.2 h⟩⟩

end BlockScheme

theorem lawful_block : Lawful Scheme.block where
  decrypt_of_encrypt := by
    intro k plaintext ciphertext h
    obtain ⟨keys, hkeys, hlen, rfl⟩ := BlockScheme.encrypt_eq_ok.1 h
    refine BlockScheme.decrypt_eq_ok.2 ⟨keys, hkeys, Block.length_toBytes _, ?_⟩
    rw [Block.ofBytes_toBytes, Cipher.RoundKeys.decrypt_encrypt,
      Block.toBytes_ofBytes (Bytes.length_padTo hlen)]
    rfl
  encrypt_of_decrypt := by
    intro k plaintext ciphertext h
    obtain ⟨keys, hkeys, hlen, rfl⟩ := BlockScheme.decrypt_eq_ok.1 h
    refine BlockScheme.encrypt_eq_ok.2 ⟨keys, hkeys, Nat.le_of_eq (Block.length_toBytes _), ?_⟩
    rw [Bytes.padTo_self (Block.length_toBytes _), Block.ofBytes_toBytes,
      Cipher.RoundKeys.encrypt_decrypt, Block.toBytes_ofBytes hlen]
  length_decrypt := by
    intro k plaintext ciphertext h
    obtain ⟨keys, _, _, rfl⟩ := BlockScheme.decrypt_eq_ok.1 h
    exact Block.length_toBytes _
  exists_decrypt := by
    intro k plaintext ciphertext block h hblock
    obtain ⟨keys, hkeys, _⟩ := BlockScheme.encrypt_eq_ok.1 h
    exact ⟨_, BlockScheme.decrypt_eq_ok.2 ⟨keys, hkeys, hblock, rfl⟩⟩

/-! ## Blocks of any size -/

namespace Feistel

variable {masks : KeyedMask} {cipherSize : Nat} {k : Keying} {plaintext ciphertext : Bytes}

theorem encrypt_eq_ok : encrypt masks cipherSize k plaintext = .ok ciphertext ↔
    ∃ key, roundKey cipherSize k = .ok key ∧ plaintext.length ≤ cipherSize ∧
      permute (masks key) (plaintext.padTo cipherSize) = ciphertext := by
  unfold encrypt
  rw [bind_eq_ok]
  constructor
  · rintro ⟨block, hblock, h⟩
    obtain ⟨hlen, rfl⟩ := pad_eq_ok.1 hblock
    obtain ⟨key, hkey, h⟩ := bind_eq_ok.1 h
    exact ⟨key, hkey, hlen, pure_eq_ok.1 h⟩
  · rintro ⟨key, hkey, hlen, h⟩
    exact ⟨_, pad_eq_ok.2 ⟨hlen, rfl⟩, bind_eq_ok.2 ⟨key, hkey, pure_eq_ok.2 h⟩⟩

theorem decrypt_eq_ok : decrypt masks cipherSize k ciphertext = .ok plaintext ↔
    ∃ key, roundKey cipherSize k = .ok key ∧ ciphertext.length = cipherSize ∧
      unpermute (masks key) ciphertext = plaintext := by
  unfold decrypt
  rw [bind_eq_ok]
  constructor
  · rintro ⟨_, hlen, h⟩
    obtain ⟨key, hkey, h⟩ := bind_eq_ok.1 h
    exact ⟨key, hkey, checkCiphertext_eq_ok.1 hlen, pure_eq_ok.1 h⟩
  · rintro ⟨key, hkey, hlen, h⟩
    exact ⟨(), checkCiphertext_eq_ok.2 hlen, bind_eq_ok.2 ⟨key, hkey, pure_eq_ok.2 h⟩⟩

end Feistel

/-- The network works with any masks. -/
theorem lawful_feistelWith (masks : Feistel.KeyedMask) (cipherSize : Nat) :
    Lawful (Scheme.feistelWith masks cipherSize) where
  decrypt_of_encrypt := by
    intro k plaintext ciphertext h
    obtain ⟨key, hkey, hlen, rfl⟩ := Feistel.encrypt_eq_ok.1 h
    refine Feistel.decrypt_eq_ok.2 ⟨key, hkey, ?_, Feistel.unpermute_permute _ _⟩
    rw [Feistel.length_permute, Bytes.length_padTo hlen]
  encrypt_of_decrypt := by
    intro k plaintext ciphertext h
    obtain ⟨key, hkey, hlen, rfl⟩ := Feistel.decrypt_eq_ok.1 h
    have hblock : (Feistel.unpermute (masks key) ciphertext).length = cipherSize := by
      rw [Feistel.length_unpermute, hlen]
    refine Feistel.encrypt_eq_ok.2 ⟨key, hkey, Nat.le_of_eq hblock, ?_⟩
    rw [Bytes.padTo_self hblock, Feistel.permute_unpermute]
  length_decrypt := by
    intro k plaintext ciphertext h
    obtain ⟨key, _, hlen, rfl⟩ := Feistel.decrypt_eq_ok.1 h
    rw [Feistel.length_unpermute, hlen]
    rfl
  exists_decrypt := by
    intro k plaintext ciphertext block h hblock
    obtain ⟨key, hkey, _⟩ := Feistel.encrypt_eq_ok.1 h
    exact ⟨_, Feistel.decrypt_eq_ok.2 ⟨key, hkey, hblock, rfl⟩⟩

theorem Shipped.lawful {s : Scheme} (h : s.Shipped) : s.Lawful := by
  cases h with
  | block => exact lawful_block
  | feistel cipherSize => exact lawful_feistelWith _ cipherSize

/-! ## When encryption succeeds -/

/-- A key is accepted if it is at least as long as a label and not longer than a block. -/
theorem Shipped.exists_multiKey {s : Scheme} (h : s.Shipped) {key : Bytes}
    (hlong : Block.size ≤ key.length) (hfits : key.length ≤ s.cipherSize) :
    ∃ m, s.multiKey [key] = .ok m := by
  cases h with
  | block =>
    have hlen : key.length = Block.size := Nat.le_antisymm hfits hlong
    exact ⟨⟨[key]⟩, by simp [Scheme.block, BlockScheme.multiKey, hlen]⟩
  | feistel cipherSize =>
    have hne : key ≠ [] := by
      rintro rfl
      exact absurd hlong (by decide)
    exact ⟨⟨[key]⟩, by simp [Scheme.feistel, feistelWith, Feistel.multiKey, hne]⟩

/-- With a key and a tweak, every plaintext that fits into a block becomes a block. -/
theorem Shipped.exists_encrypt {s : Scheme} (h : s.Shipped) (hsize : Block.size ≤ s.cipherSize)
    (key : MultiKey) (tweak : Tweak) {plaintext : Bytes} (hfits : plaintext.length ≤ s.cipherSize) :
    ∃ ciphertext, s.encrypt { key := some key, tweak := some tweak } plaintext = .ok ciphertext ∧
      ciphertext.length = s.cipherSize := by
  cases h with
  | block =>
    exact ⟨_, BlockScheme.encrypt_eq_ok.2 ⟨_, rfl, hfits, rfl⟩, Block.length_toBytes _⟩
  | feistel cipherSize =>
    have htwo : ¬ cipherSize < 2 := by
      have : 16 ≤ cipherSize := hsize
      omega
    refine ⟨_, Feistel.encrypt_eq_ok.2 ⟨_, if_neg htwo, hfits, rfl⟩, ?_⟩
    rw [Feistel.length_permute]
    exact Bytes.length_padTo hfits

end Garbling.Scheme
