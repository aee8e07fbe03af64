-- Encryption as a permutation. Under each key and tweak, a scheme permutes
-- the blocks of its size, decryption runs the permutation backwards, and a
-- shorter plaintext stands for the block that zeros fill it up to.
import Mathlib.Logic.Equiv.Defs
import Garbling.Proofs.MultiKey.Laws

namespace Garbling

/-- The byte strings of one length. -/
abbrev Bytes.OfLength (n : Nat) := { block : Bytes // block.length = n }

namespace Scheme

/-! ## Schemes that permute their blocks -/

/-- Under the keying, a plaintext is padded with zeros to a block and encrypted by the permutation
`e` of the blocks, and its inverse decrypts. -/
structure PermutesBy (s : Scheme) (k : Keying) (e : Equiv.Perm (Bytes.OfLength s.cipherSize)) :
    Prop where
  encrypt_eq : ∀ (plaintext : Bytes) (hfits : plaintext.length ≤ s.cipherSize),
    s.encrypt k plaintext = .ok (e ⟨plaintext.padTo s.cipherSize, Bytes.length_padTo hfits⟩).1
  decrypt_eq : ∀ block : Bytes.OfLength s.cipherSize, s.decrypt k block.1 = .ok (e.symm block).1

/-- Under the keying, encryption and decryption are inverse on the blocks of the scheme. -/
def Permutes (s : Scheme) (k : Keying) : Prop := ∃ e, s.PermutesBy k e

section

variable {s : Scheme} {k : Keying}

theorem PermutesBy.encrypt_block {e : Equiv.Perm (Bytes.OfLength s.cipherSize)}
    (h : s.PermutesBy k e) (block : Bytes.OfLength s.cipherSize) :
    s.encrypt k block.1 = .ok (e block).1 := by
  rw [h.encrypt_eq block.1 (Nat.le_of_eq block.2)]
  simp only [Bytes.padTo_self block.2]

theorem Permutes.encrypt_padTo (h : s.Permutes k) {plaintext : Bytes}
    (hfits : plaintext.length ≤ s.cipherSize) :
    s.encrypt k (plaintext.padTo s.cipherSize) = s.encrypt k plaintext := by
  obtain ⟨e, he⟩ := h
  rw [he.encrypt_eq plaintext hfits]
  exact he.encrypt_block ⟨plaintext.padTo s.cipherSize, Bytes.length_padTo hfits⟩

/-- Every plaintext that fits into a block is encrypted, and comes back with its padding. -/
theorem Permutes.exists_encrypt (h : s.Permutes k) {plaintext : Bytes}
    (hfits : plaintext.length ≤ s.cipherSize) : ∃ ciphertext, ciphertext.length = s.cipherSize ∧
      s.encrypt k plaintext = .ok ciphertext ∧
      s.decrypt k ciphertext = .ok (plaintext.padTo s.cipherSize) := by
  obtain ⟨e, he⟩ := h
  refine ⟨_, (e _).2, he.encrypt_eq plaintext hfits, ?_⟩
  rw [he.decrypt_eq, Equiv.symm_apply_apply]

/-- Every block is decrypted, and its plaintext is encrypted to it again. -/
theorem Permutes.exists_decrypt (h : s.Permutes k) {ciphertext : Bytes}
    (hblock : ciphertext.length = s.cipherSize) : ∃ plaintext, plaintext.length = s.cipherSize ∧
      s.decrypt k ciphertext = .ok plaintext ∧ s.encrypt k plaintext = .ok ciphertext := by
  obtain ⟨e, he⟩ := h
  refine ⟨_, (e.symm _).2, he.decrypt_eq ⟨ciphertext, hblock⟩, ?_⟩
  rw [he.encrypt_block, Equiv.apply_symm_apply]

theorem Permutes.lawfulUnder (h : s.Permutes k) : s.LawfulUnder k where
  decrypt_of_encrypt := by
    intro plaintext ciphertext hfits hencrypt
    obtain ⟨found, _, hfound, hdecrypt⟩ := h.exists_encrypt hfits
    rw [hencrypt, Except.ok.injEq] at hfound
    rw [hfound, hdecrypt]
  encrypt_of_decrypt := by
    intro plaintext ciphertext hblock hdecrypt
    obtain ⟨found, _, hfound, hencrypt⟩ := h.exists_decrypt hblock
    rw [hdecrypt, Except.ok.injEq] at hfound
    rw [hfound, hencrypt]
  length_decrypt := by
    intro plaintext ciphertext hblock hdecrypt
    obtain ⟨found, hlen, hfound, _⟩ := h.exists_decrypt hblock
    rw [hdecrypt, Except.ok.injEq] at hfound
    rw [hfound, hlen]
  exists_decrypt := by
    intro _ _ block _ _ hblock
    obtain ⟨plaintext, _, hdecrypt, _⟩ := h.exists_decrypt hblock
    exact ⟨plaintext, hdecrypt⟩

/-- Plaintexts with the same ciphertext are the same up to the padding. -/
theorem LawfulUnder.padTo_inj (law : s.LawfulUnder k) {p q ciphertext : Bytes}
    (hp : p.length ≤ s.cipherSize) (hq : q.length ≤ s.cipherSize)
    (hpc : s.encrypt k p = .ok ciphertext) (hqc : s.encrypt k q = .ok ciphertext) :
    p.padTo s.cipherSize = q.padTo s.cipherSize := by
  have hsame := law.decrypt_of_encrypt hq hqc
  rw [law.decrypt_of_encrypt hp hpc, Except.ok.injEq] at hsame
  exact hsame

end

/-! ## The schemes of this library -/

/-- The cipher of a key, as a permutation of the strings of sixteen bytes. -/
def BlockScheme.permutation (keys : Cipher.RoundKeys) : Equiv.Perm (Bytes.OfLength Block.size) where
  toFun block := ⟨(keys.encrypt (Block.ofBytes block.1)).toBytes, Block.length_toBytes _⟩
  invFun block := ⟨(keys.decrypt (Block.ofBytes block.1)).toBytes, Block.length_toBytes _⟩
  left_inv block := by simp [Cipher.RoundKeys.decrypt_encrypt, Block.toBytes_ofBytes block.2]
  right_inv block := by simp [Cipher.RoundKeys.encrypt_decrypt, Block.toBytes_ofBytes block.2]

/-- The network, as a permutation of the strings of one length. -/
def Feistel.permutation (mask : Feistel.Mask) (n : Nat) : Equiv.Perm (Bytes.OfLength n) where
  toFun block := ⟨Feistel.permute mask block.1, by rw [Feistel.length_permute, block.2]⟩
  invFun block := ⟨Feistel.unpermute mask block.1, by rw [Feistel.length_unpermute, block.2]⟩
  left_inv block := by simp
  right_inv block := by simp

theorem permutes_block (key : MultiKey) (tweak : Tweak) :
    Scheme.block.Permutes ⟨some key, some tweak⟩ := by
  obtain ⟨keys, hkeys⟩ : ∃ keys, BlockScheme.cipher ⟨some key, some tweak⟩ = .ok keys := ⟨_, rfl⟩
  refine ⟨BlockScheme.permutation keys, fun plaintext hfits => ?_, fun block => ?_⟩
  · exact BlockScheme.encrypt_eq_ok.2 ⟨keys, hkeys, hfits, rfl⟩
  · exact BlockScheme.decrypt_eq_ok.2 ⟨keys, hkeys, block.2, rfl⟩

theorem permutes_feistelWith (masks : Feistel.KeyedMask) {n : Nat} (h : 2 ≤ n) (key : MultiKey)
    (tweak : Tweak) : (feistelWith masks n).Permutes ⟨some key, some tweak⟩ := by
  obtain ⟨roundKey, hkey⟩ : ∃ roundKey,
      Feistel.roundKey n ⟨some key, some tweak⟩ = .ok roundKey := ⟨_, if_neg (by omega)⟩
  refine ⟨Feistel.permutation (masks roundKey) n, fun plaintext hfits => ?_, fun block => ?_⟩
  · exact Feistel.encrypt_eq_ok.2 ⟨roundKey, hkey, hfits, rfl⟩
  · exact Feistel.decrypt_eq_ok.2 ⟨roundKey, hkey, block.2, rfl⟩

/-! ## Blocks of any size -/

/-- With any masks and for blocks of two bytes or more, odd ones included, every key and tweak
select a permutation of the blocks. Plaintexts and ciphertexts of other lengths are refused, no two
blocks become the same one, and one block only decrypts to zeros. -/
theorem feistel_encryption_permutes_blocks (masks : Feistel.KeyedMask) {n : Nat} (h : 2 ≤ n)
    (key : MultiKey) (tweak : Tweak) :
    let encrypt := (feistelWith masks n).encrypt ⟨some key, some tweak⟩
    let decrypt := (feistelWith masks n).decrypt ⟨some key, some tweak⟩
    (∃ e : Equiv.Perm (Bytes.OfLength n), ∀ block : Bytes.OfLength n,
      encrypt block.1 = .ok (e block).1 ∧ decrypt block.1 = .ok (e.symm block).1) ∧
    (∀ p : Bytes, p.length ≤ n →
      ∃ c, c.length = n ∧ encrypt p = .ok c ∧ decrypt c = .ok (p.padTo n)) ∧
    (∀ c : Bytes, c.length = n → ∃ p, p.length = n ∧ decrypt c = .ok p ∧ encrypt p = .ok c) ∧
    (∀ p : Bytes, n < p.length → encrypt p = .error (.plaintextTooLong n p.length)) ∧
    (∀ c : Bytes, c.length ≠ n → decrypt c = .error (.ciphertextLength n c.length)) ∧
    (∀ p q c : Bytes, encrypt p = .ok c → encrypt q = .ok c → p.padTo n = q.padTo n) ∧
    ∃! c, decrypt c = .ok (Bytes.zeros n) := by
  intro encrypt decrypt
  have hpermutes := permutes_feistelWith masks h key tweak
  have law := lawful_feistelWith masks n
  refine ⟨?_, fun p hp => hpermutes.exists_encrypt hp, fun c hc => hpermutes.exists_decrypt hc,
    ?_, ?_, ?_, ?_⟩
  · obtain ⟨e, he⟩ := hpermutes
    exact ⟨e, fun block => ⟨he.encrypt_block block, he.decrypt_eq block⟩⟩
  · intro p hp
    have hpad : pad n p = .error (.plaintextTooLong n p.length) := if_neg (by omega)
    simp only [encrypt, feistelWith, Feistel.encrypt, hpad]
    rfl
  · intro c hc
    have hcheck : checkCiphertext n c = .error (.ciphertextLength n c.length) := if_neg hc
    simp only [decrypt, feistelWith, Feistel.decrypt, hcheck]
    rfl
  · intro p q c hp hq
    exact (law.under _).padTo_inj (law.length_le hp) (law.length_le hq) hp hq
  · obtain ⟨c, _, hencrypt, hdecrypt⟩ := hpermutes.exists_encrypt (Bytes.length_zeros_le n)
    refine ⟨c, ?_, fun other hother => ?_⟩
    · rw [← Bytes.padTo_zeros]
      exact hdecrypt
    · have hsame := law.encrypt_of_decrypt hother
      rw [hencrypt, Except.ok.injEq] at hsame
      exact hsame.symm

/-- A short plaintext in blocks of seventeen bytes. -/
theorem short_plaintext_comes_back_from_an_odd_block : 2 ≤ 17 ∧
    ∃ c, c.length = 17 ∧ (feistel 17).encrypt ⟨some ⟨[[7]]⟩, some ⟨3⟩⟩ [1, 2] = .ok c ∧
      (feistel 17).decrypt ⟨some ⟨[[7]]⟩, some ⟨3⟩⟩ c = .ok ([1, 2] ++ Bytes.zeros 15) := by
  have hpermutes :=
    feistel_encryption_permutes_blocks Feistel.blake3Mask (n := 17) (by decide) ⟨[[7]]⟩ ⟨3⟩
  exact ⟨by decide, hpermutes.2.1 [1, 2] (by decide)⟩

end Scheme

end Garbling
