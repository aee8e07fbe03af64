-- Which keys of a multi-key the scheme of sixteen-byte blocks reads. It
-- adds up the hashes of the keys, and equal hashes cancel: only the blocks
-- that occur an odd number of times among the keys count, in no order.
-- With a general hash nothing else is lost.
import Garbling.Proofs.MultiKey.Permutation

namespace Garbling

/-! ## Sums of hashes -/

section

variable {hash : Block → Block → Block} {tweak : Block}

theorem foldl_xor_hash (sum : Block) (keys : List Block) :
    keys.foldl (fun sum key => sum ^^^ hash tweak key) sum = sum ^^^ sumOfHashes hash tweak keys := by
  unfold sumOfHashes
  induction keys generalizing sum with
  | nil => exact BitVec.xor_zero.symm
  | cons key keys ih =>
    have hfirst : (0 : Block) ^^^ hash tweak key = hash tweak key := BitVec.zero_xor
    rw [List.foldl_cons, List.foldl_cons, ih, ih (0 ^^^ hash tweak key), hfirst, BitVec.xor_assoc]

theorem sumOfHashes_cons (key : Block) (keys : List Block) :
    sumOfHashes hash tweak (key :: keys) = hash tweak key ^^^ sumOfHashes hash tweak keys := by
  have hfirst : (0 : Block) ^^^ hash tweak key = hash tweak key := BitVec.zero_xor
  rw [sumOfHashes, List.foldl_cons, foldl_xor_hash, hfirst]

theorem sumOfHashes_append (keys others : List Block) :
    sumOfHashes hash tweak (keys ++ others) =
      sumOfHashes hash tweak keys ^^^ sumOfHashes hash tweak others := by
  rw [sumOfHashes, List.foldl_append, foldl_xor_hash]
  rfl

theorem sumOfHashes_perm {keys others : List Block} (h : keys.Perm others) :
    sumOfHashes hash tweak keys = sumOfHashes hash tweak others := by
  induction h with
  | nil => rfl
  | cons key _ ih => rw [sumOfHashes_cons, sumOfHashes_cons, ih]
  | swap a b keys =>
    rw [sumOfHashes_cons, sumOfHashes_cons, sumOfHashes_cons, sumOfHashes_cons,
      ← BitVec.xor_assoc, ← BitVec.xor_assoc, BitVec.xor_comm (hash tweak b)]
  | trans _ _ ih ih' => exact ih.trans ih'

/-- Keys that all occur an even number of times cancel. The induction is on their number: the
first key occurs again, and the two go together. -/
theorem sumOfHashes_eq_zero {keys : List Block} (h : ∀ b, keys.count b % 2 = 0) :
    sumOfHashes hash tweak keys = 0 := by
  induction hn : keys.length using Nat.strongRecOn generalizing keys with
  | ind n ih =>
    rcases keys with _ | ⟨key, keys⟩
    · rfl
    have hmem : key ∈ keys := by
      have hkey := h key
      rw [List.count_cons_self] at hkey
      exact List.count_pos_iff.1 (by omega)
    have hrest : ∀ b, (keys.erase key).count b % 2 = 0 := by
      intro b
      have hb := h b
      rw [List.count_cons, (List.perm_cons_erase hmem).count_eq b, List.count_cons] at hb
      omega
    rw [sumOfHashes_cons, sumOfHashes_perm (List.perm_cons_erase hmem), sumOfHashes_cons,
      ← BitVec.xor_assoc, BitVec.xor_self, BitVec.zero_xor]
    refine ih _ ?_ hrest rfl
    rw [List.length_erase_of_mem hmem, ← hn, List.length_cons]
    omega

/-- The sum depends on the keys that occur an odd number of times. -/
theorem sumOfHashes_congr {keys others : List Block}
    (h : ∀ b, keys.count b % 2 = others.count b % 2) :
    sumOfHashes hash tweak keys = sumOfHashes hash tweak others := by
  have hzero : sumOfHashes hash tweak (keys ++ others) = 0 := sumOfHashes_eq_zero fun b => by
    have hb := h b
    rw [List.count_append]
    omega
  rw [sumOfHashes_append] at hzero
  exact BitVec.xor_eq_zero_iff.1 hzero

/-- A hash of one block only, which shows whether this block counts. -/
def hashOfOne (b tweak x : Block) : Block := if x = b then tweak else 0

theorem sumOfHashes_hashOfOne (b : Block) (keys : List Block) :
    sumOfHashes (hashOfOne b) tweak keys = if keys.count b % 2 = 1 then tweak else 0 := by
  induction keys with
  | nil => rfl
  | cons key keys ih =>
    rw [sumOfHashes_cons, ih, List.count_cons, hashOfOne]
    by_cases hkey : key = b
    · by_cases hodd : keys.count b % 2 = 1
      · have heven : ¬ (keys.count b + 1) % 2 = 1 := by omega
        simp [hkey, hodd, heven]
      · have hnext : (keys.count b + 1) % 2 = 1 := by omega
        simp [hkey, hodd, hnext]
    · simp [hkey]

end

/-! ## Tweaks and keys that differ -/

theorem Tweak.toBytes_injective {t t' : Tweak} (h : t.toBytes = t'.toBytes) : t = t' := by
  have hnumbers : leBytes 4 t.gate.toNat = leBytes 4 t'.gate.toNat :=
    List.reverse_inj.1 (List.append_cancel_left h)
  have hgates := leBytes_inj hnumbers t.gate.toNat_lt t'.gate.toNat_lt
  cases t
  cases t'
  exact congrArg Tweak.mk (UInt32.toNat_inj.1 hgates)

/-- The tweak as a block. -/
def Tweak.block (t : Tweak) : Block := Block.ofBytes t.toBytes

theorem Tweak.block_injective {t t' : Tweak} (h : t.block = t'.block) : t = t' := by
  have hbytes := congrArg Block.toBytes h
  rw [block, block, Block.toBytes_ofBytes rfl, Block.toBytes_ofBytes rfl] at hbytes
  exact toBytes_injective hbytes

theorem Cipher.RoundKeys.encrypt_injective (keys : Cipher.RoundKeys) {a b : Block}
    (h : keys.encrypt a = keys.encrypt b) : a = b := by
  rw [← keys.decrypt_encrypt a, h, keys.decrypt_encrypt]

theorem Cipher.RoundKeys.ofKey_injective {a b : Block} (h : ofKey a = ofKey b) : a = b := by
  have hfirst : State.ofBlock a = State.ofBlock b := congrArg RoundKeys.first h
  rw [← State.toBlock_ofBlock a, hfirst, State.toBlock_ofBlock]

/-- The hash of one block is another one under every tweak. -/
theorem fixedHash_tweak_injective {tweak tweak' b : Block}
    (h : fixedHash tweak b = fixedHash tweak' b) : tweak = tweak' := by
  have hsum := fixedRoundKeys.encrypt_injective ((BitVec.xor_left_inj _).1 h)
  exact (BitVec.xor_right_inj _).1 hsum

/-! ## The keys that count -/

namespace MultiKey

/-- The block occurs among the keys an odd number of times. -/
def Counts (m : MultiKey) (b : Block) : Prop := m.blocks.count b % 2 = 1

/-- The permutation of the blocks that the keys select under the tweak, with any hash. -/
def permutation (hash : Block → Block → Block) (m : MultiKey) (t : Tweak) : Block → Block :=
  (Cipher.RoundKeys.ofKey (sumOfHashes hash t.block m.blocks)).encrypt

variable {m m' : MultiKey} {hash : Block → Block → Block}

theorem blocks_cons_of_block {key : Bytes} (h : key.length = Block.size) (keys : List Bytes) :
    (⟨key :: keys⟩ : MultiKey).blocks = Block.ofBytes key :: (⟨keys⟩ : MultiKey).blocks := by
  simp [blocks, Block.decode, h, Except.toOption]

/-- A key that is no block is dropped. -/
theorem blocks_cons_of_dropped {key : Bytes} (h : key.length ≠ Block.size) (keys : List Bytes) :
    (⟨key :: keys⟩ : MultiKey).blocks = (⟨keys⟩ : MultiKey).blocks := by
  simp [blocks, Block.decode, h, Except.toOption]

/-- A key that occurs twice cancels. -/
theorem counts_pair (key : Bytes) (keys : List Bytes) (b : Block) :
    (⟨key :: key :: keys⟩ : MultiKey).Counts b ↔ (⟨keys⟩ : MultiKey).Counts b := by
  unfold Counts
  by_cases h : key.length = Block.size
  · rw [blocks_cons_of_block h, blocks_cons_of_block h, List.count_cons, List.count_cons]
    omega
  · rw [blocks_cons_of_dropped h, blocks_cons_of_dropped h]

theorem not_counts_nil (b : Block) : ¬ (⟨[]⟩ : MultiKey).Counts b := Nat.zero_ne_one

theorem counts_singleton {key : Bytes} (h : key.length = Block.size) (b : Block) :
    (⟨[key]⟩ : MultiKey).Counts b ↔ b = Block.ofBytes key := by
  unfold Counts
  rw [blocks_cons_of_block h, List.count_cons]
  by_cases hb : Block.ofBytes key = b
  · simp [blocks, hb]
  · simp [blocks, hb, Ne.symm hb]

theorem sumOfHashes_congr (h : ∀ b, m.Counts b ↔ m'.Counts b) (tweak : Block) :
    sumOfHashes hash tweak m.blocks = sumOfHashes hash tweak m'.blocks := by
  refine Garbling.sumOfHashes_congr fun b => ?_
  have hb := h b
  unfold Counts at hb
  omega

theorem permutation_congr (h : ∀ b, m.Counts b ↔ m'.Counts b) (t : Tweak) :
    m.permutation hash t = m'.permutation hash t := by
  rw [permutation, permutation, sumOfHashes_congr h]

theorem sumOfHashes_of_none (h : ∀ b, ¬ m.Counts b) (tweak : Block) :
    sumOfHashes hash tweak m.blocks = 0 := by
  refine sumOfHashes_eq_zero fun b => ?_
  have hb := h b
  unfold Counts at hb
  omega

theorem permutation_of_none (h : ∀ b, ¬ m.Counts b) (t : Tweak) :
    m.permutation hash t = (Cipher.RoundKeys.ofKey 0).encrypt := by
  rw [permutation, sumOfHashes_of_none h]

theorem sumOfHashes_of_one {b : Block} (h : ∀ x, m.Counts x ↔ x = b) (tweak : Block) :
    sumOfHashes hash tweak m.blocks = hash tweak b := by
  have hsame : sumOfHashes hash tweak m.blocks = sumOfHashes hash tweak [b] := by
    refine Garbling.sumOfHashes_congr fun x => ?_
    have hx := h x
    unfold Counts at hx
    rw [List.count_singleton]
    by_cases hxb : x = b
    · have hodd := hx.2 hxb
      subst hxb
      simp [hodd]
    · have hodd : ¬ m.blocks.count x % 2 = 1 := fun hodd => hxb (hx.1 hodd)
      have hne : (b == x) = false := by simpa using fun h => hxb h.symm
      simp only [hne, Bool.false_eq_true, if_false]
      omega
  rw [hsame, sumOfHashes_cons]
  exact BitVec.xor_zero

/-! ## With a hash that tells blocks apart -/

/-- Two keys of the cipher that encrypt a block differently: zero, and the tweak of the gate 1. -/
theorem encrypt_tweak_one_ne : (Cipher.RoundKeys.ofKey (Tweak.block ⟨1⟩)).encrypt 0 ≠
    (Cipher.RoundKeys.ofKey 0).encrypt 0 := by
  decide +kernel

theorem permutation_hashOfOne (b : Block) (t : Tweak) : m.permutation (hashOfOne b) t =
    (Cipher.RoundKeys.ofKey (if m.blocks.count b % 2 = 1 then t.block else 0)).encrypt := by
  rw [permutation, sumOfHashes_hashOfOne]

/-- With the hash of a block, one permutation or the other shows whether the block counts. -/
theorem counts_iff_permutation_hashOfOne (b : Block) :
    m.Counts b ↔ m.permutation (hashOfOne b) ⟨1⟩ ≠ m.permutation (hashOfOne b) ⟨0⟩ := by
  have hzero : Tweak.block ⟨0⟩ = 0 := rfl
  rw [permutation_hashOfOne, permutation_hashOfOne, hzero, ite_self, Counts]
  by_cases hodd : m.blocks.count b % 2 = 1
  · rw [if_pos hodd]
    exact iff_of_true hodd fun h => encrypt_tweak_one_ne (congrFun h 0)
  · rw [if_neg hodd]
    exact iff_of_false hodd fun h => h rfl

end MultiKey

/-! ## What the scheme reads -/

namespace Scheme

/-- Encryption is the permutation that the keys select with the fixed hash. -/
theorem encrypt_block_eq (m : MultiKey) (t : Tweak) (plaintext : Bytes) :
    Scheme.block.encrypt ⟨some m, some t⟩ plaintext = (pad Block.size plaintext).map fun block =>
      (m.permutation fixedHash t (Block.ofBytes block)).toBytes := by
  show BlockScheme.encrypt ⟨some m, some t⟩ plaintext = _
  unfold BlockScheme.encrypt
  cases pad Block.size plaintext <;> rfl

/-- For multi-keys of any scheme. Those in which the same blocks occur an odd number of times
encrypt alike, whatever other keys they hold, how often and in which order. One in which no block
does encrypts under the same cipher whatever the tweak, and one in which exactly one does never
under the same cipher for two tweaks. With any hash in place of the fixed one nothing else is lost:
two multi-keys select the same permutations for all hashes only in the first case, and permutations
that do not depend on the tweak only in the second. -/
theorem block_scheme_reads_the_blocks_of_odd_number (m m' : MultiKey) :
    ((∀ b, m.Counts b ↔ m'.Counts b) → ∀ t plaintext,
      Scheme.block.encrypt ⟨some m, some t⟩ plaintext =
        Scheme.block.encrypt ⟨some m', some t⟩ plaintext) ∧
    ((∀ b, ¬ m.Counts b) → ∀ t t' plaintext,
      Scheme.block.encrypt ⟨some m, some t⟩ plaintext =
        Scheme.block.encrypt ⟨some m, some t'⟩ plaintext) ∧
    (∀ b, (∀ x, m.Counts x ↔ x = b) → ∀ t t', t ≠ t' →
      BlockScheme.cipher ⟨some m, some t⟩ ≠ BlockScheme.cipher ⟨some m, some t'⟩) ∧
    ((∀ hash t, m.permutation hash t = m'.permutation hash t) ↔
      ∀ b, m.Counts b ↔ m'.Counts b) ∧
    ((∀ hash t t', m.permutation hash t = m.permutation hash t') ↔ ∀ b, ¬ m.Counts b) := by
  refine ⟨?_, ?_, ?_, ?_, ?_⟩
  · intro h t plaintext
    rw [encrypt_block_eq, encrypt_block_eq, MultiKey.permutation_congr h]
  · intro h t t' plaintext
    rw [encrypt_block_eq, encrypt_block_eq, MultiKey.permutation_of_none h,
      MultiKey.permutation_of_none h]
  · intro b h t t' hne hsame
    have hkeys := Cipher.RoundKeys.ofKey_injective (Except.ok.inj hsame)
    rw [MultiKey.sumOfHashes_of_one h, MultiKey.sumOfHashes_of_one h] at hkeys
    exact hne (Tweak.block_injective (fixedHash_tweak_injective hkeys))
  · refine ⟨fun h b => ?_, fun h hash t => MultiKey.permutation_congr h t⟩
    rw [MultiKey.counts_iff_permutation_hashOfOne, MultiKey.counts_iff_permutation_hashOfOne, h, h]
  · refine ⟨fun h b hcounts => ?_, fun h hash t t' => ?_⟩
    · exact (MultiKey.counts_iff_permutation_hashOfOne b).1 hcounts (h _ _ _)
    · rw [MultiKey.permutation_of_none h, MultiKey.permutation_of_none h]

theorem a_key_is_read_through_pairs_and_short_keys :
    let key := List.replicate 16 (17 : UInt8)
    let other := Bytes.zeros 16
    (∀ t plaintext, Scheme.block.encrypt ⟨some ⟨[other, other, key]⟩, some t⟩ plaintext =
      Scheme.block.encrypt ⟨some ⟨[[1], key]⟩, some t⟩ plaintext) ∧
    BlockScheme.cipher ⟨some ⟨[other, other, key]⟩, some ⟨0⟩⟩ ≠
      BlockScheme.cipher ⟨some ⟨[other, other, key]⟩, some ⟨1⟩⟩ ∧
    ∀ plaintext, Scheme.block.encrypt ⟨some ⟨[key, key]⟩, some ⟨0⟩⟩ plaintext =
      Scheme.block.encrypt ⟨some ⟨[key, key]⟩, some ⟨1⟩⟩ plaintext := by
  intro key other
  have hpair : ∀ b, (⟨[other, other, key]⟩ : MultiKey).Counts b ↔ b = Block.ofBytes key :=
    fun b => (MultiKey.counts_pair other [key] b).trans (MultiKey.counts_singleton rfl b)
  have hshort : ∀ b, (⟨[[1], key]⟩ : MultiKey).Counts b ↔ b = Block.ofBytes key :=
    fun b => by
      rw [MultiKey.Counts, MultiKey.blocks_cons_of_dropped (by decide)]
      exact MultiKey.counts_singleton rfl b
  have hnone : ∀ b, ¬ (⟨[key, key]⟩ : MultiKey).Counts b :=
    fun b h => MultiKey.not_counts_nil b ((MultiKey.counts_pair key [] b).1 h)
  have hlaw := block_scheme_reads_the_blocks_of_odd_number ⟨[other, other, key]⟩ ⟨[[1], key]⟩
  have hlaw' := block_scheme_reads_the_blocks_of_odd_number ⟨[key, key]⟩ ⟨[key, key]⟩
  exact ⟨hlaw.1 fun b => (hpair b).trans (hshort b).symm,
    hlaw.2.2.1 _ hpair _ _ (by decide), hlaw'.2.1 hnone _ _⟩

/-- Two multi-keys that the scheme makes itself, each of one key twice, and one of a short key that
the other scheme makes: under all tweaks they encrypt alike. -/
theorem repeated_and_short_keys_are_ignored :
    let key := Bytes.zeros 16
    let other := List.replicate 16 (17 : UInt8)
    Scheme.block.multiKey [key, key] = .ok ⟨[key, key]⟩ ∧
    Scheme.block.multiKey [other, other] = .ok ⟨[other, other]⟩ ∧
    (Scheme.feistel 16).multiKey [[1]] = .ok ⟨[[1]]⟩ ∧
    [key, key] ≠ [other, other] ∧
    ∀ t t' block, block.length = Block.size → ∃ ciphertext,
      Scheme.block.encrypt ⟨some ⟨[key, key]⟩, some t⟩ block = .ok ciphertext ∧
      Scheme.block.encrypt ⟨some ⟨[other, other]⟩, some t'⟩ block = .ok ciphertext ∧
      Scheme.block.encrypt ⟨some ⟨[[1]]⟩, some t'⟩ block = .ok ciphertext := by
  intro key other
  refine ⟨rfl, rfl, rfl, by decide, fun t t' block hblock => ?_⟩
  have hpair : ∀ twice b, ¬ (⟨[twice, twice]⟩ : MultiKey).Counts b :=
    fun twice b h => MultiKey.not_counts_nil b ((MultiKey.counts_pair twice [] b).1 h)
  have hshort : ∀ b, ¬ (⟨[[1]]⟩ : MultiKey).Counts b :=
    fun b h => by
      rw [MultiKey.Counts, MultiKey.blocks_cons_of_dropped (by decide)] at h
      exact MultiKey.not_counts_nil b h
  have hpad : pad Block.size block = .ok block :=
    pad_eq_ok.2 ⟨Nat.le_of_eq hblock, Bytes.padTo_self hblock⟩
  refine ⟨((Cipher.RoundKeys.ofKey 0).encrypt (Block.ofBytes block)).toBytes, ?_, ?_, ?_⟩
  · rw [encrypt_block_eq, hpad, MultiKey.permutation_of_none (hpair key)]
    rfl
  · rw [encrypt_block_eq, hpad, MultiKey.permutation_of_none (hpair other)]
    rfl
  · rw [encrypt_block_eq, hpad, MultiKey.permutation_of_none hshort]
    rfl

end Scheme

end Garbling
