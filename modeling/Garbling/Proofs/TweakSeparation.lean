-- What the uses of the hash in one circuit share. The table of a gate
-- hashes the labels that it reads under tweaks that hold twice the number
-- of the gate, least significant byte first. An identity gate hashes its
-- keys under a tweak that holds its own number in the last four bytes.
-- The two kinds of tweaks meet in the number 0, and nowhere else.
import Mathlib.Algebra.GroupWithZero.Nat
import Mathlib.Data.List.Dedup
import Garbling.Proofs.GateRows
import Garbling.Proofs.MultiKey.Cancellation

namespace Garbling

/-! ## Tweaks as numbers -/

theorem toNat_gateTweaks {gate : Nat} (h : gate < 2 ^ 63) :
    (gateTweaks gate).1.toNat = 2 * gate ∧ (gateTweaks gate).2.toNat = 2 * gate + 1 := by
  simp only [gateTweaks, BitVec.toNat_ofNat]
  omega

theorem ofLeBytes_zeros_append (n : Nat) (bs : Bytes) :
    ofLeBytes (Bytes.zeros n ++ bs) = Nat.pow 256 n * ofLeBytes bs := by
  induction n with
  | zero => exact (Nat.one_mul _).symm
  | succ n ih =>
    have hpow : Nat.pow 256 (n + 1) = 256 * Nat.pow 256 n := Nat.mul_comm _ 256
    have hfirst : Bytes.zeros (n + 1) ++ bs = 0 :: (Bytes.zeros n ++ bs) := rfl
    rw [hfirst, ofLeBytes, ih, hpow, Nat.mul_assoc]
    exact Nat.zero_add _

/-- The number of an identity gate stands in the four most significant bytes of its tweak. -/
theorem Tweak.toNat_block (t : Tweak) :
    t.block.toNat = 2 ^ 96 * ofLeBytes (beBytes 4 t.gate.toNat) := by
  have hlt := ofLeBytes_lt (beBytes 4 t.gate.toNat)
  rw [length_beBytes, show Nat.pow 256 4 = 2 ^ 32 from rfl] at hlt
  rw [block, Block.ofBytes, toBytes, ofLeBytes_zeros_append, BitVec.toNat_ofNat,
    show Nat.pow 256 12 = 2 ^ 96 from rfl]
  omega

/-- A tweak that leaves its last four bytes zero is that of the first identity gate. -/
theorem Tweak.eq_zero_of_toNat_lt {t : Tweak} (h : t.block.toNat < 2 ^ 96) : t = ⟨0⟩ := by
  have hblock := t.toNat_block
  have hzero : t.block = Tweak.block ⟨0⟩ := by
    apply BitVec.eq_of_toNat_eq
    show t.block.toNat = 0
    omega
  exact Tweak.block_injective hzero

theorem gateTweaks_fst_eq_block_iff {gate : Nat} (h : gate < 2 ^ 63) {t : Tweak} :
    (gateTweaks gate).1 = t.block ↔ gate = 0 ∧ t = ⟨0⟩ := by
  obtain ⟨hfst, _⟩ := toNat_gateTweaks h
  constructor
  · intro hsame
    rw [hsame] at hfst
    obtain rfl := Tweak.eq_zero_of_toNat_lt (t := t) (by omega)
    have hzero : (Tweak.block ⟨0⟩).toNat = 0 := rfl
    exact ⟨by omega, rfl⟩
  · rintro ⟨rfl, rfl⟩
    rfl

theorem gateTweaks_snd_ne_block {gate : Nat} (h : gate < 2 ^ 63) (t : Tweak) :
    (gateTweaks gate).2 ≠ t.block := by
  obtain ⟨_, hsnd⟩ := toNat_gateTweaks h
  intro hsame
  rw [hsame] at hsnd
  obtain rfl := Tweak.eq_zero_of_toNat_lt (t := t) (by omega)
  have hzero : (Tweak.block ⟨0⟩).toNat = 0 := rfl
  omega

/-- The tweaks of a gate differ in their lowest bit, whatever its number is. -/
theorem gateTweaks_fst_ne_snd (gate : Nat) : (gateTweaks gate).1 ≠ (gateTweaks gate).2 := by
  intro hsame
  have hnumber := congrArg BitVec.toNat hsame
  simp only [gateTweaks, BitVec.toNat_ofNat] at hnumber
  omega

/-- Half of a tweak is the number of its gate. -/
theorem toNat_div_two_of_mem {gate : Nat} (h : gate < 2 ^ 63) {tweak : Block}
    (hmem : tweak ∈ [(gateTweaks gate).1, (gateTweaks gate).2]) : tweak.toNat / 2 = gate := by
  obtain ⟨hfst, hsnd⟩ := toNat_gateTweaks h
  simp only [List.mem_cons, List.not_mem_nil, or_false] at hmem
  rcases hmem with rfl | rfl
  · omega
  · omega

theorem gateTweaks_disjoint {gate gate' : Nat} (h : gate < 2 ^ 63) (h' : gate' < 2 ^ 63)
    (hne : gate ≠ gate') : ∀ tweak ∈ [(gateTweaks gate).1, (gateTweaks gate).2],
      tweak ∉ [(gateTweaks gate').1, (gateTweaks gate').2] := by
  intro tweak hmem hmem'
  exact hne ((toNat_div_two_of_mem h hmem).symm.trans (toNat_div_two_of_mem h' hmem'))

/-! ## What reads the hash where -/

section

variable {α : Type} {f : (Block → Block → Block) → α} {tweak x : Block}

/-- The result reads the hash of the block under the tweak: two hashes that differ nowhere else
give two results. -/
def ReadsHash (f : (Block → Block → Block) → α) (tweak x : Block) : Prop :=
  ∃ hash hash', (∀ tweak' x', (tweak', x') ≠ (tweak, x) → hash tweak' x' = hash' tweak' x') ∧
    f hash ≠ f hash'

/-- What is fixed by the hash in some places reads it there only. -/
theorem ReadsHash.of_congr (places : Block → Block → Prop)
    (h : ∀ hash hash', (∀ tweak x, places tweak x → hash tweak x = hash' tweak x) →
      f hash = f hash') (hreads : ReadsHash f tweak x) : places tweak x := by
  obtain ⟨hash, hash', hsame, hne⟩ := hreads
  refine Classical.byContradiction fun hplace => hne (h hash hash' fun tweak' x' hplace' => ?_)
  refine hsame tweak' x' fun heq => ?_
  cases heq
  exact hplace hplace'

/-- The hash that is zero but for one block under one tweak. -/
def hashAt (tweak x value : Block) : Block → Block → Block := fun tweak' x' =>
  if tweak' = tweak ∧ x' = x then value else 0

theorem hashAt_self (tweak x value : Block) : hashAt tweak x value tweak x = value :=
  if_pos ⟨rfl, rfl⟩

theorem hashAt_of_tweak_ne {tweak' : Block} (h : tweak' ≠ tweak) (value x' : Block) :
    hashAt tweak x value tweak' x' = 0 := if_neg fun hboth => h hboth.1

theorem readsHash_of_hashAt (value value' : Block)
    (h : f (hashAt tweak x value) ≠ f (hashAt tweak x value')) : ReadsHash f tweak x := by
  refine ⟨_, _, fun tweak' x' hne => ?_, h⟩
  have hother : ¬ (tweak' = tweak ∧ x' = x) := by
    rintro ⟨rfl, rfl⟩
    exact hne rfl
  rw [hashAt, hashAt, if_neg hother, if_neg hother]

end

/-! ## Tables -/

/-- The hash of a pair of labels at a gate, from any hash of blocks. -/
def pairHashWith (hash : Block → Block → Block) : PairHash := fun gate x y =>
  hash (gateTweaks gate).1 x ^^^ hash (gateTweaks gate).2 y

theorem pairHashWith_fixedHash : pairHashWith fixedHash = fixedPairHash := rfl

namespace GateTable

variable {gate : Nat} {op : Bool → Bool → Bool} {offset a b c : Block}

/-- Each of the four pairs of labels is hashed for a row of its own. -/
theorem garble_eq_iff {hash hash' : PairHash} :
    garble hash gate op offset a b c = garble hash' gate op offset a b c ↔
      ∀ x y, hash gate (labelFor offset a x) (labelFor offset b y) =
        hash' gate (labelFor offset a x) (labelFor offset b y) := by
  constructor
  · intro hsame x y
    have hrow := row?_bitPairs
      (fun s t => entry hash gate op offset a b c (s ^^ a.signal) (t ^^ b.signal))
      (x ^^ a.signal) (y ^^ b.signal)
    have hrow' := row?_bitPairs
      (fun s t => entry hash' gate op offset a b c (s ^^ a.signal) (t ^^ b.signal))
      (x ^^ a.signal) (y ^^ b.signal)
    unfold garble at hsame
    rw [hsame, hrow', Option.some.injEq, Bool.xor_assoc, Bool.xor_self, Bool.xor_false,
      Bool.xor_assoc, Bool.xor_self, Bool.xor_false] at hrow
    exact ((BitVec.xor_left_inj _).1 hrow).symm
  · intro hsame
    simp only [garble, entry, hsame]

/-- The table of a gate hashes the labels of the left wire under the one tweak of the gate and
those of the right wire under the other. -/
theorem readsHash_garble_iff {tweak x : Block} :
    ReadsHash (fun hash => garble (pairHashWith hash) gate op offset a b c) tweak x ↔
      (tweak = (gateTweaks gate).1 ∧ ∃ bit, x = labelFor offset a bit) ∨
        (tweak = (gateTweaks gate).2 ∧ ∃ bit, x = labelFor offset b bit) := by
  constructor
  · refine ReadsHash.of_congr (fun tweak x =>
      (tweak = (gateTweaks gate).1 ∧ ∃ bit, x = labelFor offset a bit) ∨
        (tweak = (gateTweaks gate).2 ∧ ∃ bit, x = labelFor offset b bit)) fun hash hash' hsame => ?_
    refine garble_eq_iff.2 fun x y => ?_
    rw [pairHashWith, pairHashWith, hsame _ _ (.inl ⟨rfl, x, rfl⟩), hsame _ _ (.inr ⟨rfl, y, rfl⟩)]
  · have hone : (1 : Block) ≠ 0 := by decide
    have hne := gateTweaks_fst_ne_snd gate
    rintro (⟨rfl, bit, rfl⟩ | ⟨rfl, bit, rfl⟩)
    · refine readsHash_of_hashAt 1 0 fun hsame => hone ?_
      have hpair := garble_eq_iff.1 hsame bit false
      rw [pairHashWith, pairHashWith, hashAt_self, hashAt_self, hashAt_of_tweak_ne hne.symm,
        hashAt_of_tweak_ne hne.symm] at hpair
      exact (BitVec.xor_left_inj _).1 hpair
    · refine readsHash_of_hashAt 1 0 fun hsame => hone ?_
      have hpair := garble_eq_iff.1 hsame false bit
      rw [pairHashWith, pairHashWith, hashAt_self, hashAt_self, hashAt_of_tweak_ne hne,
        hashAt_of_tweak_ne hne] at hpair
      exact (BitVec.xor_right_inj _).1 hpair

end GateTable

/-! ## Keys -/

namespace MultiKey

variable {m : MultiKey} {t : Tweak}

instance (b : Block) : Decidable (m.Counts b) :=
  inferInstanceAs (Decidable (m.blocks.count b % 2 = 1))

/-- The sum is that of the blocks that count, each of them taken once. -/
theorem sumOfHashes_eq_dedup (hash : Block → Block → Block) (tweak : Block) :
    sumOfHashes hash tweak m.blocks =
      sumOfHashes hash tweak (m.blocks.dedup.filter (m.Counts ·)) := by
  refine Garbling.sumOfHashes_congr fun b => ?_
  by_cases hcounts : m.Counts b
  · have hodd : m.blocks.count b % 2 = 1 := hcounts
    have hmem : b ∈ m.blocks := List.count_pos_iff.1 (by omega)
    rw [List.count_filter (by simpa using hcounts), List.count_dedup, if_pos hmem, hodd]
  · have hnot : b ∉ m.blocks.dedup.filter (m.Counts ·) := fun hmem =>
      hcounts (of_decide_eq_true (List.mem_filter.1 hmem).2)
    rw [List.count_eq_zero_of_not_mem hnot]
    unfold Counts at hcounts
    omega

theorem sumOfHashes_congr_hash {hash hash' : Block → Block → Block} {tweak : Block}
    (h : ∀ b, m.Counts b → hash tweak b = hash' tweak b) :
    sumOfHashes hash tweak m.blocks = sumOfHashes hash' tweak m.blocks := by
  rw [sumOfHashes_eq_dedup, sumOfHashes_eq_dedup, sumOfHashes, sumOfHashes]
  refine List.foldl_ext _ _ _ fun sum b hmem => ?_
  rw [h b (of_decide_eq_true (List.mem_filter.1 hmem).2)]

/-- The hash of one block under one tweak is the whole sum, if this block counts. -/
theorem sumOfHashes_hashAt {tweak x : Block} (h : m.Counts x) (value : Block) :
    sumOfHashes (hashAt tweak x value) tweak m.blocks = value := by
  have hone : ∀ b, hashAt tweak x value tweak b = hashOfOne x value b := by
    intro b
    simp [hashAt, hashOfOne]
  have hsum : sumOfHashes (hashAt tweak x value) tweak m.blocks =
      sumOfHashes (hashOfOne x) value m.blocks := by
    simp only [sumOfHashes, hone]
  rw [hsum, sumOfHashes_hashOfOne]
  exact if_pos h

/-- The cipher of a multi-key reads the hash of the blocks that count, under the tweak that it is
given. -/
theorem readsHash_permutation_iff {tweak x : Block} :
    ReadsHash (fun hash => m.permutation hash t) tweak x ↔ tweak = t.block ∧ m.Counts x := by
  constructor
  · refine ReadsHash.of_congr (fun tweak x => tweak = t.block ∧ m.Counts x)
      fun hash hash' hsame => ?_
    rw [permutation, permutation, sumOfHashes_congr_hash fun b hb => hsame _ _ ⟨rfl, hb⟩]
  · rintro ⟨rfl, hcounts⟩
    refine readsHash_of_hashAt (Tweak.block ⟨1⟩) 0 fun hsame => ?_
    rw [permutation, permutation, sumOfHashes_hashAt hcounts, sumOfHashes_hashAt hcounts] at hsame
    exact encrypt_tweak_one_ne (congrFun hsame 0)

end MultiKey

/-! ## What is shared -/

/-- For gates below 2^63 and any identity gate. The tweaks of the gates are all different. One of
them is the tweak of an identity gate in a single case: the first tweak of the gate 0 is that of
the identity gate 0. So a table and the cipher of an identity gate hash the same block under the
same tweak exactly where the first gate has a table, of which a label of the left wire is also
a key of the first identity gate. -/
theorem tweaks_separate_all_uses_but_those_of_the_first_gates {gate gate' : Nat}
    (h : gate < 2 ^ 63) (h' : gate' < 2 ^ 63) (t : Tweak) :
    (gateTweaks gate).1 ≠ (gateTweaks gate).2 ∧
    (gate ≠ gate' → ∀ tweak ∈ [(gateTweaks gate).1, (gateTweaks gate).2],
      tweak ∉ [(gateTweaks gate').1, (gateTweaks gate').2]) ∧
    ((gateTweaks gate).1 = t.block ↔ gate = 0 ∧ t = ⟨0⟩) ∧
    (gateTweaks gate).2 ≠ t.block ∧
    ∀ op offset a b c (m : MultiKey) tweak x,
      ReadsHash (fun hash => GateTable.garble (pairHashWith hash) gate op offset a b c) tweak x ∧
        ReadsHash (fun hash => m.permutation hash t) tweak x ↔
      gate = 0 ∧ t = ⟨0⟩ ∧ tweak = 0 ∧ m.Counts x ∧ ∃ bit, x = labelFor offset a bit := by
  refine ⟨gateTweaks_fst_ne_snd gate, gateTweaks_disjoint h h', gateTweaks_fst_eq_block_iff h,
    gateTweaks_snd_ne_block h t, fun op offset a b c m tweak x => ?_⟩
  rw [GateTable.readsHash_garble_iff, MultiKey.readsHash_permutation_iff]
  constructor
  · rintro ⟨⟨htweak, hlabel⟩ | ⟨htweak, _⟩, rfl, hcounts⟩
    · obtain ⟨rfl, rfl⟩ := (gateTweaks_fst_eq_block_iff h).1 htweak.symm
      exact ⟨rfl, rfl, rfl, hcounts, hlabel⟩
    · exact absurd htweak.symm (gateTweaks_snd_ne_block h t)
  · rintro ⟨rfl, rfl, rfl, hcounts, hlabel⟩
    exact ⟨.inl ⟨rfl, hlabel⟩, rfl, hcounts⟩

/-- The first gate of a circuit and the last one that a doubled number has room for, and the first
identity gate. The labels 2 and 3 of the left wire are hashed for the table of the first gate, and
the key 3 is hashed at the identity gate. -/
theorem first_gate_shares_the_hash_of_a_left_label : 0 < 2 ^ 63 ∧ 2 ^ 63 - 1 < 2 ^ 63 ∧
    (∀ tweak ∈ [(gateTweaks 0).1, (gateTweaks 0).2],
      tweak ∉ [(gateTweaks (2 ^ 63 - 1)).1, (gateTweaks (2 ^ 63 - 1)).2]) ∧
    (gateTweaks (2 ^ 63 - 1)).1 ≠ Tweak.block ⟨0⟩ ∧
    ReadsHash (fun hash => GateTable.garble (pairHashWith hash) 0 (· && ·) 1 2 4 6) 0 3 ∧
    ReadsHash (fun hash => (⟨[Block.toBytes 3]⟩ : MultiKey).permutation hash ⟨0⟩) 0 3 := by
  have hzero : 0 < 2 ^ 63 := by decide
  have hlast : 2 ^ 63 - 1 < 2 ^ 63 := by decide
  obtain ⟨_, hapart, _, _, hshared⟩ :=
    tweaks_separate_all_uses_but_those_of_the_first_gates hzero hlast ⟨0⟩
  obtain ⟨_, _, hfst, _⟩ :=
    tweaks_separate_all_uses_but_those_of_the_first_gates hlast hzero ⟨0⟩
  have hcounts : (⟨[Block.toBytes 3]⟩ : MultiKey).Counts 3 :=
    (MultiKey.counts_singleton (Block.length_toBytes 3) 3).2 (Block.ofBytes_toBytes 3).symm
  have hreads := (hshared (· && ·) 1 2 4 6 _ 0 3).2 ⟨rfl, rfl, rfl, hcounts, true, rfl⟩
  exact ⟨hzero, hlast, hapart (by decide), fun hsame => absurd (hfst.1 hsame).1 (by decide), hreads⟩

end Garbling
