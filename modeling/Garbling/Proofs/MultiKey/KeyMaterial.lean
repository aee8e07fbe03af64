-- The bytes that a round key is derived from say which keys and which
-- tweak they come from. Every key stands after its length, and only the
-- tweak is left where there are no more bytes than a tweak has, so that it
-- is never read as the length of one more key.
import Garbling.MultiKey.FeistelScheme
import Garbling.Proofs.MultiKey.Cancellation

namespace Garbling.Scheme.Feistel

@[simp] theorem length_tweak (tweak : Tweak) : tweak.toBytes.length = 16 := by
  simp [Tweak.toBytes]

theorem keyMaterial_nil (tweak : Tweak) : keyMaterial [] tweak = tweak.toBytes := rfl

/-- A key is framed by its length, and followed by the material of the other keys. -/
theorem keyMaterial_cons (key : Bytes) (keys : List Bytes) (tweak : Tweak) :
    keyMaterial (key :: keys) tweak = leBytes 8 key.length ++ (key ++ keyMaterial keys tweak) := by
  simp only [keyMaterial, List.flatMap_cons, List.append_assoc]

theorem le_length_keyMaterial (keys : List Bytes) (tweak : Tweak) :
    16 ≤ (keyMaterial keys tweak).length := by
  simp [keyMaterial]

/-- With a key there are more bytes than a tweak has. -/
theorem keyMaterial_nil_ne_cons (tweak tweak' : Tweak) (key : Bytes) (keys : List Bytes) :
    keyMaterial [] tweak ≠ keyMaterial (key :: keys) tweak' := by
  intro h
  have hlen := congrArg List.length h
  have hrest := le_length_keyMaterial keys tweak'
  rw [keyMaterial_nil, keyMaterial_cons, length_tweak, List.length_append, length_leBytes,
    List.length_append] at hlen
  omega

/-- The length of the first key says where it ends. -/
theorem keyMaterial_cons_inj {key key' : Bytes} {keys keys' : List Bytes} {tweak tweak' : Tweak}
    (hlen : key.length < 0x10000000000000000) (hlen' : key'.length < 0x10000000000000000)
    (h : keyMaterial (key :: keys) tweak = keyMaterial (key' :: keys') tweak') :
    key = key' ∧ keyMaterial keys tweak = keyMaterial keys' tweak' := by
  rw [keyMaterial_cons, keyMaterial_cons] at h
  obtain ⟨hlengths, hrest⟩ := List.append_inj h (by simp)
  exact List.append_inj hrest (leBytes_inj hlengths hlen hlen')

/-- Different keys or tweaks have different material, whatever the number of the keys and their
lengths, as long as each length fits the eight bytes that it is written in. -/
theorem keyMaterial_inj {keys keys' : List Bytes}
    (hlen : ∀ key ∈ keys, key.length < 0x10000000000000000)
    (hlen' : ∀ key ∈ keys', key.length < 0x10000000000000000)
    {tweak tweak' : Tweak} (h : keyMaterial keys tweak = keyMaterial keys' tweak') :
    keys = keys' ∧ tweak = tweak' := by
  induction keys generalizing keys' with
  | nil =>
    cases keys' with
    | nil => exact ⟨rfl, Tweak.toBytes_injective h⟩
    | cons key' keys' => exact absurd h (keyMaterial_nil_ne_cons _ _ _ _)
  | cons key keys ih =>
    cases keys' with
    | nil => exact absurd h.symm (keyMaterial_nil_ne_cons _ _ _ _)
    | cons key' keys' =>
      obtain ⟨hkey, hlens⟩ := List.forall_mem_cons.1 hlen
      obtain ⟨hkey', hlens'⟩ := List.forall_mem_cons.1 hlen'
      obtain ⟨rfl, hrest⟩ := keyMaterial_cons_inj hkey hkey' h
      obtain ⟨rfl, htweak⟩ := ih hlens hlens' hrest
      exact ⟨rfl, htweak⟩

/-- The material of the keys and the tweak that were set is what the round key is derived from. -/
theorem roundKey_eq {cipherSize : Nat} (h : 2 ≤ cipherSize) (key : MultiKey) (tweak : Tweak) :
    roundKey cipherSize ⟨some key, some tweak⟩ =
      .ok (Cipher.Blake3.deriveKey context (keyMaterial key.keys tweak)) :=
  if_neg (Nat.not_lt.2 h)

/-- Round keys are derived from different bytes for different keys or tweaks, whatever the number
of the keys and their lengths, as long as each length fits the eight bytes that it is written in:
the bytes that say which keys and which tweak were set are all that a round key comes from. -/
theorem round_key_material_is_unambiguous {keys keys' : List Bytes}
    (hlen : ∀ key ∈ keys, key.length < 0x10000000000000000)
    (hlen' : ∀ key ∈ keys', key.length < 0x10000000000000000)
    {tweak tweak' : Tweak} (h : keyMaterial keys tweak = keyMaterial keys' tweak') :
    (keys = keys' ∧ tweak = tweak') ∧ ∀ cipherSize, 2 ≤ cipherSize →
      roundKey cipherSize ⟨some ⟨keys⟩, some tweak⟩ =
        .ok (Cipher.Blake3.deriveKey context (keyMaterial keys tweak)) :=
  ⟨keyMaterial_inj hlen hlen' h, fun _ hsize => roundKey_eq hsize ⟨keys⟩ tweak⟩

/-- Two keys of different lengths and a tweak, spelled in two ways. -/
theorem material_of_two_keys_is_read_back :
    let keys := [Bytes.zeros 16, [1, 0, 0]]
    let keys' := [Bytes.zeros 15 ++ [0], 1 :: Bytes.zeros 2]
    keyMaterial keys ⟨5⟩ = keyMaterial keys' ⟨2 + 3⟩ ∧ (keys = keys' ∧ (⟨5⟩ : Tweak) = ⟨2 + 3⟩) ∧
      roundKey 2 ⟨some ⟨keys⟩, some ⟨5⟩⟩ =
        .ok (Cipher.Blake3.deriveKey context (keyMaterial keys ⟨5⟩)) := by
  intro keys keys'
  have hsame : keyMaterial keys ⟨5⟩ = keyMaterial keys' ⟨2 + 3⟩ := by decide
  obtain ⟨hread, hderived⟩ := round_key_material_is_unambiguous (by decide) (by decide) hsame
  exact ⟨hsame, hread, hderived 2 (by decide)⟩

end Garbling.Scheme.Feistel
