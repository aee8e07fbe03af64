-- Arrays of keys, wire by wire. An array of pairs with the right length
-- has a key for each wire and bit, and choosing a bit for each wire turns
-- it into an array of single keys. Layers and circuits do nothing else:
-- they lead a choice from one array of pairs to a choice from another.
import Garbling.Proofs.Outcomes

namespace Garbling

/-! ## Pieces of one length -/

theorem length_flatMap_range {f : Nat → Bytes} {n size : Nat}
    (h : ∀ i < n, (f i).length = size) : ((List.range n).flatMap f).length = n * size := by
  induction n with
  | zero => simp
  | succ n ih =>
    rw [List.range_succ, List.flatMap_append, List.length_append, ih fun i hi => h i (by omega)]
    simp [h n (by omega), Nat.succ_mul]

/-- The piece at a position, cut out of the whole. -/
theorem piece_of_flatMap_range {f : Nat → Bytes} {n size i : Nat}
    (h : ∀ i < n, (f i).length = size) (hi : i < n) :
    (((List.range n).flatMap f).drop (i * size)).take size = f i := by
  induction n with
  | zero => omega
  | succ n ih =>
    have hlen : ((List.range n).flatMap f).length = n * size :=
      length_flatMap_range fun j hj => h j (by omega)
    rw [List.range_succ, List.flatMap_append, List.flatMap_singleton]
    rcases Nat.lt_or_ge i n with hin | hin
    · have hle : (i + 1) * size ≤ n * size := Nat.mul_le_mul_right size hin
      rw [Nat.succ_mul] at hle
      rw [List.drop_append_of_le_length (by omega), List.take_append_of_le_length]
      · exact ih (fun j hj => h j (by omega)) hin
      · rw [List.length_drop]
        omega
    · have hii : i = n := by omega
      subst hii
      rw [← hlen, List.drop_left, ← h i (by omega), List.take_length]

theorem slice?_flatMap_range {f : Nat → Bytes} {n size i : Nat} (h : ∀ i < n, (f i).length = size)
    (hi : i < n) : Bytes.slice? ((List.range n).flatMap f) (i * size) size = some (f i) := by
  rw [Bytes.slice?_eq_some_iff]
  refine ⟨?_, piece_of_flatMap_range h hi⟩
  rw [length_flatMap_range h, ← Nat.succ_mul]
  exact Nat.mul_le_mul_right _ hi

/-- A string of `n` pieces of one length is what its pieces make together. -/
theorem flatMap_range_pieces {bs : Bytes} {n size : Nat} (h : bs.length = n * size) :
    ((List.range n).flatMap fun i => (bs.drop (i * size)).take size) = bs := by
  induction n generalizing bs with
  | zero =>
    rw [Nat.zero_mul, List.length_eq_zero_iff] at h
    rw [h]
    rfl
  | succ n ih =>
    have hdrop : (bs.drop size).length = n * size := by
      rw [List.length_drop, h, Nat.succ_mul]
      omega
    have hrest := ih hdrop
    simp only [List.drop_drop] at hrest
    rw [List.range_succ_eq_map, List.flatMap_cons, List.flatMap_map, Nat.zero_mul, List.drop_zero]
    simp only [Nat.succ_mul]
    simp only [Nat.add_comm size] at hrest
    rw [hrest, List.take_append_drop]

/-- A string is put together from the pieces that are found in it. -/
theorem eq_flatMap_range {bs : Bytes} {f : Nat → Bytes} {n size : Nat} (hlen : bs.length = n * size)
    (h : ∀ i < n, bs.slice? (i * size) size = some (f i)) : bs = (List.range n).flatMap f := by
  rw [← flatMap_range_pieces hlen, List.flatMap_def, List.flatMap_def]
  congr 1
  refine List.map_congr_left fun i hmem => ?_
  exact (Bytes.slice?_eq_some_iff.1 (h i (List.mem_range.1 hmem))).2

/-- A copy over the piece at a position changes this piece and no other. -/
theorem write?_flatMap_range {f : Nat → Bytes} {n size i : Nat} {part : Bytes}
    (h : ∀ j < n, (f j).length = size) (hi : i < n) (hpart : part.length = size) :
    Bytes.write? ((List.range n).flatMap f) (i * size) size part =
      some ((List.range n).flatMap fun j => if j = i then part else f j) := by
  obtain ⟨m, rfl⟩ := Nat.exists_eq_add_of_le (show i + 1 ≤ n from hi)
  have hbefore := length_flatMap_range fun j (hj : j < i) => h j (by omega)
  have hleft : ((List.range i).flatMap fun j => if j = i then part else f j) =
      (List.range i).flatMap f := by
    rw [List.flatMap_def, List.flatMap_def]
    congr 1
    refine List.map_congr_left fun j hmem => if_neg ?_
    have := List.mem_range.1 hmem
    omega
  have hright : ((List.range m).flatMap fun j => if i + 1 + j = i then part else f (i + 1 + j)) =
      (List.range m).flatMap fun j => f (i + 1 + j) := by
    rw [List.flatMap_def, List.flatMap_def]
    congr 1
    exact List.map_congr_left fun j _ => if_neg (by omega)
  simp only [List.range_add, List.range_succ, List.flatMap_append, List.flatMap_singleton,
    List.flatMap_map, if_true, hleft, hright]
  exact Bytes.write?_append hbefore (h i hi) hpart

namespace KeyArray

/-! ## The keys of an array -/

theorem keyAt?_eq_some {keys : Bytes} {size wires wire : Nat} (h : keys.length = wires * size)
    (hw : wire < wires) :
    keyAt? size keys wire = some ((keys.drop (wire * size)).take size) := by
  have hle : (wire + 1) * size ≤ wires * size := Nat.mul_le_mul_right size hw
  rw [Nat.succ_mul] at hle
  rw [keyAt?, Bytes.slice?_eq_some_iff]
  exact ⟨by omega, rfl⟩

/-- The key of a wire for a bit, in an array of pairs that has one. -/
def keyFor (size : Nat) (pairs : Bytes) (wire : Nat) (bit : Bool) : Bytes :=
  (pairs.drop ((2 * wire + bit.toNat) * size)).take size

theorem bitKeyAt?_eq_some {pairs : Bytes} {size wires wire : Nat} {bit : Bool}
    (h : pairs.length = 2 * wires * size) (hw : wire < wires) :
    bitKeyAt? size pairs wire bit = some (keyFor size pairs wire bit) := by
  apply keyAt?_eq_some h
  have := bit.toNat_lt
  omega

theorem length_keyFor {pairs : Bytes} {size wires wire : Nat} {bit : Bool}
    (h : pairs.length = 2 * wires * size) (hw : wire < wires) :
    (keyFor size pairs wire bit).length = size :=
  Bytes.length_of_slice? (bitKeyAt?_eq_some h hw)

theorem length_flatMap_pairs {key : Nat → Bool → Bytes} {size wires : Nat}
    (h : ∀ w < wires, ∀ b, (key w b).length = size) :
    ((List.range wires).flatMap fun w => key w false ++ key w true).length = 2 * wires * size := by
  have hpair : ∀ w < wires, (key w false ++ key w true).length = 2 * size := by
    intro w hw
    rw [List.length_append, h w hw, h w hw]
    omega
  rw [length_flatMap_range hpair, ← Nat.mul_assoc, Nat.mul_comm wires]

/-- The keys of an array that was put together from the two keys of each wire. -/
theorem keyFor_flatMap (key : Nat → Bool → Bytes) {size wires wire : Nat} {bit : Bool}
    (h : ∀ w < wires, ∀ b, (key w b).length = size) (hw : wire < wires) :
    keyFor size ((List.range wires).flatMap fun w => key w false ++ key w true) wire bit =
      key wire bit := by
  have hlen : ∀ w < wires, (key w false ++ key w true).length = 2 * size := by
    intro w hw
    rw [List.length_append, h w hw, h w hw]
    omega
  have hpair := piece_of_flatMap_range hlen hw
  generalize ((List.range wires).flatMap fun w => key w false ++ key w true) = pairs at hpair
  have hcut : ∀ i, i + size ≤ 2 * size → (pairs.drop (wire * (2 * size) + i)).take size =
      ((key wire false ++ key wire true).drop i).take size := by
    intro i hi
    rw [← hpair, List.drop_take, List.take_take, List.drop_drop, Nat.min_eq_left (by omega)]
  have h0 := h wire hw false
  have h1 := h wire hw true
  unfold keyFor
  cases bit with
  | false =>
    have := hcut 0 (by omega)
    rw [List.drop_zero, List.take_append_of_le_length (by omega), ← h0, List.take_length] at this
    rw [h0] at this
    rw [Bool.toNat_false, Nat.add_zero, Nat.mul_comm 2, Nat.mul_assoc]
    exact this
  | true =>
    have := hcut size (by omega)
    rw [List.drop_left' h0, ← h1, List.take_length] at this
    rw [h1] at this
    rw [Bool.toNat_true, Nat.succ_mul, Nat.mul_comm 2, Nat.mul_assoc]
    exact this

/-- An array of pairs is what its keys make together. -/
theorem flatMap_keyFor {pairs : Bytes} {size wires : Nat} (h : pairs.length = 2 * wires * size) :
    ((List.range wires).flatMap fun w => keyFor size pairs w false ++ keyFor size pairs w true) =
      pairs := by
  have hlen : pairs.length = wires * (2 * size) := by rw [h, Nat.mul_comm 2, Nat.mul_assoc]
  have hpiece : ∀ w, keyFor size pairs w false ++ keyFor size pairs w true =
      (pairs.drop (w * (2 * size))).take (2 * size) := by
    intro w
    have h0 : (2 * w + false.toNat) * size = w * (2 * size) := by
      rw [Bool.toNat_false, Nat.add_zero, Nat.mul_comm 2, Nat.mul_assoc]
    have h1 : (2 * w + true.toNat) * size = w * (2 * size) + size := by
      rw [Bool.toNat_true, Nat.succ_mul, Nat.mul_comm 2, Nat.mul_assoc]
    rw [keyFor, keyFor, h0, h1, Nat.two_mul size, List.take_add, List.drop_drop]
  simp only [hpiece]
  exact flatMap_range_pieces hlen

/-- An array of pairs is put together from the keys that are found in it. -/
theorem eq_flatMap_pairs_iff (key : Nat → Bool → Bytes) {pairs : Bytes} {size wires : Nat}
    (h : ∀ w < wires, ∀ bit, (key w bit).length = size) :
    pairs = ((List.range wires).flatMap fun w => key w false ++ key w true) ↔
      pairs.length = 2 * wires * size ∧
        ∀ w < wires, ∀ bit, bitKeyAt? size pairs w bit = some (key w bit) := by
  constructor
  · rintro rfl
    refine ⟨length_flatMap_pairs h, fun w hw bit => ?_⟩
    rw [bitKeyAt?_eq_some (length_flatMap_pairs h) hw, keyFor_flatMap key h hw]
  · rintro ⟨hlen, hkey⟩
    have hfor : ∀ w < wires, ∀ bit, keyFor size pairs w bit = key w bit := fun w hw bit =>
      Option.some.inj ((bitKeyAt?_eq_some hlen hw).symm.trans (hkey w hw bit))
    rw [← flatMap_keyFor hlen, List.flatMap_def, List.flatMap_def]
    congr 1
    refine List.map_congr_left fun w hmem => ?_
    have hw := List.mem_range.1 hmem
    rw [hfor w hw, hfor w hw]

/-! ## A bit for each wire -/

/-- One key per wire: that of the array for the bit of the wire. -/
def choose (size wires : Nat) (pairs : Bytes) (bit : Nat → Bool) : Bytes :=
  (List.range wires).flatMap fun wire => keyFor size pairs wire (bit wire)

theorem choose_congr {size wires : Nat} {bit bit' : Nat → Bool}
    (h : ∀ wire < wires, bit wire = bit' wire) (pairs : Bytes) :
    choose size wires pairs bit = choose size wires pairs bit' := by
  rw [choose, choose, List.flatMap_def, List.flatMap_def]
  congr 1
  refine List.map_congr_left fun wire hmem => ?_
  rw [h wire (List.mem_range.1 hmem)]

theorem length_choose {pairs : Bytes} {size wires : Nat} (h : pairs.length = 2 * wires * size)
    (bit : Nat → Bool) : (choose size wires pairs bit).length = wires * size :=
  length_flatMap_range fun _ hw => length_keyFor h hw

theorem piece_choose {pairs : Bytes} {size wires wire : Nat} {bit : Nat → Bool}
    (h : pairs.length = 2 * wires * size) (hw : wire < wires) :
    ((choose size wires pairs bit).drop (wire * size)).take size =
      keyFor size pairs wire (bit wire) :=
  piece_of_flatMap_range (fun _ hw => length_keyFor h hw) hw

theorem keyAt?_choose {pairs : Bytes} {size wires wire : Nat} {bit : Nat → Bool}
    (h : pairs.length = 2 * wires * size) (hw : wire < wires) :
    keyAt? size (choose size wires pairs bit) wire = some (keyFor size pairs wire (bit wire)) := by
  rw [keyAt?_eq_some (length_choose h bit) hw, piece_choose h hw]

/-- Keys are chosen by some bits if each of them is the recorded key of its wire for its bit. -/
theorem eq_choose_iff {size wires : Nat} {keys pairs : Bytes} {bit : Nat → Bool}
    (hkeys : keys.length = wires * size) (hpairs : pairs.length = 2 * wires * size) :
    keys = choose size wires pairs bit ↔
      ∀ wire < wires, keyAt? size keys wire = bitKeyAt? size pairs wire (bit wire) := by
  constructor
  · rintro rfl wire hw
    rw [keyAt?_choose hpairs hw, bitKeyAt?_eq_some hpairs hw]
  · intro h
    exact eq_flatMap_range hkeys fun wire hw => (h wire hw).trans (bitKeyAt?_eq_some hpairs hw)

/-! ## Recorded keys -/

/-- The key of the wire is neither of its two recorded keys. -/
def Foreign (size : Nat) (keys pairs : Bytes) (wire : Nat) : Prop :=
  ∀ bit, keyAt? size keys wire ≠ bitKeyAt? size pairs wire bit

instance (size : Nat) (keys pairs : Bytes) (wire : Nat) :
    Decidable (Foreign size keys pairs wire) :=
  inferInstanceAs (Decidable (∀ _, _))

theorem not_foreign {size : Nat} {keys pairs : Bytes} {wire : Nat} :
    ¬ Foreign size keys pairs wire ↔
      ∃ bit, keyAt? size keys wire = bitKeyAt? size pairs wire bit := by
  simp only [Foreign, ne_eq, Classical.not_forall, Classical.not_not]

/-- The check of one wire refuses a foreign key, and nothing else. -/
theorem checkRecorded_eq {size wires : Nat} {keys pairs : Bytes}
    (hkeys : keys.length = wires * size) (hpairs : pairs.length = 2 * wires * size) {wire : Nat}
    (hw : wire < wires) : checkRecorded size keys pairs wire =
      if Foreign size keys pairs wire then .error (.cheatAttempt wire) else .ok () := by
  simp only [checkRecorded, Foreign, Bool.forall_bool, keyAt?_eq_some hkeys hw,
    bitKeyAt?_eq_some hpairs hw, inRange, ok_bind, ne_eq, Option.some.injEq, ← not_or, ite_not]
  rfl

/-- The keys that pass the check are those that some bits choose. -/
theorem checkAllRecorded_eq_ok {size wires : Nat} {keys pairs : Bytes} :
    checkAllRecorded size wires keys pairs = .ok () ↔
      pairs.length = 2 * wires * size ∧ ∃ bit, keys = choose size wires pairs bit := by
  unfold checkAllRecorded
  rw [check_bind_eq_ok, check_bind_eq_ok, checkLength_eq_ok, checkLength_eq_ok]
  constructor
  · rintro ⟨hkeys, hpairs, h⟩
    have hbit : ∀ wire, ∃ bit, wire < wires →
        keyAt? size keys wire = bitKeyAt? size pairs wire bit := by
      intro wire
      by_cases hw : wire < wires
      · have hwire := forM_eq_ok.1 h wire (List.mem_range.2 hw)
        rw [checkRecorded_eq hkeys hpairs hw] at hwire
        have hrecorded : ¬ Foreign size keys pairs wire := by simpa using hwire
        obtain ⟨bit, hkey⟩ := not_foreign.1 hrecorded
        exact ⟨bit, fun _ => hkey⟩
      · exact ⟨false, fun h => absurd h hw⟩
    obtain ⟨bit, hbit⟩ := Classical.skolem.1 hbit
    exact ⟨hpairs, bit, (eq_choose_iff hkeys hpairs).2 hbit⟩
  · rintro ⟨hpairs, bit, rfl⟩
    have hkeys := length_choose hpairs bit
    refine ⟨hkeys, hpairs, forM_eq_ok.2 fun wire hmem => ?_⟩
    have hw := List.mem_range.1 hmem
    rw [checkRecorded_eq hkeys hpairs hw, if_neg]
    exact not_foreign.2 ⟨bit wire, (eq_choose_iff hkeys hpairs).1 rfl wire hw⟩

/-- The check names the first wire with a foreign key. -/
theorem checkAllRecorded_eq_error {size wires : Nat} {keys pairs : Bytes}
    (hkeys : keys.length = wires * size) (hpairs : pairs.length = 2 * wires * size) {wire : Nat}
    (hw : wire < wires) (hforeign : Foreign size keys pairs wire)
    (hfirst : ∀ before < wire, ¬ Foreign size keys pairs before) :
    checkAllRecorded size wires keys pairs = .error (.cheatAttempt wire) := by
  unfold checkAllRecorded
  rw [checkLength_eq_ok.2 hkeys, ok_bind, checkLength_eq_ok.2 hpairs, ok_bind]
  refine forM_range_eq_error hw (fun before hbefore => ?_) ?_
  · rw [checkRecorded_eq hkeys hpairs (Nat.lt_trans hbefore hw), if_neg (hfirst before hbefore)]
  · rw [checkRecorded_eq hkeys hpairs hw, if_pos hforeign]

/-- Chosen keys are recorded keys. -/
theorem checkAllRecorded_choose {pairs : Bytes} {size wires : Nat} {bit : Nat → Bool}
    (h : pairs.length = 2 * wires * size) :
    checkAllRecorded size wires (choose size wires pairs bit) pairs = .ok () :=
  checkAllRecorded_eq_ok.2 ⟨h, bit, rfl⟩

/-- Keys that pass the check are recorded for one bit or the other. -/
theorem of_checkAllRecorded {size wires : Nat} {keys pairs : Bytes}
    (h : checkAllRecorded size wires keys pairs = .ok ()) {wire : Nat} (hw : wire < wires) :
    ∃ bit, keyAt? size keys wire = bitKeyAt? size pairs wire bit := by
  obtain ⟨hpairs, bit, rfl⟩ := checkAllRecorded_eq_ok.1 h
  exact ⟨bit wire, (eq_choose_iff (length_choose hpairs bit) hpairs).1 rfl wire hw⟩

end KeyArray

end Garbling
