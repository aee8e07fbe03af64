-- One stream of bytes, however it is read. A reader in counter mode that
-- has handed out some bytes stands at that position of the keystream: what
-- is left of its block are the bytes up to the next counter. Every request
-- moves it on by the bytes that it gets, without a gap or a repetition.
import Mathlib.Algebra.GroupWithZero.Nat
import Garbling.Proofs.Keystreams

namespace Garbling

theorem leBytes_eq_map (count n : Nat) :
    leBytes count n = (List.range count).map fun i => UInt8.ofNat (n >>> (8 * i)) := by
  induction count generalizing n with
  | zero => rfl
  | succ count ih =>
    rw [leBytes, ih, List.range_succ_eq_map, List.map_cons, List.map_map]
    congr 1
    refine List.map_congr_left fun i _ => ?_
    have hbyte : n / 256 = n >>> 8 := (Nat.shiftRight_eq_div_pow n 8).symm
    rw [Function.comp_apply, Nat.mul_succ, Nat.add_comm, Nat.shiftRight_add, hbyte]

theorem Block.toBytes_eq_map (b : Block) : b.toBytes = (List.range size).map b.byte :=
  leBytes_eq_map size b.toNat

namespace CounterStream

variable {cipher : Block → Block}

/-! ## The keystream by position -/

/-- The byte at a position of the keystream E(0) E(1) E(2) …: a counter is a block of sixteen
bytes, least significant first. -/
def streamByte (cipher : Block → Block) (position : Nat) : UInt8 :=
  (cipher (Block.ofBytes (leBytes Block.size (position / Block.size)))).byte (position % Block.size)

/-- The `count` bytes of the keystream from a position on. -/
def window (cipher : Block → Block) (first count : Nat) : Bytes :=
  (List.range' first count).map (streamByte cipher)

theorem window_append (cipher : Block → Block) (first m n : Nat) :
    window cipher first m ++ window cipher (first + m) n = window cipher first (m + n) := by
  rw [window, window, window, ← List.map_append, List.range'_append_1]

theorem length_window (cipher : Block → Block) (first n : Nat) :
    (window cipher first n).length = n := by
  rw [window, List.length_map, List.length_range']

theorem take_window {n count : Nat} (h : n ≤ count) (first : Nat) :
    (window cipher first count).take n = window cipher first n := by
  obtain ⟨more, rfl⟩ := Nat.exists_eq_add_of_le h
  rw [← window_append, List.take_left' (length_window cipher first n)]

theorem drop_window {n count : Nat} (h : n ≤ count) (first : Nat) :
    (window cipher first count).drop n = window cipher (first + n) (count - n) := by
  obtain ⟨more, rfl⟩ := Nat.exists_eq_add_of_le h
  rw [← window_append, List.drop_left' (length_window cipher first n), Nat.add_sub_cancel_left]

theorem ofBytes_leBytes (n : Nat) : Block.ofBytes (leBytes Block.size n) = BitVec.ofNat 128 n := by
  apply BitVec.eq_of_toNat_eq
  rw [Block.ofBytes, ofLeBytes_leBytes, BitVec.toNat_ofNat, BitVec.toNat_ofNat]
  exact Nat.mod_mod_of_dvd n (by decide)

/-- The block under a counter is the part of the keystream at its position. -/
theorem toBytes_eq_window (cipher : Block → Block) (counter : Nat) :
    (cipher (BitVec.ofNat 128 counter)).toBytes = window cipher (16 * counter) 16 := by
  rw [Block.toBytes_eq_map, window, List.range'_eq_map_range, List.map_map]
  refine List.map_congr_left fun i hi => ?_
  have hlt : i < 16 := List.mem_range.1 hi
  have hdiv : (16 * counter + i) / Block.size = counter := by
    simp only [Block.size]
    omega
  have hmod : (16 * counter + i) % Block.size = i := by
    simp only [Block.size]
    omega
  simp only [Function.comp_apply, streamByte, hdiv, hmod, ofBytes_leBytes]

theorem blockBytes_eq_window (cipher : Block → Block) (first count : Nat) :
    blockBytes cipher first count = window cipher (16 * first) (16 * count) := by
  induction count with
  | zero => rfl
  | succ count ih =>
    have hlast : blockBytes cipher (first + count) 1 =
        window cipher (16 * first + 16 * count) 16 := by
      rw [← Nat.mul_add, ← toBytes_eq_window]
      exact List.append_nil _
    rw [blockBytes_add, ih, hlast, window_append]
    rfl

/-! ## Where a reader stands -/

/-- The reader has handed out the first `n` bytes of the keystream of the cipher. -/
structure At (s : CounterStream) (cipher : Block → Block) (n : Nat) : Prop where
  cipher_eq : s.cipher = cipher
  /-- As many blocks were encrypted as the bytes take, the last one perhaps in part. -/
  counter_eq : s.counter = (n + 15) / 16
  rest_eq : s.rest = window cipher n (16 * s.counter - n)

theorem read_eq {s : CounterStream} {n blocks : Nat}
    (h : (n - s.rest.length + 15) / 16 = blocks) : s.read n =
      ((s.rest ++ blockBytes s.cipher s.counter blocks).take n,
        { s with counter := s.counter + blocks,
                 rest := (s.rest ++ blockBytes s.cipher s.counter blocks).drop n }) := by
  subst h
  rfl

/-- A request hands out the next bytes, and the reader stands behind them. -/
theorem At.read {s : CounterStream} {n : Nat} (h : s.At cipher n) (count : Nat) :
    (s.read count).1 = window cipher n count ∧ (s.read count).2.At cipher (n + count) := by
  have hcounter := h.counter_eq
  have hlen : s.rest.length = 16 * s.counter - n := by
    rw [h.rest_eq, length_window]
  obtain ⟨blocks, hblocks⟩ : ∃ blocks, (count - s.rest.length + 15) / 16 = blocks := ⟨_, rfl⟩
  have hnext : n + (16 * s.counter - n) = 16 * s.counter := by omega
  have hbytes : s.rest ++ blockBytes s.cipher s.counter blocks =
      window cipher n (16 * s.counter - n + 16 * blocks) := by
    rw [h.rest_eq, h.cipher_eq, blockBytes_eq_window, ← window_append, hnext]
  have henough : count ≤ 16 * s.counter - n + 16 * blocks := by omega
  have hleft : 16 * s.counter - n + 16 * blocks - count =
      16 * (s.counter + blocks) - (n + count) := by omega
  rw [read_eq hblocks, hbytes, take_window henough, drop_window henough, hleft]
  refine ⟨rfl, h.cipher_eq, ?_, rfl⟩
  show s.counter + blocks = (n + count + 15) / 16
  omega

/-! ## Requests of all kinds -/

/-- What can be asked of a reader. -/
inductive Request where
  /-- Some number of bytes. -/
  | bytes (count : Nat)
  /-- A number of some bytes, such as four or eight. -/
  | number (width : Nat)
  | block

/-- What a reader answers. -/
inductive Answer where
  | bytes (bs : Bytes)
  | number (width value : Nat)
  | block (b : Block)

/-- The bytes that a request takes from the stream. -/
def Request.size : Request → Nat
  | .bytes count => count
  | .number width => width
  | .block => Block.size

/-- The bytes that were handed out, those of a number with the least significant first. -/
def Answer.toBytes : Answer → Bytes
  | .bytes bs => bs
  | .number width value => leBytes width value
  | .block b => b.toBytes

/-- Serves one request. -/
def serve (s : CounterStream) : Request → Answer × CounterStream
  | .bytes count => (.bytes (s.read count).1, (s.read count).2)
  | .number width => (.number width (s.readNat width).1, (s.readNat width).2)
  | .block => (.block s.readBlock.1, s.readBlock.2)

/-- Serves requests one after the other. -/
def serveAll : List Request → CounterStream → List Answer × CounterStream
  | [], s => ([], s)
  | request :: requests, s =>
    let (answer, s) := s.serve request
    let (answers, s) := serveAll requests s
    (answer :: answers, s)

/-- Whatever the kind of the request, its answer is the next bytes of the stream. -/
theorem At.serve {s : CounterStream} {n : Nat} (h : s.At cipher n) (request : Request) :
    (s.serve request).1.toBytes = window cipher n request.size ∧
      (s.serve request).2.At cipher (n + request.size) := by
  cases request with
  | bytes count => exact h.read count
  | number width =>
    obtain ⟨hbytes, hat⟩ := h.read width
    have hback := leBytes_ofLeBytes (s.read width).1
    rw [length_read] at hback
    exact ⟨hback.trans hbytes, hat⟩
  | block =>
    obtain ⟨hbytes, hat⟩ := h.read Block.size
    exact ⟨(Block.toBytes_ofBytes (length_read s Block.size)).trans hbytes, hat⟩

/-- The induction is on the requests that are left. -/
theorem At.serveAll {s : CounterStream} {n : Nat} (h : s.At cipher n) (requests : List Request) :
    (serveAll requests s).1.flatMap Answer.toBytes =
        window cipher n (requests.map Request.size).sum ∧
      (serveAll requests s).2.At cipher (n + (requests.map Request.size).sum) := by
  induction requests generalizing s n with
  | nil => exact ⟨rfl, h⟩
  | cons request requests ih =>
    obtain ⟨hanswer, hat⟩ := h.serve request
    obtain ⟨hanswers, hend⟩ := ih hat
    rw [List.map_cons, List.sum_cons, ← window_append, ← Nat.add_assoc]
    refine ⟨?_, hend⟩
    rw [← hanswer, ← hanswers]
    rfl

/-! ## Block by block -/

/-- Encrypts the next block, of which nothing is handed out yet. -/
def refill (s : CounterStream) : CounterStream :=
  { s with counter := s.counter + 1, rest := (s.cipher (BitVec.ofNat 128 s.counter)).toBytes }

/-- The reader with bytes of a block left: a new one if the last one is used up. -/
def filled (s : CounterStream) : CounterStream := if s.rest.isEmpty then s.refill else s

/-- One round of a request: of what is left of a block, as much as is wanted. -/
def round (s : CounterStream) (wanted : Nat) : Bytes × CounterStream :=
  (s.filled.rest.take wanted, { s.filled with rest := s.filled.rest.drop wanted })

theorem length_rest_filled_pos (s : CounterStream) : 0 < s.filled.rest.length := by
  unfold filled
  split
  · exact Nat.lt_of_lt_of_eq (by decide) (Block.length_toBytes _).symm
  · rename_i h
    exact List.length_pos_iff.2 fun hnil => h (List.isEmpty_iff.2 hnil)

/-- Every round of a request that is not served hands something out. -/
theorem length_round_pos (s : CounterStream) {wanted : Nat} (h : 0 < wanted) :
    0 < (s.round wanted).1.length := by
  have := s.length_rest_filled_pos
  rw [round, List.length_take]
  omega

/-- Rounds until nothing is wanted any more. -/
def fill (s : CounterStream) (wanted : Nat) : Bytes × CounterStream :=
  if 0 < wanted then
    let (part, s') := s.round wanted
    let (more, s'') := s'.fill (wanted - (s.round wanted).1.length)
    (part ++ more, s'')
  else
    ([], s)
termination_by wanted
decreasing_by
  have := s.length_round_pos ‹0 < wanted›
  omega

/-- A block may be encrypted before the request that needs it. -/
theorem read_refill {s : CounterStream} (h : s.rest = []) {n : Nat} (hn : 0 < n) :
    s.refill.read n = s.read n := by
  have hlen : s.refill.rest.length = 16 := Block.length_toBytes _
  have hfirst : blockBytes s.cipher s.counter 1 = s.refill.rest := List.append_nil _
  have hmore : (n - s.refill.rest.length + 15) / 16 = (n - 16 + 15) / 16 := by rw [hlen]
  have hall : (n - s.rest.length + 15) / 16 = 1 + (n - 16 + 15) / 16 := by
    rw [h, List.length_nil]
    omega
  rw [read_eq hmore, read_eq hall, blockBytes_add, hfirst, h, List.nil_append, ← Nat.add_assoc]
  rfl

theorem read_filled (s : CounterStream) {n : Nat} (hn : 0 < n) : s.filled.read n = s.read n := by
  unfold filled
  split
  · rename_i h
    exact read_refill (List.isEmpty_iff.1 h) hn
  · rfl

/-- What is left of a block is handed out first. -/
theorem read_eq_rest_append (s : CounterStream) (n : Nat) :
    s.read n = (s.rest.take n ++
        ({ s with rest := s.rest.drop n }.read (n - (s.rest.take n).length)).1,
      ({ s with rest := s.rest.drop n }.read (n - (s.rest.take n).length)).2) := by
  rcases Nat.le_total n s.rest.length with hle | hle
  · simp [CounterStream.read, hle, blockBytes]
  · have hdrop : s.rest.drop n = [] := List.drop_eq_nil_of_le hle
    have htake : s.rest.take n = s.rest := List.take_of_length_le hle
    simp [CounterStream.read, hdrop, htake, List.take_append, List.drop_append]

/-- Copies the next `count` bytes of what is left of a block into a buffer, from `start` on. -/
def copy? (s : CounterStream) (buffer : Bytes) (start count : Nat) :
    Option (Bytes × CounterStream) := do
  let (part, rest) ← splitAt? count s.rest
  let buffer ← buffer.write? start count part
  return (buffer, { s with rest })

/-- Rounds that fill the `wanted` bytes of a buffer from `start` on. Every round copies what is
left of a block, or as much of it as is still wanted. -/
def fillFrom? (s : CounterStream) (buffer : Bytes) (start wanted : Nat) :
    Option (Bytes × CounterStream) :=
  if 0 < wanted then do
    let count := min s.filled.rest.length wanted
    let (next, s') ← s.filled.copy? buffer start count
    s'.fillFrom? next (start + count) (wanted - count)
  else
    some (buffer, s)
termination_by wanted
decreasing_by
  have := s.length_rest_filled_pos
  omega

/-- A copy fits if the buffer has room for it and as much is left of the block. -/
theorem copy?_append {s : CounterStream} {before old after : Bytes}
    (h : old.length ≤ s.rest.length) :
    s.copy? (before ++ old ++ after) before.length old.length =
      some (before ++ s.rest.take old.length ++ after,
        { s with rest := s.rest.drop old.length }) := by
  have hwrite : Bytes.write? (before ++ old ++ after) before.length old.length
      (s.rest.take old.length) = some (before ++ s.rest.take old.length ++ after) :=
    Bytes.write?_append rfl rfl (List.length_take_of_le h)
  simp only [copy?, splitAt?_eq_some h, hwrite, Option.bind_eq_bind, Option.bind_some]
  rfl

/-- The smaller one of two counts tells how much of what is left of a block is wanted. -/
theorem split_min (bytes : Bytes) (wanted : Nat) :
    bytes.take (min bytes.length wanted) = bytes.take wanted ∧
      bytes.drop (min bytes.length wanted) = bytes.drop wanted := by
  rcases Nat.le_total bytes.length wanted with h | h
  · rw [Nat.min_eq_left h, List.take_length, List.drop_length]
    exact ⟨(List.take_of_length_le h).symm, (List.drop_eq_nil_of_le h).symm⟩
  · rw [Nat.min_eq_right h]
    exact ⟨rfl, rfl⟩

/-- Every copy fits, and the rounds fill their part of the buffer with the bytes of one request.
The induction is on what is still wanted, of which every round copies a part. -/
theorem fillFrom?_append (s : CounterStream) (before old after : Bytes) :
    s.fillFrom? (before ++ old ++ after) before.length old.length =
      some (before ++ (s.read old.length).1 ++ after, (s.read old.length).2) := by
  obtain ⟨wanted, hwanted⟩ : ∃ wanted, old.length = wanted := ⟨_, rfl⟩
  induction wanted using Nat.strongRecOn generalizing s before old with
  | ind wanted ih =>
    unfold fillFrom?
    rw [hwanted]
    split
    · rename_i hmore
      have hpos := s.length_rest_filled_pos
      obtain ⟨htake, hdrop⟩ := split_min s.filled.rest wanted
      have hread := read_eq_rest_append s.filled wanted
      rw [read_filled s hmore, ← htake, ← hdrop] at hread
      obtain ⟨count, hcount⟩ : ∃ count, min s.filled.rest.length wanted = count := ⟨_, rfl⟩
      rw [hcount] at hread ⊢
      have hpart : (s.filled.rest.take count).length = count := List.length_take_of_le (by omega)
      -- The place of this round, and what the later rounds fill.
      obtain ⟨first, others, rfl, rfl⟩ : ∃ first others, old = first ++ others ∧
          first.length = count :=
        ⟨_, _, (List.take_append_drop count old).symm, List.length_take_of_le (by omega)⟩
      have hothers : others.length = wanted - first.length := by
        rw [← hwanted, List.length_append, Nat.add_sub_cancel_left]
      have hcopy : s.filled.copy? (before ++ (first ++ others) ++ after) before.length
          first.length = some (before ++ s.filled.rest.take first.length ++ (others ++ after),
            { s.filled with rest := s.filled.rest.drop first.length }) := by
        rw [← copy?_append (by omega)]
        simp only [List.append_assoc]
      have hrounds := ih (wanted - first.length) (by omega)
        { s.filled with rest := s.filled.rest.drop first.length }
        (before ++ s.filled.rest.take first.length) others hothers
      rw [List.length_append, hpart, hothers, List.append_assoc _ others] at hrounds
      dsimp only
      rw [hcopy, Option.bind_eq_bind, Option.bind_some, hrounds, hread, hpart]
      simp only [List.append_assoc]
    · rename_i hdone
      obtain rfl : old = [] := List.eq_nil_of_length_eq_zero (by omega)
      obtain rfl : wanted = 0 := hwanted.symm
      simp [CounterStream.read, blockBytes]

/-- A request is served by rounds into a buffer of its length, and no round copies past an end. -/
theorem fillFrom?_eq (s : CounterStream) (buffer : Bytes) :
    s.fillFrom? buffer 0 buffer.length = some (s.read buffer.length) := by
  simpa using s.fillFrom?_append [] buffer []

/-! ## One stream -/

end CounterStream

end Garbling
