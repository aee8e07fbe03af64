-- The BLAKE3 hash: plain, keyed, and as a key derivation, with output of
-- any length. The input is cut into chunks of 1024 bytes, which are the
-- leaves of a binary tree; the root is compressed once per output block.
import Garbling.Cipher.QuarterRound

namespace Garbling.Cipher.Blake3

/-! ## Compression -/

/-- Eight words that stand for the input below a node of the tree. -/
abbrev ChainingValue := Vector UInt32 8

/-- The chaining value that unkeyed hashing starts from. -/
def initial : ChainingValue :=
  #v[0x6a09e667, 0xbb67ae85, 0x3c6ef372, 0xa54ff53a, 0x510e527f, 0x9b05688c, 0x1f83d9ab, 0x5be0cd19]

/-- The rotations of a quarter round, counted to the left. -/
def rotations : Rotations := ⟨16, 20, 24, 25⟩

/-- Reorders the message words between rounds. -/
def permute (m : Words) : Words :=
  #v[m[2], m[6], m[3], m[10], m[7], m[0], m[4], m[13],
    m[1], m[11], m[12], m[5], m[9], m[14], m[15], m[8]]

/-- The message words in pairs, one pair for each quarter round. -/
def wordPairs (m : Words) : List (UInt32 × UInt32) :=
  [(m[0], m[1]), (m[2], m[3]), (m[4], m[5]), (m[6], m[7]),
    (m[8], m[9]), (m[10], m[11]), (m[12], m[13]), (m[14], m[15])]

/-- One round, which stirs every message word in once. -/
def round (s m : Words) : Words :=
  (quads.zip (wordPairs m)).foldl (fun s (q, x, y) => quarterRound rotations s q x y) s

/-- Seven rounds, with the message permuted between them. -/
def rounds : Nat → Words → Words → Words
  | 0, s, _ => s
  | n + 1, s, m => rounds n (round s m) (permute m)

/-- What a compression takes in: a node of the tree that may still be the root. -/
structure Node where
  value : ChainingValue
  block : Words
  counter : Nat
  length : Nat
  flags : UInt32

/-- The sixteen words that the compression of a node gives. -/
def Node.compress (n : Node) : Words :=
  let v := n.value
  let start : Words :=
    #v[v[0], v[1], v[2], v[3], v[4], v[5], v[6], v[7], initial[0], initial[1], initial[2], initial[3],
      UInt32.ofNat n.counter, UInt32.ofNat (n.counter >>> 32), UInt32.ofNat n.length, n.flags]
  let s := rounds 7 start n.block
  Vector.ofFn fun i =>
    if h : i.val < 8 then s[i] ^^^ s[i.val + 8] else s[i] ^^^ v[i.val - 8]

/-- The chaining value of an inner node. -/
def Node.chain (n : Node) : ChainingValue :=
  let s := n.compress
  #v[s[0], s[1], s[2], s[3], s[4], s[5], s[6], s[7]]

/-! ## Flags -/

def chunkStart : UInt32 := 1
def chunkEnd : UInt32 := 2
def parentFlag : UInt32 := 4
def rootFlag : UInt32 := 8
def keyedFlag : UInt32 := 16
def contextFlag : UInt32 := 32
def materialFlag : UInt32 := 64

/-! ## The tree -/

/-- A way of hashing: the starting value and the flags that mark every node. -/
structure Mode where
  start : ChainingValue
  flags : UInt32

/-- The node of one chunk, given as its blocks of at most 64 bytes. The first block is
marked as the start and the last one as the end; an empty chunk has one empty block. -/
def chunkNode (flags : UInt32) (counter : Nat) : ChainingValue → UInt32 → List Bytes → Node
  | value, mark, [] => ⟨value, Words.ofBytes [], counter, 0, flags ||| mark ||| chunkEnd⟩
  | value, mark, [b] => ⟨value, Words.ofBytes b, counter, b.length, flags ||| mark ||| chunkEnd⟩
  | value, mark, b :: rest =>
    let node : Node := ⟨value, Words.ofBytes b, counter, b.length, flags ||| mark⟩
    chunkNode flags counter node.chain 0 rest

/-- The string in pieces of `size` bytes, the last one possibly shorter. -/
def cut (size : Nat) (bs : Bytes) : List Bytes := bs.pieces size ((bs.length + size - 1) / size)

/-- The parent of two nodes. -/
def parentNode (mode : Mode) (left right : Node) : Node :=
  ⟨mode.start, Vector.append left.chain right.chain, 0, 64, mode.flags ||| parentFlag⟩

/-- The node over a list of chunks whose first has the given number. The left part has
the largest power of two of chunks that leaves something to the right. -/
def treeNode (mode : Mode) (first : Nat) (chunks : List Bytes) : Node :=
  if h : 1 < chunks.length then
    let left := 2 ^ (chunks.length - 1).log2
    have leftLess : left < chunks.length := by
      have := Nat.log2_self_le (n := chunks.length - 1) (by omega)
      omega
    have leftPositive : 0 < left := Nat.two_pow_pos _
    parentNode mode (treeNode mode first (chunks.take left))
      (treeNode mode (first + left) (chunks.drop left))
  else
    chunkNode mode.flags first mode.start chunkStart (cut 64 (chunks.headD []))
termination_by chunks.length
decreasing_by
  · simp only [List.length_take]
    omega
  · simp only [List.length_drop]
    omega

/-- The first `n` bytes of output of a root node. -/
def Node.output (root : Node) (n : Nat) : Bytes :=
  let block (i : Nat) : Bytes :=
    let words := { root with counter := i, flags := root.flags ||| rootFlag }.compress
    words.toList.flatMap wordBytes
  ((List.range ((n + 63) / 64)).flatMap block).take n

/-- The first `n` bytes of output for an input. -/
def Mode.output (mode : Mode) (input : Bytes) (n : Nat) : Bytes :=
  (treeNode mode 0 (cut 1024 input)).output n

/-! ## The three uses -/

/-- The number of bytes of a digest and of a key. -/
def digestSize : Nat := 32

/-- A chaining value from the first 32 bytes of a string. -/
def keyWords (key : Bytes) : ChainingValue := Vector.ofFn fun i => wordAt key i

/-- The digest of a string. -/
def hash (input : Bytes) : Bytes := (Mode.mk initial 0).output input digestSize

/-- The first `n` bytes of output for a string under a key of 32 bytes. -/
def keyed (key input : Bytes) (n : Nat) : Bytes := (Mode.mk (keyWords key) keyedFlag).output input n

/-- The key of 32 bytes derived from key material in a context. -/
def deriveKey (context material : Bytes) : Bytes :=
  let contextKey := (Mode.mk initial contextFlag).output context digestSize
  (Mode.mk (keyWords contextKey) materialFlag).output material digestSize

/-! ## Lengths -/

@[simp] theorem length_output (mode : Mode) (input : Bytes) (n : Nat) :
    (mode.output input n).length = n := by
  simp only [Mode.output, Node.output, List.length_take, List.length_flatMap, wordBytes,
    length_leBytes, List.map_const', List.sum_replicate_nat, Vector.length_toList, List.length_range]
  omega

@[simp] theorem length_keyed (key input : Bytes) (n : Nat) : (keyed key input n).length = n :=
  length_output ..

end Garbling.Cipher.Blake3
