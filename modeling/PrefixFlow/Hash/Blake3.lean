import PrefixFlow.Bytes

/-!
# BLAKE3

The unkeyed BLAKE3 hash with 32 bytes of output. The sixteen words of a compression are four rows
of four, so that one half round mixes all columns at once and the other half all diagonals, which
are the columns of the rows turned by one, two and three places.

Input is cut into chunks of 1024 bytes and chunks into blocks of 64. The chaining values of the
chunks are the leaves of a binary tree whose nodes are compressed in turn; the last compression
carries the root flag. Pairing neighbours level by level, the odd one carried up, builds the tree
whose left branches are complete.

`length_digest` says that a digest always has 32 bytes.
-/

namespace PrefixFlow.Blake3

/-- Four words side by side. -/
structure Row where
  w0 : UInt32
  w1 : UInt32
  w2 : UInt32
  w3 : UInt32

namespace Row

@[inline] def add (x y : Row) : Row := ⟨x.w0 + y.w0, x.w1 + y.w1, x.w2 + y.w2, x.w3 + y.w3⟩

@[inline] def xor (x y : Row) : Row :=
  ⟨x.w0 ^^^ y.w0, x.w1 ^^^ y.w1, x.w2 ^^^ y.w2, x.w3 ^^^ y.w3⟩

/-- Every word rotated right by `n` places, for `n` strictly between 0 and 32. -/
@[inline] def rotr (x : Row) (n : UInt32) : Row :=
  let r := fun w : UInt32 => (w >>> n) ||| (w <<< (32 - n))
  ⟨r x.w0, r x.w1, r x.w2, r x.w3⟩

/-- The row turned left by one place. -/
@[inline] def turn1 (x : Row) : Row := ⟨x.w1, x.w2, x.w3, x.w0⟩

/-- The row turned left by two places. -/
@[inline] def turn2 (x : Row) : Row := ⟨x.w2, x.w3, x.w0, x.w1⟩

/-- The row turned left by three places. -/
@[inline] def turn3 (x : Row) : Row := ⟨x.w3, x.w0, x.w1, x.w2⟩

/-- The little-endian bytes of the four words. -/
def bytes (x : Row) : Bytes :=
  [x.w0, x.w1, x.w2, x.w3].flatMap fun w => Bytes.ofNatLE 4 w.toNat

@[simp] theorem length_bytes (x : Row) : x.bytes.length = 16 := by
  simp [bytes]

end Row

/-- The sixteen words of a compression, as rows. -/
structure State where
  a : Row
  b : Row
  c : Row
  d : Row

/-- The mixing step on all four columns; `x` and `y` hold the columns' message words. -/
@[inline] def State.mix (s : State) (x y : Row) : State :=
  let a := (s.a.add s.b).add x
  let d := (s.d.xor a).rotr 16
  let c := s.c.add d
  let b := (s.b.xor c).rotr 12
  let a := (a.add b).add y
  let d := (d.xor a).rotr 8
  let c := c.add d
  let b := (b.xor c).rotr 7
  ⟨a, b, c, d⟩

/-- The sixteen message words of a block: the two rows that the columns take, and the two that
the diagonals take. -/
structure Block where
  /-- Words 0, 2, 4, 6. -/
  columnX : Row
  /-- Words 1, 3, 5, 7. -/
  columnY : Row
  /-- Words 8, 10, 12, 14. -/
  diagonalX : Row
  /-- Words 9, 11, 13, 15. -/
  diagonalY : Row

/-- The block with the words in the order of the next round, which is
2, 6, 3, 10, 7, 0, 4, 13, 1, 11, 12, 5, 9, 14, 15, 8. -/
def Block.permute (m : Block) : Block where
  columnX := ⟨m.columnX.w1, m.columnY.w1, m.columnY.w3, m.columnX.w2⟩
  columnY := ⟨m.columnX.w3, m.diagonalX.w1, m.columnX.w0, m.diagonalY.w2⟩
  diagonalX := ⟨m.columnY.w0, m.diagonalX.w2, m.diagonalY.w0, m.diagonalY.w3⟩
  diagonalY := ⟨m.diagonalY.w1, m.columnY.w2, m.diagonalX.w3, m.diagonalX.w0⟩

/-- One round: the columns, then the diagonals. -/
def State.round (s : State) (m : Block) : State :=
  let s := s.mix m.columnX m.columnY
  let t := State.mix ⟨s.a, s.b.turn1, s.c.turn2, s.d.turn3⟩ m.diagonalX m.diagonalY
  ⟨t.a, t.b.turn3, t.c.turn2, t.d.turn1⟩

/-- `n` rounds, the block permuted between them. -/
def State.rounds : Nat → State → Block → State
  | 0, s, _ => s
  | n + 1, s, m => State.rounds n (s.round m) m.permute

/-- A chaining value: eight words. -/
structure Chain where
  low : Row
  high : Row

/-- The little-endian bytes of a chaining value. -/
def Chain.bytes (v : Chain) : Bytes := v.low.bytes ++ v.high.bytes

/-- The first half of the initial chaining value, which also stands in every compression. -/
def initialLow : Row := ⟨0x6A09E667, 0xBB67AE85, 0x3C6EF372, 0xA54FF53A⟩

/-- The chaining value that every chunk and every inner node starts from. -/
def Chain.initial : Chain := ⟨initialLow, ⟨0x510E527F, 0x9B05688C, 0x1F83D9AB, 0x5BE0CD19⟩⟩

/-- Flag of the first block of a chunk. -/
def chunkStart : UInt32 := 1

/-- Flag of the last block of a chunk. -/
def chunkEnd : UInt32 := 2

/-- Flag of an inner node of the tree. -/
def parentNode : UInt32 := 4

/-- Flag of the last compression. -/
def rootNode : UInt32 := 8

/-- A compression that is ready to run. -/
structure Node where
  chain : Chain
  block : Block
  counter : Nat
  length : Nat
  flags : UInt32

/-- The chaining value that a compression gives, with further flags set. -/
def Node.compress (node : Node) (flags : UInt32) : Chain :=
  let last : Row :=
    ⟨UInt32.ofNat node.counter, UInt32.ofNat (node.counter / Nat.pow 2 32),
      UInt32.ofNat node.length, node.flags ||| flags⟩
  let s := State.rounds 7 ⟨node.chain.low, node.chain.high, initialLow, last⟩ node.block
  ⟨s.a.xor s.c, s.b.xor s.d⟩

/-- The little-endian word of up to four bytes. -/
def word (bs : Bytes) : UInt32 := UInt32.ofNat (Bytes.toNatLE bs)

/-- The words of a block of up to 64 bytes, filled up with zeros. -/
def Block.ofBytes (bs : Bytes) : Block :=
  let w := fun i : Nat => word ((bs.drop (4 * i)).take 4)
  ⟨⟨w 0, w 2, w 4, w 6⟩, ⟨w 1, w 3, w 5, w 7⟩, ⟨w 8, w 10, w 12, w 14⟩, ⟨w 9, w 11, w 13, w 15⟩⟩

/-- The block of an inner node: the chaining values of its two children. -/
def Block.ofChains (left right : Chain) : Block where
  columnX := ⟨left.low.w0, left.low.w2, left.high.w0, left.high.w2⟩
  columnY := ⟨left.low.w1, left.low.w3, left.high.w1, left.high.w3⟩
  diagonalX := ⟨right.low.w0, right.low.w2, right.high.w0, right.high.w2⟩
  diagonalY := ⟨right.low.w1, right.low.w3, right.high.w1, right.high.w3⟩

/-- The last compression of a chunk, from its remaining blocks. -/
def chunkNode (counter : Nat) (chain : Chain) (start : UInt32) : List Bytes → Node
  | [] => ⟨chain, Block.ofBytes [], counter, 0, start ||| chunkEnd⟩
  | [last] => ⟨chain, Block.ofBytes last, counter, last.length, start ||| chunkEnd⟩
  | block :: rest =>
    let node : Node := ⟨chain, Block.ofBytes block, counter, block.length, start⟩
    chunkNode counter (node.compress 0) 0 rest

/-- The last compression of the chunk at position `counter`. -/
def chunk (counter : Nat) (bs : Bytes) : Node :=
  chunkNode counter Chain.initial chunkStart (chunksOf 64 bs)

/-- The compression of two children. -/
def parent (left right : Chain) : Node :=
  ⟨Chain.initial, Block.ofChains left right, 0, 64, parentNode⟩

/-- The next level of the tree: neighbours joined, an odd last one carried up. -/
def pairUp : List Chain → List Chain
  | x :: y :: rest => (parent x y).compress 0 :: pairUp rest
  | rest => rest

theorem length_pairUp (xs : List Chain) : (pairUp xs).length = (xs.length + 1) / 2 := by
  fun_induction pairUp xs with
  | case1 x y rest ih => simp only [List.length_cons, ih]; omega
  | case2 rest h =>
    match rest with
    | [] => rfl
    | [_] => simp
    | x :: y :: zs => exact absurd rfl (h x y zs)

/-- The last compression of a tree of two leaves or more; fewer leaves have no inner node. -/
def root? (xs : List Chain) : Option Node :=
  match xs with
  | [] | [_] => none
  | [x, y] => some (parent x y)
  | x :: y :: z :: rest => root? (pairUp (x :: y :: z :: rest))
termination_by xs.length
decreasing_by rw [length_pairUp]; simp only [List.length_cons]; omega

/-- The chaining values of the chunks, numbered from `counter`. -/
def leaves (counter : Nat) : List Bytes → List Chain
  | [] => []
  | c :: rest => (chunk counter c).compress 0 :: leaves (counter + 1) rest

/-- The last compression of the whole input: that of its only chunk, or the root of the tree. -/
def lastNode (input : Bytes) : Node :=
  match chunksOf 1024 input with
  | [] | [_] => chunk 0 input
  | chunks => (root? (leaves 0 chunks)).getD (chunk 0 input)

/-- The 32-byte digest of an input. -/
def digest (input : Bytes) : Bytes := ((lastNode input).compress rootNode).bytes

@[simp] theorem length_digest (input : Bytes) : (digest input).length = 32 := by
  simp [digest, Chain.bytes]

end PrefixFlow.Blake3
