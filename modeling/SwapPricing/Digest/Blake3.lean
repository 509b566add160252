import SwapPricing.LittleEndian

/-!
# BLAKE3

The BLAKE3 digest of 32 bytes.  The input is cut into chunks of 1024 bytes, the
leaves of a binary tree whose left subtrees are complete.  One compression
function joins the blocks of a chunk and the children of a node.
-/

namespace SwapPricing
namespace Digest
namespace Blake3

/-!
# Compression

The sixteen words of the state are four rows.  A round mixes the columns, turns
the rows so that the diagonals become columns, mixes again and turns back.
-/

/-- Four words. -/
structure Row where
  a : UInt32
  b : UInt32
  c : UInt32
  d : UInt32
  deriving DecidableEq

namespace Row

def zipWith (f : UInt32 → UInt32 → UInt32) (x y : Row) : Row :=
  ⟨f x.a y.a, f x.b y.b, f x.c y.c, f x.d y.d⟩

instance : Add Row := ⟨zipWith (· + ·)⟩

instance : XorOp Row := ⟨zipWith (· ^^^ ·)⟩

/-- Every word rotated right by `n` bits. -/
def rotateBits (n : UInt32) (x : Row) : Row :=
  let rotate (w : UInt32) := (w >>> n) ||| (w <<< (32 - n))
  ⟨rotate x.a, rotate x.b, rotate x.c, rotate x.d⟩

/-- The words moved one place to the left. -/
def turn (x : Row) : Row :=
  ⟨x.b, x.c, x.d, x.a⟩

end Row

/-- Sixteen words in four rows. -/
structure Square where
  r0 : Row
  r1 : Row
  r2 : Row
  r3 : Row

/-- Mixes every column with two message words. -/
def mix (s : Square) (x y : Row) : Square :=
  let r0 := s.r0 + s.r1 + x
  let r3 := (s.r3 ^^^ r0).rotateBits 16
  let r2 := s.r2 + r3
  let r1 := (s.r1 ^^^ r2).rotateBits 12
  let r0 := r0 + r1 + y
  let r3 := (r3 ^^^ r0).rotateBits 8
  let r2 := r2 + r3
  let r1 := (r1 ^^^ r2).rotateBits 7
  ⟨r0, r1, r2, r3⟩

/-- Makes the diagonals the columns. -/
def diagonals (s : Square) : Square :=
  ⟨s.r0, s.r1.turn, s.r2.turn.turn, s.r3.turn.turn.turn⟩

/-- Makes the columns the diagonals again. -/
def columns (s : Square) : Square :=
  ⟨s.r0, s.r1.turn.turn.turn, s.r2.turn.turn, s.r3.turn⟩

/-- One round over a message. -/
def round (s m : Square) : Square :=
  let s := mix s ⟨m.r0.a, m.r0.c, m.r1.a, m.r1.c⟩ ⟨m.r0.b, m.r0.d, m.r1.b, m.r1.d⟩
  columns (mix (diagonals s)
    ⟨m.r2.a, m.r2.c, m.r3.a, m.r3.c⟩ ⟨m.r2.b, m.r2.d, m.r3.b, m.r3.d⟩)

/-- The message in the order of the next round. -/
def permute (m : Square) : Square :=
  ⟨⟨m.r0.c, m.r1.c, m.r0.d, m.r2.c⟩, ⟨m.r1.d, m.r0.a, m.r1.a, m.r3.b⟩,
    ⟨m.r0.b, m.r2.d, m.r3.a, m.r1.b⟩, ⟨m.r2.b, m.r3.c, m.r3.d, m.r2.a⟩⟩

def rounds : (n : Nat) → (s m : Square) → Square
  | 0, s, _ => s
  | n + 1, s, m => rounds n (round s m) (permute m)

/-- A chaining value: eight words. -/
structure Chain where
  low : Row
  high : Row
  deriving DecidableEq

/-- The words that every chunk and every node starts from. -/
def start : Chain :=
  ⟨⟨0x6A09E667, 0xBB67AE85, 0x3C6EF372, 0xA54FF53A⟩,
    ⟨0x510E527F, 0x9B05688C, 0x1F83D9AB, 0x5BE0CD19⟩⟩

/-- Compresses a message of `size` bytes into a chaining value.  `counter` is
the number of the chunk, and `flags` say what the message is. -/
def compress (chain : Chain) (m : Square) (counter : UInt64) (size flags : UInt32) : Chain :=
  let last : Row := ⟨counter.toUInt32, (counter >>> 32).toUInt32, size, flags⟩
  let s := rounds 7 ⟨chain.low, chain.high, start.low, last⟩ m
  ⟨s.r0 ^^^ s.r2, s.r1 ^^^ s.r3⟩

/-!
# Chunks
-/

def chunkStart : UInt32 := 1
def chunkEnd : UInt32 := 2
def parent : UInt32 := 4
def root : UInt32 := 8

def blockSize : Nat := 64

def chunkSize : Nat := 1024

def wordAt (bytes : List UInt8) (index : Nat) : UInt32 :=
  UInt32.ofNat (LittleEndian.value ((bytes.drop (4 * index)).take 4))

def rowAt (bytes : List UInt8) (index : Nat) : Row :=
  ⟨wordAt bytes (4 * index), wordAt bytes (4 * index + 1), wordAt bytes (4 * index + 2),
    wordAt bytes (4 * index + 3)⟩

/-- The words of a block; missing bytes are zero. -/
def message (block : List UInt8) : Square :=
  ⟨rowAt block 0, rowAt block 1, rowAt block 2, rowAt block 3⟩

/-- The chaining value of a chunk whose blocks so far gave `chain`.  `first` is
the flag of its first block, `final` holds the flags of its last one. -/
def chunk (counter : UInt64) (final : UInt32) (first : UInt32) (chain : Chain)
    (bytes : List UInt8) : Chain :=
  if bytes.length ≤ blockSize then
    compress chain (message bytes) counter (UInt32.ofNat bytes.length) (first ||| final)
  else
    let block := bytes.take blockSize
    let chain := compress chain (message block) counter (UInt32.ofNat blockSize) first
    chunk counter final 0 chain (bytes.drop blockSize)
  termination_by bytes.length
  decreasing_by
    simp only [List.length_drop, blockSize] at *
    omega

/-!
# The tree
-/

/-- The size of the left subtree over `size` bytes: the most chunks that are a
power of two and leave something for the right one. -/
def leftSize (size : Nat) : Nat :=
  chunkSize <<< ((size - 1) / chunkSize).log2

theorem leftSize_pos (size : Nat) : 0 < leftSize size := by
  rw [leftSize, Nat.shiftLeft_eq]
  exact Nat.mul_pos (by decide) (Nat.two_pow_pos _)

theorem leftSize_lt {size : Nat} (h : chunkSize < size) : leftSize size < size := by
  have hne : (size - 1) / chunkSize ≠ 0 := by
    simp only [chunkSize] at *
    omega
  have hle := Nat.log2_self_le hne
  have hmul := Nat.mul_le_mul_left chunkSize hle
  have hdiv := Nat.mul_div_le (size - 1) chunkSize
  rw [leftSize, Nat.shiftLeft_eq]
  simp only [chunkSize] at *
  omega

/-- A chaining value as eight words of a message. -/
def Chain.pair (x y : Chain) : Square :=
  ⟨x.low, x.high, y.low, y.high⟩

/-- The chaining value of a subtree whose first chunk has the number
`counter`. -/
def subtree (counter : UInt64) (flags : UInt32) (bytes : List UInt8) : Chain :=
  if h : bytes.length ≤ chunkSize then
    chunk counter (chunkEnd ||| flags) chunkStart start bytes
  else
    have := leftSize_lt (Nat.lt_of_not_le h)
    have := leftSize_pos bytes.length
    let size := leftSize bytes.length
    let left := subtree counter 0 (bytes.take size)
    let right := subtree (counter + UInt64.ofNat (size / chunkSize)) 0 (bytes.drop size)
    compress start (left.pair right) 0 (UInt32.ofNat blockSize) (parent ||| flags)
  termination_by bytes.length
  decreasing_by
    · simp only [List.length_take]
      omega
    · simp only [List.length_drop]
      omega

def rowBytes (x : Row) : List UInt8 :=
  [x.a, x.b, x.c, x.d].flatMap fun w => LittleEndian.bytes 4 w.toNat

theorem length_rowBytes (x : Row) : (rowBytes x).length = 16 := by
  simp [rowBytes, LittleEndian.length_bytes]

/-- The digest of a byte string. -/
def hash (bytes : List UInt8) : List UInt8 :=
  let chain := subtree 0 root bytes
  rowBytes chain.low ++ rowBytes chain.high

theorem length_hash (bytes : List UInt8) : (hash bytes).length = 32 := by
  simp [hash, length_rowBytes]

end Blake3
end Digest
end SwapPricing
