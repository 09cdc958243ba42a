import QmlIndex.Pieces

/-! # Content digests

The 256-bit BLAKE3 digest. The input is cut into chunks of 1024 bytes, a chunk into blocks of 64; the
chunks are the leaves of a binary tree whose left part always holds a power of two of them, and the
digest is taken at the root.
-/

namespace QmlIndex.Digest

/-- The first words of the chaining value. -/
def initial : Array UInt32 :=
  #[0x6A09E667, 0xBB67AE85, 0x3C6EF372, 0xA54FF53A, 0x510E527F, 0x9B05688C, 0x1F83D9AB, 0x5BE0CD19]

/-- The order in which a round takes the words of the previous round's message. -/
def schedule : Array Nat := #[2, 6, 3, 10, 7, 0, 4, 13, 1, 11, 12, 5, 9, 14, 15, 8]

def chunkStart : UInt32 := 1
def chunkEnd : UInt32 := 2
def parentNode : UInt32 := 4
def rootNode : UInt32 := 8

/-- The word at an index, zero outside. -/
def wordAt (a : Array UInt32) (i : Nat) : UInt32 := a.getD i 0

def rotateRight (w : UInt32) (n : UInt32) : UInt32 := (w >>> n) ||| (w <<< (32 - n))

/-- Mix two message words into four state words. -/
def mix (s : Array UInt32) (a b c d : Nat) (x y : UInt32) : Array UInt32 :=
  let va := wordAt s a + wordAt s b + x
  let vd := rotateRight (wordAt s d ^^^ va) 16
  let vc := wordAt s c + vd
  let vb := rotateRight (wordAt s b ^^^ vc) 12
  let va := va + vb + y
  let vd := rotateRight (vd ^^^ va) 8
  let vc := vc + vd
  let vb := rotateRight (vb ^^^ vc) 7
  (((s.setIfInBounds a va).setIfInBounds b vb).setIfInBounds c vc).setIfInBounds d vd

/-- One round: the columns, then the diagonals. -/
def round (s m : Array UInt32) : Array UInt32 :=
  let s := mix s 0 4 8 12 (wordAt m 0) (wordAt m 1)
  let s := mix s 1 5 9 13 (wordAt m 2) (wordAt m 3)
  let s := mix s 2 6 10 14 (wordAt m 4) (wordAt m 5)
  let s := mix s 3 7 11 15 (wordAt m 6) (wordAt m 7)
  let s := mix s 0 5 10 15 (wordAt m 8) (wordAt m 9)
  let s := mix s 1 6 11 12 (wordAt m 10) (wordAt m 11)
  let s := mix s 2 7 8 13 (wordAt m 12) (wordAt m 13)
  mix s 3 4 9 14 (wordAt m 14) (wordAt m 15)

/-- Seven rounds, with the message permuted between them. -/
def rounds : Nat → Array UInt32 → Array UInt32 → Array UInt32
  | 0, s, _ => s
  | n + 1, s, m => rounds n (round s m) (schedule.map (wordAt m))

/-- Compress one block into the eight words of the next chaining value. -/
def compress (chain block : Array UInt32) (counter : Nat) (length : UInt32) (flags : UInt32) :
    Array UInt32 :=
  let start := chain ++ initial.take 4 ++
    #[counter.toUInt32, (counter >>> 32).toUInt32, length, flags]
  let s := rounds 7 start block
  (Array.range 8).map fun i => wordAt s i ^^^ wordAt s (i + 8)

/-- Four bytes, lowest first. -/
def littleEndian (b : List UInt8) : UInt32 :=
  b.foldr (fun byte w => (w <<< 8) ||| byte.toUInt32) 0

/-- The sixteen words of a block of at most 64 bytes, filled up with zeros. -/
def blockWords (b : List UInt8) : Array UInt32 :=
  (Array.range 16).map fun i => littleEndian ((b.drop (4 * i)).take 4)

/-- What is left to compress at a node: its last block has not been taken in yet. -/
structure Node where
  chain : Array UInt32
  block : Array UInt32
  counter : Nat
  length : UInt32
  flags : UInt32

namespace Node

/-- The chaining value that the node passes up. -/
def value (n : Node) : Array UInt32 := compress n.chain n.block n.counter n.length n.flags

/-- The words of the digest, if the node is the root. -/
def digest (n : Node) : Array UInt32 := compress n.chain n.block 0 n.length (n.flags ||| rootNode)

end Node

/-- The blocks of a chunk, taken in from left to right up to the last. -/
def chunkNode (counter : Nat) (chain : Array UInt32) (flags : UInt32) : List (List UInt8) → Node
  | [] => ⟨chain, blockWords [], counter, 0, flags ||| chunkEnd⟩
  | [b] => ⟨chain, blockWords b, counter, b.length.toUInt32, flags ||| chunkEnd⟩
  | b :: rest => chunkNode counter (compress chain (blockWords b) counter 64 flags) 0 rest

/-- The leaf of a chunk. -/
def chunk (counter : Nat) (bytes : List UInt8) : Node :=
  chunkNode counter initial chunkStart (pieces 63 bytes)

/-- The node above two others. -/
def parent (left right : Node) : Node := ⟨initial, left.value ++ right.value, 0, 64, parentNode⟩

/-- The greatest power of two that is less than `n`, for `n` at least two. -/
def leftCount (n : Nat) : Nat := 1 <<< Nat.log2 (n - 1)

/-- The tree over a list of leaves. `depth` bounds its height. -/
def tree : Nat → List Node → Node
  | _, [] => chunk 0 []
  | _, [leaf] => leaf
  | 0, leaf :: _ => leaf
  | depth + 1, leaves =>
    let k := leftCount leaves.length
    parent (tree depth (leaves.take k)) (tree depth (leaves.drop k))

/-- The root of the tree over an input; an empty input is one empty chunk. -/
def root (bytes : List UInt8) : Node :=
  let chunks := pieces 1023 bytes
  tree chunks.length (chunks.mapIdx chunk)

/-- Two lower-case hexadecimal digits. -/
def hexByte (b : UInt8) : List Char :=
  [Nat.digitChar (b.toNat / 16), Nat.digitChar (b.toNat % 16)]

/-- The bytes of a word, lowest first. -/
def wordBytes (w : UInt32) : List UInt8 :=
  [w.toUInt8, (w >>> 8).toUInt8, (w >>> 16).toUInt8, (w >>> 24).toUInt8]

/-- The digest of a list of bytes, as 64 hexadecimal digits. -/
def ofBytes (bytes : List UInt8) : String :=
  String.ofList (((root bytes).digest.toList.flatMap wordBytes).flatMap hexByte)

/-- The digest of a text in UTF-8. -/
def ofString (s : String) : String := ofBytes s.toUTF8.toList

end QmlIndex.Digest
