import PropertyRenaming.Text.Hex

namespace PropertyRenaming.Digest

structure Chain where
  a : UInt32
  b : UInt32
  c : UInt32
  d : UInt32

def Chain.start : Chain := ⟨0x67452301, 0xefcdab89, 0x98badcfe, 0x10325476⟩

def Chain.add (s t : Chain) : Chain := ⟨s.a + t.a, s.b + t.b, s.c + t.c, s.d + t.d⟩

def rotations : List (List UInt32) :=
  [[7, 12, 17, 22], [5, 9, 14, 20], [4, 11, 16, 23], [6, 10, 15, 21]]

/-- Integer parts of `2 ^ 32 * |sin (i + 1)|`. -/
def sines : List UInt32 :=
  [0xd76aa478, 0xe8c7b756, 0x242070db, 0xc1bdceee, 0xf57c0faf, 0x4787c62a, 0xa8304613, 0xfd469501,
   0x698098d8, 0x8b44f7af, 0xffff5bb1, 0x895cd7be, 0x6b901122, 0xfd987193, 0xa679438e, 0x49b40821,
   0xf61e2562, 0xc040b340, 0x265e5a51, 0xe9b6c7aa, 0xd62f105d, 0x02441453, 0xd8a1e681, 0xe7d3fbc8,
   0x21e1cde6, 0xc33707d6, 0xf4d50d87, 0x455a14ed, 0xa9e3e905, 0xfcefa3f8, 0x676f02d9, 0x8d2a4c8a,
   0xfffa3942, 0x8771f681, 0x6d9d6122, 0xfde5380c, 0xa4beea44, 0x4bdecfa9, 0xf6bb4b60, 0xbebfbc70,
   0x289b7ec6, 0xeaa127fa, 0xd4ef3085, 0x04881d05, 0xd9d4d039, 0xe6db99e5, 0x1fa27cf8, 0xc4ac5665,
   0xf4292244, 0x432aff97, 0xab9423a7, 0xfc93a039, 0x655b59c3, 0x8f0ccc92, 0xffeff47d, 0x85845dd1,
   0x6fa87e4f, 0xfe2ce6e0, 0xa3014314, 0x4e0811a1, 0xf7537e82, 0xbd3af235, 0x2ad7d2bb, 0xeb86d391]

def rotateLeft (x n : UInt32) : UInt32 := (x <<< n) ||| (x >>> (32 - n))

/-- The word mixed in at step `i`: a bitwise function of three words, and which word of the block
goes with it. -/
def mix (i : Nat) (b c d : UInt32) : UInt32 × Nat :=
  match i / 16 with
  | 0 => ((b &&& c) ||| (~~~b &&& d), i)
  | 1 => ((d &&& b) ||| (~~~d &&& c), (5 * i + 1) % 16)
  | 2 => (b ^^^ c ^^^ d, (3 * i + 5) % 16)
  | _ => (c ^^^ (b ||| ~~~d), (7 * i) % 16)

def step (words : List UInt32) (s : Chain) (i : Nat) : Chain :=
  let (f, g) := mix i s.b s.c s.d
  let turn := (rotations.getD (i / 16) []).getD (i % 4) 0
  let sum := s.a + f + sines.getD i 0 + words.getD g 0
  ⟨s.d, s.b + rotateLeft sum turn, s.b, s.c⟩

def littleEndian (bytes : List UInt8) : UInt32 :=
  bytes.foldr (fun byte acc => (acc <<< 8) ||| byte.toUInt32) 0

def wordBytes (w : UInt32) : List UInt8 :=
  [w.toUInt8, (w >>> 8).toUInt8, (w >>> 16).toUInt8, (w >>> 24).toUInt8]

def pieces (size : Nat) : (count : Nat) → List UInt8 → List (List UInt8)
  | 0, _ => []
  | count + 1, bytes => bytes.take size :: pieces size count (bytes.drop size)

def compress (s : Chain) (block : List UInt8) : Chain :=
  s.add ((List.range 64).foldl (step ((pieces 4 16 block).map littleEndian)) s)

/-- A one bit, zeros up to eight bytes short of a block, and the length in bits. -/
def pad (bytes : List UInt8) : List UInt8 :=
  let bits := UInt64.ofNat (8 * bytes.length)
  bytes ++ (0x80 : UInt8) :: List.replicate ((119 - bytes.length % 64) % 64) (0 : UInt8) ++
    wordBytes bits.toUInt32 ++ wordBytes (bits >>> 32).toUInt32

def md5 (bytes : List UInt8) : Chain :=
  let padded := pad bytes
  (pieces 64 (padded.length / 64) padded).foldl compress Chain.start

def Chain.bytes (s : Chain) : List UInt8 :=
  wordBytes s.a ++ wordBytes s.b ++ wordBytes s.c ++ wordBytes s.d

def hexDigest (bytes : List UInt8) : List Char :=
  (md5 bytes).bytes.flatMap fun byte => Text.hexDigits 2 byte.toNat

theorem length_hexDigest (bytes : List UInt8) : (hexDigest bytes).length = 32 := by
  simp [hexDigest, Chain.bytes, wordBytes, Text.length_hexDigits]

end PropertyRenaming.Digest
