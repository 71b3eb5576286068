/-
# MD5

The message digest MD5 of a byte string, as PHP's `md5` prints it: 32 lower case hexadecimal
digits.  Words are natural numbers below `2 ^ 32`.
-/
import Mathlib.Algebra.Ring.Nat

namespace Md5

/-- The additive constants of the 64 steps. -/
def constants : List ℕ :=
  [0xd76aa478, 0xe8c7b756, 0x242070db, 0xc1bdceee, 0xf57c0faf, 0x4787c62a, 0xa8304613, 0xfd469501,
   0x698098d8, 0x8b44f7af, 0xffff5bb1, 0x895cd7be, 0x6b901122, 0xfd987193, 0xa679438e, 0x49b40821,
   0xf61e2562, 0xc040b340, 0x265e5a51, 0xe9b6c7aa, 0xd62f105d, 0x02441453, 0xd8a1e681, 0xe7d3fbc8,
   0x21e1cde6, 0xc33707d6, 0xf4d50d87, 0x455a14ed, 0xa9e3e905, 0xfcefa3f8, 0x676f02d9, 0x8d2a4c8a,
   0xfffa3942, 0x8771f681, 0x6d9d6122, 0xfde5380c, 0xa4beea44, 0x4bdecfa9, 0xf6bb4b60, 0xbebfbc70,
   0x289b7ec6, 0xeaa127fa, 0xd4ef3085, 0x04881d05, 0xd9d4d039, 0xe6db99e5, 0x1fa27cf8, 0xc4ac5665,
   0xf4292244, 0x432aff97, 0xab9423a7, 0xfc93a039, 0x655b59c3, 0x8f0ccc92, 0xffeff47d, 0x85845dd1,
   0x6fa87e4f, 0xfe2ce6e0, 0xa3014314, 0x4e0811a1, 0xf7537e82, 0xbd3af235, 0x2ad7d2bb, 0xeb86d391]

/-- The rotations of the 64 steps. -/
def rotations : List ℕ :=
  let round (r : List ℕ) := r ++ r ++ r ++ r
  round [7, 12, 17, 22] ++ round [5, 9, 14, 20] ++ round [4, 11, 16, 23] ++ round [6, 10, 15, 21]

/-- Addition of 32-bit words. -/
def add (x y : ℕ) : ℕ := (x + y) % 2 ^ 32

/-- The complement of a 32-bit word. -/
def complement (x : ℕ) : ℕ := 2 ^ 32 - 1 - x

/-- Rotation of a 32-bit word. -/
def rotateLeft (x n : ℕ) : ℕ := (x * 2 ^ n) % 2 ^ 32 + x / 2 ^ (32 - n)

/-- The four words of the digest. -/
structure State where
  a : ℕ
  b : ℕ
  c : ℕ
  d : ℕ

/-- The state before the first block. -/
def initial : State := ⟨0x67452301, 0xefcdab89, 0x98badcfe, 0x10325476⟩

/-- The non-linear function of step `i` and the index of the message word it uses. -/
def mix (i : ℕ) (s : State) : ℕ × ℕ :=
  if i < 16 then ((s.b &&& s.c) ||| (complement s.b &&& s.d), i)
  else if i < 32 then ((s.d &&& s.b) ||| (complement s.d &&& s.c), (5 * i + 1) % 16)
  else if i < 48 then (s.b ^^^ s.c ^^^ s.d, (3 * i + 5) % 16)
  else (s.c ^^^ (s.b ||| complement s.d), (7 * i) % 16)

/-- One of the 64 steps on a block of 16 words. -/
def step (block : List ℕ) (s : State) (i : ℕ × ℕ × ℕ) : State :=
  let (f, g) := mix i.1 s
  let sum := add (add (add s.a f) i.2.1) (block.getD g 0)
  ⟨s.d, add s.b (rotateLeft sum i.2.2), s.b, s.c⟩

/-- The digest after one more block. -/
def compress (s : State) (block : List ℕ) : State :=
  let t := ((List.range 64).zip (constants.zip rotations)).foldl (step block) s
  ⟨add s.a t.a, add s.b t.b, add s.c t.c, add s.d t.d⟩

/-- The `n` low bytes of a number, the lowest first. -/
def lowBytes : ℕ → ℕ → List ℕ
  | 0, _ => []
  | n + 1, x => x % 256 :: lowBytes n (x / 256)

/-- The padded message: a one bit, zeros up to 8 bytes below a multiple of 64, the length. -/
def padded (bytes : List ℕ) : List ℕ :=
  let zeros := (119 - bytes.length % 64) % 64
  bytes ++ [0x80] ++ List.replicate zeros 0 ++ lowBytes 8 (8 * bytes.length)

/-- The words of a list of bytes. -/
def words : List ℕ → List ℕ
  | a :: b :: c :: d :: rest => (a + 256 * (b + 256 * (c + 256 * d))) :: words rest
  | _ => []

/-- The blocks of a list of words; `fuel` bounds their number. -/
def blocks : ℕ → List ℕ → List (List ℕ)
  | 0, _ => []
  | fuel + 1, ws => if ws.isEmpty then [] else ws.take 16 :: blocks fuel (ws.drop 16)

/-- A hexadecimal digit in lower case. -/
def hexDigit (n : ℕ) : Char := if n < 10 then Char.ofNat (48 + n) else Char.ofNat (87 + n)

/-- The digest of a byte string. -/
def digest (bytes : List ℕ) : State :=
  let ws := words (padded bytes)
  (blocks ws.length ws).foldl compress initial

end Md5

/-- PHP's `md5` of a text. -/
def md5 (s : String) : String :=
  let d := Md5.digest ((s.toList.flatMap String.utf8EncodeChar).map UInt8.toNat)
  let bytes := [d.a, d.b, d.c, d.d].flatMap (Md5.lowBytes 4)
  String.ofList (bytes.flatMap fun b => [Md5.hexDigit (b / 16), Md5.hexDigit (b % 16)])

example : md5 "a" = "0cc175b9c0f1b6a831c399e269772661" := by decide +kernel
