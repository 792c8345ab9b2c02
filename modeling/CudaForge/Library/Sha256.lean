import CudaForge.Library.FileTree
import Mathlib.Algebra.Group.Nat.Defs
import Mathlib.Logic.Function.Iterate

/-! SHA-256 of a sequence of bytes, and its digest in hexadecimal digits. -/
namespace Sha256

def initialWords : List UInt32 :=
  [0x6a09e667, 0xbb67ae85, 0x3c6ef372, 0xa54ff53a, 0x510e527f, 0x9b05688c, 0x1f83d9ab, 0x5be0cd19]

def roundConstants : List UInt32 :=
  [0x428a2f98, 0x71374491, 0xb5c0fbcf, 0xe9b5dba5, 0x3956c25b, 0x59f111f1, 0x923f82a4, 0xab1c5ed5,
   0xd807aa98, 0x12835b01, 0x243185be, 0x550c7dc3, 0x72be5d74, 0x80deb1fe, 0x9bdc06a7, 0xc19bf174,
   0xe49b69c1, 0xefbe4786, 0x0fc19dc6, 0x240ca1cc, 0x2de92c6f, 0x4a7484aa, 0x5cb0a9dc, 0x76f988da,
   0x983e5152, 0xa831c66d, 0xb00327c8, 0xbf597fc7, 0xc6e00bf3, 0xd5a79147, 0x06ca6351, 0x14292967,
   0x27b70a85, 0x2e1b2138, 0x4d2c6dfc, 0x53380d13, 0x650a7354, 0x766a0abb, 0x81c2c92e, 0x92722c85,
   0xa2bfe8a1, 0xa81a664b, 0xc24b8b70, 0xc76c51a3, 0xd192e819, 0xd6990624, 0xf40e3585, 0x106aa070,
   0x19a4c116, 0x1e376c08, 0x2748774c, 0x34b0bcb5, 0x391c0cb3, 0x4ed8aa4a, 0x5b9cca4f, 0x682e6ff3,
   0x748f82ee, 0x78a5636f, 0x84c87814, 0x8cc70208, 0x90befffa, 0xa4506ceb, 0xbef9a3f7, 0xc67178f2]

def rotr (x : UInt32) (n : UInt32) : UInt32 := (x >>> n) ||| (x <<< (32 - n))

/-- The `n` low bytes of a number, the highest first. -/
def bigEndian (n k : ℕ) : Bytes := (List.range n).reverse.map fun i => UInt8.ofNat (k / 256 ^ i)

/-- A one bit, zeros up to a multiple of 64 bytes, and the length in bits. -/
def pad (message : Bytes) : Bytes :=
  message ++ 0x80 :: List.replicate ((119 - message.length % 64) % 64) 0 ++
    bigEndian 8 (8 * message.length)

def word (bytes : Bytes) : UInt32 := bytes.foldl (fun w b => (w <<< 8) ||| b.toUInt32) 0

def words (block : Bytes) : List UInt32 :=
  (List.range 16).map fun i => word ((block.drop (4 * i)).take 4)

def smallSigma0 (x : UInt32) : UInt32 := rotr x 7 ^^^ rotr x 18 ^^^ (x >>> 3)

def smallSigma1 (x : UInt32) : UInt32 := rotr x 17 ^^^ rotr x 19 ^^^ (x >>> 10)

/-- One more word of the schedule, whose last word comes first. -/
def extend (schedule : List UInt32) : List UInt32 :=
  let w (i : ℕ) := schedule.getD (i - 1) 0
  (smallSigma1 (w 2) + w 7 + smallSigma0 (w 15) + w 16) :: schedule

def schedule (block : Bytes) : List UInt32 := (extend^[48] (words block).reverse).reverse

structure Working where
  a : UInt32
  b : UInt32
  c : UInt32
  d : UInt32
  e : UInt32
  f : UInt32
  g : UInt32
  h : UInt32

def Working.round (s : Working) (kw : UInt32) : Working :=
  let s1 := rotr s.e 6 ^^^ rotr s.e 11 ^^^ rotr s.e 25
  let ch := (s.e &&& s.f) ^^^ (~~~s.e &&& s.g)
  let temp1 := s.h + s1 + ch + kw
  let s0 := rotr s.a 2 ^^^ rotr s.a 13 ^^^ rotr s.a 22
  let maj := (s.a &&& s.b) ^^^ (s.a &&& s.c) ^^^ (s.b &&& s.c)
  ⟨temp1 + (s0 + maj), s.a, s.b, s.c, s.d + temp1, s.e, s.f, s.g⟩

def Working.ofWords (ws : List UInt32) : Working :=
  let w (i : ℕ) := ws.getD i 0
  ⟨w 0, w 1, w 2, w 3, w 4, w 5, w 6, w 7⟩

def Working.toWords (s : Working) : List UInt32 := [s.a, s.b, s.c, s.d, s.e, s.f, s.g, s.h]

def compress (state : List UInt32) (block : Bytes) : List UInt32 :=
  let kws := List.zipWith (· + ·) roundConstants (schedule block)
  List.zipWith (· + ·) state (kws.foldl Working.round (Working.ofWords state)).toWords

def blocks (padded : Bytes) : List Bytes :=
  (List.range (padded.length / 64)).map fun i => (padded.drop (64 * i)).take 64

def digest (message : Bytes) : Bytes :=
  ((blocks (pad message)).foldl compress initialWords).flatMap fun w => bigEndian 4 w.toNat

def hexdigest (message : Bytes) : String :=
  String.ofList ((digest message).flatMap fun b =>
    [Nat.digitChar (b.toNat / 16), Nat.digitChar (b.toNat % 16)])

example : hexdigest [97, 98, 99] =
    "ba7816bf8f01cfea414140de5dae2223b00361a396177a9cb410ff61f20015ad" := by decide +kernel

end Sha256
