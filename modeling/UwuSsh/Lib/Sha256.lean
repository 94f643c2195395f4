import Mathlib.Data.List.Basic
import UwuSsh.Lib.BigEndian

/-!
SHA-256 on byte lists. The message is padded to whole blocks of 64 bytes, each
block is expanded to 64 words, and 64 rounds fold it into eight words of state.
-/
namespace Sha256

def roundConstants : List UInt32 :=
  [
    0x428a2f98, 0x71374491, 0xb5c0fbcf, 0xe9b5dba5, 0x3956c25b, 0x59f111f1,
    0x923f82a4, 0xab1c5ed5, 0xd807aa98, 0x12835b01, 0x243185be, 0x550c7dc3,
    0x72be5d74, 0x80deb1fe, 0x9bdc06a7, 0xc19bf174, 0xe49b69c1, 0xefbe4786,
    0x0fc19dc6, 0x240ca1cc, 0x2de92c6f, 0x4a7484aa, 0x5cb0a9dc, 0x76f988da,
    0x983e5152, 0xa831c66d, 0xb00327c8, 0xbf597fc7, 0xc6e00bf3, 0xd5a79147,
    0x06ca6351, 0x14292967, 0x27b70a85, 0x2e1b2138, 0x4d2c6dfc, 0x53380d13,
    0x650a7354, 0x766a0abb, 0x81c2c92e, 0x92722c85, 0xa2bfe8a1, 0xa81a664b,
    0xc24b8b70, 0xc76c51a3, 0xd192e819, 0xd6990624, 0xf40e3585, 0x106aa070,
    0x19a4c116, 0x1e376c08, 0x2748774c, 0x34b0bcb5, 0x391c0cb3, 0x4ed8aa4a,
    0x5b9cca4f, 0x682e6ff3, 0x748f82ee, 0x78a5636f, 0x84c87814, 0x8cc70208,
    0x90befffa, 0xa4506ceb, 0xbef9a3f7, 0xc67178f2
  ]

def initialState : List UInt32 :=
  [0x6a09e667, 0xbb67ae85, 0x3c6ef372, 0xa54ff53a, 0x510e527f, 0x9b05688c,
    0x1f83d9ab, 0x5be0cd19]

def rotateRight (x : UInt32) (n : UInt32) : UInt32 := (x >>> n) ||| (x <<< (32 - n))

/-- A one bit, zeros, and the length in bits, up to a multiple of 64 bytes. -/
def pad (message : List UInt8) : List UInt8 :=
  message ++ 0x80 :: List.replicate ((119 - message.length % 64) % 64) 0 ++
    BigEndian.toBytes 8 (message.length * 8)

def words : ℕ → List UInt8 → List UInt32
  | 0, _ => []
  | n + 1, bytes => UInt32.ofNat (BigEndian.ofBytes (bytes.take 4)) :: words n (bytes.drop 4)

/-- The last sixteen words of the schedule, newest first, give the next one. -/
def nextWord (window : List UInt32) : UInt32 :=
  let w2 := window.getD 1 0
  let w7 := window.getD 6 0
  let w15 := window.getD 14 0
  let w16 := window.getD 15 0
  let s0 := rotateRight w15 7 ^^^ rotateRight w15 18 ^^^ (w15 >>> 3)
  let s1 := rotateRight w2 17 ^^^ rotateRight w2 19 ^^^ (w2 >>> 10)
  w16 + s0 + w7 + s1

def extend : ℕ → List UInt32 → List UInt32
  | 0, schedule => schedule
  | n + 1, schedule => extend n (nextWord schedule :: schedule)

def round (state : List UInt32) (kw : UInt32 × UInt32) : List UInt32 :=
  match state with
  | [a, b, c, d, e, f, g, h] =>
      let s1 := rotateRight e 6 ^^^ rotateRight e 11 ^^^ rotateRight e 25
      let ch := (e &&& f) ^^^ ((e ^^^ 0xffffffff) &&& g)
      let t1 := h + s1 + ch + kw.1 + kw.2
      let s0 := rotateRight a 2 ^^^ rotateRight a 13 ^^^ rotateRight a 22
      let maj := (a &&& b) ^^^ (a &&& c) ^^^ (b &&& c)
      [t1 + (s0 + maj), a, b, c, d + t1, e, f, g]
  | other => other

def compress (state : List UInt32) (block : List UInt8) : List UInt32 :=
  let schedule := (extend 48 (words 16 block).reverse).reverse
  List.zipWith (· + ·) state ((roundConstants.zip schedule).foldl round state)

def blocks : ℕ → List UInt8 → List (List UInt8)
  | 0, _ => []
  | n + 1, bytes => bytes.take 64 :: blocks n (bytes.drop 64)

def digest (message : List UInt8) : List UInt8 :=
  let padded := pad message
  ((blocks (padded.length / 64) padded).foldl compress initialState).flatMap
    fun word => BigEndian.toBytes 4 word.toNat

example : (digest [97, 98, 99]).take 4 = [0xba, 0x78, 0x16, 0xbf] := by decide +kernel

end Sha256
