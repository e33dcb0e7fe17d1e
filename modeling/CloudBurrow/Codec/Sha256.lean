import CloudBurrow.Codec.Utf8

namespace CloudBurrow.Sha256

open Utf8

def constants : List UInt32 :=
  [0x428a2f98, 0x71374491, 0xb5c0fbcf, 0xe9b5dba5, 0x3956c25b, 0x59f111f1, 0x923f82a4, 0xab1c5ed5,
    0xd807aa98, 0x12835b01, 0x243185be, 0x550c7dc3, 0x72be5d74, 0x80deb1fe, 0x9bdc06a7, 0xc19bf174,
    0xe49b69c1, 0xefbe4786, 0x0fc19dc6, 0x240ca1cc, 0x2de92c6f, 0x4a7484aa, 0x5cb0a9dc, 0x76f988da,
    0x983e5152, 0xa831c66d, 0xb00327c8, 0xbf597fc7, 0xc6e00bf3, 0xd5a79147, 0x06ca6351, 0x14292967,
    0x27b70a85, 0x2e1b2138, 0x4d2c6dfc, 0x53380d13, 0x650a7354, 0x766a0abb, 0x81c2c92e, 0x92722c85,
    0xa2bfe8a1, 0xa81a664b, 0xc24b8b70, 0xc76c51a3, 0xd192e819, 0xd6990624, 0xf40e3585, 0x106aa070,
    0x19a4c116, 0x1e376c08, 0x2748774c, 0x34b0bcb5, 0x391c0cb3, 0x4ed8aa4a, 0x5b9cca4f, 0x682e6ff3,
    0x748f82ee, 0x78a5636f, 0x84c87814, 0x8cc70208, 0x90befffa, 0xa4506ceb, 0xbef9a3f7, 0xc67178f2]

structure Registers where
  a : UInt32
  b : UInt32
  c : UInt32
  d : UInt32
  e : UInt32
  f : UInt32
  g : UInt32
  h : UInt32

def initial : Registers :=
  ⟨0x6a09e667, 0xbb67ae85, 0x3c6ef372, 0xa54ff53a, 0x510e527f, 0x9b05688c, 0x1f83d9ab, 0x5be0cd19⟩

def rotate (x n : UInt32) : UInt32 := (x >>> n) ||| (x <<< (32 - n))

def bigEndian (n : UInt32) : Bytes := [(n >>> 24).toUInt8, (n >>> 16).toUInt8, (n >>> 8).toUInt8, n.toUInt8]

def pad (message : Bytes) : Bytes :=
  let bits := 8 * message.length
  message ++ 0x80 :: List.replicate ((119 - message.length % 64) % 64) 0 ++
    bigEndian (UInt32.ofNat (bits / 2 ^ 32)) ++ bigEndian (UInt32.ofNat bits)

def words : Bytes → List UInt32
  | a :: b :: c :: d :: rest =>
    (a.toUInt32 <<< 24 ||| b.toUInt32 <<< 16 ||| c.toUInt32 <<< 8 ||| d.toUInt32) :: words rest
  | _ => []

def extend : Nat → List UInt32 → List UInt32
  | 0, w => w
  | n + 1, w =>
    let w15 := w.getD 14 0
    let w2 := w.getD 1 0
    let s0 := rotate w15 7 ^^^ rotate w15 18 ^^^ (w15 >>> 3)
    let s1 := rotate w2 17 ^^^ rotate w2 19 ^^^ (w2 >>> 10)
    extend n ((w.getD 15 0 + s0 + w.getD 6 0 + s1) :: w)

def Registers.round (r : Registers) (k w : UInt32) : Registers :=
  let s1 := rotate r.e 6 ^^^ rotate r.e 11 ^^^ rotate r.e 25
  let ch := (r.e &&& r.f) ^^^ ((~~~ r.e) &&& r.g)
  let t1 := r.h + s1 + ch + k + w
  let s0 := rotate r.a 2 ^^^ rotate r.a 13 ^^^ rotate r.a 22
  let maj := (r.a &&& r.b) ^^^ (r.a &&& r.c) ^^^ (r.b &&& r.c)
  ⟨t1 + s0 + maj, r.a, r.b, r.c, r.d + t1, r.e, r.f, r.g⟩

def Registers.block (r : Registers) (block : Bytes) : Registers :=
  let w := (extend 48 (words block).reverse).reverse
  let s := (constants.zip w).foldl (fun s kw => s.round kw.1 kw.2) r
  ⟨r.a + s.a, r.b + s.b, r.c + s.c, r.d + s.d, r.e + s.e, r.f + s.f, r.g + s.g, r.h + s.h⟩

def blocks : Nat → Bytes → List Bytes
  | 0, _ => []
  | n + 1, m => m.take 64 :: blocks n (m.drop 64)

def sum (message : Bytes) : Bytes :=
  let padded := pad message
  let r := (blocks (padded.length / 64) padded).foldl Registers.block initial
  [r.a, r.b, r.c, r.d, r.e, r.f, r.g, r.h].flatMap bigEndian

theorem sum_length (message : Bytes) : (sum message).length = 32 := by
  simp [sum, bigEndian]

example : sum (ascii "abc") =
    [0xba, 0x78, 0x16, 0xbf, 0x8f, 0x01, 0xcf, 0xea, 0x41, 0x41, 0x40, 0xde, 0x5d, 0xae, 0x22, 0x23,
      0xb0, 0x03, 0x61, 0xa3, 0x96, 0x17, 0x7a, 0x9c, 0xb4, 0x10, 0xff, 0x61, 0xf2, 0x00, 0x15, 0xad] := by
  decide +kernel

end CloudBurrow.Sha256
