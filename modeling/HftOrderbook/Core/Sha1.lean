import HftOrderbook.Library.ByteText

/-!
# SHA-1 and base64

The digest is computed over one padded copy of the input, written into a buffer of zeros, 64 bytes
at a time. `base64` takes three bytes at a time and then the one or two that are left.
-/

namespace HftOrderbook

open ByteText

namespace Sha1

/-- `h0` to `h4`, and `a` to `e` of a chunk. -/
structure State where
  a : UInt32
  b : UInt32
  c : UInt32
  d : UInt32
  e : UInt32
  deriving DecidableEq

def initial : State := ⟨0x67452301, 0xEFCDAB89, 0x98BADCFE, 0x10325476, 0xC3D2E1F0⟩

def rol (x c : UInt32) : UInt32 := (x <<< c) ||| (x >>> (32 - c))

/-- `while (total % 64 != 56) ++total`, for at most `fuel` rounds. -/
def totalLoop : Nat → Nat → Nat
  | 0, total => total
  | fuel + 1, total => if total % 64 ≠ 56 then totalLoop fuel (total + 1) else total

/-- The size of the buffer. Some total among 64 in a row ends the loop. -/
def totalOf (len : Nat) : Nat := totalLoop 64 (len + 1) + 8

/-- The buffer `msg`: the input, the byte of the one bit, and the length in its last eight bytes. -/
def message (data : List UInt8) : List UInt8 :=
  let len := data.length
  let ml := UInt64.ofNat len * 8
  let total := totalOf len
  let msg := List.replicate total 0
  let msg := (List.range len).foldl (fun msg i => msg.set i (data.getD i 0)) msg
  let msg := msg.set len 0x80
  (List.range 8).foldl
    (fun msg i => msg.set (total - 1 - i) ((ml >>> UInt64.ofNat (8 * i)) &&& 0xFF).toUInt8) msg

def wordAt (msg : List UInt8) (o : Nat) : UInt32 :=
  ((msg.getD o 0).toUInt32 <<< 24) ||| ((msg.getD (o + 1) 0).toUInt32 <<< 16) |||
    ((msg.getD (o + 2) 0).toUInt32 <<< 8) ||| (msg.getD (o + 3) 0).toUInt32

/-- The next word, from the `i` words that are there. -/
def extend (w : List UInt32) (i : Nat) : List UInt32 :=
  w ++ [rol (w.getD (i - 3) 0 ^^^ w.getD (i - 8) 0 ^^^ w.getD (i - 14) 0 ^^^ w.getD (i - 16) 0) 1]

/-- The array `w` of the chunk that starts at `chunk`. -/
def schedule (msg : List UInt8) (chunk : Nat) : List UInt32 :=
  (List.range' 16 64).foldl extend ((List.range 16).map fun i => wordAt msg (chunk + 4 * i))

def round (w : List UInt32) (s : State) (i : Nat) : State :=
  let (f, k) : UInt32 × UInt32 :=
    if i < 20 then ((s.b &&& s.c) ||| (~~~s.b &&& s.d), 0x5A827999)
    else if i < 40 then (s.b ^^^ s.c ^^^ s.d, 0x6ED9EBA1)
    else if i < 60 then ((s.b &&& s.c) ||| (s.b &&& s.d) ||| (s.c &&& s.d), 0x8F1BBCDC)
    else (s.b ^^^ s.c ^^^ s.d, 0xCA62C1D6)
  let tmp := rol s.a 5 + f + s.e + k + w.getD i 0
  { a := tmp, b := s.a, c := rol s.b 30, d := s.c, e := s.d }

def processChunk (msg : List UInt8) (h : State) (chunk : Nat) : State :=
  let s := (List.range 80).foldl (round (schedule msg chunk)) h
  { a := h.a + s.a, b := h.b + s.b, c := h.c + s.c, d := h.d + s.d, e := h.e + s.e }

def bytesOf (x : UInt32) : List UInt8 :=
  [((x >>> 24) &&& 0xFF).toUInt8, ((x >>> 16) &&& 0xFF).toUInt8, ((x >>> 8) &&& 0xFF).toUInt8,
    (x &&& 0xFF).toUInt8]

def State.digest (h : State) : List UInt8 := [h.a, h.b, h.c, h.d, h.e].flatMap bytesOf

end Sha1

open Sha1 in
/-- The chunks start at the multiples of 64 below the size of the buffer. -/
def sha1 (data : List UInt8) : List UInt8 :=
  let msg := message data
  ((List.range ((totalOf data.length + 63) / 64)).foldl
    (fun h i => processChunk msg h (64 * i)) initial).digest

namespace Base64

def T : List UInt8 := ascii "ABCDEFGHIJKLMNOPQRSTUVWXYZabcdefghijklmnopqrstuvwxyz0123456789+/"

/-- `T[(n >> shift) & 63]`. -/
def char (n shift : UInt32) : UInt8 := T.getD ((n >>> shift) &&& 63).toNat 0

end Base64

open Base64 in
/-- The encoding of what is left from `i` on. -/
def base64 : List UInt8 → List UInt8
  | [] => []
  | [d₀] =>
      let n := d₀.toUInt32 <<< 16
      [char n 18, char n 12, 0x3D, 0x3D]
  | [d₀, d₁] =>
      let n := (d₀.toUInt32 <<< 16) ||| (d₁.toUInt32 <<< 8)
      [char n 18, char n 12, char n 6, 0x3D]
  | d₀ :: d₁ :: d₂ :: rest =>
      let n := (d₀.toUInt32 <<< 16) ||| (d₁.toUInt32 <<< 8) ||| d₂.toUInt32
      char n 18 :: char n 12 :: char n 6 :: char n 0 :: base64 rest

end HftOrderbook
