import HftOrderbook.Library.BitString

/-!
# SHA-1 as RFC 3174 specifies it

A message is a string of bits. It is padded to whole blocks of 512 bits with a one, zeros and its
length in 64 bits, and the blocks are processed in order (the first of the two methods of the
document). The document asks for messages of fewer than `2 ^ 64` bits.
-/

namespace Rfc3174

open BitString

abbrev Word := BitVec 32

/-- `S^n(X)`. -/
def rotate (n : Nat) (x : Word) : Word := (x <<< n) ||| (x >>> (32 - n))

def f (t : Nat) (b c d : Word) : Word :=
  if t < 20 then (b &&& c) ||| (~~~b &&& d)
  else if t < 40 then b ^^^ c ^^^ d
  else if t < 60 then (b &&& c) ||| (b &&& d) ||| (c &&& d)
  else b ^^^ c ^^^ d

def K (t : Nat) : Word :=
  if t < 20 then 0x5A827999#32
  else if t < 40 then 0x6ED9EBA1#32
  else if t < 60 then 0x8F1BBCDC#32
  else 0xCA62C1D6#32

/-! ### Padding -/

theorem exists_zeros (l : Nat) : ∃ k, 512 ∣ l + 1 + k + 64 :=
  ⟨447 + 511 * l, l + 1, by ring⟩

/-- As few zeros as fill the last block. -/
def zeros (l : Nat) : Nat := Nat.find (exists_zeros l)

def pad (m : List Bool) : List Bool :=
  m ++ true :: (List.replicate (zeros m.length) false ++ bitsOf 64 m.length)

/-! ### Blocks -/

def wordOf (s : List Bool) : Word := BitVec.ofNat 32 (valueOf s)

/-- `W(t)` for the words of a block. -/
def W (block : List Bool) (t : Nat) : Word :=
  if t < 16 then wordOf ((groups 32 block).getD t [])
  else rotate 1 (W block (t - 3) ^^^ W block (t - 8) ^^^ W block (t - 14) ^^^ W block (t - 16))
termination_by t

structure Buffer where
  a : Word
  b : Word
  c : Word
  d : Word
  e : Word

def step (block : List Bool) (s : Buffer) (t : Nat) : Buffer :=
  { a := rotate 5 s.a + f t s.b s.c s.d + s.e + W block t + K t
    b := s.a
    c := rotate 30 s.b
    d := s.c
    e := s.d }

def process (h : Buffer) (block : List Bool) : Buffer :=
  let s := (List.range 80).foldl (step block) h
  { a := h.a + s.a, b := h.b + s.b, c := h.c + s.c, d := h.d + s.d, e := h.e + s.e }

def initial : Buffer :=
  { a := 0x67452301#32, b := 0xEFCDAB89#32, c := 0x98BADCFE#32, d := 0x10325476#32
    e := 0xC3D2E1F0#32 }

def Buffer.digest (h : Buffer) : List Bool :=
  [h.a, h.b, h.c, h.d, h.e].flatMap fun x => bitsOf 32 x.toNat

/-- The 160 bits of the digest. -/
def sha1 (m : List Bool) : List Bool := ((groups 512 (pad m)).foldl process initial).digest

end Rfc3174
