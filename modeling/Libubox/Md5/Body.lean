import Libubox.Lib.Bytes

/-!
# The MD5 transformation

`body` of `md5.c`: one or more blocks of 64 bytes, in four rounds of sixteen steps.  A
step changes one of the four words; the rounds name the words as the calls of `STEP` do.
The bytes are read as on a machine that is not little-endian, which comes to the same.

A read outside the data that is passed, or outside the buffer of the context, makes a
call `none`.
-/

namespace Libubox.Md5

/-! ## The basic functions -/

def F (x y z : UInt32) : UInt32 := z ^^^ (x &&& (y ^^^ z))

def G (x y z : UInt32) : UInt32 := y ^^^ (z &&& (x ^^^ y))

def H (x y z : UInt32) : UInt32 := (x ^^^ y) ^^^ z

def H2 (x y z : UInt32) : UInt32 := x ^^^ (y ^^^ z)

def I (x y z : UInt32) : UInt32 := y ^^^ (x ||| ~~~z)

/-- `STEP`: what becomes of `a`. -/
def step (f : UInt32 → UInt32 → UInt32 → UInt32) (a b c d x t s : UInt32) : UInt32 :=
  let a := a + (f b c d + x + t)
  let a := (a <<< s) ||| ((a &&& 0xffffffff) >>> (32 - s))
  a + b

/-! ## The rounds -/

/-- The four words `a`, `b`, `c` and `d`. -/
structure Regs where
  a : UInt32
  b : UInt32
  c : UInt32
  d : UInt32
  deriving DecidableEq

section Steps

variable (r : Regs) (f : UInt32 → UInt32 → UInt32 → UInt32) (x t s : UInt32)

/-- `STEP(f, a, b, c, d, x, t, s)`. -/
def Regs.stepA : Regs := { r with a := step f r.a r.b r.c r.d x t s }

/-- `STEP(f, d, a, b, c, x, t, s)`. -/
def Regs.stepD : Regs := { r with d := step f r.d r.a r.b r.c x t s }

/-- `STEP(f, c, d, a, b, x, t, s)`. -/
def Regs.stepC : Regs := { r with c := step f r.c r.d r.a r.b x t s }

/-- `STEP(f, b, c, d, a, x, t, s)`. -/
def Regs.stepB : Regs := { r with b := step f r.b r.c r.d r.a x t s }

end Steps

/-- Round 1. -/
def round1 (get : Nat → UInt32) (r : Regs) : Regs :=
  r
    |>.stepA F (get 0) 0xd76aa478 7
    |>.stepD F (get 1) 0xe8c7b756 12
    |>.stepC F (get 2) 0x242070db 17
    |>.stepB F (get 3) 0xc1bdceee 22
    |>.stepA F (get 4) 0xf57c0faf 7
    |>.stepD F (get 5) 0x4787c62a 12
    |>.stepC F (get 6) 0xa8304613 17
    |>.stepB F (get 7) 0xfd469501 22
    |>.stepA F (get 8) 0x698098d8 7
    |>.stepD F (get 9) 0x8b44f7af 12
    |>.stepC F (get 10) 0xffff5bb1 17
    |>.stepB F (get 11) 0x895cd7be 22
    |>.stepA F (get 12) 0x6b901122 7
    |>.stepD F (get 13) 0xfd987193 12
    |>.stepC F (get 14) 0xa679438e 17
    |>.stepB F (get 15) 0x49b40821 22

/-- Round 2. -/
def round2 (get : Nat → UInt32) (r : Regs) : Regs :=
  r
    |>.stepA G (get 1) 0xf61e2562 5
    |>.stepD G (get 6) 0xc040b340 9
    |>.stepC G (get 11) 0x265e5a51 14
    |>.stepB G (get 0) 0xe9b6c7aa 20
    |>.stepA G (get 5) 0xd62f105d 5
    |>.stepD G (get 10) 0x02441453 9
    |>.stepC G (get 15) 0xd8a1e681 14
    |>.stepB G (get 4) 0xe7d3fbc8 20
    |>.stepA G (get 9) 0x21e1cde6 5
    |>.stepD G (get 14) 0xc33707d6 9
    |>.stepC G (get 3) 0xf4d50d87 14
    |>.stepB G (get 8) 0x455a14ed 20
    |>.stepA G (get 13) 0xa9e3e905 5
    |>.stepD G (get 2) 0xfcefa3f8 9
    |>.stepC G (get 7) 0x676f02d9 14
    |>.stepB G (get 12) 0x8d2a4c8a 20

/-- Round 3. -/
def round3 (get : Nat → UInt32) (r : Regs) : Regs :=
  r
    |>.stepA H (get 5) 0xfffa3942 4
    |>.stepD H2 (get 8) 0x8771f681 11
    |>.stepC H (get 11) 0x6d9d6122 16
    |>.stepB H2 (get 14) 0xfde5380c 23
    |>.stepA H (get 1) 0xa4beea44 4
    |>.stepD H2 (get 4) 0x4bdecfa9 11
    |>.stepC H (get 7) 0xf6bb4b60 16
    |>.stepB H2 (get 10) 0xbebfbc70 23
    |>.stepA H (get 13) 0x289b7ec6 4
    |>.stepD H2 (get 0) 0xeaa127fa 11
    |>.stepC H (get 3) 0xd4ef3085 16
    |>.stepB H2 (get 6) 0x04881d05 23
    |>.stepA H (get 9) 0xd9d4d039 4
    |>.stepD H2 (get 12) 0xe6db99e5 11
    |>.stepC H (get 15) 0x1fa27cf8 16
    |>.stepB H2 (get 2) 0xc4ac5665 23

/-- Round 4. -/
def round4 (get : Nat → UInt32) (r : Regs) : Regs :=
  r
    |>.stepA I (get 0) 0xf4292244 6
    |>.stepD I (get 7) 0x432aff97 10
    |>.stepC I (get 14) 0xab9423a7 15
    |>.stepB I (get 5) 0xfc93a039 21
    |>.stepA I (get 12) 0x655b59c3 6
    |>.stepD I (get 3) 0x8f0ccc92 10
    |>.stepC I (get 10) 0xffeff47d 15
    |>.stepB I (get 1) 0x85845dd1 21
    |>.stepA I (get 8) 0x6fa87e4f 6
    |>.stepD I (get 15) 0xfe2ce6e0 10
    |>.stepC I (get 6) 0xa3014314 15
    |>.stepB I (get 13) 0x4e0811a1 21
    |>.stepA I (get 4) 0xf7537e82 6
    |>.stepD I (get 11) 0xbd3af235 10
    |>.stepC I (get 2) 0x2ad7d2bb 15
    |>.stepB I (get 9) 0xeb86d391 21

/-- The words are added to those that were saved. -/
def Regs.add (r saved : Regs) : Regs :=
  ⟨r.a + saved.a, r.b + saved.b, r.c + saved.c, r.d + saved.d⟩

/-- `SET`: four bytes in little-endian order. -/
def word (ptr : List UInt8) (n : Nat) : UInt32 :=
  let byte (i : Nat) : UInt32 := (ptr.getD (n * 4 + i) 0).toUInt32
  byte 0 ||| (byte 1 <<< 8) ||| (byte 2 <<< 16) ||| (byte 3 <<< 24)

/-- One turn of the loop of `body`. -/
def transform (saved : Regs) (ptr : List UInt8) : Regs :=
  let get := word ptr
  (round4 get (round3 get (round2 get (round1 get saved)))).add saved

/-- `body`: the words, and the data that are left.  `size` is an `unsigned long`; the
loop ends when it gets to zero. -/
def body (ctx : Regs) (data : List UInt8) (size : Nat) : Option (Regs × List UInt8) :=
  if h : data.length < 64 then none
  else
    let ctx := transform ctx (data.take 64)
    let size := (size + 2 ^ 64 - 64) % 2 ^ 64
    if size = 0 then some (ctx, data.drop 64) else body ctx (data.drop 64) size
termination_by data.length
decreasing_by
  rw [List.length_drop]
  omega

end Libubox.Md5
