import Libubox.Md5.Body

/-!
# Rounds by table

The transformation as RFC 1321 gives it: every step has a function, a word of the
block, an amount to rotate by and a constant, and the four words move on by one place.
The rounds of the code, with its own forms of the functions, come to the same
(`transform_eq`).
-/

namespace Libubox.Md5

/-! ## The steps -/

/-- The function of a step. -/
def mix (i : Nat) (x y z : UInt32) : UInt32 :=
  match i / 16 with
  | 0 => (x &&& y) ||| (~~~x &&& z)
  | 1 => (x &&& z) ||| (y &&& ~~~z)
  | 2 => x ^^^ y ^^^ z
  | _ => y ^^^ (x ||| ~~~z)

/-- The word that a step takes from the block. -/
def wordIndex (i : Nat) : Nat :=
  match i / 16 with
  | 0 => i
  | 1 => (5 * i + 1) % 16
  | 2 => (3 * i + 5) % 16
  | _ => 7 * i % 16

/-- How far a step rotates. -/
def shift (i : Nat) : UInt32 :=
  match i / 16 with
  | 0 => [7, 12, 17, 22].getD (i % 4) 0
  | 1 => [5, 9, 14, 20].getD (i % 4) 0
  | 2 => [4, 11, 16, 23].getD (i % 4) 0
  | _ => [6, 10, 15, 21].getD (i % 4) 0

/-- The integer parts of `2 ^ 32 * |sin (i + 1)|`. -/
def sines : List UInt32 :=
  [0xd76aa478, 0xe8c7b756, 0x242070db, 0xc1bdceee, 0xf57c0faf, 0x4787c62a, 0xa8304613, 0xfd469501,
    0x698098d8, 0x8b44f7af, 0xffff5bb1, 0x895cd7be, 0x6b901122, 0xfd987193, 0xa679438e, 0x49b40821,
    0xf61e2562, 0xc040b340, 0x265e5a51, 0xe9b6c7aa, 0xd62f105d, 0x02441453, 0xd8a1e681, 0xe7d3fbc8,
    0x21e1cde6, 0xc33707d6, 0xf4d50d87, 0x455a14ed, 0xa9e3e905, 0xfcefa3f8, 0x676f02d9, 0x8d2a4c8a,
    0xfffa3942, 0x8771f681, 0x6d9d6122, 0xfde5380c, 0xa4beea44, 0x4bdecfa9, 0xf6bb4b60, 0xbebfbc70,
    0x289b7ec6, 0xeaa127fa, 0xd4ef3085, 0x04881d05, 0xd9d4d039, 0xe6db99e5, 0x1fa27cf8, 0xc4ac5665,
    0xf4292244, 0x432aff97, 0xab9423a7, 0xfc93a039, 0x655b59c3, 0x8f0ccc92, 0xffeff47d, 0x85845dd1,
    0x6fa87e4f, 0xfe2ce6e0, 0xa3014314, 0x4e0811a1, 0xf7537e82, 0xbd3af235, 0x2ad7d2bb, 0xeb86d391]

def rotateLeft (x s : UInt32) : UInt32 := (x <<< s) ||| (x >>> (32 - s))

/-- Step `i`. -/
def tableStep (words : Nat → UInt32) (r : Regs) (i : Nat) : Regs where
  a := r.d
  b := r.b + rotateLeft (r.a + mix i r.b r.c r.d + words (wordIndex i) + sines.getD i 0) (shift i)
  c := r.b
  d := r.c

/-- What a block makes of the four words. -/
def compress (r : Regs) (block : List UInt8) : Regs :=
  ((List.range 64).foldl (tableStep (word block)) r).add r

/-! ## The steps of the code -/

section Words

variable (x y z : UInt32)

theorem F_eq : F x y z = mix 0 x y z := by
  apply UInt32.toBitVec_inj.mp
  apply BitVec.eq_of_getLsbD_eq
  intro i hi
  simp [F, mix]
  grind

theorem G_eq : G x y z = mix 16 x y z := by
  apply UInt32.toBitVec_inj.mp
  apply BitVec.eq_of_getLsbD_eq
  intro i hi
  simp [G, mix]
  grind

theorem H2_eq : H2 x y z = mix 32 x y z := (UInt32.xor_assoc x y z).symm

end Words

theorem step_eq (f : UInt32 → UInt32 → UInt32 → UInt32) (a b c d x t s : UInt32) :
    step f a b c d x t s = b + rotateLeft (a + f b c d + x + t) s := by
  have hmask : ∀ w : UInt32, w &&& 0xffffffff = w := by
    intro w
    apply UInt32.toBitVec_inj.mp
    exact BitVec.and_allOnes
  rw [step, hmask, UInt32.add_comm, rotateLeft, ← UInt32.add_assoc, ← UInt32.add_assoc]

/-- Four steps of the code. -/
def fourSteps (words : Nat → UInt32) (r : Regs) (i : Nat) : Regs :=
  r
    |>.stepA (mix i) (words (wordIndex i)) (sines.getD i 0) (shift i)
    |>.stepD (mix (i + 1)) (words (wordIndex (i + 1))) (sines.getD (i + 1) 0) (shift (i + 1))
    |>.stepC (mix (i + 2)) (words (wordIndex (i + 2))) (sines.getD (i + 2) 0) (shift (i + 2))
    |>.stepB (mix (i + 3)) (words (wordIndex (i + 3))) (sines.getD (i + 3) 0) (shift (i + 3))

/-- Four steps bring every word back to its place. -/
theorem fourSteps_eq (words : Nat → UInt32) (r : Regs) (i : Nat) :
    fourSteps words r i = (List.range' i 4).foldl (tableStep words) r := by
  simp only [fourSteps, Regs.stepA, Regs.stepD, Regs.stepC, Regs.stepB, step_eq]
  rfl

theorem sixteenSteps_eq (words : Nat → UInt32) (r : Regs) (i : Nat) :
    fourSteps words (fourSteps words (fourSteps words (fourSteps words r i) (i + 4)) (i + 8))
      (i + 12) = (List.range' i 16).foldl (tableStep words) r := by
  simp only [fourSteps_eq, ← List.foldl_append]
  rfl

section Rounds

variable (words : Nat → UInt32) (r : Regs)

theorem round1_eq : round1 words r = (List.range' 0 16).foldl (tableStep words) r := by
  have hF : F = mix 0 := funext fun x => funext fun y => funext (F_eq x y)
  rw [round1, hF, ← sixteenSteps_eq]
  rfl

theorem round2_eq : round2 words r = (List.range' 16 16).foldl (tableStep words) r := by
  have hG : G = mix 16 := funext fun x => funext fun y => funext (G_eq x y)
  rw [round2, hG, ← sixteenSteps_eq]
  rfl

theorem round3_eq : round3 words r = (List.range' 32 16).foldl (tableStep words) r := by
  have hH2 : H2 = mix 32 := funext fun x => funext fun y => funext (H2_eq x y)
  rw [round3, hH2, ← sixteenSteps_eq]
  rfl

theorem round4_eq : round4 words r = (List.range' 48 16).foldl (tableStep words) r := by
  rw [round4, ← sixteenSteps_eq]
  rfl

end Rounds

/-- **The four rounds of the code are the steps of the table.** -/
theorem transform_eq (r : Regs) (block : List UInt8) : transform r block = compress r block := by
  rw [transform, round4_eq, round3_eq, round2_eq, round1_eq, ← List.foldl_append,
    ← List.foldl_append, ← List.foldl_append]
  rfl

end Libubox.Md5
