import Mathlib.Data.List.Induction
import Mathlib.Tactic.Ring

/-!
# Byte strings, big-endian words and overwriting

Five facts about lists of bytes that every packed binary format needs.

* `beBytes width n` is the big-endian word of a number and `beNat` reads one
  back; the two are inverse below `256 ^ width` (`beNat_beBytes_of_lt`).
* `overwrite mem off bs` is a block of memory after `bs` was stored at `off`.
  Stores are only ever reasoned about through `overwrite_append`: a block cut
  as `before ++ old ++ after` has `old` replaced and nothing else.
* `window mem off len` is the part of a block from `off` on, `len` long; a store
  leaves every window alone that it does not touch.
* `alignUp k n` is the least multiple of `k` at or above `n`.
* `cString mem` is the text in front of the first zero byte.
-/

namespace Bytes

/-! ## Big-endian words -/

/-- The number a big-endian byte string stands for. -/
def beNat (bs : List UInt8) : Nat :=
  bs.foldl (fun n b => n * 256 + b.toNat) 0

/-- The low `width` bytes of a number, most significant first. -/
def beBytes : Nat → Nat → List UInt8
  | 0, _ => []
  | width + 1, n => beBytes width (n / 256) ++ [UInt8.ofNat n]

theorem beBytes_succ (width n : Nat) :
    beBytes (width + 1) n = beBytes width (n / 256) ++ [UInt8.ofNat n] := rfl

@[simp] theorem beBytes_length (width n : Nat) : (beBytes width n).length = width := by
  induction width generalizing n with
  | zero => rfl
  | succ width ih => simp [beBytes_succ, ih]

@[simp] theorem beNat_append_singleton (bs : List UInt8) (b : UInt8) :
    beNat (bs ++ [b]) = beNat bs * 256 + b.toNat := by
  simp [beNat]

/-- Reading a big-endian word back loses only what the width cannot hold. -/
theorem beNat_beBytes (width n : Nat) : beNat (beBytes width n) = n % 256 ^ width := by
  induction width generalizing n with
  | zero => exact (Nat.mod_one n).symm
  | succ width ih =>
      have hmod : n % 256 ^ (width + 1)
          = n / 256 % 256 ^ width * 256 + n % 256 := by
        rw [pow_succ, Nat.mul_comm (256 ^ width) 256, Nat.mod_mul]
        ring
      rw [beBytes_succ, beNat_append_singleton, ih, hmod]
      simp [UInt8.toNat_ofNat']

theorem beNat_beBytes_of_lt {width n : Nat} (h : n < 256 ^ width) :
    beNat (beBytes width n) = n := by
  rw [beNat_beBytes, Nat.mod_eq_of_lt h]

/-- A big-endian word of `k` bytes is below `256 ^ k`. -/
theorem beNat_lt (bs : List UInt8) : beNat bs < 256 ^ bs.length := by
  induction bs using List.reverseRecOn with
  | nil => simp [beNat]
  | append_singleton bs b ih =>
      have hb : b.toNat < 256 := UInt8.toNat_lt b
      rw [beNat_append_singleton, List.length_append, List.length_singleton, pow_succ]
      omega

/-! ## Overwriting a block -/

variable {α : Type*}

/-- The block `mem` after `bs` was stored at offset `off`. -/
def overwrite (mem : List α) (off : Nat) (bs : List α) : List α :=
  mem.take off ++ bs ++ mem.drop (off + bs.length)

/-- A store inside a block keeps its length. -/
theorem overwrite_length {mem : List α} {off : Nat} {bs : List α}
    (h : off + bs.length ≤ mem.length) : (overwrite mem off bs).length = mem.length := by
  simp [overwrite]
  omega

/-- A store replaces exactly the bytes it covers. -/
theorem overwrite_append {before old after bs : List α} {off : Nat}
    (hoff : off = before.length) (hlen : old.length = bs.length) :
    overwrite (before ++ old ++ after) off bs = before ++ bs ++ after := by
  subst hoff
  have hdrop : (before ++ old ++ after).drop (before.length + bs.length) = after := by
    rw [← hlen, ← List.length_append, List.drop_left]
  rw [overwrite, hdrop, List.append_assoc before old, List.take_left]

/-- What a store inside a block leaves at an index. -/
theorem getElem?_overwrite {mem bs : List α} {off : Nat} (h : off + bs.length ≤ mem.length)
    (i : Nat) : (overwrite mem off bs)[i]?
      = if off ≤ i ∧ i < off + bs.length then bs[i - off]? else mem[i]? := by
  have htake : (mem.take off).length = off := by
    rw [List.length_take]
    omega
  rw [overwrite, List.append_assoc]
  by_cases hlow : i < off
  · rw [List.getElem?_append_left (by omega), List.getElem?_take, if_pos hlow,
      if_neg (by omega)]
  rw [List.getElem?_append_right (by omega), htake]
  by_cases hhigh : i < off + bs.length
  · rw [List.getElem?_append_left (by omega), if_pos (by omega)]
  · rw [List.getElem?_append_right (by omega), List.getElem?_drop, if_neg (by omega)]
    congr 1
    omega

/-- The beginning of a block after a store that begins in it. -/
theorem take_overwrite {mem bs : List α} {off n : Nat} (hoff : off ≤ n)
    (hroom : off + bs.length ≤ mem.length) :
    (overwrite mem off bs).take (max n (off + bs.length)) = overwrite (mem.take n) off bs := by
  have hfront : (mem.take off ++ bs).length = off + bs.length := by
    rw [List.length_append, List.length_take]
    omega
  have hrest : max n (off + bs.length) - (off + bs.length) = n - (off + bs.length) := by omega
  rw [overwrite, overwrite, List.take_append, List.take_of_length_le (by omega), hfront, hrest,
    List.take_take, Nat.min_eq_left hoff, List.drop_take]

/-- Cut a block at two offsets. -/
theorem exists_three_parts {mem : List α} {off len : Nat} (h : off + len ≤ mem.length) :
    ∃ before old after, mem = before ++ old ++ after ∧
      before.length = off ∧ old.length = len := by
  refine ⟨mem.take off, (mem.drop off).take len, (mem.drop off).drop len, ?_, ?_, ?_⟩
  · rw [List.append_assoc, List.take_append_drop, List.take_append_drop]
  · simp
    omega
  · simp
    omega

/-! ## Windows of a block -/

/-- The `len` entries from offset `off` on, if the block has them. -/
def window (mem : List α) (off len : Nat) : Option (List α) :=
  if off + len ≤ mem.length then some ((mem.drop off).take len) else none

theorem window_append {mem bs : List α} {off len : Nat} (h : window mem off len = some bs)
    (tail : List α) : window (mem ++ tail) off len = some bs := by
  unfold window at h ⊢
  split at h
  · next hroom =>
      rw [if_pos (by rw [List.length_append]; omega), ← h,
        List.drop_append_of_le_length (by omega),
        List.take_append_of_le_length (by rw [List.length_drop]; omega)]
  · cases h

/-- A store leaves the windows alone that it does not touch. -/
theorem window_overwrite_of_disjoint {mem bs : List α} {at' off len : Nat}
    (hroom : at' + bs.length ≤ mem.length)
    (h : off + len ≤ at' ∨ at' + bs.length ≤ off) :
    window (overwrite mem at' bs) off len = window mem off len := by
  unfold window
  rw [overwrite_length hroom]
  split
  · congr 1
    apply List.ext_getElem?
    intro i
    rw [List.getElem?_take, List.getElem?_take]
    split
    · rw [List.getElem?_drop, List.getElem?_drop, getElem?_overwrite hroom, if_neg (by omega)]
    · rfl
  · rfl

/-- What was stored can be read back. -/
theorem window_overwrite_self {mem bs : List α} {off : Nat} (hroom : off + bs.length ≤ mem.length) :
    window (overwrite mem off bs) off bs.length = some bs := by
  have htake : (mem.take off).length = off := by
    rw [List.length_take]
    omega
  rw [window, overwrite_length hroom, if_pos hroom, overwrite, List.append_assoc,
    List.drop_append_of_le_length (by omega), List.drop_of_length_le (by omega),
    List.nil_append, List.take_left]

/-! ## Alignment -/

/-- The least multiple of `k` at or above `n`. -/
def alignUp (k n : Nat) : Nat := (n + k - 1) / k * k

theorem le_alignUp_four (n : Nat) : n ≤ alignUp 4 n := by
  unfold alignUp
  omega

theorem alignUp_four_lt (n : Nat) : alignUp 4 n < n + 4 := by
  unfold alignUp
  omega

theorem alignUp_four_mod (n : Nat) : alignUp 4 n % 4 = 0 := by
  unfold alignUp
  omega

/-- A multiple of the alignment is its own rounding. -/
theorem alignUp_four_of_mod {n : Nat} (h : n % 4 = 0) : alignUp 4 n = n := by
  unfold alignUp
  omega

theorem alignUp_four_le_of_mod {n m : Nat} (h : n ≤ m) (hm : m % 4 = 0) :
    alignUp 4 n ≤ m := by
  unfold alignUp
  omega

/-! ## Zero-terminated text -/

/-- The bytes before the first zero; `none` if the memory ends before one. -/
def cString : List UInt8 → Option (List UInt8)
  | [] => none
  | c :: mem => if c = 0 then some [] else (cString mem).map (c :: ·)

theorem cString_cons (c : UInt8) (mem : List UInt8) :
    cString (c :: mem) = if c = 0 then some [] else (cString mem).map (c :: ·) := rfl

theorem cString_append {text rest : List UInt8} (h : 0 ∉ text) :
    cString (text ++ 0 :: rest) = some text := by
  induction text with
  | nil => rfl
  | cons c text ih =>
      have hc : c ≠ 0 := fun hc => h (hc ▸ List.mem_cons_self)
      rw [List.cons_append, cString_cons, if_neg hc,
        ih fun hmem => h (List.mem_cons_of_mem c hmem), Option.map_some]

/-- What `cString` returns is followed by a zero. -/
theorem cString_eq_some {mem text : List UInt8} (h : cString mem = some text) :
    0 ∉ text ∧ ∃ rest, mem = text ++ 0 :: rest := by
  induction mem generalizing text with
  | nil => cases h
  | cons c mem ih =>
      rw [cString_cons] at h
      split at h
      · next hc =>
          cases h
          exact ⟨List.not_mem_nil, mem, by rw [hc, List.nil_append]⟩
      · next hc =>
          obtain ⟨tail, htail, rfl⟩ := Option.map_eq_some_iff.mp h
          obtain ⟨hzero, rest, rfl⟩ := ih htail
          refine ⟨fun hmem => ?_, rest, rfl⟩
          rcases List.mem_cons.mp hmem with h0 | hmem
          · exact hc h0.symm
          · exact hzero hmem

end Bytes
