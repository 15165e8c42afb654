import Libubox.B64.Codec

/-!
# Encoding

`b64_encode` writes the encoding and its zero byte.  The length is returned as an
`int` (`encodes_iff`).
-/

namespace Libubox.B64

open Sextets

theorem base64_bytes : Base64 = [65, 66, 67, 68, 69, 70, 71, 72, 73, 74, 75, 76, 77, 78, 79, 80,
    81, 82, 83, 84, 85, 86, 87, 88, 89, 90, 97, 98, 99, 100, 101, 102, 103, 104, 105, 106, 107,
    108, 109, 110, 111, 112, 113, 114, 115, 116, 117, 118, 119, 120, 121, 122, 48, 49, 50, 51, 52,
    53, 54, 55, 56, 57, 43, 47] := by
  rfl

theorem length_base64 : Base64.length = 64 := by
  rw [base64_bytes]
  rfl

theorem idxOf_base64 : ∀ i < 64, Base64.idxOf (Base64.getD i 0) = i := by
  rw [base64_bytes]
  decide

/-- The alphabet of the source. -/
def alphabet : Alphabet UInt8 where
  digit i := Base64.getD i 0
  pad := Pad64
  digit_inj i hi j hj h := by
    have hidx := congrArg Base64.idxOf h
    rwa [idxOf_base64 i hi, idxOf_base64 j hj] at hidx
  digit_ne_pad := by
    rw [base64_bytes]
    decide

/-! ## Stores -/

variable {target out cs : List UInt8} {c : UInt8}

/-- A store behind what is written. -/
theorem store_prefix (h : out <+: target) (hroom : out.length < target.length) (c : UInt8) :
    ∃ target', store target out.length c = some target' ∧ out ++ [c] <+: target' ∧
      target'.length = target.length := by
  refine ⟨target.set out.length c, if_pos hroom, ?_, List.length_set⟩
  obtain ⟨rest, rfl⟩ := h
  cases rest with
  | nil => simp at hroom
  | cons old rest =>
      refine ⟨rest, ?_⟩
      rw [List.set_append_right _ _ (Nat.le_refl _), Nat.sub_self, List.set_cons_zero,
        List.append_assoc]
      rfl

theorem storeAll_prefix (cs : List UInt8) (h : out <+: target)
    (hroom : out.length + cs.length ≤ target.length) :
    ∃ target', storeAll target out.length cs = some target' ∧ out ++ cs <+: target' ∧
      target'.length = target.length := by
  induction cs generalizing target out with
  | nil => exact ⟨target, rfl, by rwa [List.append_nil], rfl⟩
  | cons c cs ih =>
      rw [List.length_cons] at hroom
      obtain ⟨t₁, hstore, hpre, hlen⟩ := store_prefix h (by omega) c
      obtain ⟨t₂, hall, hpre₂, hlen₂⟩ := ih hpre (by simp; omega)
      refine ⟨t₂, ?_, ?_, by rw [hlen₂, hlen]⟩
      · rw [storeAll, hstore, Option.bind_some, ← hall, List.length_append, List.length_singleton]
      · rwa [List.append_assoc] at hpre₂

/-! ## Encoding -/

theorem outputOf_eq (a b c : UInt8) :
    outputOf a b c = (List.range 4).map (sextet (bits a b c)) := by
  have hand2 : ∀ n, n &&& 0x03 = n % 4 := fun n => Nat.and_two_pow_sub_one_eq_mod n 2
  have hand4 : ∀ n, n &&& 0x0f = n % 16 := fun n => Nat.and_two_pow_sub_one_eq_mod n 4
  have hand6 : ∀ n, n &&& 0x3f = n % 64 := fun n => Nat.and_two_pow_sub_one_eq_mod n 6
  have hrange : List.range 4 = [0, 1, 2, 3] := rfl
  rw [outputOf, hand2, hand4, hand6, hrange]
  simp [Nat.shiftRight_eq_div_pow, Nat.shiftLeft_eq]

theorem charsOf_of_lt {output : List Nat} (h : ∀ i ∈ output, i < 64) :
    charsOf output = some (output.map alphabet.digit) := by
  rw [charsOf]
  induction output with
  | nil => rfl
  | cons i output ih =>
      have hi : i < Base64.length := length_base64.symm ▸ h i List.mem_cons_self
      rw [List.mapM_cons, ih fun j hj => h j (List.mem_cons_of_mem i hj), List.map_cons]
      have hget : Base64[i]? = some (alphabet.digit i) := by
        simp only [alphabet, List.getD_eq_getElem?_getD, List.getElem?_eq_getElem hi,
          Option.getD_some]
      rw [hget]
      rfl

theorem charsOf_outputOf (a b c : UInt8) (k : Nat) :
    charsOf ((outputOf a b c).take k) = some ((alphabet.word (bits a b c)).take k) := by
  rw [outputOf_eq, charsOf_of_lt, Alphabet.word, ← List.map_take, ← List.map_take, List.map_map]
  · rfl
  · intro i hi
    obtain ⟨j, -, rfl⟩ := List.mem_map.mp (List.mem_of_mem_take hi)
    exact sextet_lt _ j

theorem b64EncodeEnd_prefix (h : out <+: target) (hroom : out.length < target.length) :
    ∃ target', b64EncodeEnd target out.length = some (Int.bmod out.length (2 ^ 32), target') ∧
      out ++ [0] <+: target' ∧ target'.length = target.length := by
  obtain ⟨t₁, hstore, hpre, hlen⟩ := store_prefix h hroom 0
  refine ⟨t₁, ?_, hpre, hlen⟩
  rw [b64EncodeEnd, if_neg (Nat.not_le.mpr hroom), hstore, Option.map_some]

theorem b64EncodeEnd_group (h : out <+: target) (hcs : cs.length = 4)
    (hroom : out.length + 4 < target.length) :
    ∃ target', ((storeAll target out.length cs).bind fun target =>
        b64EncodeEnd target (out.length + 4)) =
          some (Int.bmod (out ++ cs).length (2 ^ 32), target') ∧
      out ++ cs ++ [0] <+: target' ∧ target'.length = target.length := by
  obtain ⟨t₁, hall, hpre, hlen⟩ := storeAll_prefix cs h (by omega)
  have hout : (out ++ cs).length = out.length + 4 := by rw [List.length_append, hcs]
  obtain ⟨t₂, hend, hpre₂, hlen₂⟩ := b64EncodeEnd_prefix hpre (by omega)
  refine ⟨t₂, ?_, hpre₂, by rw [hlen₂, hlen]⟩
  rw [hall, Option.bind_some, ← hout, hend]

/-- The rest of the encoding is written behind what is there. -/
theorem b64EncodeFrom_spec (x : List UInt8) (h : out <+: target)
    (hroom : out.length + (alphabet.encode x).length < target.length) :
    ∃ target', b64EncodeFrom target out.length x =
        some (Int.bmod (out ++ alphabet.encode x).length (2 ^ 32), target') ∧
      out ++ alphabet.encode x ++ [0] <+: target' ∧ target'.length = target.length := by
  induction x using Alphabet.encode.induct generalizing target out with
  | case1 a b c rest ih =>
      have hword : (alphabet.word (bits a b c)).length = 4 := rfl
      rw [Alphabet.encode_words, List.length_append, hword] at hroom
      obtain ⟨t₁, hall, hpre, hlen⟩ :=
        storeAll_prefix (alphabet.word (bits a b c)) h (by omega)
      obtain ⟨t₂, hrest, hpre₂, hlen₂⟩ := ih hpre (by rw [List.length_append]; omega)
      have hchars : charsOf (outputOf a b c) = some (alphabet.word (bits a b c)) :=
        charsOf_outputOf a b c 4
      refine ⟨t₂, ?_, ?_, by rw [hlen₂, hlen]⟩
      · rw [b64EncodeFrom, if_neg (by omega), hchars, Option.bind_some, hall, Option.bind_some,
          Alphabet.encode_words, ← List.append_assoc, ← hrest, List.length_append, hword]
      · rw [Alphabet.encode_words, ← List.append_assoc]
        exact hpre₂
  | case2 a b =>
      rw [alphabet.encode_length] at hroom
      have hroom : out.length + 4 < target.length := by simpa using hroom
      rw [b64EncodeFrom, if_neg (by omega), charsOf_outputOf, Option.bind_some,
        Alphabet.encode_pair]
      exact b64EncodeEnd_group h rfl hroom
  | case3 a =>
      rw [alphabet.encode_length] at hroom
      have hroom : out.length + 4 < target.length := by simpa using hroom
      rw [b64EncodeFrom, if_neg (by omega), charsOf_outputOf, Option.bind_some,
        Alphabet.encode_single]
      exact b64EncodeEnd_group h rfl hroom
  | case4 =>
      rw [b64EncodeFrom, Alphabet.encode_nil, List.append_nil]
      exact b64EncodeEnd_prefix h hroom

/-- `b64_encode` of some bytes succeeds and returns their encoding, in every target
of the size that it asks for. -/
def Encodes (x : List UInt8) : Prop :=
  ∀ target : List UInt8, B64_ENCODE_LEN x.length ≤ target.length →
    ∃ target', b64Encode x target = some (((alphabet.encode x).length : Int), target') ∧
      alphabet.encode x ++ [0] <+: target' ∧ target'.length = target.length

theorem encodes_iff (x : List UInt8) : Encodes x ↔ 4 * ((x.length + 2) / 3) < 2 ^ 31 := by
  rw [← alphabet.encode_length]
  have hspec : ∀ target : List UInt8, B64_ENCODE_LEN x.length ≤ target.length →
      ∃ target', b64Encode x target =
          some (Int.bmod (alphabet.encode x).length (2 ^ 32), target') ∧
        alphabet.encode x ++ [0] <+: target' ∧ target'.length = target.length := by
    intro target hlen
    have hroom : (alphabet.encode x).length < target.length := by
      rw [alphabet.encode_length]
      unfold B64_ENCODE_LEN at hlen
      omega
    have hspec := b64EncodeFrom_spec x (List.nil_prefix (l := target))
      (by rwa [List.length_nil, Nat.zero_add])
    simpa only [b64Encode, List.nil_append, List.length_nil] using hspec
  constructor
  · intro h
    obtain ⟨t₁, hencode, -⟩ := h (List.replicate (B64_ENCODE_LEN x.length) 0)
      (List.length_replicate ▸ Nat.le_refl _)
    obtain ⟨t₂, hwrapped, -⟩ := hspec (List.replicate (B64_ENCODE_LEN x.length) 0)
      (List.length_replicate ▸ Nat.le_refl _)
    rw [hencode] at hwrapped
    have hint := congrArg Prod.fst (Option.some.inj hwrapped)
    have hlt : Int.bmod (alphabet.encode x).length (2 ^ 32) < ((2 ^ 32 : Nat) + 1) / 2 :=
      Int.bmod_lt (by decide)
    simp only at hint
    omega
  · intro h target hlen
    obtain ⟨target', hencode, hpre⟩ := hspec target hlen
    have hint : Int.bmod (alphabet.encode x).length (2 ^ 32) = (alphabet.encode x).length :=
      Int.bmod_eq_of_le_mul_two (by omega) (by omega)
    rw [hint] at hencode
    exact ⟨target', hencode, hpre⟩

end Libubox.B64
