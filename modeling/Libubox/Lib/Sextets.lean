import Mathlib.Data.List.Basic
import Mathlib.Tactic.NormNum

/-!
# Bytes in groups of six bits

Three bytes are 24 bits, and these are four digits of six bits each.  A last group
of one or two bytes is filled up with zero bits, written with the digits that hold
any of its own bits, and padded to four characters.

`encode` is this for any alphabet.  What begins with four digits is the encoding
of three bytes and what follows them (`encode_eq_digits`); a pad comes only after
digits whose spare bits are zero (`encode_eq_two`, `encode_eq_three`).
-/

namespace Sextets

variable {α : Type*}

/-- The characters of the 64 digits, and one that is not a digit. -/
structure Alphabet (α : Type*) where
  digit : Nat → α
  pad : α
  digit_inj : ∀ i < 64, ∀ j < 64, digit i = digit j → i = j
  digit_ne_pad : ∀ i < 64, digit i ≠ pad

/-- Three bytes as a number of 24 bits. -/
def bits (a b c : UInt8) : Nat := (a.toNat * 256 + b.toNat) * 256 + c.toNat

/-- The sextet of 24 bits at a position from the left. -/
def sextet (n i : Nat) : Nat := n / 64 ^ (3 - i) % 64

variable (A : Alphabet α)

/-- The four digits of 24 bits. -/
def Alphabet.word (n : Nat) : List α := (List.range 4).map fun i => A.digit (sextet n i)

/-- The text of some bytes. -/
def Alphabet.encode : List UInt8 → List α
  | a :: b :: c :: rest => A.word (bits a b c) ++ Alphabet.encode rest
  | [a, b] => (A.word (bits a b 0)).take 3 ++ [A.pad]
  | [a] => (A.word (bits a 0 0)).take 2 ++ [A.pad, A.pad]
  | [] => []

variable (a b c : UInt8)

@[simp] theorem Alphabet.encode_nil : A.encode [] = [] := rfl

theorem Alphabet.encode_words (rest : List UInt8) :
    A.encode (a :: b :: c :: rest) = A.word (bits a b c) ++ A.encode rest := rfl

theorem Alphabet.encode_pair : A.encode [a, b] = (A.word (bits a b 0)).take 3 ++ [A.pad] := rfl

theorem Alphabet.encode_single : A.encode [a] = (A.word (bits a 0 0)).take 2 ++ [A.pad, A.pad] :=
  rfl

/-! ## Sextets of bytes -/

@[simp] theorem sextet_bits_zero : sextet (bits a b c) 0 = a.toNat / 4 := by
  have := a.toNat_lt
  have := b.toNat_lt
  have := c.toNat_lt
  simp only [sextet, bits, Nat.sub_zero]
  omega

@[simp] theorem sextet_bits_one : sextet (bits a b c) 1 = a.toNat % 4 * 16 + b.toNat / 16 := by
  have := a.toNat_lt
  have := b.toNat_lt
  have := c.toNat_lt
  simp only [sextet, bits]
  omega

@[simp] theorem sextet_bits_two : sextet (bits a b c) 2 = b.toNat % 16 * 4 + c.toNat / 64 := by
  have := a.toNat_lt
  have := b.toNat_lt
  have := c.toNat_lt
  simp only [sextet, bits]
  omega

@[simp] theorem sextet_bits_three : sextet (bits a b c) 3 = c.toNat % 64 := by
  simp only [sextet, bits, Nat.sub_self, Nat.pow_zero, Nat.div_one]
  omega

theorem sextet_lt (n i : Nat) : sextet n i < 64 := Nat.mod_lt _ (by decide)

theorem Alphabet.word_eq (n : Nat) : A.word n =
    [A.digit (sextet n 0), A.digit (sextet n 1), A.digit (sextet n 2), A.digit (sextet n 3)] :=
  rfl

/-! ## Length and characters -/

theorem Alphabet.encode_length (x : List UInt8) :
    (A.encode x).length = 4 * ((x.length + 2) / 3) := by
  induction x using Alphabet.encode.induct with
  | case1 a b c rest ih =>
      simp only [Alphabet.encode_words, Alphabet.word_eq, List.length_append, List.length_cons,
        List.length_nil, ih]
      omega
  | case2 a b => simp [Alphabet.encode_pair, Alphabet.word_eq]
  | case3 a => simp [Alphabet.encode_single, Alphabet.word_eq]
  | case4 => rfl

theorem Alphabet.mem_encode {x : List UInt8} {ch : α} (h : ch ∈ A.encode x) :
    ch = A.pad ∨ ∃ i < 64, ch = A.digit i := by
  have hword : ∀ {n}, ch ∈ A.word n → ∃ i < 64, ch = A.digit i := by
    intro n hmem
    obtain ⟨i, -, hi⟩ := List.mem_map.mp hmem
    exact ⟨sextet n i, sextet_lt n i, hi.symm⟩
  induction x using Alphabet.encode.induct with
  | case1 a b c rest ih =>
      rcases List.mem_append.mp h with h | h
      · exact .inr (hword h)
      · exact ih h
  | case2 a b =>
      rcases List.mem_append.mp h with h | h
      · exact .inr (hword (List.mem_of_mem_take h))
      · exact .inl (List.mem_singleton.mp h)
  | case3 a =>
      rcases List.mem_append.mp h with h | h
      · exact .inr (hword (List.mem_of_mem_take h))
      · simp only [List.mem_cons, List.not_mem_nil, or_false, or_self] at h
        exact .inl h
  | case4 => cases h

/-! ## What a text is the encoding of -/

/-- The bytes of four digits. -/
def byte0 (u v : Nat) : UInt8 := UInt8.ofNat (u * 4 + v / 16)
def byte1 (v w : Nat) : UInt8 := UInt8.ofNat (v % 16 * 16 + w / 4)
def byte2 (w z : Nat) : UInt8 := UInt8.ofNat (w % 4 * 64 + z)

variable {A} {x : List UInt8} {t : List α} {u v w z : Nat}

theorem byte0_eq_iff (hu : u < 64) (hv : v < 64) :
    byte0 u v = a ↔ a.toNat / 4 = u ∧ a.toNat % 4 = v / 16 := by
  rw [byte0, ← UInt8.toNat_inj, UInt8.toNat_ofNat', Nat.mod_eq_of_lt (by omega)]
  omega

theorem byte1_eq_iff (hw : w < 64) :
    byte1 v w = b ↔ b.toNat / 16 = v % 16 ∧ b.toNat % 16 = w / 4 := by
  rw [byte1, ← UInt8.toNat_inj, UInt8.toNat_ofNat', Nat.mod_eq_of_lt (by omega)]
  omega

theorem byte2_eq_iff (hz : z < 64) :
    byte2 w z = c ↔ c.toNat / 64 = w % 4 ∧ c.toNat % 64 = z := by
  rw [byte2, ← UInt8.toNat_inj, UInt8.toNat_ofNat', Nat.mod_eq_of_lt (by omega)]
  omega

theorem Alphabet.digit_eq_iff (hu : u < 64) (hv : v < 64) : A.digit u = A.digit v ↔ u = v :=
  ⟨A.digit_inj u hu v hv, congrArg A.digit⟩

theorem Alphabet.digit_ne_pad_iff (hu : u < 64) : A.digit u = A.pad ↔ False :=
  iff_false_intro (A.digit_ne_pad u hu)

theorem Alphabet.pad_eq_digit_iff (hu : u < 64) : A.pad = A.digit u ↔ False :=
  iff_false_intro (A.digit_ne_pad u hu).symm

/-- The encodings of at least three bytes. -/
theorem Alphabet.encode_group (rest : List UInt8) : A.encode (a :: b :: c :: rest) =
    A.digit (a.toNat / 4) :: A.digit (a.toNat % 4 * 16 + b.toNat / 16) ::
      A.digit (b.toNat % 16 * 4 + c.toNat / 64) :: A.digit (c.toNat % 64) :: A.encode rest := by
  simp [Alphabet.encode_words, Alphabet.word_eq]

theorem Alphabet.encode_two : A.encode [a, b] = [A.digit (a.toNat / 4),
    A.digit (a.toNat % 4 * 16 + b.toNat / 16), A.digit (b.toNat % 16 * 4), A.pad] := by
  simp [Alphabet.encode_pair, Alphabet.word_eq]

theorem Alphabet.encode_one : A.encode [a] =
    [A.digit (a.toNat / 4), A.digit (a.toNat % 4 * 16), A.pad, A.pad] := by
  simp [Alphabet.encode_single, Alphabet.word_eq]

theorem Alphabet.encode_eq_nil : A.encode x = [] ↔ x = [] := by
  rw [← List.length_eq_zero_iff, A.encode_length, ← List.length_eq_zero_iff]
  omega

/-- Four digits stand for three bytes. -/
theorem Alphabet.encode_eq_digits (hu : u < 64) (hv : v < 64) (hw : w < 64) (hz : z < 64) :
    A.encode x = A.digit u :: A.digit v :: A.digit w :: A.digit z :: t ↔
      ∃ y, x = byte0 u v :: byte1 v w :: byte2 w z :: y ∧ A.encode y = t := by
  match x with
  | [] => simp
  | [a] => simp [A.encode_one, A.pad_eq_digit_iff hw]
  | [a, b] => simp [A.encode_two, A.pad_eq_digit_iff hz]
  | a :: b :: c :: x =>
      have ha := a.toNat_lt
      have hb := b.toNat_lt
      have hc := c.toNat_lt
      rw [A.encode_group]
      simp only [List.cons.injEq]
      rw [A.digit_eq_iff (by omega) hu, A.digit_eq_iff (by omega) hv, A.digit_eq_iff (by omega) hw,
        A.digit_eq_iff (by omega) hz]
      constructor
      · intro h
        obtain ⟨h0, h1, h2, h3, hrest⟩ := h
        refine ⟨x, ⟨?_, ?_, ?_, rfl⟩, hrest⟩
        · exact ((byte0_eq_iff a hu hv).mpr (by omega)).symm
        · exact ((byte1_eq_iff b hw).mpr (by omega)).symm
        · exact ((byte2_eq_iff c hz).mpr (by omega)).symm
      · intro h
        obtain ⟨y, ⟨h0, h1, h2, rfl⟩, hrest⟩ := h
        have h0 := (byte0_eq_iff a hu hv).mp h0.symm
        have h1 := (byte1_eq_iff b hw).mp h1.symm
        have h2 := (byte2_eq_iff c hz).mp h2.symm
        exact ⟨by omega, by omega, by omega, by omega, hrest⟩

/-- Two digits and a pad stand for one byte, if another pad is what is left and the
spare bits are zero. -/
theorem Alphabet.encode_eq_two (hu : u < 64) (hv : v < 64) :
    A.encode x = A.digit u :: A.digit v :: A.pad :: t ↔
      x = [byte0 u v] ∧ v % 16 = 0 ∧ t = [A.pad] := by
  match x with
  | [] => simp
  | [a] =>
      have ha := a.toNat_lt
      rw [A.encode_one]
      simp only [List.cons.injEq]
      rw [A.digit_eq_iff (by omega) hu, A.digit_eq_iff (by omega) hv, eq_comm (a := a),
        byte0_eq_iff a hu hv, eq_comm (b := t)]
      constructor
      · intro h
        obtain ⟨h0, h1, -, hrest⟩ := h
        exact ⟨⟨⟨h0, by omega⟩, trivial⟩, by omega, hrest⟩
      · intro h
        obtain ⟨⟨⟨h0, h1⟩, -⟩, h2, hrest⟩ := h
        exact ⟨h0, by omega, trivial, hrest⟩
  | [a, b] =>
      have hb := b.toNat_lt
      simp [A.encode_two, A.digit_ne_pad_iff (u := b.toNat % 16 * 4) (by omega)]
  | a :: b :: c :: x =>
      have hc := c.toNat_lt
      rw [A.encode_group]
      simp [A.digit_ne_pad_iff (u := b.toNat % 16 * 4 + c.toNat / 64) (by omega)]

/-- Three digits and a pad stand for two bytes, if the spare bits are zero. -/
theorem Alphabet.encode_eq_three (hu : u < 64) (hv : v < 64) (hw : w < 64) :
    A.encode x = A.digit u :: A.digit v :: A.digit w :: A.pad :: t ↔
      x = [byte0 u v, byte1 v w] ∧ w % 4 = 0 ∧ t = [] := by
  match x with
  | [] => simp
  | [a] => simp [A.encode_one, A.pad_eq_digit_iff hw]
  | [a, b] =>
      have ha := a.toNat_lt
      have hb := b.toNat_lt
      rw [A.encode_two]
      simp only [List.cons.injEq]
      rw [A.digit_eq_iff (by omega) hu, A.digit_eq_iff (by omega) hv, A.digit_eq_iff (by omega) hw,
        eq_comm (a := a), byte0_eq_iff a hu hv, eq_comm (a := b), byte1_eq_iff b hw,
        eq_comm (b := t)]
      constructor
      · intro h
        obtain ⟨h0, h1, h2, -, hrest⟩ := h
        exact ⟨⟨⟨h0, by omega⟩, ⟨by omega, by omega⟩, trivial⟩, by omega, hrest⟩
      · intro h
        obtain ⟨⟨⟨h0, h1⟩, ⟨h2, h3⟩, -⟩, h4, hrest⟩ := h
        exact ⟨h0, by omega, by omega, trivial, hrest⟩
  | a :: b :: c :: x =>
      rw [A.encode_group]
      simp [A.digit_ne_pad_iff (u := c.toNat % 64) (by omega)]

/-- No encoding has a pad among the first two characters of a group. -/
theorem Alphabet.encode_ne_pad : A.encode x ≠ A.pad :: t := by
  match x with
  | [] => simp
  | [a] =>
      have ha := a.toNat_lt
      simp [A.encode_one, A.digit_ne_pad_iff (u := a.toNat / 4) (by omega)]
  | [a, b] =>
      have ha := a.toNat_lt
      simp [A.encode_two, A.digit_ne_pad_iff (u := a.toNat / 4) (by omega)]
  | a :: b :: c :: x =>
      have ha := a.toNat_lt
      simp [A.encode_group, A.digit_ne_pad_iff (u := a.toNat / 4) (by omega)]

theorem Alphabet.encode_ne_digit_pad : A.encode x ≠ A.digit u :: A.pad :: t := by
  match x with
  | [] => simp
  | [a] =>
      simp [A.encode_one, A.digit_ne_pad_iff (u := a.toNat % 4 * 16) (by omega)]
  | [a, b] =>
      have hb := b.toNat_lt
      simp [A.encode_two, A.digit_ne_pad_iff (u := a.toNat % 4 * 16 + b.toNat / 16) (by omega)]
  | a :: b :: c :: x =>
      have hb := b.toNat_lt
      simp [A.encode_group, A.digit_ne_pad_iff (u := a.toNat % 4 * 16 + b.toNat / 16) (by omega)]

/-! ## How many bytes a text is at least -/

theorem Alphabet.length_of_digit (h : A.encode x = A.digit u :: t) : 0 < x.length := by
  match x with
  | [] => exact absurd h (by simp)
  | _ :: _ => exact Nat.succ_pos _

theorem Alphabet.length_of_spare_two (hv : v < 64) (h : A.encode x = A.digit u :: A.digit v :: t)
    (hspare : v % 16 ≠ 0) : 1 < x.length := by
  match x with
  | [] => exact absurd h (by simp)
  | [a] =>
      rw [A.encode_one] at h
      have hdigit := (A.digit_eq_iff (by omega) hv).mp (List.cons.inj (List.cons.inj h).2).1
      omega
  | _ :: _ :: _ => exact Nat.succ_lt_succ (Nat.succ_pos _)

theorem Alphabet.length_of_three (hw : w < 64)
    (h : A.encode x = A.digit u :: A.digit v :: A.digit w :: t) : 1 < x.length := by
  match x with
  | [] => exact absurd h (by simp)
  | [a] =>
      rw [A.encode_one] at h
      have hpad := (List.cons.inj (List.cons.inj (List.cons.inj h).2).2).1
      exact absurd hpad.symm (A.digit_ne_pad w hw)
  | _ :: _ :: _ => exact Nat.succ_lt_succ (Nat.succ_pos _)

theorem Alphabet.length_of_spare_three (hw : w < 64)
    (h : A.encode x = A.digit u :: A.digit v :: A.digit w :: t) (hspare : w % 4 ≠ 0) :
    2 < x.length := by
  match x with
  | [] => exact absurd h (by simp)
  | [_] => exact absurd (A.length_of_three hw h) (by simp)
  | [a, b] =>
      rw [A.encode_two] at h
      have hdigit := (A.digit_eq_iff (by omega) hw).mp
        (List.cons.inj (List.cons.inj (List.cons.inj h).2).2).1
      omega
  | _ :: _ :: _ :: _ => exact Nat.succ_lt_succ (Nat.succ_lt_succ (Nat.succ_pos _))

end Sextets
