import Libubox.Json.Body

/-!
# Strings written with escapes

`Spelled ps t` says that the text `t` between two quotes writes the pieces `ps`:
plain characters, short escapes, and characters as `\u` escapes, two of them from
U+10000 on.  `parse_string` reads the pieces back as long as no character is in an
even plane other than the first (`parseString_spelled`): it puts the leading bit
in by `|`.
-/

namespace Libubox.Json

/-! ## Pieces -/

/-- The short escapes: the letter and the character. -/
def shortEscapes : List (UInt8 × UInt8) :=
  [(quote, quote), (backslash, backslash), (47, 47), (98, 8), (102, 12), (110, 10), (114, 13), (116, 9)]

/-- What a string is written with. -/
inductive Piece
  | plain (c : UInt8)
  | short (letter c : UInt8)
  | scalar (c : Char)

/-- What a piece stands for. -/
def Piece.bytes : Piece → Text
  | .plain c => [c]
  | .short _ c => [c]
  | .scalar c => String.utf8EncodeChar c

/-- The surrogates of a code point. -/
def highHalf (v : Nat) : Nat := 0xD800 + (v - 0x10000) / 0x400
def lowHalf (v : Nat) : Nat := 0xDC00 + (v - 0x10000) % 0x400

/-- The texts that write a piece. -/
inductive Piece.Written : Piece → Text → Prop
  | plain {c : UInt8} (hc : c ≠ quote ∧ c ≠ backslash ∧ c ≠ 0) : Written (.plain c) [c]
  | short {letter c : UInt8} (h : (letter, c) ∈ shortEscapes) :
      Written (.short letter c) [backslash, letter]
  | single {c : Char} {t : Text} (hzero : c.toNat ≠ 0) (hlt : c.toNat < 0x10000)
      (hex : Hex4 t c.toNat) : Written (.scalar c) (backslash :: letterU :: t)
  | pair {c : Char} {t t' : Text} (hle : 0x10000 ≤ c.toNat) (hex : Hex4 t (highHalf c.toNat))
      (hex' : Hex4 t' (lowHalf c.toNat)) :
      Written (.scalar c) (backslash :: letterU :: (t ++ backslash :: letterU :: t'))

/-- The texts that write a list of pieces. -/
inductive Spelled : List Piece → Text → Prop
  | nil : Spelled [] []
  | cons {p : Piece} {ps : List Piece} {t m : Text} (hp : p.Written t) (tail : Spelled ps m) :
      Spelled (p :: ps) (t ++ m)

/-! ## The planes -/

/-- A character that `parse_string` puts together from its surrogates. -/
def Joinable (c : Char) : Prop := c.toNat < 0x10000 ∨ c.toNat / 0x10000 % 2 = 1

instance (c : Char) : Decidable (Joinable c) := inferInstanceAs (Decidable (_ ∨ _))

theorem joined_halves {v : Nat} (hle : 0x10000 ≤ v) (hlt : v < 0x110000) :
    joined (highHalf v) (lowHalf v) = 0x10000 ||| (v - 0x10000) := by
  have hhigh : highHalf v % 0x400 = (v - 0x10000) / 0x400 := by
    unfold highHalf
    omega
  have hlow : lowHalf v % 0x400 = (v - 0x10000) % 0x400 := by
    unfold lowHalf
    omega
  have hsplit : (v - 0x10000) / 0x400 * 2 ^ 10 ||| (v - 0x10000) % 0x400 = v - 0x10000 := by
    have hor := Nat.two_pow_add_eq_or_of_lt (Nat.mod_lt (v - 0x10000) (show 0 < 2 ^ 10 by decide))
      ((v - 0x10000) / 0x400)
    rw [Nat.mul_comm, ← hor]
    omega
  rw [joined, hhigh, hlow, Nat.shiftLeft_eq, hsplit]

/-- The bit that is put in is lost when it is there already. -/
theorem or_plane {w : Nat} : 0x10000 ||| w = 0x10000 + w ↔ w / 0x10000 % 2 = 0 := by
  have hlow : w % 2 ^ 16 < 2 ^ 16 := Nat.mod_lt w (by decide)
  have hmid : w % 2 ^ 17 < 2 ^ 17 := Nat.mod_lt w (by decide)
  have hor := Nat.two_pow_add_eq_or_of_lt hlow 1
  have hw : 2 ^ 17 * (w / 2 ^ 17) ||| w % 2 ^ 17 = w := by
    rw [← Nat.two_pow_add_eq_or_of_lt hmid]
    omega
  have hsplit : 0x10000 ||| w = 2 ^ 17 * (w / 2 ^ 17) ||| (2 ^ 16 ||| w % 2 ^ 17) := by
    conv_lhs => rw [← hw]
    rw [← Nat.or_assoc, ← Nat.or_assoc, Nat.or_comm 0x10000]
    rfl
  rw [Nat.mul_one] at hor
  rcases (show w / 0x10000 % 2 = 0 ∨ w / 0x10000 % 2 = 1 by omega) with hzero | hone
  · have hmod : w % 2 ^ 17 = w % 2 ^ 16 := by omega
    have hsum : 2 ^ 16 + w % 2 ^ 16 < 2 ^ 17 := by omega
    have hall : 0x10000 ||| w = 0x10000 + w := by
      rw [hsplit, hmod, ← hor, ← Nat.two_pow_add_eq_or_of_lt hsum]
      omega
    exact iff_of_true hall hzero
  · have hmod : w % 2 ^ 17 = 2 ^ 16 + w % 2 ^ 16 := by omega
    have hall : 0x10000 ||| w = w := by
      rw [hsplit, hmod, hor, ← Nat.or_assoc (2 ^ 16), Nat.or_self, ← hor, ← hmod, hw]
    rw [hall]
    exact iff_of_false (by omega) (by omega)

/-- The code point that comes out. -/
theorem joined_eq {c : Char} (hle : 0x10000 ≤ c.toNat) :
    joined (highHalf c.toNat) (lowHalf c.toNat) = c.toNat ↔ Joinable c := by
  have hlt : c.toNat < 0x110000 := by
    rcases c.valid with h | h
    · change c.toNat < 0xD800 at h
      omega
    · exact h.2
  have hplane := @or_plane (c.toNat - 0x10000)
  have hsum : 0x10000 + (c.toNat - 0x10000) = c.toNat := by omega
  rw [hsum] at hplane
  rw [joined_halves hle hlt, hplane, Joinable]
  omega

/-! ## Reading the pieces -/

/-- What `parse_string` makes of a piece. -/
def Piece.read : Piece → Text
  | .plain c => [c]
  | .short _ c => [c]
  | .scalar c =>
      if c.toNat < 0x10000 then String.utf8EncodeChar c
      else String.utf8EncodeChar (Char.ofNat (joined (highHalf c.toNat) (lowHalf c.toNat)))

theorem unescape_short {letter c : UInt8} (h : (letter, c) ∈ shortEscapes) :
    letter ≠ letterU ∧ letter ≠ 0 ∧ unescape letter = c := by
  have htable : shortEscapes.all (fun p =>
      decide (p.1 ≠ letterU ∧ p.1 ≠ 0 ∧ unescape p.1 = p.2)) = true := by decide
  exact of_decide_eq_true (List.all_eq_true.mp htable (letter, c) h)

/-- The text of some pieces is a body. -/
theorem Spelled.body {ps : List Piece} {m : Text} (h : Spelled ps m) :
    Body joined m (ps.flatMap Piece.read) := by
  induction h with
  | nil => exact .nil
  | @cons p ps t m hp _ ih =>
      rw [List.flatMap_cons]
      cases hp with
      | plain hc => exact .plain hc ih
      | short h =>
          obtain ⟨hu, hzero, hc⟩ := unescape_short h
          have hbody := Body.short ⟨hu, hzero⟩ ih
          rw [hc] at hbody
          exact hbody
      | @single c t hzero hlt hex =>
          have hscalar : IsScalar c.toNat := by
            refine ⟨hzero, ?_⟩
            rcases c.valid with h | h
            · exact .inl h
            · exact .inr h.1
          have hbody := Body.unicode hex hscalar ih
          rw [Char.ofNat_toNat] at hbody
          rw [Piece.read, if_pos hlt]
          exact hbody
      | @pair c t t' hle hex hex' =>
          have hhigh : IsHigh (highHalf c.toNat) := by
            have hlt : c.toNat < 0x110000 := by
              rcases c.valid with h | h
              · change c.toNat < 0xD800 at h
                omega
              · exact h.2
            unfold IsHigh highHalf
            omega
          have hlow : IsLow (lowHalf c.toNat) := by
            unfold IsLow lowHalf
            omega
          have hbody := Body.pair hex hhigh hex' hlow ih
          rw [Piece.read, if_neg (by omega)]
          simpa using hbody

theorem utf8EncodeChar_injective {c c' : Char}
    (h : String.utf8EncodeChar c = String.utf8EncodeChar c') : c = c' := by
  have hc := @ByteArray.utf8DecodeChar?_utf8EncodeChar_append ByteArray.empty c
  have hc' := @ByteArray.utf8DecodeChar?_utf8EncodeChar_append ByteArray.empty c'
  rw [h] at hc
  exact Option.some.inj (hc.symm.trans hc')

theorem length_utf8EncodeChar_of_le {c : Char} (h : 0x10000 ≤ c.toNat) :
    (String.utf8EncodeChar c).length = 4 := by
  have hle (k : UInt32) : c.val ≤ k ↔ c.toNat ≤ k.toNat := UInt32.le_iff_toNat_le
  rw [String.length_utf8EncodeChar, Char.utf8Size, if_neg, if_neg, if_neg]
  · rw [hle]
    change ¬c.toNat ≤ 0xFFFF
    omega
  · rw [hle]
    change ¬c.toNat ≤ 0x7FF
    omega
  · rw [hle]
    change ¬c.toNat ≤ 0x7F
    omega

/-- A piece is read back, or it is a character that is put together wrongly, with as
many bytes. -/
theorem Piece.Written.read {p : Piece} {t : Text} (h : p.Written t) :
    p.read.length = p.bytes.length ∧
      (p.read = p.bytes ↔ ∀ c, p = .scalar c → Joinable c) := by
  cases h with
  | plain _ => exact ⟨rfl, iff_of_true rfl (fun c hc => by cases hc)⟩
  | short _ => exact ⟨rfl, iff_of_true rfl (fun c hc => by cases hc)⟩
  | @single c t _ hlt _ =>
      have hread : (Piece.scalar c).read = String.utf8EncodeChar c := by
        rw [Piece.read, if_pos hlt]
      refine ⟨by rw [hread]; rfl, iff_of_true hread ?_⟩
      intro c' hc'
      cases hc'
      exact .inl hlt
  | @pair c t t' hle _ _ =>
      have hread : (Piece.scalar c).read
          = String.utf8EncodeChar (Char.ofNat (joined (highHalf c.toNat) (lowHalf c.toNat))) := by
        rw [Piece.read, if_neg (by omega)]
      have hnat : (Char.ofNat (joined (highHalf c.toNat) (lowHalf c.toNat))).toNat
          = joined (highHalf c.toNat) (lowHalf c.toNat) := by
        rw [Char.ofNat, dif_pos (isValidChar_joined ..)]
        rfl
      have hchar : Char.ofNat (joined (highHalf c.toNat) (lowHalf c.toNat)) = c ↔ Joinable c := by
        rw [← joined_eq hle, ← Char.toNat_inj, hnat]
      refine ⟨?_, ?_⟩
      · rw [hread, Piece.bytes, length_utf8EncodeChar_of_le hle, length_utf8EncodeChar_of_le]
        rw [hnat]
        exact (joined_bounds _ _).1
      · rw [hread, Piece.bytes]
        constructor
        · intro h c' hc'
          cases hc'
          exact hchar.mp (utf8EncodeChar_injective h)
        · intro h
          rw [hchar.mpr (h c rfl)]

/-- The pieces are read back exactly when every character is put together. -/
theorem Spelled.read {ps : List Piece} {m : Text} (h : Spelled ps m) :
    ps.flatMap Piece.read = ps.flatMap Piece.bytes ↔ ∀ c, .scalar c ∈ ps → Joinable c := by
  induction h with
  | nil => simp
  | @cons p ps t m hp _ ih =>
      obtain ⟨hlength, hpiece⟩ := hp.read
      rw [List.flatMap_cons, List.flatMap_cons]
      constructor
      · intro heq c hc
        obtain ⟨hhead, htail⟩ := List.append_inj heq hlength
        rcases List.mem_cons.mp hc with hc | hc
        · exact hpiece.mp hhead c hc.symm
        · exact ih.mp htail c hc
      · intro hall
        rw [hpiece.mpr fun c hc => hall c (hc ▸ List.mem_cons_self),
          ih.mpr fun c hc => hall c (List.mem_cons_of_mem p hc)]

/-- `"\ud83d\ude00"`, a character of plane 1. -/
theorem spelled_plane_one : Spelled [.scalar (Char.ofNat 0x1F600)]
    [92, 117, 100, 56, 51, 100, 92, 117, 100, 101, 48, 48] :=
  .cons (t := [92, 117, 100, 56, 51, 100, 92, 117, 100, 101, 48, 48]) (m := [])
    (@Piece.Written.pair _ [100, 56, 51, 100] [100, 101, 48, 48] (by decide)
      ⟨_, _, _, _, 13, 8, 3, 13, rfl, rfl, rfl, rfl, rfl, by decide⟩
      ⟨_, _, _, _, 13, 14, 0, 0, rfl, rfl, rfl, rfl, rfl, by decide⟩) .nil

end Libubox.Json
