import Libubox.B64.Encode

/-!
# Decoding

A text is taken for what it is the encoding of, once the whitespace is left out, and
all others are rejected, as long as the index of the target stays in an `int`
(`decodes_iff`).

The loop holds the bytes that are done, the sextets of the group it is in (`Holds`)
and, behind the bytes, the bits of a byte that is not full.  A step either keeps this or
fails, and then no text with these sextets is the encoding of bytes that the target has
room for.
-/

namespace Libubox.B64

open Sextets

variable {targsize : Nat} {out target : List UInt8} {d : Decoder} {u v w z : Nat}

/-! ## What a decoder holds -/

/-- Some bytes are written, and behind them, unless the target ends there, a byte that
has not got its low bits. -/
def Begun (written : List UInt8) (byte : Nat) (target : List UInt8) : Prop :=
  written ++ [UInt8.ofNat byte] <+: target ∨ byte = 0 ∧ written = target

/-- The decoder after some bytes and some sextets of the next group. -/
def Holds (targsize : Nat) (out : List UInt8) (sextets : List Nat) (d : Decoder) : Prop :=
  ∃ target, d.target = some target ∧ target.length = targsize ∧
    (d.state : Nat) = sextets.length ∧
    match sextets with
    | [] => d.tarindex = out.length ∧ out <+: target
    | [u] => d.tarindex = out.length ∧ Begun out (u * 4) target
    | [u, v] => d.tarindex = out.length + 1 ∧ Begun (out ++ [byte0 u v]) (v % 16 * 16) target
    | [u, v, w] => d.tarindex = out.length + 2 ∧
        Begun (out ++ [byte0 u v, byte1 v w]) (w % 4 * 64) target
    | _ => False

theorem Begun.begins {written : List UInt8} {byte : Nat} (h : Begun written byte target) :
    written <+: target := by
  rcases h with h | ⟨-, rfl⟩
  · exact (List.prefix_append _ _).trans h
  · exact List.prefix_refl _

/-- The low bits of a byte that is begun. -/
theorem orStore_begun {written : List UInt8} {byte : Nat} (low : Nat) (h : Begun written byte target)
    (hroom : written.length < target.length) (hbyte : byte < 256) :
    ∃ target', orStore target written.length low = some target' ∧
      written ++ [UInt8.ofNat (byte ||| low)] <+: target' ∧ target'.length = target.length := by
  rcases h with h | ⟨-, rfl⟩
  · have hget : target[written.length]? = some (UInt8.ofNat byte) := by
      obtain ⟨rest, rfl⟩ := h
      rw [List.append_assoc, List.getElem?_append_right (Nat.le_refl _), Nat.sub_self]
      rfl
    have hpre : written <+: target := (List.prefix_append _ _).trans h
    obtain ⟨t, hstore, ht, hlen⟩ :=
      store_prefix hpre hroom (UInt8.ofNat ((UInt8.ofNat byte).toNat ||| low))
    refine ⟨t, ?_, ?_, hlen⟩
    · rw [orStore, hget, Option.bind_some, hstore]
    · rwa [UInt8.toNat_ofNat', Nat.mod_eq_of_lt hbyte] at ht
  · exact absurd hroom (Nat.lt_irrefl _)

/-- The second and the third sextet of a group. -/
theorem b64DecodeSplit_spec {written : List UInt8} {byte : Nat} (high nextbyte : Nat)
    (state : Fin 4)
    (htarget : d.target = some target) (hsize : target.length = targsize)
    (hindex : d.tarindex = written.length) (h : Begun written byte target) (hbyte : byte < 256)
    (hfits : written.length < targsize → written.length + 1 < 2 ^ 31) :
    (∃ target', b64DecodeSplit targsize high nextbyte state d = some (.error (some target')) ∧
        target'.length = targsize ∧
        (targsize ≤ written.length ∨ nextbyte ≠ 0 ∧ targsize ≤ written.length + 1)) ∨
      ∃ target', b64DecodeSplit targsize high nextbyte state d =
          some (.ok ⟨state, written.length + 1, some target'⟩) ∧ target'.length = targsize ∧
        Begun (written ++ [UInt8.ofNat (byte ||| high)]) nextbyte target' := by
  unfold b64DecodeSplit
  rw [htarget, hindex]
  by_cases hroom : targsize ≤ written.length
  · exact .inl ⟨target, by simp only [if_pos hroom], hsize, .inl hroom⟩
  obtain ⟨t₁, hor, ht₁, hlen₁⟩ := orStore_begun high h (by omega) hbyte
  have hsucc : intSucc written.length = some (written.length + 1) := if_pos (hfits (by omega))
  have hlen : (written ++ [UInt8.ofNat (byte ||| high)]).length = written.length + 1 := by
    rw [List.length_append, List.length_singleton]
  simp only [if_neg hroom, hor, hsucc, Option.bind_some]
  by_cases hmore : written.length + 1 < targsize
  · obtain ⟨t₂, hstore, ht₂, hlen₂⟩ := store_prefix ht₁ (by omega) (UInt8.ofNat nextbyte)
    rw [hlen] at hstore
    exact .inr ⟨t₂, by simp only [if_pos hmore, hstore, Option.map_some], by omega, .inl ht₂⟩
  · by_cases hzero : nextbyte = 0
    · refine .inr ⟨t₁, by simp only [if_neg hmore, hzero, ne_eq, not_true, if_false], by omega,
        .inr ⟨hzero, ?_⟩⟩
      exact ht₁.eq_of_length (by omega)
    · exact .inl ⟨t₁, by simp only [if_neg hmore, ne_eq, hzero, not_false_eq_true, if_true],
        by omega, .inr ⟨hzero, by omega⟩⟩

/-! ## The sextets of a group -/

/-- The index stays in an `int` over the given number of sextets of a group. -/
def Fits (targsize : Nat) (out : List UInt8) (k : Nat) : Prop :=
  targsize < 2 ^ 31 ∨ out.length + 3 * k / 4 < 2 ^ 31

theorem or_eq_add {high low k : Nat} (h : low < 2 ^ k) :
    high * 2 ^ k ||| low = high * 2 ^ k + low := by
  rw [Nat.mul_comm, Nat.two_pow_add_eq_or_of_lt h]

theorem b64DecodeSextet_first (h : Holds targsize out [] d) (u : Nat) :
    (∃ t, b64DecodeSextet targsize u d = some (.error (some t)) ∧ t.length = targsize ∧
        targsize ≤ out.length) ∨
      ∃ d', b64DecodeSextet targsize u d = some (.ok d') ∧ Holds targsize out [u] d' := by
  obtain ⟨target, htarget, hsize, hstate, hindex, hpre⟩ := h
  have hstate : d.state = 0 := Fin.ext hstate
  rw [b64DecodeSextet, hstate]
  simp only [htarget, hindex]
  by_cases hroom : targsize ≤ out.length
  · exact .inl ⟨target, if_pos hroom, hsize, hroom⟩
  · obtain ⟨t, hstore, ht, hlen⟩ := store_prefix hpre (by omega) (UInt8.ofNat (u <<< 2))
    refine .inr ⟨⟨1, out.length, some t⟩, ?_, t, rfl, by omega, rfl, rfl, .inl ?_⟩
    · rw [if_neg hroom, hstore]
      rfl
    · rwa [Nat.shiftLeft_eq] at ht

theorem b64DecodeSextet_second (h : Holds targsize out [u] d) (hu : u < 64) (hv : v < 64)
    (hfits : Fits targsize out 2) :
    (∃ t, b64DecodeSextet targsize v d = some (.error (some t)) ∧ t.length = targsize ∧
        (targsize ≤ out.length ∨ v % 16 ≠ 0 ∧ targsize ≤ out.length + 1)) ∨
      ∃ d', b64DecodeSextet targsize v d = some (.ok d') ∧ Holds targsize out [u, v] d' := by
  obtain ⟨target, htarget, hsize, hstate, hindex, hbegun⟩ := h
  have hand : v &&& 0x0f = v % 16 := Nat.and_two_pow_sub_one_eq_mod v 4
  have hlow : (v &&& 0x0f) <<< 4 = v % 16 * 16 := by rw [hand, Nat.shiftLeft_eq]
  have hhigh : u * 4 ||| v >>> 4 = u * 4 + v / 16 := by
    rw [Nat.shiftRight_eq_div_pow]
    exact or_eq_add (k := 2) (by omega)
  have hint : out.length < targsize → out.length + 1 < 2 ^ 31 := by
    intro hroom
    rcases hfits with hfits | hfits
    · omega
    · omega
  have hstate : d.state = 1 := Fin.ext hstate
  rw [b64DecodeSextet, hstate]
  rcases b64DecodeSplit_spec (v >>> 4) ((v &&& 0x0f) <<< 4) 2
      htarget hsize hindex hbegun (by omega) hint with
    ⟨t, hres, ht, hwhy⟩ | ⟨t, hres, ht, hnext⟩
  · refine .inl ⟨t, hres, ht, hwhy.imp_right fun hspare => ⟨?_, hspare.2⟩⟩
    intro hzero
    exact hspare.1 (by rw [hlow, hzero])
  · rw [hhigh, hlow] at hnext
    exact .inr ⟨_, hres, t, rfl, ht, rfl, rfl, hnext⟩

theorem b64DecodeSextet_third (h : Holds targsize out [u, v] d) (hw : w < 64)
    (hfits : Fits targsize out 3) :
    (∃ t, b64DecodeSextet targsize w d = some (.error (some t)) ∧ t.length = targsize ∧
        (targsize ≤ out.length + 1 ∨ w % 4 ≠ 0 ∧ targsize ≤ out.length + 2)) ∨
      ∃ d', b64DecodeSextet targsize w d = some (.ok d') ∧ Holds targsize out [u, v, w] d' := by
  obtain ⟨target, htarget, hsize, hstate, hindex, hbegun⟩ := h
  have hlen : (out ++ [byte0 u v]).length = out.length + 1 := by
    rw [List.length_append, List.length_singleton]
  have hand : w &&& 0x03 = w % 4 := Nat.and_two_pow_sub_one_eq_mod w 2
  have hlow : (w &&& 0x03) <<< 6 = w % 4 * 64 := by rw [hand, Nat.shiftLeft_eq]
  have hhigh : v % 16 * 16 ||| w >>> 2 = v % 16 * 16 + w / 4 := by
    rw [Nat.shiftRight_eq_div_pow]
    exact or_eq_add (k := 4) (by omega)
  have hint : (out ++ [byte0 u v]).length < targsize →
      (out ++ [byte0 u v]).length + 1 < 2 ^ 31 := by
    intro hroom
    rcases hfits with hfits | hfits
    · omega
    · omega
  have hstate : d.state = 2 := Fin.ext hstate
  rw [b64DecodeSextet, hstate]
  rcases b64DecodeSplit_spec (w >>> 2) ((w &&& 0x03) <<< 6) 3
      htarget hsize (hindex.trans hlen.symm) hbegun (by omega) hint with
    ⟨t, hres, ht, hwhy⟩ | ⟨t, hres, ht, hnext⟩
  · rw [hlen] at hwhy
    refine .inl ⟨t, hres, ht, hwhy.imp_right fun hspare => ⟨?_, hspare.2⟩⟩
    intro hzero
    exact hspare.1 (by rw [hlow, hzero])
  · rw [hhigh, hlow, List.append_assoc] at hnext
    exact .inr ⟨_, hres, t, rfl, ht, rfl, by rw [hlen], hnext⟩

theorem b64DecodeSextet_fourth (h : Holds targsize out [u, v, w] d) (hz : z < 64)
    (hfits : Fits targsize out 4) :
    (∃ t, b64DecodeSextet targsize z d = some (.error (some t)) ∧ t.length = targsize ∧
        targsize ≤ out.length + 2) ∨
      ∃ d', b64DecodeSextet targsize z d = some (.ok d') ∧
        Holds targsize (out ++ [byte0 u v, byte1 v w, byte2 w z]) [] d' := by
  obtain ⟨target, htarget, hsize, hstate, hindex, hbegun⟩ := h
  have hlen : (out ++ [byte0 u v, byte1 v w]).length = out.length + 2 := List.length_append
  have hlow : w % 4 * 64 ||| z = w % 4 * 64 + z := or_eq_add (k := 6) hz
  have hstate : d.state = 3 := Fin.ext hstate
  rw [b64DecodeSextet, hstate]
  simp only [htarget]
  by_cases hroom : targsize ≤ d.tarindex
  · exact .inl ⟨target, if_pos hroom, hsize, by omega⟩
  · have hsucc : intSucc d.tarindex = some (d.tarindex + 1) := by
      refine if_pos ?_
      rcases hfits with hfits | hfits
      · omega
      · omega
    obtain ⟨t, hor, ht, hlen'⟩ := orStore_begun z hbegun (by omega) (by omega)
    rw [hlen, ← hindex] at hor
    rw [hlow, List.append_assoc] at ht
    refine .inr ⟨⟨0, d.tarindex + 1, some t⟩, ?_, t, rfl, by omega, rfl, ?_, ht⟩
    · rw [if_neg hroom, hor, hsucc]
      rfl
    · rw [List.length_append, hindex]
      rfl

/-! ## Behind the sextets -/

/-- A text without its whitespace. -/
def strip (src : List UInt8) : List UInt8 := src.filter fun c => !isSpace c

theorem strip_space {c : UInt8} {src : List UInt8} (h : isSpace c = true) :
    strip (c :: src) = strip src := by
  rw [strip, List.filter_cons, if_neg (by simp [h]), strip]

theorem strip_cons {c : UInt8} {src : List UInt8} (h : ¬isSpace c = true) :
    strip (c :: src) = c :: strip src := by
  rw [strip, List.filter_cons, if_pos (by simp [h]), strip]

/-- What the loops over whitespace come to. -/
theorem dropWhile_isSpace (src : List UInt8) :
    src.dropWhile isSpace = [] ∧ strip src = [] ∨
      ∃ ch rest, src.dropWhile isSpace = ch :: rest ∧ strip src = ch :: strip rest := by
  induction src with
  | nil => exact .inl ⟨rfl, rfl⟩
  | cons ch src ih =>
      by_cases hspace : isSpace ch = true
      · rwa [List.dropWhile_cons_of_pos hspace, strip_space hspace]
      · exact .inr ⟨ch, src, List.dropWhile_cons_of_neg hspace, strip_cons hspace⟩

theorem b64DecodeEnd_spec {written : List UInt8} (htarget : d.target = some target)
    (hindex : d.tarindex = written.length) (hpre : written <+: target) :
    ∃ t, b64DecodeEnd target.length d = some ((written.length : Int), some t) ∧
      t.length = target.length ∧ written <+: t := by
  rw [b64DecodeEnd, htarget, hindex, Option.bind_some]
  by_cases hroom : written.length < target.length
  · obtain ⟨t, hstore, ht, hlen⟩ := store_prefix hpre hroom 0
    refine ⟨t, ?_, hlen, (List.prefix_append _ _).trans ht⟩
    rw [if_pos hroom, hstore, Option.map_some]
  · exact ⟨target, if_neg hroom, rfl, hpre⟩

/-- Only whitespace may follow, and the bits of the last byte must be zero. -/
theorem b64DecodeLastPad_spec {written : List UInt8} {byte : Nat} (src : List UInt8)
    (htarget : d.target = some target) (hindex : d.tarindex = written.length)
    (h : Begun written byte target) (hbyte : byte < 256) :
    (strip src ≠ [] ∨ byte ≠ 0) ∧ b64DecodeLastPad target.length src d = some (-1, some target) ∨
      strip src = [] ∧ byte = 0 ∧ ∃ t, b64DecodeLastPad target.length src d =
        some ((written.length : Int), some t) ∧ t.length = target.length ∧ written <+: t := by
  have hpre := h.begins
  rw [b64DecodeLastPad]
  rcases dropWhile_isSpace src with ⟨hdrop, hstrip⟩ | ⟨ch, rest, hdrop, hstrip⟩
  · rw [hdrop, if_neg (by simp)]
    simp only [htarget, hindex]
    rcases h with h | ⟨hzero, rfl⟩
    · have hget : target[written.length]? = some (UInt8.ofNat byte) := by
        obtain ⟨rest, rfl⟩ := h
        rw [List.append_assoc, List.getElem?_append_right (Nat.le_refl _), Nat.sub_self]
        rfl
      have hroom : written.length < target.length := by
        have := h.length_le
        rw [List.length_append, List.length_singleton] at this
        omega
      simp only [if_pos hroom, hget, Option.bind_some]
      by_cases hzero : byte = 0
      · obtain ⟨t, hend, ht⟩ := b64DecodeEnd_spec htarget hindex hpre
        refine .inr ⟨hstrip, hzero, t, ?_, ht⟩
        rw [hzero, if_neg (by simp), hend]
      · refine .inl ⟨.inr hzero, if_pos ?_⟩
        intro hbits
        have hnat := congrArg UInt8.toNat hbits
        rw [UInt8.toNat_ofNat', Nat.mod_eq_of_lt hbyte] at hnat
        exact hzero hnat
    · obtain ⟨t, hend, ht⟩ := b64DecodeEnd_spec htarget hindex hpre
      exact .inr ⟨hstrip, hzero, t, by rw [if_neg (Nat.lt_irrefl _), hend], ht⟩
  · refine .inl ⟨.inl (by rw [hstrip]; simp), ?_⟩
    rw [hdrop, if_pos (by simp), htarget]

/-! ## Texts -/

/-- A result is right, of a decoder that has written `out` and has this text left: it is
what the text is the encoding of, or there is no such bytes that fit and it is -1. -/
def Answers (targsize : Nat) (out text : List UInt8)
    (result : Option (Int × Option (List UInt8))) : Prop :=
  ∃ r target, result = some (r, some target) ∧ target.length = targsize ∧
    (r = -1 ∨ ∃ x : List UInt8, r = x.length ∧ x <+: target) ∧
    ∀ x : List UInt8, (r = x.length ∧ x <+: target) ↔
      (∃ y, x = out ++ y ∧ alphabet.encode y = text) ∧ x.length ≤ targsize

variable {text : List UInt8}

theorem answers_rejected (hsize : target.length = targsize)
    (h : ∀ y, alphabet.encode y = text → targsize < out.length + y.length) :
    Answers targsize out text (some (-1, some target)) := by
  refine ⟨-1, target, rfl, hsize, .inl rfl, fun x => ⟨fun hx => ?_, fun hx => ?_⟩⟩
  · omega
  · obtain ⟨⟨y, rfl, hy⟩, hlen⟩ := hx
    have := h y hy
    rw [List.length_append] at hlen
    omega

theorem answers_accepted {last : List UInt8} (hsize : target.length = targsize)
    (hpre : out ++ last <+: target) (h : ∀ y, alphabet.encode y = text ↔ y = last) :
    Answers targsize out text (some ((out ++ last).length, some target)) := by
  refine ⟨_, target, rfl, hsize, .inr ⟨out ++ last, rfl, hpre⟩, fun x => ⟨fun hx => ?_, fun hx => ?_⟩⟩
  · obtain ⟨hlen, hx⟩ := hx
    have hlen : (out ++ last).length = x.length := by omega
    have heq : x = out ++ last := (List.prefix_of_prefix_length_le hx hpre hlen.ge).eq_of_length
      hlen.symm
    exact ⟨⟨last, heq, (h last).mpr rfl⟩, hsize ▸ hx.length_le⟩
  · obtain ⟨⟨y, rfl, hy⟩, -⟩ := hx
    rw [(h y).mp hy]
    exact ⟨rfl, hpre⟩

/-- A whole group is done. -/
theorem answers_group {res : Option (Int × Option (List UInt8))} (hu : u < 64) (hv : v < 64)
    (hw : w < 64) (hz : z < 64)
    (h : Answers targsize (out ++ [byte0 u v, byte1 v w, byte2 w z]) text res) :
    Answers targsize out ([u, v, w, z].map alphabet.digit ++ text) res := by
  obtain ⟨r, t, hres, hlen, hsome, hall⟩ := h
  refine ⟨r, t, hres, hlen, hsome, fun x => (hall x).trans (and_congr_left fun _ => ?_)⟩
  have hgroup : ∀ y, alphabet.encode y = [u, v, w, z].map alphabet.digit ++ text ↔
      ∃ y', y = byte0 u v :: byte1 v w :: byte2 w z :: y' ∧ alphabet.encode y' = text :=
    fun y => Alphabet.encode_eq_digits hu hv hw hz
  constructor
  · intro hx
    obtain ⟨y, rfl, hy⟩ := hx
    exact ⟨byte0 u v :: byte1 v w :: byte2 w z :: y, by simp, (hgroup _).mpr ⟨y, rfl, hy⟩⟩
  · intro hx
    obtain ⟨y, rfl, hy⟩ := hx
    obtain ⟨y', rfl, hy'⟩ := (hgroup y).mp hy
    exact ⟨y', by simp, hy'⟩

/-- The sextets that a text begins with. -/
def leading (text : List UInt8) : Nat := (text.takeWhile (· ∈ Base64)).length

theorem idxOf?_some {ch : UInt8} {n : Nat} (h : Base64.idxOf? ch = some n) :
    n < 64 ∧ ch = alphabet.digit n ∧ ch ∈ Base64 := by
  obtain ⟨hn, hget, -⟩ := List.idxOf?_eq_some_iff.mp h
  have hget : Base64[n] = ch := by simpa using hget
  have hdigit : alphabet.digit n = Base64[n] := by
    simp only [alphabet, List.getD_eq_getElem?_getD, List.getElem?_eq_getElem hn, Option.getD_some]
  exact ⟨length_base64 ▸ hn, by rw [hdigit, hget], hget ▸ List.getElem_mem hn⟩

theorem idxOf?_none {ch : UInt8} (h : Base64.idxOf? ch = none) (n : Nat) (hn : n < 64) :
    ch ≠ alphabet.digit n := by
  have hmem : ch ∉ Base64 := by simpa using h
  have hn : n < Base64.length := length_base64.symm ▸ hn
  intro hch
  apply hmem
  rw [hch]
  simp only [alphabet, List.getD_eq_getElem?_getD, List.getElem?_eq_getElem hn, Option.getD_some]
  exact List.getElem_mem hn

theorem pad_ne_digit {n : Nat} (hn : n < 64) : Pad64 ≠ alphabet.digit n :=
  (alphabet.digit_ne_pad n hn).symm

variable {src : List UInt8} {sextets : List Nat}

/-- Behind the first pad. -/
theorem b64DecodePad_spec (src : List UInt8) (h : Holds targsize out sextets d)
    (hs : ∀ i ∈ sextets, i < 64) :
    Answers targsize out (sextets.map alphabet.digit ++ Pad64 :: strip src)
      (b64DecodePad targsize src d) := by
  obtain ⟨target, htarget, hsize, hstate, h⟩ := h
  match sextets with
  | [] =>
      have hstate : d.state = 0 := Fin.ext hstate
      rw [b64DecodePad, hstate, htarget]
      exact answers_rejected hsize fun y hy => absurd hy Alphabet.encode_ne_pad
  | [u] =>
      have hstate : d.state = 1 := Fin.ext hstate
      rw [b64DecodePad, hstate, htarget]
      exact answers_rejected hsize fun y hy => absurd hy Alphabet.encode_ne_digit_pad
  | [u, v] =>
      obtain ⟨hindex, hbegun⟩ := h
      have hstate : d.state = 2 := Fin.ext hstate
      have hu : u < 64 := hs u (by simp)
      have hv : v < 64 := hs v (by simp)
      have htwo : ∀ y t, alphabet.encode y = [u, v].map alphabet.digit ++ Pad64 :: t ↔
          y = [byte0 u v] ∧ v % 16 = 0 ∧ t = [Pad64] :=
        fun y t => Alphabet.encode_eq_two hu hv
      rw [b64DecodePad, hstate]
      rcases dropWhile_isSpace src with ⟨hdrop, hstrip⟩ | ⟨ch, rest, hdrop, hstrip⟩
      · simp only [hdrop, hstrip, htarget]
        exact answers_rejected hsize fun y hy => nomatch ((htwo y []).mp hy).2.2
      · simp only [hdrop, hstrip]
        by_cases hch : ch = Pad64
        · rw [if_neg (not_not.mpr hch), hch]
          subst hsize
          rcases b64DecodeLastPad_spec rest htarget (by rw [hindex, List.length_append]; rfl)
              hbegun (by omega) with ⟨hwhy, hres⟩ | ⟨hrest, hzero, t, hres, hlen, hpre⟩
          · rw [hres]
            refine answers_rejected rfl fun y hy => ?_
            obtain ⟨-, hzero, hrest⟩ := (htwo y _).mp hy
            rcases hwhy with hwhy | hwhy
            · exact absurd (List.cons.inj hrest).2 hwhy
            · exact absurd (by rw [hzero]) hwhy
          · rw [hres]
            refine answers_accepted hlen hpre fun y => (htwo y _).trans ?_
            rw [hrest]
            exact ⟨fun hy => hy.1, fun hy => ⟨hy, by omega, rfl⟩⟩
        · rw [if_pos hch, htarget]
          refine answers_rejected hsize fun y hy => ?_
          exact absurd (List.cons.inj ((htwo y _).mp hy).2.2).1 hch
  | [u, v, w] =>
      obtain ⟨hindex, hbegun⟩ := h
      have hstate : d.state = 3 := Fin.ext hstate
      have hu : u < 64 := hs u (by simp)
      have hv : v < 64 := hs v (by simp)
      have hw : w < 64 := hs w (by simp)
      have hthree : ∀ y t, alphabet.encode y = [u, v, w].map alphabet.digit ++ Pad64 :: t ↔
          y = [byte0 u v, byte1 v w] ∧ w % 4 = 0 ∧ t = [] :=
        fun y t => Alphabet.encode_eq_three hu hv hw
      rw [b64DecodePad, hstate]
      subst hsize
      rcases b64DecodeLastPad_spec src htarget (by rw [hindex, List.length_append]; rfl)
          hbegun (by omega) with ⟨hwhy, hres⟩ | ⟨hrest, hzero, t, hres, hlen, hpre⟩
      · simp only [hres]
        refine answers_rejected rfl fun y hy => ?_
        obtain ⟨-, hzero, hrest⟩ := (hthree y _).mp hy
        rcases hwhy with hwhy | hwhy
        · exact absurd hrest hwhy
        · exact absurd (by rw [hzero]) hwhy
      · simp only [hres]
        refine answers_accepted hlen hpre fun y => (hthree y _).trans ?_
        exact ⟨fun hy => hy.1, fun hy => ⟨hy, by omega, hrest⟩⟩

theorem leading_cons {ch : UInt8} (h : ch ∈ Base64) (text : List UInt8) :
    leading (ch :: text) = leading text + 1 := by
  rw [leading, List.takeWhile_cons_of_pos (by simpa using h), List.length_cons, leading]

theorem Fits.mono {k l : Nat} (h : Fits targsize out l) (hk : k ≤ l) : Fits targsize out k := by
  rcases h with h | h
  · exact .inl h
  · exact .inr (by omega)

theorem Holds.state_eq (h : Holds targsize out sextets d) : (d.state : Nat) = sextets.length := by
  obtain ⟨target, -, -, hstate, -⟩ := h
  exact hstate

/-- The end of the text. -/
theorem b64DecodeLoop_nil (h : Holds targsize out sextets d) :
    Answers targsize out (sextets.map alphabet.digit) (b64DecodeLoop targsize [] d) := by
  have hlength := h.state_eq
  rw [b64DecodeLoop]
  by_cases hstate : d.state = 0
  · rw [hstate] at hlength
    obtain rfl : sextets = [] := List.length_eq_zero_iff.mp hlength.symm
    obtain ⟨target, htarget, rfl, -, hindex, hpre⟩ := h
    obtain ⟨t, hend, hlen, ht⟩ := b64DecodeEnd_spec htarget hindex hpre
    have ht : out ++ [] <+: t := by rwa [List.append_nil]
    have hans : Answers target.length out [] (some (((out ++ []).length : Int), some t)) :=
      answers_accepted hlen ht fun y => Alphabet.encode_eq_nil
    rw [List.append_nil] at hans
    rwa [if_neg (not_not.mpr hstate), hend]
  · obtain ⟨target, htarget, hsize, -⟩ := h
    rw [if_pos hstate, htarget]
    refine answers_rejected hsize fun y hy => ?_
    -- no encoding has part of a group
    have hgroups := congrArg List.length hy
    rw [alphabet.encode_length, List.length_map] at hgroups
    have hlt := d.state.isLt
    have hpos : (d.state : Nat) ≠ 0 := fun hzero => hstate (Fin.ext hzero)
    omega

/-- **The loop**, from any point of a group. -/
theorem b64DecodeLoop_spec (src : List UInt8) (h : Holds targsize out sextets d)
    (hs : ∀ i ∈ sextets, i < 64)
    (hfits : Fits targsize out (sextets.length + leading (strip src))) :
    Answers targsize out (sextets.map alphabet.digit ++ strip src)
      (b64DecodeLoop targsize src d) := by
  induction src generalizing out sextets d with
  | nil =>
      rw [strip, List.filter_nil, List.append_nil]
      exact b64DecodeLoop_nil h
  | cons ch src ih =>
      rw [b64DecodeLoop]
      by_cases hspace : isSpace ch = true
      · rw [if_pos hspace]
        rw [strip_space hspace] at hfits ⊢
        exact ih h hs hfits
      rw [if_neg hspace]
      rw [strip_cons hspace] at hfits ⊢
      by_cases hpad : ch = Pad64
      · rw [if_pos hpad, hpad]
        exact b64DecodePad_spec src h hs
      rw [if_neg hpad]
      cases hidx : Base64.idxOf? ch with
      | none =>
          obtain ⟨target, htarget, hsize, -⟩ := h
          simp only [htarget]
          refine answers_rejected hsize fun y hy => ?_
          have hmem : ch ∈ alphabet.encode y := by
            rw [hy]
            exact List.mem_append_right _ List.mem_cons_self
          rcases alphabet.mem_encode hmem with hch | ⟨n, hn, hch⟩
          · exact absurd hch hpad
          · exact absurd hch (idxOf?_none hidx n hn)
      | some n =>
          obtain ⟨hn, hch, hmem⟩ := idxOf?_some hidx
          rw [leading_cons hmem] at hfits
          rw [hch]
          match sextets with
          | [] =>
              rcases b64DecodeSextet_first h n with ⟨t, hres, hlen, hwhy⟩ | ⟨d', hres, h'⟩
              · simp only [hres, Option.bind_some]
                refine answers_rejected hlen fun y hy => ?_
                have := alphabet.length_of_digit hy
                omega
              · simp only [hres, Option.bind_some]
                refine ih h' (fun i hi => ?_) (hfits.mono (by simp; omega))
                rwa [List.mem_singleton.mp hi]
          | [u] =>
              have hu : u < 64 := hs u (by simp)
              have hfits₂ : Fits targsize out 2 := hfits.mono (by simp; omega)
              rcases b64DecodeSextet_second h hu hn hfits₂ with
                ⟨t, hres, hlen, hwhy⟩ | ⟨d', hres, h'⟩
              · simp only [hres, Option.bind_some]
                refine answers_rejected hlen fun y hy => ?_
                rcases hwhy with hwhy | ⟨hspare, hwhy⟩
                · have := alphabet.length_of_digit hy
                  omega
                · have := alphabet.length_of_spare_two hn hy hspare
                  omega
              · simp only [hres, Option.bind_some]
                refine ih h' (fun i hi => ?_) (hfits.mono (by simp; omega))
                simp only [List.mem_cons, List.not_mem_nil, or_false] at hi
                rcases hi with rfl | rfl
                · exact hu
                · exact hn
          | [u, v] =>
              have hu : u < 64 := hs u (by simp)
              have hv : v < 64 := hs v (by simp)
              have hfits₃ : Fits targsize out 3 := hfits.mono (by simp; omega)
              rcases b64DecodeSextet_third h hn hfits₃ with
                ⟨t, hres, hlen, hwhy⟩ | ⟨d', hres, h'⟩
              · simp only [hres, Option.bind_some]
                refine answers_rejected hlen fun y hy => ?_
                rcases hwhy with hwhy | ⟨hspare, hwhy⟩
                · have := alphabet.length_of_three hn hy
                  omega
                · have := alphabet.length_of_spare_three hn hy hspare
                  omega
              · simp only [hres, Option.bind_some]
                refine ih h' (fun i hi => ?_) (hfits.mono (by simp; omega))
                simp only [List.mem_cons, List.not_mem_nil, or_false] at hi
                rcases hi with rfl | rfl | rfl
                · exact hu
                · exact hv
                · exact hn
          | [u, v, w] =>
              have hu : u < 64 := hs u (by simp)
              have hv : v < 64 := hs v (by simp)
              have hw : w < 64 := hs w (by simp)
              have hfits₄ : Fits targsize out 4 := hfits.mono (by simp; omega)
              rcases b64DecodeSextet_fourth h hn hfits₄ with
                ⟨t, hres, hlen, hwhy⟩ | ⟨d', hres, h'⟩
              · simp only [hres, Option.bind_some]
                refine answers_rejected hlen fun y hy => ?_
                obtain ⟨y', rfl, -⟩ := (Alphabet.encode_eq_digits hu hv hw hn).mp hy
                simp only [List.length_cons]
                omega
              · simp only [hres, Option.bind_some]
                refine answers_group hu hv hw hn (ih h' (fun i hi => nomatch hi) ?_)
                rcases hfits with hfits | hfits
                · exact .inl hfits
                · refine .inr ?_
                  simp only [List.length_append, List.length_cons, List.length_nil] at hfits ⊢
                  omega

/-! ## The index beyond an `int` -/

theorem store_inside {i : Nat} (h : i < target.length) (c : UInt8) :
    ∃ t, store target i c = some t ∧ t.length = target.length :=
  ⟨target.set i c, if_pos h, List.length_set⟩

theorem orStore_inside {i : Nat} (h : i < target.length) (n : Nat) :
    ∃ t, orStore target i n = some t ∧ t.length = target.length := by
  obtain ⟨t, hstore, hlen⟩ := store_inside h (UInt8.ofNat (target[i].toNat ||| n))
  exact ⟨t, by rw [orStore, List.getElem?_eq_getElem h, Option.bind_some, hstore], hlen⟩

/-- A decoder after `k` sextets whose index is an `int`. -/
structure Counts (k : Nat) (size : Nat) (d : Decoder) : Prop where
  target : ∃ target, d.target = some target ∧ target.length = size
  state : (d.state : Nat) = k % 4
  index : d.tarindex = 3 * k / 4
  int : d.tarindex < 2 ^ 31

variable {k size : Nat}

theorem b64DecodeSplit_counts {high nextbyte : Nat} {state : Fin 4} (h : Counts k size d)
    (hlarge : 2 ^ 31 ≤ size) (hstate : (state : Nat) = (k + 1) % 4)
    (hnext : d.tarindex + 1 = 3 * (k + 1) / 4) :
    b64DecodeSplit size high nextbyte state d = none ∨
      ∃ d', b64DecodeSplit size high nextbyte state d = some (.ok d') ∧ Counts (k + 1) size d' := by
  obtain ⟨target, htarget, hsize⟩ := h.target
  have hint := h.int
  obtain ⟨t, hor, hlen⟩ := orStore_inside (show d.tarindex < target.length by omega) high
  rw [b64DecodeSplit, htarget]
  simp only [if_neg (show ¬size ≤ d.tarindex by omega), hor, Option.bind_some]
  by_cases hmore : d.tarindex + 1 < 2 ^ 31
  · obtain ⟨t', hstore, hlen'⟩ := store_inside (show d.tarindex + 1 < t.length by omega)
      (UInt8.ofNat nextbyte)
    have hsucc : intSucc d.tarindex = some (d.tarindex + 1) := if_pos hmore
    have hroom : d.tarindex + 1 < size := by omega
    refine .inr ⟨⟨state, d.tarindex + 1, some t'⟩, ?_, ⟨t', rfl, by omega⟩, hstate, hnext, hmore⟩
    rw [hsucc, Option.bind_some, if_pos hroom, hstore, Option.map_some]
  · have hsucc : intSucc d.tarindex = none := if_neg hmore
    rw [hsucc]
    exact .inl rfl

theorem b64DecodeSextet_counts (h : Counts k size d) (hlarge : 2 ^ 31 ≤ size) (n : Nat) :
    b64DecodeSextet size n d = none ∨
      ∃ d', b64DecodeSextet size n d = some (.ok d') ∧ Counts (k + 1) size d' := by
  have hstate := h.state
  have hindex := h.index
  have hint := h.int
  obtain ⟨target, htarget, hsize⟩ := h.target
  have hroom : ¬size ≤ d.tarindex := by omega
  rw [b64DecodeSextet]
  match hcase : d.state with
  | 0 =>
      rw [hcase] at hstate
      have hstate : k % 4 = 0 := hstate.symm
      obtain ⟨t, hstore, hlen⟩ := store_inside (show d.tarindex < target.length by omega)
        (UInt8.ofNat (n <<< 2))
      simp only [htarget, if_neg hroom, hstore, Option.map_some]
      exact .inr ⟨_, rfl, ⟨t, rfl, by omega⟩, show 1 = (k + 1) % 4 by omega,
        show d.tarindex = 3 * (k + 1) / 4 by omega, hint⟩
  | 1 =>
      rw [hcase] at hstate
      have hstate : k % 4 = 1 := hstate.symm
      exact b64DecodeSplit_counts h hlarge (show 2 = (k + 1) % 4 by omega) (by omega)
  | 2 =>
      rw [hcase] at hstate
      have hstate : k % 4 = 2 := hstate.symm
      exact b64DecodeSplit_counts h hlarge (show 3 = (k + 1) % 4 by omega) (by omega)
  | 3 =>
      rw [hcase] at hstate
      have hstate : k % 4 = 3 := hstate.symm
      obtain ⟨t, hor, hlen⟩ := orStore_inside (show d.tarindex < target.length by omega) n
      simp only [htarget, if_neg hroom, hor, Option.bind_some]
      by_cases hmore : d.tarindex + 1 < 2 ^ 31
      · have hsucc : intSucc d.tarindex = some (d.tarindex + 1) := if_pos hmore
        rw [hsucc, Option.map_some]
        exact .inr ⟨_, rfl, ⟨t, rfl, by omega⟩, show 0 = (k + 1) % 4 by omega,
          show d.tarindex + 1 = 3 * (k + 1) / 4 by omega, hmore⟩
      · have hsucc : intSucc d.tarindex = none := if_neg hmore
        rw [hsucc]
        exact .inl rfl

/-- With so large a target the index overflows if there are enough sextets. -/
theorem b64DecodeLoop_none (src : List UInt8) (h : Counts k size d) (hlarge : 2 ^ 31 ≤ size)
    (hmore : 2 ^ 31 ≤ 3 * (k + leading (strip src)) / 4) :
    b64DecodeLoop size src d = none := by
  have hint := h.int
  have hindex := h.index
  -- the text does not end among the sextets
  have hgoes : leading (strip src) ≠ 0 := by omega
  induction src generalizing d k with
  | nil => exact absurd rfl hgoes
  | cons ch src ih =>
      rw [b64DecodeLoop]
      by_cases hspace : isSpace ch = true
      · rw [if_pos hspace]
        rw [strip_space hspace] at hmore hgoes
        exact ih h hmore hint hindex hgoes
      rw [if_neg hspace]
      rw [strip_cons hspace] at hmore hgoes
      have hmem : ch ∈ Base64 := by
        by_contra hnot
        exact hgoes (by rw [leading, List.takeWhile_cons_of_neg (by simpa using hnot)]; rfl)
      have hpad : ch ≠ Pad64 := by
        rintro rfl
        rw [base64_bytes] at hmem
        exact absurd hmem (by decide)
      rw [if_neg hpad]
      rw [leading_cons hmem] at hmore
      cases hidx : Base64.idxOf? ch with
      | none => exact absurd hmem (by simpa using hidx)
      | some n =>
          rcases b64DecodeSextet_counts h hlarge n with hres | ⟨d', hres, h'⟩
          · simp only [hres, Option.bind_none]
          · simp only [hres, Option.bind_some]
            have hint' := h'.int
            have hindex' := h'.index
            exact ih h' (by omega) hint' hindex' (by omega)

/-- `b64_decode` of a text into a target returns the bytes that it is the encoding of,
if they fit, and -1 if there are no such bytes, and stays in the target. -/
def Decodes (s target : List UInt8) : Prop :=
  ∃ r target', b64Decode s (some target) target.length = some (r, some target') ∧
    target'.length = target.length ∧
    (r = -1 ∨ ∃ x : List UInt8, r = x.length ∧ x <+: target') ∧
    ∀ x : List UInt8, (r = x.length ∧ x <+: target') ↔
      strip s = alphabet.encode x ∧ x.length ≤ target.length

theorem decodes_iff (s target : List UInt8) :
    Decodes s target ↔ target.length < 2 ^ 31 ∨ 3 * leading (strip s) / 4 < 2 ^ 31 := by
  constructor
  · intro h
    by_contra hnot
    rw [not_or, Nat.not_lt, Nat.not_lt] at hnot
    obtain ⟨r, t, hres, -⟩ := h
    have hcounts : Counts 0 target.length ⟨0, 0, some target⟩ :=
      ⟨⟨target, rfl, rfl⟩, rfl, rfl, by simp⟩
    have hnone : b64Decode s (some target) target.length = none :=
      b64DecodeLoop_none s hcounts hnot.1 (by rw [Nat.zero_add]; exact hnot.2)
    rw [hnone] at hres
    cases hres
  · intro h
    have hholds : Holds target.length [] [] ⟨0, 0, some target⟩ :=
      ⟨target, rfl, rfl, rfl, rfl, List.nil_prefix⟩
    have hfits : Fits target.length [] (([] : List Nat).length + leading (strip s)) := by
      rw [Fits, List.length_nil, List.length_nil, Nat.zero_add, Nat.zero_add]
      exact h
    obtain ⟨r, t, hres, hlen, hsome, hall⟩ :=
      b64DecodeLoop_spec s hholds (fun i hi => nomatch hi) hfits
    refine ⟨r, t, hres, hlen, hsome, fun x => (hall x).trans (and_congr_left fun _ => ?_)⟩
    constructor
    · intro hx
      obtain ⟨y, rfl, hy⟩ := hx
      exact hy.symm
    · exact fun hx => ⟨x, rfl, hx.symm⟩

/-- **The codec** is exact up to the range of an `int`. -/
theorem exact_iff (x s target : List UInt8) :
    (Encodes x ↔ 4 * ((x.length + 2) / 3) < 2 ^ 31) ∧
      (Decodes s target ↔ target.length < 2 ^ 31 ∨ 3 * leading (strip s) / 4 < 2 ^ 31) :=
  ⟨encodes_iff x, decodes_iff s target⟩

/-- The encoding of 1610612734 bytes has a length that is negative as an `int`. -/
theorem not_exact : ¬((∀ x, Encodes x) ∧ ∀ s target, Decodes s target) := by
  intro h
  have hlen := (encodes_iff (List.replicate 1610612734 0)).mp (h.1 _)
  rw [List.length_replicate] at hlen
  exact absurd hlen (by decide)

end Libubox.B64
