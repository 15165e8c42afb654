import Libubox.Lib.Blocks
import Libubox.Md5.Rounds

/-!
# The digest of a stream

`md5_begin`, `md5_hash`, `md5_end` and `md5sum`.  The context keeps a buffer of 64 bytes
and two counters, 29 bits of the length in `lo` and the bits above in `hi`.

`digest` is the digest of a message as RFC 1321 gives it.  However the message is cut
when it is passed to `md5_hash`, `md5_end` comes to its digest, and no call reads or
writes outside the buffer or the data (`md5_digest`).
-/

namespace Libubox.Md5

open Bytes Blocks

/-! ## The context -/

/-- `md5_ctx_t`. -/
structure Ctx extends Regs where
  lo : UInt32
  hi : UInt32
  buffer : List UInt8
  buffer_length : buffer.length = 64
  deriving DecidableEq

/-- `memcpy(&ctx->buffer[pos], data, size)`. -/
def Ctx.store (ctx : Ctx) (pos : Nat) (data : List UInt8) : Option Ctx :=
  if h : pos + data.length ≤ ctx.buffer.length then
    some { ctx with
      buffer := overwrite ctx.buffer pos data
      buffer_length := (overwrite_length h).trans ctx.buffer_length }
  else none

/-- `body` on the words of the context. -/
def Ctx.body (ctx : Ctx) (data : List UInt8) (size : Nat) : Option (Ctx × List UInt8) :=
  (Md5.body ctx.toRegs data size).map fun p => ({ ctx with toRegs := p.1 }, p.2)

/-- The words that `md5_begin` sets. -/
def initial : Regs := ⟨0x67452301, 0xefcdab89, 0x98badcfe, 0x10325476⟩

/-- `md5_begin`. -/
def md5Begin (ctx : Ctx) : Ctx := { ctx with toRegs := initial, lo := 0, hi := 0 }

/-- `md5_hash`, with nothing in the buffer. -/
def md5HashBlocks (data : List UInt8) (ctx : Ctx) : Option Ctx :=
  if 64 ≤ data.length then
    (ctx.body data (data.length &&& 0xffffffffffffffc0)).bind fun p =>
      p.1.store 0 (p.2.take (data.length &&& 0x3f))
  else ctx.store 0 data

/-- The counters of `md5_hash`; `size` is a `size_t`. -/
def Ctx.count (ctx : Ctx) (size : Nat) : Ctx :=
  let lo := UInt32.ofNat ((ctx.lo.toNat + size) % 2 ^ 64 &&& 0x1fffffff)
  let hi := if lo < ctx.lo then ctx.hi + 1 else ctx.hi
  { ctx with lo, hi := hi + UInt32.ofNat (size >>> 29) }

/-- `md5_hash`. -/
def md5Hash (data : List UInt8) (ctx : Ctx) : Option Ctx :=
  let used := ctx.lo.toNat &&& 0x3f
  let ctx := ctx.count data.length
  if used = 0 then md5HashBlocks data ctx
  else
    let available := 64 - used
    if data.length < available then ctx.store used data
    else
      (ctx.store used (data.take available)).bind fun ctx =>
        (ctx.body ctx.buffer 64).bind fun p => md5HashBlocks (data.drop available) p.1

/-- The four bytes of a word, the low one first. -/
def wordBytes (w : UInt32) : List UInt8 :=
  [w.toUInt8, (w >>> 8).toUInt8, (w >>> 16).toUInt8, (w >>> 24).toUInt8]

/-- The bytes of the four words. -/
def Regs.bytes (r : Regs) : List UInt8 :=
  wordBytes r.a ++ wordBytes r.b ++ wordBytes r.c ++ wordBytes r.d

/-- The context after `memset`. -/
def Ctx.zero : Ctx := ⟨⟨0, 0, 0, 0⟩, 0, 0, List.replicate 64 0, rfl⟩

/-- The last block, which has room from `used` on for the length. -/
def md5EndLast (used : Nat) (ctx : Ctx) : Option (List UInt8 × Ctx) :=
  (ctx.store used (List.replicate (64 - used - 8) 0)).bind fun ctx =>
    let ctx := { ctx with lo := ctx.lo <<< 3 }
    (ctx.store 56 (wordBytes ctx.lo ++ wordBytes ctx.hi)).bind fun ctx =>
      (ctx.body ctx.buffer 64).map fun p => (p.1.toRegs.bytes, .zero)

/-- `md5_end`: the bytes of the result, and the context behind it. -/
def md5End (ctx : Ctx) : Option (List UInt8 × Ctx) :=
  let used := ctx.lo.toNat &&& 0x3f
  (ctx.store used [0x80]).bind fun ctx =>
    let used := used + 1
    let available := 64 - used
    if available < 8 then
      (ctx.store used (List.replicate available 0)).bind fun ctx =>
        (ctx.body ctx.buffer 64).bind fun p => md5EndLast 0 p.1
    else md5EndLast used ctx

/-- The calls of `md5_hash` for a message that comes in parts. -/
def md5HashAll (parts : List (List UInt8)) (ctx : Ctx) : Option Ctx :=
  parts.foldlM (fun ctx data => md5Hash data ctx) ctx

/-! ## The digest of a message -/

/-- The low `width` bytes of a number, the lowest first. -/
def leBytes : Nat → Nat → List UInt8
  | 0, _ => []
  | width + 1, n => UInt8.ofNat n :: leBytes width (n / 256)

/-- What is put behind a message of `len` bytes. -/
def padding (len : Nat) : List UInt8 :=
  0x80 :: List.replicate ((119 - len % 64) % 64) 0 ++ leBytes 8 (8 * len)

/-- The digest of a message. -/
def digest (message : List UInt8) : List UInt8 :=
  (absorb compress 64 initial (message ++ padding message.length)).bytes

/-- The digest of the empty message. -/
example : digest [] = [0xd4, 0x1d, 0x8c, 0xd9, 0x8f, 0x00, 0xb2, 0x04, 0xe9, 0x80, 0x09, 0x98,
    0xec, 0xf8, 0x42, 0x7e] := by
  decide +kernel

theorem digest_abc : digest [97, 98, 99] = [0x90, 0x01, 0x50, 0x98, 0x3c, 0xd2, 0x4f, 0xb0, 0xd6,
    0x96, 0x3f, 0x7d, 0x28, 0xe1, 0x7f, 0x72] := by
  decide +kernel

/-! ## Stores -/

/-- A store at the end of what is in the buffer. -/
theorem Ctx.store_take (ctx : Ctx) {pos : Nat} {front : List UInt8} (data : List UInt8)
    (h : ctx.buffer.take pos = front) (hpos : pos + data.length ≤ 64) :
    ∃ ctx', ctx.store pos data = some ctx' ∧ ctx'.toRegs = ctx.toRegs ∧ ctx'.lo = ctx.lo ∧
      ctx'.hi = ctx.hi ∧ ctx'.buffer.take (pos + data.length) = front ++ data := by
  have hroom : pos + data.length ≤ ctx.buffer.length := hpos.trans ctx.buffer_length.ge
  refine ⟨_, dif_pos hroom, rfl, rfl, rfl, ?_⟩
  have hfront : (front ++ data).length = pos + data.length := by
    rw [← h, List.length_append, List.length_take, Nat.min_eq_left (by omega)]
  show (overwrite ctx.buffer pos data).take _ = _
  rw [overwrite, h, ← hfront, List.take_left]

/-! ## Blocks -/

theorem body_last (r : Regs) {data : List UInt8} (h : 64 ≤ data.length) :
    body r data 64 = some (compress r (data.take 64), data.drop 64) := by
  rw [body, dif_neg (Nat.not_lt.mpr h), if_pos (by decide), transform_eq]

theorem body_more (r : Regs) {data : List UInt8} {size : Nat} (h : 64 ≤ data.length)
    (hmore : 64 < size) (hlt : size < 2 ^ 64) :
    body r data size = body (compress r (data.take 64)) (data.drop 64) (size - 64) := by
  have hsize : (size + 2 ^ 64 - 64) % 2 ^ 64 = size - 64 := by omega
  have hne : ¬(size + 2 ^ 64 - 64) % 2 ^ 64 = 0 := by omega
  rw [body, dif_neg (Nat.not_lt.mpr h), if_neg hne, hsize, transform_eq]

theorem body_eq (r : Regs) (k : Nat) {data : List UInt8} {size : Nat} (hsize : size = 64 * k + 64)
    (hle : size ≤ data.length) (hlt : size < 2 ^ 64) :
    body r data size = some (absorbBlocks compress 64 (k + 1) r data, data.drop size) := by
  induction k generalizing r data size with
  | zero =>
      subst hsize
      exact body_last r hle
  | succ k ih =>
      have hrest : size - 64 ≤ (data.drop 64).length := by
        rw [List.length_drop]
        omega
      have hdrop : 64 + (size - 64) = size := by omega
      rw [body_more r (by omega) (by omega) hlt, ih _ (by omega) hrest (by omega), List.drop_drop,
        hdrop]
      rfl

/-- `body` takes in as many whole blocks as `size` says. -/
theorem Ctx.body_eq (ctx : Ctx) (size : Nat) {data : List UInt8} (hpos : 0 < size)
    (hdvd : 64 ∣ size) (hle : size ≤ data.length) (hlt : size < 2 ^ 64) :
    ctx.body data size
      = some ({ ctx with toRegs := absorbBlocks compress 64 (size / 64) ctx.toRegs data },
          data.drop size) := by
  obtain ⟨k, hk⟩ : ∃ k, size = 64 * k + 64 := ⟨size / 64 - 1, by omega⟩
  have hblocks : size / 64 = k + 1 := by omega
  rw [Ctx.body, Md5.body_eq _ k hk hle hlt, hblocks]
  rfl

/-! ## Counters -/

theorem and_used (n : Nat) : n &&& 0x3f = n % 64 := Nat.and_two_pow_sub_one_eq_mod n 6

theorem and_blocks {n : Nat} (h : n < 2 ^ 64) : n &&& 0xffffffffffffffc0 = n / 64 * 64 := by
  have hmask : ∀ i < 64, Nat.testBit 0xffffffffffffffc0 i = decide (6 ≤ i) := by decide
  have hshift : n / 64 * 64 = (n >>> 6) <<< 6 := by
    rw [Nat.shiftLeft_eq, Nat.shiftRight_eq_div_pow]
  rw [hshift]
  apply Nat.eq_of_testBit_eq
  intro i
  rw [Nat.testBit_and, Nat.testBit_shiftLeft, Nat.testBit_shiftRight]
  by_cases hi : i < 64
  · rw [hmask i hi]
    by_cases hsix : 6 ≤ i
    · simp [hsix, Nat.add_sub_cancel' hsix]
    · simp [hsix]
  · have hhigh : n.testBit i = false :=
      Nat.testBit_lt_two_pow (h.trans_le (Nat.pow_le_pow_right (by decide) (by omega)))
    have hsix : 6 + (i - 6) = i := by omega
    simp [hhigh, hsix]

/-- The counters of a message. -/
def Counted (ctx : Ctx) (len : Nat) : Prop :=
  ctx.lo.toNat = len % 2 ^ 29 ∧ ctx.hi.toNat = len / 2 ^ 29 % 2 ^ 32

theorem Counted.used {ctx : Ctx} {len : Nat} (h : Counted ctx len) :
    ctx.lo.toNat &&& 0x3f = len % 64 := by
  rw [and_used, h.1]
  omega

/-- `md5_hash` sees the carry from `lo` into `hi`. -/
theorem Counted.count {ctx : Ctx} {len : Nat} (h : Counted ctx len) (size : Nat) :
    Counted (ctx.count size) (len + size) := by
  obtain ⟨hlo, hhi⟩ := h
  have hmask : ∀ n : Nat, n &&& 0x1fffffff = n % 2 ^ 29 :=
    fun n => Nat.and_two_pow_sub_one_eq_mod n 29
  have hnewlo : (UInt32.ofNat ((ctx.lo.toNat + size) % 2 ^ 64 &&& 0x1fffffff)).toNat
      = (len + size) % 2 ^ 29 := by
    rw [hmask, UInt32.toNat_ofNat', hlo]
    omega
  have hiff : UInt32.ofNat ((ctx.lo.toNat + size) % 2 ^ 64 &&& 0x1fffffff) < ctx.lo
      ↔ (len + size) % 2 ^ 29 < len % 2 ^ 29 := by
    rw [UInt32.lt_iff_toNat_lt, hnewlo, hlo]
  refine ⟨hnewlo, ?_⟩
  have hcount : (ctx.count size).hi =
      (if UInt32.ofNat ((ctx.lo.toNat + size) % 2 ^ 64 &&& 0x1fffffff) < ctx.lo then ctx.hi + 1
        else ctx.hi) + UInt32.ofNat (size >>> 29) := rfl
  rw [hcount, UInt32.toNat_add, UInt32.toNat_ofNat', Nat.shiftRight_eq_div_pow]
  by_cases hcarry : (len + size) % 2 ^ 29 < len % 2 ^ 29
  · rw [if_pos (hiff.mpr hcarry), UInt32.toNat_add, hhi, UInt32.toNat_one]
    omega
  · rw [if_neg (mt hiff.mp hcarry), hhi]
    omega

/-! ## Parts of a message -/

/-- The context when `message` was passed. -/
structure Holds (ctx : Ctx) (message : List UInt8) : Prop where
  counted : Counted ctx message.length
  absorbed : Absorbed compress 64 initial message ctx.toRegs
    (ctx.buffer.take (message.length % 64))

theorem holds_md5Begin (ctx : Ctx) : Holds (md5Begin ctx) [] :=
  ⟨⟨rfl, rfl⟩, .nil (by decide)⟩

theorem md5HashBlocks_absorbed {ctx : Ctx} {message data : List UInt8}
    (h : Absorbed compress 64 initial message ctx.toRegs []) (hlt : data.length < 2 ^ 64) :
    ∃ ctx', md5HashBlocks data ctx = some ctx' ∧ ctx'.lo = ctx.lo ∧ ctx'.hi = ctx.hi ∧
      Absorbed compress 64 initial (message ++ data) ctx'.toRegs
        (ctx'.buffer.take ((message ++ data).length % 64)) := by
  have hall := h.append (by decide) data
  have hlength := hall.length_eq
  rw [List.nil_append] at hall hlength
  rw [← hlength]
  by_cases hblock : 64 ≤ data.length
  · have hrest : (data.drop (data.length / 64 * 64)).take (data.length &&& 0x3f)
        = remainder 64 data := by
      apply List.take_of_length_le
      rw [and_used]
      exact (remainder_length data).le
    have hbody := ctx.body_eq (data.length / 64 * 64) (by omega) (Nat.dvd_mul_left 64 _)
      (Nat.div_mul_le_self _ _) (by omega)
    rw [Nat.mul_div_cancel _ (by decide)] at hbody
    have hroom := remainder_length_lt (show 0 < 64 by decide) data
    obtain ⟨ctx', hstore, hregs, hlo, hhi, htake⟩ :=
      Ctx.store_take { ctx with toRegs := absorb compress 64 ctx.toRegs data }
        (remainder 64 data) List.take_zero (by omega)
    rw [Nat.zero_add] at htake
    refine ⟨ctx', ?_, hlo, hhi, ?_⟩
    · rw [md5HashBlocks, if_pos hblock, and_blocks hlt, hbody, Option.bind_some, hrest]
      exact hstore
    · rw [htake, hregs]
      exact hall
  · rw [absorb_of_lt _ _ (by omega), remainder_of_lt (by omega)] at hall
    rw [remainder_of_lt (by omega)]
    obtain ⟨ctx', hstore, hregs, hlo, hhi, htake⟩ :=
      ctx.store_take data List.take_zero (by omega)
    rw [Nat.zero_add] at htake
    refine ⟨ctx', ?_, hlo, hhi, ?_⟩
    · rw [md5HashBlocks, if_neg hblock, hstore]
    · rw [htake, hregs]
      exact hall

/-- A store that fills the buffer, behind what is left of the message and `mid`, and the
transformation of what is in it. -/
theorem Ctx.store_fill (ctx : Ctx) {message r mid : List UInt8} {pos : Nat} (data : List UInt8)
    (h : Absorbed compress 64 initial message ctx.toRegs r)
    (hfront : ctx.buffer.take pos = r ++ mid) (hpos : pos + data.length = 64) :
    ∃ full ctx', ctx.store pos data = some full ∧ full.body full.buffer 64 = some (ctx', []) ∧
      ctx'.lo = ctx.lo ∧ ctx'.hi = ctx.hi ∧
      Absorbed compress 64 initial (message ++ (mid ++ data)) ctx'.toRegs [] := by
  obtain ⟨full, hstore, hregs, hlo, hhi, htake⟩ := ctx.store_take data hfront hpos.le
  have hbuffer : full.buffer = r ++ (mid ++ data) := by
    rw [← List.append_assoc, ← htake, hpos, List.take_of_length_le full.buffer_length.le]
  have hlength : (r ++ (mid ++ data)).length = 64 := by
    rw [← hbuffer, full.buffer_length]
  have hbody := full.body_eq 64 (by decide) (dvd_refl 64) full.buffer_length.ge (by decide)
  rw [List.drop_of_length_le full.buffer_length.le] at hbody
  refine ⟨full, _, hstore, hbody, hlo, hhi, ?_⟩
  have hfill := h.fill (by decide) (mid ++ data) hlength
  show Absorbed compress 64 initial _ (absorbBlocks compress 64 1 full.toRegs full.buffer) []
  rw [absorbBlocks_succ, absorbBlocks_zero, List.take_of_length_le full.buffer_length.le, hbuffer,
    hregs]
  exact hfill

/-- A call of `md5_hash` takes in all of its data. -/
theorem Holds.md5Hash {ctx : Ctx} {message data : List UInt8} (h : Holds ctx message)
    (hlt : data.length < 2 ^ 64) :
    ∃ ctx', md5Hash data ctx = some ctx' ∧ Holds ctx' (message ++ data) := by
  have hcount := h.counted.count data.length
  rw [← List.length_append] at hcount
  have habsorbed : Absorbed compress 64 initial message (ctx.count data.length).toRegs
      ((ctx.count data.length).buffer.take (message.length % 64)) := h.absorbed
  have hlength := habsorbed.length_eq
  simp only [Md5.md5Hash, h.counted.used]
  by_cases hused : message.length % 64 = 0
  · rw [hused, List.take_zero] at habsorbed
    obtain ⟨ctx', hhash, hlo, hhi, hall⟩ := md5HashBlocks_absorbed habsorbed hlt
    refine ⟨ctx', (if_pos hused).trans hhash, ?_, hall⟩
    rwa [Counted, hlo, hhi]
  rw [if_neg hused]
  by_cases hwait : data.length < 64 - message.length % 64
  · rw [if_pos hwait]
    have hroom : message.length % 64 + data.length ≤ 64 := by omega
    obtain ⟨ctx', hstore, hregs, hlo, hhi, htake⟩ :=
      (ctx.count data.length).store_take data rfl hroom
    have hall := habsorbed.wait (by decide) data (by
      rw [List.length_append, hlength]
      omega)
    refine ⟨ctx', hstore, ?_, ?_⟩
    · rwa [Counted, hlo, hhi]
    · rw [← hall.length_eq, List.length_append, hlength, htake, hregs]
      exact hall
  · rw [if_neg hwait]
    obtain ⟨full, ctx₁, hstore, hbody, hlo₁, hhi₁, hfill⟩ :=
      (ctx.count data.length).store_fill (data.take (64 - message.length % 64)) habsorbed
        (List.append_nil _).symm (by
          rw [List.length_take]
          omega)
    rw [List.nil_append] at hfill
    obtain ⟨ctx', hhash, hlo, hhi, hall⟩ :=
      @md5HashBlocks_absorbed _ _ (data.drop (64 - message.length % 64)) hfill (by
        rw [List.length_drop]
        omega)
    rw [List.append_assoc, List.take_append_drop] at hall
    refine ⟨ctx', ?_, ?_, hall⟩
    · rw [hstore, Option.bind_some, hbody]
      exact hhash
    · rwa [Counted, hlo, hhi, hlo₁, hhi₁]

theorem Holds.md5HashAll {parts : List (List UInt8)} (hlt : ∀ data ∈ parts, data.length < 2 ^ 64)
    {ctx : Ctx} {message : List UInt8} (h : Holds ctx message) :
    ∃ ctx', md5HashAll parts ctx = some ctx' ∧ Holds ctx' (message ++ parts.flatten) := by
  induction parts generalizing ctx message with
  | nil => exact ⟨ctx, rfl, by rwa [List.flatten_nil, List.append_nil]⟩
  | cons data parts ih =>
      obtain ⟨ctx₁, hhash, h₁⟩ := h.md5Hash (hlt data List.mem_cons_self)
      obtain ⟨ctx', hall, h'⟩ := ih (fun d hd => hlt d (List.mem_cons_of_mem _ hd)) h₁
      refine ⟨ctx', ?_, ?_⟩
      · rw [Md5.md5HashAll, List.foldlM_cons, hhash]
        exact hall
      · rwa [List.flatten_cons, ← List.append_assoc]

/-! ## The end of a message -/

theorem wordBytes_eq (w : UInt32) : wordBytes w = leBytes 4 w.toNat := by
  have hbyte : ∀ (b : UInt8) (n : Nat), b.toNat = n % 256 → b = UInt8.ofNat n := by
    intro b n hb
    apply UInt8.toNat_inj.mp
    rw [hb, UInt8.toNat_ofNat']
  simp only [wordBytes, leBytes, Nat.div_div_eq_div_mul, List.cons.injEq, and_true]
  refine ⟨hbyte _ _ ?_, hbyte _ _ ?_, hbyte _ _ ?_, hbyte _ _ ?_⟩
  · exact UInt32.toNat_toUInt8 w
  all_goals
    rw [UInt32.toNat_toUInt8, UInt32.toNat_shiftRight, Nat.shiftRight_eq_div_pow]
    rfl

theorem leBytes_add (j k n : Nat) : leBytes (j + k) n = leBytes j n ++ leBytes k (n / 256 ^ j) := by
  induction j generalizing n with
  | zero => rw [Nat.zero_add, Nat.pow_zero, Nat.div_one, leBytes, List.nil_append]
  | succ j ih =>
      rw [Nat.add_right_comm, leBytes, leBytes, ih, Nat.div_div_eq_div_mul, Nat.pow_succ',
        List.cons_append]

/-- Higher bits are not seen. -/
theorem leBytes_mod (width n : Nat) : leBytes width (n % 256 ^ width) = leBytes width n := by
  induction width generalizing n with
  | zero => rfl
  | succ width ih =>
      have hlow : UInt8.ofNat (n % 256 ^ (width + 1)) = UInt8.ofNat n := by
        apply UInt8.toNat_inj.mp
        rw [UInt8.toNat_ofNat', UInt8.toNat_ofNat', Nat.pow_succ]
        exact Nat.mod_mod_of_dvd n (Nat.dvd_mul_left 256 _)
      rw [leBytes, leBytes, hlow, Nat.pow_succ', Nat.mod_mul_right_div_self, ih]

/-- The length as `md5_end` writes it. -/
theorem Counted.bytes {ctx : Ctx} {len : Nat} (h : Counted ctx len) :
    wordBytes (ctx.lo <<< 3) ++ wordBytes ctx.hi = leBytes 8 (8 * len) := by
  have hlo : (ctx.lo <<< 3).toNat = 8 * len % 256 ^ 4 := by
    rw [UInt32.toNat_shiftLeft, h.1]
    show (len % 2 ^ 29) <<< 3 % 2 ^ 32 = _
    rw [Nat.shiftLeft_eq]
    omega
  have hhi : ctx.hi.toNat = 8 * len / 256 ^ 4 % 256 ^ 4 := by
    rw [h.2]
    omega
  rw [wordBytes_eq, wordBytes_eq, hlo, hhi, leBytes_mod, leBytes_mod, ← leBytes_add]

/-- The last block, behind what is left of the message and `mid`. -/
theorem md5EndLast_eq {ctx : Ctx} {message r mid : List UInt8} {used len : Nat}
    (h : Absorbed compress 64 initial message ctx.toRegs r)
    (hfront : ctx.buffer.take used = r ++ mid) (hused : used ≤ 56) (hcounted : Counted ctx len) :
    md5EndLast used ctx = some ((absorb compress 64 initial (message ++
      ((mid ++ List.replicate (56 - used) 0) ++ leBytes 8 (8 * len)))).bytes, .zero) := by
  have hzeros : (List.replicate (64 - used - 8) (0 : UInt8)).length = 56 - used := by
    rw [List.length_replicate]
    omega
  obtain ⟨ctx₁, hstore, hregs, hlo, hhi, htake⟩ :=
    ctx.store_take (List.replicate (64 - used - 8) 0) hfront (by omega)
  rw [hzeros, Nat.add_sub_cancel' hused, List.append_assoc] at htake
  obtain ⟨full, ctx', hstore', hbody, -, -, hfill⟩ :=
    Ctx.store_fill { ctx₁ with lo := ctx₁.lo <<< 3 }
      (wordBytes (ctx₁.lo <<< 3) ++ wordBytes ctx₁.hi) (by rwa [hregs]) htake (by rfl)
  have hrun : md5EndLast used ctx = some (ctx'.toRegs.bytes, .zero) := by
    rw [md5EndLast, hstore, Option.bind_some]
    show (Ctx.store _ 56 _).bind _ = _
    rw [hstore', Option.bind_some, hbody]
    rfl
  have hcount : 64 - used - 8 = 56 - used := by omega
  rw [hlo, hhi, hcounted.bytes, hcount] at hfill
  rw [hrun, hfill.1]

theorem padding_short {len : Nat} (h : len % 64 + 1 ≤ 56) :
    padding len = ([0x80] ++ List.replicate (56 - (len % 64 + 1)) 0) ++ leBytes 8 (8 * len) := by
  have hcount : (119 - len % 64) % 64 = 56 - (len % 64 + 1) := by omega
  rw [padding, hcount]
  rfl

theorem padding_long {len : Nat} (h : 56 < len % 64 + 1) :
    padding len = ([0x80] ++ List.replicate (64 - (len % 64 + 1)) 0) ++
      (([] ++ List.replicate (56 - 0) 0) ++ leBytes 8 (8 * len)) := by
  have hlt := Nat.mod_lt len (show 0 < 64 by decide)
  have hcount : (119 - len % 64) % 64 = 64 - (len % 64 + 1) + 56 := by omega
  rw [padding, hcount, List.replicate_add, List.nil_append, ← List.append_assoc,
    List.append_assoc [0x80]]
  rfl

/-- `md5_end` comes to the digest of the message that was passed. -/
theorem Holds.md5End {ctx : Ctx} {message : List UInt8} (h : Holds ctx message) :
    md5End ctx = some (digest message, .zero) := by
  have hused := Nat.mod_lt message.length (show 0 < 64 by decide)
  obtain ⟨ctx₁, hstore, hregs, hlo, hhi, htake⟩ :=
    ctx.store_take [0x80] rfl (show message.length % 64 + [(0x80 : UInt8)].length ≤ 64 from hused)
  rw [List.length_singleton] at htake
  have habsorbed := h.absorbed
  rw [← hregs] at habsorbed
  have hcounted : Counted ctx₁ message.length := by
    rw [Counted, hlo, hhi]
    exact h.counted
  rw [Md5.md5End]
  simp only [h.counted.used]
  rw [hstore, Option.bind_some]
  by_cases hroom : 64 - (message.length % 64 + 1) < 8
  · have hlength : (List.replicate (64 - (message.length % 64 + 1)) (0 : UInt8)).length
        = 64 - (message.length % 64 + 1) := List.length_replicate
    obtain ⟨full, ctx₂, hstore', hbody, hlo', hhi', hfill⟩ :=
      ctx₁.store_fill (List.replicate (64 - (message.length % 64 + 1)) 0) habsorbed htake (by
        rw [hlength]
        show message.length % 64 + 1 + _ = 64
        omega)
    have hcounted' : Counted ctx₂ message.length := by rwa [Counted, hlo', hhi']
    have hlast := @md5EndLast_eq _ _ _ [] 0 _ hfill rfl (by decide) hcounted'
    rw [List.append_assoc message, ← padding_long (by omega)] at hlast
    rw [if_pos hroom, hstore', Option.bind_some, hbody]
    exact hlast
  · have hlast := md5EndLast_eq habsorbed htake
      (show message.length % 64 + 1 ≤ 56 by omega) hcounted
    rw [← padding_short (by omega)] at hlast
    rw [if_neg hroom]
    exact hlast

/-- **However a message is cut, it comes to its digest.** -/
theorem md5_digest (ctx : Ctx) {parts : List (List UInt8)}
    (hlt : ∀ data ∈ parts, data.length < 2 ^ 64) :
    (md5HashAll parts (md5Begin ctx)).bind md5End = some (digest parts.flatten, .zero) := by
  obtain ⟨ctx', hall, h⟩ := (holds_md5Begin ctx).md5HashAll hlt
  rw [hall, Option.bind_some, h.md5End, List.nil_append]

/-- `abc` in two parts. -/
theorem md5_digest_abc :
    (md5HashAll [[97], [98, 99]] (md5Begin .zero)).bind md5End
      = some ([0x90, 0x01, 0x50, 0x98, 0x3c, 0xd2, 0x4f, 0xb0, 0xd6, 0x96, 0x3f, 0x7d, 0x28, 0xe1,
          0x7f, 0x72], .zero) :=
  (md5_digest .zero (by decide)).trans (congrArg (fun d => some (d, Ctx.zero)) digest_abc)

/-! ## Files -/

/-- The loop of `md5sum`, on the results of `fread` that are left: what it adds up in
`ret`, an `int`, and the context. -/
def md5sumLoop : List (List UInt8) → Nat → Ctx → Option (Nat × Ctx)
  | [], ret, ctx => some (ret, ctx)
  | buf :: reads, ret, ctx =>
      if buf.length = 0 then some (ret, ctx)
      else
        (md5Hash buf ctx).bind fun ctx =>
          if ret + buf.length < 2 ^ 31 then md5sumLoop reads (ret + buf.length) ctx else none

/-- `md5sum` of a file that opens: the length and the digest. -/
def md5sum (reads : List (List UInt8)) (ctx : Ctx) : Option (Nat × List UInt8) :=
  (md5sumLoop reads 0 (md5Begin ctx)).bind fun p => (md5End p.2).map fun q => (p.1, q.1)

theorem md5sumLoop_eq {reads : List (List UInt8)} {ret : Nat} {ctx : Ctx} {message : List UInt8}
    (hreads : ∀ buf ∈ reads, 0 < buf.length ∧ buf.length ≤ 256) (h : Holds ctx message)
    (hret : ret < 2 ^ 31) :
    if ret + reads.flatten.length < 2 ^ 31 then
      ∃ ctx', md5sumLoop reads ret ctx = some (ret + reads.flatten.length, ctx') ∧
        Holds ctx' (message ++ reads.flatten)
    else md5sumLoop reads ret ctx = none := by
  induction reads generalizing ret ctx message with
  | nil =>
      rw [List.flatten_nil, List.length_nil, Nat.add_zero, if_pos hret, List.append_nil]
      exact ⟨ctx, rfl, h⟩
  | cons buf reads ih =>
      obtain ⟨hpos, hle⟩ := hreads buf List.mem_cons_self
      obtain ⟨ctx₁, hhash, h₁⟩ := @Holds.md5Hash ctx message buf h (by omega)
      rw [md5sumLoop, if_neg (Nat.pos_iff_ne_zero.mp hpos), hhash, Option.bind_some,
        List.flatten_cons, List.length_append, ← Nat.add_assoc, ← List.append_assoc]
      by_cases hfits : ret + buf.length < 2 ^ 31
      · rw [if_pos hfits]
        exact ih (fun d hd => hreads d (List.mem_cons_of_mem _ hd)) h₁ hfits
      · rw [if_neg hfits, if_neg (by omega)]

/-- **`md5sum` is the digest of the file**, up to the length that an `int` has room
for. -/
theorem md5sum_eq (ctx : Ctx) {reads : List (List UInt8)}
    (hreads : ∀ buf ∈ reads, 0 < buf.length ∧ buf.length ≤ 256) :
    md5sum reads ctx = if reads.flatten.length < 2 ^ 31 then
      some (reads.flatten.length, digest reads.flatten) else none := by
  have hloop := md5sumLoop_eq hreads (holds_md5Begin ctx) (show 0 < 2 ^ 31 by decide)
  rw [Nat.zero_add] at hloop
  rw [md5sum]
  split at hloop
  · rename_i hfits
    obtain ⟨ctx', hrun, h⟩ := hloop
    rw [if_pos hfits, hrun, Option.bind_some, h.md5End]
    rfl
  · rename_i hlong
    rw [if_neg hlong, hloop]
    rfl

/-- `abc` in two reads. -/
theorem md5sum_eq_abc :
    md5sum [[97], [98, 99]] .zero = some (3, [0x90, 0x01, 0x50, 0x98, 0x3c, 0xd2, 0x4f, 0xb0, 0xd6,
      0x96, 0x3f, 0x7d, 0x28, 0xe1, 0x7f, 0x72]) :=
  (md5sum_eq .zero (by decide)).trans (congrArg (fun d => some (3, d)) digest_abc)

end Libubox.Md5
