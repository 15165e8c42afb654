import Libubox.Blobmsg.Build

/-!
# The size limits of the encoder

A length field has 24 bits and a name length 16.  `Lengths` is what the fields
of the open containers have to say, whatever the width: the length of the
innermost container, and of each one around it up to the header word of the
next.  `Call.after` counts what a call adds; `Stores` says that the fields of
a buffer hold those numbers.

Nothing in the encoder compares a length with its field, so after a call that
succeeds the fields are right exactly when everything fits
(`sizes_enforced_iff`).

The functions under `Libubox.Blob` take a length for a natural number.  In the
source the size of the block is an `int`; there a `realloc` that would take it
to 2 GiB has no answer, which the model leaves to its oracle.
-/

namespace Libubox.Blobmsg

open Bytes Blob

/-! ## Reading fields at an offset -/

/-- The header word at an offset into the block. -/
def wordAt (b : BlobBuf) (o : Nat) : Option Nat := idLen (b.ptr (b.buf + o))

/-- The length field at an offset into the block. -/
def lenAt (b : BlobBuf) (o : Nat) : Option Nat := blobRawLen (b.ptr (b.buf + o))

/-- The name length of the attribute at an offset into the block. -/
def namelenAt (b : BlobBuf) (o : Nat) : Option Nat :=
  blobmsgNamelen (blobData (b.ptr (b.buf + o)))

theorem wordAt_eq (b : BlobBuf) (o : Nat) : wordAt b o = (window b.mem o 4).map beNat := by
  unfold wordAt idLen window BlobBuf.ptr
  rw [Nat.add_sub_cancel_left, List.length_drop]
  by_cases h : o + 4 ≤ b.mem.length
  · rw [if_pos (by omega), if_pos h, Option.map_some]
  · rw [if_neg (by omega), if_neg h, Option.map_none]

theorem namelenAt_eq (b : BlobBuf) (o : Nat) :
    namelenAt b o = (window b.mem (o + 4) 2).map beNat := by
  unfold namelenAt blobmsgNamelen blobData window BlobBuf.ptr
  rw [Nat.add_sub_cancel_left, List.drop_drop, List.length_drop]
  by_cases h : o + 4 + 2 ≤ b.mem.length
  · rw [if_pos (by omega), if_pos h, Option.map_some]
  · rw [if_neg (by omega), if_neg h, Option.map_none]

theorem lenAt_eq_some {b : BlobBuf} {o n : Nat} :
    lenAt b o = some n ↔ ∃ w, wordAt b o = some w ∧ w % 2 ^ 24 = n := by
  unfold lenAt wordAt
  constructor
  · intro h
    cases hw : idLen (b.ptr (b.buf + o)) with
    | none =>
        rw [blobRawLen, blobLen, hw] at h
        cases h
    | some w =>
        rw [blobRawLen_eq hw] at h
        exact ⟨w, rfl, Option.some.inj h⟩
  · rintro ⟨w, hw, hn⟩
    rw [blobRawLen_eq hw, hn]

theorem padLen_of_lenAt {b : BlobBuf} {o n : Nat} (h : lenAt b o = some n) :
    blobPadLen (b.ptr (b.buf + o)) = some (alignUp 4 n) := by
  unfold lenAt at h
  rw [blobPadLen, h, Option.map_some]

theorem lenAt_lt {b : BlobBuf} {o n : Nat} (h : lenAt b o = some n) : n < 2 ^ 24 := by
  obtain ⟨w, -, hn⟩ := lenAt_eq_some.mp h
  omega

theorem namelenAt_lt {b : BlobBuf} {o n : Nat} (h : namelenAt b o = some n) : n < 2 ^ 16 := by
  rw [namelenAt_eq] at h
  obtain ⟨bs, hbs, hn⟩ := Option.map_eq_some_iff.mp h
  have hlt := beNat_lt bs
  have hlen : bs.length = 2 := by
    unfold window at hbs
    split at hbs
    · cases hbs
      rw [List.length_take, List.length_drop]
      omega
    · cases hbs
  rw [hlen] at hlt
  omega

/-! ## What a step leaves alone -/

section Windows

variable {b b' : BlobBuf} {o n : Nat}

theorem wordAt_of_window (h : ∀ bs, window b.mem o 4 = some bs → window b'.mem o 4 = some bs)
    (hw : wordAt b o = some n) : wordAt b' o = some n := by
  rw [wordAt_eq] at hw ⊢
  obtain ⟨bs, hbs, hn⟩ := Option.map_eq_some_iff.mp hw
  rw [h bs hbs, Option.map_some, hn]

theorem lenAt_of_window (h : ∀ bs, window b.mem o 4 = some bs → window b'.mem o 4 = some bs)
    (hlen : lenAt b o = some n) : lenAt b' o = some n := by
  obtain ⟨w, hw, hn⟩ := lenAt_eq_some.mp hlen
  exact lenAt_eq_some.mpr ⟨w, wordAt_of_window h hw, hn⟩

theorem namelenAt_of_window
    (h : ∀ bs, window b.mem (o + 4) 2 = some bs → window b'.mem (o + 4) 2 = some bs)
    (hlen : namelenAt b o = some n) : namelenAt b' o = some n := by
  rw [namelenAt_eq] at hlen ⊢
  obtain ⟨bs, hbs, hn⟩ := Option.map_eq_some_iff.mp hlen
  rw [h bs hbs, Option.map_some, hn]

end Windows

/-- Everything in front of offset `e` reads as before, and `buf->head` has kept
its offset. -/
structure KeepsBelow (e : Nat) (b b' : BlobBuf) : Prop where
  window : ∀ {o k bs}, o + k ≤ e → window b.mem o k = some bs → window b'.mem o k = some bs
  head : ∀ {h}, b.head = b.buf + h → b'.head = b'.buf + h

/-- Everything from offset `e` on reads as before. -/
def KeepsFrom (e : Nat) (b b' : BlobBuf) : Prop :=
  ∀ o k bs, e ≤ o → window b.mem o k = some bs → window b'.mem o k = some bs

namespace KeepsBelow

variable {b b' b'' : BlobBuf} {e e' o n : Nat}

theorem refl (e : Nat) (b : BlobBuf) : KeepsBelow e b b := ⟨fun _ h => h, fun h => h⟩

theorem trans (h : KeepsBelow e b b') (h' : KeepsBelow e b' b'') : KeepsBelow e b b'' :=
  ⟨fun hlt hw => h'.window hlt (h.window hlt hw), fun hh => h'.head (h.head hh)⟩

theorem mono (h : KeepsBelow e b b') (hle : e' ≤ e) : KeepsBelow e' b b' :=
  ⟨fun hlt => h.window (by omega), h.head⟩

theorem wordAt (h : KeepsBelow e b b') (hlt : o + 4 ≤ e) (hw : wordAt b o = some n) :
    wordAt b' o = some n :=
  wordAt_of_window (fun _ => h.window hlt) hw

theorem lenAt (h : KeepsBelow e b b') (hlt : o + 4 ≤ e) (hw : lenAt b o = some n) :
    lenAt b' o = some n :=
  lenAt_of_window (fun _ => h.window hlt) hw

theorem namelenAt (h : KeepsBelow e b b') (hlt : o + 6 ≤ e) (hw : namelenAt b o = some n) :
    namelenAt b' o = some n :=
  namelenAt_of_window (fun _ => h.window (by omega)) hw

end KeepsBelow

namespace KeepsFrom

variable {b b' : BlobBuf} {e o n : Nat}

theorem wordAt (h : KeepsFrom e b b') (hle : e ≤ o) (hw : wordAt b o = some n) :
    wordAt b' o = some n :=
  wordAt_of_window (fun bs => h _ _ bs hle) hw

theorem lenAt (h : KeepsFrom e b b') (hle : e ≤ o) (hw : lenAt b o = some n) :
    lenAt b' o = some n :=
  lenAt_of_window (fun bs => h _ _ bs hle) hw

theorem namelenAt (h : KeepsFrom e b b') (hle : e ≤ o + 4) (hw : namelenAt b o = some n) :
    namelenAt b' o = some n :=
  namelenAt_of_window (fun bs => h _ _ bs hle) hw

end KeepsFrom

/-! ## Stores -/

section Stores

variable {b b' : BlobBuf} {p e o n w : Nat} {bs : Mem}

theorem store_eq_some (h : b.store p bs = some b') :
    b.buf ≤ p ∧ p - b.buf + bs.length ≤ b.mem.length ∧
      b' = { b with mem := overwrite b.mem (p - b.buf) bs } := by
  unfold BlobBuf.store at h
  split at h
  · next hroom =>
      cases h
      exact ⟨hroom.1, hroom.2, rfl⟩
  · cases h

theorem store_keepsBelow (h : b.store (b.buf + o) bs = some b') (hle : e ≤ o) :
    b'.buf = b.buf ∧ KeepsBelow e b b' := by
  obtain ⟨-, hroom, rfl⟩ := store_eq_some h
  rw [Nat.add_sub_cancel_left] at hroom
  refine ⟨rfl, ?_, fun hh => hh⟩
  intro o' k cs hlt hw
  change window (overwrite b.mem (b.buf + o - b.buf) bs) o' k = some cs
  rw [Nat.add_sub_cancel_left, window_overwrite_of_disjoint hroom (by omega), hw]

/-- A store leaves the fields behind it alone, too. -/
theorem store_keepsFrom (h : b.store (b.buf + o) bs = some b') : KeepsFrom (o + bs.length) b b' := by
  obtain ⟨-, hroom, rfl⟩ := store_eq_some h
  rw [Nat.add_sub_cancel_left] at hroom
  intro o' k cs hle hw
  change window (overwrite b.mem (b.buf + o - b.buf) bs) o' k = some cs
  rw [Nat.add_sub_cancel_left, window_overwrite_of_disjoint hroom (by omega), hw]

theorem store_window_self (h : b.store (b.buf + o) bs = some b') :
    window b'.mem o bs.length = some bs := by
  obtain ⟨-, hroom, rfl⟩ := store_eq_some h
  rw [Nat.add_sub_cancel_left] at hroom
  change window (overwrite b.mem (b.buf + o - b.buf) bs) o bs.length = some bs
  rw [Nat.add_sub_cancel_left, window_overwrite_self hroom]

theorem wordAt_store (h : b.store (b.buf + o) (beBytes 4 w) = some b') (hw : w < 2 ^ 32) :
    wordAt b' o = some w := by
  have hself := store_window_self h
  rw [beBytes_length] at hself
  rw [wordAt_eq, hself, Option.map_some, beNat_beBytes_of_lt hw]

theorem namelenAt_store (h : b.store (b.buf + (o + 4)) (beBytes 2 n) = some b')
    (hn : n < 2 ^ 16) : namelenAt b' o = some n := by
  have hself := store_window_self h
  rw [beBytes_length] at hself
  rw [namelenAt_eq, hself, Option.map_some, beNat_beBytes_of_lt hn]

/-- `blob_set_raw_len` keeps the low 24 bits of a length. -/
theorem blobSetRawLen_spec {len : Nat} (h : blobSetRawLen b (b.buf + o) len = some b') :
    b'.buf = b.buf ∧ KeepsBelow o b b' ∧ KeepsFrom (o + 4) b b' ∧
      lenAt b' o = some (len % 2 ^ 24) := by
  unfold blobSetRawLen at h
  obtain ⟨w, hw, h⟩ := Option.bind_eq_some_iff.mp h
  have hlt := idLen_lt hw
  obtain ⟨hbuf, hkeep⟩ := store_keepsBelow h (Nat.le_refl o)
  have hfrom := store_keepsFrom h
  rw [beBytes_length] at hfrom
  exact ⟨hbuf, hkeep, hfrom, lenAt_eq_some.mpr ⟨_, wordAt_store h (by omega), by omega⟩⟩

end Stores

/-! ## Adding an attribute -/

section Adding

variable {b b' : BlobBuf} {e h n id payload attr : Nat}

/-- Growing the block moves it and adds to its end. -/
theorem blobBufGrow_keepsBelow {required : Nat} (e : Nat)
    (hgrow : blobBufGrow b required = (true, b')) : KeepsBelow e b b' := by
  unfold blobBufGrow blobBufferGrow at hgrow
  cases hnew : b.realloc 0 with
  | none =>
      rw [hnew] at hgrow
      cases hgrow
  | some new =>
      rw [hnew] at hgrow
      cases hgrow
      refine ⟨fun _ hw => window_append hw _, ?_⟩
      intro h hh
      simp only [attrToOffset, offsetToAttr, hh, Nat.add_sub_cancel_left]

theorem blobAddRoom_spec (hroom : blobAddRoom b (b.buf + e) payload = (some attr, b')) :
    attr = b'.buf + e ∧ KeepsBelow e b b' := by
  unfold blobAddRoom at hroom
  simp only [attrToOffset, Nat.add_sub_cancel_left] at hroom
  split at hroom
  · cases hgrow : blobBufGrow b (e + 4 + payload - b.buflen) with
    | mk grown c =>
        rw [hgrow] at hroom
        cases grown
        · cases hroom
        · cases hroom
          exact ⟨rfl, blobBufGrow_keepsBelow e hgrow⟩
  · cases hroom
    exact ⟨rfl, KeepsBelow.refl e b⟩

/-- `blob_fill_pad` writes behind the raw length. -/
theorem blobFillPad_spec (hfill : blobFillPad b (b.buf + e) = some b') (hlen : lenAt b e = some n) :
    b'.buf = b.buf ∧ KeepsBelow (e + n) b b' := by
  unfold lenAt at hlen
  rw [blobFillPad, blobPadLen, hlen] at hfill
  simp only [Option.bind_some, Option.map_some] at hfill
  split at hfill
  · rw [Nat.add_assoc] at hfill
    exact store_keepsBelow hfill (Nat.le_refl _)
  · cases hfill
    exact ⟨rfl, KeepsBelow.refl _ b⟩

theorem blobAdd_spec (hadd : blobAdd b (b.buf + e) id payload = some (some attr, b'))
    (hfits : 4 + payload < 2 ^ 24) :
    attr = b'.buf + e ∧ KeepsBelow e b b' ∧
      wordAt b' e = some (headerWord false (id % 2 ^ 7) (4 + payload)) := by
  unfold blobAdd at hadd
  cases hroom : blobAddRoom b (b.buf + e) payload with
  | mk at' c =>
      rw [hroom] at hadd
      cases at' with
      | none => cases hadd
      | some at' =>
          obtain ⟨hat, hkeep⟩ := blobAddRoom_spec hroom
          subst hat
          obtain ⟨d, hinit, hadd⟩ := Option.bind_eq_some_iff.mp hadd
          obtain ⟨b'', hfill, hres⟩ := Option.map_eq_some_iff.mp hadd
          cases hres
          have hid : id % 2 ^ 7 < 2 ^ 7 := Nat.mod_lt _ (by decide)
          rw [blobInit, Nat.mod_eq_of_lt (by omega : payload + 4 < 2 ^ 24), Nat.add_comm payload]
            at hinit
          obtain ⟨hdbuf, hdkeep⟩ := store_keepsBelow hinit (Nat.le_refl e)
          have hword := wordAt_store hinit (headerWord_lt hid hfits)
          have hlen : lenAt d e = some (4 + payload) :=
            lenAt_eq_some.mpr ⟨_, hword, headerWord_mod hfits⟩
          rw [← hdbuf] at hfill
          obtain ⟨hbuf, hfkeep⟩ := blobFillPad_spec hfill hlen
          refine ⟨by rw [hbuf, hdbuf], (hkeep.trans hdkeep).trans (hfkeep.mono (by omega)), ?_⟩
          exact hfkeep.wordAt (by omega) hword

/-- `blob_new` behind `n` bytes of the innermost container. -/
theorem blobNew_spec (hnew : blobNew b id payload = some (some attr, b'))
    (hhead : b.head = b.buf + h) (hlen : lenAt b h = some n) (hmin : 4 ≤ n)
    (hfits : 4 + payload < 2 ^ 24) :
    attr = b'.buf + (h + alignUp 4 n) ∧ KeepsBelow h b b' ∧
      lenAt b' h = some ((alignUp 4 n + alignUp 4 (4 + payload)) % 2 ^ 24) ∧
      wordAt b' (h + alignUp 4 n) = some (headerWord false (id % 2 ^ 7) (4 + payload)) := by
  have hle := le_alignUp_four n
  unfold blobNew at hnew
  rw [hhead, padLen_of_lenAt hlen, Option.bind_some, Nat.add_assoc] at hnew
  obtain ⟨⟨at', c⟩, hadd, hnew⟩ := Option.bind_eq_some_iff.mp hnew
  cases at' with
  | none => cases hnew
  | some at' =>
      obtain ⟨hat, hkeep, hword⟩ := blobAdd_spec hadd hfits
      have hchead : c.head = c.buf + h := hkeep.head hhead
      have hclen : lenAt c h = some n := hkeep.lenAt (by omega) hlen
      have hown : lenAt c (h + alignUp 4 n) = some (4 + payload) :=
        lenAt_eq_some.mpr ⟨_, hword, headerWord_mod hfits⟩
      subst hat
      simp only [hchead, padLen_of_lenAt hclen, padLen_of_lenAt hown, Option.bind_some] at hnew
      obtain ⟨d, hset, hres⟩ := Option.map_eq_some_iff.mp hnew
      cases hres
      obtain ⟨hbuf, hskeep, hsfrom, hslen⟩ := blobSetRawLen_spec hset
      exact ⟨by rw [hbuf], (hkeep.mono (by omega)).trans hskeep, hslen,
        hsfrom.wordAt (by omega) hword⟩

/-- The data of a named attribute lies behind the header its name length asks for. -/
theorem blobmsgDataOffset_of_fields {w len : Nat} (hword : wordAt b e = some w)
    (hext : w / 2 ^ 31 % 2 = 1) (hname : namelenAt b e = some len) :
    blobmsgDataOffset (b.ptr (b.buf + e)) = some (blobmsgHdrlen len) := by
  unfold wordAt at hword
  unfold namelenAt at hname
  simp only [blobmsgDataOffset, blobIsExtended, hword, Option.map_some, Option.bind_some, hext,
    hname, decide_true, if_true]

/-- What `blobmsg_new` leaves behind `n` bytes of the innermost container. -/
structure Named (b b' : BlobBuf) (h n namelen payload : Nat) : Prop where
  keeps : KeepsBelow h b b'
  head : b'.head = b'.buf + h
  container : lenAt b' h
    = some ((alignUp 4 n + alignUp 4 (4 + (blobmsgHdrlen namelen + payload))) % 2 ^ 24)
  own : lenAt b' (h + alignUp 4 n) = some (4 + (blobmsgHdrlen namelen + payload))
  name : namelenAt b' (h + alignUp 4 n) = some namelen

theorem Named.keep {b'' : BlobBuf} {namelen k : Nat} (hn : Named b b' h n namelen payload)
    (hmin : 4 ≤ n) (hkeep : KeepsBelow k b' b'') (hk : h + alignUp 4 n + 6 ≤ k) :
    Named b b'' h n namelen payload := by
  have hle := le_alignUp_four n
  exact ⟨hn.keeps.trans (hkeep.mono (by omega)), hkeep.head hn.head,
    hkeep.lenAt (by omega) hn.container, hkeep.lenAt (by omega) hn.own,
    hkeep.namelenAt (by omega) hn.name⟩

theorem blobmsgNew_spec {type : Nat} {name : Option Mem} {data : Nat}
    (hnew : blobmsgNew b type name payload = some (some (attr, data), b'))
    (hhead : b.head = b.buf + h) (hlen : lenAt b h = some n) (hmin : 4 ≤ n)
    (hname : (name.getD []).length < 2 ^ 16)
    (hfits : 4 + (blobmsgHdrlen (name.getD []).length + payload) < 2 ^ 24) :
    attr = b'.buf + (h + alignUp 4 n) ∧
      data = b'.buf + (h + alignUp 4 n + 4 + blobmsgHdrlen (name.getD []).length) ∧
      Named b b' h n (name.getD []).length payload := by
  have hle := le_alignUp_four n
  unfold blobmsgNew at hnew
  generalize hbytes : name.getD [] = bytes at *
  obtain ⟨⟨at', c⟩, hadd, hnew⟩ := Option.bind_eq_some_iff.mp hnew
  cases at' with
  | none => cases hnew
  | some at' =>
      obtain ⟨hat, hckeep, hclen, hcword⟩ := blobNew_spec hadd hhead hlen hmin hfits
      subst hat
      obtain ⟨w, hw, hnew⟩ := Option.bind_eq_some_iff.mp hnew
      obtain rfl : w = headerWord false (type % 2 ^ 7)
          (4 + (blobmsgHdrlen bytes.length + payload)) := Option.some.inj (hw.symm.trans hcword)
      have hid : type % 2 ^ 7 < 2 ^ 7 := Nat.mod_lt _ (by decide)
      -- the extended flag
      obtain ⟨c₁, hflag, hnew⟩ := Option.bind_eq_some_iff.mp hnew
      obtain ⟨hbuf₁, hkeep₁⟩ := store_keepsBelow hflag (Nat.le_refl _)
      have hword₁ := wordAt_store hflag (by omega)
      generalize hv : headerWord false (type % 2 ^ 7)
          (4 + (blobmsgHdrlen bytes.length + payload)) % 2 ^ 31 + 2 ^ 31 = v at hword₁
      have hvmod : v % 2 ^ 24 = 4 + (blobmsgHdrlen bytes.length + payload) := by
        have := @headerWord_mod false (type % 2 ^ 7) _ hfits
        omega
      have hvext : v / 2 ^ 31 % 2 = 1 := by omega
      -- the name length
      obtain ⟨c₂, hnl, hnew⟩ := Option.bind_eq_some_iff.mp hnew
      rw [← hbuf₁, Nat.add_assoc c₁.buf] at hnl
      obtain ⟨hbuf₂, hkeep₂⟩ := store_keepsBelow hnl (Nat.le_refl _)
      have hname₂ := namelenAt_store hnl hname
      -- the name
      obtain ⟨c₃, htext, hnew⟩ := Option.bind_eq_some_iff.mp hnew
      rw [← hbuf₁, ← hbuf₂, Nat.add_assoc c₂.buf] at htext
      obtain ⟨hbuf₃, hkeep₃⟩ := store_keepsBelow htext (Nat.le_refl _)
      have hword₃ := hkeep₃.wordAt (by omega) (hkeep₂.wordAt (Nat.le_refl _) hword₁)
      have hname₃ := hkeep₃.namelenAt (Nat.le_refl _) hname₂
      have hnamed : Named b c₃ h n bytes.length payload := by
        have hkeep : KeepsBelow (h + alignUp 4 n) c c₃ :=
          (hkeep₁.trans (hkeep₂.mono (by omega))).trans (hkeep₃.mono (by omega))
        exact ⟨hckeep.trans (hkeep.mono (by omega)), hkeep.head (hckeep.head hhead),
          hkeep.lenAt (by omega) hclen, lenAt_eq_some.mpr ⟨v, hword₃, hvmod⟩, hname₃⟩
      rw [← hbuf₁, ← hbuf₂, ← hbuf₃] at hnew
      rw [blobmsgDataOffset_of_fields hword₃ hvext hname₃, Option.bind_some] at hnew
      -- the zeros behind the name
      obtain ⟨c₄, hpad, hres⟩ := Option.map_eq_some_iff.mp hnew
      cases hres
      split at hpad
      · rw [Nat.add_assoc, Nat.add_assoc] at hpad
        obtain ⟨hbuf₄, hkeep₄⟩ := @store_keepsBelow _ _ (h + alignUp 4 n + 6) _ _ hpad (by omega)
        refine ⟨by rw [hbuf₄], by rw [hbuf₄]; omega, hnamed.keep hmin hkeep₄ (Nat.le_refl _)⟩
      · cases hpad
        exact ⟨rfl, by omega, hnamed⟩

end Adding

/-! ## What the fields have to say -/

/-- The offset of a container inside the given ones: the header word of the
next container is the last thing each of them counts. -/
def start : List Nat → Nat
  | [] => 0
  | n :: outer => start outer + (n - 4)

/-- The true lengths of the open containers, innermost first.  One with an open
child counts up to the header word of that child. -/
structure Lengths where
  inner : Nat
  outer : List Nat
  inner_min : 4 ≤ inner
  outer_min : ∀ n ∈ outer, 8 ≤ n
  outer_mod : ∀ n ∈ outer, n % 4 = 0

namespace Lengths

/-- Where the next attribute goes. -/
def stop (s : Lengths) : Nat := start s.outer + alignUp 4 s.inner

/-- An attribute of `k` bytes more in the innermost container. -/
def add (s : Lengths) (k : Nat) : Lengths :=
  { s with
    inner := alignUp 4 s.inner + k
    inner_min := by
      have := s.inner_min
      have := le_alignUp_four s.inner
      omega }

/-- A new innermost container with `k` bytes in front of its children. -/
def open' (s : Lengths) (k : Nat) : Lengths where
  inner := 4 + k
  outer := (alignUp 4 s.inner + 4) :: s.outer
  inner_min := by omega
  outer_min := by
    have := s.inner_min
    have := le_alignUp_four s.inner
    simpa using ⟨by omega, s.outer_min⟩
  outer_mod := by
    have := alignUp_four_mod s.inner
    simpa using ⟨by omega, s.outer_mod⟩

/-- The innermost container is complete. -/
def close (s : Lengths) : Lengths :=
  match houter : s.outer with
  | [] => s
  | n :: outer =>
      { inner := n + (s.inner - 4)
        outer := outer
        inner_min := by
          have := s.outer_min n (by rw [houter]; exact List.mem_cons_self)
          omega
        outer_min := fun m hm => s.outer_min m (by rw [houter]; exact List.mem_cons_of_mem n hm)
        outer_mod := fun m hm => s.outer_mod m (by rw [houter]; exact List.mem_cons_of_mem n hm) }

end Lengths

/-- The fields of the containers around the innermost one. -/
def StoresOuter (b : BlobBuf) : List Nat → Prop
  | [] => True
  | n :: outer => lenAt b (start outer) = some n ∧ StoresOuter b outer

/-- Every open container's field holds its true length. -/
structure Stores (b : BlobBuf) (s : Lengths) : Prop where
  head : b.head = b.buf + start s.outer
  inner : lenAt b (start s.outer) = some s.inner
  outer : StoresOuter b s.outer

theorem StoresOuter.keep {b b' : BlobBuf} {outer : List Nat} {e : Nat} (h : StoresOuter b outer)
    (hkeep : KeepsBelow e b b') (hmin : ∀ n ∈ outer, 8 ≤ n) (he : start outer ≤ e) :
    StoresOuter b' outer := by
  induction outer with
  | nil => trivial
  | cons n outer ih =>
      have hn := hmin n List.mem_cons_self
      simp only [start] at he
      exact ⟨hkeep.lenAt (by omega) h.1,
        ih h.2 (fun m hm => hmin m (List.mem_cons_of_mem n hm)) (by omega)⟩

theorem StoresOuter.withHead {b : BlobBuf} {outer : List Nat} (h : StoresOuter b outer)
    (head : Nat) : StoresOuter { b with head := head } outer := by
  induction outer with
  | nil => trivial
  | cons n outer ih => exact ⟨h.1, ih h.2⟩

theorem StoresOuter.lt {b : BlobBuf} {outer : List Nat} (h : StoresOuter b outer) :
    ∀ n ∈ outer, n < 2 ^ 24 := by
  induction outer with
  | nil => simp
  | cons n outer ih => simpa using ⟨lenAt_lt h.1, ih h.2⟩

/-! ## The calls -/

/-- A call that adds to the innermost container or closes it.  The text of
`blobmsg_add_string_buffer` is what the caller left in the buffer. -/
inductive Call where
  | blobNew (id payload : Nat)
  | blobPut (id : Nat) (data : Mem)
  | blobPutRaw (data : Mem)
  | blobNestEnd
  | blobmsgAddField (type : Nat) (name : Option Mem) (data : Mem)
  | blobmsgOpenNested (name : Option Mem) (array : Bool)
  | blobmsgAddStringBuffer (name text : Mem)

/-- The open string buffer at offset `e`: all of its attribute but the text is
counted. -/
structure Buffered (b : BlobBuf) (e : Nat) (name text : Mem) : Prop where
  len : lenAt b e = some (4 + blobmsgHdrlen name.length)
  namelen : namelenAt b e = some name.length
  data : blobmsgDataOffset (b.ptr (b.buf + e)) = some (blobmsgHdrlen name.length)
  text : cString (b.ptr (b.buf + e + 4 + blobmsgHdrlen name.length)) = some text

namespace Call

/-- The call on a buffer; `true` where it reports success or cannot fail.  The
cookie of `blob_nest_end` is the one of the container it closes. -/
def run (s : Lengths) (b : BlobBuf) : Call → Option (Bool × BlobBuf)
  | blobNew id payload => (Blob.blobNew b id payload).map fun (attr, b) => (attr.isSome, b)
  | blobPut id data => (Blob.blobPut b id data).map fun (attr, b) => (attr.isSome, b)
  | blobPutRaw data => (Blob.blobPutRaw b data).map fun (attr, b) => (attr.isSome, b)
  | blobNestEnd => (Blob.blobNestEnd b (start s.outer.tail)).map fun b => (true, b)
  | blobmsgAddField type name data => Blobmsg.blobmsgAddField b type name data
  | blobmsgOpenNested name array =>
      (Blobmsg.blobmsgOpenNested b name array).map fun (cookie, b) => (cookie.isSome, b)
  | blobmsgAddStringBuffer _ _ => (Blobmsg.blobmsgAddStringBuffer b).map fun b => (true, b)

/-- What the call needs of its caller: a container to close, an open string buffer. -/
def Allowed (s : Lengths) (b : BlobBuf) : Call → Prop
  | blobNestEnd => s.outer ≠ []
  | blobmsgAddStringBuffer name text => s.inner % 4 = 0 ∧ Buffered b s.stop name text
  | _ => True

/-- The true lengths after the call. -/
def after (s : Lengths) : Call → Lengths
  | blobNew _ payload => s.add (4 + alignUp 4 payload)
  | blobPut id data => s.add (attrBytes false id data).length
  | blobPutRaw data => s.add data.length
  | blobNestEnd => s.close
  | blobmsgAddField _ name data =>
      s.add (4 + blobmsgHdrlen (name.getD []).length + alignUp 4 data.length)
  | blobmsgOpenNested name _ => s.open' (blobmsgHdrlen (name.getD []).length)
  | blobmsgAddStringBuffer name text =>
      s.add (4 + blobmsgHdrlen name.length + alignUp 4 (text.length + 1))

/-- The true length of the name the call stores. -/
def nameLength : Call → Option Nat
  | blobmsgAddField _ name _ => some (name.getD []).length
  | blobmsgOpenNested name _ => some (name.getD []).length
  | blobmsgAddStringBuffer name _ => some name.length
  | _ => none

/-- The fields of the buffer after the call are right. -/
def Enforced (s : Lengths) (b' : BlobBuf) (c : Call) : Prop :=
  Stores b' (c.after s) ∧ ∀ len, c.nameLength = some len → namelenAt b' s.stop = some len

/-- Every length fits its field. -/
def Fits (s : Lengths) (c : Call) : Prop :=
  (c.after s).inner < 2 ^ 24 ∧ (∀ n ∈ (c.after s).outer, n < 2 ^ 24) ∧
    ∀ len, c.nameLength = some len → len < 2 ^ 16

theorem fits_of_enforced {s : Lengths} {b' : BlobBuf} {c : Call} (h : c.Enforced s b') :
    c.Fits s :=
  ⟨lenAt_lt h.1.inner, h.1.outer.lt, fun len hlen => namelenAt_lt (h.2 len hlen)⟩

end Call

/-! ## What each call leaves -/

section Calls

variable {b b' : BlobBuf} {s : Lengths}

theorem Stores.add {k : Nat} (h : Stores b s) (hkeep : KeepsBelow (start s.outer) b b')
    (hinner : lenAt b' (start s.outer) = some (alignUp 4 s.inner + k)) : Stores b' (s.add k) :=
  ⟨hkeep.head h.head, hinner, h.outer.keep hkeep s.outer_min (Nat.le_refl _)⟩

theorem Stores.blobNew {id payload attr : Nat} (h : Stores b s)
    (hrun : blobNew b id payload = some (some attr, b'))
    (hfits : (s.add (4 + alignUp 4 payload)).inner < 2 ^ 24) :
    attr = b'.buf + s.stop ∧ Stores b' (s.add (4 + alignUp 4 payload)) := by
  have hle := le_alignUp_four payload
  have hfits : alignUp 4 s.inner + (4 + alignUp 4 payload) < 2 ^ 24 := hfits
  obtain ⟨hattr, hkeep, hlen, -⟩ :=
    blobNew_spec hrun h.head h.inner s.inner_min (by omega)
  rw [alignUp_four_add, Nat.mod_eq_of_lt hfits] at hlen
  exact ⟨hattr, h.add hkeep hlen⟩

/-- Bytes behind the containers' headers do not matter. -/
theorem Stores.keep (h : Stores b s) {e : Nat} (hkeep : KeepsBelow e b b')
    (hle : start s.outer + 4 ≤ e) : Stores b' s :=
  ⟨hkeep.head h.head, hkeep.lenAt hle h.inner, h.outer.keep hkeep s.outer_min (by omega)⟩

theorem Lengths.start_lt_stop (s : Lengths) : start s.outer + 4 ≤ s.stop := by
  have := s.inner_min
  have := le_alignUp_four s.inner
  unfold Lengths.stop
  omega

theorem Stores.blobPut {id : Nat} {data : Mem} {attr : Nat} (h : Stores b s)
    (hrun : blobPut b id data = some (some attr, b'))
    (hfits : (s.add (attrBytes false id data).length).inner < 2 ^ 24) :
    Stores b' (s.add (attrBytes false id data).length) := by
  rw [attrBytes_length] at hfits ⊢
  obtain ⟨⟨at', c⟩, hnew, hrun⟩ := Option.bind_eq_some_iff.mp hrun
  cases at' with
  | none => cases hrun
  | some at' =>
      obtain ⟨d, hstore, hres⟩ := Option.map_eq_some_iff.mp hrun
      cases hres
      obtain ⟨hattr, hc⟩ := h.blobNew hnew hfits
      subst hattr
      rw [Nat.add_assoc] at hstore
      obtain ⟨-, hkeep⟩ := store_keepsBelow hstore (Nat.le_refl _)
      have := s.start_lt_stop
      exact hc.keep hkeep (by simp only [Lengths.add]; omega)

theorem Stores.blobPutRaw {data : Mem} {attr : Nat} (h : Stores b s)
    (hrun : blobPutRaw b data = some (some attr, b'))
    (hfits : (s.add data.length).inner < 2 ^ 24) : Stores b' (s.add data.length) := by
  have hfits : alignUp 4 s.inner + data.length < 2 ^ 24 := hfits
  have hstop := s.start_lt_stop
  unfold Blob.blobPutRaw at hrun
  split at hrun
  · cases hrun
  rw [h.head, padLen_of_lenAt h.inner, Option.bind_some, Nat.add_assoc] at hrun
  obtain ⟨⟨at', c⟩, hadd, hrun⟩ := Option.bind_eq_some_iff.mp hrun
  cases at' with
  | none => cases hrun
  | some at' =>
      obtain ⟨hattr, hkeep, -⟩ := blobAdd_spec hadd (by omega)
      subst hattr
      have hc : Stores c s := h.keep hkeep hstop
      simp only [hc.head, padLen_of_lenAt hc.inner, Option.bind_some] at hrun
      obtain ⟨d, hset, hrun⟩ := Option.bind_eq_some_iff.mp hrun
      obtain ⟨e, hstore, hres⟩ := Option.map_eq_some_iff.mp hrun
      cases hres
      obtain ⟨hbuf, hskeep, -, hslen⟩ := blobSetRawLen_spec hset
      rw [Nat.mod_eq_of_lt hfits] at hslen
      rw [← hbuf] at hstore
      obtain ⟨-, hekeep⟩ := store_keepsBelow hstore hstop
      exact (hc.add hskeep hslen).keep hekeep (Nat.le_refl _)

theorem Stores.blobNestEnd (h : Stores b s) (houter : s.outer ≠ [])
    (hrun : blobNestEnd b (start s.outer.tail) = some b') (hfits : s.close.inner < 2 ^ 24) :
    Stores b' s.close := by
  obtain ⟨inner, outer, hinner, hmin, hmod⟩ := s
  cases outer with
  | nil => exact absurd rfl houter
  | cons n outer =>
      have hn := hmod n List.mem_cons_self
      have hfits : n + (inner - 4) < 2 ^ 24 := hfits
      obtain ⟨hhead, hlen, hparent, hrest⟩ := h
      obtain ⟨w, hw, hwlen⟩ := lenAt_eq_some.mp hlen
      have hbody : blobLen (b.ptr b.head) = some (inner - 4) := by
        rw [hhead, blobLen_eq hw (by rw [hwlen]; exact hinner), hwlen]
      simp only [Blob.blobNestEnd, offsetToAttr, List.tail_cons, padLen_of_lenAt hparent, hbody,
        Option.bind_some, alignUp_four_of_mod hn] at hrun
      obtain ⟨c, hset, hres⟩ := Option.map_eq_some_iff.mp hrun
      cases hres
      obtain ⟨hbuf, hkeep, -, hslen⟩ := blobSetRawLen_spec hset
      rw [Nat.mod_eq_of_lt hfits] at hslen
      refine ⟨by rw [← hbuf]; rfl, hslen, ?_⟩
      exact (hrest.keep hkeep (fun m hm => hmin m (List.mem_cons_of_mem n hm))
        (Nat.le_refl _)).withHead _

/-- Where an attribute behind the innermost container starts, what `blobmsg_new`
needs of the true lengths. -/
theorem Stores.blobmsgNew {type : Nat} {name : Option Mem} {payload attr data : Nat}
    (h : Stores b s)
    (hrun : blobmsgNew b type name payload = some (some (attr, data), b'))
    (hname : (name.getD []).length < 2 ^ 16)
    (hfits : 4 + (blobmsgHdrlen (name.getD []).length + payload) < 2 ^ 24) :
    attr = b'.buf + s.stop ∧
      data = b'.buf + (s.stop + 4 + blobmsgHdrlen (name.getD []).length) ∧
      Named b b' (start s.outer) s.inner (name.getD []).length payload :=
  blobmsgNew_spec hrun h.head h.inner s.inner_min hname hfits

theorem four_le_blobmsgHdrlen (n : Nat) : 4 ≤ blobmsgHdrlen n := by
  have := lt_blobmsgHdrlen n
  have := blobmsgHdrlen_mod n
  omega

theorem Stores.blobmsgAddField {type : Nat} {name : Option Mem} {data : Mem} (h : Stores b s)
    (hrun : blobmsgAddField b type name data = some (true, b'))
    (hname : (name.getD []).length < 2 ^ 16)
    (hfits : (s.add (4 + blobmsgHdrlen (name.getD []).length + alignUp 4 data.length)).inner
      < 2 ^ 24) :
    Stores b' (s.add (4 + blobmsgHdrlen (name.getD []).length + alignUp 4 data.length)) ∧
      namelenAt b' s.stop = some (name.getD []).length := by
  have hle := le_alignUp_four data.length
  have hhdr := blobmsgHdrlen_mod (name.getD []).length
  have hhdrmin := four_le_blobmsgHdrlen (name.getD []).length
  have hfits : alignUp 4 s.inner
      + (4 + blobmsgHdrlen (name.getD []).length + alignUp 4 data.length) < 2 ^ 24 := hfits
  have halign : alignUp 4 (4 + (blobmsgHdrlen (name.getD []).length + data.length))
      = 4 + blobmsgHdrlen (name.getD []).length + alignUp 4 data.length := by
    unfold alignUp
    omega
  obtain ⟨⟨field, c⟩, hnew, hrun⟩ := Option.bind_eq_some_iff.mp hrun
  cases field with
  | none => cases hrun
  | some field =>
      obtain ⟨attr, dest⟩ := field
      obtain ⟨hattr, hdest, hc⟩ := h.blobmsgNew hnew hname (by omega)
      subst hattr hdest
      have hb : Named b b' (start s.outer) s.inner (name.getD []).length data.length := by
        dsimp only at hrun
        split at hrun
        · obtain ⟨d, hstore, hres⟩ := Option.map_eq_some_iff.mp hrun
          cases hres
          obtain ⟨-, hkeep⟩ := store_keepsBelow hstore (Nat.le_refl _)
          apply hc.keep s.inner_min hkeep
          unfold Lengths.stop
          omega
        · cases hrun
          exact hc
      have hinner := hb.container
      rw [halign, Nat.mod_eq_of_lt hfits] at hinner
      exact ⟨h.add hb.keeps hinner, hb.name⟩

theorem Stores.blobmsgOpenNested {name : Option Mem} {array : Bool} {cookie : Nat} (h : Stores b s)
    (hrun : blobmsgOpenNested b name array = some (some cookie, b'))
    (hname : (name.getD []).length < 2 ^ 16)
    (hfits : alignUp 4 s.inner + 4 < 2 ^ 24) :
    Stores b' (s.open' (blobmsgHdrlen (name.getD []).length)) ∧
      namelenAt b' s.stop = some (name.getD []).length := by
  have hhdr := blobmsgHdrlen_mod (name.getD []).length
  have hhdrmin := four_le_blobmsgHdrlen (name.getD []).length
  have hhdrmax := blobmsgHdrlen_le (name.getD []).length
  unfold Blobmsg.blobmsgOpenNested at hrun
  obtain ⟨⟨field, c⟩, hnew, hrun⟩ := Option.bind_eq_some_iff.mp hrun
  cases field with
  | none => cases hrun
  | some field =>
      obtain ⟨attr, dest⟩ := field
      obtain ⟨hattr, -, hc⟩ := h.blobmsgNew hnew hname (by simp only [Option.getD_some]; omega)
      simp only [Option.getD_some] at hc
      subst hattr
      simp only [hc.head, padLen_of_lenAt hc.container, Option.bind_some] at hrun
      obtain ⟨d, hset, hres⟩ := Option.map_eq_some_iff.mp hrun
      cases hres
      obtain ⟨hbuf, hkeep, hfrom, hlen⟩ := blobSetRawLen_spec hset
      -- the sum may wrap in between; the difference is right again
      have hfield : unsignedSub (alignUp 4 ((alignUp 4 s.inner
          + alignUp 4 (4 + (blobmsgHdrlen (name.getD []).length + 0))) % 2 ^ 24))
          (blobmsgHdrlen (name.getD []).length) % 2 ^ 24 = alignUp 4 s.inner + 4 := by
        unfold unsignedSub alignUp at *
        omega
      rw [hfield] at hlen
      have hstop := s.start_lt_stop
      have hown : lenAt d s.stop = some (4 + blobmsgHdrlen (name.getD []).length) :=
        hfrom.lenAt hstop hc.own
      refine ⟨⟨?_, hown, hlen, ?_⟩, hfrom.namelenAt (by omega) hc.name⟩
      · rw [← hbuf]
        rfl
      · exact (h.outer.keep (hc.keeps.trans hkeep) s.outer_min (Nat.le_refl _)).withHead _

theorem Stores.blobmsgAddStringBuffer {name text : Mem} (h : Stores b s) (hmod : s.inner % 4 = 0)
    (hopen : Buffered b s.stop name text) (hrun : blobmsgAddStringBuffer b = some b')
    (hfits : (s.add (4 + blobmsgHdrlen name.length + alignUp 4 (text.length + 1))).inner
      < 2 ^ 24) :
    Stores b' (s.add (4 + blobmsgHdrlen name.length + alignUp 4 (text.length + 1))) ∧
      namelenAt b' s.stop = some name.length := by
  have hle := le_alignUp_four (text.length + 1)
  have hhdr := blobmsgHdrlen_mod name.length
  have hhdrmin := four_le_blobmsgHdrlen name.length
  have hstop := s.start_lt_stop
  have hfits : alignUp 4 s.inner
      + (4 + blobmsgHdrlen name.length + alignUp 4 (text.length + 1)) < 2 ^ 24 := hfits
  have halign : alignUp 4 (4 + blobmsgHdrlen name.length + (text.length + 1))
      = 4 + blobmsgHdrlen name.length + alignUp 4 (text.length + 1) := by
    unfold alignUp
    omega
  have hnext : blobNextHead b = some (b.buf + s.stop) := by
    rw [blobNextHead, h.head, padLen_of_lenAt h.inner, Option.map_some, Nat.add_assoc]
    rfl
  have hdata : blobmsgDataAt b (b.buf + s.stop)
      = some (b.buf + s.stop + 4 + blobmsgHdrlen name.length) := by
    rw [blobmsgDataAt, hopen.data, Option.map_some]
  have hraw : blobRawLen (b.ptr (b.buf + s.stop)) = some (4 + blobmsgHdrlen name.length) := hopen.len
  rw [Blobmsg.blobmsgAddStringBuffer, hnext, Option.bind_some, hdata, Option.bind_some, hopen.text,
    Option.bind_some, hraw, Option.bind_some] at hrun
  -- the attribute's own length and padding
  obtain ⟨c, hset, hrun⟩ := Option.bind_eq_some_iff.mp hrun
  obtain ⟨hbuf, hkeep, hfrom, hlen⟩ := blobSetRawLen_spec hset
  rw [Nat.mod_eq_of_lt (by omega)] at hlen
  obtain ⟨d, hfill, hrun⟩ := Option.bind_eq_some_iff.mp hrun
  rw [← hbuf] at hfill
  obtain ⟨hdbuf, hdkeep⟩ := blobFillPad_spec hfill hlen
  have hd : Stores d s := (h.keep hkeep hstop).keep hdkeep (by omega)
  have hname := hdkeep.namelenAt (by omega) (hfrom.namelenAt (Nat.le_refl _) hopen.namelen)
  have hown := hdkeep.lenAt (by omega) hlen
  -- the container counts it
  have hinner : blobRawLen (d.ptr (d.buf + start s.outer)) = some s.inner := hd.inner
  rw [hd.head, hinner, Option.bind_some, ← hbuf, ← hdbuf, padLen_of_lenAt hown, Option.bind_some,
    halign] at hrun
  obtain ⟨-, hbkeep, hbfrom, hblen⟩ := blobSetRawLen_spec hrun
  have haligned : alignUp 4 s.inner = s.inner := alignUp_four_of_mod hmod
  rw [← haligned, Nat.mod_eq_of_lt hfits] at hblen
  exact ⟨hd.add hbkeep hblen, hbfrom.namelenAt (by omega) hname⟩

end Calls

/-! ## The limits -/

/-- What a successful call leaves when every length fits its field, call by call. -/
theorem Call.enforced_of_fits {b b' : BlobBuf} {s : Lengths} {c : Call} (h : Stores b s)
    (hallowed : c.Allowed s b) (hrun : c.run s b = some (true, b')) (hfits : c.Fits s) :
    c.Enforced s b' := by
  obtain ⟨hinner, houter, hname⟩ := hfits
  cases c with
  | blobNew id payload =>
      obtain ⟨⟨attr, c⟩, hnew, hres⟩ := Option.map_eq_some_iff.mp hrun
      cases attr <;> cases hres
      exact ⟨(h.blobNew hnew hinner).2, by intro len hlen; cases hlen⟩
  | blobPut id data =>
      obtain ⟨⟨attr, c⟩, hput, hres⟩ := Option.map_eq_some_iff.mp hrun
      cases attr <;> cases hres
      exact ⟨h.blobPut hput hinner, by intro len hlen; cases hlen⟩
  | blobPutRaw data =>
      obtain ⟨⟨attr, c⟩, hput, hres⟩ := Option.map_eq_some_iff.mp hrun
      cases attr <;> cases hres
      exact ⟨h.blobPutRaw hput hinner, by intro len hlen; cases hlen⟩
  | blobNestEnd =>
      obtain ⟨c, hend, hres⟩ := Option.map_eq_some_iff.mp hrun
      cases hres
      exact ⟨h.blobNestEnd hallowed hend hinner, by intro len hlen; cases hlen⟩
  | blobmsgAddField type name data =>
      obtain ⟨hstores, hnamelen⟩ := h.blobmsgAddField hrun (hname _ rfl) hinner
      refine ⟨hstores, ?_⟩
      intro len hlen
      cases hlen
      exact hnamelen
  | blobmsgOpenNested name array =>
      obtain ⟨⟨cookie, c⟩, hopen, hres⟩ := Option.map_eq_some_iff.mp hrun
      cases cookie <;> cases hres
      obtain ⟨hstores, hnamelen⟩ :=
        h.blobmsgOpenNested hopen (hname _ rfl) (houter _ List.mem_cons_self)
      refine ⟨hstores, ?_⟩
      intro len hlen
      cases hlen
      exact hnamelen
  | blobmsgAddStringBuffer name text =>
      obtain ⟨c, hadd, hres⟩ := Option.map_eq_some_iff.mp hrun
      cases hres
      obtain ⟨hstores, hnamelen⟩ :=
        h.blobmsgAddStringBuffer hallowed.1 hallowed.2 hadd hinner
      refine ⟨hstores, ?_⟩
      intro len hlen
      cases hlen
      exact hnamelen

/-- The encoder checks no limit: a call that succeeds leaves the fields right
exactly when every length fits its field. -/
theorem sizes_enforced_iff {b b' : BlobBuf} {s : Lengths} {c : Call} (h : Stores b s)
    (hallowed : c.Allowed s b) (hrun : c.run s b = some (true, b')) :
    c.Enforced s b' ↔ c.Fits s := by
  constructor
  · intro henforced
    exact Call.fits_of_enforced henforced
  · intro hfits
    exact Call.enforced_of_fits h hallowed hrun hfits

/-- The lengths right after `blob_buf_init`. -/
def Lengths.root : Lengths where
  inner := 4
  outer := []
  inner_min := by decide
  outer_min := by simp
  outer_mod := by simp

theorem lenAt_root {b : BlobBuf} {len : Nat} {rest : Mem} (hlen : len < 2 ^ 24)
    (hmem : b.mem = header false 0 len ++ rest) : lenAt b 0 = some len := by
  unfold lenAt BlobBuf.ptr
  rw [Nat.add_sub_cancel_left, List.drop_zero, hmem, blobRawLen_header (by decide) hlen]

/-- A field named `a` in an empty message, in a block with room for it. -/
theorem sizes_enforced_iff_field :
    ∃ b', (Call.blobmsgAddField blobmsgTypeInt8 (some [97]) [1]).run .root
        ⟨0, 0, header false 0 4 ++ List.replicate 20 0, fun _ => none⟩ = some (true, b') ∧
      ((Call.blobmsgAddField blobmsgTypeInt8 (some [97]) [1]).Enforced .root b'
        ↔ (Call.blobmsgAddField blobmsgTypeInt8 (some [97]) [1]).Fits .root) := by
  have hok : ((Call.blobmsgAddField blobmsgTypeInt8 (some [97]) [1]).run .root
      ⟨0, 0, header false 0 4 ++ List.replicate 20 0, fun _ => none⟩).map Prod.fst
        = some true := by decide
  obtain ⟨⟨ok, b'⟩, hrun, rfl⟩ := Option.map_eq_some_iff.mp hok
  exact ⟨b', hrun, sizes_enforced_iff ⟨rfl, by decide, trivial⟩ trivial hrun⟩

/-- The length field of an attribute with 2^24 bytes of payload leaves them out. -/
theorem blobNew_wraps {b : BlobBuf} {word spare : Mem} {new payload : Nat}
    (hmem : b.mem = header false 0 4 ++ (word ++ spare)) (hword : word.length = 4)
    (hhead : b.head = b.buf) (hroom : b.mem.length < 8 + payload) (halloc : b.realloc 0 = some new)
    (hpayload : payload % 2 ^ 24 = 0) :
    ∃ b', blobNew b 0 payload = some (some (b'.buf + 4), b') ∧ lenAt b' 0 = some 8 := by
  have hptr : b.ptr b.head = header false 0 4 ++ (word ++ spare) :=
    @BlobBuf.ptr_eq b [] _ _ hmem (by rw [hhead]; rfl)
  have hpad : blobPadLen (b.ptr b.head) = some 4 := by
    rw [hptr, blobPadLen_header (by decide) (by decide)]
    rfl
  -- the block after it was grown
  obtain ⟨rest, hrest⟩ : ∃ rest, spare
      ++ List.replicate (((4 + 4 + payload - b.mem.length) / 256 + 1) * 256) 0 = rest := ⟨_, rfl⟩
  have hgrow : blobAddRoom b (b.buf + 4) payload
      = (some (new + 4), ⟨new, new, header false 0 4 ++ (word ++ rest), fun k => b.realloc (k + 1)⟩)
      := by
    simp only [blobAddRoom, attrToOffset, Nat.add_sub_cancel_left, BlobBuf.buflen, blobBufGrow,
      blobBufferGrow, halloc, offsetToAttr, hhead, Nat.sub_self, Nat.add_zero]
    rw [if_pos (by omega), ← hrest]
    have hcut : b.mem ++ List.replicate (((4 + 4 + payload - b.mem.length) / 256 + 1) * 256) 0
        = header false 0 4 ++ (word ++ (spare
          ++ List.replicate (((4 + 4 + payload - b.mem.length) / 256 + 1) * 256) 0)) := by
      rw [← List.append_assoc word, ← List.append_assoc, ← hmem]
    rw [hcut]
  -- the headers of the attribute and of the root
  have hinit : blobInit ⟨new, new, header false 0 4 ++ (word ++ rest), fun k => b.realloc (k + 1)⟩
      (new + 4) 0 (payload + 4)
      = some ⟨new, new, header false 0 4 ++ header false 0 4 ++ rest,
          fun k => b.realloc (k + 1)⟩ := by
    rw [blobInit, show (payload + 4) % 2 ^ 24 = 4 by omega]
    exact BlobBuf.store_eq (by rw [List.append_assoc]) (by simp) (by simpa using hword)
  have hfill : blobFillPad ⟨new, new, header false 0 4 ++ header false 0 4 ++ rest,
      fun k => b.realloc (k + 1)⟩ (new + 4)
      = some ⟨new, new, header false 0 4 ++ header false 0 4 ++ rest,
          fun k => b.realloc (k + 1)⟩ := by
    have h := @blobFillPad_eq ⟨new, new, header false 0 4 ++ header false 0 4 ++ rest,
      fun k => b.realloc (k + 1)⟩ (header false 0 4) [] [] rest false 0 (new + 4)
      (by simp) (by simp) (by decide) (by decide) rfl
    simpa [attrBytes, padding, alignUp] using h
  obtain ⟨c, hc⟩ : ∃ c : BlobBuf, c = ⟨new, new, header false 0 4 ++ header false 0 4 ++ rest,
    fun k => b.realloc (k + 1)⟩ := ⟨_, rfl⟩
  have hadd : blobAdd b (b.buf + 4) 0 payload = some (some (new + 4), c) := by
    rw [blobAdd, hgrow]
    simp only [hinit, Option.bind_some, hfill, Option.map_some, hc]
  have hroot : blobPadLen (c.ptr new) = some 4 := by
    have h := @BlobBuf.ptr_eq c [] (header false 0 4 ++ (header false 0 4 ++ rest)) new
      (by rw [hc]; simp) (by rw [hc]; rfl)
    rw [h, blobPadLen_header (by decide) (by decide)]
    rfl
  have hown : blobPadLen (c.ptr (new + 4)) = some 4 := by
    have h := @BlobBuf.ptr_eq c (header false 0 4) (header false 0 4 ++ rest) (new + 4)
      (by rw [hc]; simp) (by rw [hc]; simp)
    rw [h, blobPadLen_header (by decide) (by decide)]
    rfl
  have hset : blobSetRawLen c new 8
      = some { c with mem := header false 0 8 ++ (header false 0 4 ++ rest) } :=
    @blobSetRawLen_eq c [] (header false 0 4 ++ rest) false 0 4 new 8 (by rw [hc]; simp)
      (by rw [hc]; rfl) (by decide) (by decide) (by decide)
  refine ⟨{ c with mem := header false 0 8 ++ (header false 0 4 ++ rest) }, ?_, ?_⟩
  · have hchead : c.head = new := by rw [hc]
    have hcbuf : c.buf = new := by rw [hc]
    rw [blobNew, hpad, Option.bind_some, hhead, hadd]
    simp only [Option.bind_some, hchead, hroot, hown, hset, Option.map_some, hcbuf]
  · exact lenAt_root (by decide) rfl

/-- After `blob_buf_init`, `blob_new` of 2^24 bytes succeeds and the root
counts 8 bytes. -/
theorem not_sizes_enforced :
    ¬ ∀ (b : BlobBuf) (s : Lengths) (c : Call) (b' : BlobBuf), Stores b s → c.Allowed s b →
      c.run s b = some (true, b') → c.Enforced s b' := by
  intro hall
  obtain ⟨b', hnew, hlen⟩ := @blobNew_wraps
    ⟨0, 0, header false 0 4 ++ List.replicate 252 0, fun _ => some 0⟩ (List.replicate 4 0)
    (List.replicate 248 0) 0 (2 ^ 24) rfl rfl rfl
    (by rw [List.length_append, header_length, List.length_replicate]; decide) rfl (by decide)
  have hrun : (Call.blobNew 0 (2 ^ 24)).run .root
      ⟨0, 0, header false 0 4 ++ List.replicate 252 0, fun _ => some 0⟩ = some (true, b') := by
    rw [Call.run, hnew]
    rfl
  have hstores : Stores ⟨0, 0, header false 0 4 ++ List.replicate 252 0, fun _ => some 0⟩ .root :=
    ⟨rfl, lenAt_root (by decide) rfl, trivial⟩
  have henforced := hall _ .root (.blobNew 0 (2 ^ 24)) b' hstores trivial hrun
  have hinner : lenAt b' 0 = some (4 + (4 + alignUp 4 (2 ^ 24))) := henforced.1.inner
  rw [hlen] at hinner
  exact absurd hinner (by decide)

end Libubox.Blobmsg
