import Libubox.Json.Parse
import Libubox.PrintBuffer.Buffer

/-!
# Runs of a print buffer

In which runs the content is terminated in every state, and what
`json_object_from_fd` gives to the parser.
-/

namespace Libubox.PrintBuffer

open Bytes Json

/-! ## Runs -/

/-- The calls, with what the memory holds that they may have to allocate. -/
inductive Action where
  | memappend (buf : List UInt8)
  | memset (offset : Int) (charvalue : UInt8) (len : Nat)
  | sprintbuf (text : Option (List UInt8))
  | reset

/-- What a call does to the content. -/
def Action.apply (content : List UInt8) : Action → List UInt8
  | .memappend buf => content ++ buf
  | .memset offset charvalue len =>
      overwrite content (if offset = -1 then content.length else offset.toNat)
        (List.replicate len charvalue)
  | .sprintbuf text => content ++ text.getD []
  | .reset => []

/-- How many bytes a call stores. -/
def Action.bytes : Action → Nat
  | .memappend buf => buf.length
  | .memset _ _ len => len
  | .sprintbuf text => (text.getD []).length
  | .reset => 0

/-- A call whose allocations succeed. -/
def step (p : Printbuf) (a : Action × (Nat → UInt8)) : Option (Printbuf × Int) :=
  match a.1 with
  | .memappend buf => (printbufMemappend p buf (some a.2)).map Prod.swap
  | .memset offset charvalue len =>
      (printbufMemset p offset charvalue len (some a.2)).map Prod.swap
  | .sprintbuf text => (PrintBuffer.sprintbuf p text true (some a.2)).map Prod.swap
  | .reset => (printbufReset p).map fun p => (p, 0)

/-- `printbuf_memset` begins at -1 or inside of the content or at its end. -/
def Legal (p : Printbuf) (a : Action × (Nat → UInt8)) : Prop :=
  match a.1 with
  | .memset offset _ _ => offset = -1 ∨ 0 ≤ offset ∧ offset ≤ p.bpos
  | _ => True

/-- The step leaves a zero byte behind the content, if there was one.  Only
`printbuf_memset` may not: it has to end inside of the content, or at a byte that is in
the block and zero. -/
def Ends (p : Printbuf) (a : Action × (Nat → UInt8)) : Prop :=
  match a.1 with
  | .memset offset _ len => ∀ off, startOf p offset = some off → memsetEnds p (off + len) a.2
  | _ => True

variable {p : Printbuf} {content : List UInt8} {a : Action × (Nat → UInt8)}
  {as : List (Action × (Nat → UInt8))}

theorem startOf_legal {offset : Int} (h : offset = -1 ∨ 0 ≤ offset ∧ offset ≤ p.bpos) :
    ∃ off, startOf p offset = some off ∧ off ≤ p.bpos ∧
      off = if offset = -1 then p.bpos else offset.toNat := by
  rw [startOf]
  by_cases hend : offset = -1
  · exact ⟨p.bpos, if_pos hend, Nat.le_refl _, (if_pos hend).symm⟩
  · have hinside := h.resolve_left hend
    refine ⟨offset.toNat, ?_, by omega, (if_neg hend).symm⟩
    rw [if_neg hend, if_neg (by omega)]

/-- **One call.** -/
theorem step_spec (h : Keeps content p) (hlegal : Legal p a) (hint : p.bpos + a.1.bytes < 2 ^ 30) :
    ∃ p' e, step p a = some (p', e) ∧ Keeps (a.1.apply content) p' ∧
      p'.bpos ≤ p.bpos + a.1.bytes ∧ (Terminated p → (Terminated p' ↔ Ends p a)) := by
  obtain ⟨act, realloc⟩ := a
  cases act with
  | memappend buf =>
      obtain ⟨p', hcall, hkeeps, hpos, hterm⟩ := printbufMemappend_spec realloc h hint
      refine ⟨p', buf.length, ?_, hkeeps, hpos.le, fun _ => iff_of_true hterm trivial⟩
      simp only [step, hcall, Option.map_some, Prod.swap_prod_mk]
  | memset offset charvalue len =>
      obtain ⟨off, hstart, hoff, hval⟩ := startOf_legal hlegal
      have hint : p.bpos + len < 2 ^ 30 := hint
      obtain ⟨p', hcall, hkeeps, hpos, hterm⟩ := printbufMemset_spec charvalue realloc
        h hstart hoff (show off + len < 2 ^ 30 by omega)
      refine ⟨p', 0, ?_, ?_, ?_, fun hp => (hterm hp).trans ?_⟩
      · simp only [step, hcall, Option.map_some, Prod.swap_prod_mk]
      · rw [Action.apply, h.content_length, ← hval]
        exact hkeeps
      · rw [hpos]
        exact Nat.max_le.mpr ⟨Nat.le_add_right _ _, Nat.add_le_add_right hoff _⟩
      · constructor
        · intro hends off' hoff'
          rw [hstart] at hoff'
          rwa [← Option.some.inj hoff']
        · exact fun hends => hends off hstart
  | sprintbuf text =>
      cases text with
      | none =>
          refine ⟨p, -1, rfl, ?_, Nat.le_refl _, fun hp => iff_of_true hp trivial⟩
          rw [Action.apply, Option.getD_none, List.append_nil]
          exact h
      | some text =>
          have hint : p.bpos + text.length < 2 ^ 30 := hint
          obtain ⟨p', hcall, hkeeps, hpos, hterm⟩ :=
            printbufMemappend_spec realloc h hint
          refine ⟨p', text.length, ?_, hkeeps, hpos.le, fun _ => iff_of_true hterm trivial⟩
          simp only [step, PrintBuffer.sprintbuf, reduceCtorEq, and_false, if_false, hcall,
            Option.map_some, Prod.swap_prod_mk]
  | reset =>
      obtain ⟨p', hcall, hkeeps, hpos, hterm⟩ := printbufReset_spec h
      refine ⟨p', 0, ?_, hkeeps, by rw [hpos]; exact Nat.zero_le _,
        fun _ => iff_of_true hterm trivial⟩
      simp only [step, hcall, Option.map_some]

/-- How many bytes the calls store. -/
def total (as : List (Action × (Nat → UInt8))) : Nat := (as.map fun a => a.1.bytes).sum

/-- What the calls leave of a content. -/
def contents (content : List UInt8) (as : List (Action × (Nat → UInt8))) : List UInt8 :=
  as.foldl (fun content a => a.1.apply content) content

/-- In every state of a run the content is in the buffer, with a zero byte behind it. -/
def Sound (p : Printbuf) (content : List UInt8) (as : List (Action × (Nat → UInt8))) : Prop :=
  ∀ before after, as = before ++ after → ∃ p' trace, Machine.run step p before = some (p', trace) ∧
    p'.bpos < p'.size ∧ p'.buf[p'.bpos]? = some 0 ∧
    p'.buf.take p'.bpos = contents content before

theorem sound_nil (h : Keeps content p) : Sound p content [] ↔ Terminated p := by
  constructor
  · intro hsound
    obtain ⟨p', trace, hrun, hpos, hzero, -⟩ := hsound [] [] rfl
    cases hrun
    exact ⟨hpos, hzero⟩
  · intro hterm before after has
    obtain ⟨rfl, rfl⟩ := List.append_eq_nil_iff.mp has.symm
    exact ⟨p, [], rfl, hterm.1, hterm.2, h.content⟩

theorem sound_cons {p' : Printbuf} {e : Int} (h : Keeps content p)
    (hstep : step p a = some (p', e)) :
    Sound p content (a :: as) ↔ Terminated p ∧ Sound p' (a.1.apply content) as := by
  constructor
  · intro hsound
    refine ⟨?_, ?_⟩
    · obtain ⟨p₁, trace, hrun, hpos, hzero, -⟩ := hsound [] (a :: as) rfl
      cases hrun
      exact ⟨hpos, hzero⟩
    · intro before after has
      obtain ⟨p₁, trace, hrun, hp₁⟩ := hsound (a :: before) after (by rw [has]; rfl)
      obtain ⟨p₂, e₂, rest, hfirst, hrest, -⟩ := Machine.run_cons_eq_some.mp hrun
      rw [hstep] at hfirst
      cases hfirst
      exact ⟨p₁, rest, hrest, hp₁⟩
  · intro hboth before after has
    obtain ⟨hterm, hsound⟩ := hboth
    cases before with
    | nil => exact ⟨p, [], rfl, hterm.1, hterm.2, h.content⟩
    | cons b before =>
        obtain ⟨hfirst, hrest⟩ := List.cons.inj has
        subst hfirst
        obtain ⟨p₁, trace, hrun, hp₁⟩ := hsound before after hrest
        exact ⟨p₁, e :: trace, Machine.run_cons_eq_some.mpr ⟨p', e, trace, hstep, hrun, rfl⟩, hp₁⟩

/-- **A run** is sound if it begins so and each step leaves a zero byte. -/
theorem sound_iff (h : Keeps content p) (hlegal : Machine.Along step Legal p as)
    (hint : p.bpos + total as < 2 ^ 30) :
    Sound p content as ↔ Terminated p ∧ Machine.Along step Ends p as := by
  induction as generalizing p content with
  | nil => exact (sound_nil h).trans (and_iff_left trivial).symm
  | cons a as ih =>
      have htotal : total (a :: as) = a.1.bytes + total as := by
        rw [total, List.map_cons, List.sum_cons, total]
      rw [htotal] at hint
      obtain ⟨p', e, hstep, h', hpos, hends⟩ := step_spec h hlegal.1 (by omega)
      rw [sound_cons h hstep, ih h' (hlegal.2 (p', e) hstep) (by omega)]
      constructor
      · intro hsound
        obtain ⟨hterm, hterm', hrest⟩ := hsound
        refine ⟨hterm, (hends hterm).mp hterm', fun r hr => ?_⟩
        rw [hstep] at hr
        cases hr
        exact hrest
      · intro hsound
        obtain ⟨hterm, hfirst, hrest⟩ := hsound
        exact ⟨hterm, (hends hterm).mpr hfirst, hrest (p', e) hstep⟩

/-! ## Reading a file -/

/-- The loop of `json_object_from_fd`: what `read` returns, as long as it is positive,
with what `realloc` answers to the call behind it. -/
def readAll (p : Printbuf) : List (List UInt8 × Option (Nat → UInt8)) → Option Printbuf
  | [] => some p
  | (buf, realloc) :: reads =>
      (printbufMemappend p buf realloc).bind fun r => readAll r.2 reads

/-- The memory that `json_object_from_fd` gives to `json_parse`: none if the buffer is
not allocated or the last `read` returns -1. -/
def textFromFd (malloc : Option (Nat → UInt8)) (reads : List (List UInt8 × Option (Nat → UInt8)))
    (failed : Bool) : Option (Option Text) :=
  match printbufNew malloc with
  | none => some none
  | some p => (readAll p reads).map fun p => if failed then none else some p.buf

/-- `json_object_from_fd`; none is the null pointer. -/
def jsonObjectFromFd (env : Libc) (malloc : Option (Nat → UInt8))
    (reads : List (List UInt8 × Option (Nat → UInt8))) (failed : Bool) :
    Option (Option (Outcome Json)) :=
  (textFromFd malloc reads failed).map fun text => text.map (jsonParse env)

/-- `json_object_from_fd` parses the bytes it has read: they are the text in the memory
that it gives to the parser. -/
def ParsesRead (malloc : Nat → UInt8) (reads : List (List UInt8 × (Nat → UInt8))) : Prop :=
  ∃ m, textFromFd (some malloc) (reads.map fun r => (r.1, some r.2)) false = some (some m) ∧
    cString m = some (reads.flatMap Prod.fst)

variable {malloc : Nat → UInt8} {reads : List (List UInt8 × (Nat → UInt8))}

theorem readAll_spec (h : Keeps content p) (hint : p.bpos + (reads.flatMap Prod.fst).length < 2 ^ 30) :
    ∃ p', readAll p (reads.map fun r => (r.1, some r.2)) = some p' ∧
      Keeps (content ++ reads.flatMap Prod.fst) p' ∧
      (Terminated p' ↔ reads ≠ [] ∨ Terminated p) := by
  induction reads generalizing p content with
  | nil => exact ⟨p, rfl, by simpa using h, by simp⟩
  | cons r reads ih =>
      rw [List.flatMap_cons, List.length_append] at hint
      obtain ⟨p₁, hcall, h₁, hpos, hterm⟩ := printbufMemappend_spec r.2 h
        (show p.bpos + r.1.length < 2 ^ 30 by omega)
      obtain ⟨p', hread, h', hend⟩ := ih h₁ (by omega)
      refine ⟨p', ?_, ?_, iff_of_true (hend.mpr (.inr hterm)) (.inl (List.cons_ne_nil _ _))⟩
      · rw [List.map_cons, readAll, hcall, Option.bind_some, hread]
      · rwa [List.append_assoc, ← List.flatMap_cons] at h'

theorem terminated_new (malloc : Nat → UInt8) :
    Terminated ⟨fresh 32 malloc, 0, 32⟩ ↔ malloc 0 = 0 := by
  have hfirst : (fresh 32 malloc)[0]? = some (malloc 0) := getElem?_fresh (by decide) malloc
  rw [Terminated, hfirst]
  exact ⟨fun h => Option.some.inj h.2, fun h => ⟨Nat.zero_lt_succ 31, congrArg some h⟩⟩

/-- The text in the block is the content if that is terminated and has no zero byte. -/
theorem Keeps.cString_iff (h : Keeps content p) :
    cString p.buf = some content ↔ Terminated p ∧ 0 ∉ content := by
  have hlen := h.content_length
  constructor
  · intro htext
    obtain ⟨hzero, rest, hbuf⟩ := cString_eq_some htext
    have hget : p.buf[p.bpos]? = some 0 := by
      rw [hbuf, ← hlen, List.getElem?_append_right (Nat.le_refl _), Nat.sub_self]
      rfl
    have hin := (List.getElem?_eq_some_iff.mp hget).1
    exact ⟨⟨h.length ▸ hin, hget⟩, hzero⟩
  · intro hboth
    obtain ⟨⟨hpos, hget⟩, hzero⟩ := hboth
    obtain ⟨hin, hget⟩ := List.getElem?_eq_some_iff.mp hget
    have hbuf : p.buf = content ++ 0 :: p.buf.drop (p.bpos + 1) := by
      calc p.buf = p.buf.take p.bpos ++ p.buf.drop p.bpos := (List.take_append_drop _ _).symm
        _ = content ++ 0 :: p.buf.drop (p.bpos + 1) := by
          rw [h.content, List.drop_eq_getElem_cons hin, hget]
    rw [hbuf, cString_append hzero]

theorem parsesRead_iff (hint : (reads.flatMap Prod.fst).length < 2 ^ 30) :
    ParsesRead malloc reads ↔ (reads ≠ [] ∨ malloc 0 = 0) ∧ 0 ∉ reads.flatMap Prod.fst := by
  obtain ⟨p, hall, hkeeps, hterm⟩ := readAll_spec (keeps_new malloc)
    (show 0 + (reads.flatMap Prod.fst).length < 2 ^ 30 by omega)
  rw [List.nil_append] at hkeeps
  have htext : textFromFd (some malloc) (reads.map fun r => (r.1, some r.2)) false =
      some (some p.buf) := by
    rw [textFromFd, printbufNew, Option.map_some]
    simp only [hall, Option.map_some, Bool.false_eq_true, if_false]
  rw [terminated_new] at hterm
  rw [← hterm, ← hkeeps.cString_iff]
  constructor
  · intro hparses
    obtain ⟨m, hm, hstring⟩ := hparses
    rw [htext] at hm
    rwa [Option.some.inj (Option.some.inj hm)]
  · exact fun hstring => ⟨p.buf, htext, hstring⟩

/-- **Print buffers**: every state of a run is terminated exactly if the new block begins
with a zero byte and every `printbuf_memset` ends inside of the content or at a zero
byte; `json_object_from_fd` parses what it has read exactly if something was read or the
new block begins with a zero byte, and no zero byte was read. -/
theorem printbuf_iff (malloc : Nat → UInt8) :
    (∀ as p, printbufNew (some malloc) = some p → Machine.Along step Legal p as →
      total as < 2 ^ 30 →
        (Sound p [] as ↔ malloc 0 = 0 ∧ Machine.Along step Ends p as)) ∧
    ∀ reads, (reads.flatMap Prod.fst).length < 2 ^ 30 →
      (ParsesRead malloc reads ↔ (reads ≠ [] ∨ malloc 0 = 0) ∧ 0 ∉ reads.flatMap Prod.fst) := by
  refine ⟨fun as p hnew hlegal hint => ?_, fun reads hint => parsesRead_iff hint⟩
  cases hnew
  rw [sound_iff (keeps_new malloc) hlegal (show 0 + total as < 2 ^ 30 by omega),
    terminated_new]

/-- In a zeroed block, three bytes and a file of one byte. -/
theorem printbuf_iff_three :
    Sound ⟨fresh 32 fun _ => 0, 0, 32⟩ [] [(.memset (-1) 120 3, fun _ => 0)] ∧
      ParsesRead (fun _ => 0) [([49], fun _ => 0)] := by
  obtain ⟨hruns, hreads⟩ := printbuf_iff fun _ => 0
  constructor
  · have hlegal : Machine.Along step Legal ⟨fresh 32 fun _ => 0, 0, 32⟩
        [(.memset (-1) 120 3, fun _ => 0)] := ⟨.inl rfl, fun _ _ => trivial⟩
    refine (hruns _ _ rfl hlegal (by decide)).mpr ⟨rfl, ?_, fun _ _ => trivial⟩
    intro off hoff
    cases hoff
    exact .inr (getElem?_fresh (by decide) fun _ => 0)
  · exact (hreads _ (by decide)).mpr ⟨.inl (List.cons_ne_nil _ _), by decide⟩

/-- `printbuf_memset` of 32 bytes leaves no room for a zero byte, and of an empty file
the parser gets what the new block holds. -/
theorem not_printbuf :
    ¬(∀ as, Machine.Along step Legal ⟨fresh 32 fun _ => 0, 0, 32⟩ as → total as < 2 ^ 30 →
      Sound ⟨fresh 32 fun _ => 0, 0, 32⟩ [] as) ∧
    ¬ParsesRead (fun _ => 49) [] := by
  constructor
  · intro hclaim
    have hlegal : Machine.Along step Legal ⟨fresh 32 fun _ => 0, 0, 32⟩
        [(.memset (-1) 120 32, fun _ => 0)] := ⟨.inl rfl, fun _ _ => trivial⟩
    have hsound := (sound_iff (keeps_new fun _ => 0) hlegal (by decide)).mp
      (hclaim _ hlegal (by decide))
    rcases hsound.2.1 0 rfl with hinside | hbyte
    · exact absurd hinside (by decide)
    · have hin := (List.getElem?_eq_some_iff.mp hbyte).1
      rw [fresh_length] at hin
      exact absurd hin (by decide)
  · intro hparses
    rcases ((parsesRead_iff (by decide)).mp hparses).1 with hread | hbyte
    · exact hread rfl
    · exact absurd hbyte (by decide)

end Libubox.PrintBuffer
