import Mathlib.Data.List.TakeWhile
import Libubox.JsonScript.Variables

/-!
# Variable references in strings

What `eval_string` appends to a buffer.  The pattern is split at each percent
sign; the segments in the even places stand for themselves, those in the odd
places for variables, and an empty one of these for a percent sign (`expand`).

The loop works on an attribute that its container does not count yet and that
moves whenever the block grows: `TextOpen` with the text so far at its front is
the invariant (`evalSegments_open`).
-/

namespace Libubox.JsonScript

open Bytes Blob Blobmsg Effect

variable {σ : Type}

/-! ## What a pattern stands for -/

/-- The text of a segment, and what asking for it does. -/
def piece (c : Call σ) (es : List Element) (expanding var : Bool) (str : Mem) (s : Ctx σ) :
    Mem × Ctx σ :=
  if var then
    if str = [] then ([37], s)
    else ((valueOf c es expanding str s).1.getD [], (valueOf c es expanding str s).2)
  else (str, s)

/-- The texts of the segments, one after the other. -/
def expand (c : Call σ) (es : List Element) (expanding : Bool) :
    Bool → List Mem → Ctx σ → Mem × Ctx σ
  | _, [], s => ([], s)
  | var, str :: strs, s =>
      let front := piece c es expanding var str s
      let back := expand c es expanding (!var) strs front.2
      (front.1 ++ back.1, back.2)

/-- The value of a pattern: its segments in turn stand for themselves and for
variables. -/
def expandPattern (c : Call σ) (es : List Element) (expanding : Bool) (pattern : Mem)
    (s : Ctx σ) : Mem × Ctx σ :=
  expand c es expanding false (pattern.splitOn 37) s

/-! ## No zeros -/

theorem zero_notMem_text (mem : Mem) : 0 ∉ text mem := by
  intro hmem
  have hne := List.mem_takeWhile_imp hmem
  simp at hne

theorem zero_notMem_valueOf {c : Call σ} {es : List Element} {expanding : Bool} {name value : Mem}
    {s : Ctx σ} (h : (valueOf c es expanding name s).1 = some value) : 0 ∉ value := by
  unfold valueOf at h
  cases hlookup : lookup es name with
  | some found =>
      rw [hlookup] at h
      obtain ⟨data, -, hdata⟩ := Option.map_eq_some_iff.mp hlookup
      obtain rfl := Option.some.inj h
      rw [← hdata]
      exact zero_notMem_text data
  | none =>
      rw [hlookup] at h
      obtain ⟨found, -, rfl⟩ := Option.map_eq_some_iff.mp h
      exact zero_notMem_text found

theorem zero_notMem_piece {c : Call σ} {es : List Element} {expanding var : Bool} {str : Mem}
    (hstr : 0 ∉ str) (s : Ctx σ) : 0 ∉ (piece c es expanding var str s).1 := by
  unfold piece
  by_cases hvar : var = true
  · by_cases hempty : str = []
    · rw [if_pos hvar, if_pos hempty]
      simp
    · rw [if_pos hvar, if_neg hempty]
      cases hvalue : (valueOf c es expanding str s).1 with
      | none => simp
      | some value => exact zero_notMem_valueOf hvalue
  · rwa [if_neg hvar]

theorem zero_notMem_expand {c : Call σ} {es : List Element} {expanding : Bool} {strs : List Mem}
    (hstrs : ∀ str ∈ strs, 0 ∉ str) (var : Bool) (s : Ctx σ) :
    0 ∉ (expand c es expanding var strs s).1 := by
  induction strs generalizing var s with
  | nil => simp [expand]
  | cons str strs ih =>
      obtain ⟨hstr, hrest⟩ := List.forall_mem_cons.mp hstrs
      rw [expand, List.mem_append, not_or]
      exact ⟨zero_notMem_piece hstr s, ih hrest (!var) _⟩

/-! ## One segment -/

/-- A turn of the loop asks for the text of its segment. -/
theorem segment_eq {c : Call σ} {es : List Element} (h : HoldsVars es c.vars) (expanding var : Bool)
    {str : Mem} (hstr : 0 ∉ str) (s : Ctx σ) :
    ∃ cur, segment c expanding var str s = (some cur, (piece c es expanding var str s).2) ∧
      cur.getD [] = (piece c es expanding var str s).1 := by
  unfold segment piece
  by_cases hvar : var = true
  · by_cases hempty : str = []
    · exact ⟨some [37], by simp [hvar, hempty], by simp [hvar, hempty]⟩
    · rw [if_pos hvar, if_neg hempty, if_pos hvar, if_neg hempty]
      obtain ⟨found, hfind, hfound⟩ :=
        @jsonScriptFindVar_eq _ c es expanding str h hstr s
      rw [bind_some hfind]
      cases found with
      | none =>
          refine ⟨none, rfl, ?_⟩
          cases hvalue : (valueOf c es expanding str s).1 with
          | none => rfl
          | some value => simp [hvalue] at hfound
      | some found =>
          cases hvalue : (valueOf c es expanding str s).1 with
          | none => simp [hvalue] at hfound
          | some value =>
              rw [hvalue] at hfound
              have htext : cString found = some value := Option.some.inj hfound
              refine ⟨some value, ?_, rfl⟩
              simp only [htext]
              rfl
  · rw [if_neg hvar, if_neg hvar]
    by_cases hempty : str = []
    · exact ⟨none, by simp [hempty], by simp [hempty]⟩
    · exact ⟨some str, by simp [hempty], rfl⟩

variable {b : BlobBuf} {f : OpenAttr} {outer : List OpenAttr} {spare : Mem}

/-- The bytes of a segment go behind the text so far. -/
theorem appendSegment_open {n done rest : Mem} {x : UInt8} (cur : Option Mem)
    (h : TextOpen b f outer n (done ++ x :: rest)) (hname : NameOk n)
    (hsmall : done.length + (cur.getD []).length + 1 < 2 ^ 31) :
    ∃ b' x' rest', appendSegment b (some (textStart b f outer n)) done.length cur
        = some (b', some (textStart b' f outer n), (done ++ cur.getD []).length) ∧
      TextOpen b' f outer n ((done ++ cur.getD []) ++ x' :: rest') := by
  cases cur with
  | none => exact ⟨b, x, rest, by simp [appendSegment], by simpa using h⟩
  | some cur =>
      rw [Option.getD_some] at hsmall
      obtain ⟨c, more, hrealloc, hc, hroom⟩ :=
        @TextOpen.realloc b f outer _ _ (done.length + cur.length + 1) h hname hsmall
      obtain ⟨old, x', rest', hcut, hold⟩ : ∃ old x' rest', x :: rest ++ more = old ++ x' :: rest' ∧
          old.length = cur.length := by
        simp only [List.length_append, List.length_cons] at hroom
        obtain ⟨old, one, rest', hcut, hold, hone⟩ :=
          @exists_three_parts _ (x :: rest ++ more) cur.length 1 (by
            simp only [List.length_append, List.length_cons]
            omega)
        obtain ⟨x', rfl⟩ := List.length_eq_one_iff.mp hone
        exact ⟨old, x', rest', by rw [hcut]; simp, hold⟩
      rw [List.append_assoc, hcut] at hc
      obtain ⟨d, hstore, hstart, hd⟩ :=
        @TextOpen.store c f outer n _ cur done.length hc hname (by
        rw [List.length_append, List.length_append, hold]
        omega)
      rw [← List.append_assoc, overwrite_append rfl hold] at hd
      refine ⟨d, x', rest', ?_, hd⟩
      rw [appendSegment, hrealloc, Option.bind_some]
      simp only
      rw [hstore, Option.map_some, hstart, Option.getD_some, List.length_append]

/-! ## All segments -/

theorem mem_of_mem_splitOn {x : UInt8} {str pattern : Mem} (hstr : str ∈ pattern.splitOn 37)
    (hx : x ∈ str) : x ∈ pattern := by
  induction pattern generalizing str with
  | nil =>
      rw [List.splitOn_nil, List.mem_singleton] at hstr
      rw [hstr] at hx
      exact hx
  | cons c pattern ih =>
      rw [List.splitOn_cons_eq_if_modifyHead] at hstr
      by_cases hc : c == 37
      · rw [if_pos hc, List.mem_cons] at hstr
        rcases hstr with rfl | hstr
        · cases hx
        · exact List.mem_cons_of_mem c (ih hstr hx)
      · rw [if_neg hc] at hstr
        obtain ⟨front, rest, hsplit⟩ := List.exists_cons_of_ne_nil (List.splitOn_ne_nil 37 pattern)
        rw [hsplit, List.modifyHead_cons, List.mem_cons] at hstr
        rw [hsplit] at ih
        rcases hstr with rfl | hstr
        · rcases List.mem_cons.mp hx with rfl | hx
          · exact List.mem_cons_self
          · exact List.mem_cons_of_mem c (ih List.mem_cons_self hx)
        · exact List.mem_cons_of_mem c (ih (List.mem_cons_of_mem front hstr) hx)

/-- What is left of the pattern: one segment, and the rest behind a percent sign. -/
theorem cut_pattern (next : Mem) :
    37 ∉ next.takeWhile (· ≠ 37) ∧
      (next = next.takeWhile (· ≠ 37) ∧ next.drop (next.takeWhile (· ≠ 37)).length = [] ∨
        ∃ rest, next = next.takeWhile (· ≠ 37) ++ 37 :: rest ∧
          next.drop (next.takeWhile (· ≠ 37)).length = 37 :: rest) := by
  constructor
  · intro hmem
    have hne := List.mem_takeWhile_imp hmem
    simp at hne
  · induction next with
    | nil => exact .inl ⟨rfl, rfl⟩
    | cons c next ih =>
        by_cases hc : c = 37
        · right
          exact ⟨next, by simp [hc], by simp [hc]⟩
        · have htake : (c :: next).takeWhile (· ≠ 37) = c :: next.takeWhile (· ≠ 37) := by
            rw [List.takeWhile_cons_of_pos (by simpa using hc)]
          rw [htake, List.length_cons, List.drop_succ_cons]
          obtain ⟨heq, hdrop⟩ | ⟨rest, heq, hdrop⟩ := ih
          · exact .inl ⟨congrArg (c :: ·) heq, hdrop⟩
          · exact .inr ⟨rest, congrArg (c :: ·) heq, hdrop⟩

/-- The loop appends the texts of all segments. -/
theorem evalSegments_open {c : Call σ} {es : List Element} (h : HoldsVars es c.vars)
    (expanding : Bool) {n : Mem} (hname : NameOk n) (fuel : Nat) :
    ∀ {b : BlobBuf} {done rest next : Mem} {x : UInt8} (var : Bool) (s : Ctx σ),
      TextOpen b f outer n (done ++ x :: rest) → next.length < fuel → 0 ∉ next →
      done.length + (expand c es expanding var (next.splitOn 37) s).1.length + 1 < 2 ^ 31 →
      ∃ b' x' rest', evalSegments c expanding fuel b (some (textStart b f outer n)) done.length var
            next s
          = (some (b', some (textStart b' f outer n),
              (done ++ (expand c es expanding var (next.splitOn 37) s).1).length,
              var ^^ decide (next.count 37 % 2 = 1)),
            (expand c es expanding var (next.splitOn 37) s).2) ∧
        TextOpen b' f outer n
          ((done ++ (expand c es expanding var (next.splitOn 37) s).1) ++ x' :: rest') := by
  induction fuel with
  | zero => exact fun _ _ _ hfuel => absurd hfuel (Nat.not_lt_zero _)
  | succ fuel ih =>
      intro b done rest next x var s hopen hfuel hzero hsmall
      obtain ⟨hpercent, hcut⟩ := cut_pattern next
      rw [evalSegments]
      generalize next.takeWhile (· ≠ 37) = str at hpercent hcut
      obtain ⟨rfl, hdrop⟩ | ⟨more, rfl, hdrop⟩ := hcut
      · -- the last segment
        have hsplit : next.splitOn 37 = [next] := List.splitOn_eq_singleton hpercent
        have hcount : next.count 37 = 0 := List.count_eq_zero.mpr hpercent
        simp only [hsplit, expand, List.append_nil] at hsmall ⊢
        obtain ⟨cur, hsegment, hcur⟩ := segment_eq h expanding var hzero s
        rw [← hcur] at hsmall ⊢
        obtain ⟨b', x', rest', happend, hopen'⟩ := appendSegment_open cur hopen hname hsmall
        refine ⟨b', x', rest', ?_, hopen'⟩
        rw [bind_some hsegment, happend, need_some_bind]
        simp [hdrop, hcount]
      · have hsplit : (str ++ 37 :: more).splitOn 37 = str :: more.splitOn 37 := by
          rw [List.splitOn_append_cons_self, List.splitOn_eq_singleton hpercent,
            List.singleton_append]
        have hcount : (str ++ 37 :: more).count 37 = more.count 37 + 1 := by
          rw [List.count_append, List.count_eq_zero.mpr hpercent, List.count_cons_self, Nat.zero_add]
        rw [List.mem_append, List.mem_cons, not_or, not_or] at hzero
        rw [List.length_append, List.length_cons] at hfuel
        simp only [hsplit, expand] at hsmall ⊢
        obtain ⟨cur, hsegment, hcur⟩ := segment_eq h expanding var hzero.1 s
        rw [← hcur, List.length_append] at hsmall
        rw [← hcur]
        obtain ⟨c', x₁, rest₁, happend, hopen₁⟩ := appendSegment_open cur hopen hname (by omega)
        obtain ⟨b', x', rest', hloop, hopen'⟩ := @ih c' (done ++ cur.getD []) rest₁ more x₁ (!var)
          (piece c es expanding var str s).2 hopen₁ (by omega) hzero.2.2 (by
            rw [List.length_append]
            omega)
        refine ⟨b', x', rest', ?_, by rw [← List.append_assoc]; exact hopen'⟩
        rw [bind_some hsegment, happend, need_some_bind]
        simp only [hdrop]
        rw [hloop, ← List.append_assoc, hcount]
        have hflag : (!var ^^ decide (more.count 37 % 2 = 1))
            = (var ^^ decide ((more.count 37 + 1) % 2 = 1)) := by
          rcases Nat.mod_two_eq_zero_or_one (more.count 37) with hmod | hmod
          · have hodd : (more.count 37 + 1) % 2 = 1 := by omega
            simp [hmod, hodd]
          · have heven : (more.count 37 + 1) % 2 = 0 := by omega
            simp [hmod, heven]
        rw [hflag]

/-! ## The call -/

/-- `eval_string` appends one string attribute with the name and the value of the
pattern to the innermost container, and returns 0 if the percent signs pair up. -/
def Evaluates (c : Call σ) (es : List Element) (expanding : Bool) (b : BlobBuf) (f : OpenAttr)
    (outer : List OpenAttr) (name : Option Mem) (pattern : Mem) (s : Ctx σ) : Prop :=
  ∃ b' bs spare', evalString c expanding b name pattern s
      = (some (if pattern.count 37 % 2 = 0 then 0 else -1, b'),
        (expandPattern c es expanding pattern s).2) ∧
    Laid b' (f.push bs) outer spare' ∧
    Holds [.data blobmsgTypeString (name.getD [])
      ((expandPattern c es expanding pattern s).1 ++ [0])] bs

variable {len : Nat} {c : Call σ} {es : List Element} {name : Option Mem} {pattern : Mem}
  {s : Ctx σ}

theorem evaluates_of_nameOk (h : HoldsVars es c.vars) (hb : Loose b len f outer spare)
    (expanding : Bool) (hname : NameOk (name.getD [])) (hpattern : 0 ∉ pattern)
    (hsmall : (usedBytes f outer).length + (Element.data blobmsgTypeString (name.getD [])
      ((expandPattern c es expanding pattern s).1 ++ [0])).size < 2 ^ 24) :
    Evaluates c es expanding b f outer name pattern s := by
  have hzero : 0 ∉ (expandPattern c es expanding pattern s).1 := by
    apply zero_notMem_expand
    intro str hstr hmem
    exact hpattern (mem_of_mem_splitOn hstr hmem)
  have hlength : ((expandPattern c es expanding pattern s).1 ++ [0]).length
      = (expandPattern c es expanding pattern s).1.length + 1 := List.length_append
  rw [Element.size, hlength] at hsmall
  have hle := le_alignUp_four ((expandPattern c es expanding pattern s).1.length + 1)
  have hfour : alignUp 4 1 ≤ alignUp 4 ((expandPattern c es expanding pattern s).1.length + 1) := by
    unfold alignUp
    omega
  obtain ⟨b₁, m, halloc, hopen, hroom⟩ :=
    @Loose.blobmsgAllocStringBuffer b f outer spare len hb name 1 hname (by omega)
  cases m with
  | nil => simp at hroom
  | cons x rest =>
      obtain ⟨b₂, x', rest', hloop, hopen₂⟩ := @evalSegments_open σ f outer c es h expanding _ hname
        (pattern.length + 1) b₁ [] rest pattern x false s hopen (Nat.lt_succ_self _) hpattern (by
          change 0 + (expandPattern c es expanding pattern s).1.length + 1 < 2 ^ 31
          omega)
      rw [List.nil_append] at hloop hopen₂
      change TextOpen b₂ f outer _ ((expandPattern c es expanding pattern s).1 ++ x' :: rest')
        at hopen₂
      change evalSegments c expanding (pattern.length + 1) b₁
        (some (textStart b₁ f outer (name.getD []))) 0 false pattern s
        = (some (b₂, some (textStart b₂ f outer (name.getD [])),
            (expandPattern c es expanding pattern s).1.length,
            false ^^ decide (pattern.count 37 % 2 = 1)),
          (expandPattern c es expanding pattern s).2) at hloop
      unfold Evaluates
      generalize expandPattern c es expanding pattern s = r at *
      obtain ⟨b₃, hstore, -, hopen₃⟩ := @TextOpen.store b₂ f outer _ _ [0] r.1.length hopen₂ hname
        (by simp)
      have hend : overwrite (r.1 ++ x' :: rest') r.1.length [0] = r.1 ++ 0 :: rest' := by
        have hcut : r.1 ++ x' :: rest' = r.1 ++ [x'] ++ rest' := by simp
        have hwrite := @overwrite_append _ r.1 [x'] rest' [0] r.1.length rfl rfl
        rw [hcut, hwrite]
        simp
      rw [hend] at hopen₃
      have hfield := @fieldBytes_length blobmsgTypeString (name.getD []) (r.1 ++ [0]) hname
      rw [hlength] at hfield
      obtain ⟨b₄, spare', hadd, hlaid⟩ := hopen₃.add hname hzero (by omega)
      refine ⟨b₄, _, spare', ?_, hlaid, ?_⟩
      · rw [evalString, halloc, need_some_bind]
        simp only
        rw [bind_some hloop]
        simp only [hstore, hadd, need_some_bind, pure_apply, Bool.false_xor]
        rcases Nat.mod_two_eq_zero_or_one (pattern.count 37) with hmod | hmod <;> simp [hmod]
      · exact holds_fieldBytes (by decide) hname (.inr (.inl ⟨rfl, by simp⟩)) (by omega)

/-- A longer name does not fit the field for its length. -/
theorem short_of_evaluates {expanding : Bool}
    (h : Evaluates c es expanding b f outer name pattern s) : (name.getD []).length < 2 ^ 16 := by
  obtain ⟨-, bs, -, -, -, hbs⟩ := h
  cases hbs with
  | data wf _ _ _ => exact wf.name_fits.short

/-- **Variable substitution.**  For every pattern, all variables and every state of
the buffer, `eval_string` appends the value of the pattern under the given name if
and only if the length of the name fits its field. -/
theorem evaluates_iff (h : HoldsVars es c.vars) (hb : Loose b len f outer spare)
    (expanding : Bool) (hname : 0 ∉ name.getD []) (hpattern : 0 ∉ pattern)
    (hsmall : (usedBytes f outer).length + (Element.data blobmsgTypeString (name.getD [])
      ((expandPattern c es expanding pattern s).1 ++ [0])).size < 2 ^ 24) :
    Evaluates c es expanding b f outer name pattern s ↔ (name.getD []).length < 2 ^ 16 := by
  constructor
  · exact short_of_evaluates
  · intro hshort
    exact evaluates_of_nameOk h hb expanding ⟨hshort, hname⟩ hpattern hsmall

/-- A context without callbacks. -/
def plainCall : Call Unit where
  handlers :=
    { handleCommand := fun _ _ _ u => (u, false)
      handleVar := fun _ _ u => (none, u, false)
      handleFile := fun _ u => (none, u, false)
      handleError := fun _ _ u => (u, false) }
  regex := fun _ => none
  vars := none
  seq := 1
  run := 0

/-- An empty message at the start of a block. -/
def emptyBuf : BlobBuf where
  head := 0
  buf := 0
  mem := header false 0 4 ++ List.replicate 252 0
  realloc := fun _ => some 0

theorem laid_emptyBuf : Laid emptyBuf ⟨false, 0, []⟩ [] (List.replicate 252 0) where
  sound := by
    refine ⟨?_, fun _ => rfl⟩
    simp only [emptyBuf, List.length_append, header_length, List.length_replicate]
  mem_eq := by
    simp only [usedBytes, outerBytes, OpenAttr.bytes, List.nil_append, List.append_nil]
    rfl
  head_eq := rfl
  valid := by
    intro g hg
    obtain rfl := List.mem_singleton.mp hg
    exact ⟨by decide, by decide⟩
  small := by decide

/-- The initial state of the context. -/
def plainCtx : Ctx Unit where
  user := ()
  heap := []
  files := []
  buf := emptyBuf
  abort := false
  runs := 0
  trace := []

/-- The pattern `a%%b%c` and a buffer that holds nothing yet. -/
theorem evaluates_iff_percent :
    Evaluates plainCall [] false emptyBuf ⟨false, 0, []⟩ [] (some [110]) [97, 37, 37, 98, 37, 99]
      plainCtx ↔ ((some [110] : Option Mem).getD []).length < 2 ^ 16 :=
  evaluates_iff (show HoldsVars [] plainCall.vars from rfl) laid_emptyBuf.loose false
    (by decide) (by decide) (by decide)

/-- A name of 65536 characters is stored with the length 0. -/
theorem not_evaluates_long :
    Laid emptyBuf ⟨false, 0, []⟩ [] (List.replicate 252 0) ∧
      (usedBytes ⟨false, 0, []⟩ []).length + (Element.data blobmsgTypeString
        (List.replicate 65536 97) ((expandPattern plainCall [] false [] plainCtx).1 ++ [0])).size
          < 2 ^ 24 ∧
      ¬Evaluates plainCall [] false emptyBuf ⟨false, 0, []⟩ [] (some (List.replicate 65536 97)) []
        plainCtx := by
  refine ⟨laid_emptyBuf, ?_, ?_⟩
  · have hvalue : (expandPattern plainCall [] false [] plainCtx).1 = [] := rfl
    rw [hvalue, Element.size, List.length_replicate]
    decide
  · intro h
    have hshort := short_of_evaluates h
    rw [Option.getD_some, List.length_replicate] at hshort
    omega

end Libubox.JsonScript
