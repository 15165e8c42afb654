import Libubox.Blobmsg.FormatJson

/-!
# What the formatter writes

`renderElements` is the text of the elements of a message, as a function of the
elements alone.  Every step of the formatter writes its part of it behind what is
there (`Strbuf.Holds`), as long as the level of indentation stays an `int`.
-/

namespace Libubox.Blobmsg

open Bytes Blob Json Decimal

/-- Allocations succeed, but for those of nothing. -/
structure Host.Grants (host : Host) : Prop where
  length : ∀ n m, host.alloc n = some m → m.length = n
  block : ∀ n, 0 < n → ∃ m, host.alloc n = some m

/-- The static template: tabs behind a character that `add_separator` replaces. -/
def Template (chars : Mem) : Prop := ∃ c, chars = c :: List.replicate 16 9

/-- `text` was written so far. -/
structure Strbuf.Written (s : Strbuf) (text : Text) (indent : Bool) (level : Int) : Prop where
  length : (s.buf.getD []).length = s.len
  pos_eq : s.pos = text.length
  written : (s.buf.getD []).take s.pos = text
  format : s.customFormat = none
  indent_eq : s.indent = indent
  level_eq : s.indentLevel = level
  template : Template s.indentChars

/-- The buffer never gets much longer than twice the text. -/
structure Strbuf.Holds (s : Strbuf) (text : Text) (indent : Bool) (level : Int) : Prop
    extends s.Written text indent level where
  room : s.len ≤ 2 * s.pos + 2 ^ 24 + 16

variable {host : Host} {s : Strbuf} {text : Text} {indent : Bool} {level : Int}

theorem Host.Grants.realloc (hhost : host.Grants) (old : Option Mem) {n : Nat} (hn : 0 < n)
    (hold : (old.getD []).length ≤ n) :
    ∃ more, host.realloc old n = some (old.getD [] ++ more) ∧
      ((old.getD []) ++ more).length = n := by
  obtain ⟨m, hm⟩ := hhost.block n hn
  have hlen := hhost.length n m hm
  refine ⟨m.drop (old.getD []).length, ?_, ?_⟩
  · rw [Host.realloc, hm, Option.map_some, List.take_of_length_le hold]
  · rw [List.length_append, List.length_drop]
    omega

/-! ## Writing -/

theorem Strbuf.Holds.pos_le (h : s.Holds text indent level) : s.pos ≤ s.len := by
  have hlen := congrArg List.length h.written
  rw [List.length_take, h.length, ← h.pos_eq] at hlen
  omega

/-- A copy into the room there is. -/
theorem Strbuf.Written.copy (h : s.Written text indent level) {c : Mem} (hc : 0 < c.length)
    (hfit : s.pos + c.length ≤ s.len) (hroom : s.len ≤ 2 * (s.pos + c.length) + 2 ^ 24 + 16) :
    ∃ s', s.copy c = some s' ∧ s'.Holds (text ++ c) indent level := by
  have hlen := h.length
  have hwritten := h.written
  have hpos := h.pos_eq
  cases hbuf : s.buf with
  | none =>
      rw [hbuf] at hlen
      change 0 = s.len at hlen
      omega
  | some m =>
      rw [hbuf, Option.getD_some] at hlen hwritten
      have hover : (overwrite m s.pos c).length = m.length := overwrite_length (by omega)
      refine ⟨{ s with buf := some (overwrite m s.pos c), pos := s.pos + c.length }, ?_, ?_⟩
      · rw [Strbuf.copy, hbuf, Option.bind_some, if_pos (by omega)]
      · refine ⟨⟨?_, ?_, ?_, h.format, h.indent_eq, h.level_eq, h.template⟩, hroom⟩
        · rw [Option.getD_some, hover, hlen]
        · rw [List.length_append, ← hpos]
        · have hfront : (text ++ c).length = s.pos + c.length := by
            rw [List.length_append, hpos]
          rw [Option.getD_some, overwrite, hwritten, ← hfront, List.take_left]

/-- **`blobmsg_puts` writes its text.** -/
theorem Strbuf.Holds.put (hhost : host.Grants) (h : s.Holds text indent level) {c : Mem}
    (hsize : (text ++ c).length ≤ 2 ^ 28) :
    ∃ s', s.put host c = some s' ∧ s'.Holds (text ++ c) indent level := by
  have hlen := h.length
  have hpos := h.pos_eq
  have hle := h.pos_le
  have hroom := h.room
  rw [List.length_append] at hsize
  by_cases hnil : c = []
  · refine ⟨s, ?_, by rwa [hnil, List.append_nil]⟩
    rw [Strbuf.put, blobmsgPuts, if_pos hnil, Option.map_some]
  have hc : 0 < c.length := List.length_pos_iff.mpr hnil
  by_cases hgrow : s.len ≤ s.pos + c.length
  · obtain ⟨more, hrealloc, hmore⟩ := hhost.realloc s.buf
      (show 0 < s.len + (16 + c.length) by omega) (by omega)
    have hgrown : Strbuf.Written
        { s with len := s.len + (16 + c.length), buf := some (s.buf.getD [] ++ more) }
        text indent level := by
      refine ⟨hmore, hpos, ?_, h.format, h.indent_eq, h.level_eq, h.template⟩
      show (s.buf.getD [] ++ more).take s.pos = text
      rw [List.take_append_of_le_length (by omega), h.written]
    obtain ⟨s', hcopy, hs'⟩ := hgrown.copy hc
      (show s.pos + c.length ≤ s.len + (16 + c.length) by omega)
      (show s.len + (16 + c.length) ≤ 2 * (s.pos + c.length) + 2 ^ 24 + 16 by omega)
    refine ⟨s', ?_, hs'⟩
    rw [Strbuf.put, blobmsgPuts, if_neg hnil, if_pos hgrow]
    simp only [hrealloc, Option.isNone_some, Bool.false_eq_true, if_false, hcopy, Option.map_some]
    rw [if_neg (by omega), Option.map_some]
  · obtain ⟨s', hcopy, hs'⟩ := h.toWritten.copy hc (by omega) (by omega)
    refine ⟨s', ?_, hs'⟩
    rw [Strbuf.put, blobmsgPuts, if_neg hnil, if_neg hgrow, hcopy, Option.map_some,
      Option.map_some]

/-! ## Separators and strings -/

/-- What `add_separator` writes. -/
def separatorText (indent : Bool) (level : Int) : Text :=
  if indent then 10 :: List.replicate (min 16 level.toNat) 9 else []

/-- Writing does not look at the template. -/
theorem put_indentChars (s : Strbuf) (c chars : Mem) :
    Strbuf.put host { s with indentChars := chars } c
      = (s.put host c).map fun s => { s with indentChars := chars } := by
  have hcopy : ∀ s : Strbuf, Strbuf.copy { s with indentChars := chars } c
      = (s.copy c).map fun s => { s with indentChars := chars } := by
    intro s
    cases hbuf : s.buf with
    | none => simp [Strbuf.copy, hbuf]
    | some m =>
        by_cases hfit : s.pos + c.length ≤ m.length <;> simp [Strbuf.copy, hbuf, hfit]
  unfold Strbuf.put blobmsgPuts
  split
  · rfl
  split
  · dsimp only
    split
    · rfl
    split
    · rfl
    · rw [hcopy { s with len := _, buf := _ }]
      simp only [Option.map_map]
      rfl
  · rw [hcopy]
    simp only [Option.map_map]
    rfl

theorem Template.patched {chars : Mem} (h : Template chars) {start : Nat} (hstart : start ≤ 16) :
    (overwrite chars start [10]).drop start = 10 :: List.replicate (16 - start) 9 ∧
      Template (overwrite (overwrite chars start [10]) start [9]) := by
  obtain ⟨c, rfl⟩ := h
  cases start with
  | zero => exact ⟨rfl, 9, rfl⟩
  | succ k =>
      have hfront : k + 1 = (c :: List.replicate k (9 : UInt8)).length := by simp
      have hcut : c :: List.replicate 16 (9 : UInt8)
          = (c :: List.replicate k 9) ++ [9] ++ List.replicate (15 - k) 9 := by
        rw [List.cons_append, List.cons_append, ← List.replicate_succ',
          List.replicate_append_replicate]
        congr 2
        omega
      have hline := @overwrite_append _ (c :: List.replicate k (9 : UInt8)) [9]
        (List.replicate (15 - k) 9) [10] (k + 1) hfront rfl
      have htab := @overwrite_append _ (c :: List.replicate k (9 : UInt8)) [10]
        (List.replicate (15 - k) 9) [9] (k + 1) hfront rfl
      rw [hcut, hline, htab, ← hcut]
      refine ⟨?_, c, rfl⟩
      rw [List.append_assoc, List.drop_left' hfront.symm, List.singleton_append]
      congr 2
      omega

/-- `add_separator` writes a line break and tabs, 16 at most. -/
theorem Strbuf.Holds.addSeparator (hhost : host.Grants) (h : s.Holds text indent level)
    (hlevel : indent = true → 0 ≤ level)
    (hsize : (text ++ separatorText indent level).length ≤ 2 ^ 28) :
    ∃ s', addSeparator host s = some s' ∧
      s'.Holds (text ++ separatorText indent level) indent level := by
  cases indent with
  | false =>
      refine ⟨s, ?_, by simpa [separatorText] using h⟩
      rw [Blobmsg.addSeparator, h.indent_eq, if_neg (by decide)]
  | true =>
      have hlevel := hlevel rfl
      obtain rfl := h.level_eq
      have htabs : (if 16 < s.indentLevel then (16 : Int) else s.indentLevel).toNat
          = min 16 s.indentLevel.toNat := by
        split <;> omega
      have hpos : (0 : Int) ≤ if 16 < s.indentLevel then 16 else s.indentLevel := by split <;> omega
      obtain ⟨hpatch, htemplate⟩ := h.template.patched
        (show 16 - min 16 s.indentLevel.toNat ≤ 16 by omega)
      have hsep : ((overwrite s.indentChars (16 - min 16 s.indentLevel.toNat) [10]).drop
          (16 - min 16 s.indentLevel.toNat)).take (min 16 s.indentLevel.toNat + 1) = separatorText true s.indentLevel := by
        have hcount : 16 - (16 - min 16 s.indentLevel.toNat) = min 16 s.indentLevel.toNat := by omega
        rw [hpatch, hcount, separatorText, if_pos rfl]
        exact List.take_of_length_le (by simp)
      obtain ⟨s', hput, hs'⟩ := h.put hhost hsize
      refine ⟨{ s' with indentChars := overwrite (overwrite s.indentChars
        (16 - min 16 s.indentLevel.toNat) [10]) (16 - min 16 s.indentLevel.toNat) [9] }, ?_, ?_⟩
      · rw [Blobmsg.addSeparator, if_pos h.indent_eq, if_pos hpos, htabs]
        dsimp only
        rw [put_indentChars, hsep, hput]
        rfl
      · exact ⟨⟨hs'.length, hs'.pos_eq, hs'.written, hs'.format, hs'.indent_eq, hs'.level_eq,
          htemplate⟩, hs'.room⟩

/-- What is written for one character of a string. -/
def escapedChar (c : UInt8) : Text :=
  if escapeOf c = 0 then [c]
  else if escapeOf c = letterU then [backslash, letterU, 48, 48] ++ hexByte c
  else [backslash, escapeOf c]

/-- What is written for a string. -/
def stringText (str : Text) : Text := quote :: str.flatMap escapedChar ++ [quote]

/-- The buffer for escapes: the second character and the last four change. -/
def EscapeBuffer (buf : Mem) : Prop := ∃ e w x y z, buf = [backslash, e, 48, 48, w, x, y, z]

/-- The loop writes the run and the rest of the string. -/
theorem Strbuf.Holds.formatChars (hhost : host.Grants) (p : Text) :
    ∀ {s : Strbuf} {text run buf : Mem}, s.Holds text indent level → EscapeBuffer buf →
      (text ++ (run ++ p.flatMap escapedChar)).length ≤ 2 ^ 28 →
      ∃ s', formatChars host s buf run p = some s' ∧
        s'.Holds (text ++ (run ++ p.flatMap escapedChar)) indent level := by
  induction p with
  | nil =>
      intro s text run buf h _ hsize
      rw [List.flatMap_nil, List.append_nil] at hsize ⊢
      exact h.put hhost hsize
  | cons c p ih =>
      intro s text run buf h hbuf hsize
      rw [List.flatMap_cons] at hsize ⊢
      by_cases hplain : escapeOf c = 0
      · rw [escapedChar, if_pos hplain] at hsize ⊢
        obtain ⟨s', hs', hholds⟩ := @ih s text (run ++ [c]) buf h hbuf
          (by rwa [List.append_assoc run])
        rw [List.append_assoc run] at hholds
        refine ⟨s', ?_, hholds⟩
        rw [Blobmsg.formatChars, if_pos hplain, hs']
      · obtain ⟨e, w, x, y, z, rfl⟩ := hbuf
        have hescape : ∃ buf', EscapeBuffer buf' ∧
            (if escapeOf c = letterU then
              overwrite (overwrite [backslash, e, 48, 48, w, x, y, z] 1 [escapeOf c]) 4
                (hexByte c ++ [0])
              else overwrite [backslash, e, 48, 48, w, x, y, z] 1 [escapeOf c]) = buf' ∧
            buf'.take (if escapeOf c = letterU then 6 else 2) = escapedChar c := by
          by_cases hu : escapeOf c = letterU
          · rw [if_pos hu, if_pos hu, escapedChar, if_neg hplain, if_pos hu, hu]
            exact ⟨_, ⟨_, _, _, _, _, rfl⟩, rfl, rfl⟩
          · rw [if_neg hu, if_neg hu, escapedChar, if_neg hplain, if_neg hu]
            exact ⟨_, ⟨_, _, _, _, _, rfl⟩, rfl, rfl⟩
        obtain ⟨buf', hbuf', hpatch, htake⟩ := hescape
        obtain ⟨s₁, hrun, h₁⟩ := @Strbuf.Holds.put host s text indent level hhost h run
          (by simp only [List.length_append] at hsize ⊢; omega)
        obtain ⟨s₂, hput, h₂⟩ := @Strbuf.Holds.put host s₁ _ indent level hhost h₁ (escapedChar c)
          (by simp only [List.length_append] at hsize ⊢; omega)
        obtain ⟨s₃, hrest, h₃⟩ := @ih s₂ _ [] buf' h₂ hbuf'
          (by simp only [List.length_append, List.length_nil] at hsize ⊢; omega)
        refine ⟨s₃, ?_, by simpa using h₃⟩
        rw [Blobmsg.formatChars, if_neg hplain, hrun, Option.bind_some]
        dsimp only
        rw [hpatch, htake, hput, Option.bind_some, hrest]

/-- `blobmsg_format_string` writes the string. -/
theorem Strbuf.Holds.formatString (hhost : host.Grants) (h : s.Holds text indent level)
    {m str : Mem} (hstr : cString m = some str) (hsize : (text ++ stringText str).length ≤ 2 ^ 28) :
    ∃ s', blobmsgFormatString host s m = some s' ∧
      s'.Holds (text ++ stringText str) indent level := by
  simp only [stringText, List.length_append, List.length_cons, List.length_nil] at hsize
  obtain ⟨s₁, hopen, h₁⟩ := @Strbuf.Holds.put host s text indent level hhost h [quote]
    (by simp only [List.length_append, List.length_cons, List.length_nil]; omega)
  obtain ⟨s₂, hchars, h₂⟩ := @Strbuf.Holds.formatChars host indent level hhost str s₁ _ []
    [backslash, letterU, 48, 48, 0, 0, 0, 0] h₁ ⟨_, _, _, _, _, rfl⟩
    (by simp only [List.length_append, List.length_cons, List.length_nil]; omega)
  obtain ⟨s₃, hclose, h₃⟩ := @Strbuf.Holds.put host s₂ _ indent level hhost h₂ [quote]
    (by simp only [List.length_append, List.length_cons, List.length_nil]; omega)
  refine ⟨s₃, ?_, by simpa [stringText] using h₃⟩
  rw [blobmsgFormatString, hstr, Option.bind_some, hopen, Option.bind_some, hchars,
    Option.bind_some, hclose]

/-! ## Elements -/

/-- The text of the data of an element that is not a container. -/
def dataText (type : Nat) (data : Mem) : Text :=
  if type = blobmsgTypeString then stringText data.dropLast
  else (scalarText type data).getD []

/-- What is written for the name of an element. -/
def nameText (indent array : Bool) (name : Text) : Text :=
  if array = false ∧ name ≠ [] then
    stringText name ++ if indent then [colon, 32] else [colon]
  else []

mutual

/-- What is written for an element in an array or a table. -/
def renderElement (indent : Bool) (level : Int) (array : Bool) : Element → Text
  | .data type name data => nameText indent array name ++ dataText type data
  | .nest inner name children =>
      nameText indent array name ++
        ((if inner then openBracket else openBrace) :: separatorText indent (level + 1) ++
          renderElements indent (level + 1) inner true children ++
          separatorText indent level ++ [if inner then closeBracket else closeBrace])

/-- What is written for the elements from one on, which is the `first` or not. -/
def renderElements (indent : Bool) (level : Int) (array first : Bool) : List Element → Text
  | [] => []
  | e :: es =>
      (if first then [] else comma :: separatorText indent level) ++
        renderElement indent level array e ++ renderElements indent level array false es

end

/-- What `blobmsg_format_json_list` writes. -/
def renderList (indent : Bool) (level : Int) (array : Bool) (es : List Element) : Text :=
  (if array then openBracket else openBrace) :: separatorText indent (level + 1) ++
    renderElements indent (level + 1) array true es ++
    separatorText indent level ++ [if array then closeBracket else closeBrace]

mutual

/-- How deep the lists go that are written for an element. -/
def Element.depth : Element → Nat
  | .data _ _ _ => 0
  | .nest _ _ children => depths children + 1

def depths : List Element → Nat
  | [] => 0
  | e :: es => max e.depth (depths es)

end

mutual

/-- Members of tables have names, and strings end at their first zero. -/
def Element.Proper (array : Bool) : Element → Prop
  | .data type name data =>
      (array = false → name ≠ []) ∧ (type = blobmsgTypeString → 0 ∉ data.dropLast)
  | .nest inner name children => (array = false → name ≠ []) ∧ Propers inner children

def Propers (array : Bool) : List Element → Prop
  | [] => True
  | e :: es => e.Proper array ∧ Propers array es

end

/-- The text of a string attribute. -/
theorem DataFits.cString {data : Mem} (h : DataFits blobmsgTypeString data)
    (hproper : 0 ∉ data.dropLast) (rest : Mem) : cString (data ++ rest) = some data.dropLast := by
  have hlast : data[data.length - 1]? = some 0 := by
    rcases h with h | ⟨-, h⟩ | ⟨h, -⟩ | ⟨h, -⟩ | ⟨h, -⟩ | ⟨h, -⟩
    · cases h
    · exact h
    all_goals cases h
  have hne : data ≠ [] := by
    intro hnil
    rw [hnil] at hlast
    cases hlast
  have hcut : data = data.dropLast ++ [0] := by
    conv_lhs => rw [← List.dropLast_append_getLast hne]
    rw [List.getLast_eq_getElem]
    rw [List.getElem?_eq_getElem (by have := List.length_pos_iff.mpr hne; omega)] at hlast
    rw [Option.some.inj hlast]
  conv_lhs => rw [hcut]
  rw [List.append_assoc, List.singleton_append, cString_append hproper]

theorem readBe_append {width : Nat} {data : Mem} (h : data.length = width) (rest : Mem) :
    readBe width (data ++ rest) = some (beNat data) := by
  rw [readBe, if_pos (by rw [List.length_append]; omega), List.take_left' h]

/-- Other data is written whatever lies behind it. -/
theorem DataFits.scalarText {type : Nat} {data : Mem} (h : DataFits type data)
    (hstring : type ≠ blobmsgTypeString) (rest : Mem) :
    scalarText type (data ++ rest) = some (dataText type data) := by
  rw [dataText, if_neg hstring]
  have hsome : ∀ {width : Nat} (f : Nat → Text), data.length = width →
      (readBe width (data ++ rest)).map f = some (((readBe width data).map f).getD []) := by
    intro width f hlen
    have h := readBe_append hlen []
    rw [List.append_nil] at h
    rw [readBe_append hlen, h]
    rfl
  rcases h with rfl | ⟨rfl, -⟩ | ⟨rfl, hlen⟩ | ⟨rfl, hlen⟩ | ⟨rfl, hlen⟩ | ⟨rfl, hlen⟩
  · rfl
  · exact absurd rfl hstring
  · exact hsome (fun n => intText (signed 8 n)) hlen
  · exact hsome (fun n => intText (signed 4 n)) hlen
  · exact hsome (fun n => intText n) hlen
  · obtain ⟨c, rfl⟩ := List.length_eq_one_iff.mp hlen
    rfl

/-- The name of an attribute is written. -/
theorem Strbuf.Holds.formatName (hhost : host.Grants) (h : s.Holds text indent level)
    {type len : Nat} {name pad : Mem} (wf : WellFormed type name pad len) (array : Bool)
    (rest : Mem) (hsize : (text ++ nameText indent array name).length ≤ 2 ^ 28) :
    ∃ s', formatName host s (frame type name pad len ++ rest) array = some s' ∧
      s'.Holds (text ++ nameText indent array name) indent level := by
  have hread := @WellFormed.cString_name type len name pad rest wf
  obtain ⟨tail, hpad⟩ := wf.name_fits.terminated
  have hhead : (blobmsgName (frame type name pad len ++ rest)).head? = some (name.headD 0) := by
    rw [WellFormed.blobmsgName_eq, hpad]
    cases name <;> rfl
  have hcase : (¬array ∧ name.headD 0 ≠ 0) ↔ (array = false ∧ name ≠ []) := by
    rw [Bool.not_eq_true]
    refine and_congr_right fun _ => ?_
    cases hname : name with
    | nil => exact ⟨fun h => absurd rfl h, fun h => absurd rfl h⟩
    | cons c name =>
        have hzero := wf.name_fits.noNul
        rw [hname, List.mem_cons, not_or] at hzero
        exact ⟨fun _ => List.cons_ne_nil _ _, fun _ => Ne.symm hzero.1⟩
  rw [Blobmsg.formatName, hhead, Option.bind_some, nameText] at *
  simp only [hcase]
  by_cases hwrite : array = false ∧ name ≠ []
  · rw [if_pos hwrite] at hsize ⊢
    rw [if_pos hwrite]
    obtain ⟨s₁, hstring, h₁⟩ := h.formatString hhost hread
      (by simp only [List.length_append] at hsize ⊢; omega)
    obtain ⟨s₂, hput, h₂⟩ := h₁.put hhost (show ((text ++ stringText name) ++
      if indent then [colon, 32] else [colon]).length ≤ 2 ^ 28 by rwa [List.append_assoc])
    rw [List.append_assoc] at h₂
    refine ⟨s₂, ?_, h₂⟩
    rw [hstring, Option.bind_some, h₁.indent_eq, hput]
  · rw [if_neg hwrite] at hsize ⊢
    rw [if_neg hwrite, List.append_nil]
    exact ⟨s, rfl, h⟩

/-- An element that is not a container is written. -/
theorem Strbuf.Holds.formatData (hhost : host.Grants) (h : s.Holds text indent level)
    {type : Nat} {name pad data : Mem} (wf : WellFormed type name pad data.length)
    (fits : DataFits type data) {array : Bool} (hproper : (Element.data type name data).Proper array)
    (depth : Nat) (rest : Mem) (hsize : (text ++ renderElement indent level array (.data type name data)).length
      ≤ 2 ^ 28) :
    ∃ s', blobmsgFormatElement host (depth + 1) s (frame type name pad data.length ++ (data ++ rest))
        array false = some s' ∧
      s'.Holds (text ++ renderElement indent level array (.data type name data)) indent level := by
  rw [renderElement, ← List.append_assoc text] at hsize ⊢
  obtain ⟨s₁, hname, h₁⟩ := h.formatName hhost wf array (data ++ rest)
    (by rw [List.length_append] at hsize; omega)
  have hstart : blobmsgFormatElement host (depth + 1) s
      (frame type name pad data.length ++ (data ++ rest)) array false
      = if type = blobmsgTypeString then blobmsgFormatString host s₁ (data ++ rest)
        else (scalarText type (data ++ rest)).bind fun text => s₁.put host text := by
    rw [blobmsgFormatElement, wf.blobmsgCheckAttr_data (by simp) fits, Option.bind_some,
      if_neg (by simp), hname, Option.bind_some, wf.blobmsgData_eq, Option.bind_some,
      wf.blobmsgDataLen_eq, Option.bind_some, h₁.format, wf.blobId_eq]
    simp only [Bool.false_eq_true, if_false, Option.bind_none, Option.bind_some,
      fits.not_container]
  by_cases hstring : type = blobmsgTypeString
  · have htext : dataText type data = stringText data.dropLast := if_pos hstring
    rw [htext] at hsize ⊢
    rw [if_pos hstring] at hstart
    obtain ⟨s₂, hwrite, h₂⟩ := h₁.formatString hhost
      ((hstring ▸ fits).cString (hproper.2 hstring) rest) hsize
    exact ⟨s₂, hstart.trans hwrite, h₂⟩
  · rw [if_neg hstring, fits.scalarText hstring, Option.bind_some] at hstart
    obtain ⟨s₂, hput, h₂⟩ := h₁.put hhost hsize
    exact ⟨s₂, hstart.trans hput, h₂⟩

/-! ## Lists -/

theorem Strbuf.Holds.setLevel (h : s.Holds text indent level) (level' : Int) :
    Strbuf.Holds { s with indentLevel := level' } text indent level' :=
  ⟨⟨h.length, h.pos_eq, h.written, h.format, h.indent_eq, rfl, h.template⟩, h.room⟩

/-- A loop writes `body` behind any text. -/
def Writes (indent : Bool) (level : Int) (body : Text) (run : Strbuf → Option Strbuf) : Prop :=
  ∀ {s : Strbuf} {text : Text}, s.Holds text indent level → (text ++ body).length ≤ 2 ^ 28 →
    ∃ s', run s = some s' ∧ s'.Holds (text ++ body) indent level

/-- A list is written if its loop writes its elements and the level is not the
largest `int`. -/
theorem writes_list (hhost : host.Grants) (hlevel : indent = true → 0 ≤ level)
    (hmax : level + 1 < 2 ^ 31) {element : Strbuf → Mem → Option Strbuf} {attr : Mem} {rem : Nat}
    (array : Bool) {es : List Element}
    (hloop : Writes indent (level + 1) (renderElements indent (level + 1) array true es)
      fun s => (forEachAttr (listBody host element) rem attr rem (s, true)).map Prod.fst) :
    Writes indent level (renderList indent level array es)
      fun s => blobmsgFormatJsonList host element s attr rem array := by
  intro s text h hsize
  simp only [renderList, List.length_append, List.length_cons, List.length_nil] at hsize
  obtain ⟨s₁, hopen, h₁⟩ := h.put hhost
    (show (text ++ [if array then openBracket else openBrace]).length ≤ 2 ^ 28 by
      simp only [List.length_append, List.length_cons, List.length_nil]; omega)
  obtain ⟨s₂, hsep, h₂⟩ := (h₁.setLevel (level + 1)).addSeparator hhost
    (fun hindent => by have := hlevel hindent; omega)
    (by simp only [List.length_append, List.length_cons, List.length_nil]; omega)
  obtain ⟨s₃, hrun, h₃⟩ := hloop h₂
    (by simp only [List.length_append, List.length_cons, List.length_nil]; omega)
  obtain ⟨⟨s₃, first⟩, hwalk, rfl⟩ := Option.map_eq_some_iff.mp hrun
  have hlevel₃ := h₃.level_eq
  obtain ⟨s₄, hsep', h₄⟩ := (h₃.setLevel level).addSeparator hhost hlevel
    (by simp only [List.length_append, List.length_cons, List.length_nil]; omega)
  obtain ⟨s₅, hclose, h₅⟩ := h₄.put hhost
    (show (_ ++ [if array then closeBracket else closeBrace]).length ≤ 2 ^ 28 by
      simp only [List.length_append, List.length_cons, List.length_nil]; omega)
  refine ⟨s₅, ?_, by simpa [renderList] using h₅⟩
  simp only at hlevel₃ ⊢
  rw [blobmsgFormatJsonList, hopen, Option.bind_some, h₁.level_eq, if_pos hmax, hsep,
    Option.bind_some, hwalk, Option.bind_some]
  simp only
  rw [hlevel₃, Int.add_sub_cancel, hsep', Option.bind_some, hclose]

/-- One turn of the loop. -/
theorem Strbuf.Holds.listBody (hhost : host.Grants) (h : s.Holds text indent level)
    (hlevel : indent = true → 0 ≤ level) (element : Strbuf → Mem → Option Strbuf) {pos : Mem}
    {t : Text} (helement : Writes indent level t fun s => element s pos) (first : Bool)
    (hsize : (text ++ ((if first then [] else comma :: separatorText indent level) ++ t)).length
      ≤ 2 ^ 28) :
    ∃ s', listBody host element (s, first) pos = some (.next (s', false)) ∧
      s'.Holds (text ++ ((if first then [] else comma :: separatorText indent level) ++ t))
        indent level := by
  cases first with
  | true =>
      obtain ⟨s', hrun, hs'⟩ := helement h hsize
      refine ⟨s', ?_, hs'⟩
      simp only at hrun
      rw [Blobmsg.listBody, if_pos rfl, Option.bind_some, hrun, Option.map_some]
  | false =>
      simp only [Bool.false_eq_true, if_false, List.length_append, List.length_cons] at hsize ⊢
      obtain ⟨s₁, hput, h₁⟩ := h.put hhost (show (text ++ [comma]).length ≤ 2 ^ 28 by
        simp only [List.length_append, List.length_cons, List.length_nil]; omega)
      obtain ⟨s₂, hsep, h₂⟩ := h₁.addSeparator hhost hlevel
        (by simp only [List.length_append, List.length_cons, List.length_nil]; omega)
      obtain ⟨s₃, hrun, h₃⟩ := helement h₂
        (by simp only [List.length_append, List.length_cons, List.length_nil]; omega)
      refine ⟨s₃, ?_, by simpa using h₃⟩
      simp only at hrun
      rw [Blobmsg.listBody, if_neg Bool.false_ne_true, hput, Option.bind_some, hsep, Option.bind_some,
        hrun, Option.map_some]

/-- A table or an array is written as its list is. -/
theorem Strbuf.Holds.formatNest (hhost : host.Grants) (h : s.Holds text indent level)
    {inner : Bool} {name pad : Mem} {len : Nat} (wf : WellFormed (containerType inner) name pad len)
    {depth : Nat} {array : Bool} {children : List Element} {rest : Mem}
    (hlist : Writes indent level (renderList indent level inner children) fun s =>
      blobmsgFormatJsonList host
        (fun s pos => blobmsgFormatElement host depth s pos inner false) s rest len inner)
    (hsize : (text ++ renderElement indent level array (.nest inner name children)).length
      ≤ 2 ^ 28) :
    ∃ s', blobmsgFormatElement host (depth + 1) s
        (frame (containerType inner) name pad len ++ rest) array false = some s' ∧
      s'.Holds (text ++ renderElement indent level array (.nest inner name children))
        indent level := by
  have hrender : renderElement indent level array (.nest inner name children)
      = nameText indent array name ++ renderList indent level inner children := rfl
  rw [hrender, ← List.append_assoc text] at hsize ⊢
  obtain ⟨s₁, hname, h₁⟩ := h.formatName hhost wf array rest
    (by rw [List.length_append] at hsize; omega)
  obtain ⟨s₂, hrun, h₂⟩ := hlist h₁ hsize
  refine ⟨s₂, ?_, h₂⟩
  have hcontainer := isContainer_containerType inner
  rw [blobmsgFormatElement, wf.blobmsgCheckAttr_container (by simp) hcontainer, Option.bind_some,
    if_neg (by simp), hname, Option.bind_some, wf.blobmsgData_eq, Option.bind_some,
    wf.blobmsgDataLen_eq, Option.bind_some, h₁.format, wf.blobId_eq]
  simp only [Bool.false_eq_true, if_false, Option.bind_none, Option.bind_some, hcontainer, if_true,
    Int.toNat_natCast, containerType_eq_array]
  rw [if_neg (by cases inner <;> decide)]
  exact hrun

/-- **The loop over well-formed elements writes them.**  The induction is on the
bytes; the level goes up with the nesting as the bound on the depth goes down. -/
theorem writes_elements (hhost : host.Grants) {es : List Element} {bs : Mem} (hes : Holds es bs) :
    ∀ (depth fuel : Nat) (rest : Mem) {level : Int} {array : Bool} (first : Bool),
      Propers array es → (indent = true → 0 ≤ level) → level + depths es < 2 ^ 31 →
      bs.length ≤ depth → bs.length ≤ fuel →
      Writes indent level (renderElements indent level array first es) fun s =>
        (forEachAttr (listBody host fun s pos => blobmsgFormatElement host depth s pos array false)
          fuel (bs ++ rest) bs.length (s, first)).map Prod.fst := by
  induction hes with
  | nil =>
      intro depth fuel rest level array first _ _ _ _ _ s text h _
      refine ⟨s, ?_, by simpa [renderElements] using h⟩
      cases fuel <;> rfl
  | @data type name namePad data pad tail es wf fits hpad htail ih =>
      intro depth fuel rest level array first hproper hlevel hmax hdepth hfuel s text h hsize
      have hlen : (frame type name namePad data.length ++ (data ++ pad)).length
          = 4 + blobmsgHdrlen name.length + alignUp 4 data.length := by
        have hle := le_alignUp_four data.length
        rw [List.length_append, frame_length wf.name_fits, List.length_append]
        omega
      have hpadlen : blobPadLen
          (frame type name namePad data.length ++ (data ++ pad) ++ (tail ++ rest))
          = some (frame type name namePad data.length ++ (data ++ pad)).length := by
        rw [hlen, List.append_assoc, wf.blobPadLen_eq]
      rw [List.length_append] at hdepth hfuel
      obtain ⟨fuel, rfl⟩ : ∃ k, fuel = k + 1 := ⟨fuel - 1, by omega⟩
      obtain ⟨depth, rfl⟩ : ∃ k, depth = k + 1 := ⟨depth - 1, by omega⟩
      have hwrite : Writes indent level (renderElement indent level array (.data type name data))
          fun s => blobmsgFormatElement host (depth + 1) s
            (frame type name namePad data.length ++ (data ++ pad) ++ (tail ++ rest)) array false := by
        intro s text h hsize
        obtain ⟨s', hrun, hs'⟩ := h.formatData hhost wf fits hproper.1 depth
          (pad ++ (tail ++ rest)) hsize
        refine ⟨s', ?_, hs'⟩
        rw [← hrun]
        simp only [List.append_assoc]
      rw [renderElements, ← List.append_assoc] at hsize
      obtain ⟨s₁, hbody, h₁⟩ := h.listBody hhost hlevel
        (fun s pos => blobmsgFormatElement host (depth + 1) s pos array false) hwrite first
        (by rw [List.length_append] at hsize; omega)
      obtain ⟨s₂, hloop, h₂⟩ := ih (depth + 1) fuel rest false hproper.2 hlevel
        (by simp only [depths] at hmax; omega) (by omega) (by omega) h₁ hsize
      refine ⟨s₂, ?_, by rwa [renderElements, ← List.append_assoc]⟩
      simp only at hloop ⊢
      rw [forEachAttr_cons hpadlen (by omega) hbody, hloop]
  | @nest inner name namePad body tail children es wf hinner htail ihInner ih =>
      intro depth fuel rest level array first hproper hlevel hmax hdepth hfuel s text h hsize
      have hlen : (frame (containerType inner) name namePad body.length ++ body).length
          = 4 + blobmsgHdrlen name.length + body.length := by
        rw [List.length_append, frame_length wf.name_fits]
      have hpadlen : blobPadLen
          (frame (containerType inner) name namePad body.length ++ body ++ (tail ++ rest))
          = some (frame (containerType inner) name namePad body.length ++ body).length := by
        rw [hlen, List.append_assoc, wf.blobPadLen_eq, alignUp_four_of_mod hinner.length_mod]
      have hchildren : level + 1 + depths children < 2 ^ 31 := by
        simp only [depths, Element.depth] at hmax
        omega
      rw [List.length_append] at hdepth hfuel
      obtain ⟨fuel, rfl⟩ : ∃ k, fuel = k + 1 := ⟨fuel - 1, by omega⟩
      obtain ⟨depth, rfl⟩ : ∃ k, depth = k + 1 := ⟨depth - 1, by omega⟩
      have hwrite : Writes indent level (renderElement indent level array (.nest inner name children))
          fun s => blobmsgFormatElement host (depth + 1) s
            (frame (containerType inner) name namePad body.length ++ body ++ (tail ++ rest))
            array false := by
        intro s text h hsize
        rw [List.append_assoc]
        exact h.formatNest hhost wf (writes_list hhost hlevel (by omega) inner
          (ihInner depth body.length (tail ++ rest) true hproper.1.2
            (fun hindent => by have := hlevel hindent; omega) hchildren (by omega) (by omega))) hsize
      rw [renderElements, ← List.append_assoc] at hsize
      obtain ⟨s₁, hbody, h₁⟩ := h.listBody hhost hlevel
        (fun s pos => blobmsgFormatElement host (depth + 1) s pos array false) hwrite first
        (by rw [List.length_append] at hsize; omega)
      obtain ⟨s₂, hloop, h₂⟩ := ih (depth + 1) fuel rest false hproper.2 hlevel
        (by simp only [depths] at hmax; omega) (by omega) (by omega) h₁ hsize
      refine ⟨s₂, ?_, by rwa [renderElements, ← List.append_assoc]⟩
      simp only at hloop ⊢
      rw [forEachAttr_cons hpadlen (by omega) hbody, hloop]

end Libubox.Blobmsg
