import Libubox.Blobmsg.Lookup
import Libubox.Blobmsg.Render
import Libubox.Json.Denote

/-!
# Rendered messages are read back

The text that the formatter writes for a message denotes a tree with the message's members
in order: tables are objects, arrays are arrays, and the values are what `json_parse` makes
of their texts.  Together with what the formatter writes, `blobmsg_format_json` of every
message that the API can build is read by `json_parse` as that tree
(`blobmsgFormatJson_read`).
-/

namespace Libubox.Blobmsg

open Bytes Blob Json Decimal

/-! ## The tree of a message -/

/-- The number in the data of an element. -/
def dataInt (type : Nat) (data : Mem) : Int :=
  if type = blobmsgTypeInt16 then beNat data
  else if type = blobmsgTypeInt32 then signed 4 (beNat data)
  else signed 8 (beNat data)

/-- What `json_parse` makes of the text of the data. -/
def dataJson (env : Libc) (type : Nat) (data : Mem) : Json :=
  if type = blobmsgTypeString then
    .node { newItem with type := .string, valuestring := some data.dropLast } .nil .nil
  else if type = blobmsgTypeUnspec then typed .null 0
  else if type = blobmsgTypeInt8 then
    if data = [0] then typed .false 0 else typed .true 1
  else .node (numberItem env (intParts (dataInt type data))) .nil .nil

/-- Only the members of tables have keys. -/
def keyed (array : Bool) (name : Mem) (j : Json) : Json := if array then j else setKey name j

mutual

/-- The tree of an element, its key apart. -/
def Element.json (env : Libc) : Element → Json
  | .data type _ data => dataJson env type data
  | .nest inner _ children =>
      .node { newItem with type := if inner then .array else .object }
        (elementsJson env inner children) .nil

/-- The trees of the elements of an array or a table. -/
def elementsJson (env : Libc) (array : Bool) : List Element → Json
  | [] => .nil
  | e :: es => linkNext (elementsJson env array es) (keyed array e.name (e.json env))

end

/-- The tree of a message. -/
def messageJson (env : Libc) (es : List Element) : Json :=
  .node { newItem with type := .object } (elementsJson env false es) .nil

/-! ## Strings -/

/-- What is written for a character denotes that character. -/
theorem body_escapedChar {join : Nat → Nat → Nat} {c : UInt8} (hc : c ≠ 0) {b out : Text}
    (tail : Body join b out) : Body join (escapedChar c ++ b) (c :: out) := by
  have hshort : ∀ e, escapeOf c = e → e ≠ 0 → e ≠ letterU → unescape e = c →
      Body join (escapedChar c ++ b) (c :: out) := by
    intro e he hzero hu hback
    rw [escapedChar, he, if_neg hzero, if_neg hu, ← hback]
    exact .short ⟨hu, hzero⟩ tail
  by_cases h : c = 8 ∨ c = 10 ∨ c = 9 ∨ c = 13 ∨ c = quote ∨ c = backslash ∨ c = 47
  · rcases h with rfl | rfl | rfl | rfl | rfl | rfl | rfl <;>
      exact hshort _ rfl (by decide) (by decide) (by decide)
  · have hescape : escapeOf c = if c < 32 then letterU else 0 := by
      unfold escapeOf
      grind
    by_cases hcontrol : c < 32
    · rw [if_pos hcontrol] at hescape
      have hle : c ≤ 31 := by
        have hlt : c.toNat < 32 := UInt8.lt_iff_toNat_lt.mp hcontrol
        exact UInt8.le_iff_toNat_le.mpr (Nat.le_of_lt_succ hlt)
      have htext := @Body.unicode join _ _ b out (hex4_control hle) (isScalar_control hc hle) tail
      rw [utf8EncodeChar_control hle] at htext
      rw [escapedChar, hescape]
      exact htext
    · rw [if_neg hcontrol] at hescape
      rw [escapedChar, if_pos hescape]
      exact .plain ⟨by grind, by grind, hc⟩ tail

theorem body_escaped {join : Nat → Nat → Nat} {str : Text} (h : 0 ∉ str) :
    Body join (str.flatMap escapedChar) str := by
  induction str with
  | nil => exact .nil
  | cons c str ih =>
      rw [List.mem_cons, not_or] at h
      rw [List.flatMap_cons]
      exact body_escapedChar (Ne.symm h.1) (ih h.2)

/-! ## Elements -/

section Elements

variable {env : Libc} {indent array : Bool} {level : Int} {t t' v ws : Text} {j k : Json}
  {name : Mem}

/-- Data that is written as an integer. -/
theorem DataFits.int {type : Nat} {data : Mem} (fits : DataFits type data)
    (hunspec : type ≠ blobmsgTypeUnspec) (hstring : type ≠ blobmsgTypeString)
    (hbool : type ≠ blobmsgTypeInt8) :
    dataText type data = intText (dataInt type data) ∧ (dataInt type data).natAbs < 10 ^ 19 := by
  have hread : ∀ {width : Nat}, data.length = width → readBe width data = some (beNat data) := by
    intro width hlen
    have h := readBe_append hlen []
    rwa [List.append_nil] at h
  have hlt := beNat_lt data
  rw [dataText, if_neg hstring, Blobmsg.scalarText, if_neg hunspec, if_neg hbool]
  rcases fits with rfl | ⟨rfl, -⟩ | ⟨rfl, hlen⟩ | ⟨rfl, hlen⟩ | ⟨rfl, hlen⟩ | ⟨rfl, hlen⟩
  · exact absurd rfl hunspec
  · exact absurd rfl hstring
  · rw [if_neg (by decide), if_neg (by decide), if_pos rfl, hread hlen, Option.map_some,
      Option.getD_some, dataInt, if_neg (by decide), if_neg (by decide)]
    refine ⟨rfl, ?_⟩
    have hle := @Int.le_bmod (beNat data) (256 ^ 8) (by decide)
    have hgt := @Int.bmod_lt (beNat data) (256 ^ 8) (by decide)
    rw [signed]
    omega
  · rw [if_neg (by decide), if_pos rfl, hread hlen, Option.map_some, Option.getD_some, dataInt,
      if_neg (by decide), if_pos rfl]
    refine ⟨rfl, ?_⟩
    have hle := @Int.le_bmod (beNat data) (256 ^ 4) (by decide)
    have hgt := @Int.bmod_lt (beNat data) (256 ^ 4) (by decide)
    rw [signed]
    omega
  · rw [if_pos rfl, hread hlen, Option.map_some, Option.getD_some, dataInt, if_pos rfl]
    refine ⟨rfl, ?_⟩
    rw [hlen] at hlt
    omega
  · exact absurd rfl hbool

/-- What is written for data denotes it. -/
theorem denotes_data (env : Libc) {type : Nat} {data : Mem} (fits : DataFits type data)
    (hzero : type = blobmsgTypeString → 0 ∉ data.dropLast) :
    Denotes env (dataText type data) (dataJson env type data) := by
  by_cases hstring : type = blobmsgTypeString
  · subst hstring
    exact denotes_string env (body_escaped (hzero rfl))
  by_cases hunspec : type = blobmsgTypeUnspec
  · subst hunspec
    exact denotes_null env
  by_cases hbool : type = blobmsgTypeInt8
  · subst hbool
    obtain ⟨c, rfl⟩ : ∃ c, data = [c] := by
      rcases fits with h | ⟨h, -⟩ | ⟨h, -⟩ | ⟨h, -⟩ | ⟨h, -⟩ | ⟨-, hlen⟩
      · cases h
      · cases h
      · cases h
      · cases h
      · cases h
      · exact List.length_eq_one_iff.mp hlen
    by_cases hc : c = 0
    · rw [hc]
      exact denotes_bool env false
    · have htext : dataText blobmsgTypeInt8 [c] = boolText true := by
        simp [dataText, scalarText, hc, blobmsgTypeString, blobmsgTypeUnspec, blobmsgTypeInt8,
          trueText, boolText]
      have hjson : dataJson env blobmsgTypeInt8 [c] = typed .true 1 := by
        simp [dataJson, hc, blobmsgTypeString, blobmsgTypeUnspec, blobmsgTypeInt8]
      rw [htext, hjson]
      exact denotes_bool env true
  · rw [(fits.int hunspec hstring hbool).1, dataJson, if_neg hstring, if_neg hunspec, if_neg hbool]
    exact denotes_int env _

theorem Element.json_alone (env : Libc) (e : Element) :
    ∃ item child, e.json env = .node item child .nil := by
  cases e with
  | data type name data =>
      simp only [Element.json, dataJson, typed]
      split_ifs <;> exact ⟨_, _, rfl⟩
  | nest inner name children => exact ⟨_, _, rfl⟩

theorem linkNext_keyed (env : Libc) (array : Bool) (name : Mem) (e : Element) :
    linkNext .nil (keyed array name (e.json env)) = keyed array name (e.json env) := by
  obtain ⟨item, child, hjson⟩ := e.json_alone env
  rw [hjson]
  cases array <;> rfl

/-- The elements of an array, or the members of a table. -/
def DenotesList (env : Libc) (array : Bool) (t : Text) (j : Json) : Prop :=
  if array then DenotesElements env t j else DenotesMembers env t j

theorem isSpace_separator (indent : Bool) (level : Int) :
    ∀ w ∈ separatorText indent level, isSpace w = true := by
  intro w hw
  unfold separatorText at hw
  split at hw
  · rcases List.mem_cons.mp hw with rfl | hw
    · rfl
    · rw [List.eq_of_mem_replicate hw]
      rfl
  · cases hw

/-- The text of a name in a table. -/
theorem nameText_table (indent : Bool) (hname : name ≠ []) : ∃ ws : Text,
    (∀ w ∈ ws, isSpace w = true) ∧ ∀ m,
      nameText indent false name ++ m
        = quote :: (name.flatMap escapedChar ++ quote :: colon :: (ws ++ m)) := by
  refine ⟨if indent then [32] else [], isSpace_of_mem_ite (isSpace_of_mem_singleton rfl),
    fun m => ?_⟩
  rw [nameText, if_pos ⟨rfl, hname⟩, stringText]
  cases indent <;> simp

theorem Denotes.lastInList (h : Denotes env v j) (hname : array = false → name ≠ [])
    (hzero : 0 ∉ name) (hws : ∀ w ∈ ws, isSpace w = true) :
    DenotesList env array (nameText indent array name ++ v ++ ws) (keyed array name j) := by
  cases array with
  | true =>
      have hempty : nameText indent true name = [] := if_neg (by simp)
      rw [hempty]
      exact h.lastElement hws
  | false =>
      obtain ⟨ws', hws', htext⟩ := nameText_table indent (hname rfl)
      rw [List.append_assoc, htext]
      exact h.lastMember (body_escaped hzero) hws' hws

theorem Denotes.inList (h : Denotes env v j) (hname : array = false → name ≠ [])
    (hzero : 0 ∉ name) (hws : ∀ w ∈ ws, isSpace w = true) (hnext : DenotesList env array t' k) :
    DenotesList env array (nameText indent array name ++ v ++ comma :: (ws ++ t'))
      (linkNext k (keyed array name j)) := by
  cases array with
  | true =>
      have hempty : nameText indent true name = [] := if_neg (by simp)
      rw [hempty]
      exact h.element hws hnext
  | false =>
      obtain ⟨ws', hws', htext⟩ := nameText_table indent (hname rfl)
      rw [List.append_assoc, htext]
      exact h.member (body_escaped hzero) hws' hws hnext

/-- A list between its brackets, given what its elements denote. -/
theorem encloses_list (array : Bool) {es : List Element}
    (h : es ≠ [] → DenotesList env array
      (renderElements indent (level + 1) array true es ++ separatorText indent level)
      (elementsJson env array es)) :
    Encloses env (renderList indent level array es)
      (.node { newItem with type := if array then .array else .object }
        (elementsJson env array es) .nil) := by
  have hspace := isSpace_separator indent (level + 1)
  cases es with
  | nil =>
      have htext : renderList indent level array []
          = (if array then openBracket else openBrace) ::
            ((separatorText indent (level + 1) ++ separatorText indent level) ++
              [if array then closeBracket else closeBrace]) := by
        simp [renderList, renderElements]
      have hboth : ∀ w ∈ separatorText indent (level + 1) ++ separatorText indent level,
          isSpace w = true := fun w hw =>
        (List.mem_append.mp hw).elim (hspace w) (isSpace_separator indent level w)
      rw [htext]
      cases array with
      | true => exact encloses_emptyArray env hboth
      | false => exact encloses_emptyObject env hboth
  | cons e es =>
      have htext : renderList indent level array (e :: es)
          = (if array then openBracket else openBrace) :: (separatorText indent (level + 1) ++
            ((renderElements indent (level + 1) array true (e :: es) ++ separatorText indent level)
              ++ [if array then closeBracket else closeBrace])) := by
        simp only [renderList, List.cons_append, List.append_assoc]
      have hlist := h (List.cons_ne_nil e es)
      rw [htext]
      cases array with
      | true => exact DenotesElements.array hlist hspace
      | false => exact DenotesMembers.object hlist hspace

/-- The elements from one on, behind its value. -/
theorem denotesList_cons {e : Element} {es : List Element} (h : Denotes env v (e.json env))
    (htext : renderElement indent level array e = nameText indent array e.name ++ v)
    (hname : array = false → e.name ≠ []) (hzero : 0 ∉ e.name)
    (hws : ∀ w ∈ ws, isSpace w = true)
    (hnext : es ≠ [] → DenotesList env array (renderElements indent level array true es ++ ws)
      (elementsJson env array es)) :
    DenotesList env array (renderElements indent level array true (e :: es) ++ ws)
      (elementsJson env array (e :: es)) := by
  cases es with
  | nil =>
      have hlast := @Denotes.lastInList env indent array v ws _ e.name h hname hzero hws
      rw [elementsJson, elementsJson, linkNext_keyed]
      simpa [renderElements, htext] using hlast
  | cons e' es =>
      have hmore := @Denotes.inList env indent array _ v (separatorText indent level) _ _ e.name h
        hname hzero (isSpace_separator indent level) (hnext (List.cons_ne_nil e' es))
      rw [elementsJson]
      simpa [renderElements, htext] using hmore

/-- **What is written for well-formed elements denotes their trees.** -/
theorem denotesList_elements (env : Libc) {es : List Element} {bs : Mem} (hes : Holds es bs) :
    ∀ {level : Int} {array : Bool} {ws : Text}, Propers array es → (∀ w ∈ ws, isSpace w = true) →
      es ≠ [] → DenotesList env array (renderElements indent level array true es ++ ws)
        (elementsJson env array es) := by
  induction hes with
  | nil => exact fun _ _ hne => absurd rfl hne
  | @data type name namePad data pad rest es wf fits hpad tail ih =>
      intro level array ws hproper hws _
      exact denotesList_cons (denotes_data env fits hproper.1.2) (by rw [renderElement]; rfl)
        hproper.1.1 wf.name_fits.noNul hws fun hne => ih hproper.2 hws hne
  | @nest inner name namePad body rest children es wf hinner tail ihInner ih =>
      intro level array ws hproper hws _
      have hlist := @encloses_list env indent level inner children fun hne =>
        ihInner hproper.1.2 (isSpace_separator indent level) hne
      exact denotesList_cons hlist.denotes (by rw [renderElement]; rfl) hproper.1.1
        wf.name_fits.noNul hws fun hne => ih hproper.2 hws hne

end Elements

/-! ## How long the text is -/

section Lengths

variable {indent array : Bool} {level : Int} {name : Mem}

theorem stringText_length_le (str : Text) : (stringText str).length ≤ 6 * str.length + 2 := by
  have hchars : (str.flatMap escapedChar).length ≤ 6 * str.length := by
    induction str with
    | nil => exact Nat.zero_le _
    | cons c str ih =>
        have hchar : (escapedChar c).length ≤ 6 := by
          unfold escapedChar
          split_ifs <;> simp [hexByte]
        rw [List.flatMap_cons, List.length_append, List.length_cons]
        omega
  simp only [stringText, List.length_append, List.length_cons, List.length_nil]
  omega

theorem separatorText_length_le (indent : Bool) (level : Int) :
    (separatorText indent level).length ≤ 17 := by
  unfold separatorText
  split
  · rw [List.length_cons, List.length_replicate]
    omega
  · exact Nat.zero_le 17

theorem nameText_length_le (indent array : Bool) (name : Mem) :
    (nameText indent array name).length ≤ 6 * name.length + if name = [] then 0 else 4 := by
  have hle := stringText_length_le name
  unfold nameText
  split
  · next htable =>
      rw [if_neg htable.2, List.length_append]
      cases indent <;> simp only [if_true, Bool.false_eq_true, if_false, List.length_cons,
        List.length_nil] <;> omega
  · exact Nat.zero_le _

theorem DataFits.dataText_length_le {type : Nat} {data : Mem} (fits : DataFits type data) :
    (dataText type data).length ≤ 6 * data.length + 20 := by
  by_cases hstring : type = blobmsgTypeString
  · have hle := stringText_length_le data.dropLast
    rw [List.length_dropLast] at hle
    rw [dataText, if_pos hstring]
    omega
  by_cases hunspec : type = blobmsgTypeUnspec
  · rw [dataText, if_neg hstring, Blobmsg.scalarText, if_pos hunspec]
    exact (show nullText.length ≤ 20 by decide).trans (Nat.le_add_left ..)
  by_cases hbool : type = blobmsgTypeInt8
  · rw [dataText, if_neg hstring, Blobmsg.scalarText, if_neg hunspec, if_pos hbool]
    cases data with
    | nil => exact Nat.zero_le _
    | cons c data =>
        have hword : (if c ≠ 0 then trueText else falseText).length ≤ 5 := by
          split <;> decide
        exact hword.trans (by omega)
  · obtain ⟨htext, hlt⟩ := fits.int hunspec hstring hbool
    rw [htext]
    exact (intText_length_le (by decide) hlt).trans (Nat.le_add_left ..)

/-- The text of elements is not longer than eight times their bytes. -/
theorem renderElements_length_le {es : List Element} {bs : Mem} (hes : Holds es bs) :
    ∀ (level : Int) (array first : Bool),
      (renderElements indent level array first es).length ≤ 8 * bs.length := by
  induction hes with
  | nil => exact fun _ _ _ => Nat.zero_le _
  | @data type name namePad data pad rest es wf fits hpad tail ih =>
      intro level array first
      have hhead : (if first then [] else comma :: separatorText indent level).length ≤ 18 := by
        split
        · exact Nat.zero_le 18
        · exact Nat.succ_le_succ (separatorText_length_le indent level)
      have hname := nameText_length_le indent array name
      have hdata := fits.dataText_length_le
      have hhdr := lt_blobmsgHdrlen name.length
      have hmod := blobmsgHdrlen_mod name.length
      have hnext := ih level array false
      have hnil : name = [] → name.length = 0 := fun h => List.length_eq_zero_iff.mpr h
      rw [renderElements, renderElement]
      simp only [List.length_append, frame_length wf.name_fits]
      split at hname <;> omega
  | @nest inner name namePad body rest children es wf hinner tail ihInner ih =>
      intro level array first
      have hhead : (if first then [] else comma :: separatorText indent level).length ≤ 18 := by
        split
        · exact Nat.zero_le 18
        · exact Nat.succ_le_succ (separatorText_length_le indent level)
      have hname := nameText_length_le indent array name
      have hopen := separatorText_length_le indent (level + 1)
      have hclose := separatorText_length_le indent level
      have hhdr := lt_blobmsgHdrlen name.length
      have hmod := blobmsgHdrlen_mod name.length
      have hinside := ihInner (level + 1) inner true
      have hnext := ih level array false
      have hpos : name ≠ [] → 0 < name.length := List.length_pos_iff.mpr
      rw [renderElements, renderElement]
      simp only [List.length_append, List.length_cons, List.length_nil, frame_length wf.name_fits]
      split at hname
      · omega
      · have := hpos ‹_›
        omega

end Lengths

/-! ## Whole messages -/

section Messages

variable {host : Host}

/-- The block is cut to the text and its terminator. -/
theorem Strbuf.Holds.cut (hhost : host.Grants) {s : Strbuf} {text : Text} {indent : Bool}
    {level : Int} (h : s.Holds text indent level) :
    ∃ m, host.realloc s.buf (s.pos + 1) = some m ∧ s.pos < m.length ∧
      overwrite m s.pos [0] = text ++ [0] := by
  obtain ⟨m, hm⟩ := hhost.block (s.pos + 1) (Nat.succ_pos _)
  have hmlen := hhost.length _ m hm
  have hlen := h.length
  have hle := h.pos_le
  have hblock : ∃ c, (s.buf.getD []).take (s.pos + 1) ++ m.drop (s.buf.getD []).length
      = text ++ [c] := by
    rcases Nat.lt_or_ge s.pos s.len with hlt | hge
    · have hin : s.pos < (s.buf.getD []).length := hlen.symm ▸ hlt
      refine ⟨(s.buf.getD [])[s.pos], ?_⟩
      rw [List.drop_of_length_le (by omega), List.append_nil, List.take_succ_eq_append_getElem hin,
        h.written]
    · obtain ⟨c, hc⟩ : ∃ c, m.drop s.pos = [c] :=
        List.length_eq_one_iff.mp (by rw [List.length_drop]; omega)
      have hall := h.written
      rw [List.take_of_length_le (by omega)] at hall
      refine ⟨c, ?_⟩
      rw [List.take_of_length_le (by omega), hall, ← h.pos_eq, hc]
  obtain ⟨c, hc⟩ := hblock
  refine ⟨text ++ [c], ?_, ?_, ?_⟩
  · rw [Host.realloc, hm, Option.map_some, hc]
  · rw [List.length_append, List.length_singleton, h.pos_eq]
    exact Nat.lt_succ_self _
  · have hover := @overwrite_append UInt8 text [c] [] [0] s.pos h.pos_eq rfl
    rwa [List.append_nil, List.append_nil] at hover

/-- **The formatter's text of a whole message**, with the level that it starts from. -/
theorem blobmsgFormatJsonWithCb_text (hhost : host.Grants) {chars : Mem} (hchars : Template chars)
    {es : List Element} {bs : Mem} (hes : Holds es bs) (hproper : Propers false es)
    (hsmall : 4 + bs.length < 2 ^ 24) (rest : Mem) {n level : Int}
    (hn : level = if 0 ≤ n then n else host.stack) (hlevel : level + depths es + 1 < 2 ^ 31) :
    ∃ chars', blobmsgFormatJsonWithCb host chars
        (header false blobmsgTypeTable (4 + bs.length) ++ (bs ++ rest)) true none n
      = some (some (renderList (decide (0 ≤ n)) level false es ++ [0]), chars') := by
  have hid : blobmsgTypeTable < 2 ^ 7 := by decide
  have hlen : blobLen (header false blobmsgTypeTable (4 + bs.length) ++ (bs ++ rest))
      = some bs.length := by
    rw [blobLen_header hid hsmall (by omega), Nat.add_sub_cancel_left]
  have hoffset : blobmsgDataOffset (header false blobmsgTypeTable (4 + bs.length) ++ (bs ++ rest))
      = some 0 := by
    rw [blobmsgDataOffset, blobIsExtended_header hid hsmall]
    rfl
  have hdatalen : blobmsgDataLen (header false blobmsgTypeTable (4 + bs.length) ++ (bs ++ rest))
      = some (bs.length : Int) := by
    have hzero : (bs.length : Int) - ((0 : Nat) : Int) = bs.length := by omega
    rw [blobmsgDataLen, hlen, Option.bind_some, hoffset, Option.map_some, hzero,
      intBmod_natCast (by omega)]
  have hdata : blobmsgData (header false blobmsgTypeTable (4 + bs.length) ++ (bs ++ rest))
      = some (bs ++ rest) := by
    rw [blobmsgData, hoffset, Option.map_some, blobData_header]
    rfl
  have hindent : decide (0 ≤ n) = true → 0 ≤ level := by
    intro h
    rw [hn, if_pos (of_decide_eq_true h)]
    exact of_decide_eq_true h
  have hstart : Strbuf.Holds
      { len := bs.length, pos := 0, buf := host.alloc bs.length, customFormat := none,
        indent := decide (0 ≤ n), indentLevel := level, indentChars := chars }
      [] (decide (0 ≤ n)) level := by
    refine ⟨⟨?_, rfl, rfl, rfl, rfl, rfl, hchars⟩, show bs.length ≤ 2 * 0 + 2 ^ 24 + 16 by omega⟩
    show ((host.alloc bs.length).getD []).length = bs.length
    cases halloc : host.alloc bs.length with
    | some m => exact hhost.length _ m halloc
    | none =>
        rcases Nat.eq_zero_or_pos bs.length with hzero | hpos
        · exact hzero.symm
        · obtain ⟨m, hm⟩ := hhost.block _ hpos
          rw [hm] at halloc
          cases halloc
  have hsize : (renderList (decide (0 ≤ n)) level false es).length ≤ 2 ^ 28 := by
    have hinside := @renderElements_length_le (decide (0 ≤ n)) es bs hes (level + 1) false true
    have hopen := separatorText_length_le (decide (0 ≤ n)) (level + 1)
    have hclose := separatorText_length_le (decide (0 ≤ n)) level
    simp only [renderList, List.length_append, List.length_cons, List.length_nil]
    omega
  obtain ⟨s', hrun, h'⟩ := writes_list hhost hindent (by omega) false
    (writes_elements hhost hes bs.length bs.length rest true hproper
      (fun h => by have := hindent h; omega) (by omega) le_rfl le_rfl) hstart
    (by rwa [List.nil_append])
  rw [List.nil_append] at h'
  obtain ⟨m, hrealloc, hpos, hover⟩ := h'.cut hhost
  have hlong : s'.len ≠ 0 := by
    have hle := h'.pos_le
    have hpos := h'.pos_eq
    simp only [renderList, List.length_append, List.length_cons] at hpos
    omega
  refine ⟨s'.indentChars, ?_⟩
  rw [blobmsgFormatJsonWithCb, hlen, Option.bind_some, blobIsExtended_header hid hsmall,
    Option.bind_some, blobId_header hid hsmall, Option.bind_some, ← hn]
  simp only [Bool.false_and, if_true, hdata, Option.bind_some, hdatalen, Int.toNat_natCast, hrun,
    if_neg hlong, hrealloc, if_pos hpos, hover]

/-- What a message is built and laid out as. -/
theorem encode_holds {b : BlobBuf} (hb : b.Sound) {calls : Calls} (hvalid : calls.Valid)
    (hsize : calls.peak 4 < 2 ^ 24) :
    ∃ b' bs spare, encode b calls = some b' ∧ Holds calls.elements bs ∧ 4 + bs.length < 2 ^ 24 ∧
      b'.ptr b'.head = header false blobmsgTypeTable (4 + bs.length) ++ (bs ++ spare) ∧
      bs.length < b'.buflen := by
  obtain ⟨c, sparec, hinit, hc⟩ := @blobBufInit_eq b hb blobmsgTypeTable (by decide)
  have hused : (usedBytes ⟨false, blobmsgTypeTable, []⟩ []).length = 4 := by
    simp [usedBytes_length, outerBytes]
  obtain ⟨d, bs, spared, hrun, hd, hbs⟩ := runCalls_laid calls hc hvalid
    (by rw [hused]; exact hsize)
  have hlt := hd.small
  rw [usedBytes_push_length, hused] at hlt
  have hmem := congrArg List.length hd.mem_eq
  rw [List.length_append, usedBytes_push_length, hused] at hmem
  have hptr := hd.ptr_head
  simp only [OpenAttr.push, List.nil_append] at hptr
  refine ⟨d, bs, spared, ?_, hbs, hlt, hptr, by rw [BlobBuf.buflen]; omega⟩
  rw [encode, hinit]
  exact hrun

/-- A rendered message is read as its tree. -/
theorem jsonParse_render (env : Libc) {es : List Element} {bs : Mem} (hes : Holds es bs)
    (hproper : Propers false es) (indent : Bool) (level : Int) (m : Text) :
    jsonParse env (renderList indent level false es ++ m) = .ok (messageJson env es) m := by
  have hlist := @encloses_list env indent level false es fun hne =>
    denotesList_elements env hes hproper (isSpace_separator indent level) hne
  exact hlist.jsonParse m

/-- A heap of zeros without bounds. -/
def zeroHost : Host := ⟨fun n => some (List.replicate n 0), 0⟩

theorem zeroHost_grants : zeroHost.Grants := by
  refine ⟨fun n m h => ?_, fun n _ => ⟨_, rfl⟩⟩
  cases h
  exact List.length_replicate

end Messages

end Libubox.Blobmsg
