import Libubox.Lib.Machine

/-!
# Simple commands of the POSIX shell

The shell's reading of a text that has nothing but simple commands in it, byte
by byte: words with single quotes and backslashes, separated by blanks, in
commands that a semicolon or a newline ends.  Any byte that would start an
expansion, a redirection, a comment, an assignment or another operator when it
is not quoted makes the reading fail, and so does a reserved word in front.

`commands text` is then the list of commands, each the list of its words.
`Reads` cuts a reading at any place; `Reads.enquote` is the text that brings
arbitrary bytes through single quotes.
-/

namespace Shell

abbrev Word := List UInt8

/-- A simple command: its name and its arguments. -/
abbrev Command := List Word

abbrev tab : UInt8 := 9
abbrev newline : UInt8 := 10
abbrev space : UInt8 := 32
abbrev quote : UInt8 := 39
abbrev semicolon : UInt8 := 59
abbrev backslash : UInt8 := 92

/-- Letters and digits. -/
def IsAlnum (c : UInt8) : Prop := 48 ≤ c ∧ c ≤ 57 ∨ 65 ≤ c ∧ c ≤ 90 ∨ 97 ≤ c ∧ c ≤ 122

instance (c : UInt8) : Decidable (IsAlnum c) := inferInstanceAs (Decidable (_ ∨ _))

/-- A byte that stands for itself in a word: `_`, `-`, `.` and `+` beside letters
and digits. -/
def IsPlain (c : UInt8) : Prop := IsAlnum c ∨ c = 95 ∨ c = 45 ∨ c = 46 ∨ c = 43

instance (c : UInt8) : Decidable (IsPlain c) := inferInstanceAs (Decidable (_ ∨ _))

/-- The reserved words made of letters: `if`, `then`, `else`, `elif`, `fi`, `do`,
`done`, `case`, `esac`, `while`, `until`, `for` and `in`. -/
def reserved : List Word :=
  [[105, 102], [116, 104, 101, 110], [101, 108, 115, 101], [101, 108, 105, 102], [102, 105],
    [100, 111], [100, 111, 110, 101], [99, 97, 115, 101], [101, 115, 97, 99],
    [119, 104, 105, 108, 101], [117, 110, 116, 105, 108], [102, 111, 114], [105, 110]]

/-! ## The reader -/

inductive Quoting where
  | bare
  | quoted
  | escaped
  deriving DecidableEq

/-- What has been read of a command: the word that is being read, if one has
begun, and the words before it. -/
structure Reader where
  quoting : Quoting
  word : Option Word
  words : List Word
  deriving DecidableEq

namespace Reader

/-- Between two commands. -/
def start : Reader := ⟨.bare, none, []⟩

/-- A byte of the word. -/
def append (r : Reader) (c : UInt8) : Reader :=
  { r with quoting := .bare, word := some (r.word.getD [] ++ [c]) }

/-- The words up to here. -/
def allWords (r : Reader) : List Word := r.words ++ r.word.toList

/-- A command ends that has a word in it. -/
def endCommand (r : Reader) : Option (Reader × List Command) :=
  match r.allWords with
  | [] => none
  | name :: args => if name ∈ reserved then none else some (start, [name :: args])

/-- One byte, and the commands that end with it. -/
def step (r : Reader) (c : UInt8) : Option (Reader × List Command) :=
  match r.quoting with
  | .quoted =>
      if c = quote then some ({ r with quoting := .bare }, [])
      else some ({ r.append c with quoting := .quoted }, [])
  | .escaped =>
      -- a backslash takes a newline away
      if c = newline then some ({ r with quoting := .bare }, []) else some (r.append c, [])
  | .bare =>
      if IsPlain c then some (r.append c, [])
      else if c = quote then some ({ r with quoting := .quoted, word := some (r.word.getD []) }, [])
      else if c = backslash then some ({ r with quoting := .escaped }, [])
      else if c = space ∨ c = tab then some ({ r with word := none, words := r.allWords }, [])
      else if c = semicolon then r.endCommand
      else if c = newline then
        if r.allWords = [] then some (start, []) else r.endCommand
      else none

end Reader

/-- The commands of a text. -/
def commands (text : List UInt8) : Option (List Command) :=
  (Machine.run Reader.step .start text).bind fun (r, trace) =>
    if r.quoting ≠ .bare then none
    else if r.allWords = [] then some trace.flatten
    else r.endCommand.map fun last => trace.flatten ++ last.2

/-! ## Reading a piece -/

/-- Reading `text` leads from `r` to `r'` and completes the commands `cs`. -/
def Reads (r : Reader) (text : List UInt8) (r' : Reader) (cs : List Command) : Prop :=
  ∃ trace, Machine.run Reader.step r text = some (r', trace) ∧ trace.flatten = cs

variable {r r' r'' : Reader} {text rest : List UInt8} {cs ds : List Command}

theorem Reads.nil (r : Reader) : Reads r [] r [] := ⟨[], rfl, rfl⟩

theorem Reads.append (h : Reads r text r' cs) (h' : Reads r' rest r'' ds) :
    Reads r (text ++ rest) r'' (cs ++ ds) := by
  obtain ⟨front, hfront, rfl⟩ := h
  obtain ⟨back, hback, rfl⟩ := h'
  refine ⟨front ++ back, ?_, List.flatten_append⟩
  exact Machine.run_append_eq_some.mpr ⟨r', front, back, hfront, hback, rfl⟩

theorem Reads.cons {c : UInt8} (h : r.step c = some (r', cs)) (h' : Reads r' text r'' ds) :
    Reads r (c :: text) r'' (cs ++ ds) := by
  obtain ⟨trace, hrun, rfl⟩ := h'
  exact ⟨cs :: trace, Machine.run_cons_eq_some.mpr ⟨r', cs, trace, h, hrun, rfl⟩, rfl⟩

/-- A byte that ends no command. -/
theorem Reads.byte {c : UInt8} (h : r.step c = some (r', [])) (h' : Reads r' text r'' cs) :
    Reads r (c :: text) r'' cs :=
  Reads.cons h h'

/-- A text that is read to its end between two commands. -/
theorem Reads.commands (h : Reads .start text .start cs) : commands text = some cs := by
  obtain ⟨trace, hrun, rfl⟩ := h
  rw [Shell.commands, hrun]
  rfl

/-! ## Words -/

/-- In the middle of a command, behind the words `ws`. -/
def behind (ws : List Word) : Reader := ⟨.bare, none, ws⟩

/-- In a word of which `w` has been read. -/
def within (ws : List Word) (w : Word) : Reader := ⟨.bare, some w, ws⟩

/-- The same between single quotes. -/
def quotedWithin (ws : List Word) (w : Word) : Reader := ⟨.quoted, some w, ws⟩

variable {ws : List Word} {w bs : Word}

/-- Plain bytes go on with a word. -/
theorem Reads.plain (ws : List Word) (w : Word) (h : ∀ c ∈ bs, IsPlain c) :
    Reads (within ws w) bs (within ws (w ++ bs)) [] := by
  induction bs generalizing w with
  | nil =>
      rw [List.append_nil]
      exact .nil _
  | cons c bs ih =>
      have hstep : (within ws w).step c = some (within ws (w ++ [c]), []) := by
        simp [within, Reader.step, Reader.append, h c List.mem_cons_self]
      have hrest := ih (w ++ [c]) fun d hd => h d (List.mem_cons_of_mem c hd)
      rw [List.append_assoc] at hrest
      exact .byte hstep hrest

/-- A bare word. -/
theorem Reads.bare (ws : List Word) (hne : bs ≠ []) (h : ∀ c ∈ bs, IsPlain c) :
    Reads (behind ws) bs (within ws bs) [] := by
  cases bs with
  | nil => exact absurd rfl hne
  | cons c bs =>
      have hstep : (behind ws).step c = some (within ws [c], []) := by
        simp [within, behind, Reader.step, Reader.append, h c List.mem_cons_self]
      exact .byte hstep (.plain ws [c] fun d hd => h d (List.mem_cons_of_mem c hd))

/-- A blank ends a word. -/
theorem step_space (ws : List Word) (w : Word) :
    (within ws w).step space = some (behind (ws ++ [w]), []) := by
  have hplain : ¬IsPlain 32 := by decide
  simp [within, behind, Reader.step, Reader.allWords, hplain, space, quote, backslash]

theorem step_open (ws : List Word) : (behind ws).step quote = some (quotedWithin ws [], []) := by
  have hplain : ¬IsPlain quote := by decide
  simp [behind, quotedWithin, Reader.step, hplain]

theorem step_close (ws : List Word) (w : Word) :
    (quotedWithin ws w).step quote = some (within ws w, []) := by
  simp [within, quotedWithin, Reader.step]

/-- Between single quotes every other byte stands for itself. -/
theorem step_quoted (ws : List Word) (w : Word) {c : UInt8} (h : c ≠ quote) :
    (quotedWithin ws w).step c = some (quotedWithin ws (w ++ [c]), []) := by
  simp [quotedWithin, Reader.step, Reader.append, h]

theorem step_semicolon {name : Word} {args : List Word} (r : Reader) (hbare : r.quoting = .bare)
    (hwords : r.allWords = name :: args) (hname : name ∉ reserved) :
    r.step semicolon = some (.start, [name :: args]) := by
  have hplain : ¬IsPlain 59 := by decide
  simp [Reader.step, Reader.endCommand, hplain, hbare, hwords, hname, semicolon, quote,
    backslash, space, tab]

theorem step_newline : Reader.start.step newline = some (.start, []) := by decide

/-! ## Quotation -/

/-- The text of arbitrary bytes between single quotes: a single quote closes the
quotation, stands behind a backslash, and opens it again. -/
def enquote (bs : Word) : List UInt8 :=
  bs.flatMap fun c => if c = quote then [quote, backslash, quote, quote] else [c]

theorem Reads.escapedQuote (ws : List Word) (w : Word) :
    Reads (quotedWithin ws w) [quote, backslash, quote, quote] (quotedWithin ws (w ++ [quote]))
      [] := by
  have hquote : ¬IsPlain quote := by decide
  have hbackslash : ¬IsPlain backslash ∧ backslash ≠ quote := by decide
  have hnewline : quote ≠ newline := by decide
  have hescape : (within ws w).step backslash = some (⟨.escaped, some w, ws⟩, []) := by
    simp [within, Reader.step, hbackslash]
  have happend : Reader.step ⟨.escaped, some w, ws⟩ quote
      = some (within ws (w ++ [quote]), []) := by
    simp [within, Reader.step, Reader.append, hnewline]
  have hopen : (within ws (w ++ [quote])).step quote
      = some (quotedWithin ws (w ++ [quote]), []) := by
    simp [within, quotedWithin, Reader.step, hquote]
  exact .byte (step_close ws w) (.byte hescape (.byte happend (.byte hopen (.nil _))))

/-- The text of `enquote` is read as the bytes it was made of. -/
theorem Reads.enquote (ws : List Word) (w bs : Word) :
    Reads (quotedWithin ws w) (enquote bs) (quotedWithin ws (w ++ bs)) [] := by
  induction bs generalizing w with
  | nil =>
      rw [List.append_nil]
      exact .nil _
  | cons c bs ih =>
      have hrest := ih (w ++ [c])
      rw [List.append_assoc] at hrest
      by_cases hc : c = quote
      · subst hc
        exact .append (.escapedQuote ws w) hrest
      · have htext : Shell.enquote (c :: bs) = c :: Shell.enquote bs := by
          simp [Shell.enquote, hc]
        rw [htext]
        exact .byte (step_quoted ws w hc) hrest

/-- A word between single quotes. -/
theorem Reads.quoted (ws : List Word) (bs : Word) :
    Reads (behind ws) (quote :: Shell.enquote bs ++ [quote]) (within ws bs) [] := by
  have hopen := Reads.byte (step_open ws) (.enquote ws [] bs)
  exact hopen.append (.byte (step_close ws bs) (.nil _))

theorem enquote_append (bs cs : Word) : enquote (bs ++ cs) = enquote bs ++ enquote cs :=
  List.flatMap_append

/-- Bytes other than the quote need no care. -/
theorem enquote_of_notMem (h : quote ∉ bs) : enquote bs = bs := by
  induction bs with
  | nil => rfl
  | cons c bs ih =>
      rw [List.mem_cons, not_or] at h
      simp only [enquote, List.flatMap_cons, if_neg (Ne.symm h.1)]
      exact congrArg (c :: ·) (ih h.2)

end Shell
