import Libubox.Blobmsg.Build
import Libubox.Blobmsg.Parse
import Libubox.Lib.Effect

/-!
# The script interpreter

`json_script.c` over the bytes of the loaded files.  A pointer to an attribute
is the memory from the attribute on, as in the rest of the blobmsg model, so a
look behind the end of an attribute is a look at what happens to follow it.

A run is a computation that may stop: at a fault, and where the fuel of the
recursion ends, which stands for a run that goes on.  What it does is kept in
`trace`: the calls of the callbacks, and marks for the commands that are
reached, each with the number of the run of the file it stands in.
-/

namespace Libubox.JsonScript

open Bytes Blob Blobmsg Effect

/-! ## Contexts -/

/-- A string literal of the source. -/
def ascii (cs : List Char) : Mem := cs.map fun c => UInt8.ofNat c.toNat

/-- What `handle_file` returns: a file under its key, and the files linked to it
by `next`. -/
structure NewFile where
  key : Mem
  data : Mem
  next : List Mem

/-- `struct json_script_file`. -/
structure File extends NewFile where
  seq : Nat

/-- The callbacks of `struct json_script_ctx`, over what the application keeps for
itself.  The `Bool` says whether the callback called `json_script_abort`. -/
structure Handlers (σ : Type) where
  handleCommand : Mem → Mem → Option Mem → σ → σ × Bool
  handleVar : Mem → Option Mem → σ → Option Mem × σ × Bool
  handleFile : Mem → σ → Option NewFile × σ × Bool
  handleError : String → Mem → σ → σ × Bool

/-- What a run shows. -/
inductive Event where
  /-- `handle_var(name)`; `expanding` in the strings of a command. -/
  | var (name : Mem) (expanding aborts : Bool)
  | file (name : Mem) (aborts : Bool)
  | error (msg : String) (context : Mem) (aborts : Bool)
  | command (name cmd : Mem) (aborts : Bool)
  /-- A run of a file, or of a file linked to it, begins. -/
  | enters (run : Nat)
  /-- The loop over a block comes to an element, and is done with it. -/
  | begins (run : Nat) (block cur : Mem)
  | ends (run : Nat) (block cur : Mem) (ret : Int)
  /-- A command is reached, a `return`, an `include`. -/
  | executes (run : Nat) (cur : Mem)
  | returns (run : Nat) (cur : Mem)
  | includes (run : Nat) (cur : Mem)
  deriving DecidableEq

/-- `struct json_script_ctx` without its callbacks.  `heap` holds all files, and
`files` is the tree, as the places of its files in `heap`; `runs` counts the runs
of files so far. -/
structure Ctx (σ : Type) where
  user : σ
  heap : List File
  files : List Nat
  buf : BlobBuf
  abort : Bool
  runs : Nat
  trace : List Event

/-- `struct json_call`, the callbacks of its context and the run of a file it is in.
`regcomp` with `regexec` is a parameter: `none` for a pattern that does not compile. -/
structure Call (σ : Type) where
  handlers : Handlers σ
  regex : Mem → Option (Mem → Bool)
  vars : Option Mem
  seq : Nat
  run : Nat

variable {σ : Type}

abbrev Script (σ : Type) := Eff (Ctx σ)

/-- An event takes place. -/
def Ctx.emit (s : Ctx σ) (e : Event) : Ctx σ := { s with trace := s.trace ++ [e] }

def emit (e : Event) : Script σ Unit := change fun s => s.emit e

/-! ## Callbacks -/

/-- `ctx->handle_var`: the memory at the pointer it returns. -/
def handleVar (c : Call σ) (expanding : Bool) (name : Mem) : Script σ (Option Mem) := fun s =>
  let (value, user, aborts) := c.handlers.handleVar name c.vars s.user
  (some (value.map (· ++ [0])),
    { s with user, abort := s.abort || aborts }.emit (.var name expanding aborts))

/-- The bytes of the attribute itself. -/
def ownBytes (attr : Mem) : Option Mem := (blobPadLen attr).map fun len => attr.take len

/-- `ctx->handle_error`. -/
def handleError (c : Call σ) (msg : String) (context : Mem) : Script σ Unit := do
  let context ← need (ownBytes context)
  fun s =>
    let (user, aborts) := c.handlers.handleError msg context s.user
    (some (), { s with user, abort := s.abort || aborts }.emit (.error msg context aborts))

/-- `ctx->handle_command`. -/
def handleCommand (c : Call σ) (name cmd : Mem) : Script σ Unit := fun s =>
  let (user, aborts) := c.handlers.handleCommand name cmd c.vars s.user
  (some (), { s with user, abort := s.abort || aborts }.emit (.command name cmd aborts))

/-- `ctx->handle_file`. -/
def handleFile (c : Call σ) (name : Mem) : Script σ (Option NewFile) := fun s =>
  let (file, user, aborts) := c.handlers.handleFile name s.user
  (some file, { s with user, abort := s.abort || aborts }.emit (.file name aborts))

/-! ## Variables -/

/-- The loop body of `json_script_find_var`. -/
def findVarBody (name : Mem) (found : Option Mem) (cur : Mem) : Option (Flow (Option Mem)) :=
  (blobId cur).bind fun type =>
    if type ≠ blobmsgTypeString then some (.next found)
    else
      (strcmpEq name (blobmsgName cur)).bind fun eq =>
        if eq then (blobmsgData cur).map fun data => .stop (some data) else some (.next found)

/-- The loop of `json_script_find_var`. -/
def findVar (vars : Option Mem) (name : Mem) : Option (Option Mem) :=
  match vars with
  | none => some none
  | some vars => blobmsgForEachAttr (findVarBody name) vars none

/-- `json_script_find_var`. -/
def jsonScriptFindVar (c : Call σ) (expanding : Bool) (name : Mem) : Script σ (Option Mem) := do
  match ← need (findVar c.vars name) with
  | some data => pure (some data)
  | none => handleVar c expanding name

/-! ## Attributes -/

/-- `blobmsg_parse_array` of `len` bytes at `data`, with memory behind them. -/
def blobmsgParseArrayAt (policy : List BlobmsgPolicy) (data : Mem) (len : Nat) :
    Option (List (Option Mem)) :=
  (forEachAttr (parseArrayBody policy) len data len
    (true, 0, List.replicate policy.length none)).map fun s => s.2.2

/-- `blobmsg_parse_array` of the elements of an attribute by their types. -/
def parseTuple (types : List Nat) (cur : Mem) : Option (List (Option Mem)) :=
  (blobmsgData cur).bind fun data =>
    (blobmsgDataLen cur).bind fun len =>
      blobmsgParseArrayAt (types.map fun type => ⟨none, type⟩) data (toUnsigned len)

/-- `json_get_tuple`. -/
def jsonGetTuple (cur : Mem) (t1 t2 : Nat) : Option (List (Option Mem)) :=
  parseTuple [blobmsgTypeString, t1, t2] cur

/-- `tb[i]`, null where the tuple is shorter. -/
def slot (tb : List (Option Mem)) (i : Nat) : Option Mem := tb[i]?.join

/-- The loop of `blobmsg_for_each_attr` with callbacks in its body: the body gets
the number of the attribute, and its value is the one the loop is left with. -/
def forEach {α : Type} (body : Nat → Mem → Script σ (Option α)) :
    Nat → Nat → Mem → Nat → Script σ (Option α)
  | 0, _, _, _ => pure none
  | fuel + 1, i, pos, rem =>
      if rem = 0 then pure none
      else do
        let pad ← need (blobPadLen pos)
        if pad ≤ rem ∧ 4 ≤ pad then
          match ← body i pos with
          | some a => pure (some a)
          | none => forEach body fuel (i + 1) (pos.drop pad) (rem - pad)
        else pure none

/-- `blobmsg_for_each_attr` over `attr`. -/
def forEachIn {α : Type} (body : Nat → Mem → Script σ (Option α)) (attr : Mem) :
    Script σ (Option α) := do
  let (rem, pos) ← need (blobmsgForEachStart attr)
  forEach body rem 0 pos rem

/-- `blobmsg_data` of a string. -/
def stringAt (attr : Mem) : Option Mem := (blobmsgData attr).bind cString

/-! ## Expressions -/

/-- `eq_regex_cmp`. -/
def eqRegexCmp (c : Call σ) (str pattern : Mem) (regex : Bool) : Option Bool :=
  (cString str).bind fun str =>
    (cString pattern).map fun pattern =>
      if regex then (c.regex pattern).any fun exec => exec str else decide (str = pattern)

/-- `eq_regex_cmp(var, blobmsg_data(attr), regex)`. -/
def eqRegexAttr (c : Call σ) (var attr : Mem) (regex : Bool) : Option Bool :=
  (blobmsgData attr).bind fun pattern => eqRegexCmp c var pattern regex

/-- `expr_eq_regex`. -/
def exprEqRegex (c : Call σ) (expr : Mem) (regex : Bool) : Script σ Int := do
  let tb ← need (jsonGetTuple expr blobmsgTypeString 0)
  match slot tb 1, slot tb 2 with
  | some tb1, some tb2 => do
      let name ← need (stringAt tb1)
      match ← jsonScriptFindVar c false name with
      | none => pure 0
      | some var => do
          let type ← need (blobId tb2)
          if type = blobmsgTypeString then do
            let eq ← need (eqRegexAttr c var tb2 regex)
            pure (if eq then 1 else 0)
          else if type = blobmsgTypeArray then do
            let found ← forEachIn (fun _ cur => do
              let type ← need (blobId cur)
              if type ≠ blobmsgTypeString then do
                handleError c "Unexpected element type" cur
                pure (some (-1))
              else do
                let eq ← need (eqRegexAttr c var cur regex)
                pure (if eq then some 1 else none)) tb2
            pure (found.getD 0)
          else do
            handleError c "Unexpected element type" tb2
            pure (-1)
  | _, _ => pure (-1)

/-- `handle_expr_has`. -/
def handleExprHas (c : Call σ) (expr : Mem) : Script σ Int := do
  let tb ← need (jsonGetTuple expr 0 0)
  match slot tb 1 with
  | none => pure (-1)
  | some tb1 => do
      let type ← need (blobId tb1)
      if type = blobmsgTypeString then do
        let name ← need (stringAt tb1)
        let var ← jsonScriptFindVar c false name
        pure (if var.isSome then 1 else 0)
      else if type = blobmsgTypeArray then do
        let found ← forEachIn (fun _ cur => do
          let type ← need (blobId cur)
          if type ≠ blobmsgTypeString then do
            handleError c "Unexpected element type" cur
            pure (some (-1))
          else do
            let name ← need (stringAt cur)
            let var ← jsonScriptFindVar c false name
            pure (if var.isSome then some 1 else none)) tb1
        pure (found.getD 0)
      else do
        handleError c "Unexpected element type" tb1
        pure (-1)

/-- `expr_and_or`; `process` is `json_process_expr`. -/
def exprAndOr (process : Mem → Script σ Int) (expr : Mem) (and : Int) : Script σ Int := do
  let left ← forEachIn (fun i cur =>
    if i < 1 then pure none
    else do
      let ret ← process cur
      pure (if ret < 0 then some ret else if ret ≠ and then some ret else none)) expr
  pure (left.getD and)

/-- `handle_expr_not`. -/
def handleExprNot (process : Mem → Script σ Int) (expr : Mem) : Script σ Int := do
  let tb ← need (jsonGetTuple expr blobmsgTypeArray 0)
  match slot tb 1 with
  | none => pure (-1)
  | some tb1 => do
      let ret ← process tb1
      pure (if ret < 0 then ret else if ret = 0 then 1 else 0)

/-- The table `expr`. -/
def exprTable (c : Call σ) (process : Mem → Script σ Int) : List (Mem × (Mem → Script σ Int)) :=
  [(ascii ['e', 'q'], fun expr => exprEqRegex c expr false),
    (ascii ['r', 'e', 'g', 'e', 'x'], fun expr => exprEqRegex c expr true),
    (ascii ['h', 'a', 's'], handleExprHas c),
    (ascii ['a', 'n', 'd'], fun expr => exprAndOr process expr 1),
    (ascii ['o', 'r'], fun expr => exprAndOr process expr 0),
    (ascii ['n', 'o', 't'], handleExprNot process)]

/-- `__json_process_type`; `none` where nothing is found. -/
def jsonProcessType (cur : Mem) (h : List (Mem × (Mem → Script σ Int))) :
    Script σ (Option Int) := do
  let name ← need ((blobmsgData cur).bind stringAt)
  match h.find? fun entry => entry.1 = name with
  | none => pure none
  | some entry => some <$> entry.2 cur

/-- The type of `cur` is array and its data starts with an attribute of type string. -/
def startsWithString (cur : Mem) : Option Bool :=
  (blobId cur).bind fun type =>
    if type ≠ blobmsgTypeArray then some false
    else
      ((blobmsgData cur).bind blobId).map fun type => decide (type = blobmsgTypeString)

/-- `json_process_expr`. -/
def jsonProcessExpr (c : Call σ) : Nat → Mem → Script σ Int
  | 0, _ => stop
  | fuel + 1, cur => do
      if ← need (startsWithString cur) then
        match ← jsonProcessType cur (exprTable c (jsonProcessExpr c fuel)) with
        | some ret => pure ret
        | none => do
            handleError c "Unknown expression type" cur
            pure (-1)
      else do
        handleError c "Unexpected element type" cur
        pure (-1)

/-! ## Strings -/

/-- The bytes one segment of a pattern stands for, at the pointer `cur`; `none`
where the loop of `eval_string` goes on without any. -/
def segment (c : Call σ) (expanding curVar : Bool) (str : Mem) : Script σ (Option Mem) :=
  if curVar then
    if str = [] then pure (some [37])
    else do
      match ← jsonScriptFindVar c expanding str with
      | none => pure none
      | some cur => some <$> need (cString cur)
  else pure (if str = [] then none else some str)

/-- The end of a turn of the loop of `eval_string`: room for the bytes, and the
bytes. -/
def appendSegment (b : BlobBuf) (dest : Option Nat) (len : Nat) :
    Option Mem → Option (BlobBuf × Option Nat × Nat)
  | none => some (b, dest, len)
  | some cur =>
      (blobmsgReallocStringBuffer b (len + cur.length + 1)).bind fun (dest, b) =>
        (b.store (dest + len) cur).map fun b => (b, some dest, len + cur.length)

/-- The loop of `eval_string` over what is left of the copy of the pattern. -/
def evalSegments (c : Call σ) (expanding : Bool) :
    Nat → BlobBuf → Option Nat → Nat → Bool → Mem →
      Script σ (BlobBuf × Option Nat × Nat × Bool)
  | 0, _, _, _, _, _ => stop
  | fuel + 1, b, dest, len, var, next => do
      let str := next.takeWhile (· ≠ 37)
      let cur ← segment c expanding var str
      let (b, dest, len) ← need (appendSegment b dest len cur)
      match next.drop str.length with
      | [] => pure (b, dest, len, var)
      | _ :: next => evalSegments c expanding fuel b dest len (!var) next

/-- `eval_string`. -/
def evalString (c : Call σ) (expanding : Bool) (b : BlobBuf) (name : Option Mem)
    (pattern : Mem) : Script σ (Int × BlobBuf) := do
  let (dest, b) ← need (blobmsgAllocStringBuffer b name 1)
  let (b, dest, len, var) ←
    evalSegments c expanding (pattern.length + 1) b dest 0 false pattern
  let dest ← need dest
  let b ← need (b.store (dest + len) [0])
  let b ← need (blobmsgAddStringBuffer b)
  pure (if var then -1 else 0, b)

/-- `json_script_eval_string`. -/
def jsonScriptEvalString (handlers : Handlers σ) (regex : Mem → Option (Mem → Bool))
    (vars : Option Mem) (b : BlobBuf) (name : Option Mem) (pattern : Mem) :
    Script σ (Int × BlobBuf) :=
  evalString { handlers, regex, vars, seq := 0, run := 0 } false b name pattern

/-- `cmd_add_string`. -/
def cmdAddString (c : Call σ) (pattern : Mem) : Script σ Int := do
  let s ← state
  let (ret, buf) ← evalString c true s.buf none pattern
  change fun s => { s with buf }
  pure ret

/-- A call that changes `ctx->buf`. -/
def onBuf {α : Type} (f : BlobBuf → Option (α × BlobBuf)) : Script σ α := do
  let s ← state
  let (a, buf) ← need (f s.buf)
  change fun s => { s with buf }
  pure a

/-- `cmd_process_strings`. -/
def cmdProcessStrings (c : Call σ) (attr : Mem) : Script σ Int := do
  let _ ← onBuf fun b => blobBufInit b 0
  let cookie ← onBuf fun b => blobmsgOpenNested b none true
  let left ← forEachIn (fun args cur =>
    if args < 1 then pure none
    else do
      let type ← need (blobId cur)
      if type ≠ blobmsgTypeString then do
        let _ ← onBuf fun b => blobmsgAddBlob b cur
        pure none
      else do
        let pattern ← need (stringAt cur)
        let ret ← cmdAddString c pattern
        if ret ≠ 0 then do
          handleError c "Unterminated variable reference in string" attr
          pure (some ret)
        else pure none) attr
  match left with
  | some ret => pure ret
  | none => do
      let cookie ← need cookie
      onBuf fun b => (blobNestEnd b cookie).map fun b => (0, b)

/-! ## Commands -/

/-- `handle_if`; `process` is `json_process_cmd`. -/
def handleIf (c : Call σ) (fuel : Nat) (process : Mem → Script σ Int) (expr : Mem) :
    Script σ Int := do
  let tb ← need (parseTuple
    [blobmsgTypeString, blobmsgTypeArray, blobmsgTypeArray, blobmsgTypeArray] expr)
  match slot tb 1, slot tb 2 with
  | some tb1, some tb2 => do
      let ret ← jsonProcessExpr c fuel tb1
      if ret < 0 then pure 0
      else if ret ≠ 0 then process tb2
      else
        match slot tb 3 with
        | none => pure 0
        | some tb3 => process tb3
  | _, _ => pure 0

/-- `handle_case`. -/
def handleCase (c : Call σ) (process : Mem → Script σ Int) (expr : Mem) : Script σ Int := do
  let tb ← need (jsonGetTuple expr blobmsgTypeString blobmsgTypeTable)
  match slot tb 1, slot tb 2 with
  | some tb1, some tb2 => do
      let name ← need (stringAt tb1)
      match ← jsonScriptFindVar c false name with
      | none => pure 0
      | some var => do
          let left ← forEachIn (fun _ cur => do
            let eq ← need ((cString var).bind fun var => strcmpEq var (blobmsgName cur))
            if eq then some <$> process cur else pure none) tb2
          pure (left.getD 0)
  | _, _ => pure 0

/-- `handle_return`. -/
def handleReturn (c : Call σ) (expr : Mem) : Script σ Int := do
  emit (.returns c.run expr)
  pure (-2)

/-- `json_script_get_file`: the place of the file in the heap.  The tree is looked
up and added to by keys that differ, as `avl_find` and `avl_insert` do. -/
def jsonScriptGetFile (c : Call σ) (filename : Mem) : Script σ (Option Nat) := do
  let s ← state
  let keyOf := fun (s : Ctx σ) i => (s.heap[i]?).map fun f => f.key
  match s.files.find? fun i => keyOf s i = some filename with
  | some i => pure (some i)
  | none => do
      match ← handleFile c filename with
      | none => pure none
      | some new => fun s =>
          (some (some s.heap.length), { s with
            heap := s.heap ++ [{ new with seq := 0 }]
            files := if s.files.any fun i => keyOf s i = some new.key then s.files
              else s.files ++ [s.heap.length] })

/-- The loop of `__json_script_run` over a file and those linked to it. -/
def runFiles (c : Call σ) (process : Call σ → Mem → Script σ Int) : List Mem → Script σ Unit
  | [] => pure ()
  | data :: next => do
      let s ← state
      change fun s => { s with runs := s.runs + 1 }
      emit (.enters s.runs)
      let _ ← process { c with run := s.runs } data
      runFiles c process next

/-- `__json_script_run` of the file at a place of the heap. -/
def jsonScriptRunAt (c : Call σ) (process : Call σ → Mem → Script σ Int) (file : Nat)
    (context : Option Mem) : Script σ Unit := do
  let s ← state
  let f ← need s.heap[file]?
  if f.seq = c.seq then
    match context with
    | some context => handleError c "Recursive include" context
    | none => pure ()
  else do
    change fun s => { s with heap := s.heap.set file { f with seq := c.seq } }
    runFiles c process (f.data :: f.next)

/-- `handle_include`. -/
def handleInclude (c : Call σ) (process : Call σ → Mem → Script σ Int) (expr : Mem) :
    Script σ Int := do
  emit (.includes c.run expr)
  let tb ← need (jsonGetTuple expr blobmsgTypeString 0)
  match slot tb 1 with
  | none => pure 0
  | some tb1 => do
      let filename ← need (stringAt tb1)
      match ← jsonScriptGetFile c filename with
      | none => pure 0
      | some f => do
          jsonScriptRunAt c process f (some expr)
          pure 0

/-- The table `cmd`. -/
def cmdTable (c : Call σ) (fuel : Nat) (process : Call σ → Mem → Script σ Int) :
    List (Mem × (Mem → Script σ Int)) :=
  [(ascii ['i', 'f'], handleIf c fuel (process c)),
    (ascii ['c', 'a', 's', 'e'], handleCase c (process c)),
    (ascii ['r', 'e', 't', 'u', 'r', 'n'], handleReturn c),
    (ascii ['i', 'n', 'c', 'l', 'u', 'd', 'e'], handleInclude c process)]

/-- `__json_process_cmd`. -/
def jsonProcessCommand (c : Call σ) (fuel : Nat) (process : Call σ → Mem → Script σ Int)
    (cur : Mem) : Script σ Int := do
  if ← need (startsWithString cur) then
    emit (.executes c.run cur)
    match ← jsonProcessType cur (cmdTable c fuel process) with
    | some ret => pure ret
    | none => do
        let name ← need ((blobmsgData cur).bind stringAt)
        let ret ← cmdProcessStrings c cur
        if ret ≠ 0 then pure ret
        else do
          let s ← state
          handleCommand c name (blobData (s.buf.ptr s.buf.head))
          pure 0
  else do
    handleError c "Unexpected element type" cur
    pure (-1)

/-- The loop body of `json_process_cmd`: what the function returns from it, if it
does. -/
def blockBody (c : Call σ) (fuel : Nat) (process : Call σ → Mem → Script σ Int) (block : Mem)
    (i : Nat) (cur : Mem) : Script σ (Option Int) := do
  let s ← state
  if s.abort then pure (some 0)
  else do
    let type ← need (blobId cur)
    if type = blobmsgTypeString ∧ i = 0 then some <$> jsonProcessCommand c fuel process block
    else do
      emit (.begins c.run block cur)
      let ret ← process c cur
      emit (.ends c.run block cur ret)
      pure (if ret < -1 then some ret else none)

/-- `json_process_cmd`. -/
def jsonProcessCmd : Nat → Call σ → Mem → Script σ Int
  | 0, _, _ => stop
  | fuel + 1, c, block => do
      let type ← need (blobId block)
      if type ≠ blobmsgTypeArray then do
        handleError c "Unexpected element type" block
        pure (-1)
      else do
        let left ← forEachIn (blockBody c fuel (jsonProcessCmd fuel) block) block
        pure (left.getD 0)

/-! ## Runs -/

/-- `json_script_run_file` of the file at a place of the heap; `seq` is the number
of the run, which is never 0. -/
def jsonScriptRunFile (fuel : Nat) (handlers : Handlers σ) (regex : Mem → Option (Mem → Bool))
    (vars : Option Mem) (seq file : Nat) : Script σ Unit := do
  let c : Call σ := { handlers, regex, vars, seq, run := 0 }
  change fun s => { s with abort := false }
  jsonScriptRunAt c (jsonProcessCmd fuel) file none

/-- `json_script_run`. -/
def jsonScriptRun (fuel : Nat) (handlers : Handlers σ) (regex : Mem → Option (Mem → Bool))
    (vars : Option Mem) (seq : Nat) (name : Mem) : Script σ Unit := do
  let c : Call σ := { handlers, regex, vars, seq, run := 0 }
  match ← jsonScriptGetFile c name with
  | none => pure ()
  | some file => jsonScriptRunFile fuel handlers regex vars seq file

/-- The two calls that run a script. -/
inductive Start where
  /-- `json_script_run` of the file of a name. -/
  | byName (name : Mem)
  /-- `json_script_run_file` of a loaded file. -/
  | byFile (file : Nat)

def Start.run (start : Start) (fuel : Nat) (handlers : Handlers σ)
    (regex : Mem → Option (Mem → Bool)) (vars : Option Mem) (seq : Nat) : Script σ Unit :=
  match start with
  | byName name => jsonScriptRun fuel handlers regex vars seq name
  | byFile file => jsonScriptRunFile fuel handlers regex vars seq file

/-- A zeroed context after `json_script_init`. -/
def initCtx (user : σ) (realloc : Nat → Option Nat) : Ctx σ where
  user
  heap := []
  files := []
  buf := ⟨0, 0, [], realloc⟩
  abort := false
  runs := 0
  trace := []

end Libubox.JsonScript
