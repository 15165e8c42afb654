import Libubox.Lib.Shell
import Mathlib.Logic.Function.Basic

/-!
# Shell variables

What a shell keeps under a name: a value, and whether the commands it runs find the
variable in their environment.  An assignment leaves that mark alone, `export` and
`export -n` set it.

The operations work with names of any kind.  Where the names are texts that come from an
injective spelling, the variables can be looked at through it (`spelled`), and every
operation on a spelled name is the same operation there (`spelled_assign` and the
others): what is spelled differently is a different variable.

`tokens` cuts a value at separators, as the shell and `strtok_r` do, and `listing` is the
value that `name="$name word"` collects; the tokens of a listing are its words
(`tokens_listing`).
-/

namespace Shell

/-- A variable that is set. -/
structure Variable where
  value : Word
  exported : Bool
  deriving DecidableEq

/-- The variables of a shell. -/
def Vars (ι : Type) : Type := ι → Option Variable

namespace Vars

section Operations

variable {ι : Type} (vars : Vars ι) (name : ι) (value : Word)

/-- `$name`. -/
def expand : Word := (vars name).elim [] Variable.value

/-- `getenv` in a command that the shell runs. -/
def getenv : Option Word := (vars name).bind fun v => if v.exported then some v.value else none

variable [DecidableEq ι]

/-- `name=value`. -/
def assign : Vars ι :=
  Function.update vars name (some ⟨value, (vars name).any Variable.exported⟩)

/-- `export name=value`. -/
def exportAs : Vars ι := Function.update vars name (some ⟨value, true⟩)

/-- `export -n name=value`. -/
def unexportAs : Vars ι := Function.update vars name (some ⟨value, false⟩)

/-- `name="$name word"`. -/
def append : Vars ι := vars.assign name (vars.expand name ++ 32 :: value)

/-- `unset` of some names. -/
def unset (names : List ι) : Vars ι := fun i => if i ∈ names then none else vars i

end Operations

section Lookups

variable {ι : Type} {vars : Vars ι} {name other : ι} {value : Word}

theorem expand_of_eq {v : Variable} (h : vars name = some v) : vars.expand name = v.value := by
  rw [expand, h]
  rfl

theorem expand_of_none (h : vars name = none) : vars.expand name = [] := by
  rw [expand, h]
  rfl

theorem expand_congr {vars' : Vars ι} (h : vars' name = vars name) :
    vars'.expand name = vars.expand name := by
  rw [expand, expand, h]

theorem getenv_of_exported (h : vars name = some ⟨value, true⟩) :
    vars.getenv name = some value := by
  rw [getenv, h]
  rfl

theorem getenv_of_none (h : vars name = none) : vars.getenv name = none := by
  rw [getenv, h]
  rfl

variable [DecidableEq ι]

@[simp] theorem assign_self : vars.assign name value name
    = some ⟨value, (vars name).any Variable.exported⟩ := Function.update_self ..

@[simp] theorem exportAs_self : vars.exportAs name value name = some ⟨value, true⟩ :=
  Function.update_self ..

@[simp] theorem unexportAs_self : vars.unexportAs name value name = some ⟨value, false⟩ :=
  Function.update_self ..

@[simp] theorem append_self : vars.append name value name
    = some ⟨vars.expand name ++ 32 :: value, (vars name).any Variable.exported⟩ := assign_self

theorem assign_of_ne (h : other ≠ name) : vars.assign name value other = vars other :=
  Function.update_of_ne h ..

theorem append_of_ne (h : other ≠ name) : vars.append name value other = vars other :=
  assign_of_ne h

theorem exportAs_of_ne (h : other ≠ name) : vars.exportAs name value other = vars other :=
  Function.update_of_ne h ..

theorem unexportAs_of_ne (h : other ≠ name) : vars.unexportAs name value other = vars other :=
  Function.update_of_ne h ..

theorem unset_of_mem {names : List ι} (h : name ∈ names) : vars.unset names name = none :=
  if_pos h

theorem unset_of_notMem {names : List ι} (h : name ∉ names) :
    vars.unset names name = vars name :=
  if_neg h

end Lookups

/-! ## Spelled names -/

section Spelled

variable {ι κ : Type} [DecidableEq ι] [DecidableEq κ] {spell : ι → κ}

/-- The variables under their spelled names. -/
def spelled (spell : ι → κ) (vars : Vars κ) : Vars ι := fun i => vars (spell i)

variable (hspell : Function.Injective spell) (vars : Vars κ) (i : ι) (value : Word)

include hspell

theorem spelled_assign :
    (vars.assign (spell i) value).spelled spell = (vars.spelled spell).assign i value :=
  Function.update_comp_eq_of_injective vars hspell i _

theorem spelled_exportAs :
    (vars.exportAs (spell i) value).spelled spell = (vars.spelled spell).exportAs i value :=
  Function.update_comp_eq_of_injective vars hspell i _

theorem spelled_unexportAs :
    (vars.unexportAs (spell i) value).spelled spell = (vars.spelled spell).unexportAs i value :=
  Function.update_comp_eq_of_injective vars hspell i _

theorem spelled_append :
    (vars.append (spell i) value).spelled spell = (vars.spelled spell).append i value :=
  spelled_assign hspell vars i _

theorem spelled_unset (names : List ι) :
    (vars.unset (names.map spell)).spelled spell = (vars.spelled spell).unset names := by
  funext j
  show (if spell j ∈ names.map spell then none else vars (spell j)) = if j ∈ names then none else _
  simp only [List.mem_map_of_injective hspell]
  rfl

end Spelled

end Vars

/-! ## Tokens -/

section Tokens

variable (separates : UInt8 → Bool)

/-- The tokens of a text behind the part `word` of one. -/
def tokensFrom (word : Word) : List UInt8 → List Word
  | [] => if word = [] then [] else [word]
  | c :: text =>
      if separates c then (if word = [] then [] else [word]) ++ tokensFrom [] text
      else tokensFrom (word ++ [c]) text

/-- The non-empty words between separators. -/
def tokens (text : List UInt8) : List Word := tokensFrom separates [] text

/-- What `name="$name word"` collects. -/
def listing (words : List Word) : List UInt8 := words.flatMap (32 :: ·)

theorem listing_append_singleton (words : List Word) (word : Word) :
    listing words ++ 32 :: word = listing (words ++ [word]) := by
  rw [listing, listing, List.flatMap_append, List.flatMap_singleton]

/-- A listing can be taken apart where no word has a space in it. -/
theorem listing_injective {words words' : List Word} (h : ∀ w ∈ words, 32 ∉ w)
    (h' : ∀ w ∈ words', 32 ∉ w) (heq : listing words = listing words') : words = words' := by
  -- a word ends at the space in front of the next one
  have htake : ∀ (w : Word) (ws : List Word), 32 ∉ w →
      (w ++ listing ws).takeWhile (fun c => c != 32) = w := by
    intro w ws hw
    rw [List.takeWhile_append_of_pos fun c hc => by simpa using fun h : c = 32 => hw (h ▸ hc)]
    cases ws with
    | nil => exact List.append_nil w
    | cons x ws => exact List.append_nil w
  induction words generalizing words' with
  | nil =>
      cases words' with
      | nil => rfl
      | cons x words' => cases heq
  | cons w words ih =>
      cases words' with
      | nil => cases heq
      | cons x words' =>
          have htail : w ++ listing words = x ++ listing words' := (List.cons.inj heq).2
          have hhead := congrArg (List.takeWhile fun c => c != 32) htail
          rw [htake w words (h w List.mem_cons_self), htake x words' (h' x List.mem_cons_self)]
            at hhead
          subst hhead
          rw [ih (fun v hv => h v (List.mem_cons_of_mem w hv))
            (fun v hv => h' v (List.mem_cons_of_mem w hv)) (List.append_cancel_left htail)]

variable {separates}

theorem tokensFrom_append (word : Word) {w : Word} (hw : ∀ c ∈ w, separates c = false)
    (text : List UInt8) :
    tokensFrom separates word (w ++ text) = tokensFrom separates (word ++ w) text := by
  induction w generalizing word with
  | nil => rw [List.nil_append, List.append_nil]
  | cons c w ih =>
      have hc : ¬separates c = true := by
        rw [hw c List.mem_cons_self]
        exact Bool.false_ne_true
      rw [List.cons_append, tokensFrom, if_neg hc, ih _ fun d hd => hw d (List.mem_cons_of_mem c hd),
        List.append_assoc, List.singleton_append]

/-- **The tokens of a listing are its words.** -/
theorem tokens_listing (hspace : separates 32 = true) {words : List Word}
    (hne : ∀ w ∈ words, w ≠ []) (hwords : ∀ w ∈ words, ∀ c ∈ w, separates c = false) :
    tokens separates (listing words) = words := by
  -- a word ends at the space in front of the next one
  have hfrom : ∀ word : Word, tokensFrom separates word (listing words)
      = (if word = [] then [] else [word]) ++ words := by
    induction words with
    | nil =>
        intro word
        rw [List.append_nil]
        rfl
    | cons w words ih =>
        intro word
        have hrest := ih (fun v hv => hne v (List.mem_cons_of_mem w hv))
          (fun v hv => hwords v (List.mem_cons_of_mem w hv))
        rw [listing, List.flatMap_cons, List.cons_append, tokensFrom, if_pos hspace,
          tokensFrom_append [] (hwords w List.mem_cons_self), List.nil_append, ← listing, hrest,
          if_neg (hne w List.mem_cons_self), List.singleton_append]
  exact hfrom []

end Tokens

end Shell
