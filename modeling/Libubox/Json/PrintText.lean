import Libubox.Json.Print

/-!
# What the printer writes

The text of a string, of an array and of an object, that the second pass of its
function writes this text, and that the first pass measures enough for it, as long as
the length fits an `int`: `printStringPtr_eq`, `allocate_array`, `allocate_object`.
-/

namespace Libubox.Json.Printer

open Writers escapeChar

/-! ## Texts -/

/-- The text of a string: it ends at the terminator. -/
def stringText (str : Option Text) : Text := Json.printStringPtr (str.map (·.takeWhile (· ≠ 0)))

def entriesText (fmt : Bool) : List Text → Text
  | [] => []
  | [t] => t
  | t :: ts => t ++ comma :: ((if fmt then [32] else []) ++ entriesText fmt ts)

def arrayText (fmt : Bool) (entries : List Text) : Text :=
  openBracket :: (entriesText fmt entries ++ [closeBracket])

def memberText (fmt : Bool) (depth : Nat) (last : Bool) (p : Text × Text) : Text :=
  (if fmt then List.replicate depth 9 else []) ++ (p.1 ++ colon ::
    ((if fmt then [9] else []) ++ (p.2 ++ ((if last then [] else [comma]) ++
      if fmt then [10] else []))))

def membersText (fmt : Bool) (depth : Nat) : List (Text × Text) → Text
  | [] => []
  | p :: ps => memberText fmt depth ps.isEmpty p ++ membersText fmt depth ps

def objectText (fmt : Bool) (depth : Nat) (members : List (Text × Text)) : Text :=
  openBrace :: ((if fmt then [10] else []) ++ (membersText fmt depth members ++
    ((if fmt then List.replicate (depth - 1) 9 else []) ++ [closeBrace])))

/-! ## What is written -/

theorem escapeChar_eq (c : UInt8) :
    escapeChar c = if 31 < c ∧ c ≠ quote ∧ c ≠ backslash then [c]
      else
        backslash :: match escapeLetter c with
          | some letter => [letter]
          | none => [letterU, 48, 48, hexDigit (c / 16), hexDigit (c % 16)] := by
  unfold escapeChar escapeLetter
  grind

theorem writes_char (c : UInt8) :
    Writes (fun o => if 31 < c ∧ c ≠ quote ∧ c ≠ backslash then o.put [c]
      else
        (o.put [backslash]).bind fun o =>
          match escapeLetter c with
          | some letter => o.put [letter]
          | none => o.strcpy [letterU, 48, 48, hexDigit (c / 16), hexDigit (c % 16)])
      (escapeChar c) := by
  rw [escapeChar_eq]
  by_cases hc : 31 < c ∧ c ≠ quote ∧ c ≠ backslash
  · simp only [if_pos hc]
    exact writes_put [c]
  · simp only [if_neg hc]
    cases escapeLetter c with
    | some letter => exact (writes_put [backslash]).bind (writes_put [letter])
    | none => exact (writes_put [backslash]).bind (writes_strcpy _)

theorem writes_chars (str : Text) :
    Writes (fun o => writeChars o str) (str.flatMap escapeChar) := by
  induction str with
  | nil => exact writes_nothing
  | cons c s ih =>
      rw [List.flatMap_cons]
      exact (writes_char c).bind ih

theorem finishes_string (str : Text) : Finishes (fun o => (o.put [quote]).bind fun o =>
    (writeChars o str).bind fun o => (o.put [quote]).bind fun o => o.put [0]) 0
    (Json.printStringPtr (some str)) :=
  (writes_put [quote]).finishes ((writes_chars str).finishes ((writes_put [quote]).finishes (finishes_put 0)))

theorem writes_entries (fmt : Bool) (entries : List Text) :
    Writes (fun o => writeEntries fmt o entries) (entriesText fmt entries) := by
  induction entries with
  | nil => exact writes_nothing
  | cons t ts ih =>
      cases ts with
      | nil => exact writes_strcpy t
      | cons t' ts =>
          exact (writes_strcpy t).bind ((writes_put [comma]).bind
            ((writes_ite (writes_put [32]) (fmt = true)).bind (writes_terminate.bind ih)))

theorem finishes_array (fmt : Bool) (entries : List Text) : Finishes (fun o =>
    (o.put [openBracket]).bind fun o => o.terminate.bind fun o =>
      (writeEntries fmt o entries).bind fun o => (o.put [closeBracket]).bind fun o => o.put [0]) 0
    (arrayText fmt entries) :=
  (writes_put [openBracket]).finishes (writes_terminate.finishes
    ((writes_entries fmt entries).finishes ((writes_put [closeBracket]).finishes (finishes_put 0))))

theorem writes_member (fmt : Bool) (depth : Nat) (last : Bool) (p : Text × Text) :
    Writes (fun o => writeMember fmt depth last o p) (memberText fmt depth last p) := by
  have hcomma : Writes (fun o => if last then some o else o.put [comma])
      (if last then [] else [comma]) := by
    cases last with
    | true => exact writes_nothing
    | false => exact writes_put [comma]
  have hline : Writes (fun o => (if fmt then o.put [10] else some o).bind Out.terminate)
      (if fmt then ([10] : Text) else []) := by
    have h := (writes_ite (writes_put ([10] : Text)) (fmt = true)).bind writes_terminate
    rwa [List.append_nil] at h
  exact (writes_ite (writes_put (List.replicate depth 9)) (fmt = true)).bind
    ((writes_strcpy p.1).bind ((writes_put [colon]).bind
      ((writes_ite (writes_put [9]) (fmt = true)).bind ((writes_strcpy p.2).bind
        (hcomma.bind hline)))))

theorem writes_members (fmt : Bool) (depth : Nat) (members : List (Text × Text)) :
    Writes (fun o => writeMembers fmt depth o members) (membersText fmt depth members) := by
  induction members with
  | nil => exact writes_nothing
  | cons p ps ih => exact (writes_member fmt depth ps.isEmpty p).bind ih

theorem finishes_object (fmt : Bool) (depth : Nat) (members : List (Text × Text)) : Finishes (fun o =>
    (o.put [openBrace]).bind fun o => (if fmt then o.put [10] else some o).bind fun o =>
      o.terminate.bind fun o => (writeMembers fmt depth o members).bind fun o =>
        (if fmt then o.put (List.replicate (depth - 1) 9) else some o).bind fun o =>
          (o.put [closeBrace]).bind fun o => o.put [0]) 0
    (objectText fmt depth members) :=
  (writes_put [openBrace]).finishes ((writes_ite (writes_put [10]) (fmt = true)).finishes
    (writes_terminate.finishes ((writes_members fmt depth members).finishes
      ((writes_ite (writes_put (List.replicate (depth - 1) 9)) (fmt = true)).finishes
        ((writes_put [closeBrace]).finishes (finishes_put 0))))))

/-! ## What is measured -/

/-- `f` adds `n` to a length. -/
def Adds (f : Nat → Option Nat) (n : Nat) : Prop :=
  ∀ len < 2 ^ 31, f len = if len + n < 2 ^ 31 then some (len + n) else none

theorem adds_some : Adds some 0 :=
  fun _ hlen => (if_pos hlen).symm

theorem Adds.bind {f : Nat → Option Nat} {n : Nat} (hf : Adds f n) (k : Nat) :
    Adds (fun len => (addLen len k).bind f) (k + n) := by
  intro len hlen
  by_cases h : len + k < 2 ^ 31
  · have hstep := hf (len + k) h
    simp only [addLen, if_pos h, Option.bind_some, hstep, Nat.add_assoc]
  · have hlarge : ¬len + (k + n) < 2 ^ 31 := by omega
    simp only [addLen, if_neg h, Option.bind_none, if_neg hlarge]

theorem escapeChar_length (c : UInt8) :
    (escapeChar c).length = if isShort c then 2 else if c < 32 then 6 else 1 := by
  by_cases hshort : isShort c = true
  · simp only [isShort, List.mem_cons, List.not_mem_nil, or_false, decide_eq_true_eq] at hshort
    rcases hshort with rfl | rfl | rfl | rfl | rfl | rfl | rfl <;> rfl
  · have hne := hshort
    simp only [isShort, List.mem_cons, List.not_mem_nil, or_false, decide_eq_true_eq,
      not_or] at hne
    obtain ⟨h₁, h₂, h₃, h₄, h₅, h₆, h₇⟩ := hne
    have h32 : (32 : UInt8).toNat = 32 := rfl
    have h31 : (31 : UInt8).toNat = 31 := rfl
    rw [if_neg hshort, escapeChar_eq]
    by_cases hlow : c < 32
    · have hnot : ¬31 < c := by
        rw [UInt8.lt_iff_toNat_lt] at hlow ⊢
        omega
      simp [hlow, hnot, escapeLetter, h₁, h₂, h₃, h₄, h₅, h₆, h₇]
    · have hhigh : 31 < c := by
        rw [UInt8.lt_iff_toNat_lt] at hlow ⊢
        omega
      simp [hlow, hhigh, h₁, h₂]

theorem printStringPtr_length (s : Text) :
    (Json.printStringPtr (some s)).length + 1 = (s.flatMap escapeChar).length + 3 := by
  rw [Json.printStringPtr, List.length_append, List.length_cons, List.length_singleton]

theorem adds_measureString (str : Text) :
    Adds (fun len => measureString len str) (str.flatMap escapeChar).length := by
  induction str with
  | nil => exact adds_some
  | cons c s ih =>
      rw [List.flatMap_cons, List.length_append, escapeChar_length]
      by_cases hshort : isShort c = true
      · have h := (ih.bind 1).bind 1
        simp only [measureString, hshort, if_true]
        rwa [← Nat.add_assoc] at h
      · by_cases hlow : c < 32
        · have h := (ih.bind 5).bind 1
          simp only [measureString, hshort, hlow, Bool.false_eq_true, if_false, if_true]
          rwa [← Nat.add_assoc] at h
        · simp only [measureString, hshort, hlow, Bool.false_eq_true, if_false, Option.bind_some]
          exact ih.bind 1

/-- What an entry adds to the length that `print_array` computes. -/
def entryLength (fmt : Bool) (t : Text) : Nat := t.length + 2 + if fmt then 1 else 0

/-- The length that `print_array` computes: more than the text needs. -/
def arrayLength (fmt : Bool) (entries : List Text) : Nat :=
  5 + (entries.map (entryLength fmt)).sum

theorem adds_measureArray (fmt : Bool) (entries : List Text) :
    Adds (fun len => measureArray fmt len entries) (entries.map (entryLength fmt)).sum := by
  induction entries with
  | nil => exact adds_some
  | cons t ts ih => exact ih.bind _

/-- What a member adds to the length that `print_object` computes. -/
def memberLength (fmt : Bool) (depth : Nat) (p : Text × Text) : Nat :=
  p.2.length + p.1.length + 2 + if fmt then 2 + depth else 0

def objectLength (fmt : Bool) (depth : Nat) (members : List (Text × Text)) : Nat :=
  7 + ((if fmt then depth else 0) + (members.map (memberLength fmt depth)).sum)

theorem adds_measureObject (fmt : Bool) (depth : Nat) (members : List (Text × Text)) :
    Adds (fun len => measureObject fmt depth len members)
      (members.map (memberLength fmt depth)).sum := by
  induction members with
  | nil => exact adds_some
  | cons p ps ih => exact ih.bind _

/-! ## What is measured is enough -/

theorem entriesText_length (fmt : Bool) (entries : List Text) :
    (entriesText fmt entries).length ≤ (entries.map (entryLength fmt)).sum := by
  induction entries with
  | nil => exact Nat.zero_le _
  | cons t ts ih =>
      rw [List.map_cons, List.sum_cons]
      cases ts with
      | nil =>
          rw [entriesText, entryLength]
          omega
      | cons t' ts =>
          have hspace : (if fmt then ([32] : Text) else []).length ≤ if fmt then 1 else 0 := by
            cases fmt
            · exact Nat.le_refl 0
            · exact Nat.le_refl 1
          show (t ++ comma :: ((if fmt then [32] else []) ++ entriesText fmt (t' :: ts))).length ≤ _
          rw [List.length_append, List.length_cons, List.length_append, entryLength]
          omega

theorem arrayText_length (fmt : Bool) (entries : List Text) :
    (arrayText fmt entries).length + 1 ≤ arrayLength fmt entries := by
  have h := entriesText_length fmt entries
  rw [arrayText, arrayLength, List.length_cons, List.length_append, List.length_singleton]
  omega

theorem memberText_length (fmt : Bool) (depth : Nat) (last : Bool) (p : Text × Text) :
    (memberText fmt depth last p).length ≤ memberLength fmt depth p := by
  unfold memberText memberLength
  cases fmt <;> cases last <;> simp <;> omega

theorem membersText_length (fmt : Bool) (depth : Nat) (members : List (Text × Text)) :
    (membersText fmt depth members).length ≤ (members.map (memberLength fmt depth)).sum := by
  induction members with
  | nil => exact Nat.zero_le _
  | cons p ps ih =>
      rw [membersText, List.length_append, List.map_cons, List.sum_cons]
      exact Nat.add_le_add (memberText_length fmt depth ps.isEmpty p) ih

theorem objectText_length (fmt : Bool) (depth : Nat) (members : List (Text × Text)) :
    (objectText fmt depth members).length + 1 ≤ objectLength fmt depth members := by
  have h := membersText_length fmt depth members
  unfold objectText objectLength
  cases fmt
  · simp
    omega
  · simp
    omega

/-! ## One call -/

/-- A call that writes a text and its terminator into enough memory. -/
theorem allocate_eq {f : Out UInt8 → Option (Out UInt8)} {t : Text} (hf : Finishes f 0 t)
    (grants : Nat → Bool) {len : Nat} (hlen : t.length + 1 ≤ len) :
    allocate grants (fun size => f (Out.new size)) (some len)
      = if grants len then .text t else .null := by
  obtain ⟨o, ho, hwritten⟩ := hf.new hlen
  have hlast : o.written.getLast? = some 0 := by rw [hwritten, List.getLast?_concat]
  rw [allocate, ho, Printed.ofOut, if_pos hlast, hwritten, List.dropLast_concat]

/-- `print_string_ptr` is defined exactly if the length of its text fits. -/
theorem printStringPtr_eq (grants : Nat → Bool) (str : Option Text) :
    printStringPtr grants str
      = if (stringText str).length + 1 < 2 ^ 31 then
          if grants ((stringText str).length + 1) then .text (stringText str) else .null
        else .fault := by
  cases str with
  | none => rfl
  | some str =>
      rw [printStringPtr, stringText, Option.map_some]
      generalize str.takeWhile (· ≠ 0) = s
      have hlength := printStringPtr_length s
      have hmeasure : (measureString 0 s).bind (addLen · 3)
          = if (Json.printStringPtr (some s)).length + 1 < 2 ^ 31 then
              some ((Json.printStringPtr (some s)).length + 1)
            else none := by
        have h := adds_measureString s 0 (by decide)
        simp only [Nat.zero_add] at h
        rw [h, hlength]
        by_cases hfirst : (s.flatMap escapeChar).length < 2 ^ 31
        · rw [if_pos hfirst, Option.bind_some, addLen]
        · rw [if_neg hfirst, if_neg (by omega)]
          rfl
      rw [hmeasure]
      split
      · exact allocate_eq (finishes_string s) grants (Nat.le_refl _)
      · rfl

/-- `print_array` once its entries are texts. -/
theorem allocate_array (grants : Nat → Bool) (fmt : Bool) (entries : List Text) :
    allocate grants (composeArray · fmt entries) (measureArray fmt 5 entries)
      = if arrayLength fmt entries < 2 ^ 31 then
          if grants (arrayLength fmt entries) then .text (arrayText fmt entries) else .null
        else .fault := by
  have hmeasure : measureArray fmt 5 entries = if arrayLength fmt entries < 2 ^ 31
      then some (arrayLength fmt entries) else none := adds_measureArray fmt entries 5 (by decide)
  rw [hmeasure]
  split
  · exact allocate_eq (finishes_array fmt entries) grants (arrayText_length fmt entries)
  · rfl

/-- `print_object` once its names and entries are texts. -/
theorem allocate_object (grants : Nat → Bool) (fmt : Bool) (depth : Nat)
    (members : List (Text × Text)) :
    allocate grants (composeObject · fmt depth members)
        ((addLen 7 (if fmt then depth else 0)).bind fun len => measureObject fmt depth len members)
      = if objectLength fmt depth members < 2 ^ 31 then
          if grants (objectLength fmt depth members) then .text (objectText fmt depth members)
          else .null
        else .fault := by
  have hmeasure : ((addLen 7 (if fmt then depth else 0)).bind fun len =>
        measureObject fmt depth len members)
      = if objectLength fmt depth members < 2 ^ 31 then some (objectLength fmt depth members)
        else none := (adds_measureObject fmt depth members).bind _ 7 (by decide)
  rw [hmeasure]
  split
  · exact allocate_eq (finishes_object fmt depth members) grants (objectText_length fmt depth members)
  · rfl

end Libubox.Json.Printer
