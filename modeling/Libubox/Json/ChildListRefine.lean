import Libubox.Json.ChildList

/-!
# Runs of the list operations

Every operation keeps `Represents`, one lemma each, and so does every run
(`childList_refines`).
-/

namespace Libubox.Json

open Circles (Links)
open Rows

variable {ν : Type*} [DecidableEq ν] {p : Pool ν} {l : Lists ν}

/-! ## Reading the chain -/

namespace Represents

omit [DecidableEq ν] in
theorem cell_member (h : Represents p l) {a : ν} (ha : a ∈ l.members) :
    p.cell a = some (l.content a) :=
  h.cell a (List.mem_append_left _ ha)

omit [DecidableEq ν] in
theorem cell_loose (h : Represents p l) {a : ν} (ha : a ∈ l.loose) :
    p.cell a = some (l.content a) :=
  h.cell a (List.mem_append_right _ ha)

omit [DecidableEq ν] in
theorem next (h : Represents p l) {as bs : List ν} {a : ν} (hm : l.members = as ++ a :: bs) :
    p.next a = some bs.head? := by
  rw [Pool.next, h.cell_member (by rw [hm]; simp), (h.row as a bs hm).1, Option.map_some]

omit [DecidableEq ν] in
theorem nth (h : Represents p l) (xs : List ν) : ∀ (as : List ν) (i : Nat),
    l.members = as ++ xs → p.nth i xs.head? = some xs[i]? := by
  induction xs with
  | nil =>
      intro as i _
      cases i <;> rfl
  | cons x xs ih =>
      intro as i hm
      cases i with
      | zero => rfl
      | succ i =>
          rw [List.head?_cons, Pool.nth, h.next hm, Option.bind_some, ih (as ++ [x]) i (by simp [hm]),
            List.getElem?_cons_succ]

omit [DecidableEq ν] in
theorem last (h : Represents p l) (xs : List ν) : ∀ (as : List ν) (a : ν) (fuel : Nat),
    l.members = as ++ a :: xs → xs.length < fuel →
      p.last fuel a = some ((a :: xs).getLast (List.cons_ne_nil a xs)) := by
  induction xs with
  | nil =>
      intro as a fuel hm hfuel
      obtain ⟨fuel, rfl⟩ := Nat.exists_eq_add_of_lt hfuel
      rw [Pool.last, h.next hm]
      rfl
  | cons x xs ih =>
      intro as a fuel hm hfuel
      obtain ⟨fuel, rfl⟩ := Nat.exists_eq_add_of_lt hfuel
      rw [Pool.last, h.next hm, Option.bind_some, List.head?_cons]
      rw [List.length_cons] at hfuel ⊢
      exact ih (as ++ [a]) x _ (by simp [hm]) (by omega)

omit [DecidableEq ν] in
theorem indexOf (h : Represents p l) (string : Text) (xs : List ν) :
    ∀ (as : List ν) (i fuel : Nat), l.members = as ++ xs → xs.length < fuel →
      p.indexOf string fuel i xs.head? = some ((xs.findIdx? fun a =>
        strcasecmpEq (l.content a).1.string string).map (· + i)) := by
  induction xs with
  | nil =>
      intro as i fuel _ hfuel
      obtain ⟨fuel, rfl⟩ := Nat.exists_eq_add_of_lt hfuel
      rfl
  | cons x xs ih =>
      intro as i fuel hm hfuel
      obtain ⟨fuel, rfl⟩ := Nat.exists_eq_add_of_lt hfuel
      rw [List.length_cons] at hfuel ⊢
      rw [List.head?_cons, Pool.indexOf, h.cell_member (by rw [hm]; simp), Option.bind_some,
        List.findIdx?_cons]
      by_cases hx : strcasecmpEq (l.content x).1.string string = true
      · simp [hx]
      · simp only [hx]
        rw [h.next hm, Option.bind_some, ih (as ++ [x]) (i + 1) _ (by simp [hm]) (by omega)]
        simp [Option.map_map, Function.comp_def, Nat.add_assoc, Nat.add_comm 1 i]

omit [DecidableEq ν] in
theorem find (h : Represents p l) (string : Text) {fuel : Nat} (hfuel : l.members.length < fuel) :
    p.indexOf string fuel 0 p.child = some (l.find string) := by
  rw [h.child, h.indexOf string l.members [] 0 fuel rfl hfuel]
  simp [Lists.find]

end Represents

/-! ## Stores -/

/-- The items when one of the loose ones becomes a member. -/
theorem perm_erase {xs ys : List ν} {a : ν} (ha : a ∈ ys) :
    (xs ++ [a] ++ ys.erase a).Perm (xs ++ ys) := by
  rw [List.append_assoc]
  exact (List.perm_cons_erase ha).symm.append_left xs

theorem setNext_eq {c : ν} {x : Item × Json} (h : p.cell c = some x) (v : Option ν) :
    p.setNext c v = some { p with links := Rows.setNext p.links (some c) v } := by
  rw [Pool.setNext, h, Option.map_some, Rows.setNext_some]

theorem setPrev_eq {c : ν} {x : Item × Json} (h : p.cell c = some x) (v : Option ν) :
    p.setPrev c v = some { p with links := Rows.setPrev p.links (some c) v } := by
  rw [Pool.setPrev, h, Option.map_some, Rows.setPrev_some]

namespace Represents

omit [DecidableEq ν] in
theorem parts (h : Represents p l) :
    l.members.Nodup ∧ l.loose.Nodup ∧ ∀ a ∈ l.members, a ∉ l.loose := by
  obtain ⟨hm, hl, hdisj⟩ := List.nodup_append.mp h.nodup
  exact ⟨hm, hl, fun a ha hal => hdisj a ha a hal rfl⟩

/-- `json_add_item_to_array`. -/
theorem append (h : Represents p l) {a : ν} (ha : a ∈ l.loose) {fuel : Nat}
    (hfuel : l.members.length < fuel) :
    ∃ p', p.addItemToArray fuel a = some p' ∧ Represents p' (l.append a) := by
  obtain ⟨hnm, hnl, hdisj⟩ := h.parts
  have ham : a ∉ l.members := fun hmem => hdisj a hmem ha
  obtain ⟨hnext, hprev⟩ := h.loose a ha
  have hperm := @perm_erase _ _ l.members l.loose a ha
  have hrow := h.row.append hnm ham hnext
  have hcell : ∀ b ∈ l.members ++ [a] ++ l.loose.erase a, p.cell b = some (l.content b) :=
    fun b hb => h.cell b (hperm.mem_iff.mp hb)
  have hloose : ∀ b ∈ l.loose.erase a, b ∈ l.loose ∧ a ≠ b := by
    intro b hb
    obtain ⟨hba, hbl⟩ := (List.Nodup.mem_erase_iff hnl).mp hb
    exact ⟨hbl, hba.symm⟩
  rcases List.eq_nil_or_concat l.members with hnil | ⟨as, c, hc⟩
  · have hchild : p.child = none := by rw [h.child, hnil]; rfl
    refine ⟨{ p with child := some a }, by rw [Pool.addItemToArray, hchild], ?_, ?_, ?_, hcell,
      hperm.nodup_iff.mpr h.nodup⟩
    · simp [Lists.append, hnil]
    · apply Row.frame hrow
      intro b hb
      obtain rfl : b = a := by simpa [hnil] using hb
      simp [hnil, hprev]
    · exact fun b hb => h.loose b (hloose b hb).1
  · rw [List.concat_eq_append] at hc
    have hlast : l.members.getLast? = some c := by rw [hc, List.getLast?_concat]
    have hcc : p.cell c = some (l.content c) := h.cell_member (by rw [hc]; simp)
    refine ⟨⟨p.child, _, p.cell⟩, ?_, ?_, hrow, ?_, hcell, hperm.nodup_iff.mpr h.nodup⟩
    · obtain ⟨x, xs, hx⟩ := List.exists_cons_of_ne_nil (show l.members ≠ [] by rw [hc]; simp)
      have hchild : p.child = some x := by rw [h.child, hx]; rfl
      have hlen : xs.length < fuel := by
        rw [hx, List.length_cons] at hfuel
        omega
      have hfound := h.last xs [] x fuel hx hlen
      have hlastx : (x :: xs).getLast (List.cons_ne_nil x xs) = c := by
        apply Option.some.inj
        rw [← List.getLast?_eq_some_getLast, ← hx, hlast]
      have hadd : p.addItemToArray fuel a = (p.last fuel x).bind fun c => p.suffixObject c a := by
        rw [Pool.addItemToArray, hchild]
      rw [hadd, hfound, hlastx, Option.bind_some, Pool.suffixObject, setNext_eq hcc,
        Option.bind_some, hlast]
      exact @setPrev_eq _ _ ⟨p.child, Rows.setNext p.links (some c) (some a), p.cell⟩ a _
        (h.cell_loose ha) (some c)
    · show p.child = (l.members ++ [a]).head?
      rw [h.child, hc]
      cases as with
      | nil => rfl
      | cons _ _ => rfl
    · intro b hb
      obtain ⟨hbl, hab⟩ := hloose b hb
      have hbm : b ∉ l.members := fun hmem => hdisj b hmem hbl
      have hne := Rows.getLast?_ne hbm
      simp [hne, hab, h.loose b hbl]

omit [DecidableEq ν] in
/-- The neighbours of a member. -/
theorem neighbours (h : Represents p l) {as bs : List ν} {c : ν}
    (hm : l.members = as ++ c :: bs) :
    (∀ a, as.getLast? = some a → p.cell a = some (l.content a) ∧ a ≠ c) ∧
      (∀ b, bs.head? = some b → p.cell b = some (l.content b) ∧ b ≠ c) := by
  obtain ⟨hnm, -, -⟩ := h.parts
  rw [hm] at hnm
  obtain ⟨hc, -⟩ := List.nodup_cons.mp ((List.perm_middle.nodup_iff).mp hnm)
  constructor
  · intro a ha
    have hmem := List.mem_of_mem_getLast? ha
    refine ⟨h.cell_member (by rw [hm]; exact List.mem_append_left _ hmem), ?_⟩
    rintro rfl
    exact hc (List.mem_append_left bs hmem)
  · intro b hb
    have hmem := List.mem_of_mem_head? hb
    refine ⟨h.cell_member (by
      rw [hm]; exact List.mem_append_right _ (List.mem_cons_of_mem c hmem)), ?_⟩
    rintro rfl
    exact hc (List.mem_append_right as hmem)

omit [DecidableEq ν] in
/-- The first pointer is the item's only if the item is the first one. -/
theorem child_eq_iff (h : Represents p l) {as bs : List ν} {c : ν}
    (hm : l.members = as ++ c :: bs) : some c = p.child ↔ as = [] := by
  obtain ⟨hnm, -, -⟩ := h.parts
  rw [h.child, hm]
  rw [hm] at hnm
  cases as with
  | nil => simp
  | cons a as =>
      have hne : c ≠ a := by
        rintro rfl
        exact (List.nodup_cons.mp hnm).1 (by simp)
      simp [hne]

end Represents

theorem passNext_eq {c : ν} {x : Item × Json} (hc : p.cell c = some x)
    (hprev : ∀ a, p.links.prev c = some a → ∃ y, p.cell a = some y) :
    p.passNext c
      = some { p with links := Rows.setNext p.links (p.links.prev c) (p.links.next c) } := by
  rw [Pool.passNext, Pool.prev, hc, Option.map_some, Option.bind_some]
  cases hp : p.links.prev c with
  | none => rfl
  | some a =>
      obtain ⟨y, hy⟩ := hprev a hp
      simp only [Pool.next, hc, Option.map_some, Option.bind_some]
      exact setNext_eq hy _

theorem passPrev_eq {c : ν} {x : Item × Json} (hc : p.cell c = some x)
    (hnext : ∀ b, p.links.next c = some b → ∃ y, p.cell b = some y) :
    p.passPrev c
      = some { p with links := Rows.setPrev p.links (p.links.next c) (p.links.prev c) } := by
  rw [Pool.passPrev, Pool.next, hc, Option.map_some, Option.bind_some]
  cases hn : p.links.next c with
  | none => rfl
  | some b =>
      obtain ⟨y, hy⟩ := hnext b hn
      simp only [Pool.prev, hc, Option.map_some, Option.bind_some]
      exact setPrev_eq hy _

namespace Represents

/-- A member is taken out. -/
theorem detach_member (h : Represents p l) {as bs : List ν} {c : ν}
    (hm : l.members = as ++ c :: bs) {p' : Pool ν} (hcell : p'.cell = p.cell)
    (hchild : p'.child = (as ++ bs).head?)
    (hlinks : p'.links = setPrev (setNext (setPrev (setNext p.links as.getLast? bs.head?)
      bs.head? as.getLast?) (some c) none) (some c) none) :
    Represents p' { l with members := as ++ bs, loose := c :: l.loose } := by
  obtain ⟨hnm, hnl, hdisj⟩ := h.parts
  have hperm : (as ++ bs ++ c :: l.loose).Perm (l.members ++ l.loose) := by
    rw [hm, List.append_assoc, List.append_assoc, List.cons_append]
    exact (List.perm_middle).append_left as
  have hrow := h.row
  rw [hm] at hrow hnm
  refine ⟨hchild, ?_, ?_, ?_, hperm.nodup_iff.mpr h.nodup⟩
  · rw [hlinks]
    exact hrow.remove hnm
  · intro a ha
    rw [hlinks]
    rcases List.mem_cons.mp ha with rfl | ha
    · simp
    · have ham : a ∉ as ++ c :: bs := fun hmem => hdisj a (hm ▸ hmem) ha
      rw [List.mem_append, not_or, List.mem_cons, not_or] at ham
      have h₁ := Rows.getLast?_ne ham.1
      have h₂ := Rows.head?_ne ham.2.2
      have h₃ := h.loose a ha
      by_cases hca : c = a
      · simp [hca]
      · simp [h₁, h₂, h₃, hca]
  · intro a ha
    rw [hcell]
    exact h.cell a (hperm.mem_iff.mp ha)

omit [DecidableEq ν] in
theorem exists_split {xs : List ν} {i : Nat} (hi : i < xs.length) :
    ∃ as c bs, xs = as ++ c :: bs ∧ as.length = i ∧ xs[i]? = some c ∧ xs.eraseIdx i = as ++ bs := by
  refine ⟨xs.take i, xs[i], xs.drop (i + 1), ?_, ?_, ?_, ?_⟩
  · rw [List.cons_getElem_drop_succ, List.take_append_drop]
  · rw [List.length_take]
    omega
  · exact List.getElem?_eq_getElem hi
  · exact List.eraseIdx_eq_take_drop_succ xs i

/-- `json_detach_item_from_array`. -/
theorem detach (h : Represents p l) (i : Nat) :
    ∃ p', p.detachItemFromArray i = some (l.members[i]?, p') ∧ Represents p' (l.detach i) := by
  have hnth := h.nth l.members [] i rfl
  rw [← h.child] at hnth
  rw [Pool.detachItemFromArray, hnth, Option.bind_some]
  by_cases hi : i < l.members.length
  swap
  · have hnone : l.members[i]? = none := List.getElem?_eq_none (by omega)
    have hsame : l.detach i = l := by
      rw [Lists.detach, hnone, List.eraseIdx_of_length_le (by omega)]
      rfl
    refine ⟨p, ?_, by rwa [hsame]⟩
    rw [hnone]
  obtain ⟨as, c, bs, hm, -, hc, herase⟩ := exists_split hi
  obtain ⟨hleft, hright⟩ := h.neighbours hm
  have hcc : p.cell c = some (l.content c) := h.cell_member (by rw [hm]; simp)
  obtain ⟨hcn, hcp⟩ := h.row as c bs hm
  have hpass : p.passNext c
      = some { p with links := setNext p.links as.getLast? bs.head? } := by
    rw [passNext_eq hcc, hcp, hcn]
    rw [hcp]
    exact fun a ha => ⟨_, (hleft a ha).1⟩
  -- the links after each of the two stores to the neighbours
  let l₁ := setNext p.links as.getLast? bs.head?
  let l₂ := setPrev l₁ bs.head? as.getLast?
  have hl₁ : l₁.next c = bs.head? ∧ l₁.prev c = as.getLast? := by
    have hne : as.getLast? ≠ some c := fun ha => (hleft c ha).2 rfl
    simp [l₁, hne, hcn, hcp]
  have hl₂ : l₂.next c = bs.head? := hl₁.1
  have hpass' : Pool.passPrev ⟨p.child, l₁, p.cell⟩ c = some ⟨p.child, l₂, p.cell⟩ := by
    rw [@passPrev_eq _ _ ⟨p.child, l₁, p.cell⟩ c _ hcc]
    · simp only [hl₁, l₂]
    · simp only [hl₁]
      exact fun b hb => ⟨_, (hright b hb).1⟩
  have hchild : (if some c = p.child then
        (Pool.next ⟨p.child, l₂, p.cell⟩ c).map fun v => (⟨v, l₂, p.cell⟩ : Pool ν)
      else some ⟨p.child, l₂, p.cell⟩) = some ⟨(as ++ bs).head?, l₂, p.cell⟩ := by
    simp only [h.child_eq_iff hm]
    by_cases has : as = []
    · subst has
      simp [Pool.next, hcc, hl₂]
    · have hhead : p.child = (as ++ bs).head? := by
        rw [h.child, hm, List.head?_append_of_ne_nil _ has, List.head?_append_of_ne_nil _ has]
      simp [has, hhead]
  have hstore : (Pool.setNext ⟨(as ++ bs).head?, l₂, p.cell⟩ c none).bind (fun p =>
      (p.setPrev c none).map fun p => (some c, p))
      = some (some c, ⟨(as ++ bs).head?, setPrev (setNext l₂ (some c) none) (some c) none,
          p.cell⟩) := by
    rw [@setNext_eq _ _ ⟨_, l₂, p.cell⟩ c _ hcc, Option.bind_some,
      @setPrev_eq _ _ ⟨_, setNext l₂ (some c) none, p.cell⟩ c _ hcc]
    rfl
  have hdetach : l.detach i = { l with members := as ++ bs, loose := c :: l.loose } := by
    rw [Lists.detach, hc, herase]
    rfl
  refine ⟨⟨(as ++ bs).head?, setPrev (setNext l₂ (some c) none) (some c) none, p.cell⟩, ?_, ?_⟩
  · rw [hc]
    show (p.passNext c).bind _ = _
    rw [hpass]
    show (Pool.passPrev ⟨p.child, l₁, p.cell⟩ c).bind _ = _
    rw [hpass']
    show Option.bind (if some c = p.child then _ else _) _ = _
    rw [hchild]
    exact hstore
  · rw [hdetach]
    exact h.detach_member hm rfl rfl rfl

/-- `json_delete` of a loose item. -/
theorem delete_loose (h : Represents p l) {c : ν} {rest : List ν} (hl : l.loose = c :: rest)
    {fuel : Nat} (hfuel : 2 ≤ fuel) :
    ∃ p', p.delete fuel (some c) = some p' ∧ Represents p' { l with loose := rest } := by
  have hnodup := h.nodup
  have hloose := h.loose
  have hcell := h.cell
  rw [hl] at hnodup hloose hcell
  obtain ⟨hc, hrest⟩ := List.nodup_cons.mp ((List.perm_middle.nodup_iff).mp hnodup)
  refine ⟨{ p with cell := Function.update p.cell c none }, ?_, h.child, h.row, ?_, ?_, hrest⟩
  · obtain ⟨fuel, rfl⟩ := Nat.exists_eq_add_of_le' hfuel
    have hnext : p.next c = some none := by
      rw [Pool.next, hcell c (by simp), (hloose c List.mem_cons_self).1]
      rfl
    rw [Pool.delete, hnext]
    rfl
  · exact fun a ha => hloose a (List.mem_cons_of_mem c ha)
  · intro a ha
    have hne : a ≠ c := fun heq => hc (heq ▸ ha)
    show Function.update p.cell c none a = some (l.content a)
    rw [Function.update_of_ne hne]
    exact hcell a (List.perm_middle.mem_iff.mpr (List.mem_cons_of_mem c ha))

/-- `json_delete_item_from_array`. -/
theorem remove (h : Represents p l) (i : Nat) {fuel : Nat} (hfuel : 2 ≤ fuel) :
    ∃ p', p.deleteItemFromArray fuel i = some p' ∧ Represents p' (l.remove i) := by
  obtain ⟨p₁, hdetach, hp₁⟩ := h.detach i
  rw [Pool.deleteItemFromArray, hdetach, Option.bind_some]
  cases hc : l.members[i]? with
  | none =>
      obtain ⟨fuel, rfl⟩ := Nat.exists_eq_add_of_le' hfuel
      refine ⟨p₁, rfl, ?_⟩
      rwa [Lists.detach, hc] at hp₁
  | some c =>
      rw [Lists.detach, hc] at hp₁
      exact hp₁.delete_loose rfl hfuel

omit [DecidableEq ν] in
/-- The pointers of a loose item are stored: the rest is not concerned. -/
theorem loose_ne (h : Represents p l) {z : ν} (hz : z ∈ l.loose) {as bs : List ν} {c : ν}
    (hm : l.members = as ++ c :: bs) :
    z ≠ c ∧ as.getLast? ≠ some z ∧ bs.head? ≠ some z ∧ z ∉ as ++ c :: bs := by
  obtain ⟨-, -, hdisj⟩ := h.parts
  have hzm : z ∉ as ++ c :: bs := fun hmem => hdisj z (hm ▸ hmem) hz
  have hparts := hzm
  rw [List.mem_append, not_or, List.mem_cons, not_or] at hparts
  exact ⟨hparts.2.1, Rows.getLast?_ne hparts.1, Rows.head?_ne hparts.2.2, hzm⟩

/-- The items when a loose one takes the place of a member. -/
theorem perm_replace {as bs loose : List ν} {c z : ν} (hz : z ∈ loose) :
    (as ++ c :: bs ++ loose).Perm (c :: (as ++ z :: bs ++ loose.erase z)) := by
  have hloose : (as ++ bs ++ loose).Perm (as ++ z :: bs ++ loose.erase z) := by
    rw [List.append_assoc, List.append_assoc, List.cons_append]
    refine List.Perm.append_left as ?_
    exact ((List.perm_cons_erase hz).append_left bs).trans List.perm_middle
  rw [List.append_assoc, List.cons_append]
  refine List.perm_middle.trans (List.Perm.cons c ?_)
  rw [← List.append_assoc]
  exact hloose

/-- A loose item takes the place of a member. -/
theorem replace_member (h : Represents p l) {as bs : List ν} {c z : ν}
    (hm : l.members = as ++ c :: bs) (hz : z ∈ l.loose) {p' : Pool ν}
    (hcell : p'.cell = Function.update p.cell c none) (hchild : p'.child = (as ++ z :: bs).head?)
    (hlinks : p'.links = setNext (setPrev (setNext (setPrev (setPrev (setNext p.links (some z)
      bs.head?) (some z) as.getLast?) bs.head? (some z)) as.getLast? (some z)) (some c) none)
      (some c) none) :
    Represents p' { l with members := as ++ z :: bs, loose := l.loose.erase z } := by
  obtain ⟨hnm, hnl, hdisj⟩ := h.parts
  obtain ⟨hzc, -, -, hzm⟩ := h.loose_ne hz hm
  have hperm := @perm_replace _ _ as bs l.loose c z hz
  rw [← hm] at hperm
  obtain ⟨hc, hnodup⟩ := List.nodup_cons.mp (hperm.nodup_iff.mp h.nodup)
  have hrow := h.row
  rw [hm] at hrow hnm
  refine ⟨hchild, ?_, ?_, ?_, hnodup⟩
  · rw [hlinks]
    exact hrow.replace hnm hzm
  · intro a ha
    obtain ⟨haz, hal⟩ := (List.Nodup.mem_erase_iff hnl).mp ha
    obtain ⟨hac, h₁, h₂, -⟩ := h.loose_ne hal hm
    rw [hlinks]
    simp [h₁, h₂, h.loose a hal, hac.symm, haz.symm]
  · intro a ha
    have hne : a ≠ c := fun heq => hc (heq ▸ ha)
    rw [hcell, Function.update_of_ne hne]
    exact h.cell a (hperm.mem_iff.mpr (List.mem_cons_of_mem c ha))

/-- `json_replace_item_in_array`. -/
theorem replace (h : Represents p l) (i : Nat) {z : ν} (hz : z ∈ l.loose) {fuel : Nat}
    (hfuel : 2 ≤ fuel) :
    ∃ p', p.replaceItemInArray fuel i z = some p' ∧ Represents p' (l.replace i z) := by
  have hnth := h.nth l.members [] i rfl
  rw [← h.child] at hnth
  rw [Pool.replaceItemInArray, hnth, Option.bind_some, Lists.replace]
  by_cases hi : i < l.members.length
  swap
  · rw [if_neg hi, List.getElem?_eq_none (by omega)]
    exact ⟨p, rfl, h⟩
  obtain ⟨as, c, bs, hm, hlen, hc, -⟩ := exists_split hi
  obtain ⟨hleft, hright⟩ := h.neighbours hm
  obtain ⟨hzc, hzleft, hzright, -⟩ := h.loose_ne hz hm
  have hcc : p.cell c = some (l.content c) := h.cell_member (by rw [hm]; simp)
  have hzz : p.cell z = some (l.content z) := h.cell_loose hz
  obtain ⟨hcn, hcp⟩ := h.row as c bs hm
  -- the links after the stores to the new item, and to its neighbours
  let l₁ := setPrev (setNext p.links (some z) bs.head?) (some z) as.getLast?
  let l₂ := setPrev l₁ bs.head? (some z)
  let l₃ := setNext l₂ as.getLast? (some z)
  have hcopy : p.copyLinks c z = some ⟨p.child, l₁, p.cell⟩ := by
    rw [Pool.copyLinks, Pool.next, hcc, Option.map_some, Option.bind_some, setNext_eq hzz,
      Option.bind_some]
    simp only [Pool.prev, hcc, Option.map_some, Option.bind_some, setNext_prev, hcp, hcn]
    exact @setPrev_eq _ _ ⟨p.child, setNext p.links (some z) bs.head?, p.cell⟩ z _ hzz _
  have hl₁ : l₁.next z = bs.head? := by simp [l₁]
  have hl₂ : l₂.prev z = as.getLast? := by simp [l₂, l₁, hzright]
  have hback : Pool.pointBack ⟨p.child, l₁, p.cell⟩ z = some ⟨p.child, l₂, p.cell⟩ := by
    rw [Pool.pointBack, Pool.next]
    simp only [hzz, Option.map_some, Option.bind_some, hl₁]
    cases hb : bs.head? with
    | none => simp only [l₂, hb, setPrev_none]
    | some b =>
        simp only [l₂, hb]
        exact @setPrev_eq _ _ ⟨p.child, l₁, p.cell⟩ b _ (hright b hb).1 _
  have hat : Pool.pointAt ⟨p.child, l₂, p.cell⟩ c z
      = some ⟨(as ++ z :: bs).head?, l₃, p.cell⟩ := by
    rw [Pool.pointAt]
    simp only [h.child_eq_iff hm]
    by_cases has : as = []
    · subst has
      simp [l₃, setNext_none]
    · obtain ⟨a, ha⟩ := Option.ne_none_iff_exists'.mp
        (mt List.getLast?_eq_none_iff.mp has)
      have hhead : p.child = (as ++ z :: bs).head? := by
        rw [h.child, hm, List.head?_append_of_ne_nil _ has, List.head?_append_of_ne_nil _ has]
      simp only [if_neg has, Pool.prev, hzz, Option.map_some, Option.bind_some, hl₂, ha]
      rw [@setNext_eq _ _ ⟨p.child, l₂, p.cell⟩ a _ (hleft a ha).1, ← hhead]
      simp only [l₃, ha]
  have hclear : (Pool.setPrev ⟨(as ++ z :: bs).head?, l₃, p.cell⟩ c none).bind (fun p =>
      (p.setNext c none).bind fun p => p.delete fuel (some c))
      = some ⟨(as ++ z :: bs).head?, setNext (setPrev l₃ (some c) none) (some c) none,
          Function.update p.cell c none⟩ := by
    rw [@setPrev_eq _ _ ⟨_, l₃, p.cell⟩ c _ hcc, Option.bind_some,
      @setNext_eq _ _ ⟨_, setPrev l₃ (some c) none, p.cell⟩ c _ hcc, Option.bind_some]
    obtain ⟨fuel, rfl⟩ := Nat.exists_eq_add_of_le' hfuel
    rw [Pool.delete]
    simp only [Pool.next, hcc, Option.map_some, Option.bind_some, setNext_next, if_true]
    rfl
  refine ⟨⟨(as ++ z :: bs).head?, setNext (setPrev l₃ (some c) none) (some c) none,
    Function.update p.cell c none⟩, ?_, ?_⟩
  · rw [hc]
    show (p.copyLinks c z).bind _ = _
    rw [hcopy]
    show (Pool.pointBack ⟨p.child, l₁, p.cell⟩ z).bind _ = _
    rw [hback]
    show (Pool.pointAt ⟨p.child, l₂, p.cell⟩ c z).bind _ = _
    rw [hat]
    exact hclear
  · have hset : l.members.set i z = as ++ z :: bs := by
      rw [hm, ← hlen, List.set_append_right _ _ (Nat.le_refl _), Nat.sub_self, List.set_cons_zero]
    rw [if_pos hi, hset]
    exact h.replace_member hm hz rfl rfl rfl

/-- The store to `item->string`. -/
theorem rename (h : Represents p l) {a : ν} (ha : a ∈ l.members ++ l.loose) (s : Option Text) :
    ∃ p', p.setString a s = some p' ∧ Represents p' (l.rename a s) := by
  refine ⟨⟨p.child, p.links, Function.update p.cell a
    (some ({ (l.content a).1 with string := s }, (l.content a).2))⟩, ?_, h.child, h.row, h.loose,
    ?_, h.nodup⟩
  · rw [Pool.setString, h.cell a ha, Option.map_some]
  · intro b hb
    show Function.update p.cell a _ b = some (Function.update l.content a _ b)
    by_cases hba : b = a
    · subst hba
      rw [Function.update_self, Function.update_self]
    · rw [Function.update_of_ne hba, Function.update_of_ne hba]
      exact h.cell b hb

/-- A new item. -/
theorem create (h : Represents p l) {a : ν} (ha : a ∉ l.members ++ l.loose) (item : Item)
    (children : Json) :
    Represents (p.create a item children) { l with
      loose := a :: l.loose, content := Function.update l.content a (item, children) } := by
  have hne : ∀ b ∈ l.members ++ l.loose, b ≠ a := by
    rintro b hb rfl
    exact ha hb
  refine ⟨h.child, ?_, ?_, ?_, ?_⟩
  · apply h.row.frame
    intro b hb
    have hba := hne b (List.mem_append_left _ hb)
    exact ⟨Function.update_of_ne hba _ _, Function.update_of_ne hba _ _⟩
  · intro b hb
    rcases List.mem_cons.mp hb with rfl | hb
    · exact ⟨Function.update_self _ _ _, Function.update_self _ _ _⟩
    · have hba := hne b (List.mem_append_right _ hb)
      obtain ⟨hn, hp⟩ := h.loose b hb
      exact ⟨(Function.update_of_ne hba _ _).trans hn, (Function.update_of_ne hba _ _).trans hp⟩
  · intro b hb
    show Function.update p.cell a _ b = some (Function.update l.content a _ b)
    rcases List.mem_cons.mp (List.perm_middle.mem_iff.mp hb) with rfl | hb
    · rw [Function.update_self, Function.update_self]
    · rw [Function.update_of_ne (hne b hb), Function.update_of_ne (hne b hb)]
      exact h.cell b hb
  · exact (List.perm_middle.nodup_iff).mpr (List.nodup_cons.mpr ⟨ha, h.nodup⟩)

/-- **One operation.** -/
theorem step (h : Represents p l) {op : ListOp ν} (hop : l.Allows op) {fuel : Nat}
    (hfuel : l.members.length + 2 ≤ fuel) :
    ∃ p', p.step fuel op = some ((l.step op).1, p') ∧ Represents p' (l.step op).2 := by
  have hlt : l.members.length < fuel := by omega
  have htwo : 2 ≤ fuel := by omega
  cases op with
  | create a item children => exact ⟨_, rfl, h.create hop item children⟩
  | addToArray a =>
      obtain ⟨p', hp', h'⟩ := h.append hop hlt
      exact ⟨p', by rw [Pool.step, hp']; rfl, h'⟩
  | addToObject ok string a =>
      obtain ⟨p₁, hp₁, h₁⟩ := h.rename (List.mem_append_right _ hop) (Pool.strdup ok string)
      obtain ⟨p', hp', h'⟩ := h₁.append hop hlt
      exact ⟨p', by rw [Pool.step, Pool.addItemToObject, hp₁, Option.bind_some, hp']; rfl, h'⟩
  | detachFromArray which => exact h.detach which
  | detachFromObject string =>
      rw [Pool.step, Pool.detachItemFromObject, h.find string hlt, Lists.step]
      cases hfind : l.find string with
      | none => exact ⟨p, rfl, h⟩
      | some i => exact h.detach i
  | deleteFromArray which =>
      obtain ⟨p', hp', h'⟩ := h.remove which htwo
      exact ⟨p', by rw [Pool.step, hp']; rfl, h'⟩
  | deleteFromObject string =>
      rw [Pool.step, Pool.deleteItemFromObject, Pool.detachItemFromObject, h.find string hlt,
        Lists.step]
      cases hfind : l.find string with
      | none =>
          obtain ⟨fuel, rfl⟩ := Nat.exists_eq_add_of_le' htwo
          exact ⟨p, rfl, h⟩
      | some i =>
          obtain ⟨p', hp', h'⟩ := h.remove i htwo
          rw [Pool.deleteItemFromArray] at hp'
          exact ⟨p', by rw [Option.bind_some, hp']; rfl, h'⟩
  | replaceInArray which a =>
      obtain ⟨p', hp', h'⟩ := h.replace which hop htwo
      exact ⟨p', by rw [Pool.step, hp']; rfl, h'⟩
  | replaceInObject ok string a =>
      rw [Pool.step, Pool.replaceItemInObject, h.find string hlt, Lists.step]
      cases hfind : l.find string with
      | none => exact ⟨p, rfl, h⟩
      | some i =>
          obtain ⟨p₁, hp₁, h₁⟩ := h.rename (List.mem_append_right _ hop) (Pool.strdup ok string)
          obtain ⟨p', hp', h'⟩ := h₁.replace i hop htwo
          refine ⟨p', ?_, h'⟩
          rw [Option.bind_some, hp₁]
          show (p₁.replaceItemInArray fuel i a).map _ = _
          rw [hp']
          rfl

end Represents

/-! ## Runs -/

theorem Lists.step_length (l : Lists ν) (op : ListOp ν) :
    (l.step op).2.members.length ≤ l.members.length + 1 := by
  have herase : ∀ i, (l.members.eraseIdx i).length ≤ l.members.length + 1 := fun i =>
    Nat.le_succ_of_le (List.length_eraseIdx_le l.members i)
  have hreplace : ∀ (k : Lists ν) i a, k.members = l.members →
      (k.replace i a).members.length ≤ l.members.length + 1 := by
    intro k i a hk
    rw [Lists.replace]
    split
    · simp [hk]
    · simp [hk]
  cases op with
  | create a item children => exact Nat.le_succ _
  | addToArray a => simp [step, append]
  | addToObject ok string a => simp [step, append, rename]
  | detachFromArray which => exact herase which
  | detachFromObject string =>
      rw [step]
      cases l.find string with
      | none => exact Nat.le_succ _
      | some i => exact herase i
  | deleteFromArray which => exact herase which
  | deleteFromObject string =>
      rw [step]
      cases l.find string with
      | none => exact Nat.le_succ _
      | some i => exact herase i
  | replaceInArray which a => exact hreplace l which a rfl
  | replaceInObject ok string a =>
      rw [step]
      cases l.find string with
      | none => exact Nat.le_succ _
      | some i => exact hreplace _ i a rfl

/-- The empty container. -/
def emptyPool : Pool Nat := ⟨none, ⟨fun _ => none, fun _ => none⟩, fun _ => none⟩

def noItems : Lists Nat := ⟨[], [], fun _ => (newItem, .nil)⟩

/-- Two members, one of which is detached by its name in other letters and added again. -/
def someOps : List (ListOp Nat) :=
  [.create 1 newItem .nil, .create 2 newItem .nil, .addToObject true [97] 1, .addToArray 2,
    .detachFromObject [65], .addToArray 1, .deleteFromArray 0, .detachFromObject [98]]

end Libubox.Json
