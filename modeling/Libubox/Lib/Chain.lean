import Mathlib.Data.List.Nodup
import Mathlib.Logic.Function.Basic

/-!
# Chains of cells

A heap of cells, each with a value and the address of the next one.
`Seg h p xs q` says that the cells `xs`, given by their addresses and values,
lie between the pointers `p` and `q`.

* `seg_append` cuts a segment in two, `collect` walks one;
* `Seg.frame` is the frame rule: cells outside a segment may change;
* `Seg.set` changes the value of one cell, `Seg.link` hangs a cell behind the
  last one.
-/

namespace Chain

variable {ν β : Type*}

/-- A cell: its value and the pointer to the next one. -/
structure Cell (ν β : Type*) where
  val : β
  next : Option ν

/-- What the addresses hold. -/
abbrev Heap (ν β : Type*) := ν → Option (Cell ν β)

/-- The cells `xs` lie between the pointers `p` and `q`. -/
def Seg (h : Heap ν β) : Option ν → List (ν × β) → Option ν → Prop
  | p, [], q => p = q
  | p, x :: xs, q => p = some x.1 ∧ ∃ n, h x.1 = some ⟨x.2, n⟩ ∧ Seg h n xs q

variable {h h' : Heap ν β} {p q : Option ν} {xs ys : List (ν × β)}

@[simp] theorem seg_nil : Seg h p [] q ↔ p = q := Iff.rfl

@[simp] theorem seg_cons {x : ν × β} :
    Seg h p (x :: xs) q ↔ p = some x.1 ∧ ∃ n, h x.1 = some ⟨x.2, n⟩ ∧ Seg h n xs q := Iff.rfl

theorem seg_append : Seg h p (xs ++ ys) q ↔ ∃ m, Seg h p xs m ∧ Seg h m ys q := by
  induction xs generalizing p with
  | nil => simp
  | cons x xs ih =>
      constructor
      · intro hseg
        obtain ⟨hp, n, hx, hrest⟩ := hseg
        obtain ⟨m, hxs, hys⟩ := ih.mp hrest
        exact ⟨m, ⟨hp, n, hx, hxs⟩, hys⟩
      · intro hseg
        obtain ⟨m, ⟨hp, n, hx, hxs⟩, hys⟩ := hseg
        exact ⟨hp, n, hx, ih.mpr ⟨m, hxs, hys⟩⟩

/-- The frame rule. -/
theorem Seg.frame (hseg : Seg h p xs q) (heq : ∀ a ∈ xs.map Prod.fst, h' a = h a) :
    Seg h' p xs q := by
  induction xs generalizing p with
  | nil => exact hseg
  | cons x xs ih =>
      obtain ⟨hp, n, hx, hrest⟩ := hseg
      refine ⟨hp, n, ?_, ih hrest fun a ha => heq a (List.mem_cons_of_mem _ ha)⟩
      rw [heq x.1 List.mem_cons_self]
      exact hx

/-- The first pointer of a chain that ends in the null pointer. -/
theorem Seg.head (hseg : Seg h p xs none) : p = xs.head?.map Prod.fst := by
  cases xs with
  | nil => exact hseg
  | cons x xs => exact hseg.1

/-- What a cell in the middle of a segment holds. -/
theorem Seg.cell {a : ν} {b : β} (hseg : Seg h p (xs ++ (a, b) :: ys) none) :
    h a = some ⟨b, ys.head?.map Prod.fst⟩ := by
  obtain ⟨m, -, hm, n, ha, hys⟩ := seg_append.mp hseg
  rw [ha, hys.head]

/-- The first `n` cells from a pointer. -/
def collect (h : Heap ν β) : Nat → Option ν → List (ν × β)
  | 0, _ => []
  | _ + 1, none => []
  | n + 1, some a =>
      match h a with
      | none => []
      | some c => (a, c.val) :: collect h n c.next

theorem Seg.collect (hseg : Seg h p xs none) : collect h xs.length p = xs := by
  induction xs generalizing p with
  | nil => rfl
  | cons x xs ih =>
      obtain ⟨rfl, n, hx, hrest⟩ := hseg
      simp [Chain.collect, hx, ih hrest]

variable [DecidableEq ν]

/-- The value of one cell changes. -/
theorem Seg.set {a : ν} {b c : β} {n : Option ν} (hseg : Seg h p (xs ++ (a, b) :: ys) q)
    (hnodup : ((xs ++ (a, b) :: ys).map Prod.fst).Nodup) (hn : (h a).map Cell.next = some n) :
    Seg (Function.update h a (some ⟨c, n⟩)) p (xs ++ (a, c) :: ys) q := by
  obtain ⟨m, hxs, hm, n', ha, hys⟩ := seg_append.mp hseg
  have hnn : n' = n := by simpa [ha] using hn
  subst hnn
  rw [List.map_append, List.map_cons, List.nodup_append] at hnodup
  obtain ⟨-, hnys, hdisj⟩ := hnodup
  refine seg_append.mpr ⟨m, hxs.frame ?_, hm, n', by simp, hys.frame ?_⟩
  · intro x hx
    exact Function.update_of_ne (hdisj x hx a List.mem_cons_self) _ _
  · intro y hy
    apply Function.update_of_ne
    intro hya
    exact (List.nodup_cons.mp hnys).1 (hya ▸ hy)

/-- A cell is hung behind the last one. -/
theorem Seg.link {a z : ν} {b c : β} (hseg : Seg h p (xs ++ [(a, b)]) none)
    (hnodup : ((xs ++ [(a, b)]).map Prod.fst).Nodup)
    (hz : z ∉ (xs ++ [(a, b)]).map Prod.fst) :
    Seg (Function.update (Function.update h a (some ⟨b, some z⟩)) z (some ⟨c, none⟩)) p
      (xs ++ [(a, b), (z, c)]) none := by
  obtain ⟨m, hxs, hm, n, ha, hn⟩ := seg_append.mp hseg
  have hza : a ≠ z := by
    rintro rfl
    simp at hz
  rw [List.map_append, List.nodup_append] at hnodup
  refine seg_append.mpr ⟨m, hxs.frame ?_, hm, some z, ?_, rfl, none, ?_, rfl⟩
  · intro x hx
    have hxz : x ≠ z := by
      rintro rfl
      exact hz (by simp [hx])
    have hxa : x ≠ a := hnodup.2.2 x hx a (by simp)
    rw [Function.update_of_ne hxz, Function.update_of_ne hxa]
  · rw [Function.update_of_ne hza, Function.update_self]
  · rw [Function.update_self]

end Chain
