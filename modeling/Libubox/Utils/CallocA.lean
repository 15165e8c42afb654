import Mathlib.Data.Int.Interval

/-!
# One allocation for several objects

`calloc_a` allocates the memory of several objects at once and cuts it up.  Its lengths are
added up in an `int`.  The objects have memory of their own exactly if the sum of their
lengths is below `2 ^ 31` (`callocA_apart_iff`).
-/

namespace Libubox.Utils

/-! ## The source -/

/-- `alloc_len += cur_len`: the sum is computed as a `size_t` and stored in an `int`. -/
def addLen (allocLen : Int) (curLen : Nat) : Int := Int.bmod (allocLen + curLen) (2 ^ 32)

/-- The second loop: where the objects begin. -/
def cutUp : Int → List Nat → List Int
  | _, [] => []
  | allocLen, curLen :: lens => allocLen :: cutUp (addLen allocLen curLen) lens

/-- `__calloc_a`, where `grants` tells the sizes that `calloc` has memory for: the size of
the block and the offsets in it.  A negative `int` is a size that there is no memory for. -/
def callocA (grants : Nat → Bool) (lens : List Nat) : Option (Nat × List Int) :=
  let allocLen := lens.foldl addLen 0
  if 0 ≤ allocLen ∧ grants allocLen.toNat then some (allocLen.toNat, cutUp 0 lens) else none

/-! ## Regions -/

/-- The byte `i` is one of the object. -/
def Occupies (object : Int × Nat) (i : Int) : Prop := object.1 ≤ i ∧ i < object.1 + object.2

/-- The objects lie between two offsets, and no byte is in two of them. -/
def Apart (low high : Int) (objects : List (Int × Nat)) : Prop :=
  (∀ o ∈ objects, low ≤ o.1 ∧ o.1 + o.2 ≤ high) ∧
    objects.Pairwise fun o o' => ∀ i, Occupies o i → ¬Occupies o' i

theorem addLen_eq {allocLen : Int} {curLen : Nat} (hlow : 0 ≤ allocLen)
    (hhigh : allocLen + curLen < 2 ^ 31) : addLen allocLen curLen = allocLen + curLen := by
  rw [addLen, Int.bmod_def]
  omega

theorem addLen_lt (allocLen : Int) (curLen : Nat) : addLen allocLen curLen < 2 ^ 31 := by
  rw [addLen, Int.bmod_def]
  omega

theorem foldl_addLen_lt {allocLen : Int} (h : allocLen < 2 ^ 31) (lens : List Nat) :
    lens.foldl addLen allocLen < 2 ^ 31 := by
  induction lens generalizing allocLen with
  | nil => exact h
  | cons len lens ih => exact ih (addLen_lt allocLen len)

/-- Without overflow the first loop adds the lengths up. -/
theorem foldl_addLen {allocLen : Int} (hlow : 0 ≤ allocLen) {lens : List Nat}
    (hhigh : allocLen + lens.sum < 2 ^ 31) : lens.foldl addLen allocLen = allocLen + lens.sum := by
  induction lens generalizing allocLen with
  | nil => simp
  | cons len lens ih =>
      rw [List.sum_cons, Nat.cast_add] at hhigh ⊢
      rw [List.foldl_cons, addLen_eq hlow (by omega), ih (by omega) (by omega)]
      omega

/-- Without overflow the objects follow one another. -/
theorem apart_cutUp {allocLen : Int} (hlow : 0 ≤ allocLen) {lens : List Nat}
    (hhigh : allocLen + lens.sum < 2 ^ 31) :
    Apart allocLen (allocLen + lens.sum) ((cutUp allocLen lens).zip lens) := by
  induction lens generalizing allocLen with
  | nil => exact ⟨nofun, .nil⟩
  | cons len lens ih =>
      rw [List.sum_cons, Nat.cast_add] at hhigh ⊢
      have hnext := addLen_eq hlow (show allocLen + (len : Int) < 2 ^ 31 by omega)
      obtain ⟨hinside, hpairs⟩ := @ih (allocLen + len) (by omega) (by omega)
      rw [cutUp, hnext, List.zip_cons_cons]
      refine ⟨fun o ho => ?_, .cons (fun o ho => ?_) hpairs⟩
      · rcases List.mem_cons.mp ho with rfl | ho
        · exact ⟨le_rfl, by omega⟩
        · obtain ⟨hl, hh⟩ := hinside o ho
          exact ⟨by omega, by omega⟩
      · -- the later objects begin where this one ends
        obtain ⟨hl, -⟩ := hinside o ho
        rintro i ⟨-, hi⟩ ⟨hi', -⟩
        show False
        have hi : i < allocLen + len := hi
        omega

/-- Disjoint sets have no more elements together than a set around them. -/
theorem sum_card_le {α : Type} [DecidableEq α] {sets : List (Finset α)} :
    ∀ {s : Finset α}, (∀ x ∈ sets, x ⊆ s) → sets.Pairwise Disjoint →
      (sets.map Finset.card).sum ≤ s.card := by
  induction sets with
  | nil => exact fun _ _ => Nat.zero_le _
  | cons x sets ih =>
      intro s hsub hpairs
      obtain ⟨hx, hrest⟩ := List.pairwise_cons.mp hpairs
      have hxs : x ⊆ s := hsub x List.mem_cons_self
      have hle : (sets.map Finset.card).sum ≤ (s \ x).card := by
        refine ih (fun y hy => ?_) hrest
        rw [Finset.subset_sdiff]
        exact ⟨hsub y (List.mem_cons_of_mem x hy), (hx y hy).symm⟩
      have hcard := Finset.card_sdiff_add_card_eq_card hxs
      rw [List.map_cons, List.sum_cons]
      omega

/-- Objects of their own take no more bytes than the block has. -/
theorem Apart.sum_le {size : Nat} {objects : List (Int × Nat)} (h : Apart 0 size objects) :
    (objects.map Prod.snd).sum ≤ size := by
  have hsub : ∀ x ∈ objects.map fun o : Int × Nat => Finset.Ico o.1 (o.1 + o.2),
      x ⊆ Finset.Ico 0 (size : Int) := by
    intro x hx
    obtain ⟨o, ho, rfl⟩ := List.mem_map.mp hx
    obtain ⟨hlow, hhigh⟩ := h.1 o ho
    exact Finset.Ico_subset_Ico hlow hhigh
  have hpairs :
      (objects.map fun o : Int × Nat => Finset.Ico o.1 (o.1 + o.2)).Pairwise Disjoint := by
    refine List.pairwise_map.mpr (h.2.imp fun {o o'} hapart => ?_)
    rw [Finset.disjoint_left]
    exact fun i hi hi' => hapart i (Finset.mem_Ico.mp hi) (Finset.mem_Ico.mp hi')
  have hsizes : (objects.map fun o : Int × Nat => Finset.Ico o.1 (o.1 + o.2)).map Finset.card
      = objects.map Prod.snd := by
    rw [List.map_map]
    refine List.map_congr_left fun o _ => ?_
    show (Finset.Ico o.1 (o.1 + o.2)).card = o.2
    rw [Int.card_Ico]
    omega
  have hcard := sum_card_le hsub hpairs
  rw [hsizes, Int.card_Ico] at hcard
  omega

theorem length_cutUp (allocLen : Int) (lens : List Nat) :
    (cutUp allocLen lens).length = lens.length := by
  induction lens generalizing allocLen with
  | nil => rfl
  | cons len lens ih => rw [cutUp, List.length_cons, ih, List.length_cons]

/-- **The objects that `calloc_a` allocates have memory of their own** in the block if and
only if their lengths sum up to less than `2 ^ 31`, where there is memory for the block. -/
theorem callocA_apart_iff {grants : Nat → Bool} {lens : List Nat} :
    (∃ size offsets, callocA grants lens = some (size, offsets) ∧
      Apart 0 size (offsets.zip lens)) ↔ lens.sum < 2 ^ 31 ∧ grants lens.sum = true := by
  constructor
  · rintro ⟨size, offsets, halloc, hapart⟩
    rw [callocA] at halloc
    split at halloc
    · rename_i hsize
      cases halloc
      have hlens : ((cutUp 0 lens).zip lens).map Prod.snd = lens :=
        List.map_snd_zip (length_cutUp 0 lens).ge
      have hle := hapart.sum_le
      rw [hlens] at hle
      have hlt := foldl_addLen_lt (show (0 : Int) < 2 ^ 31 by decide) lens
      have hsum : lens.sum < 2 ^ 31 := by omega
      have hfold := @foldl_addLen 0 le_rfl lens (by omega)
      refine ⟨hsum, ?_⟩
      have hgrants := hsize.2
      rwa [hfold, zero_add, Int.toNat_natCast] at hgrants
    · cases halloc
  · rintro ⟨hsum, hgrants⟩
    have hfold : lens.foldl addLen 0 = lens.sum := by
      rw [@foldl_addLen 0 le_rfl lens (by omega), zero_add]
    refine ⟨lens.sum, cutUp 0 lens, ?_, ?_⟩
    · rw [callocA, hfold, Int.toNat_natCast]
      exact if_pos ⟨Int.natCast_nonneg _, hgrants⟩
    · have hapart := @apart_cutUp 0 le_rfl lens (by omega)
      rwa [zero_add] at hapart

/-- A node of a list with its data and its name. -/
example : callocA (fun _ => true) [56, 5, 3] = some (64, [0, 56, 61]) := by decide

end Libubox.Utils
