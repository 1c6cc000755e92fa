import Arbor.Proofs.Space.Magnitude
import Arbor.Proofs.Space.Signless
import Arbor.Space.Transform
import Mathlib.Data.List.Forall2
import Mathlib.Tactic.FinCases

/-!
# Placements are exact

A placement is the product of three matrices, and each entry of a product is a sum of four products
(`entry_mul`).  In the factors of a placement all but one of the four are zeros: a finite number by
zero is zero, and a zero makes no difference to a sum (`sum_matches`).  So a product with a diagonal
matrix multiplies the columns (`entry_mul_of_diagonal`), a shift does nothing to the columns of a
frame (`shift_mul_matches`), and the placement is the affine transform whose columns are the scaled
axes and the position (`place_equals`).  Each of its entries is rounded once; an entry that
overflows is infinite, and it is alone in that.  Any finite transform moves the origin to its last
column (`point_zero`).
-/

namespace Arbor

open Number

namespace Transform

/-! ## Entries by row and column -/

/-- The entry of a column in a row. -/
def entryOf (c : Column) : Fin 4 → Float32
  | 0 => c.x
  | 1 => c.y
  | 2 => c.z
  | 3 => c.w

/-- A column by its number. -/
def columnAt (m : Transform) : Fin 4 → Column
  | 0 => m.first
  | 1 => m.second
  | 2 => m.third
  | 3 => m.fourth

/-- The entry in a row and a column. -/
def entry (m : Transform) (i j : Fin 4) : Float32 := entryOf (m.columnAt j) i

/-- The same numbers at all sixteen places. -/
def Matches (m n : Transform) : Prop := ∀ i j, Number.Matches (m.entry i j) (n.entry i j)

/-- Equal numbers at all sixteen places, where the sign of a zero does not count. -/
def Equals (m n : Transform) : Prop := ∀ i j, m.entry i j == n.entry i j

/-- Finite numbers at all sixteen places. -/
def Finite (m : Transform) : Prop := ∀ i j, IsFinite (m.entry i j)

/-- The affine transform with the images `a`, `b` and `c` of the axes and the image `t` of the
origin. -/
def affine (a b c t : Vec3) : Transform :=
  ⟨direction a, direction b, direction c, ⟨t.x, t.y, t.z, 1⟩⟩

variable {a b c t : Vec3} {f : Frame} {m n : Transform} {s : Float32}

lemma Matches.finite (h : m.Matches n) (hn : n.Finite) : m.Finite := fun i j =>
  (h i j).isFinite (hn i j)

/-- The entries in the order of the columns. -/
lemma Equals.toList (h : m.Equals n) :
    List.Forall₂ (fun x y => (x == y) = true) m.toList n.toList := by
  have hcolumn : ∀ j, List.Forall₂ (fun x y => (x == y) = true) (columnEntries (m.columnAt j))
      (columnEntries (n.columnAt j)) := fun j =>
    .cons (h 0 j) (.cons (h 1 j) (.cons (h 2 j) (.cons (h 3 j) .nil)))
  exact List.rel_append (List.rel_append (List.rel_append (hcolumn 0) (hcolumn 1)) (hcolumn 2))
    (hcolumn 3)

/-- What holds of all coordinates, of zero and of one. -/
lemma forall_entry_affine {P : Float32 → Prop} (ha : P a.x ∧ P a.y ∧ P a.z)
    (hb : P b.x ∧ P b.y ∧ P b.z) (hc : P c.x ∧ P c.y ∧ P c.z) (ht : P t.x ∧ P t.y ∧ P t.z)
    (hzero : P 0) (hone : P 1) (i j : Fin 4) : P ((affine a b c t).entry i j) := by
  fin_cases j
  · fin_cases i
    exacts [ha.1, ha.2.1, ha.2.2, hzero]
  · fin_cases i
    exacts [hb.1, hb.2.1, hb.2.2, hzero]
  · fin_cases i
    exacts [hc.1, hc.2.1, hc.2.2, hzero]
  · fin_cases i
    exacts [ht.1, ht.2.1, ht.2.2, hone]

lemma finite_affine (ha : a.Finite) (hb : b.Finite) (hc : c.Finite) (ht : t.Finite) :
    (affine a b c t).Finite :=
  forall_entry_affine ⟨ha.x, ha.y, ha.z⟩ ⟨hb.x, hb.y, hb.z⟩ ⟨hc.x, hc.y, hc.z⟩
    ⟨ht.x, ht.y, ht.z⟩ below_zero.1 below_one.1

/-! ## Products -/

/-- Four summands, added from the first one on to a zero. -/
def sum (g : Fin 4 → Float32) : Float32 := 0 + g 0 + g 1 + g 2 + g 3

/-- A row by a column. -/
lemma entry_mul (m n : Transform) (i j : Fin 4) :
    (m.mul n).entry i j = sum fun k => m.entry i k * n.entry k j := by
  fin_cases i <;> fin_cases j <;> rfl

/-- Of four summands only one counts if the others are zeros. -/
lemma sum_matches {g : Fin 4 → Float32} (k : Fin 4) (h : ∀ l ≠ k, Number.Matches (g l) 0) :
    Number.Matches (sum g) (g k) := by
  -- what is added up in front of a summand, and a zero that is added behind it
  have hfront : ∀ {l}, l ≠ k → ∀ {x : Float32}, Number.Matches x 0 → Number.Matches (x + g l) 0 :=
    fun hl _ hx => (zero_add_matches hx).trans (h _ hl)
  have hbehind : ∀ {l}, l ≠ k → ∀ {x : Float32}, Number.Matches x (g k) →
      Number.Matches (x + g l) (g k) := fun hl _ hx => (add_zero_matches (h _ hl)).trans hx
  have hstart : Number.Matches (0 : Float32) 0 := .refl 0
  match k with
  | 0 =>
    exact hbehind (by decide) (hbehind (by decide) (hbehind (by decide) (zero_add_matches hstart)))
  | 1 =>
    exact hbehind (by decide) (hbehind (by decide)
      (zero_add_matches (hfront (by decide) hstart)))
  | 2 =>
    exact hbehind (by decide)
      (zero_add_matches (hfront (by decide) (hfront (by decide) hstart)))
  | 3 =>
    exact zero_add_matches (hfront (by decide) (hfront (by decide) (hfront (by decide) hstart)))

/-- A product with a diagonal matrix multiplies each column by its entry on the diagonal. -/
lemma entry_mul_of_diagonal (hm : m.Finite) {j : Fin 4} (hn : ∀ k ≠ j, n.entry k j = 0)
    (i : Fin 4) : Number.Matches ((m.mul n).entry i j) (m.entry i j * n.entry j j) := by
  rw [entry_mul]
  refine sum_matches j fun k hk => ?_
  rw [hn k hk]
  exact mul_zero_matches (hm i k)

/-! ## The factors of a placement -/

lemma shift_eq (t : Vec3) : shift t = affine .unitX .unitY .unitZ t := rfl

lemma ofFrame_eq (f : Frame) : ofFrame f = affine f.right f.up f.forward .zero := rfl

/-- The first three columns do not depend on the fourth. -/
lemma entry_affine_of_ne {i j : Fin 4} (hj : j ≠ 3) (t t' : Vec3) :
    (affine a b c t).entry i j = (affine a b c t').entry i j := by
  match j with
  | 0 | 1 | 2 => rfl
  | 3 => exact absurd rfl hj

/-- The bottom row but for its last entry. -/
lemma entry_affine_bottom {j : Fin 4} (hj : j ≠ 3) : (affine a b c t).entry 3 j = 0 := by
  match j with
  | 0 | 1 | 2 => rfl
  | 3 => exact absurd rfl hj

lemma entry_ofFrame_last {k : Fin 4} (hk : k ≠ 3) : (ofFrame f).entry k 3 = 0 := by
  match k with
  | 0 | 1 | 2 => rfl
  | 3 => exact absurd rfl hk

lemma entry_shift_of_ne {i k : Fin 4} (hik : k ≠ i) (hk : k ≠ 3) : (shift t).entry i k = 0 := by
  fin_cases k <;> fin_cases i <;> first | rfl | exact absurd rfl hik | exact absurd rfl hk

lemma entry_uniformScale_of_ne {j k : Fin 4} (h : k ≠ j) : (uniformScale s).entry k j = 0 := by
  fin_cases k <;> fin_cases j <;> first | rfl | exact absurd rfl h

lemma finite_shift (ht : t.Finite) : (shift t).Finite := by
  have hzero := below_zero.1
  have hone := below_one.1
  rw [shift_eq]
  exact finite_affine ⟨hone, hzero, hzero⟩ ⟨hzero, hone, hzero⟩ ⟨hzero, hzero, hone⟩ ht

lemma finite_ofFrame (ha : f.right.Finite) (hb : f.up.Finite) (hc : f.forward.Finite) :
    (ofFrame f).Finite := by
  have hzero := below_zero.1
  rw [ofFrame_eq]
  exact finite_affine ha hb hc ⟨hzero, hzero, hzero⟩

/-- A frame that is moved. -/
lemma shift_mul_matches (ha : f.right.Finite) (hb : f.up.Finite) (hc : f.forward.Finite)
    (ht : t.Finite) :
    ((shift t).mul (ofFrame f)).Matches (affine f.right f.up f.forward t) := by
  have hshift := finite_shift ht
  have hframe := finite_ofFrame ha hb hc
  intro i j
  by_cases hj : j = 3
  · -- the last column of the frame is that of the identity
    subst hj
    refine (entry_mul_of_diagonal hshift (fun k => entry_ofFrame_last) i).trans ?_
    have hmove : (shift t).entry i 3 = (affine f.right f.up f.forward t).entry i 3 := by
      fin_cases i <;> rfl
    rw [← hmove]
    exact mul_one_matches (hshift i 3)
  · -- the other ones are directions, so the last column of the shift does not count
    rw [entry_mul]
    refine (sum_matches i fun k hk => ?_).trans ?_
    · by_cases hlast : k = 3
      · subst hlast
        have hbottom : (ofFrame f).entry 3 j = 0 := by
          rw [ofFrame_eq]
          exact entry_affine_bottom hj
        rw [hbottom]
        exact mul_zero_matches (hshift i 3)
      · rw [entry_shift_of_ne hk hlast]
        exact zero_mul_matches (hframe k j)
    · have hone : (shift t).entry i i = 1 := by
        fin_cases i <;> rfl
      rw [hone, entry_affine_of_ne hj t .zero]
      exact one_mul_matches (hframe i j)

/-- The product of a shift, a frame and a uniform scale. -/
lemma place_matches (ht : t.Finite) (ha : f.right.Finite) (hb : f.up.Finite)
    (hc : f.forward.Finite) (hs : IsFinite s) : (place t f s).Matches
      (affine (f.right.scale s) (f.up.scale s) (f.forward.scale s) t) := by
  have hmoved := shift_mul_matches ha hb hc ht
  have hfinite : (affine f.right f.up f.forward t).Finite := finite_affine ha hb hc ht
  intro i j
  refine (entry_mul_of_diagonal (hmoved.finite hfinite) (fun k => entry_uniformScale_of_ne) i).trans
    (((hmoved i j).mul (.refl _)).trans ?_)
  by_cases hj : j = 3
  · subst hj
    have hlast : (affine (f.right.scale s) (f.up.scale s) (f.forward.scale s) t).entry i 3 =
        (affine f.right f.up f.forward t).entry i 3 := by
      fin_cases i <;> rfl
    rw [hlast]
    exact mul_one_matches (hfinite i 3)
  · by_cases hi : i = 3
    · subst hi
      have hdiagonal : (uniformScale s).entry j j = s := by
        match j with
        | 0 | 1 | 2 => rfl
        | 3 => exact absurd rfl hj
      rw [entry_affine_bottom hj, entry_affine_bottom hj, hdiagonal]
      exact zero_mul_matches hs
    · have hrounded : (affine (f.right.scale s) (f.up.scale s) (f.forward.scale s) t).entry i j =
          (affine f.right f.up f.forward t).entry i j * (uniformScale s).entry j j := by
        fin_cases j <;> fin_cases i <;> first | rfl | exact absurd rfl hi | exact absurd rfl hj
      rw [hrounded]

/-- **Placements are exact.**  A placement is the affine transform with the scaled axes and the
position as its columns. -/
theorem place_equals (ht : t.Finite) (ha : f.right.Finite) (hb : f.up.Finite)
    (hc : f.forward.Finite) (hs : IsFinite s) : (place t f s).Equals
      (affine (f.right.scale s) (f.up.scale s) (f.forward.scale s) t) := by
  have hscaled : ∀ {v : Vec3}, v.Finite → (v.scale s).x.isNaN = false ∧
      (v.scale s).y.isNaN = false ∧ (v.scale s).z.isNaN = false := fun hv =>
    ⟨mul_isNaN_eq_false hv.x hs, mul_isNaN_eq_false hv.y hs, mul_isNaN_eq_false hv.z hs⟩
  have hproper : ∀ i j, ((affine (f.right.scale s) (f.up.scale s) (f.forward.scale s) t).entry
      i j).isNaN = false :=
    forall_entry_affine (P := fun x => x.isNaN = false) (hscaled ha) (hscaled hb) (hscaled hc)
      ⟨ht.x.isNaN_eq_false, ht.y.isNaN_eq_false, ht.z.isNaN_eq_false⟩ below_zero.1.isNaN_eq_false
      below_one.1.isNaN_eq_false
  exact fun i j => (place_matches ht ha hb hc hs i j).beq (hproper i j)

/-- A finite transform takes the origin to its last column. -/
lemma point_zero (hm : m.Finite) : (m.point .zero).x == m.fourth.x ∧
    (m.point .zero).y == m.fourth.y ∧ (m.point .zero).z == m.fourth.z := by
  have hsum : ∀ i : Fin 4, Number.Matches
      (m.entry i 0 * 0 + m.entry i 1 * 0 + m.entry i 2 * 0 + m.entry i 3) (m.entry i 3) := fun i =>
    zero_add_matches <| (add_zero_matches (mul_zero_matches (hm i 2))).trans <|
      (add_zero_matches (mul_zero_matches (hm i 1))).trans (mul_zero_matches (hm i 0))
  have hequal : ∀ i : Fin 4,
      m.entry i 0 * 0 + m.entry i 1 * 0 + m.entry i 2 * 0 + m.entry i 3 == m.entry i 3 := fun i =>
    (hsum i).beq (hm i 3).isNaN_eq_false
  exact ⟨hequal 0, hequal 1, hequal 2⟩

end Transform

end Arbor
