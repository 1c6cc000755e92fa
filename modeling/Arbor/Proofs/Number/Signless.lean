import Arbor.Proofs.Number.Range

/-!
# Numbers without the sign of a zero

Two numbers match if they are equal, where the sign of a zero does not count, or if both are NaNs.
Sums, products and roots of numbers that match do match (`Matches.add` and its siblings), infinite
ones and NaNs included; quotients do by one divisor that is above zero.  What an operation does to
signs is a property of the unpacked numbers, so no rounding has to be looked at: a difference the
other way round and a product with an opposite factor are opposite (`opposed_sub`, `Opposed.mul`),
and to subtract one of two opposite numbers is to add the other one (`Opposed.sub_matches_add`).
-/

namespace Arbor.Number

open Float.Model (UnpackedFloat)
open Float.Model.UnpackedFloat

/-! ## Unpacked numbers -/

/-- A number with the sign taken from a zero. -/
def signless : UnpackedFloat → UnpackedFloat
  | .zero _ => .zero .positive
  | u => u

section Unpacked

variable (f : Float.Model.Format) (u v : UnpackedFloat)

lemma compare_sign_eq_iff (s t : Sign) : compare s t = .eq ↔ s = t :=
  match s, t with
  | .positive, .positive | .negative, .negative => iff_of_true rfl rfl
  | .positive, .negative | .negative, .positive => iff_of_false nofun nofun

lemma signless_finite_eq_iff {s t : Sign} {m n : ℕ} {e d : ℤ} {hm : 0 < m} {hn : 0 < n} :
    signless (.finite s m e hm) = signless (.finite t n d hn) ↔ s = t ∧ e = d ∧ m = n := by
  constructor
  · intro h
    cases h
    exact ⟨rfl, rfl, rfl⟩
  · rintro ⟨rfl, rfl, rfl⟩
    rfl

/-- Numbers compare as equal if they are the same but for the sign of a zero, and no NaNs. -/
lemma compare_eq_some_eq_iff :
    u.compare v = some .eq ↔ signless u = signless v ∧ u ≠ .notANumber := by
  -- zeros and infinities are told apart by their form, and so are numbers of different signs
  have hdiffer : ∀ {u v : UnpackedFloat}, u.compare v ≠ some .eq → signless u ≠ signless v →
      (u.compare v = some .eq ↔ signless u = signless v ∧ u ≠ .notANumber) :=
    fun hcompare hsignless => iff_of_false hcompare fun h => hsignless h.1
  match u, v with
  | .infinity s, .infinity t =>
    show some (compare s t) = some .eq ↔ UnpackedFloat.infinity s = .infinity t ∧ _
    rw [Option.some_inj, compare_sign_eq_iff, UnpackedFloat.infinity.injEq]
    exact (and_iff_left nofun).symm
  | .finite .positive m e _, .finite .positive n d _ =>
    show some ((compare e d).then (compare m n)) = some .eq ↔ _
    rw [Option.some_inj, Ordering.then_eq_eq, compare_eq_iff_eq, compare_eq_iff_eq,
      signless_finite_eq_iff, and_iff_right rfl]
    exact (and_iff_left nofun).symm
  | .finite .negative m e _, .finite .negative n d _ =>
    show some ((compare e d).then (compare m n)).swap = some .eq ↔ _
    rw [Option.some_inj, Ordering.swap_eq_eq, Ordering.then_eq_eq, compare_eq_iff_eq,
      compare_eq_iff_eq, signless_finite_eq_iff, and_iff_right rfl]
    exact (and_iff_left nofun).symm
  | .zero _, .zero _ => exact iff_of_true rfl ⟨rfl, nofun⟩
  | .finite .positive .., .finite .negative .. | .finite .negative .., .finite .positive .. |
    .infinity .positive, .zero _ | .infinity .negative, .zero _ |
    .infinity .positive, .finite .. | .infinity .negative, .finite .. |
    .zero _, .infinity .positive | .zero _, .infinity .negative |
    .finite .., .infinity .positive | .finite .., .infinity .negative |
    .zero _, .finite .positive .. | .zero _, .finite .negative .. |
    .finite .positive .., .zero _ | .finite .negative .., .zero _ |
    .infinity _, .notANumber | .zero _, .notANumber | .finite .., .notANumber =>
    exact hdiffer nofun nofun
  | .notANumber, v =>
    refine iff_of_false ?_ fun h => h.2 rfl
    cases v <;> exact nofun

variable {u v} in
lemma eq_of_signless_eq (h : signless u = signless v) (hu : ∀ s, u ≠ .zero s) : u = v := by
  cases u with
  | zero s => exact absurd rfl (hu s)
  | _ => cases v <;> first | exact h | cases h

lemma signless_neg : signless u.neg = signless (signless u).neg := by
  cases u <;> rfl

/-- The signs of zeros make no difference but to the signs of zeros. -/
lemma signless_add :
    signless (.add f u v) = signless (.add f (signless u) (signless v)) := by
  cases u with
  | zero s =>
    cases v with
    | zero t => cases s <;> cases t <;> rfl
    | _ => rfl
  | _ => cases v <;> rfl

lemma signless_sub :
    signless (.sub f u v) = signless (.sub f (signless u) (signless v)) := by
  cases u with
  | zero s =>
    cases v with
    | zero t => cases s <;> cases t <;> rfl
    | _ => rfl
  | _ => cases v <;> rfl

lemma signless_mul :
    signless (.mul f u v) = signless (.mul f (signless u) (signless v)) := by
  cases u <;> cases v <;> rfl

lemma signless_sqrt : signless (.sqrt f u) = signless (.sqrt f (signless u)) := by
  cases u <;> rfl

/-- Packing does not bring a sign back. -/
lemma signless_unpack_pack :
    signless (unpack f (pack f u)) = signless (unpack f (pack f (signless u))) := by
  cases u with
  | zero s =>
    have hzero : ∀ t, unpack f (pack f (.zero t)) = .zero t := fun t => unpack_packedZero
    rw [signless, hzero, hzero]
    rfl
  | _ => rfl

/-! ## Opposite numbers -/

lemma neg_neg_sign (s : Sign) : - -s = s := by
  cases s <;> rfl

lemma neg_neg_unpacked : u.neg.neg = u := by
  cases u with
  | notANumber => rfl
  | infinity s => exact congrArg UnpackedFloat.infinity (neg_neg_sign s)
  | zero s => exact congrArg UnpackedFloat.zero (neg_neg_sign s)
  | finite s m e hm => exact congrArg (UnpackedFloat.finite · m e hm) (neg_neg_sign s)

lemma neg_mul_sign (s t : Sign) : -s * t = -(s * t) := by
  cases s <;> cases t <;> rfl

lemma neg_ofMantissa (s : Sign) (m : ℕ) (e : ℤ) : (ofMantissa s m e).neg = ofMantissa (-s) m e := by
  rcases Nat.eq_zero_or_pos m with rfl | hm
  · rw [ofMantissa_zero, ofMantissa_zero]
    rfl
  · rw [ofMantissa_of_pos hm, ofMantissa_of_pos hm]
    rfl

/-- Rounding does not look at the sign. -/
lemma roundWithAccuracy_neg (s : Sign) (m : ℕ) (e : ℤ) (acc : Accuracy) :
    roundWithAccuracy f (-s) m e acc = (roundWithAccuracy f s m e acc).neg := by
  rw [roundWithAccuracy_eq, roundWithAccuracy_eq, neg_ofMantissa]

lemma signless_normalize_neg (n e : ℤ) (s t : Sign) :
    signless (UnpackedFloat.normalize f (-n) e s) =
      signless (UnpackedFloat.normalize f n e t).neg := by
  unfold UnpackedFloat.normalize
  rcases lt_trichotomy n 0 with hn | rfl | hn
  · rw [Int.compare_eq_lt.mpr hn, Int.compare_eq_gt.mpr (by omega : 0 < -n)]
    exact congrArg signless (roundWithAccuracy_neg f .negative ..)
  · rfl
  · rw [Int.compare_eq_gt.mpr hn, Int.compare_eq_lt.mpr (by omega : -n < 0), neg_neg]
    exact congrArg signless (roundWithAccuracy_neg f .positive ..)

/-- A difference the other way round. -/
lemma signless_sub_swap : signless (.sub f u v) = signless (UnpackedFloat.sub f v u).neg := by
  match u, v with
  | .finite s m e _, .finite t n d _ =>
    have hswap := signless_normalize_neg f
      (t.apply (decreaseExponent n d (min e d)).1 - s.apply (decreaseExponent m e (min e d)).1)
      (min e d) .positive .positive
    rw [neg_sub] at hswap
    refine hswap.trans ?_
    rw [min_comm e d]
    rfl
  | .zero s, .zero t | .infinity s, .infinity t => cases s <;> cases t <;> rfl
  | .finite s m e hm, .zero t =>
    show UnpackedFloat.finite s m e hm = .finite (- -s) m e hm
    rw [neg_neg_sign]
  | .zero s, .finite t m e hm => rfl
  | .infinity s, .finite .. | .infinity s, .zero _ =>
    show UnpackedFloat.infinity s = .infinity (- -s)
    rw [neg_neg_sign]
  | .finite .., .infinity t | .zero _, .infinity t => rfl
  | .notANumber, v => cases v <;> rfl
  | .infinity _, .notANumber | .zero _, .notANumber | .finite .., .notANumber => rfl

lemma sub_neg_unpacked : UnpackedFloat.sub f u v.neg = .add f u v := by
  match u, v with
  | .finite s m e _, .finite t n d _ =>
    show UnpackedFloat.normalize f (s.apply _ - (-t).apply _) _ _ =
      UnpackedFloat.normalize f (s.apply _ + t.apply _) _ _
    rw [sign_apply_neg, sub_neg_eq_add]
  | .zero s, .zero t | .infinity s, .infinity t => cases s <;> cases t <;> rfl
  | .zero _, .finite t n d hn =>
    show UnpackedFloat.finite (- -t) n d hn = .finite t n d hn
    rw [neg_neg_sign]
  | .finite .., .infinity t | .zero _, .infinity t =>
    show UnpackedFloat.infinity (- -t) = .infinity t
    rw [neg_neg_sign]
  | .finite .., .zero _ | .infinity _, .finite .. | .infinity _, .zero _ => rfl
  | .notANumber, v => cases v <;> rfl
  | .infinity _, .notANumber | .zero _, .notANumber | .finite .., .notANumber => rfl

lemma neg_mul_unpacked : UnpackedFloat.mul f u.neg v = (UnpackedFloat.mul f u v).neg := by
  match u, v with
  | .finite s m e _, .finite t n d _ =>
    show roundWithAccuracy f (-s * t) _ _ _ = _
    rw [neg_mul_sign, roundWithAccuracy_neg]
    rfl
  | .zero s, .zero t | .zero s, .finite t _ _ _ | .finite s _ _ _, .zero t =>
    exact congrArg UnpackedFloat.zero (neg_mul_sign s t)
  | .infinity s, .infinity t | .infinity s, .finite t _ _ _ | .finite s _ _ _, .infinity t =>
    exact congrArg UnpackedFloat.infinity (neg_mul_sign s t)
  | .zero _, .infinity _ | .infinity _, .zero _ => rfl
  | .notANumber, v => cases v <;> rfl
  | .infinity _, .notANumber | .zero _, .notANumber | .finite .., .notANumber => rfl

lemma mul_comm_unpacked : UnpackedFloat.mul f u v = UnpackedFloat.mul f v u := by
  have hsign : ∀ s t : Sign, s * t = t * s := fun s t => by
    cases s <;> cases t <;> rfl
  match u, v with
  | .finite s m e _, .finite t n d _ =>
    show roundWithAccuracy f (s * t) (m * n) (e + d) _ =
      roundWithAccuracy f (t * s) (n * m) (d + e) _
    rw [hsign, Nat.mul_comm, Int.add_comm]
  | .zero s, .zero t | .zero s, .finite t _ _ _ | .finite s _ _ _, .zero t =>
    exact congrArg UnpackedFloat.zero (hsign s t)
  | .infinity s, .infinity t | .infinity s, .finite t _ _ _ | .finite s _ _ _, .infinity t =>
    exact congrArg UnpackedFloat.infinity (hsign s t)
  | .zero _, .infinity _ | .infinity _, .zero _ => rfl
  | .notANumber, v => cases v <;> rfl
  | .infinity _, .notANumber | .zero _, .notANumber | .finite .., .notANumber => rfl

lemma neg_ofFields (s : Sign) (field fraction : ℕ) :
    (ofFields f s field fraction).neg = ofFields f (-s) field fraction := by
  unfold ofFields
  split_ifs
  · rfl
  · rfl
  · exact neg_ofMantissa ..
  · exact neg_ofMantissa ..

/-- Nor does packing look at the sign. -/
lemma unpack_pack_neg :
    unpack .binary32 (pack .binary32 u.neg) = (unpack .binary32 (pack .binary32 u)).neg := by
  match u with
  | .notANumber => rfl
  | .infinity s =>
    have hinfinity := congrArg UnpackedFloat.neg (unpack_pack_infinity s)
    exact (unpack_pack_infinity (-s)).trans hinfinity.symm
  | .zero s =>
    have hzero := congrArg UnpackedFloat.neg (unpack_pack_zero s)
    exact (unpack_pack_zero (-s)).trans hzero.symm
  | .finite s m e hm =>
    show unpack _ (pack _ (.finite (-s) m e hm)) = _
    rw [pack_finite, pack_finite]
    split_ifs
    · rw [unpack_packedInfinity, unpack_packedInfinity]
      rfl
    · rw [unpack_packComponents, unpack_packComponents, neg_ofFields]
    · rw [unpack_packComponents, unpack_packComponents, neg_ofFields]

end Unpacked

/-! ## Numbers that match -/

variable {x y z x' y' : Float32}

/-- Packing a number that was unpacked gives it back. -/
lemma unpack_pack_unpacked (x : Float32) :
    unpack .binary32 (pack .binary32 (unpacked x)) = unpacked x := by
  cases hu : unpacked x with
  | infinity s => exact unpack_pack_infinity s
  | notANumber => rfl
  | zero s | finite s m e hm =>
    have hfinite : IsFinite x := by
      rw [IsFinite, hu]
      rfl
    rw [← hu]
    exact unpack_pack (by decide) (canonical_unpacked x) hfinite hfinite.abs_val_lt

/-- The same number: the sign of a zero does not count, and a NaN is the same as a NaN. -/
def Matches (x y : Float32) : Prop := x == y ∨ x.isNaN ∧ y.isNaN

instance : DecidableRel Matches := fun x y =>
  inferInstanceAs (Decidable (x == y ∨ x.isNaN ∧ y.isNaN))

example : Matches (-0.0) 0 ∧ Matches (0 / 0) (1 / 0 - 1 / 0) ∧ ¬ Matches (1 / 0) (-1 / 0) := by
  decide +kernel

lemma beq_iff : (x == y) = true ↔
    signless (unpacked x) = signless (unpacked y) ∧ unpacked x ≠ .notANumber := by
  show ((unpacked x).compare (unpacked y) == some .eq) = true ↔ _
  rw [beq_iff_eq, compare_eq_some_eq_iff]

lemma isNaN_iff : x.isNaN = true ↔ unpacked x = .notANumber := by
  show (unpacked x).isNaN = true ↔ _
  cases unpacked x with
  | notANumber => exact iff_of_true rfl rfl
  | _ => exact iff_of_false Bool.false_ne_true nofun

lemma matches_iff : Matches x y ↔ signless (unpacked x) = signless (unpacked y) := by
  rw [Matches, beq_iff, isNaN_iff, isNaN_iff]
  constructor
  · rintro (⟨h, -⟩ | ⟨hx, hy⟩)
    · exact h
    · rw [hx, hy]
  · intro h
    by_cases hx : unpacked x = .notANumber
    · rw [hx] at h
      exact .inr ⟨hx, (eq_of_signless_eq h nofun).symm⟩
    · exact .inl ⟨h, hx⟩

namespace Matches

@[refl]
protected lemma refl (x : Float32) : Matches x x := matches_iff.mpr rfl

@[symm]
protected lemma symm (h : Matches x y) : Matches y x := matches_iff.mpr (matches_iff.mp h).symm

@[trans]
protected lemma trans (h : Matches x y) (h' : Matches y z) : Matches x z :=
  matches_iff.mpr ((matches_iff.mp h).trans (matches_iff.mp h'))

lemma add (hx : Matches x x') (hy : Matches y y') : Matches (x + y) (x' + y') := by
  rw [matches_iff] at hx hy ⊢
  rw [unpacked_add, unpacked_add, signless_unpack_pack, signless_add, hx, hy, ← signless_add,
    ← signless_unpack_pack]

lemma mul (hx : Matches x x') (hy : Matches y y') : Matches (x * y) (x' * y') := by
  rw [matches_iff] at hx hy ⊢
  rw [unpacked_mul, unpacked_mul, signless_unpack_pack, signless_mul, hx, hy, ← signless_mul,
    ← signless_unpack_pack]

lemma sqrt (hx : Matches x x') : Matches x.sqrt x'.sqrt := by
  rw [matches_iff] at hx ⊢
  rw [unpacked_sqrt, unpacked_sqrt, signless_unpack_pack, signless_sqrt, hx, ← signless_sqrt,
    ← signless_unpack_pack]

end Matches

/-- Finite numbers match if they stand for the same real. -/
lemma matches_of_val_eq (hx : IsFinite x) (hy : IsFinite y) (h : val x = val y) : Matches x y := by
  have hcompare := compare_eq_cmp (canonical_unpacked x) (canonical_unpacked y) hx hy
  have hval : value (unpacked x) = value (unpacked y) := h
  rw [hval, cmp_self_eq_eq, compare_eq_some_eq_iff] at hcompare
  exact matches_iff.mpr hcompare.1

lemma Matches.isFinite (h : Matches x y) (hy : IsFinite y) : IsFinite x := by
  have hsignless : ∀ u : UnpackedFloat, u.isFinite = (signless u).isFinite := fun u => by
    cases u <;> rfl
  rw [IsFinite, hsignless] at hy ⊢
  rw [matches_iff.mp h, hy]

lemma Matches.beq (h : Matches x y) (hy : y.isNaN = false) : x == y :=
  h.resolve_right fun hnan => by
    rw [hy] at hnan
    exact Bool.false_ne_true hnan.2

/-- Finite factors may have an infinite product, but no NaN. -/
lemma mul_isNaN_eq_false (hx : IsFinite x) (hy : IsFinite y) : (x * y).isNaN = false := by
  by_cases hlimit : |rounded .binary32 (val x * val y)| < limit .binary32
  · exact (finite_mul hx hy hlimit).1.isNaN_eq_false
  · obtain ⟨s, hs, -⟩ := infinite_of_rounds (Packed.pattern_mul x y)
      (rounds_mul (canonical_unpacked x) (canonical_unpacked y) hx hy) (not_lt.mp hlimit)
    show (unpacked (x * y)).isNaN = false
    rw [hs]
    rfl

/-- A sum that is exact without its sign is not changed by packing. -/
lemma add_matches_of_signless
    (h : signless (.add .binary32 (unpacked x) (unpacked y)) = signless (unpacked z)) :
    Matches (x + y) z := by
  rw [matches_iff, unpacked_add, signless_unpack_pack, h, ← signless_unpack_pack,
    unpack_pack_unpacked]

/-- A zero makes no difference to a sum, also where the other summand is no finite number. -/
lemma add_zero_matches (hy : Matches y 0) : Matches (x + y) x := by
  apply add_matches_of_signless
  rw [signless_add, matches_iff.mp hy]
  cases unpacked x <;> rfl

@[inherit_doc add_zero_matches]
lemma zero_add_matches (hx : Matches x 0) : Matches (x + y) y := by
  apply add_matches_of_signless
  rw [signless_add, matches_iff.mp hx]
  cases unpacked y <;> rfl

/-- A product that the format holds is exact. -/
lemma mul_matches_of_val (hx : IsFinite x) (hy : IsFinite y) (hz : IsFinite z)
    (h : val x * val y = val z) : Matches (x * y) z := by
  have hval : rounded (formatOf Float32) (val x * val y) = val z := by
    rw [h, hz.rounded_val]
  obtain ⟨hfinite, hproduct⟩ := finite_mul hx hy (by rw [hval]; exact hz.abs_val_lt)
  exact matches_of_val_eq hfinite hz (hproduct.trans hval)

lemma mul_one_matches (hx : IsFinite x) : Matches (x * 1) x :=
  mul_matches_of_val hx below_one.1 hx (by rw [val_one, mul_one])

lemma one_mul_matches (hx : IsFinite x) : Matches (1 * x) x :=
  mul_matches_of_val below_one.1 hx hx (by rw [val_one, one_mul])

lemma mul_zero_matches (hx : IsFinite x) : Matches (x * 0) 0 :=
  mul_matches_of_val hx below_zero.1 below_zero.1 (by rw [val_zero, mul_zero])

lemma zero_mul_matches (hx : IsFinite x) : Matches (0 * x) 0 :=
  mul_matches_of_val below_zero.1 hx below_zero.1 (by rw [val_zero, zero_mul])

lemma zero_lt_iff :
    0 < x ↔ (UnpackedFloat.zero .positive).lt (signless (unpacked x)) = true := by
  have h0 : unpacked (0 : Float32) = .zero .positive := rfl
  rw [Packed.lt_iff]
  show (unpacked (0 : Float32)).lt (unpacked x) = true ↔ _
  rw [h0]
  cases unpacked x <;> rfl

namespace Matches

lemma zero_lt (h : Matches x y) : 0 < x ↔ 0 < y := by
  rw [zero_lt_iff, zero_lt_iff, matches_iff.mp h]

/-- A number above zero is no zero, so nothing else matches it. -/
lemma unpacked_eq (h : Matches x y) (hx : 0 < x) : unpacked x = unpacked y := by
  refine eq_of_signless_eq (matches_iff.mp h) fun s hs => ?_
  rw [zero_lt_iff, hs] at hx
  cases hx

lemma div_of_pos (h : Matches y y') (hy : 0 < y) (x : Float32) : Matches (x / y) (x / y') := by
  rw [matches_iff, unpacked_div, unpacked_div, h.unpacked_eq hy]

end Matches

/-! ## Opposite numbers -/

/-- The one number is the other one with the opposite sign; a NaN is opposite to a NaN. -/
def Opposed (x y : Float32) : Prop := signless (unpacked x) = signless (unpacked y).neg

namespace Opposed

/-- Two changes of the sign. -/
protected lemma trans (h : Opposed x y) (h' : Opposed y z) : Matches x z := by
  rw [matches_iff, h, signless_neg, h', ← signless_neg, neg_neg_unpacked]

lemma mul (hx : Opposed x x') (hy : Matches y y') : Opposed (x * y) (x' * y') := by
  rw [matches_iff] at hy
  rw [Opposed] at hx ⊢
  rw [unpacked_mul, unpacked_mul, ← unpack_pack_neg, ← neg_mul_unpacked, signless_unpack_pack,
    signless_mul, hx, hy, ← signless_mul, ← signless_unpack_pack]

/-- Opposite numbers have the same square. -/
lemma mul_self (h : Opposed x x') : Matches (x * x) (x' * x') := by
  have hleft : Opposed (x * x) (x' * x) := h.mul (.refl x)
  have hright : Opposed (x' * x) (x' * x') := by
    rw [Opposed, unpacked_mul, mul_comm_unpacked, ← unpacked_mul]
    exact h.mul (.refl x')
  exact hleft.trans hright

lemma sub_matches_add (hx : Matches x x') (hy : Opposed y y') : Matches (x - y) (x' + y') := by
  rw [matches_iff] at hx ⊢
  rw [Opposed] at hy
  rw [unpacked_sub, unpacked_add, ← sub_neg_unpacked, signless_unpack_pack, signless_sub, hx, hy,
    ← signless_sub, ← signless_unpack_pack]

end Opposed

lemma opposed_sub (x y : Float32) : Opposed (x - y) (y - x) := by
  rw [Opposed, unpacked_sub, unpacked_sub, ← unpack_pack_neg, signless_unpack_pack,
    signless_sub_swap, ← signless_unpack_pack]

end Arbor.Number
