import Arbor.Proofs.Lindenmayer.Generations
import Arbor.Proofs.Lindenmayer.Rules
import Arbor.Proofs.Turtle.Skeleton
import Mathlib.Data.Matrix.Mul
import Mathlib.Data.Fintype.EquivFin

/-!
# Growth of words

How often a symbol comes up in a derived word.  `Productions.growth` is the matrix that says how
often each symbol comes up in the image of each other one.  A pass multiplies the counts of a word
by it, so `n` passes multiply them by its `n`-th power (`counts_generation`), and what the counts
of the result are is decided by those of the axiom.

If every symbol that can come up has a replacement of the same length, the length of a word grows
by that factor in each pass (`length_generation_of_uniform`).
-/

namespace Arbor

/-! ## Finitely many symbols -/

namespace Symbol

lemma ofChar_toChar {s : Symbol} (h : s.isLetter = false) : ofChar s.toChar = s := by
  cases s with
  | letter c => cases h
  | _ => rfl

/-- A symbol is told by its character and whether it is a letter. -/
lemma toChar_isLetter_injective : Function.Injective fun s : Symbol => (s.toChar, s.isLetter) := by
  intro s t h
  obtain ⟨hchar, hletter⟩ := Prod.mk.inj h
  by_cases hs : s.isLetter = true
  · cases s with
    | letter c =>
      cases t with
      | letter d => exact congrArg letter hchar
      | _ => cases hletter
    | _ => cases hs
  · have ht : t.isLetter = false := by rw [← hletter]; exact Bool.eq_false_of_not_eq_true hs
    rw [← ofChar_toChar (Bool.eq_false_of_not_eq_true hs), hchar, ofChar_toChar ht]

instance : Finite Symbol := by
  have hcode : Function.Injective fun c : Char => c.val.toFin := by
    intro c d h
    exact Char.ext (UInt32.toFin_inj.mp h)
  exact Finite.of_injective (fun s : Symbol => (s.toChar.val.toFin, s.isLetter))
    ((hcode.prodMap Function.injective_id).comp toChar_isLetter_injective)

noncomputable instance : Fintype Symbol := Fintype.ofFinite Symbol

end Symbol

/-- How often each symbol comes up in a word. -/
def Word.counts (w : Word) : Symbol → ℕ := fun s => w.count s

namespace Productions

variable (p : Productions)

/-! ## Counting symbols -/

/-- How often the second symbol comes up in what the first one becomes in a pass. -/
def growth (p : Productions) : Matrix Symbol Symbol ℕ := Matrix.of fun t c =>
  match p.get? t with
  | some replacement => replacement.count c
  | none => if t = c then 1 else 0

lemma growth_apply (t c : Symbol) : p.growth t c = (p.image t).count c := by
  rw [growth, Matrix.of_apply, image]
  cases p.get? t with
  | some replacement => rfl
  | none => simp [List.count_singleton]

lemma counts_nextWord (w : Word) :
    (p.nextWord w).counts = Matrix.vecMul w.counts p.growth := by
  funext c
  have hsum : (p.nextWord w).count c = (w.map fun t => p.growth t c).sum := by
    rw [nextWord, List.count_flatMap]
    congr 1
    refine List.map_congr_left fun t _ => ?_
    exact (growth_apply p t c).symm
  rw [Word.counts, hsum, Finset.sum_list_map_count]
  refine Finset.sum_subset (Finset.subset_univ _) ?_
  intro t _ ht
  rw [List.count_eq_zero_of_not_mem (by simpa using ht), zero_smul]

/-- **Passes multiply the counts by the growth matrix.** -/
theorem counts_generation (start : Word) (k : ℕ) :
    (p.generation start k).counts = Matrix.vecMul start.counts (p.growth ^ k) := by
  induction k with
  | zero => rw [generation_zero, pow_zero, Matrix.vecMul_one]
  | succ k ih => rw [generation_succ, counts_nextWord, ih, Matrix.vecMul_vecMul, ← pow_succ]

lemma count_generation (start : Word) (k : ℕ) (c : Symbol) :
    (p.generation start k).count c = ∑ t, start.count t * (p.growth ^ k) t c :=
  congrFun (counts_generation p start k) c

/-- The order of the symbols of the axiom decides about the order of the result alone. -/
lemma generation_perm {start start' : Word} (h : start'.Perm start) (k : ℕ) :
    (p.generation start' k).Perm (p.generation start k) := by
  induction k with
  | zero => exact h
  | succ k ih =>
    rw [generation_succ, generation_succ]
    exact ih.flatMap_right _

lemma derive_perm {start start' w : Word} {n : ℕ} {limits : Limits} (h : start'.Perm start)
    (hw : p.derive start n limits = .ok w) :
    ∃ w', p.derive start' n limits = .ok w' ∧ w'.Perm w := by
  obtain ⟨hn, hall, rfl⟩ := (derive_eq_ok_iff ..).mp hw
  refine ⟨_, derive_of_le p start' hn ?_, generation_perm p h n⟩
  intro k hk
  rw [(generation_perm p h k).length_eq]
  exact hall k hk

/-! ## Replacements of one length -/

/-- The symbol has a replacement of length `l`. -/
def Spawns (p : Productions) (l : ℕ) (s : Symbol) : Prop :=
  ∃ replacement, p.get? s = some replacement ∧ replacement.length = l

/-- Every symbol of the axiom and of the replacements has a replacement of length `l`. -/
structure Uniform (p : Productions) (l : ℕ) (start : Word) : Prop where
  start : ∀ s ∈ start, p.Spawns l s
  rules : ∀ rule ∈ p.rules, ∀ s ∈ rule.2, p.Spawns l s

variable {p} {l : ℕ} {start : Word}

lemma Spawns.length_image {s : Symbol} (h : p.Spawns l s) : (p.image s).length = l := by
  obtain ⟨replacement, hget, hlength⟩ := h
  rw [image, hget, Option.getD_some, hlength]

lemma Uniform.nextWord (h : p.Uniform l start) : p.Uniform l (p.nextWord start) := by
  refine ⟨?_, h.rules⟩
  intro t ht
  obtain ⟨s, hs, himage⟩ := List.mem_flatMap.mp ht
  obtain ⟨replacement, hget, -⟩ := h.start s hs
  rw [image, hget, Option.getD_some] at himage
  exact h.rules _ (get?_eq_some_iff.mp hget) t himage

lemma Uniform.generation (h : p.Uniform l start) (k : ℕ) : p.Uniform l (p.generation start k) := by
  induction k with
  | zero => exact h
  | succ k ih =>
    rw [generation_succ]
    exact ih.nextWord

lemma length_nextWord_of_uniform (h : p.Uniform l start) :
    (p.nextWord start).length = start.length * l := by
  have hlengths : start.map (fun s => (p.image s).length) = start.map fun _ => l :=
    List.map_congr_left fun s hs => (h.start s hs).length_image
  rw [Productions.nextWord, List.length_flatMap, hlengths, List.map_const', List.sum_replicate,
    smul_eq_mul]

lemma length_generation_of_uniform (h : p.Uniform l start) (k : ℕ) :
    (p.generation start k).length = start.length * l ^ k := by
  induction k with
  | zero => rw [generation_zero, pow_zero, mul_one]
  | succ k ih =>
    rw [generation_succ, length_nextWord_of_uniform (h.generation k), ih, pow_succ, mul_assoc]

/-- **The growth of derived words.**  The counts of a derived word are those of the axiom times the
`n`-th power of the growth matrix; in particular so are the numbers of segments and of brackets,
and another axiom with the same counts derives a word with the same counts.  If every symbol that
comes up has a replacement of length `l`, the word is longer than the axiom by the factor `l ^ n`,
and it is derived exactly if none of the lengths on the way is above the limit. -/
theorem growth_of_derive (p : Productions) (start : Word) (n : ℕ) (limits : Limits) :
    (∀ w, p.derive start n limits = .ok w →
      (∀ c, w.count c = ∑ t, start.count t * (p.growth ^ n) t c) ∧
      (∀ (σ : Type) [Source σ] (s : Turtle.Settings) (source : σ), s.check = .ok () →
        ∃ trace out, Turtle.walk s w source = .ok (trace, out) ∧
          trace.segments.length = ∑ t, start.count t * (p.growth ^ n) t .forward) ∧
      ∀ start' : Word, (∀ t, start'.count t = start.count t) →
        ∃ w', p.derive start' n limits = .ok w' ∧ ∀ c, w'.count c = w.count c) ∧
    ∀ l, p.Uniform l start →
      (∀ w, p.derive start n limits = .ok w → w.length = start.length * l ^ n) ∧
      ((∃ w, p.derive start n limits = .ok w) ↔ n ≤ limits.maxPasses ∧
        ∀ k ≤ n, start.length * l ^ k ≤ min limits.maxSymbols 16000000) := by
  constructor
  · intro w hw
    obtain ⟨-, -, rfl⟩ := (derive_eq_ok_iff ..).mp hw
    refine ⟨count_generation p start n, ?_, ?_⟩
    · intro σ _ s source hs
      refine ⟨_, _, Turtle.walk_eq s source hs _, ?_⟩
      rw [← count_generation, Turtle.Walker.trace, Turtle.after_segments, List.length_map,
        Turtle.length_draws]
    · intro start' hcounts
      obtain ⟨w', hw', hperm⟩ := derive_perm p (List.perm_iff_count.mpr hcounts) hw
      exact ⟨w', hw', hperm.count_eq⟩
  · intro l h
    constructor
    · intro w hw
      obtain ⟨-, -, rfl⟩ := (derive_eq_ok_iff ..).mp hw
      exact length_generation_of_uniform h n
    · simp only [derive_eq_ok_iff, length_generation_of_uniform h, exists_and_left, exists_eq,
        and_true]
      rfl

end Productions

end Arbor
