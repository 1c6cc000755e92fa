import Arbor.Lindenmayer.Symbol
import Mathlib.Combinatorics.Enumerative.DyckWord

/-!
# Brackets of a word

A word opens branches with `[` and closes them with `]`; a `]` that finds none open is a stray one
and changes nothing.  `Word.depth` is the counter that says how many are open, and `Word.places`
lists where in a word something happens, by the symbol and the word before it.

`Word.IsBalanced` is the usual notion, that the brackets form a Dyck word.  The counter decides it:
a word is balanced if no `]` is a stray one and no branch is open at the end (`isBalanced_iff`).
-/

namespace Arbor.Word

/-! ## The counter -/

/-- The number of open branches after one more symbol. -/
def nest (d : Nat) : Symbol → Nat
  | .push => d + 1
  | .pop => d - 1
  | _ => d

/-- The number of branches that a word leaves open. -/
def depth (w : Word) : Nat := w.foldl nest 0

/-- The number of branches that are open before the symbol at a place. -/
def depthAt (w : Word) (i : Nat) : Nat := depth (w.take i)

lemma nest_of_ne {x : Symbol} (ho : x ≠ .push) (hc : x ≠ .pop) (d : Nat) : nest d x = d := by
  cases x with
  | push => exact absurd rfl ho
  | pop => exact absurd rfl hc
  | _ => rfl

@[simp] lemma depth_nil : depth [] = 0 := rfl

@[simp] lemma depth_concat (w : Word) (x : Symbol) : depth (w ++ [x]) = nest (depth w) x := by
  simp [depth]

@[simp] lemma depthAt_zero (w : Word) : depthAt w 0 = 0 := by simp [depthAt]

lemma depthAt_append {w : Word} {i : Nat} (hi : i ≤ w.length) (v : Word) :
    depthAt (w ++ v) i = depthAt w i := by
  rw [depthAt, depthAt, List.take_append_of_le_length hi]

lemma take_succ_of_getElem? {w : Word} {i : Nat} {x : Symbol} (h : w[i]? = some x) :
    w.take (i + 1) = w.take i ++ [x] := by
  rw [List.take_add_one, h, Option.toList_some]

lemma depthAt_succ {w : Word} {i : Nat} {x : Symbol} (h : w[i]? = some x) :
    depthAt w (i + 1) = nest (depthAt w i) x := by
  rw [depthAt, take_succ_of_getElem? h, depth_concat, ← depthAt]

/-! ## Places -/

/-- The places of the symbols that satisfy a condition together with the word before them, in
increasing order. -/
def places (P : Word → Symbol → Bool) (w : Word) : List Nat :=
  (List.range w.length).filter fun i => w[i]?.any (P (w.take i))

/-- The places of the drawn moves. -/
def draws : Word → List Nat := places fun _ x => decide (x = .forward)

/-- The places of the closing brackets that close a branch. -/
def closings : Word → List Nat := places fun u x => decide (x = .pop) && decide (0 < depth u)

/-- The places of the closing brackets that find no branch open. -/
def strays : Word → List Nat := places fun u x => decide (x = .pop) && decide (depth u = 0)

lemma mem_places {P : Word → Symbol → Bool} {w : Word} {i : Nat} :
    i ∈ places P w ↔ ∃ x, w[i]? = some x ∧ P (w.take i) x = true := by
  simp only [places, List.mem_filter, List.mem_range, Option.any_eq_true]
  constructor
  · rintro ⟨-, h⟩
    exact h
  · rintro ⟨x, hx, hP⟩
    exact ⟨(List.getElem?_eq_some_iff.mp hx).1, x, hx, hP⟩

lemma lt_length_of_mem_places {P : Word → Symbol → Bool} {w : Word} {i : Nat}
    (h : i ∈ places P w) : i < w.length := by
  obtain ⟨x, hx, -⟩ := mem_places.mp h
  exact (List.getElem?_eq_some_iff.mp hx).1

lemma length_places_le (P : Word → Symbol → Bool) (w : Word) : (places P w).length ≤ w.length := by
  have h := List.length_filter_le (fun i => w[i]?.any (P (w.take i))) (List.range w.length)
  rwa [List.length_range] at h

@[simp] lemma places_nil (P : Word → Symbol → Bool) : places P [] = [] := rfl

/-- A symbol at the end adds its own place or none, and keeps the places before it. -/
lemma places_concat (P : Word → Symbol → Bool) (w : Word) (x : Symbol) :
    places P (w ++ [x]) = places P w ++ if P w x then [w.length] else [] := by
  have hbefore : ∀ i ∈ List.range w.length,
      ((w ++ [x])[i]?).any (P ((w ++ [x]).take i)) = w[i]?.any (P (w.take i)) := by
    intro i hi
    have hi := List.mem_range.mp hi
    rw [List.getElem?_append_left hi, List.take_append_of_le_length hi.le]
  rw [places, List.length_append, List.length_singleton, List.range_succ, List.filter_append,
    List.filter_congr hbefore, ← places]
  congr 1
  simp [List.filter_singleton]

lemma places_prefix (P : Word → Symbol → Bool) (u v : Word) : places P u <+: places P (u ++ v) := by
  induction v using List.reverseRecOn with
  | nil => simp
  | append_singleton v x ih =>
    rw [← List.append_assoc, places_concat]
    exact ih.trans (List.prefix_append ..)

/-- What is noted at each place of a longer word: the old notes, and one at the new symbol. -/
lemma map_places_concat {β : Type*} (P : Word → Symbol → Bool) (f : Word → Nat → β) (w : Word)
    (x : Symbol) (hf : ∀ i < w.length, f (w ++ [x]) i = f w i) :
    (places P (w ++ [x])).map (f (w ++ [x])) =
      (places P w).map (f w) ++ if P w x then [f (w ++ [x]) w.length] else [] := by
  rw [places_concat, List.map_append]
  congr 1
  · exact List.map_congr_left fun i hi => hf i (lt_length_of_mem_places hi)
  · split <;> rfl

/-- Of the places in a word, those in its beginning come first. -/
lemma getElem?_places {P : Word → Symbol → Bool} {w : Word} {i : Nat} (h : i ∈ places P w) :
    (places P w)[(places P (w.take i)).length]? = some i := by
  obtain ⟨x, hx, hP⟩ := mem_places.mp h
  have hlen : (w.take i).length = i := by
    have := lt_length_of_mem_places h
    rw [List.length_take]
    omega
  have hnext : places P (w.take (i + 1)) = places P (w.take i) ++ [i] := by
    rw [take_succ_of_getElem? hx, places_concat, if_pos hP, hlen]
  obtain ⟨rest, hrest⟩ := places_prefix P (w.take (i + 1)) (w.drop (i + 1))
  rw [List.take_append_drop] at hrest
  rw [← hrest, hnext]
  simp

/-- The counter and the strays account for all brackets. -/
lemma depth_add_count_pop (w : Word) :
    depth w + w.count .pop = w.count .push + (strays w).length := by
  induction w using List.reverseRecOn with
  | nil => rfl
  | append_singleton w x ih =>
    simp only [strays] at ih ⊢
    rw [depth_concat, places_concat, List.count_append, List.count_append, List.length_append]
    cases x with
    | push => simp [nest]; omega
    | pop =>
      rcases Nat.eq_zero_or_pos (depth w) with h | h
      · simp [nest, h] at ih ⊢; omega
      · simp [nest, h.ne']; omega
    | _ => simpa [nest] using ih

/-! ## Balanced words -/

/-- The step of a path that a symbol is, if it is a bracket. -/
def bracket? : Symbol → Option DyckStep
  | .push => some .U
  | .pop => some .D
  | _ => none

/-- The brackets of a word. -/
def brackets (w : Word) : List DyckStep := w.filterMap bracket?

/-- The brackets form a Dyck word. -/
def IsBalanced (w : Word) : Prop := ∃ d : DyckWord, d.toList = brackets w

lemma count_brackets (w : Word) :
    (brackets w).count .U = w.count .push ∧ (brackets w).count .D = w.count .pop := by
  induction w with
  | nil => exact ⟨rfl, rfl⟩
  | cons x w ih =>
    obtain ⟨hU, hD⟩ := ih
    rw [brackets] at hU hD ⊢
    cases x <;> simp [List.filterMap_cons, bracket?, hU, hD]

lemma isBalanced_iff_count (w : Word) : IsBalanced w ↔
    w.count .push = w.count .pop ∧ ∀ i, (w.take i).count .pop ≤ (w.take i).count .push := by
  constructor
  · rintro ⟨d, hd⟩
    constructor
    · rw [← (count_brackets w).1, ← (count_brackets w).2, ← hd]
      exact d.count_U_eq_count_D
    · intro i
      have hpre : brackets (w.take i) <+: d.toList := hd ▸ (List.take_prefix i w).filterMap _
      rw [← (count_brackets _).1, ← (count_brackets _).2, List.prefix_iff_eq_take.mp hpre]
      exact d.count_D_le_count_U _
  · rintro ⟨heq, hle⟩
    refine ⟨⟨brackets w, ?_, fun i => ?_⟩, rfl⟩
    · rw [(count_brackets w).1, (count_brackets w).2, heq]
    · obtain ⟨u, hu, hbr⟩ := List.prefix_filterMap_iff.mp (List.take_prefix i (brackets w))
      rw [hbr, ← brackets, (count_brackets u).1, (count_brackets u).2,
        List.prefix_iff_eq_take.mp hu]
      exact hle _

lemma strays_eq_nil_of_count (w : Word)
    (h : ∀ i, (w.take i).count .pop ≤ (w.take i).count .push) : strays w = [] := by
  induction w using List.reverseRecOn with
  | nil => rfl
  | append_singleton w x ih =>
    have hw : strays w = [] := ih fun i => by
      have hi := h (min i w.length)
      rwa [List.take_append_of_le_length (Nat.min_le_right ..), ← List.take_eq_take_min] at hi
    have hall := h (w ++ [x]).length
    have hcount := depth_add_count_pop (w ++ [x])
    rw [List.take_length] at hall
    rw [strays, places_concat, ← strays, hw] at hcount ⊢
    by_cases hx : x = .pop ∧ depth w = 0
    · -- A first stray has one `[` less before it than there are `]`.
      simp [hx, nest] at hall hcount
      omega
    · simp [hx]

/-- A word is balanced exactly if it has no strays and leaves no branch open. -/
lemma isBalanced_iff (w : Word) : IsBalanced w ↔ strays w = [] ∧ depth w = 0 := by
  have hcount := depth_add_count_pop w
  rw [isBalanced_iff_count]
  constructor
  · rintro ⟨heq, hle⟩
    have hs := strays_eq_nil_of_count w hle
    rw [hs, List.length_nil] at hcount
    exact ⟨hs, by omega⟩
  · rintro ⟨hs, hd⟩
    rw [hs, hd, List.length_nil] at hcount
    refine ⟨by omega, fun i => ?_⟩
    have hpre : strays (w.take i) <+: strays (w.take i ++ w.drop i) := places_prefix ..
    rw [List.take_append_drop, hs, List.prefix_nil] at hpre
    have := depth_add_count_pop (w.take i)
    rw [hpre, List.length_nil] at this
    omega

instance : DecidablePred IsBalanced := fun w => decidable_of_iff _ (isBalanced_iff w).symm

example : IsBalanced (ofText "F[+F[F]]-[X]") ∧ ¬ IsBalanced (ofText "F]F[") := by decide

end Arbor.Word
