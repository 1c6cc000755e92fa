import Arbor.Proofs.Lindenmayer.Generations
import Arbor.Proofs.Lindenmayer.LivePath
import Arbor.Proofs.Lindenmayer.Rules

/-!
# Balanced grammars

A grammar keeps balance if its replacements are balanced and the brackets themselves are not
replaced (`Productions.KeepsBalance`).  One pass of such a grammar over a word without strays gives
a word without strays that leaves as many branches open: the brackets of the word stay, and each
replacement closes what it opens.  So every generation of a balanced word is balanced
(`KeepsBalance.isBalanced_generation`), and with it every derived word.
-/

namespace Arbor

namespace Word

/-! ## Words one after the other -/

lemma depth_append (u : Word) {v : Word} (h : strays v = []) :
    depth (u ++ v) = depth u + depth v := by
  rw [← foldl_nest v h, depth, depth, List.foldl_append]

/-- The second word finds at least as many branches open as it would alone. -/
lemma strays_append_of_strays_eq_nil (u : Word) {v : Word} (hv : strays v = []) :
    strays (u ++ v) = strays u := by
  induction v using List.reverseRecOn with
  | nil => rw [List.append_nil]
  | append_singleton v x ih =>
    rw [strays, places_concat, ← strays, List.append_eq_nil_iff] at hv
    obtain ⟨hv, hx⟩ := hv
    rw [← List.append_assoc, strays, places_concat, ← strays, ih hv]
    by_cases hpop : x = .pop
    · have hd : depth v ≠ 0 := by simpa [hpop] using hx
      have hopen : depth (u ++ v) ≠ 0 := by
        rw [depth_append u hv]
        omega
      simp [hopen]
    · simp [hpop]

lemma strays_append {u v : Word} (hu : strays u = []) (hv : strays v = []) :
    strays (u ++ v) = [] := by
  rw [strays_append_of_strays_eq_nil u hv, hu]

/-- Every closing bracket closes a branch or is a stray one. -/
lemma length_closings_add_strays (w : Word) :
    (closings w).length + (strays w).length = w.count .pop := by
  induction w using List.reverseRecOn with
  | nil => rfl
  | append_singleton w x ih =>
    simp only [closings, strays] at ih ⊢
    rw [places_concat, places_concat, List.length_append, List.length_append, List.count_append]
    by_cases hx : x = .pop
    · rcases Nat.eq_zero_or_pos (depth w) with hd | hd
      · simp [hx, hd]
        omega
      · simp [hx, hd, hd.ne']
        omega
    · simpa [hx] using ih

/-- In a balanced word every bracket belongs to a branch that is closed. -/
lemma IsBalanced.length_closings {w : Word} (h : IsBalanced w) :
    (closings w).length = w.count .push ∧ (closings w).length = w.count .pop := by
  obtain ⟨hs, -⟩ := (isBalanced_iff w).mp h
  have hcount := length_closings_add_strays w
  have hsame := ((isBalanced_iff_count w).mp h).1
  rw [hs, List.length_nil] at hcount
  omega

end Word

open Word

namespace Productions

/-! ## Grammars that keep balance -/

/-- Every replacement is balanced, and no bracket is replaced. -/
def KeepsBalance (p : Productions) : Prop :=
  ∀ rule ∈ p.rules, IsBalanced rule.2 ∧ rule.1 ≠ .push ∧ rule.1 ≠ .pop

instance : DecidablePred KeepsBalance := fun p =>
  inferInstanceAs (Decidable (∀ rule ∈ p.rules, _))

variable {p : Productions}

/-- A symbol becomes a word that is balanced, or stays. -/
lemma KeepsBalance.image_cases (h : p.KeepsBalance) (s : Symbol) :
    (IsBalanced (p.image s) ∧ s ≠ .push ∧ s ≠ .pop) ∨ p.image s = [s] := by
  cases hs : p.get? s with
  | none => exact .inr (by simp [image, hs])
  | some w =>
    have hrule := h (s, w) (get?_eq_some_iff.mp hs)
    exact .inl (by simpa [image, hs] using hrule)

/-- One pass over a word without strays keeps the number of open branches. -/
lemma KeepsBalance.nextWord (h : p.KeepsBalance) {w : Word} (hw : strays w = []) :
    strays (p.nextWord w) = [] ∧ depth (p.nextWord w) = depth w := by
  induction w using List.reverseRecOn with
  | nil => exact ⟨rfl, rfl⟩
  | append_singleton w x ih =>
    have hlast := hw
    rw [strays, places_concat, ← strays, List.append_eq_nil_iff] at hlast
    obtain ⟨hstrays, hdepth⟩ := ih hlast.1
    have himage : p.nextWord [x] = p.image x := by simp [Productions.nextWord]
    rw [nextWord_append, himage, depth_concat]
    obtain ⟨hbalanced, hpush, hpop⟩ | hself := h.image_cases x
    · obtain ⟨himage, hzero⟩ := (isBalanced_iff _).mp hbalanced
      refine ⟨strays_append hstrays himage, ?_⟩
      rw [depth_append _ himage, hdepth, hzero, nest_of_ne hpush hpop, Nat.add_zero]
    · -- A symbol that stays finds as many branches open as before the pass.
      rw [hself, depth_concat, hdepth]
      refine ⟨?_, rfl⟩
      rw [strays, places_concat, ← strays, hstrays, hdepth, List.nil_append]
      simpa using hlast.2

/-- **Every generation of a balanced word is balanced.** -/
theorem KeepsBalance.isBalanced_generation (h : p.KeepsBalance) {start : Word}
    (hstart : IsBalanced start) (k : ℕ) : IsBalanced (p.generation start k) := by
  induction k with
  | zero => exact hstart
  | succ k ih =>
    obtain ⟨hs, hd⟩ := (isBalanced_iff _).mp ih
    obtain ⟨hs', hd'⟩ := h.nextWord hs
    rw [generation_succ]
    exact (isBalanced_iff _).mpr ⟨hs', hd'.trans hd⟩

lemma KeepsBalance.isBalanced_of_derive (h : p.KeepsBalance) {start w : Word} {n : ℕ}
    {limits : Limits} (hstart : IsBalanced start) (hw : p.derive start n limits = .ok w) :
    IsBalanced w := by
  obtain ⟨-, -, rfl⟩ := (derive_eq_ok_iff p start n limits w).mp hw
  exact h.isBalanced_generation hstart n

end Productions

end Arbor
