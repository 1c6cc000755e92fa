import Arbor.Proofs.Lindenmayer.Balance
import Mathlib

/-!
# Height of derived words

The height of a word is the largest number of branches that are open in it at once.  A pass of a
grammar that keeps balance leaves every symbol at the number of open branches where it stood, and
lays each replacement on the number where its symbol stood.  So a pass adds the largest height of a
replacement at most (`KeepsBalance.height_nextWord`), and `k` passes add `k` times as much
(`KeepsBalance.height_generation`), however much longer the word gets.

Without balance nothing but the length bounds the height (`depthAt_le_length`): a rule may open one
branch with each symbol.
-/

namespace Arbor

namespace Word

/-- The largest number of branches that are open at once. -/
def height (w : Word) : ℕ := (Finset.range (w.length + 1)).sup (depthAt w)

variable {v w : Word} {d : ℕ}

lemma depthAt_length (w : Word) : depthAt w w.length = depth w := by
  rw [depthAt, List.take_length]

lemma depthAt_le_height (w : Word) (i : ℕ) : depthAt w i ≤ height w := by
  rcases Nat.le_total i w.length with hi | hi
  · exact Finset.le_sup (Finset.mem_range.mpr (Nat.lt_succ_of_le hi))
  · have hend : depthAt w i = depthAt w w.length := by
      rw [depthAt_length, depthAt, List.take_of_length_le hi]
    rw [hend]
    exact Finset.le_sup (Finset.self_mem_range_succ w.length)

lemma height_le_iff : height w ≤ d ↔ ∀ i, depthAt w i ≤ d := by
  constructor
  · intro h i
    exact (depthAt_le_height w i).trans h
  · intro h
    exact Finset.sup_le fun i _ => h i

/-- A branch that is open has been opened by a symbol of its own. -/
lemma depth_le_length (w : Word) : depth w ≤ w.length := by
  induction w using List.reverseRecOn with
  | nil => exact le_rfl
  | append_singleton w x ih =>
    rw [depth_concat, List.length_append, List.length_singleton]
    cases x <;> simp only [nest] <;> omega

lemma depthAt_le_length (w : Word) (i : ℕ) : depthAt w i ≤ w.length :=
  (depth_le_length _).trans (List.length_take_le' i w)

lemma height_concat (w : Word) (x : Symbol) :
    height (w ++ [x]) = max (height w) (depth (w ++ [x])) := by
  apply le_antisymm
  · rw [height_le_iff]
    intro i
    rcases Nat.lt_or_ge w.length i with hi | hi
    · have hend : (w ++ [x]).length ≤ i := by
        rw [List.length_append]
        exact hi
      rw [depthAt, List.take_of_length_le hend]
      exact le_max_right _ _
    · rw [depthAt_append hi]
      exact le_max_of_le_left (depthAt_le_height w i)
  · apply max_le
    · rw [height_le_iff]
      intro i
      rcases Nat.le_total i w.length with hi | hi
      · rw [← depthAt_append hi [x]]
        exact depthAt_le_height _ i
      · rw [depthAt, List.take_of_length_le hi, ← depthAt_length, ← depthAt_append le_rfl [x]]
        exact depthAt_le_height _ _
    · rw [← depthAt_length]
      exact depthAt_le_height _ _

/-- A word without strays stands on the branches that are open before it. -/
lemma height_append_le (u : Word) (hv : strays v = []) :
    height (u ++ v) ≤ max (height u) (depth u + height v) := by
  rw [height_le_iff]
  intro i
  rcases Nat.le_total i u.length with hi | hi
  · rw [depthAt_append hi]
    exact le_max_of_le_left (depthAt_le_height u i)
  · obtain ⟨m, rfl⟩ := Nat.exists_eq_add_of_le hi
    rw [depthAt, List.take_length_add_append, depth_append u (strays_take_eq_nil hv m), ← depthAt]
    exact le_max_of_le_right (Nat.add_le_add_left (depthAt_le_height v m) _)

lemma strays_eq_nil_of_concat {x : Symbol} (h : strays (w ++ [x]) = []) : strays w = [] := by
  have hprefix : strays w <+: strays (w ++ [x]) := places_prefix ..
  rwa [h, List.prefix_nil] at hprefix

end Word

open Word

namespace Productions

/-- The largest height of a replacement. -/
def height (p : Productions) : ℕ := p.rules.toFinset.sup fun rule => rule.2.height

variable {p : Productions} {start w : Word}

lemma height_le_of_mem {rule : Symbol × Word} (h : rule ∈ p.rules) : rule.2.height ≤ p.height :=
  Finset.le_sup (f := fun rule : Symbol × Word => rule.2.height) (List.mem_toFinset.mpr h)

/-- A symbol becomes a word without strays that is no higher than the replacements, or stays. -/
lemma KeepsBalance.image_low (h : p.KeepsBalance) (s : Symbol) :
    (strays (p.image s) = [] ∧ (p.image s).height ≤ p.height) ∨ p.image s = [s] := by
  cases hs : p.get? s with
  | none => exact .inr (by simp [image, hs])
  | some w =>
    have hrule := get?_eq_some_iff.mp hs
    have hbalanced := ((isBalanced_iff w).mp (h _ hrule).1).1
    exact .inl (by simpa [image, hs] using ⟨hbalanced, height_le_of_mem hrule⟩)

/-- **One pass adds the height of a replacement at most.** -/
theorem KeepsBalance.height_nextWord (h : p.KeepsBalance) (hw : strays w = []) :
    (p.nextWord w).height ≤ w.height + p.height := by
  induction w using List.reverseRecOn with
  | nil => exact Nat.zero_le _
  | append_singleton w x ih =>
    have hbefore := strays_eq_nil_of_concat hw
    have hdepth : depth (p.nextWord w) = depth w := (h.nextWord hbefore).2
    have hstands : depth w ≤ Word.height w := depthAt_length w ▸ depthAt_le_height w _
    have hlonger : Word.height w ≤ Word.height (w ++ [x]) := height_concat w x ▸ le_max_left _ _
    have hsplit : p.nextWord (w ++ [x]) = p.nextWord w ++ p.image x := by
      rw [nextWord_append]
      simp
    have hpass := ih hbefore
    rw [hsplit]
    obtain ⟨hstrays, hlow⟩ | hself := h.image_low x
    · -- The replacement is laid on the branches that are open where its symbol stood.
      have happend := height_append_le (p.nextWord w) hstrays
      rw [hdepth] at happend
      omega
    · -- A symbol that stays finds as many branches open as before the pass.
      have hend : depth (p.nextWord w ++ [x]) ≤ Word.height (w ++ [x]) := by
        rw [depth_concat, hdepth, ← depth_concat, height_concat]
        exact le_max_right _ _
      rw [hself, height_concat]
      omega

/-- **The height of a generation.** -/
theorem KeepsBalance.height_generation (h : p.KeepsBalance) (hstart : IsBalanced start) (k : ℕ) :
    (p.generation start k).height ≤ start.height + k * p.height := by
  induction k with
  | zero => simp
  | succ k ih =>
    have hstrays := ((isBalanced_iff _).mp (h.isBalanced_generation hstart k)).1
    have hpass := h.height_nextWord hstrays
    rw [generation_succ, Nat.add_mul, Nat.one_mul]
    omega

lemma KeepsBalance.depthAt_le_of_derive (h : p.KeepsBalance) (hstart : IsBalanced start) {n : ℕ}
    {limits : Limits} (hw : p.derive start n limits = .ok w) (i : ℕ) :
    depthAt w i ≤ start.height + n * p.height := by
  obtain ⟨-, -, rfl⟩ := (derive_eq_ok_iff ..).mp hw
  exact (depthAt_le_height _ i).trans (h.height_generation hstart n)

end Productions

end Arbor
