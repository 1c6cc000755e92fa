import Arbor.Proofs.Lindenmayer.Brackets
import Arbor.Turtle.Walk

/-!
# Steps of the turtle

What each symbol does to the turtle, said once.  Most symbols only turn it (`Walker.Turned`): they
change the orientation and the state of the source and nothing else.  The others are a move, which
adds a segment if it is drawn, and the two brackets.  From this the parts of a step are read off:
the number of open branches follows the counter of the word, and each record grows by at most one
entry, which the states before and after the step determine.
-/

namespace Arbor.Turtle

/-- The usual settings pass their own check. -/
lemma Settings.check_usual : Settings.usual.check = .ok () := by decide +kernel

/-! ## Poses -/

namespace Pose

variable (s : Settings) (p : Pose)

/-- Bending changes the orientation alone. -/
lemma exists_bend_eq : ∃ orientation, p.bend s = { p with orientation } := by
  unfold bend
  split_ifs
  · exact ⟨p.orientation, rfl⟩
  · dsimp only
    split_ifs
    · exact ⟨p.orientation, rfl⟩
    · exact ⟨_, rfl⟩

@[simp] lemma bend_position : (p.bend s).position = p.position := by
  obtain ⟨orientation, h⟩ := exists_bend_eq s p
  rw [h]

@[simp] lemma bend_length : (p.bend s).length = p.length := by
  obtain ⟨orientation, h⟩ := exists_bend_eq s p
  rw [h]

@[simp] lemma bend_radius : (p.bend s).radius = p.radius := by
  obtain ⟨orientation, h⟩ := exists_bend_eq s p
  rw [h]

end Pose

namespace Walker

variable {σ : Type}

/-! ## Turns -/

/-- From `w` to `w'` nothing changes but the orientation and the state of the source. -/
structure Turned (w w' : Walker σ) : Prop where
  position : w'.pose.position = w.pose.position
  length : w'.pose.length = w.pose.length
  radius : w'.pose.radius = w.pose.radius
  stack : w'.stack = w.stack
  index : w'.index = w.index
  segments : w'.segments = w.segments
  leaves : w'.leaves = w.leaves
  warnings : w'.warnings = w.warnings

lemma Turned.refl (w : Walker σ) : Turned w w := ⟨rfl, rfl, rfl, rfl, rfl, rfl, rfl, rfl⟩

lemma Turned.trans {w₁ w₂ w₃ : Walker σ} (h₁ : Turned w₁ w₂) (h₂ : Turned w₂ w₃) :
    Turned w₁ w₃ where
  position := h₂.position.trans h₁.position
  length := h₂.length.trans h₁.length
  radius := h₂.radius.trans h₁.radius
  stack := h₂.stack.trans h₁.stack
  index := h₂.index.trans h₁.index
  segments := h₂.segments.trans h₁.segments
  leaves := h₂.leaves.trans h₁.leaves
  warnings := h₂.warnings.trans h₁.warnings

/-- A draw alone is a turn by nothing. -/
lemma turned_source (w : Walker σ) (source : σ) : Turned w { w with source := source } :=
  ⟨rfl, rfl, rfl, rfl, rfl, rfl, rfl, rfl⟩

variable [Source σ] (s : Settings) (w : Walker σ)

lemma rotate_turned (angle : Float32) (axis : Vec3) : Turned w (rotate s w angle axis) where
  position := Pose.bend_position ..
  length := Pose.bend_length ..
  radius := Pose.bend_radius ..
  stack := rfl
  index := rfl
  segments := rfl
  leaves := rfl
  warnings := rfl

lemma spread_turned : Turned w (spread s w) :=
  (turned_source w _).trans (rotate_turned s _ _ _)

lemma yaw_turned (angle : Float32) : Turned w (yaw s w angle) :=
  (spread_turned s w).trans (rotate_turned s _ _ _)

lemma roll_turned : Turned w (roll s w) := by
  unfold roll
  split_ifs
  · exact (turned_source w _).trans (rotate_turned s _ _ _)
  · exact .refl w

/-! ## Brackets -/

/-- At the foot of a branch the pose is kept and the turtle is thinner; then it turns. -/
lemma openBranch_turned :
    Turned { w with stack := w.stack.push w.pose, pose := w.pose.thin s } (openBranch s w) :=
  (spread_turned s _).trans (roll_turned s _)

lemma closeBranch_of_empty (h : w.stack.size = 0) :
    closeBranch s w = { w with warnings := w.warnings.push (.unmatchedPop w.index) } := by
  have hback : w.stack.back? = none := by simp [Array.back?, h]
  rw [closeBranch, hback]

/-- The turtle is back in the pose that was kept last. -/
lemma closeBranch_of_back? {pose : Pose} (h : w.stack.back? = some pose) :
    closeBranch s w =
      { w with
        pose := pose
        stack := w.stack.pop
        source := (Source.leafOffset w.source s.leafJitter).2
        leaves := w.leaves.push ⟨pose.position, pose.orientation,
          (Source.leafOffset w.source s.leafJitter).1, w.stack.pop.size⟩ } := by
  rw [closeBranch, h]

lemma exists_back? {stack : Array Pose} (h : 0 < stack.size) :
    ∃ pose, stack.back? = some pose :=
  ⟨stack[stack.size - 1], by simp [Array.back?, h]⟩

/-- What holds of the pose and of all kept ones does so behind a closing bracket. -/
lemma forall_pose_closeBranch {P : Pose → Prop} (hpose : P w.pose) (hstack : ∀ p ∈ w.stack, P p) :
    P (closeBranch s w).pose ∧ ∀ p ∈ (closeBranch s w).stack, P p := by
  rcases Nat.eq_zero_or_pos w.stack.size with hsize | hsize
  · rw [closeBranch_of_empty s w hsize]
    exact ⟨hpose, hstack⟩
  · obtain ⟨pose, hback⟩ := exists_back? hsize
    rw [closeBranch_of_back? s w hback]
    refine ⟨hstack pose (Array.mem_of_back? hback), fun p hp => hstack p ?_⟩
    rw [Array.mem_def, Array.toList_pop] at hp
    exact Array.mem_def.mpr (List.mem_of_mem_dropLast hp)

/-! ## The parts of a step -/

/-- A symbol that neither moves nor is a bracket turns the turtle at most. -/
lemma act_cases (x : Symbol) : x = .forward ∨ x = .skip ∨ x = .push ∨ x = .pop ∨
    (x ≠ .forward ∧ x ≠ .skip ∧ x ≠ .push ∧ x ≠ .pop) ∧ Turned w (act s w x) := by
  cases x with
  | forward => simp
  | skip => simp
  | push => simp
  | pop => simp
  | turnLeft => simpa [act] using yaw_turned s w _
  | turnRight => simpa [act] using yaw_turned s w _
  | letter c => simpa [act] using Turned.refl w
  | _ => simpa [act] using rotate_turned s w _ _

lemma act_index (x : Symbol) : (act s w x).index = w.index := by
  obtain rfl | rfl | rfl | rfl | ⟨-, h⟩ := act_cases s w x
  · rfl
  · rfl
  · exact (openBranch_turned s w).index
  · rcases Nat.eq_zero_or_pos w.stack.size with h | h
    · rw [act, closeBranch_of_empty s w h]
    · obtain ⟨pose, hpose⟩ := exists_back? h
      rw [act, closeBranch_of_back? s w hpose]
  · exact h.index

/-- Only the brackets touch the kept poses; taking one from none leaves none. -/
lemma act_stack (x : Symbol) : (act s w x).stack =
    if x = .push then w.stack.push w.pose else if x = .pop then w.stack.pop else w.stack := by
  obtain rfl | rfl | rfl | rfl | ⟨⟨-, -, ho, hc⟩, h⟩ := act_cases s w x
  · rfl
  · rfl
  · exact (openBranch_turned s w).stack
  · rcases Nat.eq_zero_or_pos w.stack.size with h | h
    · simp [act, closeBranch_of_empty s w h, Array.eq_empty_of_size_eq_zero h]
    · obtain ⟨pose, hpose⟩ := exists_back? h
      simp [act, closeBranch_of_back? s w hpose]
  · rw [h.stack, if_neg ho, if_neg hc]

/-- The number of kept poses follows the counter of open branches. -/
lemma act_stack_size (x : Symbol) : (act s w x).stack.size = Word.nest w.stack.size x := by
  rw [act_stack]
  split_ifs with ho hc
  · rw [ho, Array.size_push, Word.nest]
  · rw [hc, Array.size_pop, Word.nest]
  · rw [Word.nest_of_ne ho hc]

/-- Only a drawn move adds a segment: from the place before it to the place after it. -/
lemma act_segments (x : Symbol) : (act s w x).segments.toList = w.segments.toList ++
    if x = .forward then [⟨w.pose.position, (act s w x).pose.position, w.pose.radius,
      (act s w x).pose.radius, w.stack.size⟩] else [] := by
  obtain rfl | rfl | rfl | rfl | ⟨⟨hf, -, -, -⟩, h⟩ := act_cases s w x
  · simp [act, move]
  · simp [act, move]
  · simp [act, (openBranch_turned s w).segments]
  · rcases Nat.eq_zero_or_pos w.stack.size with h | h
    · simp [act, closeBranch_of_empty s w h]
    · obtain ⟨pose, hpose⟩ := exists_back? h
      simp [act, closeBranch_of_back? s w hpose]
  · simp [h.segments, hf]

/-- Only a closing bracket that closes a branch adds a leaf: in the pose that it brings back. -/
lemma act_leaves (x : Symbol) : (act s w x).leaves.toList = w.leaves.toList ++
    if x = .pop ∧ 0 < w.stack.size then [⟨(act s w x).pose.position, (act s w x).pose.orientation,
      (Source.leafOffset w.source s.leafJitter).1, (act s w x).stack.size⟩] else [] := by
  obtain rfl | rfl | rfl | rfl | ⟨⟨-, -, -, hc⟩, h⟩ := act_cases s w x
  · simp [act, move]
  · simp [act, move]
  · simp [act, (openBranch_turned s w).leaves]
  · rcases Nat.eq_zero_or_pos w.stack.size with h | h
    · simp [act, closeBranch_of_empty s w h, h]
    · obtain ⟨pose, hpose⟩ := exists_back? h
      simp [act, closeBranch_of_back? s w hpose, h]
  · simp [h.leaves, hc]

/-- Only a closing bracket that finds no branch open adds a warning. -/
lemma act_warnings (x : Symbol) : (act s w x).warnings.toList = w.warnings.toList ++
    if x = .pop ∧ w.stack.size = 0 then [.unmatchedPop w.index] else [] := by
  obtain rfl | rfl | rfl | rfl | ⟨⟨-, -, -, hc⟩, h⟩ := act_cases s w x
  · simp [act, move]
  · simp [act, move]
  · simp [act, (openBranch_turned s w).warnings]
  · rcases Nat.eq_zero_or_pos w.stack.size with h | h
    · simp [act, closeBranch_of_empty s w h, h]
    · obtain ⟨pose, hpose⟩ := exists_back? h
      simp [act, closeBranch_of_back? s w hpose, Nat.ne_of_gt h]
  · simp [h.warnings, hc]

end Walker

/-! ## After a word -/

variable {σ : Type} [Source σ] (s : Settings) (source : σ)

/-- The turtle after a word, from the origin. -/
def after (word : Word) : Walker σ := (Walker.start s source).run s word

@[simp] lemma after_nil : after s source [] = Walker.start s source := rfl

@[simp] lemma after_concat (w : Word) (x : Symbol) :
    after s source (w ++ [x]) = (after s source w).step s x := by
  simp [after, Walker.run]

lemma after_take_succ {w : Word} {i : Nat} {x : Symbol} (h : w[i]? = some x) :
    after s source (w.take (i + 1)) = (after s source (w.take i)).step s x := by
  rw [Word.take_succ_of_getElem? h, after_concat]

@[simp] lemma after_index (w : Word) : (after s source w).index = w.length := by
  induction w using List.reverseRecOn with
  | nil => rfl
  | append_singleton w x ih => simp [Walker.step, Walker.act_index, ih]

@[simp] lemma after_stack_size (w : Word) : (after s source w).stack.size = Word.depth w := by
  induction w using List.reverseRecOn with
  | nil => rfl
  | append_singleton w x ih => simp [Walker.step, Walker.act_stack_size, ih]

/-- The walk is what the turtle has recorded after the word, if the settings pass the check. -/
lemma walk_eq (h : s.check = .ok ()) (w : Word) :
    walk s w source = .ok ((after s source w).trace, (after s source w).source) := by
  rw [walk, h]
  rfl

end Arbor.Turtle
