import Arbor.Proofs.Chance.Draws
import Arbor.Proofs.Turtle.Admissible
import Arbor.Proofs.Turtle.Causality
import Arbor.Proofs.Turtle.Sources

/-!
# Ranges that a walk draws from

Which ranges the turtle draws from, and in which order, follows from the word and the settings:
each symbol has its ranges (`Settings.ranges`), and only a closing bracket asks whether a branch is
open.  No drawn number has a say in it, so the source after a word is the one before it, taken
through the ranges of the symbols (`source_run`).

A seeded source takes one word of its keystream for a range that is not empty and none for an empty
one (`skip_seeded`).  Hence the place in the keystream is known at every symbol, and settings that
differ in the size of one variation draw the others alike (`draws_of_walk`).
-/

namespace Arbor

open Number Chance

/-! ## Sources that only know ranges -/

namespace Source

/-- The ends of a range. -/
abbrev Range := Float32 × Float32

/-- The range of a deviation of at most `v` either way. -/
def about (v : Float32) : Range := (-v, v)

/-- Whether a range holds its lower end at most. -/
def isEmpty (r : Range) : Bool := decide (r.2 ≤ r.1)

variable {σ : Type} [Source σ]

/-- A source after a draw. -/
def skip (x : σ) (r : Range) : σ := (uniform x r.1 r.2).2

/-- The source makes every draw of draws from ranges, as a source does unless it says otherwise. -/
structure DrawsRanges (σ : Type) [Source σ] : Prop where
  rotationJitter : ∀ (x : σ) (max : Float32), rotationJitter x max = uniform x (-max) max
  lengthFactor : ∀ (x : σ) (jitter : Float32),
    lengthFactor x jitter = Prod.map (1 + ·) id (uniform x (-jitter) jitter)
  branchSpread : ∀ (x : σ) (spread : Float32), branchSpread x spread = uniform x (-spread) spread
  branchRoll : ∀ x : σ, branchRoll x = uniform x 0 tau
  leafOffset : ∀ (x : σ) (jitter : Float32), leafOffset x jitter =
    (⟨(uniform x (-jitter) jitter).1, (uniform (skip x (about jitter)) (-jitter) jitter).1,
      (uniform (skip (skip x (about jitter)) (about jitter)) (-jitter) jitter).1⟩,
      skip (skip (skip x (about jitter)) (about jitter)) (about jitter))

lemma drawsRanges_seeded : DrawsRanges Seeded :=
  ⟨fun _ _ => rfl, fun _ _ => rfl, fun _ _ => rfl, fun _ => rfl, fun _ _ => rfl⟩

lemma drawsRanges_recorded : DrawsRanges (Recorded σ) :=
  ⟨fun _ _ => rfl, fun _ _ => rfl, fun _ _ => rfl, fun _ => rfl, fun _ _ => rfl⟩

end Source

/-- A record of draws grows by the ranges that it is taken through. -/
lemma Recorded.ranges_foldl_skip {σ : Type} [Source σ] (rs : List Source.Range) (r : Recorded σ) :
    (rs.foldl Source.skip r).ranges.toList = r.ranges.toList ++ rs := by
  induction rs generalizing r with
  | nil => simp
  | cons range rs ih =>
    have hskip : (Source.skip r range).ranges.toList = r.ranges.toList ++ [range] :=
      Array.toList_push ..
    rw [List.foldl_cons, ih, hskip, List.append_assoc, List.singleton_append]

namespace Turtle

open Source Word

/-! ## The ranges of symbols -/

/-- The ranges that a symbol draws from while `depth` branches are open. -/
def Settings.ranges (s : Settings) (depth : Nat) : Symbol → List Range
  | .forward | .skip => [about s.lengthJitter]
  | .turnLeft | .turnRight =>
    [about s.branchSpread, about s.rotationJitter, about s.rotationJitter]
  | .pitchDown | .pitchUp | .rollLeft | .rollRight | .turnAround => [about s.rotationJitter]
  | .push => [about s.branchSpread, about s.rotationJitter] ++
    if s.branchRoll then [(0, tau), about s.rotationJitter] else []
  | .pop => if 0 < depth then List.replicate 3 (about s.leafJitter) else []
  | .letter _ => []

/-- The ranges of the symbols of a word, one symbol after the other. -/
def Settings.rangesFrom (s : Settings) : Nat → Word → List Range
  | _, [] => []
  | depth, x :: w => s.ranges depth x ++ rangesFrom s (nest depth x) w

namespace Walker

variable {σ : Type} [Source σ] (s : Settings)

section

variable (hσ : DrawsRanges σ) (w : Walker σ)

include hσ

lemma source_rotate (angle : Float32) (axis : Vec3) :
    (rotate s w angle axis).source = skip w.source (about s.rotationJitter) := by
  rw [rotate, hσ.rotationJitter]
  rfl

lemma source_spread : (spread s w).source =
    skip (skip w.source (about s.branchSpread)) (about s.rotationJitter) := by
  rw [spread, hσ.branchSpread, source_rotate s hσ]
  rfl

lemma source_move (draw : Bool) :
    (move s w draw).source = skip w.source (about s.lengthJitter) := by
  cases draw <;>
  · rw [move, hσ.lengthFactor]
    rfl

lemma source_roll : (roll s w).source =
    (if s.branchRoll then [(0, tau), about s.rotationJitter] else []).foldl skip w.source := by
  rw [roll]
  split_ifs
  · rw [hσ.branchRoll, source_rotate s hσ]
    rfl
  · rfl

end

/-- A symbol takes the source through its ranges. -/
lemma source_act (hσ : DrawsRanges σ) (w : Walker σ) (x : Symbol) :
    (act s w x).source = (s.ranges w.stack.size x).foldl skip w.source := by
  cases x with
  | forward => exact source_move s hσ w true
  | skip => exact source_move s hσ w false
  | turnLeft | turnRight =>
    rw [act, yaw, source_rotate s hσ, source_spread s hσ]
    rfl
  | push =>
    rw [act, openBranch, source_roll s hσ, source_spread s hσ, Settings.ranges, List.foldl_append]
    rfl
  | pop =>
    rw [act, Settings.ranges]
    rcases Nat.eq_zero_or_pos w.stack.size with h | h
    · rw [closeBranch_of_empty s w h, if_neg (by omega)]
      rfl
    · obtain ⟨pose, hpose⟩ := exists_back? h
      rw [closeBranch_of_back? s w hpose, hσ.leafOffset, if_pos h]
      rfl
  | letter c => rfl
  | _ => exact source_rotate s hσ w _ _

/-- A word takes the source through the ranges of its symbols. -/
theorem source_run (hσ : DrawsRanges σ) (w : Walker σ) (word : Word) :
    (run s w word).source = (s.rangesFrom w.stack.size word).foldl skip w.source := by
  induction word generalizing w with
  | nil => rfl
  | cons x word ih =>
    have hsize : (step s w x).stack.size = nest w.stack.size x := act_stack_size s w x
    have hsource : (step s w x).source = (s.ranges w.stack.size x).foldl skip w.source :=
      source_act s hσ w x
    rw [Settings.rangesFrom, List.foldl_append, ← hsource, ← hsize, ← ih]
    rfl

end Walker

/-- The ranges that a walk over a word draws from. -/
def Settings.rangesOf (s : Settings) (w : Word) : List Range := s.rangesFrom 0 w

lemma source_after {σ : Type} [Source σ] (s : Settings) (hσ : DrawsRanges σ) (source : σ)
    (w : Word) : (after s source w).source = (s.rangesOf w).foldl skip source :=
  Walker.source_run s hσ (Walker.start s source) w

/-- A source that only knows ranges does not notice that its draws are recorded. -/
lemma answers_recorded {σ : Type} [Source σ] (hσ : DrawsRanges σ) (s : Settings) :
    Answers s (Recorded.source : Recorded σ → σ) where
  rotationJitter x := hσ.rotationJitter x.source _
  lengthFactor x := hσ.lengthFactor x.source _
  branchSpread x := hσ.branchSpread x.source _
  branchRoll x := hσ.branchRoll x.source
  leafOffset x := hσ.leafOffset x.source _

/-! ## Words of the keystream -/

/-- A range of moderate numbers whose ends are in order. -/
def Moderate (r : Range) : Prop := Below 3 r.1 ∧ Below 3 r.2 ∧ val r.1 ≤ val r.2

/-- A seeded source after a draw: the next word is due, unless the range was empty. -/
def next (x : Seeded) (r : Range) : Seeded := if isEmpty r then x else ⟨x.stream.advance⟩

lemma exists_draw {r : Range} (h : Moderate r) (x : Seeded) :
    ∃ v, x.draw? r.1 r.2 = some (v, next x r) := by
  obtain ⟨hlo, hhi, hle⟩ := h
  obtain ⟨v, y, hdraw, -⟩ := x.exists_draw hlo hhi (by norm_num) hle
  refine ⟨v, hdraw.trans ?_⟩
  rw [Seeded.draw?] at hdraw
  by_cases hempty : r.2 ≤ r.1
  · rw [if_pos hempty] at hdraw
    cases hdraw
    simp [next, isEmpty, hempty]
  · rw [if_neg hempty] at hdraw
    split_ifs at hdraw
    cases hdraw
    simp [next, isEmpty, hempty]

lemma skip_seeded {r : Range} (h : Moderate r) (x : Seeded) : skip x r = next x r := by
  obtain ⟨v, hdraw⟩ := exists_draw h x
  rw [skip, Seeded.uniform_eq_of_draw? hdraw]

lemma foldl_skip_seeded {rs : List Range} (h : ∀ r ∈ rs, Moderate r) (x : Seeded) :
    rs.foldl skip x = rs.foldl next x := by
  induction rs generalizing x with
  | nil => rfl
  | cons r rs ih =>
    rw [List.foldl_cons, List.foldl_cons, skip_seeded (h r List.mem_cons_self),
      ih fun r hr => h r (List.mem_cons_of_mem _ hr)]

/-- One word is taken for each range that is not empty. -/
lemma stream_foldl_next (rs : List Range) (x : Seeded) : (rs.foldl next x).stream =
    Keystream.advance^[rs.countP fun r => !isEmpty r] x.stream := by
  induction rs generalizing x with
  | nil => rfl
  | cons r rs ih =>
    rw [List.foldl_cons, ih, next]
    cases hr : isEmpty r with
    | true => simp [hr]
    | false => simp [hr]

section Admissible

variable {s : Settings}

lemma moderate_about {v : Float32} {k : ℕ} (h : Within 0 (2 ^ k) v) (hk : k ≤ 3) :
    Moderate (about v) :=
  ⟨(below_of_within h).neg.mono hk, (below_of_within h).mono hk, val_neg_le h⟩

lemma moderate_turn : Moderate (0, tau) :=
  ⟨below_zero.mono (by norm_num), below_tau, val_zero.trans_le val_tau_nonneg⟩

lemma Settings.Admissible.moderate (h : s.Admissible) {depth : ℕ} {x : Symbol} {r : Range}
    (hr : r ∈ s.ranges depth x) : Moderate r := by
  have hrotation := moderate_about h.rotationJitter (by norm_num)
  have hlength := moderate_about h.lengthJitter (by norm_num)
  have hspread := moderate_about h.branchSpread (by norm_num)
  have hleaf := moderate_about h.leafJitter (by norm_num)
  cases x with
  | letter c => cases hr
  | pop =>
    rw [Settings.ranges] at hr
    split_ifs at hr
    · rw [List.eq_of_mem_replicate hr]
      exact hleaf
    · cases hr
  | push =>
    simp only [Settings.ranges, List.mem_append, List.mem_cons, List.not_mem_nil, or_false] at hr
    rcases hr with (rfl | rfl) | hr
    · exact hspread
    · exact hrotation
    · split_ifs at hr
      · rcases List.mem_pair.mp hr with rfl | rfl
        · exact moderate_turn
        · exact hrotation
      · cases hr
  | _ =>
    simp only [Settings.ranges, List.mem_cons, List.not_mem_nil, or_false] at hr
    grind

lemma Settings.Admissible.moderate_rangesOf (h : s.Admissible) (w : Word) :
    ∀ r ∈ s.rangesOf w, Moderate r := by
  rw [rangesOf]
  generalize (0 : ℕ) = depth
  induction w generalizing depth with
  | nil => simp [rangesFrom]
  | cons x w ih =>
    intro r hr
    rcases List.mem_append.mp hr with hr | hr
    · exact h.moderate hr
    · exact ih _ r hr

end Admissible

/-! ## Another size of the leaf offsets -/

/-- The settings with another size of the leaf offsets. -/
def Settings.withLeafJitter (s : Settings) (jitter : Float32) : Settings :=
  { s with leafJitter := jitter }

/-- A range about zero up to a positive number is not empty. -/
lemma isEmpty_about {v : Float32} {k : ℕ} (h : Within 0 (2 ^ k) v) (hpos : 0 < v) :
    isEmpty (about v) = false := by
  obtain ⟨hfinite, hval⟩ := finite_neg h.1
  rw [lt_iff_val_lt below_zero.1 h.1, val_zero] at hpos
  rw [isEmpty, about, decide_eq_false_iff_not, le_iff_val_le h.1 hfinite, hval]
  linarith

section LeafJitter

variable {s : Settings} {jitter : Float32} {w w' : Walker Seeded}

/-- Two sizes of the leaf offsets, both positive, take the same words at a symbol. -/
lemma Settings.Admissible.goAlike_act (h : s.Admissible)
    (h' : (s.withLeafJitter jitter).Admissible) (hpos : 0 < s.leafJitter) (hpos' : 0 < jitter)
    (halike : Walker.GoAlike w w') (x : Symbol) :
    Walker.GoAlike (w.act s x) (w'.act (s.withLeafJitter jitter) x) := by
  by_cases hx : x = .pop
  · subst hx
    have hnext : ∀ y : Seeded, skip y (about jitter) = skip y (about s.leafJitter) := by
      intro y
      have hjitter : Within 0 (2 ^ 2) jitter := h'.leafJitter
      rw [skip_seeded (moderate_about hjitter (by norm_num)),
        skip_seeded (moderate_about h.leafJitter (by norm_num)), next, next,
        isEmpty_about hjitter hpos', isEmpty_about h.leafJitter hpos]
    have hback : (w'.act (s.withLeafJitter jitter) .pop).pose = (w'.act s .pop).pose ∧
        (w'.act (s.withLeafJitter jitter) .pop).stack = (w'.act s .pop).stack := by
      simp only [Walker.act, Walker.closeBranch]
      cases w'.stack.back? <;> exact ⟨rfl, rfl⟩
    have hsource : (w'.act (s.withLeafJitter jitter) .pop).source = (w'.act s .pop).source := by
      rw [Walker.source_act _ drawsRanges_seeded, Walker.source_act _ drawsRanges_seeded]
      simp only [Settings.ranges]
      split_ifs
      · simp only [List.replicate, List.foldl_cons, Settings.withLeafJitter, hnext]
      · rfl
    have hsame := halike.act (s := s) .pop
    exact ⟨hback.1.trans hsame.pose, hback.2.trans hsame.stack, hsource.trans hsame.source⟩
  · have hact : w'.act (s.withLeafJitter jitter) x = w'.act s x := by
      cases x <;> first | rfl | exact absurd rfl hx
    rw [hact]
    exact halike.act x

/-- The turtle is in the same place with the same source after every word. -/
lemma Settings.Admissible.goAlike_after (h : s.Admissible)
    (h' : (s.withLeafJitter jitter).Admissible) (hpos : 0 < s.leafJitter) (hpos' : 0 < jitter)
    (x : Seeded) (w : Word) :
    Walker.GoAlike (after s x w) (after (s.withLeafJitter jitter) x w) := by
  induction w using List.reverseRecOn with
  | nil =>
    -- By definition too, but only after many steps of floating point arithmetic.
    have hinitial : Pose.initial (s.withLeafJitter jitter) = Pose.initial s := by
      rw [Pose.initial, Pose.initial, Settings.withLeafJitter]
    rw [after_nil, after_nil]
    exact ⟨hinitial, rfl, rfl⟩
  | append_singleton w symbol ih =>
    have hact := h.goAlike_act h' hpos hpos' ih symbol
    rw [after_concat, after_concat]
    exact ⟨hact.pose, hact.stack, hact.source⟩

end LeafJitter

/-- A leaf without its random offset. -/
def Leaf.still (l : Leaf) : Vec3 × Frame × Nat := (l.position, l.orientation, l.depth)

/-! ## The draws of a walk -/

/-- **The draws of a walk.**  A walk draws from the ranges of its symbols, one symbol after the
other, whatever its source answers: the record of its draws holds just these ranges, and a source
that only knows ranges leaves the same trace without the record.  A seeded source has an answer for
each of them, for which it takes one word of its keystream if the range is not empty and none if it
is.  So settings that differ in the size of the leaf offsets, both positive, leave the same record
but for these offsets, and the same source. -/
theorem draws_of_walk (s : Settings) (h : s.check = .ok ()) (w : Word) :
    (∀ {σ : Type} [Source σ] (source : σ), ∃ t out,
      walk s w (Recorded.start source) = .ok (t, out) ∧ out.ranges.toList = s.rangesOf w ∧
      (DrawsRanges σ → walk s w source = .ok (t, out.source))) ∧
    (∀ r ∈ s.rangesOf w, ∀ x : Seeded, ∃ v,
      x.draw? r.1 r.2 = some (v, if isEmpty r then x else ⟨x.stream.advance⟩)) ∧
    (∀ seed, ∃ t out, walk s w (Seeded.ofSeed seed) = .ok (t, out) ∧ out.stream =
      Keystream.advance^[(s.rangesOf w).countP fun r => !isEmpty r] (.ofSeed seed)) ∧
    ∀ jitter, (s.withLeafJitter jitter).check = .ok () → 0 < s.leafJitter → 0 < jitter →
      ∀ seed, ∃ t t' out, walk s w (Seeded.ofSeed seed) = .ok (t, out) ∧
        walk (s.withLeafJitter jitter) w (Seeded.ofSeed seed) = .ok (t', out) ∧
        t'.segments = t.segments ∧ t'.leaves.map Leaf.still = t.leaves.map Leaf.still ∧
        t'.warnings = t.warnings := by
  have hadmissible := Settings.admissible_of_check h
  refine ⟨fun {σ} _ source => ?_, fun r hr x => ?_, fun seed => ?_,
    fun jitter h' hpos hpos' seed => ?_⟩
  · refine ⟨_, _, walk_eq s _ h w, ?_, fun hσ => ?_⟩
    · rw [source_after s drawsRanges_recorded, Recorded.ranges_foldl_skip]
      rfl
    · have hmap := walk_map (answers_recorded hσ s) w (Recorded.start source)
      exact hmap.trans (by rw [walk_eq s _ h w]; rfl)
  · exact exists_draw (hadmissible.moderate_rangesOf w r hr) x
  · refine ⟨_, _, walk_eq s _ h w, ?_⟩
    rw [source_after s drawsRanges_seeded, foldl_skip_seeded (hadmissible.moderate_rangesOf w),
      stream_foldl_next]
    rfl
  · have hadmissible' := Settings.admissible_of_check h'
    have halike := hadmissible.goAlike_after hadmissible' hpos hpos' (Seeded.ofSeed seed)
    have hwalk := walk_eq _ (Seeded.ofSeed seed) h' w
    rw [(halike w).source] at hwalk
    refine ⟨_, _, _, walk_eq s _ h w, hwalk, ?_, ?_, ?_⟩
    · rw [after_trace, after_trace]
      refine List.map_congr_left fun i _ => ?_
      simp only [segmentAt, (halike _).pose]
    · rw [after_trace, after_trace, List.map_map, List.map_map]
      refine List.map_congr_left fun i _ => ?_
      simp only [Function.comp, leafAt, Leaf.still, (halike _).pose]
    · rw [after_trace, after_trace]

/-- A word with a turn, a branch that rolls, a stray bracket and two sizes of leaf offsets. -/
theorem draws_of_walk_rolled : Settings.usual.check = .ok () ∧
    (Settings.usual.withLeafJitter 2).check = .ok () ∧
    (∃ t out, walk .usual (ofText "F]+[X]") (Recorded.start (Seeded.ofSeed 7)) = .ok (t, out) ∧
      out.ranges.toList = [about 0.1, about (radians 30), about (radians 5), about (radians 5),
        about (radians 30), about (radians 5), (0, tau), about (radians 5),
        about 0.1, about 0.1, about 0.1] ∧
      walk .usual (ofText "F]+[X]") (Seeded.ofSeed 7) = .ok (t, out.source)) ∧
    (∃ t out, walk .usual (ofText "F]+[X]") (Seeded.ofSeed 7) = .ok (t, out) ∧
      out.stream = Keystream.advance^[11] (.ofSeed 7)) ∧
    ∃ t t' out, walk .usual (ofText "F]+[X]") (Seeded.ofSeed 7) = .ok (t, out) ∧
      walk (Settings.usual.withLeafJitter 2) (ofText "F]+[X]") (Seeded.ofSeed 7) = .ok (t', out) ∧
      t'.segments = t.segments ∧ t'.leaves.map Leaf.still = t.leaves.map Leaf.still := by
  have hcheck' : (Settings.usual.withLeafJitter 2).check = .ok () := by decide +kernel
  obtain ⟨hrecorded, -, hstream, hjitter⟩ :=
    draws_of_walk .usual Settings.check_usual (ofText "F]+[X]")
  obtain ⟨t, out, hwalk, hranges, hplain⟩ := hrecorded (Seeded.ofSeed 7)
  obtain ⟨u, last, hu, hlast⟩ := hstream 7
  obtain ⟨v, v', end', hv, hv', hsegments, hleaves, -⟩ :=
    hjitter 2 hcheck' (by decide +kernel) (by decide +kernel) 7
  have hcount : (Settings.usual.rangesOf (ofText "F]+[X]")).countP (fun r => !isEmpty r) = 11 := by
    decide +kernel
  rw [hcount] at hlast
  exact ⟨Settings.check_usual, hcheck', ⟨t, out, hwalk, hranges.trans (by decide +kernel),
    hplain drawsRanges_seeded⟩, ⟨u, last, hu, hlast⟩, v, v', end', hv, hv', hsegments, hleaves⟩

end Turtle

end Arbor
