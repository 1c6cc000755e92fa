import Arbor.Chance.Seeded
import Arbor.Proofs.Turtle.Record

/-!
# What a walk depends on

How the turtle goes on is decided by its pose, the kept poses and its source, and by nothing that it
has recorded (`GoAlike.act`).  So a walk is causal: what it records up to a place stays, whatever
follows there.  A letter and a stray bracket are transparent: the turtle after either goes on as
before, without a draw, and only the warnings tell of the bracket.

A word may therefore be rid of its letters (`Word.commands`) or of its stray brackets
(`Word.matched`) without any change to what is drawn (`walk_is_causal`).
-/

namespace Arbor

/-! ## Words without letters or strays -/

namespace Word

/-- The symbols that the turtle does not pass over. -/
def commands (w : Word) : Word := w.filter fun x => !x.isLetter

/-- The symbols that are no stray brackets. -/
def matched (w : Word) : Word :=
  (List.range w.length).filterMap fun i => if i ∈ strays w then none else w[i]?

/-- The number of letters before a place. -/
def lettersBefore (w : Word) (i : Nat) : Nat := (w.take i).countP Symbol.isLetter

lemma commands_concat (w : Word) (x : Symbol) :
    commands (w ++ [x]) = commands w ++ if x.isLetter then [] else [x] := by
  cases hx : x.isLetter <;> simp [commands, List.filter_append, hx]

lemma length_commands (w : Word) : (commands w).length = w.length - w.countP Symbol.isLetter := by
  have hsplit := w.length_eq_countP_add_countP Symbol.isLetter
  have hlength : (commands w).length = w.countP fun x => decide ¬ x.isLetter = true := by
    rw [commands, ← List.countP_eq_length_filter]
    exact List.countP_congr fun x _ => by simp
  omega

lemma nest_of_isLetter {x : Symbol} (h : x.isLetter = true) (d : Nat) : nest d x = d := by
  cases x <;> simp_all [Symbol.isLetter, nest]

lemma depth_commands (w : Word) : depth (commands w) = depth w := by
  induction w using List.reverseRecOn with
  | nil => rfl
  | append_singleton w x ih =>
    rw [commands_concat, depth_concat]
    cases hx : x.isLetter with
    | true => simp [ih, nest_of_isLetter hx]
    | false => simp [ih]

/-- Without the letters a stray bracket is as many places further to the left as there were letters
before it. -/
lemma strays_commands (w : Word) :
    strays (commands w) = (strays w).map fun i => i - lettersBefore w i := by
  induction w using List.reverseRecOn with
  | nil => rfl
  | append_singleton w x ih =>
    have hbefore : ∀ i < w.length, i - lettersBefore (w ++ [x]) i = i - lettersBefore w i := by
      intro i hi
      rw [lettersBefore, lettersBefore, List.take_append_of_le_length hi.le]
    rw [strays, map_places_concat _ (fun w i => i - lettersBefore w i) w x hbefore, ← strays, ← ih,
      commands_concat]
    cases hx : x.isLetter with
    | true =>
      have hpop : x ≠ .pop := by
        rintro rfl
        cases hx
      simp [hpop]
    | false =>
      have hplace : (commands w).length = w.length - lettersBefore (w ++ [x]) w.length := by
        rw [length_commands, lettersBefore, List.take_left]
      rw [if_neg (by simp), strays, places_concat, ← strays, depth_commands, hplace]

lemma matched_concat (w : Word) (x : Symbol) :
    matched (w ++ [x]) = matched w ++ if x = .pop ∧ depth w = 0 then [] else [x] := by
  have hstrays : strays (w ++ [x]) = strays w ++ if x = .pop ∧ depth w =
      0 then [w.length] else [] := by
    rw [strays, places_concat, ← strays]
    simp
  have hbefore : ∀ i ∈ List.range w.length,
      (if i ∈ strays (w ++ [x]) then none else (w ++ [x])[i]?) =
        if i ∈ strays w then none else w[i]? := by
    intro i hi
    have hi := List.mem_range.mp hi
    have hmem : i ∈ strays (w ++ [x]) ↔ i ∈ strays w := by
      rw [hstrays]
      split_ifs <;> simp [hi.ne]
    simp only [List.getElem?_append_left hi, hmem]
  have hnot : w.length ∉ strays w := fun h => lt_irrefl _ (lt_length_of_mem_places h)
  rw [matched, List.length_append, List.length_singleton, List.range_succ, List.filterMap_append,
    List.filterMap_congr hbefore, ← matched, hstrays]
  congr 1
  split_ifs <;> simp [hnot]

lemma depth_matched (w : Word) : depth (matched w) = depth w := by
  induction w using List.reverseRecOn with
  | nil => rfl
  | append_singleton w x ih =>
    rw [matched_concat, depth_concat]
    split_ifs with hx
    · rw [List.append_nil, ih, hx.1, hx.2, nest]
    · rw [depth_concat, ih]

lemma strays_matched (w : Word) : strays (matched w) = [] := by
  induction w using List.reverseRecOn with
  | nil => rfl
  | append_singleton w x ih =>
    rw [matched_concat]
    split_ifs with hx
    · rw [List.append_nil, ih]
    · rw [strays, places_concat, ← strays, ih, depth_matched]
      simpa using hx

end Word

namespace Turtle

open Word

namespace Walker

variable {σ : Type}

/-! ## Going on alike -/

/-- Two turtles that will go on alike: they stand alike, have kept the same poses and will draw the
same numbers.  What they have recorded may differ. -/
structure GoAlike (w w' : Walker σ) : Prop where
  pose : w'.pose = w.pose
  stack : w'.stack = w.stack
  source : w'.source = w.source

/-- Two turtles that go on alike and have drawn the same. -/
structure Alike (w w' : Walker σ) : Prop extends GoAlike w w' where
  segments : w'.segments = w.segments
  leaves : w'.leaves = w.leaves

lemma GoAlike.refl (w : Walker σ) : GoAlike w w := ⟨rfl, rfl, rfl⟩

lemma Alike.refl (w : Walker σ) : Alike w w := ⟨.refl w, rfl, rfl⟩

variable [Source σ] {s : Settings} {w w' : Walker σ}

/-- What a symbol does to the pose, the kept poses and the source is a function of them. -/
lemma GoAlike.act (h : GoAlike w w') (x : Symbol) : GoAlike (act s w x) (act s w' x) := by
  obtain ⟨pose, stack, source, index, segments, leaves, warnings⟩ := w
  obtain ⟨pose', stack', source', index', segments', leaves', warnings'⟩ := w'
  obtain ⟨rfl, rfl, rfl⟩ : pose' = pose ∧ stack' = stack ∧ source' = source :=
    ⟨h.pose, h.stack, h.source⟩
  cases x with
  | push =>
    simp only [Walker.act, openBranch, roll]
    split_ifs <;> exact ⟨rfl, rfl, rfl⟩
  | pop =>
    simp only [Walker.act, closeBranch]
    cases stack'.back? <;> exact ⟨rfl, rfl, rfl⟩
  | _ => exact ⟨rfl, rfl, rfl⟩

lemma GoAlike.step (h : GoAlike w w') (x : Symbol) : GoAlike (step s w x) (step s w' x) :=
  ⟨(h.act x).pose, (h.act x).stack, (h.act x).source⟩

/-- From `w` to `w'` segments and leaves are added to the record. -/
structure Adds (w w' : Walker σ) (segments : List Segment) (leaves : List Leaf) : Prop where
  segments : w'.segments.toList = w.segments.toList ++ segments
  leaves : w'.leaves.toList = w.leaves.toList ++ leaves

omit [Source σ] in
lemma Adds.trans {w₁ w₂ w₃ : Walker σ} {a c : List Segment} {b d : List Leaf}
    (h : Adds w₁ w₂ a b) (h' : Adds w₂ w₃ c d) : Adds w₁ w₃ (a ++ c) (b ++ d) :=
  ⟨by rw [h'.segments, h.segments, List.append_assoc],
    by rw [h'.leaves, h.leaves, List.append_assoc]⟩

/-- Turtles that go on alike add the same to their records at a symbol. -/
lemma GoAlike.exists_adds_step (h : GoAlike w w') (x : Symbol) :
    ∃ a b, Adds w (Walker.step s w x) a b ∧ Adds w' (Walker.step s w' x) a b := by
  have hnext := h.act (s := s) x
  refine ⟨_, _, ⟨w.act_segments s x, w.act_leaves s x⟩, ?_, ?_⟩
  · show (Walker.act s w' x).segments.toList = _
    rw [act_segments, hnext.pose, h.pose, h.stack]
  · show (Walker.act s w' x).leaves.toList = _
    rw [act_leaves, hnext.pose, hnext.stack, h.stack, h.source]

/-- **Turtles that go on alike** add the same to their records over a word, and then go on
alike. -/
theorem GoAlike.run (h : GoAlike w w') (word : Word) :
    GoAlike (run s w word) (run s w' word) ∧
      ∃ a b, Adds w (run s w word) a b ∧ Adds w' (run s w' word) a b := by
  induction word generalizing w w' with
  | nil => exact ⟨h, [], [], ⟨by simp [Walker.run], by simp [Walker.run]⟩,
      ⟨by simp [Walker.run], by simp [Walker.run]⟩⟩
  | cons x word ih =>
    obtain ⟨a, b, hfirst, hfirst'⟩ := h.exists_adds_step (s := s) x
    obtain ⟨halike, c, d, hrest, hrest'⟩ := ih (h.step x)
    exact ⟨halike, a ++ c, b ++ d, hfirst.trans hrest, hfirst'.trans hrest'⟩

lemma Alike.step (h : Alike w w') (x : Symbol) :
    Alike (Walker.step s w x) (Walker.step s w' x) := by
  obtain ⟨a, b, hadds, hadds'⟩ := h.exists_adds_step (s := s) x
  refine ⟨h.toGoAlike.step x, Array.toList_inj.mp ?_, Array.toList_inj.mp ?_⟩
  · rw [hadds'.segments, hadds.segments, h.segments]
  · rw [hadds'.leaves, hadds.leaves, h.leaves]

/-! ## Transparent symbols -/

/-- The turtle passes over a letter. -/
lemma Alike.step_letter (h : Alike w w') {x : Symbol} (hx : x.isLetter = true) :
    Alike (Walker.step s w x) w' := by
  cases x with
  | letter c => exact ⟨⟨h.pose, h.stack, h.source⟩, h.segments, h.leaves⟩
  | _ => cases hx

/-- Only a warning tells of a stray bracket. -/
lemma Alike.step_stray (h : Alike w w') (hempty : w.stack.size = 0) :
    Alike (Walker.step s w .pop) w' := by
  rw [Walker.step, Walker.act, closeBranch_of_empty s w hempty]
  exact ⟨⟨h.pose, h.stack, h.source⟩, h.segments, h.leaves⟩

end Walker

/-! ## After a word -/

variable {σ : Type} [Source σ] (s : Settings) (source : σ)

lemma after_append (u v : Word) : after s source (u ++ v) = (after s source u).run s v := by
  rw [after, Walker.run, List.foldl_append]
  rfl

lemma alike_after_commands (w : Word) :
    Walker.Alike (after s source w) (after s source (commands w)) := by
  induction w using List.reverseRecOn with
  | nil => exact .refl _
  | append_singleton w x ih =>
    rw [after_concat, commands_concat]
    cases hx : x.isLetter with
    | true =>
      rw [if_pos rfl, List.append_nil]
      exact ih.step_letter hx
    | false =>
      rw [if_neg (by simp), after_concat]
      exact ih.step x

lemma alike_after_matched (w : Word) :
    Walker.Alike (after s source w) (after s source (matched w)) := by
  induction w using List.reverseRecOn with
  | nil => exact .refl _
  | append_singleton w x ih =>
    rw [after_concat, matched_concat]
    split_ifs with hx
    · obtain ⟨rfl, hd⟩ := hx
      rw [List.append_nil]
      exact ih.step_stray (by rw [after_stack_size, hd])
    · rw [after_concat]
      exact ih.step x

/-! ## Warnings -/

/-- The warning is about a closing bracket without a partner. -/
def Warning.isStray : Warning → Bool
  | .unmatchedPop _ => true
  | .unclosedBranches _ => false

/-- The warning about the same bracket of a word after its letters were deleted. -/
def Warning.withoutLetters (w : Word) : Warning → Warning
  | .unmatchedPop index => .unmatchedPop (index - lettersBefore w index)
  | .unclosedBranches depth => .unclosedBranches depth

namespace Trace

variable {t t' : Trace} {w : Word}

lemma warns_after (w : Word) : (after s source w).trace.Warns w := by rw [Warns, after_trace]

lemma Warns.filter_isStray (h : t.Warns w) :
    t.warnings.filter Warning.isStray = (strays w).map .unmatchedPop := by
  rw [h, List.filter_append, List.filter_map]
  split <;> simp [Warning.isStray, Function.comp_def]

/-- Without letters the warnings are the same, about brackets further to the left. -/
lemma Warns.commands (h : t.Warns w) (h' : t'.Warns (Word.commands w)) :
    t'.warnings = t.warnings.map (Warning.withoutLetters w) := by
  rw [h', h, strays_commands, depth_commands, List.map_append, List.map_map, List.map_map]
  congr 1
  split <;> rfl

/-- Without strays only the warning about open branches is left. -/
lemma Warns.matched (h : t.Warns w) (h' : t'.Warns (Word.matched w)) :
    t'.warnings = t.warnings.filter fun x => !x.isStray := by
  rw [h', h, strays_matched, depth_matched, List.filter_append, List.filter_map]
  split <;> simp [Warning.isStray, Function.comp_def]

end Trace

/-! ## Causality and transparency -/

/-- **A walk is causal, and letters and strays are transparent.**  The segments and leaves of a word
come first in the record of every longer word, and so do its warnings about stray brackets.  Without
its letters a word leaves the same segments, leaves and source and the same warnings, each stray
bracket being as many places further to the left as there were letters before it.  Without its stray
brackets it leaves the same segments, leaves and source, and of the warnings the one about open
branches. -/
theorem walk_is_causal (h : s.check = .ok ()) (u v w : Word) :
    (∃ t out t' out', walk s u source = .ok (t, out) ∧ walk s (u ++ v) source = .ok (t', out') ∧
      t.segments <+: t'.segments ∧ t.leaves <+: t'.leaves ∧
      t.warnings.filter Warning.isStray <+: t'.warnings) ∧
    ∃ t bare closed out, walk s w source = .ok (t, out) ∧
      walk s (commands w) source = .ok (bare, out) ∧
      walk s (matched w) source = .ok (closed, out) ∧
      (bare.segments = t.segments ∧ bare.leaves = t.leaves ∧
        bare.warnings = t.warnings.map (Warning.withoutLetters w)) ∧
      closed.segments = t.segments ∧ closed.leaves = t.leaves ∧
        closed.warnings = t.warnings.filter fun x => !x.isStray := by
  constructor
  · obtain ⟨-, a, b, hadds, -⟩ := (Walker.GoAlike.refl (after s source u)).run (s := s) v
    rw [← after_append] at hadds
    refine ⟨_, _, _, _, walk_eq s source h u, walk_eq s source h (u ++ v),
      ⟨a, hadds.segments.symm⟩, ⟨b, hadds.leaves.symm⟩, ?_⟩
    rw [(Trace.warns_after s source u).filter_isStray, Trace.warns_after s source (u ++ v)]
    have hstrays : strays u <+: strays (u ++ v) := places_prefix ..
    exact (hstrays.map _).trans (List.prefix_append ..)
  · have hbare := alike_after_commands s source w
    have hclosed := alike_after_matched s source w
    have hwarns := Trace.warns_after s source w
    have hwalk := walk_eq s source h (commands w)
    have hwalk' := walk_eq s source h (matched w)
    rw [hbare.source] at hwalk
    rw [hclosed.source] at hwalk'
    exact ⟨_, _, _, _, walk_eq s source h w, hwalk, hwalk',
      ⟨congrArg Array.toList hbare.segments, congrArg Array.toList hbare.leaves,
        hwarns.commands (Trace.warns_after s source _)⟩,
      congrArg Array.toList hclosed.segments, congrArg Array.toList hclosed.leaves,
      hwarns.matched (Trace.warns_after s source _)⟩

/-- A word with letters before, between and behind strays, one of its branches left open. -/
theorem walk_is_causal_lettered : Settings.usual.check = .ok () ∧
    (∃ t out t' out', walk .usual (ofText "aF]b[c") (Chance.Seeded.ofSeed 7) = .ok (t, out) ∧
      walk .usual (ofText "aF]b[cF]]F[d") (Chance.Seeded.ofSeed 7) = .ok (t', out') ∧
      t.segments <+: t'.segments ∧ [.unmatchedPop 2] <+: t'.warnings) ∧
    ∃ t bare closed out,
      walk .usual (ofText "aF]b[cF]]F[d") (Chance.Seeded.ofSeed 7) = .ok (t, out) ∧
      walk .usual (ofText "F][F]]F[") (Chance.Seeded.ofSeed 7) = .ok (bare, out) ∧
      walk .usual (ofText "aFb[cF]F[d") (Chance.Seeded.ofSeed 7) = .ok (closed, out) ∧
      bare.segments = t.segments ∧ closed.segments = t.segments ∧
      t.warnings = [.unmatchedPop 2, .unmatchedPop 8, .unclosedBranches 1] ∧
      bare.warnings = [.unmatchedPop 1, .unmatchedPop 5, .unclosedBranches 1] ∧
      closed.warnings = [.unclosedBranches 1] := by
  obtain ⟨⟨t, out, t', out', hwalk, hwalk', hsegments, -, hwarnings⟩, u, bare, closed, last, hu,
      hbare, hclosed, ⟨hbareSegments, -, hbareWarnings⟩, hclosedSegments, -, hclosedWarnings⟩ :=
    walk_is_causal .usual (Chance.Seeded.ofSeed 7) Settings.check_usual (ofText "aF]b[c")
      (ofText "F]]F[d")
      (ofText "aF]b[cF]]F[d")
  have hall : u.warnings = [.unmatchedPop 2, .unmatchedPop 8, .unclosedBranches 1] := by
    have hwarns : u.Warns (ofText "aF]b[cF]]F[d") := by
      rw [walk_eq _ _ Settings.check_usual] at hu
      cases hu
      exact Trace.warns_after ..
    exact hwarns.trans (by decide +kernel)
  have hfirst : t.warnings = [.unmatchedPop 2, .unclosedBranches 1] := by
    have hwarns : t.Warns (ofText "aF]b[c") := by
      rw [walk_eq _ _ Settings.check_usual] at hwalk
      cases hwalk
      exact Trace.warns_after ..
    exact hwarns.trans (by decide +kernel)
  have hword : ofText "aF]b[c" ++ ofText "F]]F[d" = ofText "aF]b[cF]]F[d" := by decide +kernel
  have hcommands : commands (ofText "aF]b[cF]]F[d") = ofText "F][F]]F[" := by decide +kernel
  have hmatched : matched (ofText "aF]b[cF]]F[d") = ofText "aFb[cF]F[d" := by decide +kernel
  rw [hall] at hbareWarnings hclosedWarnings
  rw [hfirst] at hwarnings
  rw [hword] at hwalk'
  rw [hcommands] at hbare
  rw [hmatched] at hclosed
  exact ⟨Settings.check_usual, ⟨t, out, t', out', hwalk, hwalk', hsegments, hwarnings⟩, u, bare,
    closed, last, hu, hbare, hclosed, hbareSegments, hclosedSegments, hall,
    hbareWarnings.trans (by decide +kernel), hclosedWarnings⟩

end Turtle

end Arbor
