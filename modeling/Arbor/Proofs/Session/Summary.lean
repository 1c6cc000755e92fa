import Arbor.Proofs.Decimal.Numerals
import Arbor.Proofs.Session.Operations
import Arbor.Proofs.Text.Escape
import Arbor.Recipe.Document

/-!
# The summary of a session

The summary is meant to be a JSON text.  It is one, and stands for the object of `summaryJson`,
exactly if the axiom has no control character but those that are escaped and the bounds of the tree
are finite (`summary_value_iff`); before the first growth it always is.  An axiom with another
control character can be set and grown, and its summary is no JSON text
(`exists_summary_not_value`).
-/

namespace Arbor.Session

open Number Text Text.Json

/-! ## The members -/

/-- A member without blanks. -/
def member (name : String) (text : List Char) (v : Json) : Member :=
  ⟨[], name.toList, [], text, utf16 name.toList, v⟩

/-- A member that is a natural number. -/
def count (name : String) (n : ℕ) : Member :=
  member name (toString n).toList (.number (toString n).toList)

/-- The coordinates of a box. -/
def coordinates (b : Box) : List Float32 :=
  [b.low.x, b.low.y, b.low.z, b.high.x, b.high.y, b.high.z]

/-- The member for the box of a tree. -/
def bounds (t : Tree) : Member :=
  member "bounds" (t.geometry.bounds.elim "null" boxText).toList <|
    t.geometry.bounds.elim .null fun b =>
      .array ((coordinates b).map fun x => .number (Decimal.message x).toList)

/-- The members that are read off a recipe. -/
def recipeMembers (r : Recipe) : List Member :=
  [member "axiom" ('"' :: escape r.axiomText.toList ++ ['"']) (.string (utf16 r.axiomText.toList)),
    count "iterations" r.iterations,
    count "seed" r.seed.toNat]

/-- The members that are read off a tree. -/
def treeMembers (t : Tree) : List Member :=
  [count "symbols" t.symbolCount,
    count "segments" t.trace.segments.length,
    count "curves" t.geometry.branches.length,
    count "leaves" t.geometry.leaves.length,
    count "maxDepth" t.trace.maxDepth,
    count "warnings" t.trace.warnings.length,
    bounds t]

/-- The members of the summary of a tree, beside a recipe. -/
def members (r : Recipe) (t : Tree) : List Member := recipeMembers r ++ treeMembers t

/-- The value that the summary is meant to stand for. -/
def summaryJson (s : Session) : Json :=
  s.tree.elim .null fun t => .object ((members s.recipe t).map fun m => (m.key, m.value))

/-- The summary is the text of its members. -/
lemma toList_summary {s : Session} {t : Tree} (h : s.tree = some t) : s.summary.toList =
    '\x7b' :: [','].intercalate ((members s.recipe t).map Member.written) ++ ['\x7d'] := by
  have hseed : toString s.recipe.seed = toString s.recipe.seed.toNat := rfl
  rw [summary, h]
  simp only [String.toList_append, members, recipeMembers, treeMembers, List.map_cons, List.map_nil,
    List.intercalate_cons_cons, List.intercalate_singleton, Member.written, member, count, bounds,
    String.toList_ofList, List.append_assoc, hseed, List.cons_append, List.nil_append]
  rfl

lemma named_member {name : String} {text : List Char} {v : Json}
    (h : name.toList.all isPlain = true) : (member name text v).Named where
  before _ hc := by cases hc
  name := quoted_plain h
  after _ hc := by cases hc

variable {r : Recipe} {t : Tree} {m : Member}

lemma named_of_mem_members (hm : m ∈ members r t) : m.Named := by
  simp only [members, recipeMembers, treeMembers, List.cons_append, List.nil_append,
    List.mem_cons, List.not_mem_nil, or_false] at hm
  rcases hm with rfl | rfl | rfl | rfl | rfl | rfl | rfl | rfl | rfl | rfl <;>
    exact named_member (by decide)

/-! ## Which members are JSON -/

/-- The texts of the members that need not be JSON: the axiom and the bounds. -/
structure Presentable (r : Recipe) (t : Tree) : Prop where
  text : ∀ c ∈ r.axiomText.toList, Covered c
  box : ∀ b, t.geometry.bounds = some b → ∀ x ∈ coordinates b, x.isFinite

lemma toList_boxText (b : Box) : (boxText b).toList =
    '[' :: [','].intercalate ((coordinates b).map fun x => (Decimal.message x).toList) ++ [']'] := by
  simp [boxText, coordinates]

lemma value_count (name : String) (n : ℕ) : Value (count name n).text (count name n).value :=
  .number (Decimal.numeral_natural n)

lemma value_boxText {b : Box} (h : ∀ x ∈ coordinates b, x.isFinite) :
    Value (boxText b).toList
      (.array ((coordinates b).map fun x => .number (Decimal.message x).toList)) := by
  have harray := @Value.array
    ((coordinates b).map fun x =>
      ((Decimal.message x).toList, Json.number (Decimal.message x).toList))
    (fun i hi => by
      obtain ⟨x, hx, rfl⟩ := List.mem_map.mp hi
      exact .number (Decimal.numeral_message (isFinite_iff.mp (h x hx))))
  rw [List.map_map, List.map_map] at harray
  rw [toList_boxText]
  exact harray

lemma value_bounds (h : ∀ b, t.geometry.bounds = some b → ∀ x ∈ coordinates b, x.isFinite) :
    Value (bounds t).text (bounds t).value := by
  simp only [bounds, member]
  cases hb : t.geometry.bounds with
  | none => exact .null
  | some b => exact value_boxText (h b hb)

lemma value_of_mem_members (h : Presentable r t) (hm : m ∈ members r t) :
    Value m.text m.value := by
  simp only [members, recipeMembers, treeMembers, List.cons_append, List.nil_append,
    List.mem_cons, List.not_mem_nil, or_false] at hm
  rcases hm with rfl | rfl | rfl | rfl | rfl | rfl | rfl | rfl | rfl | rfl
  · exact .string (quoted_escape h.text)
  iterate 8 exact value_count _ _
  · exact value_bounds h.box

/-! ## Which members are refused -/

lemma scan_boxText {b : Box} {x : Float32} (hx : x ∈ coordinates b) (h : ¬ x.isFinite) :
    scan .outside (boxText b).toList = .refused := by
  have hnumbers : scan .outside ([','].intercalate
      ((coordinates b).map fun x => (Decimal.message x).toList)) = .refused := by
    refine scan_intercalate_refused (t := (Decimal.message x).toList) ?_
      (List.mem_map_of_mem hx) (Decimal.scan_message_of_not_finite fun hx => h (isFinite_iff.mpr hx))
    intro u hu
    obtain ⟨y, -, rfl⟩ := List.mem_map.mp hu
    by_cases hy : IsFinite y
    · exact .inl (scan_of_bare (Decimal.numeral_message hy).mem_bare)
    · exact .inr (Decimal.scan_message_of_not_finite hy)
  rw [toList_boxText, List.cons_append, scan_cons, scan_append]
  show scan (scan .outside _) [']'] = .refused
  rw [hnumbers, scan_refused]

lemma scan_axiomText {text : List Char} {c : Char} (hc : c ∈ text) (h : ¬ Covered c) :
    scan .outside ('"' :: escape text ++ ['"']) = .refused := by
  rw [List.cons_append, scan_cons, scan_append]
  show scan (scan .inside _) ['"'] = .refused
  rw [scan_escape_of_mem hc h, scan_refused]

lemma scan_bounds {b : Box} (hb : t.geometry.bounds = some b) {x : Float32}
    (hx : x ∈ coordinates b) (h : ¬ x.isFinite) : scan .outside (bounds t).text = .refused := by
  simp only [bounds, member, hb]
  exact scan_boxText hx h

/-- No member ends inside of a string. -/
lemma scan_of_mem_members (hm : m ∈ members r t) :
    scan .outside m.text = .outside ∨ scan .outside m.text = .refused := by
  simp only [members, recipeMembers, treeMembers, List.cons_append, List.nil_append,
    List.mem_cons, List.not_mem_nil, or_false] at hm
  rcases hm with rfl | rfl | rfl | rfl | rfl | rfl | rfl | rfl | rfl | rfl
  · by_cases htext : ∀ c ∈ r.axiomText.toList, Covered c
    · exact .inl (Value.string (quoted_escape htext)).scan_eq
    · push Not at htext
      obtain ⟨c, hc, h⟩ := htext
      exact .inr (scan_axiomText hc h)
  iterate 8 exact .inl (value_count _ _).scan_eq
  · by_cases hbox : ∀ b, t.geometry.bounds = some b → ∀ x ∈ coordinates b, x.isFinite
    · exact .inl (value_bounds hbox).scan_eq
    · push Not at hbox
      obtain ⟨b, hb, x, hx, h⟩ := hbox
      exact .inr (scan_bounds hb hx h)

/-! ## The summary -/

variable {s : Session}

lemma value_summary (ht : s.tree = some t) (h : Presentable s.recipe t) :
    Value s.summary.toList s.summaryJson := by
  rw [toList_summary ht, summaryJson, ht]
  exact .object (fun m hm => named_of_mem_members hm) fun m hm => value_of_mem_members h hm

/-- A refused member makes the summary refused. -/
lemma scan_summary (ht : s.tree = some t) (hm : m ∈ members s.recipe t)
    (h : scan .outside m.text = .refused) : scan .outside s.summary.toList = .refused := by
  have hmembers : scan .outside ([','].intercalate
      ((members s.recipe t).map Member.written)) = .refused := by
    refine scan_intercalate_refused ?_ (List.mem_map_of_mem hm)
      ((named_of_mem_members hm).scan_written.trans h)
    intro u hu
    obtain ⟨m', hm', rfl⟩ := List.mem_map.mp hu
    rw [(named_of_mem_members hm').scan_written]
    exact scan_of_mem_members hm'
  rw [toList_summary ht, List.cons_append, scan_cons, scan_append]
  show scan (scan .outside _) ['\x7d'] = .refused
  rw [hmembers, scan_refused]

/-- **When the summary is JSON.**  If the axiom has no control character but those that are escaped
and the bounds are finite, or before the first growth, the summary is a JSON text of the object of
its members, with the current axiom; otherwise it is no JSON text at all. -/
theorem summary_value_iff (s : Session) :
    ((∀ t, s.tree = some t → Presentable s.recipe t) → Value s.summary.toList s.summaryJson) ∧
      ∀ v, Value s.summary.toList v → ∀ t, s.tree = some t → Presentable s.recipe t := by
  constructor
  · intro h
    cases ht : s.tree with
    | none =>
      rw [summary, summaryJson, ht]
      exact .null
    | some t => exact value_summary ht (h t ht)
  · intro v hv t ht
    have hscan := hv.scan_eq
    constructor
    · intro c hc
      by_contra hcovered
      rw [scan_summary ht List.mem_cons_self (scan_axiomText hc hcovered)] at hscan
      cases hscan
    · intro b hb x hx
      by_contra hfinite
      have hmem : bounds t ∈ members s.recipe t := by simp [members, treeMembers]
      rw [scan_summary ht hmem (scan_bounds hb hx hfinite)] at hscan
      cases hscan

/-- A control character that can be set, but is not escaped. -/
theorem exists_summary_not_value : ¬ ∀ s, Reachable Recipe.ofDocument s →
    ∃ v, Value s.summary.toList v := by
  intro h
  let ops : List Operation := [.setAxiom "F\x01", .setRules "", .setIterations 0, .grow]
  have hgrown : (run Recipe.ofDocument ops).tree.isSome = true ∧
      (run Recipe.ofDocument ops).recipe.axiomText = "F\x01" := by
    decide +kernel
  obtain ⟨htree, hword⟩ := hgrown
  obtain ⟨t, ht⟩ := Option.isSome_iff_exists.mp htree
  obtain ⟨v, hv⟩ := h _ ⟨ops, rfl⟩
  have hscan := hv.scan_eq
  have hmem : '\x01' ∈ (run Recipe.ofDocument ops).recipe.axiomText.toList := by
    rw [hword]
    decide
  rw [scan_summary ht List.mem_cons_self (scan_axiomText hmem (by decide))] at hscan
  cases hscan

end Arbor.Session
