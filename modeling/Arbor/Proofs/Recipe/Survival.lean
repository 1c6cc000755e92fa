import Arbor.Proofs.Document.Values
import Arbor.Proofs.Number.Unbounded
import Arbor.Proofs.Turtle.Admissible
import Arbor.Recipe.Document

/-!
# Which recipes survive a document

A recipe that passes its check is written as fields that are read back, each by the reader of its
type.  Texts, counts, truth values and the seed come back as they were, and each number as its text
says; so a recipe comes back unchanged exactly if none of its numbers is torn
(`document_survives`).
-/

namespace Arbor

open Document Number

variable {r : Recipe}

namespace Recipe

/-- The fields of a direction. -/
def directionFields (v : Vec3) : List (List Char × List Char) :=
  [(['x'], Decimal.document v.x), (['y'], Decimal.document v.y), (['z'], Decimal.document v.z)]

/-- The fields of the document of a recipe. -/
def written (r : Recipe) : List (String × Written) :=
  let single (x : Float32) : Written := .plain (Decimal.document x)
  let nat (n : Nat) : Written := .plain (Decimal.digits n)
  let bool (b : Bool) : Written := .plain (if b then "true".toList else "false".toList)
  [("axiom", .text r.axiomText.toList), ("rules", .text r.rulesText.toList),
    ("iterations", nat r.iterations), ("angle", single r.angle),
    ("initial_length", single r.initialLength), ("length_decay", single r.lengthDecay),
    ("initial_radius", single r.initialRadius), ("radius_decay", single r.radiusDecay),
    ("bevel_depth", single r.bevelDepth), ("branch_spread", single r.branchSpread),
    ("rotation_jitter", single r.rotationJitter), ("length_jitter", single r.lengthJitter),
    ("tropism_strength", single r.tropismStrength),
    ("tropism_direction", .group (directionFields r.tropismDirection)),
    ("seed", nat r.seed.toNat), ("add_leaves", bool r.addLeaves),
    ("leaf_size", single r.leafSize), ("leaf_jitter", single r.leafJitter),
    ("branch_roll", bool r.branchRoll), ("max_symbols", nat r.maxSymbols)]

lemma toDocument_eq (r : Recipe) : r.toDocument = String.ofList (document r.written) := rfl

/-- The numbers of a recipe in single precision. -/
def singles (r : Recipe) : List Float32 :=
  [r.angle, r.initialLength, r.lengthDecay, r.initialRadius, r.radiusDecay, r.bevelDepth,
    r.branchSpread, r.rotationJitter, r.lengthJitter, r.tropismStrength, r.tropismDirection.x,
    r.tropismDirection.y, r.tropismDirection.z, r.leafSize, r.leafJitter]

/-- A property of the numbers of a recipe, field by field. -/
@[mk_iff]
structure Each (P : Float32 → Prop) (r : Recipe) : Prop where
  angle : P r.angle
  initialLength : P r.initialLength
  lengthDecay : P r.lengthDecay
  initialRadius : P r.initialRadius
  radiusDecay : P r.radiusDecay
  bevelDepth : P r.bevelDepth
  branchSpread : P r.branchSpread
  rotationJitter : P r.rotationJitter
  lengthJitter : P r.lengthJitter
  tropismStrength : P r.tropismStrength
  directionX : P r.tropismDirection.x
  directionY : P r.tropismDirection.y
  directionZ : P r.tropismDirection.z
  leafSize : P r.leafSize
  leafJitter : P r.leafJitter

lemma forall_singles_iff {P : Float32 → Prop} : (∀ x ∈ r.singles, P x) ↔ r.Each P := by
  simp [singles, each_iff]

/-- The recipe whose numbers are read back from their texts. -/
def reread (r : Recipe) : Recipe :=
  { r with
    angle := Document.reread r.angle
    initialLength := Document.reread r.initialLength
    lengthDecay := Document.reread r.lengthDecay
    initialRadius := Document.reread r.initialRadius
    radiusDecay := Document.reread r.radiusDecay
    bevelDepth := Document.reread r.bevelDepth
    branchSpread := Document.reread r.branchSpread
    rotationJitter := Document.reread r.rotationJitter
    lengthJitter := Document.reread r.lengthJitter
    tropismStrength := Document.reread r.tropismStrength
    tropismDirection := ⟨Document.reread r.tropismDirection.x, Document.reread r.tropismDirection.y,
      Document.reread r.tropismDirection.z⟩
    leafSize := Document.reread r.leafSize
    leafJitter := Document.reread r.leafJitter }

/-- What a recipe that can be used has to be written: finite numbers, and counts in their bounds. -/
structure Writable (r : Recipe) : Prop where
  finite : r.Each IsFinite
  iterations : r.iterations < countBound
  maxSymbols : r.maxSymbols < wideBound

lemma writable_of_check (h : r.check = .ok ()) : r.Writable := by
  simp only [check, check_bind_eq_ok_iff, throw_ite_eq_ok_iff] at h
  obtain ⟨-, hpasses, hsymbols, hturtle, hassembly⟩ := h
  obtain ⟨hangle, hlength, hradius, hlengthDecay, hradiusDecay, hrotation, hjitter, hspread,
    hstrength, hdirection, hleafJitter⟩ := Turtle.Settings.admissible_of_check hturtle
  simp only [Assembly.Settings.check, check_bind_eq_ok_iff] at hassembly
  obtain ⟨hbevel, hleaf⟩ := hassembly
  simp only [Vec3.isFinite, Bool.and_eq_true, isFinite_iff] at hdirection
  -- Angles are checked in radians, so degrees are finite because a product with them is.
  exact {
    finite := {
      angle := isFinite_of_mul hangle
      initialLength := hlength.1
      lengthDecay := hlengthDecay.1
      initialRadius := hradius.1
      radiusDecay := hradiusDecay.1
      bevelDepth := (Check.positive_eq_ok_iff.mp hbevel).1
      branchSpread := isFinite_of_mul hspread.1
      rotationJitter := isFinite_of_mul hrotation.1
      lengthJitter := hjitter.1
      tropismStrength := hstrength.1
      directionX := hdirection.1.1
      directionY := hdirection.1.2
      directionZ := hdirection.2
      leafSize := by
        split_ifs at hleaf
        · exact (Check.positive_eq_ok_iff.mp hleaf).1
        · exact (Check.nonNegative_eq_ok_iff.mp hleaf).1
      leafJitter := hleafJitter.1 }
    iterations := (not_lt.mp hpasses).trans_lt (by decide)
    maxSymbols := by
      rw [not_or, not_lt] at hsymbols
      exact hsymbols.2.trans_lt (by decide) }

/-- The names of the fields. -/
def names : List String :=
  ["axiom", "rules", "iterations", "angle", "initial_length", "length_decay", "initial_radius",
    "radius_decay", "bevel_depth", "branch_spread", "rotation_jitter", "length_jitter",
    "tropism_strength", "tropism_direction", "seed", "add_leaves", "leaf_size", "leaf_jitter",
    "branch_roll", "max_symbols"]

lemma names_written (r : Recipe) : r.written.map Prod.fst = names := rfl

lemma isKey_written (r : Recipe) {f : String × Written} (hf : f ∈ r.written) :
    IsKey f.1.toList := by
  have hall : ∀ name ∈ names, IsKey name.toList := by decide
  exact hall f.1 (r.names_written ▸ List.mem_map_of_mem hf)

lemma nodup_written (r : Recipe) : (r.written.map fun f => f.1.toList).Nodup := by
  have hnodup : names.Nodup := by decide
  have hmap : (r.written.map fun f => f.1.toList) = (r.written.map Prod.fst).map String.toList := by
    rw [List.map_map]
    rfl
  rw [hmap, names_written]
  exact hnodup.map fun _ _ => String.toList_inj.mp

lemma fieldsFit_written (h : r.Writable) : FieldsFit r.written := by
  refine fun f hf => ⟨r.isKey_written hf, ?_⟩
  revert f
  have hsingle : r.Each fun x => IsWord (Decimal.document x) :=
    forall_singles_iff.mp fun x hx => Decimal.isWord_document (forall_singles_iff.mpr h.finite x hx)
  have hgroup : (Written.group (directionFields r.tropismDirection)).Fits := by
    refine ⟨List.cons_ne_nil _ _, ?_⟩
    simp only [directionFields, List.forall_mem_cons]
    exact ⟨⟨by decide, hsingle.directionX⟩, ⟨by decide, hsingle.directionY⟩,
      ⟨by decide, hsingle.directionZ⟩, List.forall_mem_nil _⟩
  simp only [written, List.forall_mem_cons]
  exact ⟨trivial, trivial, Decimal.isWord_digits _, hsingle.angle, hsingle.initialLength,
    hsingle.lengthDecay, hsingle.initialRadius, hsingle.radiusDecay, hsingle.bevelDepth,
    hsingle.branchSpread, hsingle.rotationJitter, hsingle.lengthJitter, hsingle.tropismStrength,
    hgroup, Decimal.isWord_digits _, isWord_truth _, hsingle.leafSize, hsingle.leafJitter,
    isWord_truth _, Decimal.isWord_digits _, List.forall_mem_nil _⟩

/-! ## Reading a recipe back -/

section Reading

variable {c : Contents} {name : String} {x : Float32} {n : ℕ} {b : Bool} {t : String} {bound : ℕ}

/-- The fields of a recipe as they are read. -/
def readFields (r : Recipe) : List (List Char × Node) :=
  r.written.map fun f => (f.1.toList, f.2.node)

lemma optional_text (usual : String) (hf : (name, Written.text t.toList) ∈ r.written) :
    optional r.readFields name usual c.string = pure t :=
  (optional_eq usual r.nodup_written hf rfl).trans (Contents.string_scalar _ t)

lemma optional_single (usual : Float32)
    (hf : (name, Written.plain (Decimal.document x)) ∈ r.written) (hx : IsFinite x) :
    optional r.readFields name usual c.single = pure (Document.reread x) :=
  (optional_eq usual r.nodup_written hf rfl).trans (Contents.single_document hx)

lemma optional_nat (usual : ℕ) (hf : (name, Written.plain (Decimal.digits n)) ∈ r.written)
    (hn : n < bound) : optional r.readFields name usual (c.nat bound) = pure n :=
  (optional_eq usual r.nodup_written hf rfl).trans (Contents.nat_digits hn)

lemma optional_bool (usual : Bool)
    (hf : (name, Written.plain (if b then "true".toList else "false".toList)) ∈ r.written) :
    optional r.readFields name usual c.bool = pure b :=
  (optional_eq usual r.nodup_written hf rfl).trans (Contents.bool_word b)

lemma optional_seed (usual : UInt64)
    (hf : (name, Written.plain (Decimal.digits r.seed.toNat)) ∈ r.written) :
    optional r.readFields name usual (fun n => Nat.toUInt64 <$> c.nat wideBound n) =
      pure r.seed := by
  refine (optional_eq usual r.nodup_written hf rfl).trans ?_
  have hread : c.nat wideBound (Written.plain (Decimal.digits r.seed.toNat)).node =
      pure r.seed.toNat :=
    Contents.nat_digits r.seed.toNat_lt
  rw [hread, map_pure, Nat.toUInt64, UInt64.ofNat_toNat]

/-- A direction is read coordinate by coordinate. -/
lemma ofNode_group {v : Vec3} (hx : IsFinite v.x) (hy : IsFinite v.y) (hz : IsFinite v.z) :
    Vec3.ofNode c (Written.group (directionFields v)).node =
      pure ⟨Document.reread v.x, Document.reread v.y, Document.reread v.z⟩ := by
  have hnodup : ((directionFields v).map Prod.fst).Nodup := by
    show [['x'], ['y'], ['z']].Nodup
    decide
  have hfields : c.fields (Written.group (directionFields v)).node =
      pure ((directionFields v).map fun f => (f.1, Node.scalar .plain none f.2)) :=
    Contents.fields_mapping _ _ _
  have hcoordinate : ∀ {name : String} {x : Float32},
      (name.toList, Decimal.document x) ∈ directionFields v → IsFinite x →
      required ((directionFields v).map fun f => (f.1, Node.scalar .plain none f.2)) name c.single =
        pure (Document.reread x) := fun hf hx =>
    (required_eq hnodup hf rfl).trans (Contents.single_document hx)
  unfold Vec3.ofNode
  rw [hfields, pure_bind, hcoordinate (List.mem_of_getElem? (i := 0) rfl) hx, pure_bind,
    hcoordinate (List.mem_of_getElem? (i := 1) rfl) hy, pure_bind,
    hcoordinate (List.mem_of_getElem? (i := 2) rfl) hz, pure_bind]

lemma optional_direction (usual : Vec3) (h : r.Writable) :
    optional r.readFields "tropism_direction" usual (Vec3.ofNode c) =
      pure r.reread.tropismDirection :=
  (optional_eq usual r.nodup_written (List.mem_of_getElem? (i := 13) rfl) rfl).trans
    (ofNode_group h.finite.directionX h.finite.directionY h.finite.directionZ)

/-- A recipe is read field by field, in the order of writing. -/
lemma ofContents_written (h : r.Writable) (hroot : c.root =
    some (Reading.mappingOf (fun f => f.1.toList) (fun f => f.2.node) r.written)) :
    ofContents c = pure r.reread := by
  have hfields : c.rootFields = pure r.readFields := by
    rw [Contents.rootFields, hroot]
    exact Contents.fields_mapping _ _ _
  unfold ofContents
  rw [hfields, pure_bind]
  dsimp only
  rw [optional_text _ (List.mem_of_getElem? (i := 0) rfl), pure_bind,
    optional_text _ (List.mem_of_getElem? (i := 1) rfl), pure_bind,
    optional_nat _ (List.mem_of_getElem? (i := 2) rfl) h.iterations, pure_bind,
    optional_single _ (List.mem_of_getElem? (i := 3) rfl) h.finite.angle, pure_bind,
    optional_single _ (List.mem_of_getElem? (i := 4) rfl) h.finite.initialLength, pure_bind,
    optional_single _ (List.mem_of_getElem? (i := 5) rfl) h.finite.lengthDecay, pure_bind,
    optional_single _ (List.mem_of_getElem? (i := 6) rfl) h.finite.initialRadius, pure_bind,
    optional_single _ (List.mem_of_getElem? (i := 7) rfl) h.finite.radiusDecay, pure_bind,
    optional_single _ (List.mem_of_getElem? (i := 8) rfl) h.finite.bevelDepth, pure_bind,
    optional_single _ (List.mem_of_getElem? (i := 9) rfl) h.finite.branchSpread, pure_bind,
    optional_single _ (List.mem_of_getElem? (i := 10) rfl) h.finite.rotationJitter, pure_bind,
    optional_single _ (List.mem_of_getElem? (i := 11) rfl) h.finite.lengthJitter, pure_bind,
    optional_single _ (List.mem_of_getElem? (i := 12) rfl) h.finite.tropismStrength, pure_bind,
    optional_direction _ h, pure_bind,
    optional_seed _ (List.mem_of_getElem? (i := 14) rfl), pure_bind,
    optional_bool _ (List.mem_of_getElem? (i := 15) rfl), pure_bind,
    optional_single _ (List.mem_of_getElem? (i := 16) rfl) h.finite.leafSize, pure_bind,
    optional_single _ (List.mem_of_getElem? (i := 17) rfl) h.finite.leafJitter, pure_bind,
    optional_bool _ (List.mem_of_getElem? (i := 18) rfl), pure_bind,
    optional_nat _ (List.mem_of_getElem? (i := 19) rfl) h.maxSymbols, pure_bind]
  rfl

end Reading

/-- The document of a recipe is always readable. -/
lemma read_toDocument (h : r.Writable) :
    (Contents.ofText r.toDocument.toList).bind (fun c => c.read ofContents) = some r.reread := by
  have hne : r.written = r.written.head (List.cons_ne_nil _ _) :: r.written.tail := rfl
  have hfits := fieldsFit_written h
  rw [toDocument_eq, String.toList_ofList]
  rw [hne] at hfits ⊢
  rw [ofText_document hfits, Option.bind_some, Contents.read, ofContents_written h rfl]
  rfl

lemma reread_eq_iff (h : r.Writable) : r.reread = r ↔ ∀ x ∈ r.singles, ¬ Decimal.Torn x := by
  have hsingle : (∀ x ∈ r.singles, ¬ Decimal.Torn x) ↔ r.Each fun x => Document.reread x = x := by
    rw [← forall_singles_iff]
    exact forall₂_congr fun x hx =>
      (Document.reread_eq_iff (forall_singles_iff.mpr h.finite x hx)).symm
  rw [hsingle]
  constructor
  · intro heq
    exact {
      angle := congrArg angle heq
      initialLength := congrArg initialLength heq
      lengthDecay := congrArg lengthDecay heq
      initialRadius := congrArg initialRadius heq
      radiusDecay := congrArg radiusDecay heq
      bevelDepth := congrArg bevelDepth heq
      branchSpread := congrArg branchSpread heq
      rotationJitter := congrArg rotationJitter heq
      lengthJitter := congrArg lengthJitter heq
      tropismStrength := congrArg tropismStrength heq
      directionX := congrArg (·.tropismDirection.x) heq
      directionY := congrArg (·.tropismDirection.y) heq
      directionZ := congrArg (·.tropismDirection.z) heq
      leafSize := congrArg leafSize heq
      leafJitter := congrArg leafJitter heq }
  · intro hall
    unfold reread
    rw [hall.angle, hall.initialLength, hall.lengthDecay, hall.initialRadius, hall.radiusDecay,
      hall.bevelDepth, hall.branchSpread, hall.rotationJitter, hall.lengthJitter,
      hall.tropismStrength, hall.directionX, hall.directionY, hall.directionZ, hall.leafSize,
      hall.leafJitter]

lemma ofDocument_eq (h : r.Writable) :
    ofDocument r.toDocument = r.reread.check >>= fun _ => .ok r.reread := by
  rw [ofDocument, read_toDocument h]
  rfl

/-- **Survival.**  A recipe that passes its check is read back from its document with every number
as its text says, and so unchanged exactly if none of its numbers is torn. -/
theorem document_survives (h : r.check = .ok ()) :
    (ofDocument r.toDocument = r.reread.check >>= fun _ => .ok r.reread) ∧
      (ofDocument r.toDocument = .ok r ↔ ∀ x ∈ r.singles, ¬ Decimal.Torn x) := by
  have hwritable := writable_of_check h
  refine ⟨ofDocument_eq hwritable, ?_⟩
  rw [← reread_eq_iff hwritable, ofDocument_eq hwritable]
  constructor
  · exact fun hread => Except.ok.inj (check_bind_eq_ok_iff.mp hread).2
  · intro hself
    rw [hself, h]
    rfl

/-- The recipe that is there before any choice is made survives. -/
theorem document_survives_usual :
    usual.check = .ok () ∧ ofDocument usual.toDocument = .ok usual := by
  have hcheck : usual.check = .ok () := by decide +kernel
  have hself : usual.reread = usual := by decide +kernel
  exact ⟨hcheck, (document_survives hcheck).2.mpr
    ((reread_eq_iff (writable_of_check hcheck)).mp hself)⟩

/-- A recipe with a torn length: its decimal `7.038531e-26` is read as the next number. -/
def tornRecipe : Recipe := { usual with initialLength := Float32.ofBits 0x15AE43FD }

/-- A recipe that passes its check may come back as another one. -/
theorem exists_document_not_survives : ∃ r s : Recipe,
    r.check = .ok () ∧ ofDocument r.toDocument = .ok s ∧ r.sameValue s = false := by
  have hcheck : tornRecipe.check = .ok () := by decide +kernel
  have hread : tornRecipe.reread.check = .ok () := by decide +kernel
  refine ⟨tornRecipe, tornRecipe.reread, hcheck, ?_, by decide +kernel⟩
  rw [ofDocument_eq (writable_of_check hcheck), hread]
  rfl

end Recipe

end Arbor
