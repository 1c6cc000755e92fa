import Arbor.Proofs.Document.Fields

/-!
# Nodes of a document of fields

The reader makes of the tokens of a document what the writer was given: a mapping of the keys to
their values, each a text in its style or a mapping of its own (`ofText_document`).  What it passes
is the tokens of one node after another (`Spells`); no node has an anchor or a tag.
-/

namespace Arbor.Document

/-- The node of a value. -/
def Written.node : Written → Node
  | text t => .scalar (styleOf t) none t
  | plain t => .scalar .plain none t
  | group fields =>
    .mapping (fields.map fun (k, v) => (.scalar .plain none k, .scalar .plain none v))

/-- A reader that has got up to some tokens. -/
def Reader.upTo (r : Reader) (rest : List Token) : Reader := { r with rest := rest }

namespace Reading

variable {r : Reader} {t : Token} {rest ts : List Token} {n : Node} {fuel : ℕ}

@[simp]
lemma run_peek : peek.run (r.upTo (t :: rest)) = some (t, r.upTo (t :: rest)) := by
  simp [peek, Reader.upTo]

@[simp]
lemma run_skip : skip.run (r.upTo (t :: rest)) = some ((), r.upTo rest) := by
  simp [skip, Reader.upTo]

@[simp]
lemma run_accept (t' : Token) : (accept t').run (r.upTo (t :: rest)) =
    if t = t' then some (true, r.upTo rest) else some (false, r.upTo (t :: rest)) := by
  split_ifs with h <;> simp [accept, StateT.run_bind, h]

@[simp]
lemma run_atAny (ts : List Token) :
    (atAny ts).run (r.upTo (t :: rest)) = some (decide (t ∈ ts), r.upTo (t :: rest)) := by
  simp [atAny]

lemma run_properties (hanchor : ∀ name, t ≠ .anchor name)
    (htag : ∀ handle suffix, t ≠ .tag handle suffix) :
    properties.run (r.upTo (t :: rest)) = some ((none, none), r.upTo (t :: rest)) := by
  cases t with
  | anchor name => exact absurd rfl (hanchor name)
  | tag handle suffix => exact absurd rfl (htag handle suffix)
  | _ => rfl

/-- A node without an anchor or a tag is its content. -/
lemma run_node {block indentless : Bool} (halias : ∀ name, t ≠ .alias name)
    (hanchor : ∀ name, t ≠ .anchor name) (htag : ∀ handle suffix, t ≠ .tag handle suffix) :
    (node block indentless (fuel + 1)).run (r.upTo (t :: rest)) =
      (content block indentless false none fuel).run (r.upTo (t :: rest)) := by
  have hproperties : properties.run (r.upTo (t :: rest)) = _ := run_properties hanchor htag
  rw [node]
  cases t <;> simp_all [StateT.run_bind]

/-- The tokens of a node, which may stand as a key or as a value. -/
structure Spells (n : Node) (ts : List Token) : Prop where
  head : ∃ t more, ts = t :: more ∧ t ∉ [Token.key, Token.value, Token.blockEnd]
  read : ∀ {fuel : ℕ} {r : Reader} {rest : List Token} (indentless : Bool), ts.length < fuel →
    (node true indentless fuel).run (r.upTo (ts ++ rest)) = some (n, r.upTo rest)

lemma Spells.run_atAny (h : Spells n ts) :
    (atAny [.key, .value, .blockEnd]).run (r.upTo (ts ++ rest)) =
      some (false, r.upTo (ts ++ rest)) := by
  obtain ⟨t, more, rfl, habsent⟩ := h.head
  rw [List.cons_append, Reading.run_atAny, decide_eq_false habsent]

lemma spells_scalar (style : Style) (text : List Char) :
    Spells (.scalar style none text) [.scalar style text] where
  head := ⟨_, _, rfl, by simp⟩
  read := by
    intro fuel r rest indentless hfuel
    obtain ⟨fuel, rfl⟩ : ∃ m, fuel = m + 2 := ⟨fuel - 2, by simp at hfuel; omega⟩
    rw [List.singleton_append, run_node (by simp) (by simp) (by simp), content]
    simp [StateT.run_bind]

section Entries

variable {α : Type} {key : α → List Char} {value : α → Node} {ts : α → List Token} {fields : List α}

/-- The tokens of the entries of a mapping. -/
def entryTokens (key : α → List Char) (ts : α → List Token) (fields : List α) : List Token :=
  fields.flatMap fun f => .key :: .scalar .plain (key f) :: .value :: ts f

/-- The entries of a mapping are read one after another. -/
lemma run_blockEntries (h : ∀ f ∈ fields, Spells (value f) (ts f))
    (hfuel : (entryTokens key ts fields).length < fuel) :
    (blockEntries fuel).run (r.upTo (entryTokens key ts fields ++ .blockEnd :: rest)) =
      some (fields.map fun f => (.scalar .plain none (key f), value f), r.upTo rest) := by
  -- Each entry takes one unit of fuel and at least three tokens, so the bound is kept.
  induction fields generalizing fuel r with
  | nil =>
    obtain ⟨fuel, rfl⟩ : ∃ m, fuel = m + 1 := ⟨fuel - 1, by omega⟩
    rw [blockEntries]
    simp [entryTokens, StateT.run_bind]
  | cons f fields ih =>
    obtain ⟨fuel, rfl⟩ : ∃ m, fuel = m + 1 := ⟨fuel - 1, by omega⟩
    have hvalue := h f List.mem_cons_self
    have hlength : (entryTokens key ts (f :: fields)).length =
        (ts f).length + 3 + (entryTokens key ts fields).length := by
      simp [entryTokens]
      omega
    have htokens : entryTokens key ts (f :: fields) ++ .blockEnd :: rest =
        .key :: .scalar .plain (key f) ::
        .value :: (ts f ++ (entryTokens key ts fields ++ .blockEnd :: rest)) := by
      simp [entryTokens]
    have hkey : (node true true fuel).run (r.upTo (.scalar .plain (key f) ::
        .value :: (ts f ++ (entryTokens key ts fields ++ .blockEnd :: rest)))) = _ :=
      (spells_scalar .plain (key f)).read true (by simp; omega)
    have hread : (node true true fuel).run
        (r.upTo (ts f ++ (entryTokens key ts fields ++ .blockEnd :: rest))) = _ :=
      hvalue.read true (by omega)
    have hmore :
        (blockEntries fuel).run (r.upTo (entryTokens key ts fields ++ .blockEnd :: rest)) = _ :=
      ih (fun g hg => h g (List.mem_cons_of_mem _ hg)) (by omega)
    rw [htokens, blockEntries]
    simp [StateT.run_bind, hkey, hvalue.run_atAny, hread, hmore]

/-- A mapping of plain keys. -/
def mappingOf (key : α → List Char) (value : α → Node) (fields : List α) : Node :=
  .mapping (fields.map fun f => (.scalar .plain none (key f), value f))

lemma spells_mapping (h : ∀ f ∈ fields, Spells (value f) (ts f)) :
    Spells (mappingOf key value fields)
      (.blockMappingStart :: (entryTokens key ts fields ++ [.blockEnd])) where
  head := ⟨_, _, rfl, by simp⟩
  read := by
    intro fuel r rest indentless hfuel
    rw [List.length_cons, List.length_append, List.length_singleton] at hfuel
    obtain ⟨fuel, rfl⟩ : ∃ m, fuel = m + 2 := ⟨fuel - 2, by omega⟩
    have hentries : (blockEntries fuel).run
        (r.upTo (entryTokens key ts fields ++ .blockEnd :: rest)) = _ :=
      run_blockEntries h (by omega)
    rw [List.cons_append, List.append_assoc, List.singleton_append,
      run_node (by simp) (by simp) (by simp), content]
    simp [StateT.run_bind, hentries, mappingOf]

end Entries

lemma spells_written (v : Written) : Spells v.node v.tokens := by
  cases v with
  | text t => exact spells_scalar _ t
  | plain t => exact spells_scalar _ t
  | group fields =>
    have hgroup : Spells (mappingOf Prod.fst (fun f => .scalar .plain none f.2) fields)
        (.blockMappingStart :: (entryTokens Prod.fst (fun f => [.scalar .plain f.2]) fields ++
          [.blockEnd])) :=
      spells_mapping fun f _ => spells_scalar .plain f.2
    exact hgroup

lemma run_documentEnds : (documentEnds (fuel + 1)).run (r.upTo [.streamEnd]) =
    some ((), r.upTo [.streamEnd]) := by
  rw [documentEnds]
  simp [StateT.run_bind]

/-- A mapping is a whole document. -/
lemma run_stream (h : Spells n (.blockMappingStart :: ts)) (hfuel : ts.length + 1 < fuel) :
    ∃ r, (stream fuel).run ⟨.blockMappingStart :: (ts ++ [.streamEnd]), [], [], #[]⟩ =
      some (some n, r) ∧
      r.anchored = #[] := by
  obtain ⟨fuel, rfl⟩ : ∃ m, fuel = m + 1 := ⟨fuel - 1, by omega⟩
  have hread : (node true false (fuel + 1)).run ((⟨[], usualHandles, [], #[]⟩ : Reader).upTo
      (.blockMappingStart :: (ts ++ [.streamEnd]))) = _ := h.read false (by simpa using hfuel)
  have hstart : (⟨.blockMappingStart :: (ts ++ [.streamEnd]), [], [], #[]⟩ : Reader) =
      Reader.upTo ⟨[], [], [], #[]⟩ (.blockMappingStart :: (ts ++ [.streamEnd])) := rfl
  have hmodify : ({ (⟨[], [], [], #[]⟩ : Reader).upTo
      (.blockMappingStart :: (ts ++ [.streamEnd])) with
      handles := usualHandles } : Reader) =
      (⟨[], usualHandles, [], #[]⟩ : Reader).upTo (.blockMappingStart :: (ts ++ [.streamEnd])) :=
    rfl
  refine ⟨(⟨[], usualHandles, [], #[]⟩ : Reader).upTo [.streamEnd], ?_, rfl⟩
  rw [hstart, stream]
  simp [StateT.run_bind, hmodify, hread, run_documentEnds]

end Reading

/-- **Reading documents.**  What is written is read back as a mapping of the keys to their
values. -/
theorem ofText_document {field : String × Written} {fields : List (String × Written)}
    (hfits : FieldsFit (field :: fields)) :
    Contents.ofText (document (field :: fields)) =
      some ⟨some (.mapping
        ((field :: fields).map fun f => (.scalar .plain none f.1.toList, f.2.node))), #[]⟩ := by
  have hspells : Reading.Spells
      (Reading.mappingOf (fun f => f.1.toList) (fun f => f.2.node) (field :: fields))
      (.blockMappingStart :: ((field :: fields).flatMap lineTokens ++ [.blockEnd])) :=
    Reading.spells_mapping fun f _ => Reading.spells_written f.2
  unfold Contents.ofText
  rw [tokens?_document hfits, Option.bind_eq_bind, Option.bind_some]
  have htokens : Token.blockMappingStart ::
      ((field :: fields).flatMap lineTokens ++ [.blockEnd, .streamEnd]) =
      .blockMappingStart :: (((field :: fields).flatMap lineTokens ++ [.blockEnd]) ++
        [.streamEnd]) := by
    simp
  rw [htokens]
  generalize (field :: fields).flatMap lineTokens ++ [.blockEnd] = ts at hspells
  have hfuel :
      ts.length + 1 < 4 * (Token.blockMappingStart :: (ts ++ [.streamEnd])).length + 4 := by
    simp
    omega
  obtain ⟨r, hread, hanchored⟩ := Reading.run_stream hspells hfuel
  rw [hread]
  exact congrArg (fun anchored => some (Contents.mk _ anchored)) hanchored

end Arbor.Document
