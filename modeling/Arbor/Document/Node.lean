import Arbor.Document.Token

/-!
# Nodes of a document

The tree that the tokens of a document spell.  A node with an anchor is kept aside in a slot, and an
alias names the slot; so a node may refer to one that it is a part of.  `Document.ofText` reads a
whole text, which holds one document at most.
-/

namespace Arbor.Document

/-- A value in a document. -/
inductive Node where
  | scalar (style : Style) (tag : Option Octets) (text : List Char)
  | sequence (items : List Node)
  | mapping (entries : List (Node × Node))
  | alias (slot : Nat)

/-- The value that is left out: an empty plain scalar. -/
def Node.absent : Node := .scalar .plain none []

mutual

/-- How many pieces a node is made of: a scalar or an alias is one, and a collection has two ends
besides what it holds. -/
def Node.pieces : Node → Nat
  | .scalar _ _ _ => 1
  | .alias _ => 1
  | .sequence items => 2 + itemPieces items
  | .mapping entries => 2 + entryPieces entries

/-- The pieces of all items. -/
def Node.itemPieces : List Node → Nat
  | [] => 0
  | n :: rest => n.pieces + itemPieces rest

/-- The pieces of all keys and values. -/
def Node.entryPieces : List (Node × Node) → Nat
  | [] => 0
  | (k, v) :: rest => k.pieces + v.pieces + entryPieces rest

end

/-- A document; a text without one has no root. -/
structure Contents where
  root : Option Node
  /-- The anchored nodes with their slots, in the order of their anchors. -/
  anchored : Array (Nat × Node)

/-- How often aliases may be followed in a document: a hundred times for each of its pieces.  So a
short text cannot stand for a huge value. -/
def Contents.allowance (c : Contents) : Nat := 100 * c.root.elim 1 Node.pieces

/-! ## Reading nodes -/

/-- What is still to be read, and what names stand for. -/
structure Reader where
  rest : List Token
  /-- What tag handles stand for. -/
  handles : List (List Char × Octets)
  /-- The slots of the anchor names so far, each name once. -/
  names : List (List Char × Nat)
  anchored : Array (Nat × Node)

/-- A step of reading that may fail. -/
abbrev Reading := StateT Reader Option

namespace Reading

/-- The next token; behind the last one it is the end of the stream. -/
def peek : Reading Token := return (← get).rest.headD .streamEnd

/-- Drops the next token. -/
def skip : Reading Unit := modify fun r => { r with rest := r.rest.tail }

/-- Takes the next token if it is `t`. -/
def accept (t : Token) : Reading Bool := do
  if (← peek) == t then skip; return true else return false

/-- Whether the next token is one of `ts`. -/
def atAny (ts : List Token) : Reading Bool := return ts.contains (← peek)

/-- The comma in front of an item of a flow collection; in front of the first there is none. -/
def separator (first : Bool) : Reading Unit := do
  if first then return ()
  if ← accept .flowEntry then return () else failure

/-- Starts an anchored node.  A new name takes the slot after the names so far; so does a name that
is given again. -/
def startAnchor (name : List Char) : Reading Nat := do
  let r ← get
  let slot := r.names.length
  set { r with
    names := (name, slot) :: r.names.filter (·.1 != name)
    anchored := r.anchored.push (slot, .absent) }
  return r.anchored.size

/-- Puts an anchored node in its place. -/
def finishAnchor (place : Nat) (n : Node) : Reading Unit :=
  modify fun r => { r with
    anchored := r.anchored.modify place fun (slot, _) => (slot, n) }

/-- The tag that stands for none: a lone exclamation mark. -/
def noTag : Octets := .ofAscii ['!']

/-- The tag of a handle and a suffix. -/
def tagOf (handle : List Char) (suffix : Octets) : Reading Octets := do
  if handle.isEmpty then return suffix
  else match (← get).handles.lookup handle with
    | some h => return h ++ suffix
    | none => failure

/-- The anchor and the tag of a node, in either order. -/
def properties : Reading (Option (List Char) × Option Octets) := do
  let anchor? : Reading (Option (List Char)) := do
    match ← peek with
    | .anchor name => skip; return some name
    | _ => return none
  let tag? : Reading (Option Octets) := do
    match ← peek with
    | .tag handle suffix => skip; return some (← tagOf handle suffix)
    | _ => return none
  match ← anchor? with
  | some name => return (some name, ← tag?)
  | none =>
    let tag ← tag?
    let anchor ← if tag.isSome then anchor? else pure none
    return (anchor, tag)

mutual

/-- A node.  `block` admits block collections, and `indentless` a sequence that is not indented
against the mapping around it. -/
def node (block indentless : Bool) : (fuel : Nat) → Reading Node
  | 0 => failure
  | fuel + 1 => do
    match ← peek with
    | .alias name =>
      skip
      match (← get).names.lookup name with
      | some slot => return .alias slot
      | none => failure
    | _ =>
      let (anchor, tag) ← properties
      let place ← match anchor with
        | some name => some <$> startAnchor name
        | none => pure none
      let n ← content block indentless (anchor.isSome || tag.isSome) tag fuel
      match place with
      | some place => finishAnchor place n
      | none => pure ()
      return n

/-- A node behind its anchor and tag, which alone make up an empty one. -/
def content (block indentless marked : Bool) (tag : Option Octets) :
    (fuel : Nat) → Reading Node
  | 0 => failure
  | fuel + 1 => do
    match ← peek with
    | .scalar style text =>
      skip
      return .scalar style (tag.filter (· != noTag)) text
    | .flowSequenceStart =>
      skip
      return .sequence (← flowItems true fuel)
    | .flowMappingStart =>
      skip
      return .mapping (← flowEntries true fuel)
    | t =>
      if t == .blockEntry && indentless then return .sequence (← indentlessItems fuel)
      else if t == .blockSequenceStart && block then
        skip
        return .sequence (← blockItems fuel)
      else if t == .blockMappingStart && block then
        skip
        return .mapping (← blockEntries fuel)
      else if marked then return .scalar .plain (tag.filter (· != noTag)) []
      else failure

/-- The items of a block sequence. -/
def blockItems : (fuel : Nat) → Reading (List Node)
  | 0 => failure
  | fuel + 1 => do
    if ← accept .blockEnd then return []
    else if ← accept .blockEntry then
      let item ←
        if ← atAny [.blockEntry, .blockEnd] then pure .absent else node true false fuel
      return item :: (← blockItems fuel)
    else failure

/-- The items of a block sequence that has no end mark of its own. -/
def indentlessItems : (fuel : Nat) → Reading (List Node)
  | 0 => failure
  | fuel + 1 => do
    if ← accept .blockEntry then
      let item ←
        if ← atAny [.blockEntry, .key, .value, .blockEnd] then pure .absent
        else node true false fuel
      return item :: (← indentlessItems fuel)
    else return []

/-- The entries of a block mapping. -/
def blockEntries : (fuel : Nat) → Reading (List (Node × Node))
  | 0 => failure
  | fuel + 1 => do
    if ← accept .blockEnd then return []
    else if ← accept .key then
      let absent := atAny [.key, .value, .blockEnd]
      let key ← if ← absent then pure .absent else node true true fuel
      let value ←
        if ← accept .value then
          if ← absent then pure .absent else node true true fuel
        else pure .absent
      return (key, value) :: (← blockEntries fuel)
    else failure

/-- The items of a flow sequence; a single entry of a mapping is an item too. -/
def flowItems (first : Bool) : (fuel : Nat) → Reading (List Node)
  | 0 => failure
  | fuel + 1 => do
    if ← accept .flowSequenceEnd then return []
    else
      separator first
      if ← accept .flowSequenceEnd then return []
      else if ← accept .key then
        let key ←
          if ← atAny [.value, .flowEntry, .flowSequenceEnd] then
            skip
            pure .absent
          else node false false fuel
        let value ←
          if ← accept .value then
            if ← atAny [.flowEntry, .flowSequenceEnd] then pure .absent else node false false fuel
          else pure .absent
        return .mapping [(key, value)] :: (← flowItems false fuel)
      else
        let item ← node false false fuel
        return item :: (← flowItems false fuel)

/-- The entries of a flow mapping; an entry without a colon has no value. -/
def flowEntries (first : Bool) : (fuel : Nat) → Reading (List (Node × Node))
  | 0 => failure
  | fuel + 1 => do
    if ← accept .flowMappingEnd then return []
    else
      separator first
      if ← accept .flowMappingEnd then return []
      else if ← accept .key then
        let key ←
          if ← atAny [.value, .flowEntry, .flowMappingEnd] then pure .absent
          else node false false fuel
        let value ←
          if ← accept .value then
            if ← atAny [.flowEntry, .flowMappingEnd] then pure .absent else node false false fuel
          else pure .absent
        return (key, value) :: (← flowEntries false fuel)
      else
        let key ← node false false fuel
        return (key, .absent) :: (← flowEntries false fuel)

end

/-- What the two tag handles stand for that need no directive. -/
def usualHandles : List (List Char × Octets) :=
  [("!".toList, .ofAscii "!".toList), ("!!".toList, .ofAscii "tag:yaml.org,2002:".toList)]

/-- The directives of a document: at most one version, and no tag handle twice. -/
def directives (version : Bool) : (fuel : Nat) → Reading Unit
  | 0 => failure
  | fuel + 1 => do
    match ← peek with
    | .versionDirective =>
      if version then failure
      else
        skip
        directives true fuel
    | .tagDirective handle uri =>
      let r ← get
      if (r.handles.lookup handle).isSome then failure
      else
        set { r with handles := r.handles ++ [(handle, uri)] }
        skip
        directives version fuel
    | _ => return ()

/-- Skips document ends. -/
def documentEnds : (fuel : Nat) → Reading Unit
  | 0 => failure
  | fuel + 1 => do
    if ← accept .documentEnd then documentEnds fuel else return ()

/-- The root of the one document, if there is one.  Without a mark at its start a document begins
with its root; with one the root may be left out. -/
def stream (fuel : Nat) : Reading (Option Node) := do
  let root ←
    if (← peek) == .streamEnd then pure none
    else if ← atAny [.documentStart, .versionDirective] then explicit
    else match ← peek with
      | .tagDirective _ _ => explicit
      | _ =>
        modify fun r => { r with handles := usualHandles }
        some <$> node true false fuel
  documentEnds fuel
  if (← peek) == .streamEnd then return root else failure
where
  explicit : Reading (Option Node) := do
    directives false fuel
    modify fun r => { r with
      handles := r.handles ++ usualHandles.filter fun h => (r.handles.lookup h.1).isNone }
    if ← accept .documentStart then
      if ← atAny [.documentStart, .documentEnd, .streamEnd] then return some .absent
      else match ← peek with
        | .versionDirective | .tagDirective _ _ => return some .absent
        | _ => some <$> node true false fuel
    else failure

end Reading

/-- The one document of a text. -/
def Contents.ofText (text : List Char) : Option Contents := do
  let tokens ← tokens? text
  let (root, r) ← (Reading.stream (4 * tokens.length + 4)).run ⟨tokens, [], [], #[]⟩
  return ⟨root, r.anchored⟩

end Arbor.Document
