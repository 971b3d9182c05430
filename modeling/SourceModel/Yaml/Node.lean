import SourceModel.Yaml.Token
/-!
# YAML nodes

A YAML text holds one document, and a document is a node: a text, a sequence, a
mapping, or a reference to an anchored node. A value that is left out is an
empty plain text.

Anchors are numbered, and a reference keeps the number its name had where it
stands. A repeated name takes the number of the next new one, so two anchors may
share a number; the later one then answers for both.
-/

namespace SourceModel.Yaml

inductive Node where
  | scalar (anchor : Option Nat) (text : String) (plain : Bool)
  | sequence (anchor : Option Nat) (items : List Node)
  | mapping (anchor : Option Nat) (entries : List (Node × Node))
  | alias (target : Nat)

namespace Node

def anchor : Node → Option Nat
  | .scalar anchor _ _ => anchor
  | .sequence anchor _ => anchor
  | .mapping anchor _ => anchor
  | .alias _ => none

mutual

/-- The anchored nodes below a node and itself, in the order of the text. -/
def anchored : Node → List (Nat × Node)
  | .scalar anchor text plain => (anchor.map (·, .scalar anchor text plain)).toList
  | .sequence anchor items => (anchor.map (·, .sequence anchor items)).toList ++ anchoredInAll items
  | .mapping anchor entries => (anchor.map (·, .mapping anchor entries)).toList ++ anchoredInEntries entries
  | .alias _ => []

def anchoredInAll : List Node → List (Nat × Node)
  | [] => []
  | item :: rest => anchored item ++ anchoredInAll rest

def anchoredInEntries : List (Node × Node) → List (Nat × Node)
  | [] => []
  | entry :: rest => anchoredInEntry entry ++ anchoredInEntries rest

def anchoredInEntry : Node × Node → List (Nat × Node)
  | (key, value) => anchored key ++ anchored value

end

/-- The node that a node of the document stands for. -/
def target (document : Node) : Node → Option Node
  | .alias number => document.anchored.reverse.lookup number
  | node => some node

end Node

/-! ## Reading nodes -/

/-- What is left of the tokens, and what has been declared. -/
structure TokenFeed where
  tokens : List Token
  /-- Numbers of anchor names, the latest first. -/
  anchors : List (List Char × Nat) := []
  handles : List (List Char) := [['!', '!']]

/-- A reader of tokens that fails on a malformed text. -/
abbrev NodeReader := StateT TokenFeed Option

namespace NodeReader

def peek : NodeReader (Option Token) := return (← get).tokens.head?

def skip : NodeReader Unit := modify fun c => { c with tokens := c.tokens.drop 1 }

/-- Numbers an anchor by how many names there have been. -/
def number (name : List Char) : NodeReader Nat := do
  let c ← get
  let number := (c.anchors.map (·.1)).eraseDups.length
  set { c with anchors := (name, number) :: c.anchors }
  return number

def reference (name : List Char) : NodeReader Node := do
  match (← get).anchors.lookup name with
  | some number => return .alias number
  | none => failure

def anchor? : NodeReader (Option Nat) := do
  match ← peek with
  | some (.anchor name) => skip; some <$> number name
  | _ => return none

/-- Skips a tag, whose handle must be declared, and says whether there was one. -/
def tag? : NodeReader Bool := do
  match ← peek with
  | some (.tag handle) =>
    skip
    if handle.all (← get).handles.contains then return true else failure
  | _ => return false

/-- An anchor and a tag, in either order. -/
def properties : NodeReader (Option Nat × Bool) := do
  let first ← anchor?
  let tagged ← tag?
  let anchor ← if first.isSome then pure first else anchor?
  return (anchor, tagged || anchor.isSome)

def emptyScalar : Node := .scalar none "" true

/-- Whether a key or a value of a block mapping is left out before a token. -/
def endsBlockField : Option Token → Bool
  | none | some .key | some .value | some .blockEnd => true
  | _ => false

/-- Whether an entry of a block sequence is left out before a token. -/
def endsBlockItem : Option Token → Bool
  | none | some .blockEntry | some .blockEnd => true
  | _ => false

/-- The same for a sequence at the indentation of the mapping around it. -/
def endsIndentlessItem : Option Token → Bool
  | some .blockEntry => true
  | next => endsBlockField next

def endsFlowKey : Option Token → Bool
  | none | some .value | some .flowEntry | some .flowSequenceEnd | some .flowMappingEnd => true
  | _ => false

def endsFlowValue : Option Token → Bool
  | none | some .flowEntry | some .flowSequenceEnd | some .flowMappingEnd => true
  | _ => false

mutual

/-- A node. Blocks are read only where `block` allows them, and `indentless`
allows a sequence that is not indented. -/
def node (block indentless : Bool) : Nat → NodeReader Node
  | 0 => failure
  | fuel + 1 => do
    match ← peek with
    | some (.alias name) => skip; reference name
    | _ =>
      let (anchor, marked) ← properties
      let absent := if marked then pure (.scalar anchor "" true) else failure
      match ← peek with
      | some (.scalar text plain) => skip; return .scalar anchor (String.ofList text) plain
      | some .flowSequenceStart => skip; .sequence anchor <$> flowItems true fuel
      | some .flowMappingStart => skip; .mapping anchor <$> flowFields true fuel
      | some .blockSequenceStart =>
        if block then skip; .sequence anchor <$> blockItems fuel else absent
      | some .blockMappingStart =>
        if block then skip; .mapping anchor <$> blockFields fuel else absent
      | some .blockEntry =>
        if indentless then .sequence anchor <$> indentlessItems fuel else absent
      | _ => absent

/-- A node, unless it is left out. -/
def nodeUnless (absent : Option Token → Bool) (block indentless : Bool) : Nat → NodeReader Node
  | 0 => failure
  | fuel + 1 => do
    if absent (← peek) then return emptyScalar else node block indentless fuel

/-- What stands after a colon, which may be left out together with the value. -/
def fieldValue (absent : Option Token → Bool) (block : Bool) : Nat → NodeReader Node
  | 0 => failure
  | fuel + 1 => do
    match ← peek with
    | some .value => skip; nodeUnless absent block block fuel
    | _ => return emptyScalar

def blockItems : Nat → NodeReader (List Node)
  | 0 => failure
  | fuel + 1 => do
    match ← peek with
    | some .blockEntry =>
      skip
      let item ← nodeUnless endsBlockItem true false fuel
      return item :: (← blockItems fuel)
    | some .blockEnd => skip; return []
    | _ => failure

def indentlessItems : Nat → NodeReader (List Node)
  | 0 => failure
  | fuel + 1 => do
    match ← peek with
    | some .blockEntry =>
      skip
      let item ← nodeUnless endsIndentlessItem true false fuel
      return item :: (← indentlessItems fuel)
    | _ => return []

def blockFields : Nat → NodeReader (List (Node × Node))
  | 0 => failure
  | fuel + 1 => do
    match ← peek with
    | some .key =>
      skip
      let key ← nodeUnless endsBlockField true true fuel
      let value ← fieldValue endsBlockField true fuel
      return (key, value) :: (← blockFields fuel)
    | some .blockEnd => skip; return []
    | _ => failure

/-- Entries of a flow sequence; a key in it makes a mapping of one field. -/
def flowItems (first : Bool) : Nat → NodeReader (List Node)
  | 0 => failure
  | fuel + 1 => do
    match ← peek, first with
    | some .flowSequenceEnd, _ => skip; return []
    | some .flowEntry, false => skip; flowItem fuel
    | _, true => flowItem fuel
    | _, false => failure

def flowItem : Nat → NodeReader (List Node)
  | 0 => failure
  | fuel + 1 => do
    match ← peek with
    | some .flowSequenceEnd => skip; return []
    | some .key =>
      skip
      let key ← nodeUnless endsFlowKey false false fuel
      let value ← fieldValue endsFlowValue false fuel
      return .mapping none [(key, value)] :: (← flowItems false fuel)
    | _ =>
      let item ← node false false fuel
      return item :: (← flowItems false fuel)

def flowFields (first : Bool) : Nat → NodeReader (List (Node × Node))
  | 0 => failure
  | fuel + 1 => do
    match ← peek, first with
    | some .flowMappingEnd, _ => skip; return []
    | some .flowEntry, false => skip; flowField fuel
    | _, true => flowField fuel
    | _, false => failure

/-- A field of a flow mapping; one without a colon has an empty value. -/
def flowField : Nat → NodeReader (List (Node × Node))
  | 0 => failure
  | fuel + 1 => do
    match ← peek with
    | some .flowMappingEnd => skip; return []
    | some .key =>
      skip
      let key ← nodeUnless endsFlowKey false false fuel
      let value ← fieldValue endsFlowValue false fuel
      return (key, value) :: (← flowFields false fuel)
    | _ =>
      let key ← node false false fuel
      return (key, emptyScalar) :: (← flowFields false fuel)

end

/-! ## Documents -/

/-- Reads the directives in front of a document: one version at most, which must
be known, and no handle twice. -/
def directives : Nat → Bool → List (List Char) → NodeReader Unit
  | 0, _, _ => failure
  | fuel + 1, versioned, declared => do
    match ← peek with
    | some (.directive (.version major minor)) =>
      skip
      if !versioned && major = 1 && (minor = 1 || minor = 2) then directives fuel true declared
      else failure
    | some (.directive (.handle name)) =>
      skip
      if declared.contains name then failure else directives fuel versioned (name :: declared)
    | _ => modify fun c => { c with handles := declared ++ c.handles }

/-- The content of a document that is opened by a mark. -/
def markedContent (fuel : Nat) : NodeReader Node := do
  directives fuel false []
  match ← peek with
  | some .documentStart =>
    skip
    match ← peek with
    | none | some (.directive _) | some .documentStart | some .documentEnd => return emptyScalar
    | _ => node true false fuel
  | _ => failure

/-- The only document of a text, or nothing when there is none. -/
def document (fuel : Nat) : NodeReader (Option Node) := do
  match ← peek with
  | none => return none
  | some (.directive _) | some .documentStart => some <$> markedContent fuel
  | some _ => some <$> node true false fuel

/-- Skips end marks; nothing may follow them. -/
def finish : NodeReader Unit := do
  let rest := (← get).tokens.dropWhile fun | .documentEnd => true | _ => false
  if rest.isEmpty then pure () else failure

end NodeReader

/-- The document of a text. The outer option is empty for a malformed text, the
inner one for a text without a document. -/
def document? (text : String) : Option (Option Node) := do
  let tokens ← tokens? text
  let read : NodeReader (Option Node) := do
    let document ← NodeReader.document (3 * (tokens.length + 1))
    NodeReader.finish
    return document
  (read.run { tokens }).map (·.1)

end SourceModel.Yaml
