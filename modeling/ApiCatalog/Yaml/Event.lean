import ApiCatalog.Yaml.Token
/-!
# Events of YAML documents

The nodes of a document in the order in which they are written: scalars, aliases, and the starts and ends of
sequences and mappings.  They are found by a machine that knows what may come next in the collection it is
in and what it has to go back to behind it.  A text may hold at most one document.
-/

namespace ApiCatalog.Yaml

/-- The anchor and the tag of a node. -/
structure Properties where
  anchor : Option (List Char)
  tag : Option (List Char)
  deriving Repr, DecidableEq

def Properties.none : Properties := ⟨.none, .none⟩

inductive Event where
  | alias (name : List Char)
  | scalar (properties : Properties) (text : List Char) (plain : Bool)
  | sequenceStart (properties : Properties)
  | sequenceEnd
  | mappingStart (properties : Properties)
  | mappingEnd
  deriving Repr, DecidableEq

namespace Event

inductive Place where
  | documentEnd
  /-- A node, perhaps in block style, perhaps a sequence that is not indented. -/
  | node (block indentless : Bool)
  | sequenceFirst
  | sequenceEntry
  | indentlessEntry
  | mappingFirst
  | mappingKey
  | mappingValue
  | flowSequenceFirst
  | flowSequenceEntry
  | pairKey
  | pairValue
  | pairEnd
  | flowMappingFirst
  | flowMappingKey
  | flowMappingValue
  | flowMappingEmptyValue
  | finished
  deriving Repr, DecidableEq

/-- Handles of tags and what they stand for. -/
abbrev Handles := List (List Char × List Char)

/-- What comes next and what after that, the tokens that are left, and the events so far, nearest first. -/
structure Machine where
  place : Place
  stack : List Place
  tokens : List Token
  events : List Event
  handles : Handles

namespace Machine

def emit (m : Machine) (event : Event) : Machine := { m with events := event :: m.events }

def skip (m : Machine) : Machine := { m with tokens := m.tokens.drop 1 }

def goto (m : Machine) (place : Place) : Machine := { m with place }

def pop (m : Machine) : Machine :=
  match m.stack with
  | place :: stack => { m with place, stack }
  | [] => { m with place := .finished }

def node (m : Machine) (back : Place) (block indentless : Bool) : Machine :=
  { m with place := .node block indentless, stack := back :: m.stack }

/-- A node that is not written. -/
def empty (m : Machine) (next : Place) : Machine :=
  (m.emit (.scalar .none [] true)).goto next

/-- The anchor and tag tokens in front of a node, in either order. -/
def properties (m : Machine) : Option (List Char) × Option (List Char × List Char) × Machine :=
  match m.tokens with
  | .anchor name :: .tag handle suffix :: rest => (some name, some (handle, suffix), { m with tokens := rest })
  | .tag handle suffix :: .anchor name :: rest => (some name, some (handle, suffix), { m with tokens := rest })
  | .anchor name :: rest => (some name, none, { m with tokens := rest })
  | .tag handle suffix :: rest => (none, some (handle, suffix), { m with tokens := rest })
  | _ => (none, none, m)

/-- A tag in full: what its handle stands for, and its own text. -/
def tagText? (m : Machine) (tag : List Char × List Char) : Option (List Char) :=
  if tag.1.isEmpty then some tag.2
  else (m.handles.find? (·.1 == tag.1)).map fun entry => entry.2 ++ tag.2

def nodeStep? (m : Machine) (block indentless : Bool) : Option Machine :=
  match m.tokens with
  | .alias name :: _ => some ((m.emit (.alias name)).skip.pop)
  | _ => do
    let (anchor, tag, m) := m.properties
    let tag ← match tag with
      | none => some none
      | some tag => (m.tagText? tag).map some
    let properties : Properties := ⟨anchor, tag⟩
    match m.tokens with
    | .blockEntry :: _ =>
      if indentless then pure ((m.emit (.sequenceStart properties)).goto .indentlessEntry)
      else if anchor.isSome || tag.isSome then pure (m.emit (.scalar properties [] true)).pop
      else none
    | .scalar text plain :: _ => pure ((m.emit (.scalar properties text plain)).skip.pop)
    | .flowSequenceStart :: _ => pure ((m.emit (.sequenceStart properties)).goto .flowSequenceFirst)
    | .flowMappingStart :: _ => pure ((m.emit (.mappingStart properties)).goto .flowMappingFirst)
    | token :: _ =>
      if block && token = .blockSequenceStart then pure ((m.emit (.sequenceStart properties)).goto .sequenceFirst)
      else if block && token = .blockMappingStart then pure ((m.emit (.mappingStart properties)).goto .mappingFirst)
      else if anchor.isSome || tag.isSome then pure (m.emit (.scalar properties [] true)).pop
      else none
    | [] => none

def sequenceStep? (m : Machine) : Option Machine :=
  match m.tokens with
  | .blockEntry :: .blockEntry :: _ | .blockEntry :: .blockEnd :: _ => some (m.skip.empty .sequenceEntry)
  | .blockEntry :: _ => some (m.skip.node .sequenceEntry true false)
  | .blockEnd :: _ => some (m.emit .sequenceEnd).skip.pop
  | _ => none

/-- An entry of a sequence that is not indented, which ends where no entry comes. -/
def indentlessStep (m : Machine) : Machine :=
  match m.tokens with
  | .blockEntry :: .blockEntry :: _ | .blockEntry :: .key :: _ | .blockEntry :: .value :: _
  | .blockEntry :: .blockEnd :: _ => m.skip.empty .indentlessEntry
  | .blockEntry :: _ => m.skip.node .indentlessEntry true false
  | _ => (m.emit .sequenceEnd).pop

/-- Behind a key or value mark of a block mapping: a node, or none at all. -/
def mappingPart (m : Machine) (next : Place) : Machine :=
  match m.tokens with
  | .key :: _ | .value :: _ | .blockEnd :: _ => m.empty next
  | _ => m.node next true true

def mappingKeyStep? (m : Machine) : Option Machine :=
  match m.tokens with
  | .key :: _ => some (m.skip.mappingPart .mappingValue)
  | .blockEnd :: _ => some (m.emit .mappingEnd).skip.pop
  | _ => none

def mappingValueStep (m : Machine) : Machine :=
  match m.tokens with
  | .value :: _ => m.skip.mappingPart .mappingKey
  | _ => m.empty .mappingKey

/-- An entry of a flow sequence; one with a key is a mapping of a single pair. -/
def flowSequenceStep? (m : Machine) (first : Bool) : Option Machine :=
  let entry (m : Machine) : Machine :=
    match m.tokens with
    | .key :: _ => (m.emit (.mappingStart .none)).skip.goto .pairKey
    | .flowSequenceEnd :: _ => (m.emit .sequenceEnd).skip.pop
    | _ => m.node .flowSequenceEntry false false
  match m.tokens with
  | .flowSequenceEnd :: _ => some (m.emit .sequenceEnd).skip.pop
  | .flowEntry :: _ => if first then some (entry m) else some (entry m.skip)
  | _ => if first then some (entry m) else none

/-- The key of a single pair; where there is none, the token in its place is passed over. -/
def pairKeyStep (m : Machine) : Machine :=
  match m.tokens with
  | .value :: _ | .flowEntry :: _ | .flowSequenceEnd :: _ => m.skip.empty .pairValue
  | _ => m.node .pairValue false false

def pairValueStep (m : Machine) : Machine :=
  match m.tokens with
  | .value :: .flowEntry :: _ | .value :: .flowSequenceEnd :: _ => m.skip.empty .pairEnd
  | .value :: _ => m.skip.node .pairEnd false false
  | _ => m.empty .pairEnd

def flowMappingStep? (m : Machine) (first : Bool) : Option Machine :=
  let entry (m : Machine) : Machine :=
    match m.tokens with
    | .key :: .value :: _ | .key :: .flowEntry :: _ | .key :: .flowMappingEnd :: _ => m.skip.empty .flowMappingValue
    | .key :: _ => m.skip.node .flowMappingValue false false
    | .flowMappingEnd :: _ => (m.emit .mappingEnd).skip.pop
    | _ => m.node .flowMappingEmptyValue false false
  match m.tokens with
  | .flowMappingEnd :: _ => some (m.emit .mappingEnd).skip.pop
  | .flowEntry :: _ => if first then some (entry m) else some (entry m.skip)
  | _ => if first then some (entry m) else none

def flowMappingValueStep (m : Machine) : Machine :=
  match m.tokens with
  | .value :: .flowEntry :: _ | .value :: .flowMappingEnd :: _ => m.skip.empty .flowMappingKey
  | .value :: _ => m.skip.node .flowMappingKey false false
  | _ => m.empty .flowMappingKey

def step? (m : Machine) : Option Machine :=
  match m.place with
  | .documentEnd | .finished => none
  | .node block indentless => m.nodeStep? block indentless
  | .sequenceFirst => m.skip.sequenceStep?
  | .sequenceEntry => m.sequenceStep?
  | .indentlessEntry => some m.indentlessStep
  | .mappingFirst => m.skip.mappingKeyStep?
  | .mappingKey => m.mappingKeyStep?
  | .mappingValue => some m.mappingValueStep
  | .flowSequenceFirst => m.skip.flowSequenceStep? true
  | .flowSequenceEntry => m.flowSequenceStep? false
  | .pairKey => some m.pairKeyStep
  | .pairValue => some m.pairValueStep
  | .pairEnd => some ((m.emit .mappingEnd).goto .flowSequenceEntry)
  | .flowMappingFirst => m.skip.flowMappingStep? true
  | .flowMappingKey => m.flowMappingStep? false
  | .flowMappingValue => some m.flowMappingValueStep
  | .flowMappingEmptyValue => some (m.empty .flowMappingKey)

def run? : Nat → Machine → Option Machine
  | 0, _ => none
  | fuel + 1, m => if m.place = .documentEnd then some m else m.step?.bind (run? fuel)

end Machine

/-- Reads directives: at most one version, which must be 1.1 or 1.2, and handles, each once. -/
def directives? (version : Bool) (handles : Handles) : List Token → Option (Handles × List Token)
  | .version major minor :: tokens =>
    if version || major ≠ 1 || !(minor = 1 || minor = 2) then none else directives? true handles tokens
  | .tagDirective handle start :: tokens =>
    if handles.any (·.1 == handle) then none else directives? version ((handle, start) :: handles) tokens
  | tokens => some (handles, tokens)

/-- The handles that are known without a directive; a directive may give them another meaning. -/
def defaultHandles : Handles := [(['!'], ['!']), ("!!".toList, "tag:yaml.org,2002:".toList)]

/-- The machine at the root of the document; a document need not hold a node. -/
def content (handles : Handles) (tokens : List Token) : Machine :=
  let m : Machine := ⟨.node true false, [.documentEnd], tokens, [], handles ++ defaultHandles⟩
  match tokens with
  | .version _ _ :: _ | .tagDirective _ _ :: _ | .documentStart :: _ | .documentEnd :: _ | .streamEnd :: _ =>
    m.empty .documentEnd
  | _ => m

/-- The start of the document; `none` stands for a text without one. -/
def start? (tokens : List Token) : Option (Option Machine) :=
  match tokens with
  | .streamEnd :: _ => some none
  | .version _ _ :: _ | .tagDirective _ _ :: _ | .documentStart :: _ => do
    match ← directives? false [] tokens with
    | (handles, .documentStart :: tokens) => pure (some (content handles tokens))
    | _ => none
  | tokens => some (some ⟨.node true false, [.documentEnd], tokens, [], defaultHandles⟩)

/-- The events of the document that the tokens hold; nothing but marks of its end may follow it. -/
def ofTokens? (tokens : List Token) : Option (List Event) := do
  match ← start? tokens with
  | none => pure []
  | some m =>
    let m ← m.run? (4 * tokens.length + 8)
    match m.tokens.dropWhile (· == .documentEnd) with
    | [.streamEnd] => pure m.events.reverse
    | _ => none

end Event

end ApiCatalog.Yaml
