import ApiCatalog.Json.Token
import ApiCatalog.Json.Value
/-!
# Documents as far as they can be read

Tokens are put together to a tree on a stack of open arrays and objects.  A document that is not well
formed yields a tree too: where it breaks off, the open containers are closed with a note of what was
met (`Cut`).  A reader of the tree that goes from left to right then meets its own errors and those of
the text in the order in which they stand.
-/

namespace ApiCatalog.Json

/-- Why nothing more can be read: the text ends, a token stands where it must not, or a scalar breaks
off. -/
inductive Fault where
  | ended
  | misplaced (token : Token)
  | broken (b : Broken)
  deriving Repr

def Fault.wanted : Fault → ErrorKind
  | .ended => .ended
  | .misplaced _ => .grammar
  | .broken b => b.wanted

def Fault.skipped : Fault → ErrorKind
  | .ended => .ended
  | .misplaced _ => .grammar
  | .broken b => b.skipped

/-- A key: nothing if it holds half of a surrogate pair. -/
abbrev Key := Option String

/-- The place where an open container breaks off. -/
structure Cut where
  /-- A comma was read behind the last item. -/
  comma : Bool
  /-- A key was read that has no value. -/
  key : Option Key
  fault : Fault
  deriving Repr

inductive Doc where
  | scalar (s : Scalar)
  | array (items : List Doc) (cut : Option Cut)
  | object (members : List (Key × Doc)) (cut : Option Cut)
  deriving Inhabited

def Doc.skipError? : Doc → Option ErrorKind
  | .scalar _ => none
  | .array _ cut | .object _ cut => cut.map (·.fault.skipped)

namespace Doc

/-- A container that is open: what it holds so far, nearest first. -/
inductive Frame where
  | array (items : List Doc)
  | object (members : List (Key × Doc)) (key : Option Key)

inductive Expect where
  | value
  | firstItem
  | firstKey
  | key
  | colon
  | separator

/-- The containers that are open, the innermost first, and what may come next. -/
structure Builder where
  stack : List Frame
  expect : Expect

/-- How reading goes on: there is more to come, the root is complete, or nothing more can be read. -/
inductive Step where
  | more (builder : Builder)
  | complete (root : Doc)
  | cut (stack : List Frame) (comma : Bool) (fault : Fault)

def Builder.put (stack : List Frame) (doc : Doc) : Step :=
  match stack with
  | [] => .complete doc
  | .array items :: stack => .more ⟨.array (doc :: items) :: stack, .separator⟩
  | .object members (some key) :: stack => .more ⟨.object ((key, doc) :: members) none :: stack, .separator⟩
  | .object members none :: stack => .more ⟨.object members none :: stack, .separator⟩

def Builder.close (stack : List Frame) (token : Token) : Step :=
  match token, stack with
  | .closeArray, .array items :: stack => put stack (.array items.reverse none)
  | .closeObject, .object members _ :: stack => put stack (.object members.reverse none)
  | token, stack => .cut stack false (.misplaced token)

def Builder.value (stack : List Frame) (comma : Bool) (token : Token) : Step :=
  match token with
  | .scalar s => put stack (.scalar s)
  | .openArray => .more ⟨.array [] :: stack, .firstItem⟩
  | .openObject => .more ⟨.object [] none :: stack, .firstKey⟩
  | .broken b => .cut stack comma (.broken b)
  | token => .cut stack comma (.misplaced token)

def Builder.key (stack : List Frame) (comma : Bool) (token : Token) : Step :=
  match token, stack with
  | .scalar (.string text), .object members _ :: stack => .more ⟨.object members (some text) :: stack, .colon⟩
  | .broken (.string spoiled atEnd), stack => .cut stack comma (.broken (.string spoiled atEnd))
  | token, stack => .cut stack comma (.misplaced token)

def Builder.feed (builder : Builder) (token : Token) : Step :=
  let stack := builder.stack
  match builder.expect with
  | .value =>
    let comma := match stack with
      | .array _ :: _ => true
      | _ => false
    value stack comma token
  | .firstItem =>
    match token with
    | .closeArray => close stack token
    | token => value stack false token
  | .firstKey =>
    match token with
    | .closeObject => close stack token
    | token => key stack false token
  | .key => key stack true token
  | .colon =>
    match token with
    | .colon => .more ⟨stack, .value⟩
    | token => .cut stack false (.misplaced token)
  | .separator =>
    match token, stack with
    | .comma, .array _ :: _ => .more ⟨stack, .value⟩
    | .comma, .object _ _ :: _ => .more ⟨stack, .key⟩
    | token, stack => close stack token

/-- The text ends here. -/
def Builder.finish (builder : Builder) : Step :=
  match builder.expect, builder.stack with
  | .value, .array items :: stack => .cut (.array items :: stack) true .ended
  | .key, stack => .cut stack true .ended
  | _, stack => .cut stack false .ended

/-- Closes a container where it breaks off. -/
def Frame.cut (frame : Frame) (comma : Bool) (fault : Fault) : Doc :=
  match frame with
  | .array items => .array items.reverse (some ⟨comma, none, fault⟩)
  | .object members key => .object members.reverse (some ⟨comma, key, fault⟩)

/-- Puts a container that breaks off into the one around it, which breaks off with it. -/
def Frame.around (frame : Frame) (inner : Doc) (fault : Fault) : Doc :=
  match frame with
  | .array items => .array (inner :: items).reverse (some ⟨false, none, fault⟩)
  | .object members (some key) => .object ((key, inner) :: members).reverse (some ⟨false, none, fault⟩)
  | .object members none => .object members.reverse (some ⟨false, none, fault⟩)

def cutAll (stack : List Frame) (comma : Bool) (fault : Fault) : Except Fault Doc :=
  match stack with
  | [] => .error fault
  | frame :: stack => .ok (stack.foldl (fun inner frame => frame.around inner fault) (frame.cut comma fault))

/-- The root of a document, as far as it goes, and whether more tokens follow it. -/
structure Root where
  root : Except Fault Doc
  trailing : Bool

def Builder.run (builder : Builder) : List Token → Root
  | [] =>
    match builder.finish with
    | .cut stack comma fault => ⟨cutAll stack comma fault, false⟩
    | .complete root => ⟨.ok root, false⟩
    | .more _ => ⟨.error .ended, false⟩
  | token :: tokens =>
    match builder.feed token with
    | .more builder => run builder tokens
    | .complete root => ⟨.ok root, !tokens.isEmpty⟩
    | .cut stack comma fault => ⟨cutAll stack comma fault, false⟩

def ofText (text : List Char) : Root :=
  Builder.run ⟨[], .value⟩ (tokens text)

end Doc

end ApiCatalog.Json
