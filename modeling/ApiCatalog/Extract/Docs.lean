import ApiCatalog.Regex.Match
import ApiCatalog.Regex.Pattern
/-!
# Documentation blocks

A documentation block is a text between triple quotes or a comment that opens with a slash and two stars.
A block belongs to the declaration that follows it with nothing but blanks between them, or to the class
or file that it opens.  Texts before a declaration are read backwards: they are given in reverse, nearest
character first.
-/

namespace ApiCatalog

def descriptionLimit : Nat := 200

def Text.truncate (limit : Nat) (text : List Char) : List Char := text.take limit

structure Docs where
  summary : Option (List Char)
  description : Option (List Char)
  tags : List (List Char)
  deriving Repr, DecidableEq

namespace Docs

def none : Docs := ⟨.none, .none, []⟩

def isEmpty (docs : Docs) : Bool :=
  docs.summary.isNone && docs.description.isNone && docs.tags.isEmpty

/-! ## Blocks -/

/-- The quotes that a block can stand between. -/
def quotes : List (List Char) := ["\"\"\"".toList, "'''".toList]

def commentOpen : List Char := "/**".toList

def commentClose : List Char := "*/".toList

def unstarLine (line : List Char) : List Char :=
  match Text.trimStart line with
  | '*' :: rest => Text.trimStart rest
  | line => line

def unstar (body : List Char) : List Char :=
  Text.join ['\n'] ((Text.lines body).map unstarLine)

/-- The comment that ends a text given in reverse. -/
def commentBefore? (reversed : List Char) : Option (List Char) := do
  let head ← Text.stripStart? commentClose.reverse reversed
  let (body, _) ← Text.breakAt? commentOpen.reverse head
  let body := body.reverse
  if Text.occurs commentClose body then .none else pure (unstar body)

/-- The block that ends a text given in reverse, blanks after it not counted. -/
def blockBefore? (reversed : List Char) : Option (List Char) :=
  let reversed := Text.trimStart reversed
  match quotes.findSome? fun quote => (Text.stripStart? quote.reverse reversed).map (quote, ·) with
  | some (quote, head) => (Text.breakAt? quote.reverse head).map (·.1.reverse)
  | .none => commentBefore? reversed

/-- The block that starts a text, blanks before it not counted. -/
def blockAfter? (text : List Char) : Option (List Char) :=
  let text := Text.trimStart text
  match quotes.findSome? fun quote => (Text.stripStart? quote text).map (quote, ·) with
  | some (quote, rest) => (Text.breakAt? quote rest).map (·.1)
  | .none => do
    let rest ← Text.stripStart? commentOpen text
    let (body, _) ← Text.breakAt? commentClose rest
    pure (unstar body)

/-! ## What a block tells -/

/-- Takes the tag that is open, held nearest first, to those found, unless it is empty or known. -/
def closeTag (found : List (List Char)) (tag : Option (List Char)) : List (List Char) :=
  match tag with
  | .none | some [] => found
  | some tag => if found.contains tag.reverse then found else tag.reverse :: found

/-- Collects tags onto `found`, nearest first; `tag` is the one that is open. -/
def tagsFrom (found : List (List Char)) (tag : Option (List Char)) : List Char → List (List Char)
  | [] => (closeTag found tag).reverse
  | c :: text =>
    match tag with
    | some letters =>
      if Text.isWordChar c then tagsFrom found (some (c :: letters)) text
      else tagsFrom (closeTag found tag) (if c = '@' then some [] else .none) text
    | .none => tagsFrom found (if c = '@' then some [] else .none) text

/-- The words that follow an at sign, each once, in the order in which they come first. -/
def tagsOf (text : List Char) : List (List Char) := tagsFrom [] .none text

/-- The beginning of a block without blanks around it; none if the block is blank. -/
def descriptionOf? (block : List Char) : Option (List Char) :=
  let text := Text.trim block
  if text.isEmpty then .none else some (Text.truncate descriptionLimit text)

def ofBlock (block : List Char) : Docs :=
  let text := Text.trim block
  { summary := ((Text.lines text).map Text.trim).find? (!·.isEmpty)
    description := descriptionOf? block
    tags := tagsOf text }

def before (reversed : List Char) : Docs :=
  (blockBefore? reversed).elim none ofBlock

/-- The text up to a number of bytes, in reverse; none if that is not between two characters. -/
def reversedUpTo? (passed : List Char) : Nat → List Char → Option (List Char)
  | 0, _ => some passed
  | _ + 1, [] => .none
  | n + 1, c :: text => if n + 1 < c.utf8Size then .none else reversedUpTo? (c :: passed) (n + 1 - c.utf8Size) text

/-- The documentation of the declaration at a byte offset. -/
def at_ (content : List Char) (offset : Nat) : Docs :=
  (reversedUpTo? [] offset content).elim none before

/-! ## Files and classes -/

def ofFile? (content : List Char) : Option (List Char) :=
  (blockAfter? content).bind descriptionOf?

def classOptions : Pattern.Options := ⟨false, true⟩

/-- A class header that ends in a colon, with its block behind it. -/
def colonClass : Option Regex :=
  Regex.ofPattern? classOptions "^[ \\t]*class\\s+\\w+[^:\\n]*:"

/-- A class declaration with its annotations and modifiers, with its block before it. -/
def bracedClass : Option Regex :=
  Regex.ofPattern? classOptions
    ("^[ \\t]*(?:@\\w+(?:\\([^)]*\\))?\\s+)*(?:export\\s+)?"
      ++ "(?:(?:public|abstract|final|open|data|default)\\s+)*class\\s+\\w+")

/-- The description of the first class with a block: behind its header, or else before its
declaration. -/
def ofClass? (content : List Char) : Option (List Char) :=
  let behind := colonClass.bind fun regex => (regex.findAll content).findSome? fun found =>
    (blockAfter? found.whole.stop.rest).bind descriptionOf?
  behind.or (bracedClass.bind fun regex => (regex.findAll content).findSome? fun found =>
    (blockBefore? found.whole.start.passed).bind descriptionOf?)

end Docs

end ApiCatalog
