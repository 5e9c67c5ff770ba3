import ApiCatalog.Regex.Basic
/-!
# Written patterns

Reads the usual notation of regular expressions.  A pattern is cut into symbols first and the
symbols are then put together on a stack of open groups; both passes follow their list.  A pattern
that is not well formed, or uses notation outside of what is described here, reads as nothing.
-/

namespace ApiCatalog.Pattern

structure Options where
  /-- Letters stand for both of their cases. -/
  ignoreCase : Bool
  /-- `^` and `$` hold at every line, not only at the ends of the text. -/
  multiLine : Bool
  deriving Repr, DecidableEq

inductive Symbol where
  | char (c : Char)
  | set (set : CharSet)
  | wordEdge
  | dot
  | caret
  | dollar
  | star
  | plus
  | question
  | bar
  | openGroup (numbered : Bool)
  | close
  | caseFlag (ignore : Bool)
  | lineFlag (multi : Bool)
  deriving Repr, DecidableEq

/-- The characters that stand for themselves behind a backslash. -/
def isPunctuation (c : Char) : Bool :=
  "\\.+*?()|[]\x7b\x7d^$#&-~".toList.contains c

def escaped? (c : Char) : Option Char :=
  if isPunctuation c then some c
  else if c = 'n' then some '\n'
  else if c = 't' then some '\t'
  else if c = 'r' then some '\r'
  else none

def class? : Char → Option CharItem
  | 'w' => some .word
  | 'W' => some .nonWord
  | 's' => some .blank
  | 'S' => some .nonBlank
  | _ => none

/-- Where the reader of symbols stands: outside of brackets, or inside with what it has read. -/
inductive Place where
  | outside
  | bracket (negated : Bool) (items : List CharItem)

def symbols? : Place → List Char → Option (List Symbol)
  | .outside, [] => some []
  | .bracket _ _, [] => none
  | .outside, '\\' :: c :: rest =>
    match c, escaped? c, class? c with
    | 'b', _, _ => (symbols? .outside rest).map (.wordEdge :: ·)
    | _, some c, _ => (symbols? .outside rest).map (.char c :: ·)
    | _, _, some item => (symbols? .outside rest).map (.set ⟨false, [item]⟩ :: ·)
    | _, none, none => none
  | .outside, '(' :: '?' :: ':' :: rest => (symbols? .outside rest).map (.openGroup false :: ·)
  | .outside, '(' :: '?' :: 'i' :: ')' :: rest => (symbols? .outside rest).map (.caseFlag true :: ·)
  | .outside, '(' :: '?' :: '-' :: 'i' :: ')' :: rest => (symbols? .outside rest).map (.caseFlag false :: ·)
  | .outside, '(' :: '?' :: 'm' :: ')' :: rest => (symbols? .outside rest).map (.lineFlag true :: ·)
  | .outside, '(' :: '?' :: '-' :: 'm' :: ')' :: rest => (symbols? .outside rest).map (.lineFlag false :: ·)
  -- a bracket right at the start of a set is a character of it, not its end
  | .outside, '[' :: '^' :: ']' :: rest => symbols? (.bracket true [.range ']' ']']) rest
  | .outside, '[' :: ']' :: rest => symbols? (.bracket false [.range ']' ']']) rest
  | .outside, '[' :: '^' :: rest => symbols? (.bracket true []) rest
  | .outside, '[' :: rest => symbols? (.bracket false []) rest
  | .outside, c :: rest =>
    match c, rest with
    | '\\', _ | '\x7b', _ | '\x7d', _ => none
    | '*', '?' :: _ | '+', '?' :: _ | '?', '?' :: _ | '(', '?' :: _ => none
    | '.', _ => (symbols? .outside rest).map (.dot :: ·)
    | '^', _ => (symbols? .outside rest).map (.caret :: ·)
    | '$', _ => (symbols? .outside rest).map (.dollar :: ·)
    | '*', _ => (symbols? .outside rest).map (.star :: ·)
    | '+', _ => (symbols? .outside rest).map (.plus :: ·)
    | '?', _ => (symbols? .outside rest).map (.question :: ·)
    | '|', _ => (symbols? .outside rest).map (.bar :: ·)
    | '(', _ => (symbols? .outside rest).map (.openGroup true :: ·)
    | ')', _ => (symbols? .outside rest).map (.close :: ·)
    | _, _ => (symbols? .outside rest).map (.char c :: ·)
  | .bracket negated items, ']' :: rest =>
    (symbols? .outside rest).map (.set ⟨negated, items.reverse⟩ :: ·)
  | .bracket negated items, '\\' :: c :: rest =>
    match escaped? c, class? c with
    | some c, _ => symbols? (.bracket negated (.range c c :: items)) rest
    | none, some item => symbols? (.bracket negated (item :: items)) rest
    | none, none => none
  | .bracket negated items, first :: '-' :: last :: rest =>
    if last = ']' || last = '\\' || last < first then none
    else symbols? (.bracket negated (.range first last :: items)) rest
  | .bracket negated items, c :: rest =>
    -- sets in sets, their differences and their intersections are not patterns of this reader
    if c = '\\' || c = '[' || c = '&' || c = '~' || c = '-' then none
    else symbols? (.bracket negated (.range c c :: items)) rest

/-- The characters that are the same letter as `c` if case does not count: besides the two cases, the
long s and the sign of the unit kelvin. -/
def letterCases (c : Char) : List CharItem :=
  if c.isAlpha then
    [.range c.toLower c.toLower, .range c.toUpper c.toUpper]
      ++ (if c.toLower = 's' then [.range 'ſ' 'ſ'] else [])
      ++ (if c.toLower = 'k' then [.range '\u212a' '\u212a'] else [])
  else [.range c c]

/-- An item of a set read without regard to case: a range of letters is joined by its other case. -/
def itemCases : CharItem → List CharItem
  | .range first last =>
    if first = last then letterCases first
    else if first.isLower && last.isLower then .range first last :: [.range first.toUpper last.toUpper]
    else if first.isUpper && last.isUpper then .range first last :: [.range first.toLower last.toLower]
    else [.range first last]
  | item => [item]

/-- A group that is being read: what opened it, the options outside of it, the branches that are
complete and the items of the open one, both nearest first. -/
structure Frame where
  number : Option Nat
  outer : Options
  branches : List Regex
  items : List Regex

def sequence : List Regex → Regex
  | [] => .empty
  | [item] => item
  | item :: items => .seq item (sequence items)

def choice : List Regex → Regex
  | [] => .empty
  | [branch] => branch
  | branch :: branches => .either branch (choice branches)

def Frame.body (frame : Frame) : Regex :=
  choice (sequence frame.items.reverse :: frame.branches).reverse

/-- What the reader of groups holds: the innermost group, those around it, the options in force and
the number of the next group. -/
structure Reader where
  frame : Frame
  outer : List Frame
  options : Options
  next : Nat

def Reader.push (reader : Reader) (item : Regex) : Reader :=
  { reader with frame := { reader.frame with items := item :: reader.frame.items } }

/-- Applies a repetition to the last item; an anchor or nothing at all cannot be repeated. -/
def Reader.repeatLast? (reader : Reader) (change : Regex → Regex) : Option Reader :=
  match reader.frame.items with
  | [] => none
  | item :: items => some { reader with frame := { reader.frame with items := change item :: items } }

def Reader.read? (reader : Reader) : Symbol → Option Reader
  | .char c =>
    some (reader.push (.oneOf ⟨false, if reader.options.ignoreCase then letterCases c else [.range c c]⟩))
  | .set set =>
    some (reader.push (.oneOf (if reader.options.ignoreCase then
      { set with items := set.items.flatMap itemCases } else set)))
  | .dot => some (reader.push (.oneOf ⟨true, [.range '\n' '\n']⟩))
  | .wordEdge => some (reader.push (.place .wordEdge))
  | .caret => some (reader.push (.place (if reader.options.multiLine then .lineStart else .textStart)))
  | .dollar => some (reader.push (.place (if reader.options.multiLine then .lineEnd else .textEnd)))
  | .star => reader.repeatLast? .anyNumber
  | .plus => reader.repeatLast? .atLeastOne
  | .question => reader.repeatLast? .optional
  | .bar =>
    some { reader with frame := { reader.frame with
      branches := sequence reader.frame.items.reverse :: reader.frame.branches, items := [] } }
  | .openGroup numbered =>
    some { reader with
      frame := ⟨if numbered then some reader.next else none, reader.options, [], []⟩
      outer := reader.frame :: reader.outer
      next := if numbered then reader.next + 1 else reader.next }
  | .close =>
    match reader.outer with
    | [] => none
    | around :: outer =>
      let body := match reader.frame.number with
        | some number => .group number reader.frame.body
        | none => reader.frame.body
      some { reader with
        frame := { around with items := body :: around.items }, outer, options := reader.frame.outer }
  | .caseFlag ignore => some { reader with options := { reader.options with ignoreCase := ignore } }
  | .lineFlag multi => some { reader with options := { reader.options with multiLine := multi } }

end Pattern

/-- The expression that a pattern stands for; `none` if the pattern is not well formed. -/
def Regex.ofPattern? (options : Pattern.Options) (pattern : String) : Option Regex := do
  let symbols ← Pattern.symbols? .outside pattern.toList
  let start : Pattern.Reader := ⟨⟨none, options, [], []⟩, [], options, 1⟩
  let reader ← symbols.foldlM Pattern.Reader.read? start
  if reader.outer.isEmpty then pure reader.frame.body else none

end ApiCatalog
