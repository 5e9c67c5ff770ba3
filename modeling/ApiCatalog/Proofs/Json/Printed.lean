import ApiCatalog.Json.Decode
import ApiCatalog.Json.Print
import ApiCatalog.Proofs.Json.NumberText
/-!
# Printed values as tokens

The text that is printed for a value (`chars`) is read as the tokens of the value (`tokens_pretty`), whatever its
strings hold; only a number may come back as another one (`Number.reread?`).
-/

namespace ApiCatalog.Json

open Token

/-! ## Layout -/

namespace Value

/-- A line feed and the blanks in front of an item at a level. -/
def lineStart (level : Nat) : List Char := '\n' :: List.replicate (2 * level) ' '

theorem toList_pushn (s : String) (c : Char) (n : Nat) : (s.pushn c n).toList = s.toList ++ List.replicate n c := by
  rw [String.pushn_eq_repeat_push]
  induction n with
  | zero => simp [Nat.repeat]
  | succ n ih => simp [Nat.repeat, ih, List.replicate_succ']

theorem toList_newline (level : Nat) : (newline level).toList = lineStart level := by
  rw [newline, toList_pushn]; rfl

mutual

def chars (level : Nat) : Value → List Char
  | .null => ['n', 'u', 'l', 'l']
  | .bool b => if b then ['t', 'r', 'u', 'e'] else ['f', 'a', 'l', 's', 'e']
  | .number n => n.text
  | .string s => quoted s
  | .array [] => ['[', ']']
  | .array (v :: vs) =>
    '[' :: lineStart (level + 1) ++ chars (level + 1) v ++ itemChars (level + 1) vs ++ lineStart level ++ [']']
  | .object [] => ['\x7b', '\x7d']
  | .object ((key, v) :: members) =>
    '\x7b' :: lineStart (level + 1) ++ quoted key ++ [':', ' '] ++ chars (level + 1) v
      ++ memberChars (level + 1) members ++ lineStart level ++ ['\x7d']

def itemChars (level : Nat) : List Value → List Char
  | [] => []
  | v :: vs => ',' :: lineStart level ++ chars level v ++ itemChars level vs

def memberChars (level : Nat) : List (String × Value) → List Char
  | [] => []
  | (key, v) :: members =>
    ',' :: lineStart level ++ quoted key ++ [':', ' '] ++ chars level v ++ memberChars level members

end

mutual

theorem toList_printOn (level : Nat) (out : String) :
    ∀ v : Value, (printOn level out v).toList = out.toList ++ chars level v
  | .null => by simp [printOn, chars]
  | .bool b => by cases b <;> simp [printOn, chars]
  | .number n => by simp [printOn, chars]
  | .string s => by simp [printOn, chars]
  | .array [] => by simp [printOn, chars]
  | .array (v :: vs) => by
    simp [printOn, chars, toList_printItems _ _ vs, toList_printOn _ _ v, toList_newline]
  | .object [] => by simp [printOn, chars]
  | .object ((key, v) :: members) => by
    simp [printOn, chars, toList_printMembers _ _ members, toList_printOn _ _ v, toList_newline]

theorem toList_printItems (level : Nat) (out : String) :
    ∀ vs : List Value, (printItems level out vs).toList = out.toList ++ itemChars level vs
  | [] => by simp [printItems, itemChars]
  | v :: vs => by simp [printItems, itemChars, toList_printItems _ _ vs, toList_printOn _ _ v, toList_newline]

theorem toList_printMembers (level : Nat) (out : String) :
    ∀ members : List (String × Value), (printMembers level out members).toList = out.toList ++ memberChars level members
  | [] => by simp [printMembers, memberChars]
  | (key, v) :: members => by
    simp [printMembers, memberChars, toList_printMembers _ _ members, toList_printOn _ _ v, toList_newline]

end

theorem toList_pretty (v : Value) : v.pretty.toList = v.chars 0 := by
  rw [pretty, toList_printOn]; rfl

/-! ## Tokens -/

mutual

def tokens : Value → List Token
  | .null => [.scalar .null]
  | .bool b => [.scalar (.bool b)]
  | .number n => [.scalar (.number n.reread?)]
  | .string s => [.scalar (.string (some s))]
  | .array [] => [.openArray, .closeArray]
  | .array (v :: vs) => .openArray :: tokens v ++ itemTokens vs ++ [.closeArray]
  | .object [] => [.openObject, .closeObject]
  | .object ((key, v) :: members) =>
    .openObject :: .scalar (.string (some key)) :: .colon :: tokens v ++ memberTokens members ++ [.closeObject]

def itemTokens : List Value → List Token
  | [] => []
  | v :: vs => .comma :: tokens v ++ itemTokens vs

def memberTokens : List (String × Value) → List Token
  | [] => []
  | (key, v) :: members => .comma :: .scalar (.string (some key)) :: .colon :: tokens v ++ memberTokens members

end

end Value

/-! ## Strings -/

theorem hexDigit?_digitChar : ∀ d, d < 16 → hexDigit? (Nat.digitChar d) = some d := by decide

theorem utf8Size_digitChar : ∀ d, d < 16 → (Nat.digitChar d).utf8Size = 1 := by decide

theorem foldl_feed_control (done : List Token) (text : List Char) {c : Char} (h : c.toNat < 0x20) :
    (['\\', 'u', '0', '0'] ++ hexByte c.toNat).foldl Lexer.feed ⟨done, .string ⟨text, false, none⟩⟩ =
      ⟨done, .string ⟨c :: text, false, none⟩⟩ := by
  have hhigh := hexDigit?_digitChar (c.toNat / 16) (by omega)
  have hlow := hexDigit?_digitChar (c.toNat % 16) (by omega)
  have hsize := utf8Size_digitChar (c.toNat / 16) (by omega)
  have hsize' := utf8Size_digitChar (c.toNat % 16) (by omega)
  have hzero : hexDigit? '0' = some 0 := by decide
  have hvalue : c.toNat / 16 * 16 + c.toNat % 16 = c.toNat := by omega
  have hopen : ['\\', 'u', '0', '0'].foldl Lexer.feed ⟨done, .string ⟨text, false, none⟩⟩ =
      ⟨done, .hex ⟨text, false, none⟩ 2 (some 0)⟩ := rfl
  have hpush : OpenString.pushUnit ⟨text, false, none⟩ c.toNat = ⟨c :: text, false, none⟩ := by
    have hlead : ¬ 0xD800 ≤ c.toNat := by omega
    have htrail : ¬ 0xDC00 ≤ c.toNat := by omega
    simp [OpenString.pushUnit, OpenString.push, hlead, htrail, Char.ofNat_toNat]
  rw [List.foldl_append, hopen, hexByte]
  simp [Lexer.feed, hhigh, hlow, hsize, hsize', hvalue, hpush]

theorem foldl_feed_escapeChar (done : List Token) (text : List Char) (c : Char) :
    (escapeChar c).foldl Lexer.feed ⟨done, .string ⟨text, false, none⟩⟩ =
      ⟨done, .string ⟨c :: text, false, none⟩⟩ := by
  unfold escapeChar
  repeat' split
  any_goals (subst_vars; rfl)
  · rename_i h; exact foldl_feed_control done text h
  · rename_i hquote hslash _ _ _ _ _ h
    simp [Lexer.feed, OpenString.push, hquote, hslash, h]

theorem foldl_feed_escaped (done : List Token) (text : List Char) : ∀ s : List Char,
    (s.flatMap escapeChar).foldl Lexer.feed ⟨done, .string ⟨text, false, none⟩⟩ =
      ⟨done, .string ⟨s.reverse ++ text, false, none⟩⟩
  | [] => rfl
  | c :: s => by
    rw [List.flatMap_cons, List.foldl_append, foldl_feed_escapeChar, foldl_feed_escaped done (c :: text) s]
    simp

/-- **Every string is read as itself.** -/
theorem foldl_feed_quoted (done : List Token) (s : String) :
    (quoted s).foldl Lexer.feed ⟨done, .between⟩ = ⟨.scalar (.string (some s)) :: done, .between⟩ := by
  have hopen : Lexer.feed ⟨done, .between⟩ '"' = ⟨done, .string ⟨[], false, none⟩⟩ := rfl
  rw [quoted, List.cons_append, List.foldl_cons, hopen, List.foldl_append, foldl_feed_escaped]
  simp [Lexer.feed, Lexer.emit, OpenString.spoiledAt]

/-! ## Values -/

/-- A lexer behind a value: the tokens read so far are complete if a comma or a new line comes or the text ends. -/
structure Token.Lexer.Settled (lexer : Lexer) (done : List Token) : Prop where
  feed : ∀ c, c = ',' ∨ c = '\n' → lexer.feed c = Lexer.begin done c
  finish : lexer.finish = done.reverse

theorem settled_between (done : List Token) : Lexer.Settled ⟨done, .between⟩ done := ⟨fun _ _ => rfl, rfl⟩

theorem settled_number (done : List Token) (n : Number) :
    (n.text.foldl Lexer.feed ⟨done, .between⟩).Settled (.scalar (.number n.reread?) :: done) := by
  obtain ⟨part, hend, hfold⟩ := foldl_feed_chars done n.valid_parts
  rw [← Number.chars_parts, hfold, Number.reread?, ← NumberText.numberToken_held]
  refine ⟨fun c hc => ?_, ?_⟩
  · rcases hc with rfl | rfl <;> cases part <;> first | rfl | cases hend
  · simp [Lexer.finish, hend]

theorem foldl_feed_lineStart {lexer : Lexer} {done : List Token} (h : lexer.Settled done) (level : Nat) :
    (Value.lineStart level).foldl Lexer.feed lexer = ⟨done, .between⟩ := by
  have hspaces : ∀ n, (List.replicate n ' ').foldl Lexer.feed ⟨done, .between⟩ = ⟨done, .between⟩ := fun n => by
    induction n with
    | zero => rfl
    | succ n ih => rw [List.replicate_succ, List.foldl_cons]; exact ih
  have hline : Lexer.begin done '\n' = ⟨done, .between⟩ := rfl
  rw [Value.lineStart, List.foldl_cons, h.feed '\n' (.inr rfl), hline]
  exact hspaces _

mutual

theorem settled_chars (level : Nat) (done : List Token) :
    ∀ v : Value, ((v.chars level).foldl Lexer.feed ⟨done, .between⟩).Settled (v.tokens.reverse ++ done)
  | .null => settled_between _
  | .bool b => by cases b <;> exact settled_between _
  | .number n => by rw [Value.chars, Value.tokens]; exact settled_number done n
  | .string s => by
    rw [Value.chars, Value.tokens, foldl_feed_quoted]
    exact settled_between _
  | .array [] => settled_between _
  | .array (v :: vs) => by
    have hopen : Lexer.feed ⟨done, .between⟩ '[' = ⟨.openArray :: done, .between⟩ := rfl
    have hclose : ∀ done, Lexer.feed ⟨done, .between⟩ ']' = ⟨.closeArray :: done, .between⟩ := fun _ => rfl
    have hitems := settled_itemChars (level + 1) vs (settled_chars (level + 1) (.openArray :: done) v)
    simp only [Value.chars, Value.tokens, List.cons_append, List.append_assoc, List.foldl_cons,
      List.foldl_append, hopen, foldl_feed_lineStart (settled_between _)]
    rw [foldl_feed_lineStart hitems, List.foldl_nil, hclose]
    simpa using settled_between _
  | .object [] => settled_between _
  | .object ((key, v) :: members) => by
    have hopen : Lexer.feed ⟨done, .between⟩ '\x7b' = ⟨.openObject :: done, .between⟩ := rfl
    have hcolon : ∀ done, Lexer.feed (Lexer.feed ⟨done, .between⟩ ':') ' ' = ⟨.colon :: done, .between⟩ :=
      fun _ => rfl
    have hclose : ∀ done, Lexer.feed ⟨done, .between⟩ '\x7d' = ⟨.closeObject :: done, .between⟩ := fun _ => rfl
    have hmembers := settled_memberChars (level + 1) members
      (settled_chars (level + 1) (.colon :: .scalar (.string (some key)) :: .openObject :: done) v)
    simp only [Value.chars, Value.tokens, List.cons_append, List.append_assoc, List.foldl_cons,
      List.foldl_append, hopen,
      foldl_feed_lineStart (settled_between _), foldl_feed_quoted, List.foldl_nil, hcolon, List.nil_append]
    rw [foldl_feed_lineStart hmembers, hclose]
    simpa using settled_between _

theorem settled_itemChars (level : Nat) : ∀ (vs : List Value) {lexer : Lexer} {done : List Token},
    lexer.Settled done →
      ((Value.itemChars level vs).foldl Lexer.feed lexer).Settled ((Value.itemTokens vs).reverse ++ done)
  | [], _, _, h => h
  | v :: vs, lexer, done, h => by
    have hcomma : Lexer.begin done ',' = ⟨.comma :: done, .between⟩ := rfl
    have hitems := settled_itemChars level vs (settled_chars level (.comma :: done) v)
    simp only [Value.itemChars, Value.itemTokens, List.cons_append, List.append_assoc, List.foldl_cons,
      List.foldl_append, h.feed ',' (.inl rfl), hcomma, foldl_feed_lineStart (settled_between _)]
    simpa using hitems

theorem settled_memberChars (level : Nat) : ∀ (members : List (String × Value)) {lexer : Lexer} {done : List Token},
    lexer.Settled done →
      ((Value.memberChars level members).foldl Lexer.feed lexer).Settled ((Value.memberTokens members).reverse ++ done)
  | [], _, _, h => h
  | (key, v) :: members, lexer, done, h => by
    have hcomma : Lexer.begin done ',' = ⟨.comma :: done, .between⟩ := rfl
    have hcolon : ∀ done, Lexer.feed (Lexer.feed ⟨done, .between⟩ ':') ' ' = ⟨.colon :: done, .between⟩ :=
      fun _ => rfl
    have hmembers := settled_memberChars level members
      (settled_chars level (.colon :: .scalar (.string (some key)) :: .comma :: done) v)
    simp only [Value.memberChars, Value.memberTokens, List.cons_append, List.append_assoc, List.foldl_cons,
      List.foldl_append, h.feed ',' (.inl rfl), hcomma, foldl_feed_lineStart (settled_between _), foldl_feed_quoted,
      hcolon, List.nil_append]
    simpa using hmembers

end

/-- **The text of a value is read as the tokens of the value.** -/
theorem tokens_pretty (v : Value) : tokens v.pretty.toList = v.tokens := by
  rw [tokens, Value.toList_pretty, (settled_chars 0 [] v).finish, List.append_nil, List.reverse_reverse]

theorem tokens_text (n : Number) : tokens n.text = [.scalar (.number n.reread?)] := by
  rw [tokens, (settled_number [] n).finish]; rfl

end ApiCatalog.Json
