import Rmdb.Lib.Scanner
import Rmdb.Parser.Datetime
import Rmdb.Parser.ValueInt
import Rmdb.Parser.StatementTokens

namespace Rmdb

open Lib IndexScan

/-!
# The lexer (`parser/lex.l`)

The rules in the order of the source.  The start condition outlives the text: `yy_scan_string` does not set
it back, so that a comment which is open at the end of a text goes on in the next one.

* `Lexer.rules` — the rules;
* `Lexer.yylex` — the tokens of a text, and the state behind it;
* `Lexer.yylex_comment` — a comment is skipped;
* `Lexer.yylex_unclosed` — texts that a comment swallows.
-/

/-- The start conditions. -/
inductive StartCondition where
  | INITIAL
  | STATE_COMMENT
  deriving DecidableEq, Repr

/-- What the scanner keeps between two texts. -/
structure LexState where
  start : StartCondition
  output2file : Bool
  deriving DecidableEq, Repr

/-- What a call of `yylex` can throw. -/
inductive YylexError where
  | lex (e : LexError)
  | datetime (e : DatetimeError)
  deriving DecidableEq, Repr

/-- A result of `yylex`. -/
abbrev LexToken := Except YylexError Yacc.Token

/-- A rule of the scanner. -/
abbrev LexRule := ScanRule UInt8 LexState LexToken

namespace Lexer

/-! ### Definitions -/

/-- The bytes as a string. -/
def byteText (l : List UInt8) : String := String.ofList (l.map fun b => Char.ofNat b.toNat)

/-- All bytes. -/
def bytes : List UInt8 := (List.range 256).map UInt8.ofNat

def isAlpha (b : UInt8) : Bool := 65 ≤ b.toNat && b.toNat ≤ 90 || 97 ≤ b.toNat && b.toNat ≤ 122

/-- `tolower`. -/
def toLower (b : UInt8) : UInt8 := if 65 ≤ b.toNat && b.toNat ≤ 90 then UInt8.ofNat (b.toNat + 32) else b

/-- A text of the source. -/
def literal (s : String) : RegularExpression UInt8 := word (textBytes s)

/-- A text of the source under `%option caseless`. -/
def caseless (s : String) : RegularExpression UInt8 :=
  sequence ((textBytes s).map fun c => anyOf (bytes.filter fun b => toLower b = toLower c))

def alpha : RegularExpression UInt8 := anyOf (bytes.filter isAlpha)

def digit : RegularExpression UInt8 := anyOf (bytes.filter isDigit)

def whiteSpace : RegularExpression UInt8 := many (anyOf (textBytes " \t"))

def newLine : RegularExpression UInt8 := literal "\r" + (literal "\n" + literal "\r\n")

def sign : RegularExpression UInt8 := literal "+" + literal "-"

def identifier : RegularExpression UInt8 := alpha * .star (literal "_" + (alpha + digit))

def valueIntPattern : RegularExpression UInt8 := (1 + sign) * many digit

def valueFloatPattern : RegularExpression UInt8 := (1 + sign) * (many digit * (literal "." * (1 + many digit)))

def datetimeBody : RegularExpression UInt8 :=
  sequence [digit, digit, digit, digit, literal "-", digit, digit, literal "-", digit, digit, whiteSpace, digit,
    digit, literal ":", digit, digit, literal ":", digit, digit]

/-- A pattern between quotes. -/
def quotedPattern (P : RegularExpression UInt8) : RegularExpression UInt8 := literal "'" * (P * literal "'")

def valueDatetimePattern : RegularExpression UInt8 := quotedPattern datetimeBody

/-- One byte that is none of these. -/
def noneOf (s : String) : RegularExpression UInt8 := anyOf (bytes.filter fun b => b ∉ textBytes s)

def valueStringPattern : RegularExpression UInt8 := quotedPattern (.star (noneOf "'"))

/-- `single_op`, with the symbols of the characters.  The grammar does not know the `+`. -/
def singleOps : List (String × Yacc.Token) :=
  [(";", .plain .semicolon (.refl true)), ("(", .plain .lparen (.refl true)),
    (")", .plain .rparen (.refl true)), (",", .plain .comma (.refl true)), ("*", .plain .star (.refl true)),
    ("=", .plain .equal (.refl true)), (">", .plain .greater (.refl true)), ("<", .plain .less (.refl true)),
    (".", .plain .dot (.refl true)), ("/", .plain .slash (.refl true)), ("+", .plain .YYUNDEF (.refl true))]

/-- The keywords. -/
def keywords : List (String × Yacc.Token) :=
  [("LOAD", .plain .LOAD (.refl true)), ("SHOW", .plain .SHOW (.refl true)),
    ("BEGIN", .plain .TXN_BEGIN (.refl true)), ("COMMIT", .plain .TXN_COMMIT (.refl true)),
    ("ABORT", .plain .TXN_ABORT (.refl true)), ("ROLLBACK", .plain .TXN_ROLLBACK (.refl true)),
    ("TABLES", .plain .TABLES (.refl true)), ("CREATE", .plain .CREATE (.refl true)),
    ("TABLE", .plain .TABLE (.refl true)), ("DROP", .plain .DROP (.refl true)),
    ("DESC", .plain .DESC (.refl true)), ("INSERT", .plain .INSERT (.refl true)),
    ("INTO", .plain .INTO (.refl true)), ("VALUES", .plain .VALUES (.refl true)),
    ("DELETE", .plain .DELETE (.refl true)), ("FROM", .plain .FROM (.refl true)),
    ("WHERE", .plain .WHERE (.refl true)), ("UPDATE", .plain .UPDATE (.refl true)),
    ("SET", .plain .SET (.refl true)), ("SELECT", .plain .SELECT (.refl true)),
    ("INT", .plain .INT (.refl true)), ("BIGINT", .plain .BIGINT (.refl true)),
    ("DATETIME", .plain .DATETIME (.refl true)), ("CHAR", .plain .CHAR (.refl true)),
    ("FLOAT", .plain .FLOAT (.refl true)), ("INDEX", .plain .INDEX (.refl true)),
    ("AND", .plain .AND (.refl true)), ("JOIN", .plain .JOIN (.refl true)),
    ("EXIT", .plain .EXIT (.refl true)), ("HELP", .plain .HELP (.refl true)),
    ("ORDER", .plain .ORDER (.refl true)), ("BY", .plain .BY (.refl true)), ("ASC", .plain .ASC (.refl true)),
    ("COUNT", .plain .COUNT (.refl true)), ("MAX", .plain .MAX (.refl true)),
    ("MIN", .plain .MIN (.refl true)), ("SUM", .plain .SUM (.refl true)), ("AS", .plain .AS (.refl true)),
    ("LIMIT", .plain .LIMIT (.refl true))]

/-- The operators of two characters. -/
def operators : List (String × Yacc.Token) :=
  [(">=", .plain .GEQ (.refl true)), ("<=", .plain .LEQ (.refl true)), ("<>", .plain .NEQ (.refl true))]

/-! ### The rules -/

/-- A rule of `INITIAL` that goes on with this state. -/
def skips (pattern : RegularExpression UInt8) (next : LexState → LexState) : LexRule where
  active s := s.start = .INITIAL
  pattern := pattern
  action _ s := (next s, none)

/-- A rule of `STATE_COMMENT`. -/
def skipsComment (pattern : RegularExpression UInt8) (next : LexState → LexState) : LexRule where
  active s := s.start = .STATE_COMMENT
  pattern := pattern
  action _ s := (next s, none)

/-- A rule of `INITIAL` that returns a token. -/
def returns (pattern : RegularExpression UInt8) (token : List UInt8 → Option LexToken) : LexRule where
  active s := s.start = .INITIAL
  pattern := pattern
  action yytext s := (s, token yytext)

/-- `BEGIN(STATE_COMMENT)`. -/
def commentBegin : LexRule := skips (literal "/*") fun s => { s with start := .STATE_COMMENT }

/-- `BEGIN(INITIAL)`. -/
def commentEnd : LexRule := skipsComment (literal "*/") fun s => { s with start := .INITIAL }

def lineComment : LexRule := skips (literal "--" * .star (noneOf "\n")) id

def commentRules : List LexRule :=
  [commentBegin, commentEnd,
    skipsComment (noneOf "*") id,
    skipsComment (literal "*") id, lineComment]

def whiteSpaceRule : LexRule := skips whiteSpace id

def newLineRule : LexRule := skips newLine id

def outputFileRule : LexRule :=
  skips (caseless "set output_file off") fun s => { s with output2file := false }

def blankRules : List LexRule := [whiteSpaceRule, newLineRule, outputFileRule]

def keywordRule (p : String × Yacc.Token) : LexRule := returns (caseless p.1) fun _ => some (.ok p.2)

def operatorRule (p : String × Yacc.Token) : LexRule := returns (literal p.1) fun _ => some (.ok p.2)

/-- `return yytext[0];`. -/
def singleOpRule : LexRule :=
  returns (choice (singleOps.map fun p => literal p.1)) fun yytext =>
    (singleOps.find? fun p => textBytes p.1 = yytext.take 1).map fun p => .ok p.2

def identifierRule : LexRule := returns identifier fun yytext => some (.ok (.identifier (byteText yytext)))

/-- The token of the action of `value_int`. -/
def intToken : Rmdb.Token → Yacc.Token
  | .valueInt n => .valueInt n
  | .valueBigint n => .valueBigint n

def valueIntRule : LexRule := returns valueIntPattern fun yytext =>
  some (((valueInt yytext).mapError .lex).map intToken)

/-- The text between the quotes. -/
def unquoted (yytext : List UInt8) : List UInt8 := (yytext.drop 1).take (yytext.length - 2)

def valueDatetimeRule : LexRule := returns valueDatetimePattern fun yytext =>
  some (((Datetime.toBcd (unquoted yytext)).mapError .datetime).map fun s => .valueDatetime (byteText s))

def valueStringRule : LexRule := returns valueStringPattern fun yytext =>
  some (.ok (.valueString (byteText (unquoted yytext))))

/-- `.`: an unexpected character is reported and left out. -/
def otherRule : LexRule := skips (noneOf "\n") id

/-- `atof` makes the pattern of a float of a text. -/
def valueFloatRule (atof : List UInt8 → Nat) : LexRule :=
  returns valueFloatPattern fun yytext => some (.ok (.valueFloat (atof yytext)))

/-- The rules behind those of comments. -/
def initialRules (atof : List UInt8 → Nat) : List LexRule :=
  blankRules ++ (keywords.map keywordRule ++ (operators.map operatorRule ++
    [singleOpRule, identifierRule, valueIntRule, valueFloatRule atof, valueDatetimeRule, valueStringRule,
      otherRule]))

/-- The rules. -/
def rules (atof : List UInt8 → Nat) : List LexRule := commentRules ++ initialRules atof

/-- What `yylex` returns from one call to the next, up to `T_EOF`, and the state that is left. -/
def yylex (atof : List UInt8 → Nat) (s : LexState) (text : List UInt8) : List LexToken × LexState :=
  Scanner.scan (rules atof) (.ok (.plain .T_EOF rfl)) s text

/-! ### Comments -/

section Comments

open Scanner

variable {atof : List UInt8 → Nat} {s : LexState} {w rest : List UInt8}

theorem mem_literal {t : String} : w ∈ (literal t).matches' ↔ w = textBytes t := mem_word

theorem mem_bytes (b : UInt8) : b ∈ bytes :=
  List.mem_map.mpr ⟨b.toNat, List.mem_range.mpr b.toNat_lt, UInt8.ofNat_toNat⟩

theorem mem_noneOf {t : String} : w ∈ (noneOf t).matches' ↔ ∃ b, b ∉ textBytes t ∧ w = [b] := by
  rw [noneOf, mem_anyOf]
  simp [mem_bytes]

theorem initialRules_active {r : LexRule} (hr : r ∈ initialRules atof) (h : r.active s = true) :
    s.start = .INITIAL := by
  simp only [initialRules, blankRules, List.mem_append, List.mem_map, List.mem_cons, List.not_mem_nil,
    or_false] at hr
  rcases hr with (rfl | rfl | rfl) | ⟨p, -, rfl⟩ | ⟨p, -, rfl⟩ | rfl | rfl | rfl | rfl | rfl | rfl | rfl <;>
    exact of_decide_eq_true h

/-- Within a comment only its own rules are active. -/
theorem ruleFor_comment (hs : s.start = .STATE_COMMENT) :
    ruleFor (rules atof) s w = ruleFor commentRules s w := by
  have hrest : ruleFor (initialRules atof) s w = none := ruleFor_eq_none fun r hr hactive =>
    absurd ((initialRules_active hr hactive).symm.trans hs) (by decide)
  rw [rules, ruleFor_append, hrest, Option.or_none]

/-- The rule that a comment ends with. -/
theorem ruleFor_comment_end (hs : s.start = .STATE_COMMENT) : ruleFor (rules atof) s (textBytes "*/") =
    some commentEnd := by
  rw [ruleFor_comment hs, commentRules, ruleFor_cons_of_notMem, ruleFor_cons_of_mem]
  · exact decide_eq_true hs
  · exact mem_literal.mpr rfl
  · intro hactive
    exact absurd ((of_decide_eq_true hactive).symm.trans hs) (by decide)

/-- Nothing else of two bytes is matched within a comment. -/
theorem ruleFor_comment_none (hs : s.start = .STATE_COMMENT) (hlen : 2 ≤ w.length) (hend : w ≠ textBytes "*/") :
    ruleFor (rules atof) s w = none := by
  rw [ruleFor_comment hs]
  refine ruleFor_eq_none fun r hr hactive hw => ?_
  simp only [commentRules, List.mem_cons, List.not_mem_nil, or_false] at hr
  rcases hr with rfl | rfl | rfl | rfl | rfl
  · exact absurd ((of_decide_eq_true hactive).symm.trans hs) (by decide)
  · exact hend (mem_literal.mp hw)
  · obtain ⟨b, -, rfl⟩ := mem_noneOf.mp hw
    exact absurd hlen (Nat.lt_irrefl 1)
  · obtain rfl := mem_literal.mp hw
    exact absurd hlen (by decide)
  · exact absurd ((of_decide_eq_true hactive).symm.trans hs) (by decide)

/-- One byte within a comment is skipped. -/
theorem ruleFor_comment_one (hs : s.start = .STATE_COMMENT) (b : UInt8) :
    ∃ p, ruleFor (rules atof) s [b] = some (skipsComment p id) := by
  have hbegin : commentBegin.active s = true → [b] ∉ commentBegin.pattern.matches' := fun hactive =>
    absurd ((of_decide_eq_true hactive).symm.trans hs) (by decide)
  rw [ruleFor_comment hs, commentRules, ruleFor_cons_of_notMem hbegin, ruleFor_cons_of_notMem]
  -- a star has a rule of its own
  · by_cases hb : b ∈ textBytes "*"
    · refine ⟨literal "*", ?_⟩
      obtain rfl : b = 42 := List.mem_singleton.mp hb
      rw [ruleFor_cons_of_notMem, ruleFor_cons_of_mem]
      · exact decide_eq_true hs
      · exact mem_literal.mpr rfl
      · intro _ hmatch
        obtain ⟨c, hc, heq⟩ := mem_noneOf.mp hmatch
        exact hc ((List.cons.inj heq).1 ▸ hb)
    · exact ⟨noneOf "*", ruleFor_cons_of_mem (decide_eq_true hs) (mem_noneOf.mpr ⟨b, hb, rfl⟩)⟩
  · intro _ hmatch
    have hlen : 1 = 2 := congrArg List.length (mem_literal.mp hmatch)
    omega

/-- The bytes of a comment are skipped, up to its end. -/
theorem yylex_comment_byte (hs : s.start = .STATE_COMMENT) {b : UInt8}
    (hend : ¬ textBytes "*/" <+: b :: rest) : yylex atof s (b :: rest) = yylex atof s rest := by
  obtain ⟨p, hp⟩ : ∃ p, ruleFor (rules atof) s [b] = some (skipsComment p id) := ruleFor_comment_one hs b
  have hcuts : Cuts (rules atof) s [b] rest (skipsComment p id) := by
    refine ⟨List.cons_ne_nil b [], hp, fun u hne hu => ?_⟩
    have hlen := List.length_pos_iff.mpr hne
    refine ruleFor_comment_none hs (by rw [List.length_append, List.length_singleton]; omega) fun heq => ?_
    have hprefix : [b] ++ u <+: b :: rest := (List.prefix_append_right_inj [b]).mpr hu
    exact hend (heq ▸ hprefix)
  exact scan_of_cuts hcuts

/-- The end of a comment. -/
theorem yylex_comment_end (hs : s.start = .STATE_COMMENT) :
    yylex atof s (textBytes "*/" ++ rest) = yylex atof { s with start := .INITIAL } rest := by
  have hcuts : Cuts (rules atof) s (textBytes "*/") rest commentEnd := by
    refine ⟨List.cons_ne_nil _ _, ruleFor_comment_end hs, fun u hne hu => ?_⟩
    have hlen := List.length_pos_iff.mpr hne
    refine ruleFor_comment_none hs (by rw [List.length_append]; exact Nat.le_add_right 2 _) fun heq => ?_
    have hsame := congrArg List.length heq
    rw [List.length_append] at hsame
    omega
  exact scan_of_cuts hcuts

/-- **A comment that is not closed swallows the text.** -/
theorem yylex_unclosed (hs : s.start = .STATE_COMMENT) {text : List UInt8} (h : ¬ textBytes "*/" <:+: text) :
    yylex atof s text = ([.ok (.plain .T_EOF rfl)], s) := by
  induction text with
  | nil => rfl
  | cons b text ih =>
    rw [yylex_comment_byte hs fun hprefix => h hprefix.isInfix]
    exact ih fun hwithin => h (hwithin.trans (List.suffix_cons b text).isInfix)

/-- **A comment is skipped**, up to the first end. -/
theorem yylex_comment (hs : s.start = .STATE_COMMENT) {text : List UInt8}
    (h : ¬ textBytes "*/" <:+: text ++ textBytes "*") :
    yylex atof s (text ++ (textBytes "*/" ++ rest)) = yylex atof { s with start := .INITIAL } rest := by
  induction text with
  | nil => exact yylex_comment_end hs
  | cons b text ih =>
    rw [List.cons_append, yylex_comment_byte hs, ih]
    · exact fun hwithin => h (hwithin.trans (List.suffix_cons b _).isInfix)
    · intro hprefix
      -- an end that begins here would end in the text or with the star behind it
      obtain ⟨rfl, htail⟩ := List.cons_prefix_cons.mp hprefix
      cases text with
      | nil => exact absurd (List.cons_prefix_cons.mp htail).1 (by decide)
      | cons c text =>
        obtain ⟨rfl, -⟩ := List.cons_prefix_cons.mp htail
        exact h (List.prefix_append (textBytes "*/") _).isInfix

theorem yylex_comment_stars : yylex (fun _ => 0) ⟨.STATE_COMMENT, true⟩
    (textBytes "** a" ++ (textBytes "*/" ++ textBytes "t")) =
      yylex (fun _ => 0) ⟨.INITIAL, true⟩ (textBytes "t") :=
  yylex_comment (s := ⟨.STATE_COMMENT, true⟩) rfl (by decide)

end Comments

end Lexer

end Rmdb
