import RtlFlow.Text.Lines

/-!
# The lexemes of Verilog

A rule recognises one class of lexeme at the front of a text and gives the number of characters
that it takes. The rules are tried in a fixed order and the first that applies decides; inside
the classes of operators the longer ones stand before the shorter ones.
-/

namespace RtlFlow.Verilog

structure Token where
  kind : String
  text : String
  line : Nat
  pos : Nat
deriving DecidableEq, Repr, Inhabited

/-! ## Words -/

def keywords : List (String × String) :=
  [("module", "MODULE"), ("endmodule", "ENDMODULE"), ("begin", "BEGIN"), ("end", "END"),
   ("generate", "GENERATE"), ("endgenerate", "ENDGENERATE"), ("genvar", "GENVAR"),
   ("function", "FUNCTION"), ("endfunction", "ENDFUNCTION"), ("task", "TASK"),
   ("endtask", "ENDTASK"), ("input", "INPUT"), ("inout", "INOUT"), ("output", "OUTPUT"),
   ("tri", "TRI"), ("reg", "REG"), ("wire", "WIRE"), ("integer", "INTEGER"), ("real", "REAL"),
   ("signed", "SIGNED"), ("parameter", "PARAMETER"), ("localparam", "LOCALPARAM"),
   ("supply0", "SUPPLY0"), ("supply1", "SUPPLY1"), ("assign", "ASSIGN"), ("always", "ALWAYS"),
   ("or", "SENS_OR"), ("posedge", "POSEDGE"), ("negedge", "NEGEDGE"), ("initial", "INITIAL"),
   ("if", "IF"), ("else", "ELSE"), ("for", "FOR"), ("while", "WHILE"), ("case", "CASE"),
   ("casex", "CASEX"), ("casez", "CASEZ"), ("endcase", "ENDCASE"), ("default", "DEFAULT"),
   ("wait", "WAIT"), ("forever", "FOREVER"), ("disable", "DISABLE"), ("fork", "FORK"),
   ("join", "JOIN")]

def wordKind (w : String) : String := (keywords.lookup w).getD "ID"

def marks : List (String × String) :=
  [("<<<", "LSHIFTA"), (">>>", "RSHIFTA"), ("===", "EQL"), ("!==", "NEL"),
   ("||", "LOR"), ("&&", "LAND"), ("**", "POWER"), ("~|", "NOR"), ("~&", "NAND"),
   ("~^", "XNOR"), ("+:", "PLUSCOLON"), ("-:", "MINUSCOLON"), ("<<", "LSHIFT"),
   (">>", "RSHIFT"), ("==", "EQ"), ("!=", "NE"), ("<=", "LE"), (">=", "GE"),
   ("|", "OR"), ("&", "AND"), ("^", "XOR"), ("!", "LNOT"), ("~", "NOT"), ("<", "LT"),
   (">", "GT"), ("+", "PLUS"), ("-", "MINUS"), ("*", "TIMES"), ("/", "DIVIDE"), ("%", "MOD"),
   ("?", "COND"), ("=", "EQUALS"), ("@", "AT"), (",", "COMMA"), (";", "SEMICOLON"),
   (":", "COLON"), (".", "DOT"), ("(", "LPAREN"), (")", "RPAREN"), ("[", "LBRACKET"),
   ("]", "RBRACKET"), ("\x7b", "LBRACE"), ("\x7d", "RBRACE"), ("#", "DELAY"),
   ("$", "DOLLER")]

/-! ## Parts of lexemes -/

def run (p : Char → Bool) (cs : List Char) : Nat := (cs.takeWhile p).length

def throughLineFeed : List Char → Option Nat
  | [] => none
  | c :: cs => if c = '\n' then some 1 else (throughLineFeed cs).map (· + 1)

def throughCommentEnd : List Char → Option Nat
  | '*' :: '/' :: _ => some 2
  | _ :: cs => (throughCommentEnd cs).map (· + 1)
  | [] => none

/-- The length of the rest of a string literal with its closing quote. A backslash takes the
character after it along, which has to be a letter, an octal digit or one of `\ ? ' "`. -/
def throughQuote : List Char → Option Nat
  | '"' :: _ => some 1
  | '\\' :: c :: cs =>
    if c.isAlpha || ('0' ≤ c && c ≤ '7') || c = '\\' || c = '?' || c = '\'' || c = '"' then
      (throughQuote cs).map (· + 2)
    else none
  | '\\' :: [] => none
  | c :: cs => if c = '\n' then none else (throughQuote cs).map (· + 1)
  | [] => none

/-- A stretch of a lexeme: characters of one class, at most one unless it repeats. Where it is
needed, it has at least one. -/
structure Stretch where
  is : Char → Bool
  needed : Bool
  repeats : Bool

namespace Stretch

def one (p : Char → Bool) : Stretch := ⟨p, true, false⟩

def opt (p : Char → Bool) : Stretch := ⟨p, false, false⟩

def many (p : Char → Bool) : Stretch := ⟨p, true, true⟩

def any (p : Char → Bool) : Stretch := ⟨p, false, true⟩

def reach (t : Stretch) (cs : List Char) : Nat := run t.is (if t.repeats then cs else cs.take 1)

end Stretch

/-- The length of some stretches one after the other. None of them gives a character back. -/
def spell : List Stretch → List Char → Option Nat
  | [], _ => some 0
  | t :: ts, cs =>
    if t.needed && t.reach cs = 0 then none
    else (spell ts (cs.drop (t.reach cs))).map (t.reach cs + ·)

/-- The length by the first of some ways to spell a lexeme that applies. -/
def spellAny (ways : List (List Stretch)) (cs : List Char) : Option Nat := ways.findSome? (spell · cs)

def isOpenDigit (c : Char) : Bool := c = 'x' || c = 'X' || c = 'z' || c = 'Z' || c = '?'

def letter (lower upper : Char) (c : Char) : Bool := c = lower || c = upper

def isBinDigit (c : Char) : Bool := c = '0' || c = '1' || isOpenDigit c

def isOctDigit (c : Char) : Bool := ('0' ≤ c && c ≤ '7') || isOpenDigit c

def isDecDigit (c : Char) : Bool := c.isDigit || isOpenDigit c

def isHexDigit (c : Char) : Bool :=
  c.isDigit || ('a' ≤ c && c ≤ 'f') || ('A' ≤ c && c ≤ 'F') || isOpenDigit c

def signLetter : Char → Bool := letter 's' 'S'

/-- A number with a base: digits, a quote, the letters of the base, a first digit, and further
digits and underscores. `base` holds the classes of the letters after the quote. -/
def basedNumber (base : List (Char → Bool)) (first digit : Char → Bool) : List Stretch :=
  .any Char.isDigit :: .one (· = '\'') ::
    (base.map .one ++ [.one first, .any fun c => digit c || c = '_'])

def exponent : List Stretch :=
  [.one (letter 'e' 'E'), .opt (letter '+' '-'), .many Char.isDigit]

/-- A number with a point and a digit beside it, or with an exponent. -/
def realNumber : List (List Stretch) :=
  let digits := Stretch.many Char.isDigit
  let point := Stretch.one (· = '.')
  let fraction := [digits, point, .any Char.isDigit]
  [fraction ++ exponent, fraction, [point, digits] ++ exponent, [point, digits], digits :: exponent]

def decimalNumber : List (List Stretch) :=
  [basedNumber [letter 'd' 'D'] isDecDigit isDecDigit,
   [.one Char.isDigit, .any fun c => c.isDigit || c = '_']]

/-- An identifier: a backslash and all characters up to the next blank, of which there is at least
one, or a letter or underscore and then also digits and `$`. -/
def identifier : List (List Stretch) :=
  [[.one (· = '\\'), .many fun c => !Text.isBlank c],
   [.one fun c => c.isAlpha || c = '_', .any fun c => c.isAlphanum || c = '_' || c = '$']]

def mark (m : List Char) (cs : List Char) : Option Nat :=
  if m.isPrefixOf cs then some m.length else none

/-! ## Rules -/

inductive Role where
  | token (kind : String)
  | word
  | directive
  | skipped
deriving DecidableEq, Repr, Inhabited

structure Rule where
  role : Role
  length? : List Char → Option Nat

def openRules : List Rule :=
  [⟨.directive, fun cs => match cs with
      | '`' :: rest => (throughLineFeed rest).map (· + 1)
      | _ => none⟩,
   ⟨.skipped, fun cs => match cs with
      | '/' :: '/' :: rest => (throughLineFeed rest).map (· + 2)
      | _ => none⟩,
   ⟨.skipped, fun cs => match cs with
      | '/' :: '*' :: rest => (throughCommentEnd rest).map (· + 2)
      | _ => none⟩,
   ⟨.token "STRING_LITERAL", fun cs => match cs with
      | '"' :: rest => (throughQuote rest).map (· + 1)
      | _ => none⟩,
   ⟨.token "FLOATNUMBER", spellAny realNumber⟩,
   ⟨.token "SIGNED_INTNUMBER_BIN", spell (basedNumber [signLetter, letter 'b' 'B']
      (fun c => isBinDigit c && c ≠ 'X') isBinDigit)⟩,
   ⟨.token "INTNUMBER_BIN", spell (basedNumber [letter 'b' 'B']
      isBinDigit isBinDigit)⟩,
   ⟨.token "SIGNED_INTNUMBER_OCT", spell (basedNumber [signLetter, letter 'o' 'O']
      isOctDigit isOctDigit)⟩,
   ⟨.token "INTNUMBER_OCT", spell (basedNumber [letter 'o' 'O']
      isOctDigit isOctDigit)⟩,
   ⟨.token "SIGNED_INTNUMBER_HEX", spell (basedNumber [signLetter, letter 'h' 'H']
      isHexDigit isHexDigit)⟩,
   ⟨.token "INTNUMBER_HEX", spell (basedNumber [letter 'h' 'H']
      isHexDigit isHexDigit)⟩,
   ⟨.token "SIGNED_INTNUMBER_DEC", spell (basedNumber [signLetter, letter 'd' 'D']
      isDecDigit isDecDigit)⟩,
   ⟨.token "INTNUMBER_DEC", spellAny decimalNumber⟩,
   ⟨.word, spellAny identifier⟩,
   ⟨.skipped, fun cs => match run (· = '\n') cs with
      | 0 => none
      | n => some n⟩]

def rules : List Rule :=
  openRules ++ marks.map fun (m, kind) => ⟨.token kind, mark m.toList⟩

/-- The first rule that applies at the front of a text, and the length of its lexeme. -/
def firstMatch (cs : List Char) : Option (Role × Nat) :=
  rules.findSome? fun r => (r.length? cs).map fun n => (r.role, n)

end RtlFlow.Verilog
