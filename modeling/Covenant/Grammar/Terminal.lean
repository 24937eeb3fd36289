import Covenant.Text.Quoted

/-! The terminals of the contract grammar: three classes of text, the blank pattern, and terminals
that are a fixed text each. -/

namespace Covenant

inductive Terminal where
  | name
  | int
  | string
  | wild
  | fnKw
  | structKw
  | enumKw
  | constKw
  | contractKw
  | letKw
  | mutKw
  | returnKw
  | ifKw
  | elseKw
  | whileKw
  | forKw
  | inKw
  | breakKw
  | continueKw
  | trueKw
  | falseKw
  | newKw
  | someKw
  | noneKw
  | okKw
  | errKw
  | matchKw
  | arrow
  | fatArrow
  | eqEq
  | bangEq
  | ltEq
  | gtEq
  | plusPlus
  | andAnd
  | orOr
  | colonColon
  | lbrace
  | rbrace
  | lparen
  | rparen
  | lbracket
  | rbracket
  | lt
  | gt
  | eq
  | plus
  | minus
  | star
  | slash
  | percent
  | bang
  | dot
  | comma
  | semicolon
  | colon
  | endOfInput
  deriving DecidableEq, Repr

namespace Terminal

def words : List Terminal :=
  [wild, fnKw, structKw, enumKw, constKw, contractKw, letKw, mutKw, returnKw, ifKw, elseKw,
   whileKw, forKw, inKw, breakKw, continueKw, trueKw, falseKw, newKw, someKw, noneKw, okKw, errKw,
   matchKw]

def marks : List Terminal :=
  [arrow, fatArrow, eqEq, bangEq, ltEq, gtEq, plusPlus, andAnd, orOr, colonColon, lbrace, rbrace,
   lparen, rparen, lbracket, rbracket, lt, gt, eq, plus, minus, star, slash, percent, bang, dot,
   comma, semicolon, colon]

def all : List Terminal :=
  [name, int, string] ++ words ++ marks ++ [endOfInput]

/-- The text of a terminal that has only one; empty for the others. -/
def spelling : Terminal → String
  | name | int | string | endOfInput => ""
  | wild => "_"
  | fnKw => "fn"
  | structKw => "struct"
  | enumKw => "enum"
  | constKw => "const"
  | contractKw => "contract"
  | letKw => "let"
  | mutKw => "mut"
  | returnKw => "return"
  | ifKw => "if"
  | elseKw => "else"
  | whileKw => "while"
  | forKw => "for"
  | inKw => "in"
  | breakKw => "break"
  | continueKw => "continue"
  | trueKw => "true"
  | falseKw => "false"
  | newKw => "new"
  | someKw => "Some"
  | noneKw => "None"
  | okKw => "Ok"
  | errKw => "Err"
  | matchKw => "match"
  | arrow => "->"
  | fatArrow => "=>"
  | eqEq => "=="
  | bangEq => "!="
  | ltEq => "<="
  | gtEq => ">="
  | plusPlus => "++"
  | andAnd => "&&"
  | orOr => "||"
  | colonColon => "::"
  | lbrace => "\x7b"
  | rbrace => "\x7d"
  | lparen => "("
  | rparen => ")"
  | lbracket => "["
  | rbracket => "]"
  | lt => "<"
  | gt => ">"
  | eq => "="
  | plus => "+"
  | minus => "-"
  | star => "*"
  | slash => "/"
  | percent => "%"
  | bang => "!"
  | dot => "."
  | comma => ","
  | semicolon => ";"
  | colon => ":"

def chars (t : Terminal) : List Char := t.spelling.toList

def describe : Terminal → String
  | name => "NAME"
  | int => "INT"
  | string => "STRING"
  | endOfInput => "$END"
  | t => Text.quote t.spelling

/-- Terminals that leave a leaf in the parse tree; the others only mark a place. -/
def isKept : Terminal → Bool
  | name | int | string | wild => true
  | _ => false

end Terminal

end Covenant
