import Covenant.Grammar.Lalr
import Covenant.Grammar.Terminal

/-! The grammar of contracts, and the shapes that its rules build. -/

namespace Covenant

inductive Nonterminal where
  | goal
  | start
  | item
  | contractDef
  | contractField
  | contractItem
  | fnDef
  | resultType
  | params
  | param
  | structDef
  | fieldDecl
  | enumDef
  | constDef
  | typeExpr
  | block
  | stmt
  | elseIf
  | elseClause
  | expr
  | orExpr
  | andExpr
  | equality
  | comparison
  | sum
  | product
  | unary
  | suffixed
  | args
  | atom
  | fieldInit
  | arm
  | armBody
  | pattern
  | binder
  | items
  | contractFields
  | contractItems
  | moreParams
  | moreFields
  | moreVariants
  | stmts
  | elseIfs
  | moreArgs
  | moreInits
  | moreArms
  deriving DecidableEq, Repr

def Nonterminal.count : Nat := Nonterminal.moreArms.ctorIdx + 1

inductive Form where
  | program
  | contractDef
  | contractField
  | fnDef
  | resultType
  | params
  | param
  | structDef
  | fieldDecl
  | enumDef
  | constDef
  | simpleType
  | genericType
  | block
  | letStmt
  | assignStmt
  | returnStmt
  | ifStmt
  | elseIf
  | elseClause
  | whileStmt
  | forStmt
  | breakStmt
  | continueStmt
  | exprStmt
  | orOp
  | andOp
  | eqOp
  | neOp
  | ltOp
  | gtOp
  | leOp
  | geOp
  | addOp
  | subOp
  | concatOp
  | mulOp
  | divOp
  | remOp
  | negOp
  | notOp
  | methodCall
  | fieldAccess
  | index
  | args
  | intLit
  | stringLit
  | trueLit
  | falseLit
  | enumValue
  | call
  | var
  | arrayLit
  | recordLit
  | fieldInit
  | someExpr
  | noneExpr
  | okExpr
  | errExpr
  | matchExpr
  | arm
  | armBlock
  | intPattern
  | negIntPattern
  | truePattern
  | falsePattern
  | stringPattern
  | wildPattern
  | enumPattern
  | bindPattern
  | somePattern
  | nonePattern
  | okPattern
  | errPattern
  | binder
  deriving DecidableEq, Repr

/-- What a rule does with its parts: build a node, hand on its only part, or hand on all its parts
to the rule that uses it. -/
inductive Action where
  | node (form : Form)
  | pass
  | splice
  deriving DecidableEq, Repr

inductive GSym where
  | t (terminal : Terminal)
  | n (nonterminal : Nonterminal)
  deriving DecidableEq, Repr

structure Production where
  lhs : Nonterminal
  rhs : List GSym
  action : Action
  deriving DecidableEq, Repr

namespace Production

open Nonterminal in
def declarations : List Production :=
  [⟨goal, [.n start], .pass⟩,
   ⟨start, [.n items], .node .program⟩,
   ⟨start, [], .node .program⟩,
   ⟨item, [.n fnDef], .pass⟩,
   ⟨item, [.n structDef], .pass⟩,
   ⟨item, [.n enumDef], .pass⟩,
   ⟨item, [.n constDef], .pass⟩,
   ⟨item, [.n contractDef], .pass⟩,
   ⟨contractDef, [.t .contractKw, .t .name, .t .lbrace, .n contractFields, .n contractItems,
      .t .rbrace], .node .contractDef⟩,
   ⟨contractDef, [.t .contractKw, .t .name, .t .lbrace, .n contractFields, .t .rbrace],
      .node .contractDef⟩,
   ⟨contractDef, [.t .contractKw, .t .name, .t .lbrace, .n contractItems, .t .rbrace],
      .node .contractDef⟩,
   ⟨contractDef, [.t .contractKw, .t .name, .t .lbrace, .t .rbrace], .node .contractDef⟩,
   ⟨contractField, [.t .name, .t .colon, .t .string, .t .semicolon], .node .contractField⟩,
   ⟨contractItem, [.n fnDef], .pass⟩,
   ⟨contractItem, [.n structDef], .pass⟩,
   ⟨contractItem, [.n enumDef], .pass⟩,
   ⟨contractItem, [.n constDef], .pass⟩,
   ⟨fnDef, [.t .fnKw, .t .name, .t .lparen, .n params, .t .rparen, .n resultType, .n block],
      .node .fnDef⟩,
   ⟨fnDef, [.t .fnKw, .t .name, .t .lparen, .n params, .t .rparen, .n block], .node .fnDef⟩,
   ⟨fnDef, [.t .fnKw, .t .name, .t .lparen, .t .rparen, .n resultType, .n block], .node .fnDef⟩,
   ⟨fnDef, [.t .fnKw, .t .name, .t .lparen, .t .rparen, .n block], .node .fnDef⟩,
   ⟨resultType, [.t .arrow, .n typeExpr], .node .resultType⟩,
   ⟨params, [.n param, .n moreParams, .t .comma], .node .params⟩,
   ⟨params, [.n param, .n moreParams], .node .params⟩,
   ⟨params, [.n param, .t .comma], .node .params⟩,
   ⟨params, [.n param], .node .params⟩,
   ⟨param, [.t .name, .t .colon, .n typeExpr], .node .param⟩,
   ⟨structDef, [.t .structKw, .t .name, .t .lbrace, .n fieldDecl, .n moreFields, .t .comma,
      .t .rbrace], .node .structDef⟩,
   ⟨structDef, [.t .structKw, .t .name, .t .lbrace, .n fieldDecl, .n moreFields, .t .rbrace],
      .node .structDef⟩,
   ⟨structDef, [.t .structKw, .t .name, .t .lbrace, .n fieldDecl, .t .comma, .t .rbrace],
      .node .structDef⟩,
   ⟨structDef, [.t .structKw, .t .name, .t .lbrace, .n fieldDecl, .t .rbrace],
      .node .structDef⟩,
   ⟨structDef, [.t .structKw, .t .name, .t .lbrace, .t .rbrace], .node .structDef⟩,
   ⟨fieldDecl, [.t .name, .t .colon, .n typeExpr], .node .fieldDecl⟩,
   ⟨enumDef, [.t .enumKw, .t .name, .t .lbrace, .t .name, .n moreVariants, .t .comma, .t .rbrace],
      .node .enumDef⟩,
   ⟨enumDef, [.t .enumKw, .t .name, .t .lbrace, .t .name, .n moreVariants, .t .rbrace],
      .node .enumDef⟩,
   ⟨enumDef, [.t .enumKw, .t .name, .t .lbrace, .t .name, .t .comma, .t .rbrace],
      .node .enumDef⟩,
   ⟨enumDef, [.t .enumKw, .t .name, .t .lbrace, .t .name, .t .rbrace], .node .enumDef⟩,
   ⟨enumDef, [.t .enumKw, .t .name, .t .lbrace, .t .rbrace], .node .enumDef⟩,
   ⟨constDef, [.t .constKw, .t .name, .t .colon, .n typeExpr, .t .eq, .n expr, .t .semicolon],
      .node .constDef⟩,
   ⟨typeExpr, [.t .name], .node .simpleType⟩,
   ⟨typeExpr, [.t .name, .t .lt, .n typeExpr, .t .gt], .node .genericType⟩]

open Nonterminal in
def statements : List Production :=
  [⟨block, [.t .lbrace, .n stmts, .t .rbrace], .node .block⟩,
   ⟨block, [.t .lbrace, .t .rbrace], .node .block⟩,
   ⟨stmt, [.t .letKw, .t .mutKw, .t .name, .t .colon, .n typeExpr, .t .eq, .n expr,
      .t .semicolon], .node .letStmt⟩,
   ⟨stmt, [.t .letKw, .t .mutKw, .t .name, .t .eq, .n expr, .t .semicolon], .node .letStmt⟩,
   ⟨stmt, [.t .letKw, .t .name, .t .colon, .n typeExpr, .t .eq, .n expr, .t .semicolon],
      .node .letStmt⟩,
   ⟨stmt, [.t .letKw, .t .name, .t .eq, .n expr, .t .semicolon], .node .letStmt⟩,
   ⟨stmt, [.n suffixed, .t .eq, .n expr, .t .semicolon], .node .assignStmt⟩,
   ⟨stmt, [.t .returnKw, .n expr, .t .semicolon], .node .returnStmt⟩,
   ⟨stmt, [.t .returnKw, .t .semicolon], .node .returnStmt⟩,
   ⟨stmt, [.t .ifKw, .n expr, .n block, .n elseIfs, .n elseClause], .node .ifStmt⟩,
   ⟨stmt, [.t .ifKw, .n expr, .n block, .n elseIfs], .node .ifStmt⟩,
   ⟨stmt, [.t .ifKw, .n expr, .n block, .n elseClause], .node .ifStmt⟩,
   ⟨stmt, [.t .ifKw, .n expr, .n block], .node .ifStmt⟩,
   ⟨stmt, [.t .whileKw, .n expr, .n block], .node .whileStmt⟩,
   ⟨stmt, [.t .forKw, .t .name, .t .inKw, .n expr, .n block], .node .forStmt⟩,
   ⟨stmt, [.t .breakKw, .t .semicolon], .node .breakStmt⟩,
   ⟨stmt, [.t .continueKw, .t .semicolon], .node .continueStmt⟩,
   ⟨stmt, [.n expr, .t .semicolon], .node .exprStmt⟩,
   ⟨elseIf, [.t .elseKw, .t .ifKw, .n expr, .n block], .node .elseIf⟩,
   ⟨elseClause, [.t .elseKw, .n block], .node .elseClause⟩]

open Nonterminal in
def operators : List Production :=
  [⟨expr, [.n orExpr], .pass⟩,
   ⟨orExpr, [.n andExpr], .pass⟩,
   ⟨orExpr, [.n orExpr, .t .orOr, .n andExpr], .node .orOp⟩,
   ⟨andExpr, [.n equality], .pass⟩,
   ⟨andExpr, [.n andExpr, .t .andAnd, .n equality], .node .andOp⟩,
   ⟨equality, [.n comparison], .pass⟩,
   ⟨equality, [.n equality, .t .eqEq, .n comparison], .node .eqOp⟩,
   ⟨equality, [.n equality, .t .bangEq, .n comparison], .node .neOp⟩,
   ⟨comparison, [.n sum], .pass⟩,
   ⟨comparison, [.n comparison, .t .lt, .n sum], .node .ltOp⟩,
   ⟨comparison, [.n comparison, .t .gt, .n sum], .node .gtOp⟩,
   ⟨comparison, [.n comparison, .t .ltEq, .n sum], .node .leOp⟩,
   ⟨comparison, [.n comparison, .t .gtEq, .n sum], .node .geOp⟩,
   ⟨sum, [.n product], .pass⟩,
   ⟨sum, [.n sum, .t .plus, .n product], .node .addOp⟩,
   ⟨sum, [.n sum, .t .minus, .n product], .node .subOp⟩,
   ⟨sum, [.n sum, .t .plusPlus, .n product], .node .concatOp⟩,
   ⟨product, [.n unary], .pass⟩,
   ⟨product, [.n product, .t .star, .n unary], .node .mulOp⟩,
   ⟨product, [.n product, .t .slash, .n unary], .node .divOp⟩,
   ⟨product, [.n product, .t .percent, .n unary], .node .remOp⟩,
   ⟨unary, [.n suffixed], .pass⟩,
   ⟨unary, [.t .minus, .n unary], .node .negOp⟩,
   ⟨unary, [.t .bang, .n unary], .node .notOp⟩,
   ⟨suffixed, [.n atom], .pass⟩,
   ⟨suffixed, [.n suffixed, .t .dot, .t .name, .t .lparen, .n args, .t .rparen],
      .node .methodCall⟩,
   ⟨suffixed, [.n suffixed, .t .dot, .t .name, .t .lparen, .t .rparen], .node .methodCall⟩,
   ⟨suffixed, [.n suffixed, .t .dot, .t .name], .node .fieldAccess⟩,
   ⟨suffixed, [.n suffixed, .t .lbracket, .n expr, .t .rbracket], .node .index⟩,
   ⟨args, [.n expr, .n moreArgs], .node .args⟩,
   ⟨args, [.n expr], .node .args⟩]

open Nonterminal in
def atoms : List Production :=
  [⟨atom, [.t .int], .node .intLit⟩,
   ⟨atom, [.t .string], .node .stringLit⟩,
   ⟨atom, [.t .trueKw], .node .trueLit⟩,
   ⟨atom, [.t .falseKw], .node .falseLit⟩,
   ⟨atom, [.t .name, .t .colonColon, .t .name], .node .enumValue⟩,
   ⟨atom, [.t .name, .t .lparen, .n args, .t .rparen], .node .call⟩,
   ⟨atom, [.t .name, .t .lparen, .t .rparen], .node .call⟩,
   ⟨atom, [.t .name], .node .var⟩,
   ⟨atom, [.t .lbracket, .n args, .t .rbracket], .node .arrayLit⟩,
   ⟨atom, [.t .lbracket, .t .rbracket], .node .arrayLit⟩,
   ⟨atom, [.t .newKw, .t .name, .t .lbrace, .n fieldInit, .n moreInits, .t .comma, .t .rbrace],
      .node .recordLit⟩,
   ⟨atom, [.t .newKw, .t .name, .t .lbrace, .n fieldInit, .n moreInits, .t .rbrace],
      .node .recordLit⟩,
   ⟨atom, [.t .newKw, .t .name, .t .lbrace, .n fieldInit, .t .comma, .t .rbrace],
      .node .recordLit⟩,
   ⟨atom, [.t .newKw, .t .name, .t .lbrace, .n fieldInit, .t .rbrace], .node .recordLit⟩,
   ⟨atom, [.t .newKw, .t .name, .t .lbrace, .t .rbrace], .node .recordLit⟩,
   ⟨atom, [.t .someKw, .t .lparen, .n expr, .t .rparen], .node .someExpr⟩,
   ⟨atom, [.t .noneKw], .node .noneExpr⟩,
   ⟨atom, [.t .okKw, .t .lparen, .n expr, .t .rparen], .node .okExpr⟩,
   ⟨atom, [.t .errKw, .t .lparen, .n expr, .t .rparen], .node .errExpr⟩,
   ⟨atom, [.t .matchKw, .n expr, .t .lbrace, .n arm, .n moreArms, .t .comma, .t .rbrace],
      .node .matchExpr⟩,
   ⟨atom, [.t .matchKw, .n expr, .t .lbrace, .n arm, .n moreArms, .t .rbrace], .node .matchExpr⟩,
   ⟨atom, [.t .matchKw, .n expr, .t .lbrace, .n arm, .t .comma, .t .rbrace], .node .matchExpr⟩,
   ⟨atom, [.t .matchKw, .n expr, .t .lbrace, .n arm, .t .rbrace], .node .matchExpr⟩,
   ⟨atom, [.t .lparen, .n expr, .t .rparen], .pass⟩,
   ⟨fieldInit, [.t .name, .t .colon, .n expr], .node .fieldInit⟩,
   ⟨arm, [.n pattern, .t .fatArrow, .n armBody], .node .arm⟩,
   ⟨armBody, [.n expr], .pass⟩,
   ⟨armBody, [.t .lbrace, .n stmts, .n expr, .t .rbrace], .node .armBlock⟩,
   ⟨armBody, [.t .lbrace, .n stmts, .t .rbrace], .node .armBlock⟩,
   ⟨armBody, [.t .lbrace, .n expr, .t .rbrace], .node .armBlock⟩,
   ⟨armBody, [.t .lbrace, .t .rbrace], .node .armBlock⟩,
   ⟨pattern, [.t .int], .node .intPattern⟩,
   ⟨pattern, [.t .minus, .t .int], .node .negIntPattern⟩,
   ⟨pattern, [.t .trueKw], .node .truePattern⟩,
   ⟨pattern, [.t .falseKw], .node .falsePattern⟩,
   ⟨pattern, [.t .string], .node .stringPattern⟩,
   ⟨pattern, [.t .wild], .node .wildPattern⟩,
   ⟨pattern, [.t .name, .t .colonColon, .t .name], .node .enumPattern⟩,
   ⟨pattern, [.t .name], .node .bindPattern⟩,
   ⟨pattern, [.t .someKw, .t .lparen, .n binder, .t .rparen], .node .somePattern⟩,
   ⟨pattern, [.t .noneKw], .node .nonePattern⟩,
   ⟨pattern, [.t .okKw, .t .lparen, .n binder, .t .rparen], .node .okPattern⟩,
   ⟨pattern, [.t .errKw, .t .lparen, .n binder, .t .rparen], .node .errPattern⟩,
   ⟨binder, [.t .name], .node .binder⟩,
   ⟨binder, [.t .wild], .node .binder⟩]

open Nonterminal in
def sequences : List Production :=
  [⟨items, [.n item], .splice⟩,
   ⟨items, [.n items, .n item], .splice⟩,
   ⟨contractFields, [.n contractField], .splice⟩,
   ⟨contractFields, [.n contractFields, .n contractField], .splice⟩,
   ⟨contractItems, [.n contractItem], .splice⟩,
   ⟨contractItems, [.n contractItems, .n contractItem], .splice⟩,
   ⟨moreParams, [.t .comma, .n param], .splice⟩,
   ⟨moreParams, [.n moreParams, .t .comma, .n param], .splice⟩,
   ⟨moreFields, [.t .comma, .n fieldDecl], .splice⟩,
   ⟨moreFields, [.n moreFields, .t .comma, .n fieldDecl], .splice⟩,
   ⟨moreVariants, [.t .comma, .t .name], .splice⟩,
   ⟨moreVariants, [.n moreVariants, .t .comma, .t .name], .splice⟩,
   ⟨stmts, [.n stmt], .splice⟩,
   ⟨stmts, [.n stmts, .n stmt], .splice⟩,
   ⟨elseIfs, [.n elseIf], .splice⟩,
   ⟨elseIfs, [.n elseIfs, .n elseIf], .splice⟩,
   ⟨moreArgs, [.t .comma, .n expr], .splice⟩,
   ⟨moreArgs, [.n moreArgs, .t .comma, .n expr], .splice⟩,
   ⟨moreInits, [.t .comma, .n fieldInit], .splice⟩,
   ⟨moreInits, [.n moreInits, .t .comma, .n fieldInit], .splice⟩,
   ⟨moreArms, [.t .comma, .n arm], .splice⟩,
   ⟨moreArms, [.n moreArms, .t .comma, .n arm], .splice⟩]

def all : Array Production :=
  (declarations ++ statements ++ operators ++ atoms ++ sequences).toArray

end Production

def GSym.toSym : GSym → Lalr.Sym
  | .t x => .terminal x.ctorIdx
  | .n x => .nonterminal x.ctorIdx

def contractGrammar : Lalr.Grammar where
  terminals := Terminal.endOfInput.ctorIdx + 1
  nonterminals := Nonterminal.count
  rules := Production.all.map fun p => ⟨p.lhs.ctorIdx, p.rhs.map GSym.toSym⟩

def contractAutomaton : Lalr.Automaton := contractGrammar.automaton

end Covenant
