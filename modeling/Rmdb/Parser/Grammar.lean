import Rmdb.Parser.Ast
import Rmdb.Parser.Lexer
import Rmdb.Lib.Lr

/-!
# The grammar and its tables

The rules of `parser/yacc.y` with their actions, and the tables that Bison made of them
(`parser/yacc.tab.cpp`).  The rules have the numbers of the tables, where the first one is Bison's
own; the rules of `colList`, which no statement has, are not in the tables.  The symbols have the
numbers of `yysymbol_kind_t`.
-/

namespace Rmdb.Yacc

open Lexer Ast

/-! ## Symbols -/

/-- The nonterminals, in the order of their numbers. -/
inductive Nonterm
  | accept | start | stmt | txnStmt | dbStmt | ddl | dml | fieldList | colNameList
  | field | type | valueList | value | condition | optWhereClause | whereClause | col | op
  | expr | setClauses | setClause | selector | selectorList | selectorItem | optAsAlias | tableList
  | opt_order_clause
  | order_clause | order_item | opt_limit_clause | opt_asc_desc | tbName | colName
deriving DecidableEq, Repr

/-- The numbers of the keywords. -/
def keywordKind : Keyword → Fin 59
  | .SHOW =>
    3 | .TXN_BEGIN => 31 | .TXN_COMMIT => 32 | .TXN_ABORT => 33 | .TXN_ROLLBACK => 34 | .TABLES => 4
  | .CREATE => 5 | .TABLE => 6
  | .DROP =>
    7 | .DESC => 8 | .INSERT => 9 | .INTO => 10 | .VALUES => 11 | .DELETE => 12 | .FROM =>
      13 | .WHERE => 17
  | .UPDATE =>
    18 | .SET => 19 | .SELECT => 20 | .INT => 21 | .BIGINT => 22 | .CHAR => 23 | .FLOAT =>
      24 | .DATETIME => 25
  | .INDEX =>
    26 | .AND => 27 | .JOIN => 28 | .EXIT => 29 | .HELP => 30 | .ORDER => 15 | .BY =>
      16 | .ASC => 14
  | .COUNT => 36 | .SUM => 37 | .MAX => 38 | .MIN => 39 | .AS => 40 | .LIMIT => 41

def YYUNDEF : Fin 59 := 2

/-- The number of a character that is a token of its own. -/
def charKind (c : UInt8) : Fin 59 :=
  if c = ';'.toUInt8 then 50 else
  if c = '('.toUInt8 then 51 else
  if c = ')'.toUInt8 then 52 else
  if c = ','.toUInt8 then 53 else
  if c = '.'.toUInt8 then 54 else
  if c = '='.toUInt8 then 55 else
  if c = '<'.toUInt8 then 56 else
  if c = '>'.toUInt8 then 57 else
  if c = '*'.toUInt8 then 58 else
  YYUNDEF

/-- `YYTRANSLATE`. -/
def yytranslate : Token → Fin 59
  | .keyword k => keywordKind k
  | .LEQ => 42
  | .NEQ => 43
  | .GEQ => 44
  | .T_EOF => 45
  | .IDENTIFIER _ => 46
  | .VALUE_STRING _ => 47
  | .VALUE_INT _ => 48
  | .VALUE_FLOAT _ => 49
  | .op c => charKind c

/-! ## Rules -/

/-- How an action ends otherwise: `std::stoi` throws, or it keeps a null pointer. -/
inductive ParseError
  | lit (e : LitError)
  | null
deriving DecidableEq, Repr

/-- The actions, from the values `$1`, `$2` and so on and the value that `$$` has before. -/
abbrev Act := (ℕ → SemValue) → SemValue → Except ParseError SemValue

abbrev Sym := Symbol (Fin 59) Nonterm

structure Rule where
  prod : ContextFreeRule (Fin 59) Nonterm
  act : Act

def n (A : Nonterm) : Sym := .nonterminal A

def t (x : Token) : Sym := .terminal (yytranslate x)

def k (w : Keyword) : Sym := t (.keyword w)

def c (x : Char) : Sym := t (.op x.toUInt8)

def YYEOF : Sym := .terminal 0

def IDENTIFIER : Sym := t (.IDENTIFIER [])

def VALUE_STRING : Sym := t (.VALUE_STRING [])

def VALUE_INT : Sym := t (.VALUE_INT [])

def VALUE_FLOAT : Sym := t (.VALUE_FLOAT [])

/-- A pointer that goes into a node. -/
def ptr {α : Type} : Option α → Except ParseError α
  | some x => .ok x
  | none => .error .null

/-- `std::stoi`. -/
def number (s : Bytes) : Except ParseError ℤ := (stoi INT_LOWEST INT_MAX s).mapError .lit

/-- No action: `$$` is `$1`. -/
def copy : Act := fun _ v => .ok v

/-- `parse_tree` is set and the text accepted. -/
def parsed (tree : (ℕ → SemValue) → Option TreeNode) : Act :=
  fun d v => .ok { v with sv_node := tree d }

def node (make : (ℕ → SemValue) → TreeNode) : Act :=
  fun d v => .ok { v with sv_node := some (make d) }

def typeLen (type : SvType) (len : ℤ) : Act :=
  fun _ v => .ok { v with sv_type_len := some ⟨type, len⟩ }

def compOp (op : SvCompOp) : Act := fun _ v => .ok { v with sv_comp_op := op }

def aggItem (type : AggFuncType) : Act := fun d v => do
  return { v with sv_select_item := some ⟨.agg type (some (← ptr (d 3).sv_col)), (d 5).sv_str⟩ }

def direction (dir : Ast.OrderByDir) : Act := fun _ v => .ok { v with sv_orderby_dir := dir }

/-- The rules by their numbers, from 1 on. -/
def rules : List Rule :=
  [⟨⟨.accept, [n .start, YYEOF]⟩, copy⟩,
    ⟨⟨.start, [n .stmt, c ';']⟩, parsed fun d => (d 1).sv_node⟩,
    ⟨⟨.start, [k .HELP]⟩, parsed fun _ => some .help⟩,
    ⟨⟨.start, [k .EXIT]⟩, parsed fun _ => none⟩,
    ⟨⟨.start, [t .T_EOF]⟩, parsed fun _ => none⟩,
    ⟨⟨.stmt, [n .dbStmt]⟩, copy⟩,
    ⟨⟨.stmt, [n .ddl]⟩, copy⟩,
    ⟨⟨.stmt, [n .dml]⟩, copy⟩,
    ⟨⟨.stmt, [n .txnStmt]⟩, copy⟩,
    ⟨⟨.txnStmt, [k .TXN_BEGIN]⟩, node fun _ => .txnBegin⟩,
    ⟨⟨.txnStmt, [k .TXN_COMMIT]⟩, node fun _ => .txnCommit⟩,
    ⟨⟨.txnStmt, [k .TXN_ABORT]⟩, node fun _ => .txnAbort⟩,
    ⟨⟨.txnStmt, [k .TXN_ROLLBACK]⟩, node fun _ => .txnRollback⟩,
    ⟨⟨.dbStmt, [k .SHOW, k .TABLES]⟩, node fun _ => .showTables⟩,
    ⟨⟨.dbStmt, [k .SHOW, k .INDEX, k .FROM, n .tbName]⟩, node fun d => .showIndex (d 4).sv_str⟩,
    ⟨⟨.ddl, [k .CREATE, k .TABLE, n .tbName, c '(', n .fieldList, c ')']⟩,
      node fun d => .createTable (d 3).sv_str (d 5).sv_fields⟩,
    ⟨⟨.ddl, [k .DROP, k .TABLE, n .tbName]⟩, node fun d => .dropTable (d 3).sv_str⟩,
    ⟨⟨.ddl, [k .DESC, n .tbName]⟩, node fun d => .descTable (d 2).sv_str⟩,
    ⟨⟨.ddl, [k .CREATE, k .INDEX, n .tbName, c '(', n .colNameList, c ')']⟩,
      node fun d => .createIndex (d 3).sv_str (d 5).sv_strs⟩,
    ⟨⟨.ddl, [k .DROP, k .INDEX, n .tbName, c '(', n .colNameList, c ')']⟩,
      node fun d => .dropIndex (d 3).sv_str (d 5).sv_strs⟩,
    ⟨⟨.dml, [k .INSERT, k .INTO, n .tbName, k .VALUES, c '(', n .valueList, c ')']⟩,
      node fun d => .insertStmt (d 3).sv_str (d 6).sv_vals⟩,
    ⟨⟨.dml, [k .DELETE, k .FROM, n .tbName, n .optWhereClause]⟩,
      node fun d => .deleteStmt (d 3).sv_str (d 4).sv_conds⟩,
    ⟨⟨.dml, [k .UPDATE, n .tbName, k .SET, n .setClauses, n .optWhereClause]⟩,
      node fun d => .updateStmt (d 2).sv_str (d 4).sv_set_clauses (d 5).sv_conds⟩,
    ⟨⟨.dml, [k .SELECT, n .selector, k .FROM, n .tableList, n .optWhereClause, n .opt_order_clause,
      n .opt_limit_clause]⟩, node fun d =>
        .selectStmt (d 2).sv_select_items (d 4).sv_strs (d 5).sv_conds (d 6).sv_orderby_list
          (d 7).sv_int⟩,
    ⟨⟨.fieldList, [n .field]⟩, fun d v => do return { v with sv_fields := [← ptr (d 1).sv_field] }⟩,
    ⟨⟨.fieldList, [n .fieldList, c ',', n .field]⟩,
      fun d v => do return { v with sv_fields := v.sv_fields ++ [← ptr (d 3).sv_field] }⟩,
    ⟨⟨.colNameList, [n .colName]⟩, fun d v => return { v with sv_strs := [(d 1).sv_str] }⟩,
    ⟨⟨.colNameList, [n .colNameList, c ',', n .colName]⟩,
      fun d v => return { v with sv_strs := v.sv_strs ++ [(d 3).sv_str] }⟩,
    ⟨⟨.field, [n .colName, n .type]⟩,
      fun d v => do return { v with sv_field := some ⟨(d 1).sv_str, ← ptr (d 2).sv_type_len⟩ }⟩,
    ⟨⟨.type, [k .INT]⟩, typeLen .SV_TYPE_INT 4⟩,
    ⟨⟨.type, [k .BIGINT]⟩, typeLen .SV_TYPE_BIGINT 8⟩,
    ⟨⟨.type, [k .CHAR, c '(', VALUE_INT, c ')']⟩,
      fun d v => do return { v with sv_type_len := some ⟨.SV_TYPE_STRING, ← number (d 3).sv_str⟩ }⟩,
    ⟨⟨.type, [k .FLOAT]⟩, typeLen .SV_TYPE_FLOAT 4⟩,
    ⟨⟨.type, [k .DATETIME]⟩, typeLen .SV_TYPE_DATETIME 8⟩,
    ⟨⟨.valueList, [n .value]⟩, fun d v => do return { v with sv_vals := [← ptr (d 1).sv_val] }⟩,
    ⟨⟨.valueList, [n .valueList, c ',', n .value]⟩,
      fun d v => do return { v with sv_vals := v.sv_vals ++ [← ptr (d 3).sv_val] }⟩,
    ⟨⟨.value, [VALUE_INT]⟩, fun d v => return { v with sv_val := some (.intLit (d 1).sv_str) }⟩,
    ⟨⟨.value, [VALUE_FLOAT]⟩, fun d v =>
      return { v with sv_val := some (.floatLit (d 1).sv_float) }⟩,
    ⟨⟨.value, [VALUE_STRING]⟩, fun d v =>
      return { v with sv_val := some (.stringLit (d 1).sv_str) }⟩,
    ⟨⟨.condition, [n .col, n .op, n .expr]⟩,
      fun d v => do
        return { v with
          sv_cond := some ⟨← ptr (d 1).sv_col, (d 2).sv_comp_op, ← ptr (d 3).sv_expr⟩ }⟩,
    ⟨⟨.optWhereClause, []⟩, copy⟩,
    ⟨⟨.optWhereClause, [k .WHERE, n .whereClause]⟩, fun d v =>
      return { v with sv_conds := (d 2).sv_conds }⟩,
    ⟨⟨.whereClause, [n .condition]⟩,
      fun d v => do return { v with sv_conds := [← ptr (d 1).sv_cond] }⟩,
    ⟨⟨.whereClause, [n .whereClause, k .AND, n .condition]⟩,
      fun d v => do return { v with sv_conds := v.sv_conds ++ [← ptr (d 3).sv_cond] }⟩,
    ⟨⟨.col, [n .tbName, c '.', n .colName]⟩,
      fun d v => return { v with sv_col := some ⟨(d 1).sv_str, (d 3).sv_str⟩ }⟩,
    ⟨⟨.col, [n .colName]⟩, fun d v => return { v with sv_col := some ⟨[], (d 1).sv_str⟩ }⟩,
    ⟨⟨.op, [c '=']⟩, compOp .SV_OP_EQ⟩,
    ⟨⟨.op, [c '<']⟩, compOp .SV_OP_LT⟩,
    ⟨⟨.op, [c '>']⟩, compOp .SV_OP_GT⟩,
    ⟨⟨.op, [t .NEQ]⟩, compOp .SV_OP_NE⟩,
    ⟨⟨.op, [t .LEQ]⟩, compOp .SV_OP_LE⟩,
    ⟨⟨.op, [t .GEQ]⟩, compOp .SV_OP_GE⟩,
    ⟨⟨.expr, [n .value]⟩, fun d v => return { v with sv_expr := (d 1).sv_val.map .value }⟩,
    ⟨⟨.expr, [n .col]⟩, fun d v => return { v with sv_expr := (d 1).sv_col.map .col }⟩,
    ⟨⟨.setClauses, [n .setClause]⟩,
      fun d v => do return { v with sv_set_clauses := [← ptr (d 1).sv_set_clause] }⟩,
    ⟨⟨.setClauses, [n .setClauses, c ',', n .setClause]⟩,
      fun d v => do
        return { v with sv_set_clauses := v.sv_set_clauses ++ [← ptr (d 3).sv_set_clause] }⟩,
    ⟨⟨.setClause, [n .colName, c '=', n .value]⟩,
      fun d v => do return { v with sv_set_clause := some ⟨(d 1).sv_str, ← ptr (d 3).sv_val⟩ }⟩,
    ⟨⟨.selector, [c '*']⟩, fun _ v => return { v with sv_select_items := [] }⟩,
    ⟨⟨.selector, [n .selectorList]⟩, copy⟩,
    ⟨⟨.selectorList, [n .selectorItem]⟩,
      fun d v => do return { v with sv_select_items := [← ptr (d 1).sv_select_item] }⟩,
    ⟨⟨.selectorList, [n .selectorList, c ',', n .selectorItem]⟩,
      fun d v => do
        return { v with sv_select_items := v.sv_select_items ++ [← ptr (d 3).sv_select_item] }⟩,
    ⟨⟨.selectorItem, [n .col, n .optAsAlias]⟩,
      fun d v => do
        return { v with sv_select_item := some ⟨.col (← ptr (d 1).sv_col), (d 2).sv_str⟩ }⟩,
    ⟨⟨.selectorItem, [k .COUNT, c '(', c '*', c ')', n .optAsAlias]⟩,
      fun d v => return { v with sv_select_item := some ⟨.agg .AGG_COUNT none, (d 5).sv_str⟩ }⟩,
    ⟨⟨.selectorItem, [k .COUNT, c '(', n .col, c ')', n .optAsAlias]⟩, aggItem .AGG_COUNT⟩,
    ⟨⟨.selectorItem, [k .SUM, c '(', n .col, c ')', n .optAsAlias]⟩, aggItem .AGG_SUM⟩,
    ⟨⟨.selectorItem, [k .MAX, c '(', n .col, c ')', n .optAsAlias]⟩, aggItem .AGG_MAX⟩,
    ⟨⟨.selectorItem, [k .MIN, c '(', n .col, c ')', n .optAsAlias]⟩, aggItem .AGG_MIN⟩,
    ⟨⟨.optAsAlias, []⟩, fun _ v => return { v with sv_str := [] }⟩,
    ⟨⟨.optAsAlias, [k .AS, n .colName]⟩, fun d v => return { v with sv_str := (d 2).sv_str }⟩,
    ⟨⟨.tableList, [n .tbName]⟩, fun d v => return { v with sv_strs := [(d 1).sv_str] }⟩,
    ⟨⟨.tableList, [n .tableList, c ',', n .tbName]⟩,
      fun d v => return { v with sv_strs := v.sv_strs ++ [(d 3).sv_str] }⟩,
    ⟨⟨.tableList, [n .tableList, k .JOIN, n .tbName]⟩,
      fun d v => return { v with sv_strs := v.sv_strs ++ [(d 3).sv_str] }⟩,
    ⟨⟨.opt_order_clause, [k .ORDER, k .BY, n .order_clause]⟩,
      fun d v => return { v with sv_orderby_list := (d 3).sv_orderby_list }⟩,
    ⟨⟨.opt_order_clause, []⟩, fun _ v => return { v with sv_orderby_list := [] }⟩,
    ⟨⟨.order_clause, [n .order_item]⟩,
      fun d v => do return { v with sv_orderby_list := [← ptr (d 1).sv_orderby] }⟩,
    ⟨⟨.order_clause, [n .order_clause, c ',', n .order_item]⟩,
      fun d v => do
        return { v with sv_orderby_list := v.sv_orderby_list ++ [← ptr (d 3).sv_orderby] }⟩,
    ⟨⟨.order_item, [n .col, n .opt_asc_desc]⟩,
      fun d v => do
        return { v with sv_orderby := some ⟨← ptr (d 1).sv_col, (d 2).sv_orderby_dir⟩ }⟩,
    ⟨⟨.opt_limit_clause, []⟩, fun _ v => return { v with sv_int := -1 }⟩,
    ⟨⟨.opt_limit_clause, [k .LIMIT, VALUE_INT]⟩,
      fun d v => do return { v with sv_int := ← number (d 2).sv_str }⟩,
    ⟨⟨.opt_asc_desc, [k .ASC]⟩, direction .OrderBy_ASC⟩,
    ⟨⟨.opt_asc_desc, [k .DESC]⟩, direction .OrderBy_DESC⟩,
    ⟨⟨.opt_asc_desc, []⟩, direction .OrderBy_DEFAULT⟩,
    ⟨⟨.tbName, [IDENTIFIER]⟩, copy⟩,
    ⟨⟨.colName, [IDENTIFIER]⟩, copy⟩]

/-- The rule with a number. -/
def rule : ℕ → Option Rule
  | 0 => none
  | r + 1 => rules[r]?

/-! ## Tables -/

def YYFINAL : ℕ := 45

def YYLAST : ℤ := 158

def YYPACT_NINF : ℤ := -93

def yypact : List ℤ :=
  [57, 12, 3, 6, -33, 8, 28, -33, -3, -93, -93, -93, -93, -93, -93, -93, 46, 2, -93, -93, -93, -93,
    -93, 41, -33, -33, -33, -33, -93, -93, -33, -33, 49, 19, 25, 27, 54, 53, -93, 79, 107, 68, -93,
    69, -93, -93, -93, -33, 71, 73, -93, 74, 115, 110, 82, -18, 83, 83, 83, 82, -93, -33, 60, 82,
    -93, 82, 82, 82, 80, 83, -93, -93, -9, -93, 75, 81, 84, 85, 86, 87, -93, -11, -93, -93, -93, 20,
    -93, 88, 30, -93, 32, 1, -93, 105, 37, 82, -93, 1, 79, 79, 79, 79, 79, -33, -33, 119, -93, 82,
    -93, -93, 89, -93, -93, -93, -93, 82, -93, -93, -93, -93, 48, -93, 83, -93, -93, -93, -93, -93,
    -93, 10, -93, -93, -93, -93, -93, -93, -93, -93, -93, 125, 94, -93, 95, -93, -93, 1, -93, -93,
    -93, -93, 83, 96, -93, 90, -93, 31, 92, -93, -93, -93, -93, -93, -93, 83, -93]

def yydefact : List ℕ :=
  [0, 0, 0, 0, 0, 0, 0, 0, 0, 4, 3, 10, 11, 12, 13, 5, 0, 0, 9, 6, 7, 8, 14, 0, 0, 0, 0, 0, 83, 18,
    0, 0, 0, 0, 0, 0, 0, 84, 58, 68, 0, 59, 60, 0, 46, 1, 2, 0, 0, 0, 17, 0, 0, 41, 0, 0, 0, 0, 0,
    0, 62, 0, 0, 0, 15, 0, 0, 0, 0, 0, 22, 84, 41, 55, 0, 0, 0, 0, 0, 0, 69, 41, 70, 61, 45, 0, 25,
    0, 0, 27, 0, 0, 43, 42, 0, 0, 23, 0, 68, 68, 68, 68, 68, 0, 0, 74, 16, 0, 30, 31, 0, 33, 34, 29,
    19, 0, 20, 39, 37, 38, 0, 35, 0, 51, 50, 52, 47, 48, 49, 0, 56, 57, 63, 64, 65, 66, 67, 72, 71,
    0, 78, 26, 0, 28, 21, 0, 44, 53, 54, 40, 0, 0, 24, 0, 36, 82, 73, 75, 79, 32, 81, 80, 77, 0, 76]

def yypgoto : List ℤ :=
  [-93, -93, -93, -93, -93, -93, -93, -93, 91, 39, -93, -93, -92, 26, -61, -93, -55, -93, -93, -93,
    52, -93, -93, 93, 16, -93, -93, -93, -14, -93, -93, 0, -44]

def yydefgoto : List ℕ :=
  [0, 16, 17, 18, 19, 20, 21, 85, 88, 86, 113, 120, 121, 92, 70, 93, 39, 129, 149, 72, 73, 40, 41,
    42, 60, 81, 140, 156, 157, 152, 162, 43, 44]

def yytable : List ℤ :=
  [76, 77, 78, 79, 29, 131, 69, 32, 69, 24, 74, 96, 26, 28, 94, 80, 22, 103, 30, 84, 105, 87, 89,
    89, 48, 49, 50, 51, 37, 25, 52, 53, 27, 33, 34, 35, 36, 147, 23, 160, 75, 31, 104, 37, 95, 161,
    45, 64, 117, 118, 119, 74, 46, 154, 47, 38, 37, 117, 118, 119, 1, 82, 2, 87, 3, 4, 5, 94, 54, 6,
    55, 143, 106, 107, 148, 7, 56, 8, 57, 123, 124, 125, 114, 115, 116, 115, 9, 10, 11, 12, 13, 14,
    126, 127, 128, 155, 33, 34, 35, 36, 144, 145, 15, 137, 138, 58, 37, -83, 155, 108, 109, 110,
    111, 112, 132, 133, 134, 135, 136, 59, 61, 62, 65, 63, 66, 67, 68, 69, 71, 37, 97, 91, 122, 98,
    139, 151, 99, 100, 101, 102, 142, 150, 159, 153, 158, 163, 141, 130, 146, 164, 0, 0, 0, 0, 0,
    83, 0, 0, 90]

def yycheck : List ℤ :=
  [55, 56, 57, 58, 4, 97, 17, 7, 17, 6, 54, 72, 6, 46, 69, 59, 4, 28, 10, 63, 81, 65, 66, 67, 24,
    25, 26, 27, 46, 26, 30, 31, 26, 36, 37, 38, 39, 129, 26, 8, 58, 13, 53, 46, 53, 14, 0, 47, 47,
    48, 49, 95, 50, 145, 13, 58, 46, 47, 48, 49, 3, 61, 5, 107, 7, 8, 9, 122, 19, 12, 51, 115, 52,
    53, 129, 18, 51, 20, 51, 42, 43, 44, 52, 53, 52, 53, 29, 30, 31, 32, 33, 34, 55, 56, 57, 150,
    36, 37, 38, 39, 52, 53, 45, 103, 104, 51, 46, 54, 163, 21, 22, 23, 24, 25, 98, 99, 100, 101,
    102, 40, 13, 53, 51, 54, 51, 51, 11, 17, 46, 46, 55, 51, 27, 52, 15, 41, 52, 52, 52, 52, 51, 16,
    52, 48, 48, 53, 107, 95, 122, 163, -1, -1, -1, -1, -1, 62, -1, -1, 67]

def yystos : List ℕ :=
  [0, 3, 5, 7, 8, 9, 12, 18, 20, 29, 30, 31, 32, 33, 34, 45, 60, 61, 62, 63, 64, 65, 4, 26, 6, 26,
    6, 26, 46, 90, 10, 13, 90, 36, 37, 38, 39, 46, 58, 75, 80, 81, 82, 90, 91, 0, 50, 13, 90, 90,
    90, 90, 90, 90, 19, 51, 51, 51, 51, 40, 83, 13, 53, 54, 90, 51, 51, 51, 11, 17, 73, 46, 78, 79,
    91, 58, 75, 75, 75, 75, 91, 84, 90, 82, 91, 66, 68, 91, 67, 91, 67, 51, 72, 74, 75, 53, 73, 55,
    52, 52, 52, 52, 52, 28, 53, 73, 52, 53, 21, 22, 23, 24, 25, 69, 52, 53, 52, 47, 48, 49, 70, 71,
    27, 42, 43, 44, 55, 56, 57, 76, 79, 71, 83, 83, 83, 83, 83, 90, 90, 15, 85, 68, 51, 91, 52, 53,
    72, 71, 75, 77, 16, 41, 88, 48, 71, 75, 86, 87, 48, 52, 8, 14, 89, 53, 87]

def yyr1 : List ℕ :=
  [0, 59, 60, 60, 60, 60, 61, 61, 61, 61, 62, 62, 62, 62, 63, 63, 64, 64, 64, 64, 64, 65, 65, 65,
    65, 66, 66, 67, 67, 68, 69, 69, 69, 69, 69, 70, 70, 71, 71, 71, 72, 73, 73, 74, 74, 75, 75, 76,
    76, 76, 76, 76, 76, 77, 77, 78, 78, 79, 80, 80, 81, 81, 82, 82, 82, 82, 82, 82, 83, 83, 84, 84,
    84, 85, 85, 86, 86, 87, 88, 88, 89, 89, 89, 90, 91]

def yyr2 : List ℕ :=
  [0, 2, 2, 1, 1, 1, 1, 1, 1, 1, 1, 1, 1, 1, 2, 4, 6, 3, 2, 6, 6, 7, 4, 5, 7, 1, 3, 1, 3, 2, 1, 1,
    4, 1, 1, 1, 3, 1, 1, 1, 3, 0, 2, 1, 3, 3, 1, 1, 1, 1, 1, 1, 1, 1, 1, 1, 3, 3, 1, 1, 1, 3, 2, 5,
    5, 5, 5, 5, 0, 2, 1, 3, 3, 3, 0, 1, 3, 2, 0, 2, 1, 1, 0, 1, 1]

end Rmdb.Yacc
