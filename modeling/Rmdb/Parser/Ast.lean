import Rmdb.Analyze.Literals

/-!
# Syntax trees

The nodes of `parser/ast.h` that the actions of `parser/yacc.y` make, and `SemValue`, the record
that stands on the value stack of the parser.  A shared pointer that may be null is an option;
`ast::Value` is `SvValue`.  A `SelectStmt` has a `jointree` besides, which no action fills.
-/

namespace Rmdb.Ast

inductive SvType
  | SV_TYPE_INT | SV_TYPE_FLOAT | SV_TYPE_BIGINT | SV_TYPE_STRING | SV_TYPE_DATETIME
deriving DecidableEq, Repr

inductive SvCompOp
  | SV_OP_EQ | SV_OP_NE | SV_OP_LT | SV_OP_GT | SV_OP_LE | SV_OP_GE
deriving DecidableEq, Repr, Inhabited

inductive OrderByDir
  | OrderBy_DEFAULT | OrderBy_ASC | OrderBy_DESC
deriving DecidableEq, Repr, Inhabited

inductive AggFuncType
  | AGG_COUNT | AGG_SUM | AGG_MAX | AGG_MIN
deriving DecidableEq, Repr

structure TypeLen where
  type : SvType
  len : ℤ
deriving DecidableEq, Repr

/-- `ColDef`, the one kind of `Field`. -/
structure ColDef where
  col_name : Bytes
  type_len : TypeLen
deriving DecidableEq, Repr

/-- A column; without a table the name of that is empty. -/
structure Col where
  tab_name : Bytes
  col_name : Bytes
deriving DecidableEq, Repr

/-- `COUNT(*)` is the aggregate without a column. -/
inductive Expr
  | value (v : SvValue)
  | col (c : Col)
  | agg (type : AggFuncType) (col : Option Col)
deriving DecidableEq, Repr

structure SelectItem where
  expr : Expr
  alias_ : Bytes
deriving DecidableEq, Repr

structure SetClause where
  col_name : Bytes
  val : SvValue
deriving DecidableEq, Repr

structure BinaryExpr where
  lhs : Col
  op : SvCompOp
  rhs : Expr
deriving DecidableEq, Repr

structure OrderBy where
  cols : Col
  orderby_dir : OrderByDir
deriving DecidableEq, Repr

/-- `ast::TreeNode`, as far as it is a statement. -/
inductive TreeNode
  | help
  | showTables
  | showIndex (tab_name : Bytes)
  | txnBegin
  | txnCommit
  | txnAbort
  | txnRollback
  | createTable (tab_name : Bytes) (fields : List ColDef)
  | dropTable (tab_name : Bytes)
  | descTable (tab_name : Bytes)
  | createIndex (tab_name : Bytes) (col_names : List Bytes)
  | dropIndex (tab_name : Bytes) (col_names : List Bytes)
  | insertStmt (tab_name : Bytes) (vals : List SvValue)
  | deleteStmt (tab_name : Bytes) (conds : List BinaryExpr)
  | updateStmt (tab_name : Bytes) (set_clauses : List SetClause) (conds : List BinaryExpr)
  | selectStmt (select_items : List SelectItem) (tabs : List Bytes) (conds : List BinaryExpr)
      (orders : List OrderBy) (limit : ℤ)
deriving DecidableEq, Repr

/-- `ast::SemValue`.  All of its fields are there in each value; which of them means something is
declared for each symbol by `%type` and `%token`. -/
structure SemValue where
  sv_int : ℤ := 0
  sv_float : BitVec 32 := 0
  sv_str : Bytes := []
  sv_orderby_dir : OrderByDir := .OrderBy_DEFAULT
  sv_strs : List Bytes := []
  sv_node : Option TreeNode := none
  sv_comp_op : SvCompOp := .SV_OP_EQ
  sv_type_len : Option TypeLen := none
  sv_field : Option ColDef := none
  sv_fields : List ColDef := []
  sv_expr : Option Expr := none
  sv_val : Option SvValue := none
  sv_vals : List SvValue := []
  sv_col : Option Col := none
  sv_select_item : Option SelectItem := none
  sv_select_items : List SelectItem := []
  sv_set_clause : Option SetClause := none
  sv_set_clauses : List SetClause := []
  sv_cond : Option BinaryExpr := none
  sv_conds : List BinaryExpr := []
  sv_orderby : Option OrderBy := none
  sv_orderby_list : List OrderBy := []
deriving Inhabited

end Rmdb.Ast
