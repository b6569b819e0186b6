import Mathlib.Data.List.Find
import Rmdb.Execution.ColumnValues
import Rmdb.Execution.JoinChildren

/-!
# The two evaluators of conditions

`eval_conds` reads both columns of a condition over the length of the left one, `eval_conditions`
over the length of the right one.  On a table whose strings have one declared length both give what
the conditions mean; on any other table a condition between two strings of different lengths tells
them apart from it.
-/

namespace Rmdb

/-! ## Tables and accepted conditions -/

/-- The columns of a table lie one behind the other in its records and have the lengths of their
types. -/
structure TabMeta.LaidOut (tab : TabMeta) (size : ℕ) : Prop where
  apart : tab.cols.Pairwise fun a b => a.offset + a.len ≤ b.offset
  inside : ∀ col ∈ tab.cols, col.offset + col.len ≤ size
  width : ∀ col ∈ tab.cols, compareWidth col.type col.len = col.len

/-- What `check_clause` makes of a literal.  `conv` stands for `convert_sv_value` and
`coerce_value_to_col_type`, which give a value or throw. -/
def rawOf {V : Type} (conv : V → ColMeta → Except ExecError Value) (v : V) (col : ColMeta) :
    Except ExecError Bytes := do
  let val ← conv v col
  if val.type ≠ col.type then .error (.incompatibleType col.type val.type) else val.initRaw col.len

/-- `check_clause` accepts the conditions of a statement on one table and leaves `conds`. -/
def Accepts {V : Type} (cat : Catalog) (conv : V → ColMeta → Except ExecError Value) (t : String)
    (exprs : List (BinaryExpr V)) (conds : List Condition) : Prop :=
  ∃ allCols, getAllCols cat [t] = .ok allCols ∧
    exprs.mapM (checkClause cat (rawOf conv) allCols) = .ok conds

/-- No column of the conditions is a FLOAT. -/
def NoFloats (tab : TabMeta) (conds : List Condition) : Prop :=
  ∀ cond ∈ conds, ∀ c ∈ cond.cols, ∀ col, findCol tab.cols c = .ok col → col.type ≠ .float

/-- What an evaluator reads for a condition lies inside the record and the constant. -/
def Condition.ReadsInside (cond : Condition) (lens : ReadLens) (cols : List ColMeta)
    (rec : Bytes) : Prop :=
  ∀ lhs, findCol cols cond.lhsCol = .ok lhs →
    match cond.rhs with
    | .val raw => lhs.offset + compareWidth lhs.type lhs.len ≤ rec.length ∧
        compareWidth lhs.type lhs.len ≤ raw.length
    | .col c => ∀ rhs, findCol cols c = .ok rhs →
        lhs.offset + compareWidth lhs.type (lens lhs rhs).1 ≤ rec.length ∧
        rhs.offset + compareWidth lhs.type (lens lhs rhs).2 ≤ rec.length

/-- Both evaluators give what the conditions mean, and read nothing else. -/
structure EvaluatorsAgree (tab : TabMeta) (conds : List Condition) (rec : Bytes) : Prop where
  seq : evalConds conds rec tab.cols = .ok (conds.all (·.holds declaredLens tab.cols rec))
  index : evalConditions tab rec conds = .ok (conds.all (·.holds declaredLens tab.cols rec))
  seq_reads : ∀ cond ∈ conds, cond.ReadsInside lhsLens tab.cols rec
  index_reads : ∀ cond ∈ conds, cond.ReadsInside rhsLens tab.cols rec

/-- The strings of a table have one declared length. -/
def TabMeta.OneStringLen (tab : TabMeta) : Prop :=
  ∀ n m a b, tab.getCol n = .ok a → tab.getCol m = .ok b → a.type = .string → b.type = .string →
    a.len = b.len

/-! ## Finding columns -/

section
variable {V : Type} {cat : Catalog} {conv : V → ColMeta → Except ExecError Value} {t : String}
  {tab : TabMeta}
  {size : ℕ} {cond : Condition} {conds : List Condition} {exprs : List (BinaryExpr V)} {rec : Bytes}

theorem findCol_mem {cols : List ColMeta} {target : TabCol} {col : ColMeta}
    (h : findCol cols target = .ok col) : col ∈ cols := by
  rw [findCol] at h
  split at h
  · next hfind =>
    cases h
    exact List.mem_of_find?_eq_some hfind
  · cases h

/-- In the columns of one table, the name of the table makes no difference. -/
theorem findCol_eq_ok_iff (htab : cat.tabs t = some tab) {name : String} {col : ColMeta} :
    findCol tab.cols ⟨t, name⟩ = .ok col ↔ tab.getCol name = .ok col := by
  have hpred : tab.cols.find? (fun c => c.tabName = t ∧ c.name = name) =
      tab.cols.find? (·.name = name) := by
    refine List.find?_congr fun c hc => ?_
    simp [cat.colTab t tab htab c hc]
  rw [findCol, TabMeta.getCol, hpred]
  cases tab.cols.find? (·.name = name) with
  | none => simp
  | some c => simp

theorem getAllCols_single (htab : cat.tabs t = some tab) : getAllCols cat [t] = .ok tab.cols := by
  simp [getAllCols, Catalog.getTable, htab, bind, Except.bind, pure, Except.pure]

theorem length_initRaw {v : Value} {len : ℕ} {raw : Bytes} (h : v.initRaw len = .ok raw) :
    raw.length = len := by
  have hnum {w x : ℕ} (h : (if len = w then .ok (leBytes w x) else .error ExecError.assertion) =
    Except.ok raw) : raw.length = len := by
    split at h
    · next heq =>
      cases h
      rw [length_leBytes, heq]
    · cases h
  cases v with
  | str v =>
    rw [Value.initRaw] at h
    split at h
    · cases h
    · cases h
      rw [List.length_append, List.length_replicate]
      omega
  | int v => exact hnum h
  | bigint v => exact hnum h
  | float v => exact hnum h
  | datetime v => exact hnum h

/-- A condition on a table: the columns are found, are no FLOATs and have one type, and a constant
has the length of its column. -/
inductive Condition.OnTable (tab : TabMeta) (cond : Condition) : Prop
  | const {lhs : ColMeta} {raw : Bytes} (hlhs : findCol tab.cols cond.lhsCol = .ok lhs)
      (hget : tab.getCol cond.lhsCol.colName = .ok lhs) (hrhs : cond.rhs = .val raw)
      (hfloat : lhs.type ≠ .float) (hraw : raw.length = lhs.len)
  | pair {lhs rhs : ColMeta} {c : TabCol} (hlhs : findCol tab.cols cond.lhsCol = .ok lhs)
      (hget : tab.getCol cond.lhsCol.colName = .ok lhs) (hrhs : cond.rhs = .col c)
      (hc : findCol tab.cols c = .ok rhs) (hgetc : tab.getCol c.colName = .ok rhs)
        (hfloat : lhs.type ≠ .float)
      (htype : lhs.type = rhs.type)

theorem getCol_of_catalog (htab : cat.tabs t = some tab) {name : String} {col : ColMeta}
    (h : cat.getCol ⟨t, name⟩ = .ok col) : tab.getCol name = .ok col := by
  obtain ⟨tab', htab', h⟩ := exists_of_bind_ok h
  obtain rfl := Option.some.inj ((getTable_ok htab').symm.trans htab)
  split at h
  · next hget =>
    cases h
    exact hget
  · cases h

theorem checkColumn_table (htab : cat.tabs t = some tab) {target c : TabCol}
    (h : checkColumn tab.cols target = .ok c) : c.tabName = t := by
  obtain ⟨col, hcol, hct, _⟩ := checkColumn_spec h
  rw [← hct, cat.colTab t tab htab col hcol]

/-- The columns of a condition are found in the table and have one type, and a constant has the
length of its column. -/
inductive Condition.Resolved (tab : TabMeta) (cond : Condition) : Prop
  | const {lhs : ColMeta} {raw : Bytes} (hlhs : findCol tab.cols cond.lhsCol = .ok lhs)
      (hget : tab.getCol cond.lhsCol.colName = .ok lhs) (hrhs : cond.rhs = .val raw)
        (hraw : raw.length = lhs.len)
  | pair {lhs rhs : ColMeta} {c : TabCol} (hlhs : findCol tab.cols cond.lhsCol = .ok lhs)
      (hget : tab.getCol cond.lhsCol.colName = .ok lhs) (hrhs : cond.rhs = .col c)
      (hc : findCol tab.cols c = .ok rhs) (hgetc : tab.getCol c.colName = .ok rhs)
        (htype : lhs.type = rhs.type)

/-- The columns of an accepted condition are those of the table. -/
theorem resolved_of_checkClause (htab : cat.tabs t = some tab) {expr : BinaryExpr V}
    (h : checkClause cat (rawOf conv) tab.cols expr = .ok cond) :
    cond.lhsCol.tabName = t ∧ cond.Resolved tab := by
  obtain ⟨⟨t', name⟩, hlhs, h⟩ := exists_of_bind_ok h
  obtain rfl : t' = t := checkColumn_table htab hlhs
  split at h
  · obtain ⟨lhs, hget, h⟩ := exists_of_bind_ok h
    have hget := getCol_of_catalog htab hget
    split at h
    · next hraw =>
      cases h
      obtain ⟨val, hval, hraw⟩ := exists_of_bind_ok hraw
      split at hraw
      · cases hraw
      · exact ⟨rfl, .const ((findCol_eq_ok_iff htab).mpr hget) hget rfl (length_initRaw hraw)⟩
    · cases h
  · obtain ⟨⟨t'', name'⟩, hrhs, h⟩ := exists_of_bind_ok h
    obtain rfl : t'' = t' := checkColumn_table htab hrhs
    obtain ⟨lhs, hget, h⟩ := exists_of_bind_ok h
    obtain ⟨rhs, hgetc, h⟩ := exists_of_bind_ok h
    have hget := getCol_of_catalog htab hget
    have hgetc := getCol_of_catalog htab hgetc
    split at h
    · cases h
    · next htype =>
      cases h
      exact ⟨rfl, .pair ((findCol_eq_ok_iff htab).mpr hget) hget rfl
        ((findCol_eq_ok_iff htab).mpr hgetc) hgetc (not_not.mp htype)⟩

/-- An accepted condition is a condition on the table. -/
theorem onTable_of_checkClause (htab : cat.tabs t = some tab) {expr : BinaryExpr V}
    (h : checkClause cat (rawOf conv) tab.cols expr = .ok cond)
    (hfloat : ∀ c ∈ cond.cols, ∀ col, findCol tab.cols c = .ok col → col.type ≠ .float) :
    cond.OnTable tab := by
  cases (resolved_of_checkClause htab h).2 with
  | const hlhs hget hrhs hraw =>
    exact .const hlhs hget hrhs (hfloat _ (lhsCol_mem_cols _) _ hlhs) hraw
  | pair hlhs hget hrhs hc hgetc htype =>
    exact .pair hlhs hget hrhs hc hgetc (hfloat _ (lhsCol_mem_cols _) _ hlhs) htype

/-! ## What the evaluators compute -/

section
variable {type : ColType} {off off' len : ℕ} {raw : Bytes}

theorem ixCompareCol_const (hfloat : type ≠ .float) (hwidth : compareWidth type len = len)
    (h : off + len ≤ rec.length) (hraw : raw.length = len) :
    ixCompareCol (rec.drop off) raw type len = compareValues type (slice rec off len) raw := by
  rw [ixCompareCol_eq_compareValues hfloat hwidth (by rw [List.length_drop]; omega) hraw.ge,
    ← slice_eq h, List.take_of_length_le hraw.le]

theorem ixCompareCol_pair (hfloat : type ≠ .float) (hwidth : compareWidth type len = len)
    (h : off + len ≤ rec.length) (h' : off' + len ≤ rec.length) :
    ixCompareCol (rec.drop off) (rec.drop off') type len =
      compareValues type (slice rec off len) (slice rec off' len) := by
  rw [ixCompareCol_eq_compareValues hfloat hwidth (by rw [List.length_drop]; omega)
    (by rw [List.length_drop]; omega), ← slice_eq h, ← slice_eq h']

end

/-- `eval_cond` reads both columns over the length of the left one. -/
theorem evalCond_eq (hlaid : tab.LaidOut size) (hcond : cond.OnTable tab)
    (hin : cond.ReadsInside lhsLens tab.cols rec) :
    evalCond cond rec tab.cols = .ok (cond.holds lhsLens tab.cols rec) := by
  cases hcond with
  | @const lhs raw hlhs hget hrhs hfloat hraw =>
    have hwidth := hlaid.width lhs (findCol_mem hlhs)
    have hin := hin lhs hlhs
    simp only [hrhs, hwidth] at hin
    simp only [evalCond, Condition.holds, hlhs, hrhs, bind, Except.bind, pure, Except.pure]
    rw [ixCompareCol_const hfloat hwidth hin.1 hraw]
  | @pair lhs rhs c hlhs hget hrhs hc hgetc hfloat htype =>
    have hwidth := hlaid.width lhs (findCol_mem hlhs)
    have hin := hin lhs hlhs
    simp only [hrhs] at hin
    have hin := hin rhs hc
    simp only [lhsLens, hwidth] at hin
    simp only [evalCond, Condition.holds, hlhs, hrhs, hc, bind, Except.bind, pure, Except.pure,
      ColMeta.compares, lhsLens]
    rw [ixCompareCol_pair hfloat hwidth hin.1 hin.2]

/-- `eval_condition` reads both columns over the length of the right one. -/
theorem evalCondition_eq (hlaid : tab.LaidOut size) (hcond : cond.OnTable tab)
    (hin : cond.ReadsInside rhsLens tab.cols rec) :
    evalCondition tab rec cond = .ok (cond.holds rhsLens tab.cols rec) := by
  cases hcond with
  | @const lhs raw hlhs hget hrhs hfloat hraw =>
    have hwidth := hlaid.width lhs (findCol_mem hlhs)
    have hin := hin lhs hlhs
    simp only [hrhs, hwidth] at hin
    simp only [evalCondition, Condition.holds, hlhs, hget, hrhs, bind, Except.bind, pure,
      Except.pure]
    rw [ixCompareCol_const hfloat hwidth hin.1 hraw]
  | @pair lhs rhs c hlhs hget hrhs hc hgetc hfloat htype =>
    have hwidth : compareWidth lhs.type rhs.len = rhs.len :=
      htype ▸ hlaid.width rhs (findCol_mem hc)
    have hin := hin lhs hlhs
    simp only [hrhs] at hin
    have hin := hin rhs hc
    simp only [rhsLens, hwidth] at hin
    simp only [evalCondition, Condition.holds, hlhs, hget, hrhs, hc, hgetc, bind, Except.bind, pure,
      Except.pure, ColMeta.compares, rhsLens]
    rw [ixCompareCol_pair hfloat hwidth hin.1 hin.2]

/-- The lengths over which the evaluators read a condition are the declared ones. -/
theorem holds_congr {lens lens' : ReadLens} (hcond : cond.OnTable tab)
    (h : ∀ c lhs rhs, cond.rhs = .col c → findCol tab.cols cond.lhsCol = .ok lhs →
      findCol tab.cols c = .ok rhs →
      lens lhs rhs = lens' lhs rhs) :
      cond.holds lens tab.cols rec = cond.holds lens' tab.cols rec := by
  cases hcond with
  | const hlhs _ hrhs => simp only [Condition.holds, hlhs, hrhs]
  | @pair lhs rhs c hlhs _ hrhs hc =>
    simp only [Condition.holds, hlhs, hrhs, hc, ColMeta.compares, h c lhs rhs hrhs hlhs hc]

/-- The two columns of a condition that compares no strings of different lengths have one length. -/
theorem len_eq_of_equalLens (hlaid : tab.LaidOut size) (hcond : cond.OnTable tab)
    (heq : cond.EqualLens tab.cols)
    {c : TabCol} {lhs rhs : ColMeta} (hrhs : cond.rhs = .col c)
    (hlhs : findCol tab.cols cond.lhsCol = .ok lhs)
    (hc : findCol tab.cols c = .ok rhs) : lhs.len = rhs.len := by
  by_cases hstr : lhs.type = .string
  · exact heq c lhs rhs hrhs hlhs hc hstr
  · have htype : lhs.type = rhs.type := by
      cases hcond with
      | const _ _ hval => cases hrhs.symm.trans hval
      | pair hlhs' _ hrhs' hc' _ _ htype =>
        cases hrhs.symm.trans hrhs'
        cases hlhs.symm.trans hlhs'
        cases hc.symm.trans hc'
        exact htype
    have hrhs' := hlaid.width rhs (findCol_mem hc)
    rw [← htype, compareWidth_of_ne hstr rhs.len lhs.len,
      hlaid.width lhs (findCol_mem hlhs)] at hrhs'
    exact hrhs'

theorem readsInside_of_equalLens (hlaid : tab.LaidOut size) (hcond : cond.OnTable tab)
    (hrec : rec.length = size) {lens : ReadLens}
    (hlens : ∀ c lhs rhs, cond.rhs = .col c → findCol tab.cols cond.lhsCol = .ok lhs →
      findCol tab.cols c = .ok rhs → lens lhs rhs = (lhs.len, rhs.len)) :
    cond.ReadsInside lens tab.cols rec := by
  intro lhs hlhs
  have hwidth := hlaid.width lhs (findCol_mem hlhs)
  have hinside := hlaid.inside lhs (findCol_mem hlhs)
  cases hcond with
  | const hlhs' _ hrhs _ hraw =>
    cases hlhs.symm.trans hlhs'
    simp only [hrhs, hwidth]
    omega
  | pair hlhs' _ hrhs hc _ _ htype =>
    cases hlhs.symm.trans hlhs'
    simp only [hrhs]
    intro rhs hc'
    cases hc.symm.trans hc'
    have hwidth' := hlaid.width _ (findCol_mem hc)
    rw [← htype] at hwidth'
    rw [hlens _ _ _ hrhs hlhs hc, hwidth, hwidth']
    exact ⟨by omega, hrec ▸ hlaid.inside _ (findCol_mem hc)⟩

theorem evalConds_eq {b : Condition → Bool}
    (h : ∀ cond ∈ conds, evalCond cond rec tab.cols = .ok (b cond)) :
    evalConds conds rec tab.cols = .ok (conds.all b) := by
  induction conds with
  | nil => rfl
  | cons cond conds ih =>
    obtain ⟨hcond, hconds⟩ := List.forall_mem_cons.mp h
    simp only [evalConds, hcond, ih hconds, List.all_cons]
    cases b cond with
    | true => rfl
    | false => rfl

theorem evalConditions_eq {b : Condition → Bool}
    (h : ∀ cond ∈ conds, evalCondition tab rec cond = .ok (b cond)) :
    evalConditions tab rec conds = .ok (conds.all b) := by
  induction conds with
  | nil => rfl
  | cons cond conds ih =>
    obtain ⟨hcond, hconds⟩ := List.forall_mem_cons.mp h
    simp only [evalConditions, hcond, ih hconds, List.all_cons]
    cases b cond with
    | true => rfl
    | false => rfl

/-- The evaluators agree on conditions between strings of one declared length. -/
theorem evaluatorsAgree_of_equalLens (hlaid : tab.LaidOut size)
    (hconds : ∀ cond ∈ conds, cond.OnTable tab)
    (heq : ∀ cond ∈ conds, cond.EqualLens tab.cols) (hrec : rec.length = size) :
    EvaluatorsAgree tab conds rec := by
  have hlens {cond : Condition} (hcond : cond ∈ conds) {c : TabCol} {lhs rhs : ColMeta}
      (hrhs : cond.rhs = .col c) (hlhs : findCol tab.cols cond.lhsCol = .ok lhs)
      (hc : findCol tab.cols c = .ok rhs) : lhs.len = rhs.len :=
    len_eq_of_equalLens hlaid (hconds cond hcond) (heq cond hcond) hrhs hlhs hc
  have hseq : ∀ cond ∈ conds, cond.ReadsInside lhsLens tab.cols rec := fun cond hcond =>
    readsInside_of_equalLens hlaid (hconds cond hcond) hrec fun c lhs rhs hrhs hlhs hc => by
      rw [lhsLens, hlens hcond hrhs hlhs hc]
  have hindex : ∀ cond ∈ conds, cond.ReadsInside rhsLens tab.cols rec := fun cond hcond =>
    readsInside_of_equalLens hlaid (hconds cond hcond) hrec fun c lhs rhs hrhs hlhs hc => by
      rw [rhsLens, hlens hcond hrhs hlhs hc]
  refine ⟨evalConds_eq fun cond hcond => ?_, evalConditions_eq fun cond hcond => ?_, hseq, hindex⟩
  · rw [evalCond_eq hlaid (hconds cond hcond) (hseq cond hcond)]
    refine congrArg _ (holds_congr (hconds cond hcond) fun c lhs rhs hrhs hlhs hc => ?_)
    rw [lhsLens, declaredLens, hlens hcond hrhs hlhs hc]
  · rw [evalCondition_eq hlaid (hconds cond hcond) (hindex cond hcond)]
    refine congrArg _ (holds_congr (hconds cond hcond) fun c lhs rhs hrhs hlhs hc => ?_)
    rw [rhsLens, declaredLens, hlens hcond hrhs hlhs hc]

end

/-! ## Strings of different lengths -/

section
variable {size k off len : ℕ} {tab : TabMeta} {cond : Condition}

/-- A record of zeros with one other byte. -/
def oneAt (size k : ℕ) : Bytes := (List.range size).map fun i => if i = k then 1 else 0

@[simp] theorem length_oneAt : (oneAt size k).length = size := by simp [oneAt]

theorem slice_oneAt_of_not_mem (h : k < off ∨ off + len ≤ k) :
    slice (oneAt size k) off len = List.replicate len 0 := by
  refine List.eq_replicate_iff.mpr ⟨length_slice, fun b hb => ?_⟩
  obtain ⟨i, hi, rfl⟩ := List.mem_map.mp hb
  have hi := List.mem_range.mp hi
  have hne : off + i ≠ k := by omega
  by_cases hlt : off + i < size
  · simp [oneAt, hlt, hne]
  · simp [oneAt, Nat.not_lt.mp hlt]

theorem slice_oneAt_ne (h : off ≤ k) (h' : k < off + len) (hsize : off + len ≤ size) :
    slice (oneAt size k) off len ≠ List.replicate len 0 := by
  intro heq
  have hmem : (oneAt size k).getD (off + (k - off)) 0 ∈ slice (oneAt size k) off len :=
    List.mem_map.mpr ⟨k - off, List.mem_range.mpr (by omega), rfl⟩
  rw [heq] at hmem
  have hzero := (List.mem_replicate.mp hmem).2
  have hk : off + (k - off) = k := by omega
  have hlt : k < size := by omega
  simp [oneAt, hk, hlt] at hzero

theorem padTo_replicate {n m : ℕ} (h : n ≤ m) :
    padTo m (List.replicate n 0) = List.replicate m 0 := by
  rw [padTo, List.length_replicate, ← List.replicate_add, Nat.add_sub_cancel' h]

/-- Zeros are not equal to a longer string with another byte in it. -/
theorem compareValues_zeros_ne {n : ℕ} {b : Bytes} (h : n ≤ b.length)
    (hb : b ≠ List.replicate b.length 0) :
    compareValues .string (List.replicate n 0) b ≠ .eq ∧ compareValues .string b
    (List.replicate n 0) ≠ .eq := by
  have hpad : padTo (List.replicate n (0 : UInt8)).length b = b := padTo_of_le (by simpa using h)
  constructor
  · rw [compareValues, padTo_replicate h, hpad, Ne, memcmp_eq_eq (by simp)]
    exact fun heq => hb heq.symm
  · rw [compareValues, padTo_replicate h, hpad, Ne, memcmp_eq_eq (by simp)]
    exact hb

theorem apart_of_ne (hlaid : tab.LaidOut size) {a b : ColMeta} (ha : a ∈ tab.cols)
    (hb : b ∈ tab.cols)
    (hne : a ≠ b) : a.offset + a.len ≤ b.offset ∨ b.offset + b.len ≤ a.offset := by
  have hsymm : Std.Symm fun a b : ColMeta => a.offset + a.len ≤ b.offset ∨
    b.offset + b.len ≤ a.offset :=
    ⟨fun _ _ h => h.symm⟩
  have hpair : tab.cols.Pairwise fun a b => a.offset + a.len ≤ b.offset ∨
    b.offset + b.len ≤ a.offset :=
    hlaid.apart.imp Or.inl
  exact hpair.forall ha hb hne

theorem holds_of_seq (hlaid : tab.LaidOut size) (hcond : cond.OnTable tab) {row : Bytes}
    (h : EvaluatorsAgree tab [cond] row) :
    cond.holds lhsLens tab.cols row = cond.holds declaredLens tab.cols row := by
  have heval := evalCond_eq hlaid hcond (h.seq_reads cond List.mem_cons_self)
  have hone : evalConds [cond] row tab.cols = .ok ([cond].all (·.holds lhsLens tab.cols row)) :=
    evalConds_eq fun d hd => by rwa [List.mem_singleton.mp hd]
  simpa using Except.ok.inj (hone.symm.trans h.seq)

theorem holds_of_index (hlaid : tab.LaidOut size) (hcond : cond.OnTable tab) {row : Bytes}
    (h : EvaluatorsAgree tab [cond] row) :
    cond.holds rhsLens tab.cols row = cond.holds declaredLens tab.cols row := by
  have heval := evalCondition_eq hlaid hcond (h.index_reads cond List.mem_cons_self)
  have hone : evalConditions tab row [cond] = .ok ([cond].all (·.holds rhsLens tab.cols row)) :=
    evalConditions_eq fun d hd => by rwa [List.mem_singleton.mp hd]
  simpa using Except.ok.inj (hone.symm.trans h.index)

/-- An equality between strings of different lengths is judged wrongly on some record. -/
theorem equalLens_of_agree (hlaid : tab.LaidOut size) (hcond : cond.OnTable tab)
    (hop : cond.op = .eq)
    (hagree : ∀ row : Bytes, row.length = size → EvaluatorsAgree tab [cond] row) :
    cond.EqualLens tab.cols := by
  intro c lhs rhs hrhs hlhs hc hstr
  by_contra hlen
  have hapart := apart_of_ne hlaid (findCol_mem hlhs) (findCol_mem hc) fun h => hlen (h ▸ rfl)
  have hinside := hlaid.inside lhs (findCol_mem hlhs)
  have hinside' := hlaid.inside rhs (findCol_mem hc)
  have hzeros (n : ℕ) : compareValues .string (List.replicate n 0) (List.replicate n 0) = .eq := by
    rw [compareValues_string rfl, memcmp_eq_eq rfl]
  have hholds (lens : ReadLens) (row : Bytes) : cond.holds lens tab.cols row =
      (compareValues .string (slice row lhs.offset (lens lhs rhs).1)
        (slice row rhs.offset (lens lhs rhs).2) == .eq) := by
    simp only [Condition.holds, hlhs, hrhs, hc, ColMeta.compares, hop, evalCompare, hstr]
  rcases Nat.lt_or_gt_of_ne hlen with hlt | hgt
  · -- The byte is behind the part of the right column that `eval_cond` reads.
    have hsame := holds_of_seq hlaid hcond (hagree (oneAt size (rhs.offset + lhs.len)) length_oneAt)
    have hleft : slice (oneAt size (rhs.offset + lhs.len)) lhs.offset lhs.len =
      List.replicate lhs.len 0 :=
      slice_oneAt_of_not_mem (by omega)
    have hright : slice (oneAt size (rhs.offset + lhs.len)) rhs.offset lhs.len =
      List.replicate lhs.len 0 :=
      slice_oneAt_of_not_mem (by omega)
    have hone : slice (oneAt size (rhs.offset + lhs.len)) rhs.offset rhs.len ≠
      List.replicate rhs.len 0 :=
      slice_oneAt_ne (by omega) (by omega) hinside'
    rw [hholds, hholds, lhsLens, declaredLens, hleft, hright, hzeros] at hsame
    exact (compareValues_zeros_ne (by rw [length_slice]; omega) (by rwa [length_slice])).1
      (beq_iff_eq.mp hsame.symm)
  · -- The byte is behind the part of the left column that `eval_condition` reads.
    have hsame :=
      holds_of_index hlaid hcond (hagree (oneAt size (lhs.offset + rhs.len)) length_oneAt)
    have hleft : slice (oneAt size (lhs.offset + rhs.len)) lhs.offset rhs.len =
      List.replicate rhs.len 0 :=
      slice_oneAt_of_not_mem (by omega)
    have hright : slice (oneAt size (lhs.offset + rhs.len)) rhs.offset rhs.len =
      List.replicate rhs.len 0 :=
      slice_oneAt_of_not_mem (by omega)
    have hone : slice (oneAt size (lhs.offset + rhs.len)) lhs.offset lhs.len ≠
      List.replicate lhs.len 0 :=
      slice_oneAt_ne (by omega) (by omega) hinside
    rw [hholds, hholds, rhsLens, declaredLens, hleft, hright, hzeros] at hsame
    exact (compareValues_zeros_ne (by rw [length_slice]; omega) (by rwa [length_slice])).2
      (beq_iff_eq.mp hsame.symm)

end

/-! ## Accepted conditions -/

section
variable {V : Type} {cat : Catalog} {conv : V → ColMeta → Except ExecError Value} {t : String}
  {tab : TabMeta}
  {size : ℕ} {conds : List Condition} {exprs : List (BinaryExpr V)}

theorem onTable_of_accepts (htab : cat.tabs t = some tab) (h : Accepts cat conv t exprs conds)
    (hfloat : NoFloats tab conds) : ∀ cond ∈ conds, cond.OnTable tab := by
  intro cond hcond
  obtain ⟨allCols, hall, hconds⟩ := h
  obtain rfl := Except.ok.inj (hall.symm.trans (getAllCols_single htab))
  obtain ⟨expr, _, hexpr⟩ := exists_of_mem_mapM hconds cond hcond
  exact onTable_of_checkClause htab hexpr (hfloat cond hcond)

/-- `a = b` is accepted for two strings of a table. -/
theorem accepts_equality (conv : V → ColMeta → Except ExecError Value)
    (htab : cat.tabs t = some tab)
    {n m : String} {a b : ColMeta} (ha : tab.getCol n = .ok a) (hb : tab.getCol m = .ok b)
    (htype : a.type = b.type) :
    Accepts cat conv t [⟨⟨t, n⟩, .eq, .col ⟨t, m⟩⟩] [⟨⟨t, n⟩, .eq, .col ⟨t, m⟩⟩] := by
  have hne : t ≠ "" := by
    rintro rfl
    rw [cat.named] at htab
    cases htab
  have hcheck {n : String} {a : ColMeta} (ha : tab.getCol n = .ok a) :
      checkColumn tab.cols ⟨t, n⟩ = .ok ⟨t, n⟩ ∧ cat.getCol ⟨t, n⟩ = .ok a := by
    have hfind := (findCol_eq_ok_iff htab).mpr ha
    constructor
    · rw [findCol] at hfind
      split at hfind
      · next hsome =>
        have hany : (tab.cols.any fun col => col.tabName = t ∧ col.name = n) = true :=
          List.any_eq_true.mpr ⟨_, List.mem_of_find?_eq_some
            hsome, by simpa using List.find?_some hsome⟩
        rw [checkColumn, if_neg hne, if_pos hany]
      · cases hfind
    · simp [Catalog.getCol, Catalog.getTable, htab, ha, bind, Except.bind, pure, Except.pure]
  refine ⟨tab.cols, getAllCols_single htab, ?_⟩
  simp [checkClause, hcheck ha, hcheck hb, htype, bind, Except.bind, pure, Except.pure]

end

/-- The two evaluators give what the conditions mean, and read inside the record and the constants,
whenever no condition compares strings of different declared lengths.  An accepted equality of two
columns is judged so on every record only then, and a table is safe for all conditions exactly when
its strings have one declared length. -/
theorem evaluators_agree_iff {V : Type} (cat : Catalog)
    (conv : V → ColMeta → Except ExecError Value) {t : String}
    {tab : TabMeta} {size : ℕ} (htab : cat.tabs t = some tab) (hlaid : tab.LaidOut size) :
    (∀ exprs conds, Accepts cat conv t exprs conds → NoFloats tab conds →
      (∀ cond ∈ conds, cond.EqualLens tab.cols) → ∀ row : Bytes, row.length = size →
        EvaluatorsAgree tab conds row) ∧
    (∀ exprs cond, Accepts cat conv t exprs [cond] → NoFloats tab [cond] → cond.op = .eq →
      ((∀ row : Bytes, row.length = size → EvaluatorsAgree tab [cond] row) ↔
        cond.EqualLens tab.cols)) ∧
    ((∀ exprs conds, Accepts cat conv t exprs conds → NoFloats tab conds →
      ∀ row : Bytes, row.length = size → EvaluatorsAgree tab conds row) ↔ tab.OneStringLen) := by
  have hsuff : ∀ exprs conds, Accepts cat conv t exprs conds → NoFloats tab conds →
      (∀ cond ∈ conds, cond.EqualLens tab.cols) → ∀ row : Bytes, row.length = size →
        EvaluatorsAgree tab conds row := fun exprs conds hacc hfloat heq row hrow =>
    evaluatorsAgree_of_equalLens hlaid (onTable_of_accepts htab hacc hfloat) heq hrow
  refine ⟨hsuff, fun exprs cond hacc hfloat hop => ⟨?_, fun heq => ?_⟩, ?_, ?_⟩
  · exact equalLens_of_agree hlaid (onTable_of_accepts htab hacc hfloat cond List.mem_cons_self) hop
  · exact hsuff exprs [cond] hacc hfloat (by simpa using heq)
  · intro hall n m a b ha hb hstr hstr'
    have hacc := accepts_equality conv htab ha hb (hstr.trans hstr'.symm)
    have hfa := (findCol_eq_ok_iff htab).mpr ha
    have hfb := (findCol_eq_ok_iff htab).mpr hb
    have hfloat : NoFloats tab [⟨⟨t, n⟩, .eq, .col ⟨t, m⟩⟩] := by
      intro cond hcond c hc col hcol
      obtain rfl := List.mem_singleton.mp hcond
      rcases List.mem_pair.mp hc with rfl | rfl
      · rw [← Except.ok.inj (hfa.symm.trans hcol), hstr]
        exact ColType.noConfusion
      · rw [← Except.ok.inj (hfb.symm.trans hcol), hstr']
        exact ColType.noConfusion
    exact equalLens_of_agree hlaid (onTable_of_accepts htab hacc hfloat _ List.mem_cons_self) rfl
      (hall _ _ hacc hfloat) ⟨t, m⟩ a b rfl hfa hfb hstr
  · intro hone exprs conds hacc hfloat
    refine hsuff exprs conds hacc hfloat fun cond hcond c lhs rhs hrhs hlhs hc hstr => ?_
    cases onTable_of_accepts htab hacc hfloat cond hcond with
    | const _ _ hval => cases hrhs.symm.trans hval
    | pair hlhs' hget hrhs' hc' hgetc _ htype =>
      cases hrhs.symm.trans hrhs'
      cases hlhs.symm.trans hlhs'
      cases hc.symm.trans hc'
      exact hone _ _ _ _ hget hgetc hstr (htype ▸ hstr)

/-- A table with the columns `a CHAR(len)` and `b CHAR(2)`. -/
def stringTable (len : ℕ) : TabMeta :=
  ⟨"t", [⟨"t", "a", .string, len, 0⟩, ⟨"t", "b", .string, 2, len⟩], []⟩

/-- The database with this table. -/
def stringCatalog (len : ℕ) : Catalog where
  tabs t := if t = "t" then some (stringTable len) else none
  colTab := by
    intro t tab h col hcol
    split at h
    · next ht =>
      cases h
      simp only [stringTable, List.mem_cons, List.not_mem_nil, or_false] at hcol
      rcases hcol with rfl | rfl
      · exact ht.symm
      · exact ht.symm
    · cases h
  named := rfl

theorem laidOut_stringTable (len : ℕ) : (stringTable len).LaidOut (len + 2) := by
  refine ⟨?_, ?_, ?_⟩
  · simp [stringTable]
  · simp [stringTable]
  · simp [stringTable, compareWidth]

theorem evaluators_agree_one_len :
    EvaluatorsAgree (stringTable 2) [⟨⟨"t", "a"⟩, .lt, .col ⟨"t", "b"⟩⟩] [1, 2, 3, 4] := by
  have htab : (stringCatalog 2).tabs "t" = some (stringTable 2) := rfl
  refine (evaluators_agree_iff (V := Value) (stringCatalog 2) (fun v _ => .ok v) htab
    (laidOut_stringTable 2)).1 [⟨⟨"t", "a"⟩, .lt, .col ⟨"t", "b"⟩⟩] _
    ⟨(stringTable 2).cols, rfl, rfl⟩ ?_ ?_ _ rfl
  · intro cond hcond c hc col hcol
    obtain rfl := List.mem_singleton.mp hcond
    rcases List.mem_pair.mp hc with rfl | rfl
    · cases hcol
      exact ColType.noConfusion
    · cases hcol
      exact ColType.noConfusion
  · intro cond hcond c lhs rhs hrhs hlhs hc _
    obtain rfl := List.mem_singleton.mp hcond
    cases hrhs
    cases hlhs
    cases hc
    rfl

/-- With `a CHAR(1)` and `b CHAR(2)`, the record `x`, `xy` passes `a = b` in a sequential scan. -/
theorem not_evaluators_agree :
    ¬ ∀ (cat : Catalog) (t : String) (tab : TabMeta) (size : ℕ) (exprs : List (BinaryExpr Value))
      (conds : List Condition) (row : Bytes), cat.tabs t = some tab → tab.LaidOut size →
      Accepts cat (fun v _ => .ok v) t exprs conds → NoFloats tab conds → row.length = size →
      EvaluatorsAgree tab conds row := by
  intro h
  have hagree := h (stringCatalog 1) "t" (stringTable 1) 3 [⟨⟨"t", "a"⟩, .eq, .col ⟨"t", "b"⟩⟩]
    [⟨⟨"t", "a"⟩, .eq, .col ⟨"t", "b"⟩⟩] [120, 120, 121] rfl (laidOut_stringTable 1)
    ⟨(stringTable 1).cols, rfl, rfl⟩ ?_ rfl
  · exact absurd hagree.seq (by decide)
  · intro cond hcond c hc col hcol
    obtain rfl := List.mem_singleton.mp hcond
    rcases List.mem_pair.mp hc with rfl | rfl
    · cases hcol
      exact ColType.noConfusion
    · cases hcol
      exact ColType.noConfusion

end Rmdb
