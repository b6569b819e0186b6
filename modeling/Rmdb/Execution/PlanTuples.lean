import Rmdb.Execution.Evaluators
import Rmdb.Execution.JoinPairs
import Rmdb.Optimizer.JoinSides

/-!
# Tuples of bytes

The executors of a plan put the rows of its tables one behind the other, and find a column by its
shifted offset. This is what the plan means: the executors deliver the tuples that its ideal
operators have, as bytes.
-/

namespace Rmdb

/-! ## Rows and columns -/

/-- The length of the rows of a table: `tupleLen()` of a scan. -/
def Catalog.rowLen (cat : Catalog) (t : String) : ℕ :=
  ((cat.tabs t).bind (·.cols.getLast?)).elim 0 fun col => col.offset + col.len

/-- The value of a column in a row of its table. -/
def Catalog.value (cat : Catalog) (c : TabCol) (row : Bytes) : ℤ :=
  match cat.getCol c with
  | .ok col => colVal (slice row col.offset col.len) col.type col.len
  | .error _ => 0

/-- The value of a constant that is compared with a column. -/
def Catalog.literal (cat : Catalog) (c : TabCol) (raw : Bytes) : ℤ :=
  match cat.getCol c with
  | .ok col => colVal raw col.type col.len
  | .error _ => 0

/-- What the tables contain. -/
def ExecDb.contents (cat : Catalog) (db : ExecDb) : Contents Bytes ℤ :=
  ⟨fun t => db.rows t, cat.value, cat.literal⟩

/-- The bytes of a column in a tuple. -/
def Catalog.field (cat : Catalog) (b : Binding String Bytes) (c : TabCol) : Bytes :=
  match cat.getCol c with
  | .ok col => slice ((b c.tabName).getD []) col.offset col.len
  | .error _ => []

/-- A table as `create_table` lays it out, with rows of its length. -/
structure Stored (cat : Catalog) (db : ExecDb) (t : String) (tab : TabMeta) : Prop where
  tabs : cat.tabs t = some tab
  laidOut : tab.LaidOut (cat.rowLen t)
  pos : ∀ col ∈ tab.cols, 0 < col.len
  rows : ∀ row ∈ db.rows t, row.length = cat.rowLen t

/-- A condition whose columns are in the catalog: no FLOATs, of one type and one length, and a
constant has the length of its column. -/
inductive Condition.Compares (cat : Catalog) (cond : Condition) : Prop
  | const {lhs : ColMeta} {raw : Bytes} (hlhs : cat.getCol cond.lhsCol = .ok lhs)
      (hrhs : cond.rhs = .val raw) (hfloat : lhs.type ≠ .float) (hraw : raw.length = lhs.len)
  | pair {lhs rhs : ColMeta} {c : TabCol} (hlhs : cat.getCol cond.lhsCol = .ok lhs)
      (hrhs : cond.rhs = .col c)
      (hc : cat.getCol c = .ok rhs) (hfloat : lhs.type ≠ .float) (htype : lhs.type = rhs.type)
      (hlen : lhs.len = rhs.len)

/-- The rows between the ends of an index scan have those of the table on which its conditions
hold. -/
def IndexReads (cat : Catalog) (db : ExecDb) (s : ScanPlan) : Prop :=
  ∀ tab, cat.tabs s.tabName = some tab →
    ((db.indexRows s.tabName s.indexColNames s.conds).filter fun row =>
      (evalConditions tab row s.conds).toOption = some true).Perm
    ((db.rows s.tabName).filter fun row => (evalConditions tab row s.conds).toOption = some true)

namespace Plan

/-- The bytes of a tuple. -/
def tuple (b : Binding String Bytes) : Plan → Bytes
  | .scan s => (b s.tabName).getD []
  | .join left right _ => left.tuple b ++ right.tuple b

/-- The tuple has rows of the tables of the plan. -/
def Fits (cat : Catalog) (plan : Plan) (b : Binding String Bytes) : Prop :=
  ∀ t ∈ plan.tables, ∃ row, b t = some row ∧ row.length = cat.rowLen t

/-- The tuple has rows of these tables only. -/
structure Bound (cat : Catalog) (plan : Plan) (b : Binding String Bytes) : Prop where
  fits : plan.Fits cat b
  only : ∀ t, t ∉ plan.tables → b t = none

/-- The executor of the plan reads a column where its bytes are. -/
structure Finds (cat : Catalog) (plan : Plan) (c : TabCol) (col col' : ColMeta) : Prop where
  find : findCol (plan.cols cat) c = .ok col'
  type : col'.type = col.type
  len : col'.len = col.len
  inside : col'.offset + col'.len ≤ plan.tupleLen cat
  reads : ∀ b, plan.Fits cat b → slice (plan.tuple b) col'.offset col'.len = cat.field b c

/-- A plan whose executors read what its operators mean. -/
structure Readable (cat : Catalog) (db : ExecDb) (plan : Plan) : Prop where
  nodup : plan.tables.Nodup
  oriented : plan.Oriented
  scanned : ∀ s ∈ plan.scans, ∀ cond ∈ s.conds, OnTables [s.tabName] cond
  compares : ∀ cond ∈ plan.conds, cond.Compares cat
  stored : ∀ t ∈ plan.tables, ∃ tab, Stored cat db t tab
  indexed : ∀ s ∈ plan.scans, s.indexScan = true → IndexReads cat db s

end Plan

section
variable {cat : Catalog} {db : ExecDb} {t : String} {tab : TabMeta} {plan left right : Plan}
  {conds : List Condition}
  {c : TabCol} {col col' : ColMeta} {b : Binding String Bytes} {cond cond' : Condition}

theorem findCol_eq_ok {cols : List ColMeta} : findCol cols c = .ok col ↔
    cols.find? (fun col => col.tabName = c.tabName ∧ col.name = c.colName) = some col := by
  rw [findCol]
  split
  · next h => rw [h, Except.ok.injEq, Option.some_inj]
  · next h =>
    rw [h]
    simp

theorem field_eq (h : cat.getCol c = .ok col) :
    cat.field b c = slice ((b c.tabName).getD []) col.offset col.len := by
  rw [Catalog.field, h]

theorem length_field (h : cat.getCol c = .ok col) : (cat.field b c).length = col.len := by
  rw [field_eq h, length_slice]

namespace Plan

theorem fits_join : (Plan.join left right conds).Fits cat b ↔ left.Fits cat b ∧
    right.Fits cat b := by
  simp only [Fits, tables_join, List.forall_mem_append]

theorem length_tuple (h : plan.Fits cat b) : (plan.tuple b).length = plan.tupleLen cat := by
  induction plan with
  | scan s =>
    obtain ⟨row, hrow, hlen⟩ := h s.tabName (by simp)
    rw [tuple, hrow, tupleLen]
    exact hlen
  | join left right conds ihl ihr =>
    obtain ⟨hl, hr⟩ := fits_join.mp h
    rw [tuple, List.length_append, ihl hl, ihr hr, tupleLen]

theorem tuple_congr {b b' : Binding String Bytes} (h : ∀ t ∈ plan.tables, b t = b' t) :
    plan.tuple b = plan.tuple b' := by
  induction plan with
  | scan s => rw [tuple, tuple, h s.tabName (by simp)]
  | join left right conds ihl ihr =>
    simp only [tables_join, List.forall_mem_append] at h
    rw [tuple, tuple, ihl h.1, ihr h.2]

/-- The columns of a plan are columns of its tables. -/
theorem tabName_mem_of_mem_cols (h : col ∈ plan.cols cat) : col.tabName ∈ plan.tables := by
  induction plan generalizing col with
  | scan s =>
    cases htab : cat.tabs s.tabName with
    | none => simp [cols, htab] at h
    | some tab =>
      have hcol : col ∈ tab.cols := by simpa [cols, htab] using h
      simp [cat.colTab _ _ htab col hcol]
  | join left right conds ihl ihr =>
    rw [tables_join]
    rcases List.mem_append.mp h with h | h
    · exact List.mem_append_left _ (ihl h)
    · obtain ⟨col', hcol', rfl⟩ := List.mem_map.mp h
      exact List.mem_append_right _ (@ihr col' hcol')

/-! ## Finding columns -/

theorem finds_scan {s : ScanPlan} (hst : Stored cat db s.tabName tab) (hc : c.tabName = s.tabName)
    (h : cat.getCol c = .ok col) : (Plan.scan s).Finds cat c col col := by
  obtain ⟨t, name⟩ := c
  obtain rfl : t = s.tabName := hc
  have hfind := (findCol_eq_ok_iff hst.tabs).mpr (getCol_of_catalog hst.tabs h)
  refine ⟨?_, rfl, rfl, hst.laidOut.inside col (findCol_mem hfind), fun b _ => (field_eq h).symm⟩
  simpa [cols, hst.tabs] using hfind

theorem finds_left (conds : List Condition) (right : Plan) (h : left.Finds cat c col col') :
    (Plan.join left right conds).Finds cat c col col' := by
  refine ⟨?_, h.type, h.len, h.inside.trans (Nat.le_add_right _ _), fun b hb => ?_⟩
  · rw [findCol_eq_ok, cols, List.find?_append, findCol_eq_ok.mp h.find, Option.some_or]
  · obtain ⟨hl, -⟩ := fits_join.mp hb
    rw [tuple, slice_append_left (by rw [length_tuple hl]; exact h.inside), h.reads b hl]

theorem finds_right (conds : List Condition) (left : Plan) (h : right.Finds cat c col col')
    (hnot : c.tabName ∉ left.tables) :
    (Plan.join left right conds).Finds cat c col
    { col' with offset := col'.offset + left.tupleLen cat } := by
  refine ⟨?_, h.type, h.len, ?_, fun b hb => ?_⟩
  · have hnone : (left.cols cat).find? (fun col => col.tabName = c.tabName ∧ col.name = c.colName) =
        none := by
      refine List.find?_eq_none.mpr fun col hcol => ?_
      simp only [decide_eq_true_eq, not_and]
      exact fun heq => absurd (heq ▸ tabName_mem_of_mem_cols hcol) hnot
    have hfind := findCol_eq_ok.mp h.find
    rw [findCol_eq_ok, cols, List.find?_append, hnone, Option.none_or, List.find?_map]
    simp only [Function.comp_def, hfind, Option.map_some]
  · have hinside := h.inside
    simp only [tupleLen]
    omega
  · obtain ⟨hl, hr⟩ := fits_join.mp hb
    rw [tuple, slice_append_right (by rw [length_tuple hl]; exact Nat.le_add_left _ _),
      length_tuple hl, Nat.add_sub_cancel, h.reads b hr]

/-- The executor of a plan finds the columns of its tables. -/
theorem exists_finds (hn : plan.tables.Nodup) (hst : ∀ t ∈ plan.tables, ∃ tab, Stored cat db t tab)
    (hc : c.tabName ∈ plan.tables) (h : cat.getCol c = .ok col) :
    ∃ col', plan.Finds cat c col col' := by
  induction plan with
  | scan s =>
    have heq : c.tabName = s.tabName := by simpa using hc
    obtain ⟨tab, htab⟩ := hst s.tabName (by simp)
    exact ⟨col, finds_scan htab heq h⟩
  | join left right conds ihl ihr =>
    rw [tables_join] at hn hc
    simp only [tables_join, List.forall_mem_append] at hst
    obtain ⟨hnl, hnr, hd⟩ := List.nodup_append.mp hn
    rcases List.mem_append.mp hc with hc | hc
    · obtain ⟨col', hcol'⟩ := ihl hnl hst.1 hc
      exact ⟨col', finds_left conds right hcol'⟩
    · obtain ⟨col', hcol'⟩ := ihr hnr hst.2 hc
      exact ⟨_, finds_right conds left hcol' fun hl => hd _ hl _ hc rfl⟩

end Plan

/-! ## Conditions on tuples -/

theorem compares_of_mirrors (hm : Mirrors cond cond') (h : cond.Compares cat) :
    cond'.Compares cat := by
  rcases hm with rfl | ⟨c, hrhs, rfl⟩
  · exact h
  · cases h with
    | const _ hrhs' => cases hrhs.symm.trans hrhs'
    | pair hlhs hrhs' hc hfloat htype hlen =>
      cases hrhs.symm.trans hrhs'
      exact .pair hc rfl hlhs (htype ▸ hfloat) htype.symm hlen.symm

/-- Values of one length are compared by the integers that they stand for. -/
theorem compareValues_eq_compare {type : ColType} {len : ℕ} {x y : Bytes} (hfloat : type ≠ .float)
    (hwidth : compareWidth type len = len) (hx : x.length = len) (hy : y.length = len) :
    compareValues type x y = compare (colVal x type len) (colVal y type len) := by
  have hcomparable (x : Bytes) : Comparable x type := by
    cases type with
    | float => exact absurd rfl hfloat
    | int | bigint | string | datetime => trivial
  rw [← ixCompareCol_eq_compare (hx.trans hy.symm) (hcomparable x) (hcomparable y),
    ixCompareCol_eq_compareValues hfloat hwidth hx.ge hy.ge, List.take_of_length_le hx.le,
      List.take_of_length_le hy.le]

theorem width_of_getCol (hst : Stored cat db c.tabName tab) (h : cat.getCol c = .ok col) :
    compareWidth col.type col.len = col.len ∧ 0 < col.len := by
  have hmem := findCol_mem ((findCol_eq_ok_iff hst.tabs).mpr (getCol_of_catalog hst.tabs h))
  exact ⟨hst.laidOut.width col hmem, hst.pos col hmem⟩

theorem value_of_fits (hb : plan.Fits cat b) (hc : c.tabName ∈ plan.tables)
    (h : cat.getCol c = .ok col) :
    (b c.tabName).map (cat.value c) = some (colVal (cat.field b c) col.type col.len) := by
  obtain ⟨row, hrow, -⟩ := hb c.tabName hc
  rw [field_eq h, hrow, Option.map_some, Catalog.value, h]
  rfl

section
variable (hn : plan.tables.Nodup) (hst : ∀ t ∈ plan.tables, ∃ tab, Stored cat db t tab)
  (hcond : cond.Compares cat) (hon : OnTables plan.tables cond)

include hn hst hcond hon

/-- Reading the bytes of a tuple, a condition says what it says of the rows. -/
theorem holds_tuple (hb : plan.Fits cat b) :
    cond.holds declaredLens (plan.cols cat) (plan.tuple b) = (db.contents cat).holds b cond := by
  have hlin := hon _ (lhsCol_mem_cols cond)
  obtain ⟨tab, htab⟩ := hst _ hlin
  cases hcond with
  | @const lhs raw hlhs hrhs hfloat hraw =>
    obtain ⟨lhs', hl⟩ := Plan.exists_finds hn hst hlin hlhs
    have hwidth := (width_of_getCol htab hlhs).1
    simp only [Condition.holds, hl.find, hrhs, Contents.holds, Contents.rhsValue, ExecDb.contents,
      value_of_fits hb hlin hlhs, Catalog.literal, hlhs, hl.reads b hb, hl.type]
    rw [compareValues_eq_compare hfloat hwidth (length_field hlhs) hraw]
  | @pair lhs rhs c hlhs hrhs hc hfloat htype hlen =>
    have hrin := hon _ (rhsCol_mem_cols hrhs)
    obtain ⟨lhs', hl⟩ := Plan.exists_finds hn hst hlin hlhs
    obtain ⟨rhs', hr⟩ := Plan.exists_finds hn hst hrin hc
    have hwidth := (width_of_getCol htab hlhs).1
    simp only [Condition.holds, hl.find, hrhs, hr.find, ColMeta.compares, declaredLens,
      Contents.holds,
      Contents.rhsValue, ExecDb.contents, value_of_fits hb hlin hlhs, value_of_fits hb hrin hc,
        hl.reads b hb,
      hr.reads b hb, hl.type]
    rw [compareValues_eq_compare hfloat hwidth (length_field hlhs)
      ((length_field hc).trans hlen.symm), htype, hlen]

theorem equalLens_of_compares : cond.EqualLens (plan.cols cat) := by
  intro c lhs' rhs' hrhs hlhs' hc' _
  cases hcond with
  | const _ hrhs' => cases hrhs.symm.trans hrhs'
  | @pair lhs rhs c hlhs hrhs' hc hfloat htype hlen =>
    cases hrhs.symm.trans hrhs'
    obtain ⟨l, hl⟩ := Plan.exists_finds hn hst (hon _ (lhsCol_mem_cols cond)) hlhs
    obtain ⟨r, hr⟩ := Plan.exists_finds hn hst (hon _ (rhsCol_mem_cols hrhs)) hc
    cases hl.find.symm.trans hlhs'
    cases hr.find.symm.trans hc'
    rw [hl.len, hr.len, hlen]

end

/-! ## Scans -/

namespace Plan

theorem Readable.join (h : (Plan.join left right conds).Readable cat db) :
    left.Readable cat db ∧ right.Readable cat db := by
  obtain ⟨hn, ⟨_, hol, hor⟩, hs, hc, hst, hi⟩ := h
  simp only [tables_join, List.forall_mem_append] at hst
  simp only [scans, List.forall_mem_append] at hs hi
  simp only [Plan.conds, List.forall_mem_append] at hc
  rw [tables_join] at hn
  obtain ⟨hnl, hnr, _⟩ := List.nodup_append.mp hn
  exact ⟨⟨hnl, hol, hs.1, hc.2.1, hst.1, hi.1⟩, ⟨hnr, hor, hs.2, hc.2.2, hst.2, hi.2⟩⟩

/-- A condition on a table, as the evaluators of the scans find it. -/
theorem onTable_of_compares (htab : cat.tabs t = some tab) (hcond : cond.Compares cat)
    (hon : OnTables [t] cond) : cond.OnTable tab := by
  have hlin := List.mem_singleton.mp (hon _ (lhsCol_mem_cols cond))
  have hget {c : TabCol} {col : ColMeta} (hc : c.tabName = t) (h : cat.getCol c = .ok col) :
      findCol tab.cols c = .ok col ∧ tab.getCol c.colName = .ok col := by
    obtain ⟨t', name⟩ := c
    obtain rfl : t' = t := hc
    have h := getCol_of_catalog htab h
    exact ⟨(findCol_eq_ok_iff htab).mpr h, h⟩
  cases hcond with
  | const hlhs hrhs hfloat hraw =>
    exact .const (hget hlin hlhs).1 (hget hlin hlhs).2 hrhs hfloat hraw
  | pair hlhs hrhs hc hfloat htype =>
    have hrin := List.mem_singleton.mp (hon _ (rhsCol_mem_cols hrhs))
    exact .pair (hget hlin hlhs).1 (hget hlin hlhs).2 hrhs (hget hrin hc).1
      (hget hrin hc).2 hfloat htype

/-- The tuple of one row. -/
def single (t : String) (row : Bytes) : Binding String Bytes :=
  Function.update (fun _ => none) t (some row)

theorem bound_single {s : ScanPlan} {row : Bytes} (h : row.length = cat.rowLen s.tabName) :
    (Plan.scan s).Bound cat (single s.tabName row) := by
  refine ⟨fun t ht => ?_, fun t ht => ?_⟩
  · obtain rfl : t = s.tabName := by simpa using ht
    exact ⟨row, by simp [single], h⟩
  · exact Function.update_of_ne (by simpa using ht) _ _

/-- Both scans keep the rows on which the conditions hold. -/
theorem keeps_eq {s : ScanPlan} {row : Bytes} (h : (Plan.scan s).Readable cat db)
    (htab : cat.tabs s.tabName = some tab) (hrow : row.length = cat.rowLen s.tabName) :
    (evalConds s.conds row tab.cols).toOption =
        some (s.conds.all fun cond => (db.contents cat).holds (single s.tabName row) cond) ∧
      (evalConditions tab row s.conds).toOption =
        some (s.conds.all fun cond => (db.contents cat).holds (single s.tabName row) cond) := by
  obtain ⟨tab', hst⟩ := h.stored s.tabName (by simp)
  obtain rfl := Option.some.inj (hst.tabs.symm.trans htab)
  have hon : ∀ cond ∈ s.conds, OnTables [s.tabName] cond := h.scanned s List.mem_cons_self
  have hcols : (Plan.scan s).cols cat = tab'.cols := by simp [cols, htab]
  have hagree : EvaluatorsAgree tab' s.conds row := by
    refine evaluatorsAgree_of_equalLens hst.laidOut
      (fun cond hcond => onTable_of_compares htab (h.compares cond hcond) (hon cond hcond))
        (fun cond hcond => ?_) hrow
    rw [← hcols]
    exact equalLens_of_compares h.nodup h.stored (h.compares cond hcond) (hon cond hcond)
  have hall : (s.conds.all fun cond => cond.holds declaredLens tab'.cols row) =
      s.conds.all fun cond => (db.contents cat).holds (single s.tabName row) cond := by
    rw [Bool.eq_iff_iff, List.all_eq_true, List.all_eq_true]
    refine forall₂_congr fun cond hcond => ?_
    have htuple := holds_tuple h.nodup h.stored (h.compares cond hcond) (hon cond hcond)
      (bound_single hrow).fits
    rw [hcols] at htuple
    have hrow : (Plan.scan s).tuple (single s.tabName row) = row := by simp [tuple, single]
    rw [← htuple, hrow]
  rw [hagree.seq, hagree.index, hall]
  exact ⟨rfl, rfl⟩

theorem tuple_single (s : ScanPlan) (row : Bytes) :
    (Plan.scan s).tuple (single s.tabName row) = row := by
  simp [tuple, single]

/-- Tuples of the two children of a join, put together. -/
theorem bound_merge (h : (Plan.join left right conds).Readable cat db)
    {bl br : Binding String Bytes}
    (hl : left.Bound cat bl) (hr : right.Bound cat br) :
    (Plan.join left right conds).Bound cat (Binding.merge bl br) := by
  have hn := h.nodup
  rw [tables_join] at hn
  obtain ⟨_, _, hd⟩ := List.nodup_append.mp hn
  refine ⟨fits_join.mpr ⟨fun t ht => ?_, fun t ht => ?_⟩, fun t ht => ?_⟩
  · obtain ⟨row, hrow, hlen⟩ := hl.fits t ht
    exact ⟨row, by simp [Binding.merge, hrow], hlen⟩
  · obtain ⟨row, hrow, hlen⟩ := hr.fits t ht
    have hnone := hl.only t fun hl => hd t hl t ht rfl
    exact ⟨row, by simp [Binding.merge, hrow, hnone], hlen⟩
  · rw [tables_join, List.mem_append, not_or] at ht
    simp [Binding.merge, hl.only t ht.1, hr.only t ht.2]

/-- The tuples of a plan have rows of its tables, and of no others. -/
theorem bound_of_mem_denote (h : plan.Readable cat db) (hb : b ∈ plan.denote (db.contents cat)) :
    plan.Bound cat b := by
  induction plan generalizing b with
  | scan s =>
    have hmem := Multiset.mem_of_mem_filter hb
    rw [Binding.cross_singleton] at hmem
    obtain ⟨row, hrow, rfl⟩ := Multiset.mem_map.mp hmem
    obtain ⟨tab, hst⟩ := h.stored s.tabName (by simp)
    exact bound_single (hst.rows row hrow)
  | join left right conds ihl ihr =>
    obtain ⟨hl, hr⟩ := h.join
    obtain ⟨bl, hbl, hmem⟩ := Multiset.mem_bind.mp (Multiset.mem_of_mem_filter hb)
    obtain ⟨br, hbr, rfl⟩ := Multiset.mem_map.mp hmem
    exact bound_merge h (ihl hl hbl) (ihr hr hbr)

/-- The bytes of two tuples that are put together. -/
theorem tuple_merge (h : (Plan.join left right conds).Readable cat db) {bl : Binding String Bytes}
    (hl : left.Bound cat bl) (br : Binding String Bytes) :
    left.tuple (Binding.merge bl br) = left.tuple bl ∧ right.tuple (Binding.merge bl br) =
    right.tuple br := by
  have hn := h.nodup
  rw [tables_join] at hn
  obtain ⟨_, _, hd⟩ := List.nodup_append.mp hn
  refine ⟨tuple_congr fun t ht => ?_, tuple_congr fun t ht => ?_⟩
  · obtain ⟨row, hrow, -⟩ := hl.fits t ht
    simp [Binding.merge, hrow]
  · simp [Binding.merge, hl.only t fun hl => hd t hl t ht rfl]

/-! ## Joins -/

/-- The conditions of a join have their columns on its two sides. -/
theorem placed_of_readable (h : (Plan.join left right conds).Readable cat db)
    (hcond : cond ∈ conds) :
    cond.Placed ((Plan.join left right conds).cols cat) (left.tupleLen cat)
    (right.tupleLen cat) := by
  obtain ⟨hl, hr⟩ := h.join
  have hn := h.nodup
  rw [tables_join] at hn
  obtain ⟨_, _, hd⟩ := List.nodup_append.mp hn
  obtain ⟨c, hrhs, hlin, hrin⟩ := h.oriented.1 cond hcond
  cases h.compares cond (List.mem_append_left _ hcond) with
  | const _ hrhs' => cases hrhs.symm.trans hrhs'
  | @pair lhs rhs c' hlhs hrhs' hc hfloat htype hlen =>
    cases hrhs.symm.trans hrhs'
    obtain ⟨lhs', hfl⟩ := exists_finds hl.nodup hl.stored hlin hlhs
    obtain ⟨rhs', hfr⟩ := exists_finds hr.nodup hr.stored hrin hc
    obtain ⟨ltab, hlst⟩ := hl.stored _ hlin
    obtain ⟨rtab, hrst⟩ := hr.stored _ hrin
    obtain ⟨hlwidth, hlpos⟩ := width_of_getCol hlst hlhs
    obtain ⟨hrwidth, hrpos⟩ := width_of_getCol hrst hc
    have hl' := finds_left conds right hfl
    have hr' := finds_right conds left hfr fun hmem => hd _ hmem _ hrin rfl
    have hlin' := hfl.inside
    have hrin' := hfr.inside
    have hlen' : lhs'.len = rhs'.len := by rw [hfl.len, hfr.len, hlen]
    have hlpos' : 0 < lhs'.len := hfl.len ▸ hlpos
    have hlt : lhs'.offset < left.tupleLen cat := by omega
    refine .pair hl'.find hrhs hr'.find ⟨?_, ?_⟩ ⟨?_, ?_⟩ ?_ ?_ ?_ ?_ ?_
    · rwa [hfl.type]
    · rwa [hfl.type, hfl.len]
    · rwa [hr'.type, ← htype]
    · rwa [hr'.type, hr'.len]
    · rw [hfl.type, hr'.type, htype]
    · simp [hlt]
    · rw [WithinSide, if_pos hlt]
      exact hlin'
    · simp only [WithinSide]
      rw [if_neg (by omega)]
      omega
    · simp only [WithinSide]
      rw [if_neg (by omega)]
      omega

/-- The executor joins two tuples when the conditions hold of their rows. -/
theorem test_eq_holds (h : (Plan.join left right conds).Readable cat db) {p : JoinParams}
    {capacity : ℕ}
    (hp : joinParams ((Plan.join left right conds).cols cat) (left.tupleLen cat) capacity conds =
      .ok p)
    {bl br : Binding String Bytes} (hl : left.Bound cat bl) (hr : right.Bound cat br) :
    p.test (left.tuple bl) (right.tuple br) = true ↔
      ∀ cond ∈ conds, (db.contents cat).holds (Binding.merge bl br) cond = true := by
  obtain ⟨htl, htr⟩ := tuple_merge h hl br
  rw [test_eq_satisfies (fun cond hcond => placed_of_readable h hcond) hp (length_tuple hl.fits)
    (length_tuple hr.fits), satisfies, List.all_eq_true]
  refine forall₂_congr fun cond hcond => ?_
  have hcompares := h.compares cond (List.mem_append_left _ hcond)
  have hon : OnTables (Plan.join left right conds).tables cond := by
    obtain ⟨c, hrhs, hlin, hrin⟩ := h.oriented.1 cond hcond
    simp [OnTables, Condition.cols, hrhs, hlin, hrin]
  rw [holds_lhsLens_eq (placed_of_readable h hcond)
    (equalLens_of_compares h.nodup h.stored hcompares hon),
    ← holds_tuple h.nodup h.stored hcompares hon (bound_merge h hl hr).fits, tuple, htl, htr]

/-! ## What the executors deliver -/

/-- The rows of a scan on which its conditions hold. -/
theorem map_tuple_denote_scan (s : ScanPlan) :
    ((Plan.scan s).denote (db.contents cat)).map (Plan.scan s).tuple =
    ((db.rows s.tabName).filter fun row =>
      s.conds.all fun cond => (db.contents cat).holds (single s.tabName row) cond :
      List Bytes) := by
  have hid : (Plan.scan s).tuple ∘ single s.tabName = id := funext (tuple_single s)
  have hcross : Binding.cross (db.contents cat).rows [s.tabName] =
      ((db.rows s.tabName : Multiset Bytes)).map (single s.tabName) := Binding.cross_singleton _ _
  rw [denote, Contents.select, hcross, Multiset.filter_map, Multiset.map_map, hid, Multiset.map_id,
    Multiset.filter_coe]
  refine congrArg _ (List.filter_congr fun row _ => ?_)
  rw [Bool.eq_iff_iff, decide_eq_true_iff, List.all_eq_true]
  rfl

theorem result_scan {s : ScanPlan} {tree : ExecTree} (h : (Plan.scan s).Readable cat db)
    (htree : convertPlanExecutor cat db (.scan s) = some tree) :
    tree.result = ((Plan.scan s).denote (db.contents cat)).map (Plan.scan s).tuple := by
  obtain ⟨tab, hst⟩ := h.stored s.tabName (by simp)
  have hkeeps (row : Bytes) (hrow : row ∈ db.rows s.tabName) :=
    keeps_eq h hst.tabs (hst.rows row hrow)
  rw [map_tuple_denote_scan]
  cases hscan : s.indexScan with
  | false =>
    simp only [convertPlanExecutor, hst.tabs, hscan] at htree
    obtain rfl := Option.some.inj htree
    refine congrArg _ (List.filter_congr fun row hrow => ?_)
    simp only [(hkeeps row hrow).1, Option.some_inj, Bool.decide_eq_true]
  | true =>
    have hconds : indexConds s.tabName s.conds = some s.conds :=
      indexConds_self fun cond hc =>
        List.mem_singleton.mp (h.scanned s List.mem_cons_self cond hc _ (lhsCol_mem_cols cond))
    simp only [convertPlanExecutor, hst.tabs, hscan, hconds] at htree
    obtain rfl := Option.some.inj htree
    refine (Multiset.coe_eq_coe.mpr (h.indexed s List.mem_cons_self hscan tab hst.tabs)).trans ?_
    refine congrArg _ (List.filter_congr fun row hrow => ?_)
    simp only [(hkeeps row hrow).2, Option.some_inj, Bool.decide_eq_true]

/-- The pairs that a join emits are the bytes of the pairs that meet its conditions. -/
theorem result_join {lt rt : ExecTree} {p : JoinParams} {capacity : ℕ}
    (h : (Plan.join left right conds).Readable cat db)
    (hp : joinParams ((Plan.join left right conds).cols cat) (left.tupleLen cat) capacity conds =
      .ok p)
    (hl : lt.result = (left.denote (db.contents cat)).map left.tuple)
    (hr : rt.result = (right.denote (db.contents cat)).map right.tuple) :
    (ExecTree.join lt rt p).result =
      ((Plan.join left right conds).denote (db.contents cat)).map
      (Plan.join left right conds).tuple := by
  obtain ⟨hreadl, hreadr⟩ := h.join
  rw [ExecTree.result, hl, hr, denote, Contents.select, Binding.product, Multiset.filter_bind,
    Multiset.map_bind, Multiset.bind_map]
  refine Multiset.bind_congr fun bl hbl => ?_
  rw [Multiset.filter_map, Multiset.filter_map, Multiset.map_map, Multiset.map_map]
  have hbl := bound_of_mem_denote hreadl hbl
  have hfilter : (right.denote (db.contents cat)).filter
        ((fun r => p.test (left.tuple bl) r = true) ∘ right.tuple) =
      (right.denote (db.contents cat)).filter
        ((fun b => ∀ cond ∈ conds, (db.contents cat).holds b cond = true) ∘
        Binding.merge bl) := by
    refine Multiset.filter_congr fun br hbr => ?_
    exact test_eq_holds h hp hbl (bound_of_mem_denote hreadr hbr)
  rw [hfilter]
  refine Multiset.map_congr rfl fun br _ => ?_
  obtain ⟨htl, htr⟩ := tuple_merge h hbl br
  simp only [Function.comp_apply, tuple, htl, htr]

/-- The executors of a plan have to deliver the bytes of the tuples that it means. -/
theorem result_eq {tree : ExecTree} (h : plan.Readable cat db)
    (htree : convertPlanExecutor cat db plan = some tree) :
    tree.result = (plan.denote (db.contents cat)).map plan.tuple := by
  induction plan generalizing tree with
  | scan s => exact result_scan h htree
  | join left right conds ihl ihr =>
    obtain ⟨hl, hr⟩ := h.join
    obtain ⟨lt, hlt, htree⟩ := Option.bind_eq_some_iff.mp htree
    obtain ⟨rt, hrt, htree⟩ := Option.bind_eq_some_iff.mp htree
    obtain ⟨specs, hspecs, htree⟩ := Option.bind_eq_some_iff.mp htree
    obtain rfl := Option.some.inj htree
    have hp : joinParams ((Plan.join left right conds).cols cat)
      (left.tupleLen cat) joinBufferSize conds =
        .ok ⟨specs, left.tupleLen cat, joinBufferSize⟩ := by
      rw [joinParams]
      cases hm : conds.mapM (buildCondSpec ((Plan.join left right conds).cols cat)
        (left.tupleLen cat)) with
      | error e =>
        rw [hm] at hspecs
        cases hspecs
      | ok specs' =>
        rw [hm] at hspecs
        obtain rfl := Option.some.inj hspecs
        rfl
    exact result_join h hp (ihl hl hlt) (ihr hr hrt)

end Plan

end

end Rmdb
