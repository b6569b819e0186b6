import Rmdb.Lib.Bindings
import Rmdb.Lib.Outcome
import Rmdb.Optimizer.Planner

/-!
# What a join plan means

A plan is read with ideal operators: a scan filters the rows of its table by its conditions, and a
join filters the product of its children.  The plan of a query should denote the product of its
tables, filtered by its conditions.  It does when each table is scanned once and each condition
stands at one operator that has all its columns.  `pop_conds` gives every comparison of two columns
of one table to the first scan, so this holds exactly when those comparisons are on the first table.
-/

namespace Rmdb

/-! ## Plans with ideal operators -/

/-- The rows of the tables, and the values of columns and literals. -/
structure Contents (ρ α : Type) where
  rows : String → Multiset ρ
  value : TabCol → ρ → α
  literal : TabCol → Bytes → α

section
variable {ρ α : Type} [LinearOrder α]

/-- The value of the right-hand side, when its row is there. -/
def Contents.rhsValue (D : Contents ρ α) (b : Binding String ρ) (cond : Condition) : Option α :=
  match cond.rhs with
  | .val raw => some (D.literal cond.lhsCol raw)
  | .col col => (b col.tabName).map (D.value col)

/-- The condition holds of a tuple that has the rows it needs. -/
def Contents.holds (D : Contents ρ α) (b : Binding String ρ) (cond : Condition) : Bool :=
  match (b cond.lhsCol.tabName).map (D.value cond.lhsCol), D.rhsValue b cond with
  | some x, some y => evalCompare (compare x y) cond.op
  | _, _ => false

/-- The tuples that meet all conditions. -/
def Contents.select (D : Contents ρ α) (conds : List Condition) (R : Multiset (Binding String ρ)) :
    Multiset (Binding String ρ) :=
  R.filter fun b => ∀ cond ∈ conds, D.holds b cond = true

/-- The tuples of a plan. -/
def Plan.denote (D : Contents ρ α) : Plan → Multiset (Binding String ρ)
  | .scan s => D.select s.conds (Binding.cross D.rows [s.tabName])
  | .join left right conds => D.select conds (Binding.product (left.denote D) (right.denote D))

end

namespace Plan

/-- The scans of a plan. -/
def scans : Plan → List ScanPlan
  | .scan s => [s]
  | .join left right _ => left.scans ++ right.scans

/-- The tables that a plan scans: the input of its operator. -/
def tables (plan : Plan) : List String := plan.scans.map (·.tabName)

/-- The conditions of the joins. -/
def joinConds : Plan → List Condition
  | .scan _ => []
  | .join left right conds => conds ++ (left.joinConds ++ right.joinConds)

/-- The conditions of all operators. -/
def conds : Plan → List Condition
  | .scan s => s.conds
  | .join left right conds => conds ++ (left.conds ++ right.conds)

/-- The conditions of each join have `P` for the tables of its input. -/
def EachJoin (P : List String → Condition → Prop) : Plan → Prop
  | .scan _ => True
  | .join left right conds =>
    (∀ cond ∈ conds, P (left.tables ++ right.tables) cond) ∧ left.EachJoin P ∧ right.EachJoin P

/-- The conditions of each operator have `P` for the tables of its input. -/
def Each (P : List String → Condition → Prop) (plan : Plan) : Prop :=
  (∀ scan ∈ plan.scans, ∀ cond ∈ scan.conds, P [scan.tabName] cond) ∧ plan.EachJoin P

end Plan

/-- The columns of a table. -/
def Catalog.colsOf (cat : Catalog) (tabName : String) : List TabCol :=
  match cat.tabs tabName with
  | some tab => tab.cols.map fun col => ⟨col.tabName, col.name⟩
  | none => []

/-- The same comparison, with operands and operator possibly mirrored. -/
def Mirrors (cond cond' : Condition) : Prop :=
  cond' = cond ∨ ∃ col, cond.rhs = .col col ∧ cond' = ⟨col, cond.op.swapOp, .col cond.lhsCol⟩

/-- The plan means the query: each table is scanned once, each condition stands at one operator
whose input has the columns it mentions, and the tuples are those of the product that meet the
conditions. -/
structure MeansQuery (cat : Catalog) (query : Query) (plan : Plan) : Prop where
  tables : plan.tables.Perm query.tables
  attached : Multiset.Rel Mirrors query.conds plan.conds
  covered : plan.Each fun tables cond => ∀ col ∈ cond.cols, col ∈ tables.flatMap cat.colsOf
  denotes : ∀ (ρ α : Type) [LinearOrder α] (D : Contents ρ α),
    plan.denote D = D.select query.conds (Binding.cross D.rows query.tables)

/-- The condition is not a comparison of two columns of a table other than the first one. -/
def OnFirstTable (query : Query) (cond : Condition) : Prop :=
  ∀ col, cond.rhs = .col col → cond.lhsCol.tabName = col.tabName →
    query.tables.head? = some cond.lhsCol.tabName

/-! ## Ideal operators -/

section
variable {ρ α : Type} [LinearOrder α] {D : Contents ρ α} {b : Binding String ρ}
  {cond cond' : Condition}
  {conds conds' : List Condition} {plan : Plan}

theorem evalCompare_swap (c : Ordering) (op : CompOp) :
    evalCompare c.swap op.swapOp = evalCompare c op := by
  cases c <;> cases op <;> rfl

theorem holds_of_mirrors (h : Mirrors cond cond') : D.holds b cond' = D.holds b cond := by
  rcases h with rfl | ⟨col, hcol, rfl⟩
  · rfl
  have hswap : ∀ x y : α, evalCompare (compare y x) cond.op.swapOp =
      evalCompare (compare x y) cond.op := by
    intro x y
    rw [Std.OrientedOrd.eq_swap, evalCompare_swap]
  simp only [Contents.holds, Contents.rhsValue, hcol]
  cases (b cond.lhsCol.tabName).map (D.value cond.lhsCol) with
  | none => cases (b col.tabName).map (D.value col) <;> rfl
  | some x =>
    cases (b col.tabName).map (D.value col) with
    | none => rfl
    | some y => exact hswap x y

theorem select_of_rel (h : Multiset.Rel Mirrors (conds : Multiset Condition) conds')
    (R : Multiset (Binding String ρ)) : D.select conds' R = D.select conds R := by
  refine Multiset.filter_congr fun b _ => ⟨fun hb cond hc => ?_, fun hb cond' hc => ?_⟩
  · obtain ⟨cond', hc', hm⟩ := Multiset.exists_mem_of_rel_of_mem h (Multiset.mem_coe.mpr hc)
    exact (holds_of_mirrors hm).symm.trans (hb cond' (Multiset.mem_coe.mp hc'))
  · obtain ⟨cond, hc, hm⟩ := Multiset.exists_mem_of_rel_of_mem (Multiset.rel_flip.mpr h)
      (Multiset.mem_coe.mpr hc)
    exact (holds_of_mirrors hm).trans (hb cond (Multiset.mem_coe.mp hc))

theorem reads_holds (D : Contents ρ α) (cond : Condition) :
    Binding.Reads (D.holds · cond = true) (cond.cols.map (·.tabName)) := by
  intro b b' h
  have hl : b cond.lhsCol.tabName = b' cond.lhsCol.tabName := by
    refine h _ (List.mem_map.mpr ⟨cond.lhsCol, ?_, rfl⟩)
    cases hr : cond.rhs <;> simp [Condition.cols, hr]
  have hr : D.rhsValue b cond = D.rhsValue b' cond := by
    cases hr : cond.rhs with
    | val raw => simp [Contents.rhsValue, hr]
    | col col =>
      have hc : b col.tabName = b' col.tabName :=
        h _ (List.mem_map.mpr ⟨col, by simp [Condition.cols, hr], rfl⟩)
      simp [Contents.rhsValue, hr, hc]
  simp only [Contents.holds, hl, hr]

/-- Conditions on given tables look at the rows of these tables only. -/
theorem reads_select (D : Contents ρ α) {tables : List String}
    (h : ∀ cond ∈ conds, ∀ col ∈ cond.cols, col.tabName ∈ tables) :
    Binding.Reads (fun b => ∀ cond ∈ conds, D.holds b cond = true) tables := by
  intro b b' hb
  refine forall₂_congr fun cond hc => ?_
  refine (reads_holds D cond).mono (fun t ht => ?_) b b' hb
  obtain ⟨col, hcol, rfl⟩ := List.mem_map.mp ht
  exact h cond hc col hcol

theorem select_select (R : Multiset (Binding String ρ)) :
    D.select conds (D.select conds' R) = D.select (conds ++ conds') R := by
  rw [Contents.select, Contents.select, Contents.select, Multiset.filter_filter]
  refine Multiset.filter_congr fun b _ => ?_
  simp only [List.mem_append, or_imp, forall_and]

theorem product_select {tables tables' : List String} (hd : ∀ t ∈ tables, t ∉ tables')
    (h : ∀ cond ∈ conds, ∀ col ∈ cond.cols, col.tabName ∈ tables)
    (h' : ∀ cond ∈ conds', ∀ col ∈ cond.cols, col.tabName ∈ tables') :
    Binding.product (D.select conds (Binding.cross D.rows tables))
        (D.select conds' (Binding.cross D.rows tables')) =
      D.select (conds ++ conds') (Binding.cross D.rows (tables ++ tables')) := by
  refine (Binding.filter_product D.rows (reads_select D h) (reads_select D h') hd).trans ?_
  refine Multiset.filter_congr fun b _ => ?_
  simp only [List.mem_append, or_imp, forall_and]

namespace Plan

theorem conds_tables {P : List String → Condition → Prop} (h : plan.Each P)
    (hP : ∀ ts ts' cond, (∀ t ∈ ts, t ∈ ts') → P ts cond → P ts' cond) :
    ∀ cond ∈ plan.conds, P plan.tables cond := by
  induction plan with
  | scan s => exact fun cond hc => h.1 s List.mem_cons_self cond hc
  | join left right conds ihl ihr =>
    obtain ⟨hs, hj, hjl, hjr⟩ := h
    have hl := ihl ⟨fun s hm => hs s (List.mem_append_left _ hm), hjl⟩
    have hr := ihr ⟨fun s hm => hs s (List.mem_append_right _ hm), hjr⟩
    have ht : (Plan.join left right conds).tables = left.tables ++ right.tables := by
      simp [tables, scans]
    intro cond hc
    rw [ht]
    simp only [Plan.conds, List.mem_append] at hc
    rcases hc with hc | hc | hc
    · exact hj cond hc
    · exact hP _ _ _ (fun t h => List.mem_append_left _ h) (hl cond hc)
    · exact hP _ _ _ (fun t h => List.mem_append_right _ h) (hr cond hc)

/-- A plan whose operators have the tables of their conditions filters the product of its tables. -/
theorem denote_eq (hn : plan.tables.Nodup)
    (h : plan.Each fun tables cond => ∀ col ∈ cond.cols, col.tabName ∈ tables) :
    plan.denote D = D.select plan.conds (Binding.cross D.rows plan.tables) := by
  induction plan with
  | scan s => rfl
  | join left right conds ihl ihr =>
    have ht : (Plan.join left right conds).tables = left.tables ++ right.tables := by
      simp [tables, scans]
    rw [ht] at hn ⊢
    obtain ⟨hs, hj, hjl, hjr⟩ := h
    have hl : left.Each fun tables cond => ∀ col ∈ cond.cols, col.tabName ∈ tables :=
      ⟨fun s hm => hs s (List.mem_append_left _ hm), hjl⟩
    have hr : right.Each fun tables cond => ∀ col ∈ cond.cols, col.tabName ∈ tables :=
      ⟨fun s hm => hs s (List.mem_append_right _ hm), hjr⟩
    have hmono : ∀ (ts ts' : List String) (cond : Condition), (∀ t ∈ ts, t ∈ ts') →
        (∀ col ∈ cond.cols, col.tabName ∈ ts) → ∀ col ∈ cond.cols, col.tabName ∈ ts' :=
      fun ts ts' cond h hc col hcol => h _ (hc col hcol)
    obtain ⟨hnl, hnr, hd⟩ := List.nodup_append.mp hn
    rw [denote, ihl hnl hl, ihr hnr hr, product_select (fun t ht ht' => hd t ht t ht' rfl)
      (conds_tables hl hmono) (conds_tables hr hmono), select_select]
    rfl

end Plan

end

/-! ## Analysis -/

section
variable {V : Type} {cat : Catalog} {convert : V → ColMeta → Except ExecError Bytes}

theorem inferTable_spec {colName t : String} {cols : List ColMeta} {tabName : String}
    (h : inferTable colName cols tabName = .ok t) :
    t = tabName ∨ ∃ col ∈ cols, col.tabName = t ∧ col.name = colName := by
  induction cols generalizing tabName with
  | nil => exact .inl (by simpa [inferTable] using h.symm)
  | cons col cols ih =>
    rw [inferTable] at h
    split at h
    · next hname =>
      split at h
      · cases h
      · rcases ih h with rfl | ⟨c, hc, hct⟩
        · exact .inr ⟨col, List.mem_cons_self, rfl, hname⟩
        · exact .inr ⟨c, List.mem_cons_of_mem _ hc, hct⟩
    · rcases ih h with ht | ⟨c, hc, hct⟩
      · exact .inl ht
      · exact .inr ⟨c, List.mem_cons_of_mem _ hc, hct⟩

/-- An accepted column is one of the columns. -/
theorem checkColumn_spec {allCols : List ColMeta} {target c : TabCol}
    (h : checkColumn allCols target = .ok c) :
    ∃ col ∈ allCols, col.tabName = c.tabName ∧ col.name = c.colName := by
  rw [checkColumn] at h
  split at h
  · obtain ⟨t, hi, h⟩ := exists_of_bind_ok h
    split at h
    · cases h
    · next ht =>
      cases h
      exact (inferTable_spec hi).resolve_left ht
  · split at h
    · next hany =>
      cases h
      simpa using hany
    · cases h

theorem getTable_ok {t : String} {tab : TabMeta} (h : cat.getTable t = .ok tab) :
    cat.tabs t = some tab := by
  rw [Catalog.getTable] at h
  split at h
  · next htab =>
    cases h
    exact htab
  · cases h

theorem mem_allCols {tables : List String} {allCols : List ColMeta}
    (h : getAllCols cat tables = .ok allCols) {col : ColMeta} (hcol : col ∈ allCols) :
    ∃ t ∈ tables, ⟨col.tabName, col.name⟩ ∈ cat.colsOf t := by
  obtain ⟨tabs, htabs, h⟩ := exists_of_bind_ok h
  cases h
  obtain ⟨tab, htab, hcol⟩ := List.mem_flatMap.mp hcol
  obtain ⟨t, ht, hget⟩ := exists_of_mem_mapM htabs tab htab
  refine ⟨t, ht, ?_⟩
  rw [Catalog.colsOf, getTable_ok hget]
  exact List.mem_map.mpr ⟨col, hcol, rfl⟩

theorem tables_exist {tables : List String} {tabs : List TabMeta}
    (h : tables.mapM cat.getTable = .ok tabs) : ∀ t ∈ tables, (cat.tabs t).isSome = true := by
  induction tables generalizing tabs with
  | nil => simp
  | cons t ts ih =>
    rw [List.mapM_cons] at h
    obtain ⟨tab, htab, h⟩ := exists_of_bind_ok h
    obtain ⟨tabs, htabs, _⟩ := exists_of_bind_ok h
    intro t' ht'
    rcases List.mem_cons.mp ht' with rfl | ht'
    · simp [getTable_ok htab]
    · exact ih htabs t' ht'

theorem tabName_of_mem_colsOf {t : String} {col : TabCol} (h : col ∈ cat.colsOf t) :
    col.tabName = t := by
  rw [Catalog.colsOf] at h
  split at h
  · next tab htab =>
    obtain ⟨c, hc, rfl⟩ := List.mem_map.mp h
    exact cat.colTab t tab htab c hc
  · cases h

/-- The columns of a checked condition are columns of the tables. -/
theorem checkClause_spec {allCols : List ColMeta} {expr : BinaryExpr V} {cond : Condition}
    (h : checkClause cat convert allCols expr = .ok cond) :
    ∀ c ∈ cond.cols, ∃ col ∈ allCols, col.tabName = c.tabName ∧ col.name = c.colName := by
  obtain ⟨lhs, hlhs, h⟩ := exists_of_bind_ok h
  split at h
  · obtain ⟨lhsCol, _, h⟩ := exists_of_bind_ok h
    split at h
    · cases h
      intro c hc
      rw [List.mem_singleton.mp hc]
      exact checkColumn_spec hlhs
    · cases h
  · obtain ⟨rhs, hrhs, h⟩ := exists_of_bind_ok h
    obtain ⟨lhsCol, _, h⟩ := exists_of_bind_ok h
    obtain ⟨rhsCol, _, h⟩ := exists_of_bind_ok h
    split at h
    · cases h
    · cases h
      intro c hc
      rcases List.mem_pair.mp hc with rfl | rfl
      · exact checkColumn_spec hlhs
      · exact checkColumn_spec hrhs

/-- What an accepted query has. -/
structure Query.Checked (cat : Catalog) (query : Query) : Prop where
  exist : ∀ t ∈ query.tables, (cat.tabs t).isSome = true
  cols : ∀ cond ∈ query.conds, ∀ col ∈ cond.cols,
    col.tabName ∈ query.tables ∧ col ∈ cat.colsOf col.tabName

theorem checked_of_doAnalyze {stmt : SelectStmt V} {query : Query}
    (h : doAnalyze cat convert stmt = .ok query) :
    query.tables = stmt.tabs ∧ query.Checked cat := by
  obtain ⟨allCols, hall, h⟩ := exists_of_bind_ok h
  obtain ⟨conds, hconds, h⟩ := exists_of_bind_ok h
  cases h
  obtain ⟨tabs, htabs, _⟩ := exists_of_bind_ok hall
  refine ⟨rfl, tables_exist htabs, fun cond hc c hcol => ?_⟩
  obtain ⟨expr, _, hexpr⟩ := exists_of_mem_mapM hconds cond hc
  obtain ⟨col, hcol, hct, hcn⟩ := checkClause_spec hexpr c hcol
  obtain ⟨t, ht, hmem⟩ := mem_allCols hall hcol
  rw [hct, hcn] at hmem
  have htab : c.tabName = t := tabName_of_mem_colsOf hmem
  exact ⟨htab ▸ ht, htab.symm ▸ hmem⟩

end

/-! ## Scans -/

section
variable {sm : SmView} {conds rest : List Condition} {scans : List ScanPlan} {cond : Condition}

theorem makeScan_spec {t : String} (h : (sm.catalog.tabs t).isSome = true)
    (conds : List Condition) :
    ∃ s, makeScan sm t conds = some s ∧ s.tabName = t ∧ s.conds = conds := by
  obtain ⟨tab, htab⟩ := Option.isSome_iff_exists.mp h
  cases hi : getIndexCols tab t conds with
  | none => exact ⟨_, by simp [makeScan, htab, hi]; rfl, rfl, rfl⟩
  | some cols => exact ⟨_, by simp [makeScan, htab, hi]; rfl, rfl, rfl⟩

/-- The condition does not compare two columns of one table. -/
def Condition.AcrossTables (cond : Condition) : Prop :=
  ∀ col, cond.rhs = .col col → cond.lhsCol.tabName ≠ col.tabName

theorem acrossTables_of_not_popsCond {t : String} (h : popsCond t cond = false) :
    cond.AcrossTables := by
  intro col hcol
  simpa [popsCond, hcol] using h

/-- What the scans of `make_one_rel` take, and what they leave: the first scan takes every
comparison of two columns of one table. -/
structure ScansOf (tables : List String) (conds : List Condition) (scans : List ScanPlan)
    (rest : List Condition) : Prop where
  names : scans.map (·.tabName) = tables
  split : (scans.flatMap (·.conds) ++ rest).Perm conds
  taken : ∀ s ∈ scans, ∀ cond ∈ s.conds, popsCond s.tabName cond = true
  left : ∀ cond ∈ rest, ∀ t ∈ tables, popsCond t cond = false
  first : ∀ s ∈ scans.head?, s.conds = conds.filter (popsCond s.tabName)
  others : ∀ s ∈ scans.tail, ∀ cond ∈ s.conds, cond.AcrossTables

theorem ScansOf.mem_of_mem_conds {tables : List String} (h : ScansOf tables conds scans rest)
    {s : ScanPlan}
    (hs : s ∈ scans) (hc : cond ∈ s.conds) : cond ∈ conds :=
  h.split.subset (List.mem_append_left _ (List.mem_flatMap.mpr ⟨s, hs, hc⟩))

theorem ScansOf.mem_of_mem_rest {tables : List String} (h : ScansOf tables conds scans rest)
    (hc : cond ∈ rest) : cond ∈ conds :=
  h.split.subset (List.mem_append_right _ hc)

theorem makeScans_spec {tables : List String} (h : ∀ t ∈ tables, (sm.catalog.tabs t).isSome = true)
    (conds : List Condition) :
    ∃ scans rest, makeScans sm tables conds = some (scans, rest) ∧
    ScansOf tables conds scans rest := by
  induction tables generalizing conds with
  | nil => exact ⟨[], conds, rfl, rfl, by simp, by simp, by simp, by simp, by simp⟩
  | cons t ts ih =>
    obtain ⟨s, hs, hst, hsc⟩ := makeScan_spec (h t List.mem_cons_self) (popConds conds t).1
    obtain ⟨scans, rest, hm, hw⟩ :=
      ih (fun t' ht' => h t' (List.mem_cons_of_mem _ ht')) (popConds conds t).2
    refine ⟨s :: scans, rest, by simp [makeScans, hs, hm], ?_, ?_, ?_, ?_, ?_, ?_⟩
    · simp [hst, hw.names]
    · rw [List.flatMap_cons, hsc, List.append_assoc]
      refine (hw.split.append_left _).trans ?_
      exact List.filter_append_perm _ conds
    · intro s' hs' cond hc
      rcases List.mem_cons.mp hs' with rfl | hs'
      · rw [hsc] at hc
        exact hst ▸ (List.mem_filter.mp hc).2
      · exact hw.taken s' hs' cond hc
    · intro cond hc t' ht'
      rcases List.mem_cons.mp ht' with rfl | ht'
      · simpa using (List.mem_filter.mp (hw.mem_of_mem_rest hc)).2
      · exact hw.left cond hc t' ht'
    · intro s' hs'
      cases hs'
      rw [hsc, hst]
      rfl
    · intro s' hs' cond hc
      have hpop := (List.mem_filter.mp (hw.mem_of_mem_conds hs' hc)).2
      exact acrossTables_of_not_popsCond (by simpa using hpop)

end

/-! ## Joins -/

section
variable {sm : SmView} {scans : List ScanPlan} {cond : Condition} {left right plan : Plan}

/-- The tables of a condition are among the given ones. -/
def OnTables (tables : List String) (cond : Condition) : Prop :=
  ∀ col ∈ cond.cols, col.tabName ∈ tables

theorem Mirrors.onTables {tables : List String} {cond' : Condition} (h : Mirrors cond cond') :
    OnTables tables cond' ↔ OnTables tables cond := by
  rcases h with rfl | ⟨col, hcol, rfl⟩
  · rfl
  · simp only [OnTables, Condition.cols, hcol, List.forall_mem_cons]
    tauto

theorem OnTables.mono {tables tables' : List String} (h : OnTables tables cond)
    (hs : ∀ t ∈ tables, t ∈ tables') : OnTables tables' cond :=
  fun col hcol => hs _ (h col hcol)

@[simp] theorem tables_scan (s : ScanPlan) : (Plan.scan s).tables = [s.tabName] := rfl

@[simp] theorem tables_join (conds : List Condition) :
    (Plan.join left right conds).tables = left.tables ++ right.tables := by
  simp [Plan.tables, Plan.scans]

/-- `plan` joins the two children by the given conditions, in one order or the other. -/
structure Joins (left right : Plan) (conds : List Condition) (plan : Plan) : Prop where
  scans : plan.scans.Perm (left.scans ++ right.scans)
  covered : (∀ cond ∈ conds, OnTables plan.tables cond) → left.EachJoin OnTables →
    right.EachJoin OnTables → plan.EachJoin OnTables
  attached : ∃ conds', Multiset.Rel Mirrors (conds : Multiset Condition) conds' ∧
    (plan.joinConds : Multiset Condition) = conds' + (left.joinConds + right.joinConds)

theorem Joins.tables {conds : List Condition} (h : Joins left right conds plan) (t : String) :
    t ∈ plan.tables ↔ t ∈ left.tables ∨ t ∈ right.tables := by
  rw [Plan.tables, (h.scans.map _).mem_iff, List.map_append, List.mem_append]
  rfl

theorem mirrors_refl (cond : Condition) : Mirrors cond cond := .inl rfl

theorem mirrors_mirror {col : TabCol} (h : cond.rhs = .col col) : Mirrors cond cond.mirror :=
  .inr ⟨col, h, by simp [Condition.mirror, h]⟩

theorem rel_mirror {conds : List Condition} (h : ∀ cond ∈ conds, ∃ col, cond.rhs = .col col) :
    Multiset.Rel Mirrors (conds : Multiset Condition)
    (conds.map Condition.mirror : List Condition) := by
  induction conds with
  | nil => exact .zero
  | cons cond conds ih =>
    obtain ⟨col, hcol⟩ := h cond List.mem_cons_self
    exact .cons (mirrors_mirror hcol) (ih fun c hc => h c (List.mem_cons_of_mem _ hc))

theorem joins_makeJoinPlan {conds : List Condition}
    (h : ∀ cond ∈ conds, ∃ col, cond.rhs = .col col) :
    Joins left right conds (makeJoinPlan sm left right conds) := by
  have hplain : Joins left right conds (.join left right conds) := by
    refine ⟨List.Perm.refl _, fun hc hl hr => ⟨fun cond hm => ?_, hl, hr⟩, conds, ?_, rfl⟩
    · simpa using hc cond hm
    · exact Multiset.rel_refl_of_refl_on fun cond _ => mirrors_refl cond
  have hswapped : Joins left right conds (.join right left (conds.map Condition.mirror)) := by
    refine ⟨List.perm_append_comm, fun hc hl hr => ⟨fun cond hm => ?_, hr, hl⟩, _, rel_mirror h, ?_⟩
    · obtain ⟨c, hmem, rfl⟩ := List.mem_map.mp hm
      obtain ⟨col, hcol⟩ := h c hmem
      exact (mirrors_mirror hcol).onTables.mpr (by simpa using hc c hmem)
    · rw [add_comm (left.joinConds : Multiset Condition)]
      rfl
  unfold makeJoinPlan
  split
  · split
    · exact hplain
    · exact hswapped
  · exact hplain

/-- The condition is put at a join of the plan. -/
structure Attaches (cond : Condition) (plan plan' : Plan) : Prop where
  scans : plan'.scans = plan.scans
  attached : ∃ cond', Mirrors cond cond' ∧ (plan'.joinConds : Multiset Condition) =
    cond' ::ₘ plan.joinConds
  covered : plan.EachJoin OnTables → plan'.EachJoin OnTables

theorem Attaches.tables {plan' : Plan} (h : Attaches cond plan plan') :
    plan'.tables = plan.tables := by
  rw [Plan.tables, h.scans, Plan.tables]

theorem Attaches.join_left {left' : Plan} (conds : List Condition) (h : Attaches cond left left') :
    Attaches cond (.join left right conds) (.join left' right conds) := by
  refine ⟨by simp [Plan.scans, h.scans], ?_, fun hj => ⟨?_, h.covered hj.2.1, hj.2.2⟩⟩
  · obtain ⟨cond', hm, heq⟩ := h.attached
    refine ⟨cond', hm, ?_⟩
    simp only [Plan.joinConds, ← Multiset.coe_add, heq, Multiset.cons_add, Multiset.add_cons]
  · rw [h.tables]
    exact hj.1

theorem Attaches.join_right {right' : Plan} (conds : List Condition)
    (h : Attaches cond right right') :
    Attaches cond (.join left right conds) (.join left right' conds) := by
  refine ⟨by simp [Plan.scans, h.scans], ?_, fun hj => ⟨?_, hj.2.1, h.covered hj.2.2⟩⟩
  · obtain ⟨cond', hm, heq⟩ := h.attached
    refine ⟨cond', hm, ?_⟩
    simp only [Plan.joinConds, ← Multiset.coe_add, heq, Multiset.add_cons]
  · rw [h.tables]
    exact hj.1

theorem attaches_here {conds : List Condition} {cond' : Condition} (hm : Mirrors cond cond')
    (hon : OnTables (left.tables ++ right.tables) cond) :
    Attaches cond (.join left right conds) (.join left right (conds ++ [cond'])) := by
  refine ⟨rfl, ⟨cond', hm, ?_⟩, fun hj => ⟨fun c hc => ?_, hj.2⟩⟩
  · simp only [Plan.joinConds, List.append_assoc, List.singleton_append]
    exact Multiset.coe_eq_coe.mpr List.perm_middle
  · rcases List.mem_append.mp hc with hc | hc
    · exact hj.1 c hc
    · rw [List.mem_singleton.mp hc]
      exact hm.onTables.mpr hon

/-- `push_conds` attaches a condition on two tables of the plan, and else says which of them it
found. -/
theorem pushConds_spec {col : TabCol} (hcol : cond.rhs = .col col)
    (hne : cond.lhsCol.tabName ≠ col.tabName) (hn : plan.tables.Nodup) :
    (cond.lhsCol.tabName ∈ plan.tables ∧ col.tabName ∈ plan.tables ∧ (pushConds cond plan).1 = 3 ∧
      Attaches cond plan (pushConds cond plan).2) ∨
    (¬ (cond.lhsCol.tabName ∈ plan.tables ∧ col.tabName ∈ plan.tables) ∧
      pushConds cond plan = (if cond.lhsCol.tabName ∈ plan.tables then 1
        else if col.tabName ∈ plan.tables then 2 else 0, plan)) := by
  induction plan with
  | scan s =>
    refine .inr ⟨?_, ?_⟩
    · simp only [tables_scan, List.mem_singleton]
      rintro ⟨h1, h2⟩
      exact hne (h1.trans h2.symm)
    · simp only [pushConds, tables_scan, List.mem_singleton, Condition.rhsTab, hcol, eq_comm]
  | join left right conds ihl ihr =>
    rw [tables_join] at hn ⊢
    obtain ⟨hnl, hnr, hd⟩ := List.nodup_append.mp hn
    simp only [List.mem_append]
    rcases ihl hnl with ⟨hl, hr, h3, hatt⟩ | ⟨hnotl, heql⟩
    · have heq : pushConds cond (.join left right conds) =
          (3, .join (pushConds cond left).2 right conds) := by
        simp only [pushConds, h3, if_pos]
      rw [heq]
      exact .inl ⟨.inl hl, .inl hr, rfl, hatt.join_left conds⟩
    rcases ihr hnr with ⟨hl, hr, h3, hatt⟩ | ⟨hnotr, heqr⟩
    · have heq : pushConds cond (.join left right conds) =
          (3, .join left (pushConds cond right).2 conds) := by
        simp only [pushConds, heql, h3]
        split <;> grind
      rw [heq]
      exact .inl ⟨.inr hl, .inr hr, rfl, hatt.join_right conds⟩
    have hon : ∀ {ts}, cond.lhsCol.tabName ∈ ts → col.tabName ∈ ts → OnTables ts cond := by
      intro ts h1 h2
      simp [OnTables, Condition.cols, hcol, h1, h2]
    by_cases hlr : cond.lhsCol.tabName ∈ left.tables ∧ col.tabName ∈ right.tables
    · have hr : cond.lhsCol.tabName ∉ right.tables := fun h => hnotr ⟨h, hlr.2⟩
      have heq : pushConds cond (.join left right conds) =
          (3, .join left right (conds ++ [cond])) := by
        simp [pushConds, heql, heqr, hlr, hr]
      rw [heq]
      refine .inl ⟨.inl hlr.1, .inr hlr.2, rfl, attaches_here (mirrors_refl cond) (hon ?_ ?_)⟩
      · exact List.mem_append_left _ hlr.1
      · exact List.mem_append_right _ hlr.2
    by_cases hrl : col.tabName ∈ left.tables ∧ cond.lhsCol.tabName ∈ right.tables
    · have hl : cond.lhsCol.tabName ∉ left.tables := fun h => hnotl ⟨h, hrl.1⟩
      have heq : pushConds cond (.join left right conds) =
          (3, .join left right (conds ++ [cond.mirror])) := by
        simp [pushConds, heql, heqr, hrl, hl]
      rw [heq]
      refine .inl ⟨.inr hrl.2, .inl hrl.1, rfl, attaches_here (mirrors_mirror hcol) (hon ?_ ?_)⟩
      · exact List.mem_append_right _ hrl.2
      · exact List.mem_append_left _ hrl.1
    -- At most one of the two tables is found, and on one side only.
    have hda : cond.lhsCol.tabName ∈ left.tables → cond.lhsCol.tabName ∉ right.tables :=
      fun h h' => hd _ h _ h' rfl
    have hdb : col.tabName ∈ left.tables → col.tabName ∉ right.tables := fun h h' => hd _ h _ h' rfl
    have hnot : ¬ ((cond.lhsCol.tabName ∈ left.tables ∨ cond.lhsCol.tabName ∈ right.tables) ∧
        (col.tabName ∈ left.tables ∨ col.tabName ∈ right.tables)) := by
      rintro ⟨h1 | h1, h2 | h2⟩
      · exact hnotl ⟨h1, h2⟩
      · exact hlr ⟨h1, h2⟩
      · exact hrl ⟨h2, h1⟩
      · exact hnotr ⟨h1, h2⟩
    refine .inr ⟨hnot, ?_⟩
    by_cases h1 : cond.lhsCol.tabName ∈ left.tables
    · have h3 : col.tabName ∉ right.tables := fun h => hlr ⟨h1, h⟩
      simp [pushConds, heql, heqr, h1, hda h1, h3]
    by_cases h2 : cond.lhsCol.tabName ∈ right.tables
    · have h3 : col.tabName ∉ left.tables := fun h => hrl ⟨h, h2⟩
      simp [pushConds, heql, heqr, h1, h2, h3]
    by_cases h3 : col.tabName ∈ left.tables
    · simp [pushConds, heql, heqr, h1, h2, h3, hdb h3]
    by_cases h4 : col.tabName ∈ right.tables
    · simp [pushConds, heql, heqr, h1, h2, h3, h4]
    · simp [pushConds, heql, heqr, h1, h2, h3, h4]

end

/-! ## The loops of `make_one_rel` -/

section
variable {sm : SmView} {scans used : List ScanPlan} {cond : Condition} {left right plan : Plan}
  {done done' : Multiset Condition} {popped : Popped} {st : Popped × Plan}

instance : IsTrans Condition Mirrors where
  trans := by
    rintro a b c (rfl | ⟨col, hcol, rfl⟩) h
    · exact h
    · rcases h with rfl | ⟨col', hcol', rfl⟩
      · exact .inr ⟨col, hcol, rfl⟩
      · cases hcol'
        have hop : a.op.swapOp.swapOp = a.op := by cases a.op <;> rfl
        refine .inl ?_
        rw [hop, ← hcol]

/-- A plan over some of the scans whose joins have the conditions `done`. -/
structure PlanOk (scans : List ScanPlan) (done : Multiset Condition) (plan : Plan) : Prop where
  sub : ∀ s ∈ plan.scans, s ∈ scans
  nodup : plan.scans.Nodup
  covered : plan.EachJoin OnTables
  attached : Multiset.Rel Mirrors done plan.joinConds

/-- `scantbl` and `joined_tables` when the scans `used` have been taken. -/
structure PoppedFor (scans used : List ScanPlan) (popped : Popped) : Prop where
  flags : popped.scantbl = scans.map fun s => decide (s ∈ used)
  joined : ∀ t, t ∈ popped.joinedTables ↔ t = "" ∨ t ∈ used.map (·.tabName)

/-- What the loop over the conditions keeps. -/
structure Joined (scans : List ScanPlan) (done : Multiset Condition)
    (st : Popped × Plan) : Prop where
  plan : PlanOk scans done st.2
  popped : PoppedFor scans st.2.scans st.1

theorem planOk_scan {s : ScanPlan} (h : s ∈ scans) : PlanOk scans 0 (.scan s) := by
  refine ⟨?_, List.nodup_singleton s, trivial, .zero⟩
  intro s' hs'
  rwa [List.mem_singleton.mp hs']

theorem PlanOk.joins {conds : List Condition} (hl : PlanOk scans done left)
    (hr : PlanOk scans done' right)
    (hd : ∀ s ∈ left.scans, s ∉ right.scans) (h : Joins left right conds plan)
    (hon : ∀ cond ∈ conds, OnTables plan.tables cond) :
    PlanOk scans (conds + (done + done')) plan := by
  refine ⟨fun s hs => ?_, ?_, h.covered hon hl.covered hr.covered, ?_⟩
  · rcases List.mem_append.mp (h.scans.subset hs) with hs | hs
    · exact hl.sub s hs
    · exact hr.sub s hs
  · refine h.scans.nodup_iff.mpr (List.nodup_append.mpr ⟨hl.nodup, hr.nodup, ?_⟩)
    rintro s hs s' hs' rfl
    exact hd s hs hs'
  · obtain ⟨conds', hrel, heq⟩ := h.attached
    rw [heq]
    exact hrel.add (hl.attached.add hr.attached)

theorem PlanOk.rel (h : PlanOk scans done plan) (hrel : Multiset.Rel Mirrors done' done) :
    PlanOk scans done' plan :=
  ⟨h.sub, h.nodup, h.covered, hrel.trans _ h.attached⟩

theorem PoppedFor.perm {used' : List ScanPlan} (h : PoppedFor scans used popped)
    (hp : used'.Perm used) : PoppedFor scans used' popped := by
  refine ⟨?_, fun t => ?_⟩
  · rw [h.flags]
    exact List.map_congr_left fun s _ => by simp only [hp.mem_iff]
  · rw [h.joined, (hp.map _).mem_iff]

/-- Scans with distinct tables are told apart by their tables. -/
theorem eq_of_tabName (hn : (scans.map (·.tabName)).Nodup) {s s' : ScanPlan} (hs : s ∈ scans)
    (hs' : s' ∈ scans) (h : s.tabName = s'.tabName) : s = s' :=
  List.inj_on_of_nodup_map hn hs hs' h

theorem PlanOk.nodup_tables (h : PlanOk scans done plan) (hn : (scans.map (·.tabName)).Nodup) :
    plan.tables.Nodup :=
  h.nodup.map_on fun s hs s' hs' heq => eq_of_tabName hn (h.sub s hs) (h.sub s' hs') heq

theorem popScan_spec (hn : (scans.map (·.tabName)).Nodup) (h : PoppedFor scans used popped)
    {t : String}
    (ht : t ∈ scans.map (·.tabName)) :
    ∃ s ∈ scans, ∃ popped', s.tabName = t ∧ popScan popped t scans = (some s, popped') ∧
      PoppedFor scans (s :: used) popped' := by
  obtain ⟨s, hs, rfl⟩ := List.mem_map.mp ht
  have hfind := List.findIdx?_eq_some_of_exists (p := fun s' : ScanPlan => s'.tabName = s.tabName)
    ⟨s, hs, by simp⟩
  obtain ⟨hi, hname, _⟩ := List.findIdx?_eq_some_iff_getElem.mp hfind
  generalize scans.findIdx (fun s' : ScanPlan => s'.tabName = s.tabName) = i at hfind hi hname
  have hget : scans[i] = s := eq_of_tabName hn (List.getElem_mem hi) hs (by simpa using hname)
  have hpop : popScan popped s.tabName scans =
      (some s, ⟨popped.scantbl.set i true, popped.joinedTables ++ [s.tabName]⟩) := by
    simp only [popScan, hfind, List.getElem?_eq_getElem hi, hget]
  refine ⟨s, hs, _, rfl, hpop, ?_, fun t => ?_⟩
  · simp only [h.flags]
    refine List.ext_getElem (by simp) fun j hj hj' => ?_
    rw [List.length_map] at hj'
    by_cases hij : i = j
    · subst hij
      simp [hget]
    · have hne : scans[j] ≠ s := by
        intro heq
        exact hij ((List.Nodup.getElem_inj_iff hn.of_map).mp (hget.trans heq.symm))
      simp [hij, hne]
  · simp only [List.mem_append, h.joined, List.map_cons, List.mem_cons]
    tauto

/-- The condition compares columns of two of the tables. -/
def JoinsTables (tables : List String) (cond : Condition) : Prop :=
  ∃ col, cond.rhs = .col col ∧ cond.lhsCol.tabName ≠ col.tabName ∧ cond.lhsCol.tabName ∈ tables ∧
    col.tabName ∈ tables

/-- The join of two scans by a condition on their tables. -/
theorem joins_pair (sm : SmView) {s s' : ScanPlan} (hs : s ∈ scans) (hs' : s' ∈ scans)
    {col : TabCol}
    (hcol : cond.rhs = .col col) (hdiff : cond.lhsCol.tabName ≠ col.tabName)
    (hst : s.tabName = cond.lhsCol.tabName) (hst' : s'.tabName = col.tabName) :
    (makeJoinPlan sm (.scan s) (.scan s') [cond]).scans.Perm [s', s] ∧
      PlanOk scans {cond} (makeJoinPlan sm (.scan s) (.scan s') [cond]) := by
  have hjoins : Joins (.scan s) (.scan s') [cond] (makeJoinPlan sm (.scan s) (.scan s') [cond]) :=
    joins_makeJoinPlan (by simp [hcol])
  refine ⟨hjoins.scans.trans (List.Perm.swap _ _ _), ?_⟩
  refine PlanOk.joins (planOk_scan hs) (planOk_scan hs') ?_ hjoins ?_
  · simp only [Plan.scans, List.mem_singleton]
    rintro _ rfl rfl
    exact hdiff (hst.symm.trans hst')
  · simp [OnTables, Condition.cols, hcol, hjoins.tables, hst, hst']

theorem firstJoin_spec (sm : SmView) (hn : (scans.map (·.tabName)).Nodup) (hne : scans ≠ [])
    (h : JoinsTables (scans.map (·.tabName)) cond) :
    ∃ st, firstJoin sm scans cond = some st ∧ Joined scans {cond} st := by
  obtain ⟨col, hcol, hdiff, hl, hr⟩ := h
  have hrhs : cond.rhsTab = col.tabName := by simp [Condition.rhsTab, hcol]
  have h0 : PoppedFor scans [] ⟨scans.map fun _ => false, scans.map fun _ => ""⟩ := by
    refine ⟨by simp, fun t => ?_⟩
    simp [hne]
  obtain ⟨s, hs, popped, hst, hpop, h1⟩ := popScan_spec hn h0 hl
  obtain ⟨s', hs', popped', hst', hpop', h2⟩ := popScan_spec hn h1 hr
  obtain ⟨hperm, hok⟩ := joins_pair sm hs hs' hcol hdiff hst hst'
  refine ⟨(popped', makeJoinPlan sm (.scan s) (.scan s') [cond]), ?_, hok, h2.perm hperm⟩
  simp only [firstJoin, hpop, hrhs, hpop']
  rfl

/-- A plan over other tables, joined to the plan. -/
theorem Joined.join (sm : SmView) {conds : List Condition} (h : Joined scans done st)
    (hl : PlanOk scans done' left)
    (hd : ∀ t ∈ left.tables, t ∉ st.2.tables)
    (hpopped : PoppedFor scans (left.scans ++ st.2.scans) popped)
    (hcol : ∀ cond ∈ conds, ∃ col, cond.rhs = .col col)
    (hon : ∀ cond ∈ conds, OnTables (left.tables ++ st.2.tables) cond) :
    Joined scans (conds + (done' + done)) (popped, makeJoinPlan sm left st.2 conds) := by
  have hjoins : Joins left st.2 conds (makeJoinPlan sm left st.2 conds) := joins_makeJoinPlan hcol
  refine ⟨hl.joins h.plan (fun s hs hmem => ?_) hjoins fun c hc => ?_, hpopped.perm hjoins.scans⟩
  · exact hd _ (List.mem_map.mpr ⟨s, hs, rfl⟩) (List.mem_map.mpr ⟨s, hmem, rfl⟩)
  · refine (hon c hc).mono fun t ht => (hjoins.tables t).mpr ?_
    simpa using ht

/-- The scan of a table that the plan does not have, joined to the plan. -/
theorem Joined.add (h : Joined scans done st) {s : ScanPlan} (hs : s ∈ scans)
    (hnot : s.tabName ∉ st.2.tables)
    (hpopped : PoppedFor scans (s :: st.2.scans) popped) {col : TabCol} (hcol : cond.rhs = .col col)
    (hon : OnTables (s.tabName :: st.2.tables) cond) :
    Joined scans (cond ::ₘ done) (popped, makeJoinPlan sm (.scan s) st.2 [cond]) := by
  have hjoin : Joined scans (([cond] : List Condition) + (0 + done))
      (popped, makeJoinPlan sm (.scan s) st.2 [cond]) :=
    h.join sm (planOk_scan hs) (by simpa using hnot) hpopped (by simp [hcol]) (by simpa using hon)
  simpa using hjoin

theorem Joined.push {plan' : Plan} (h : Joined scans done st) (hatt : Attaches cond st.2 plan') :
    Joined scans (cond ::ₘ done) (st.1, plan') := by
  obtain ⟨cond', hm, heq⟩ := hatt.attached
  refine ⟨⟨hatt.scans ▸ h.plan.sub, hatt.scans ▸ h.plan.nodup, hatt.covered h.plan.covered, ?_⟩,
    hatt.scans ▸ h.popped⟩
  rw [heq]
  exact .cons hm h.plan.attached

theorem joinCond_spec (sm : SmView) (hn : (scans.map (·.tabName)).Nodup)
    (hempty : "" ∉ scans.map (·.tabName))
    (hj : Joined scans done st) (h : JoinsTables (scans.map (·.tabName)) cond) :
    ∃ st', joinCond sm scans st cond = some st' ∧ Joined scans (cond ::ₘ done) st' := by
  obtain ⟨col, hcol, hdiff, hl, hr⟩ := h
  have hrhs : cond.rhsTab = col.tabName := by simp [Condition.rhsTab, hcol]
  have hl0 : cond.lhsCol.tabName ≠ "" := fun h => hempty (h ▸ hl)
  have hr0 : col.tabName ≠ "" := fun h => hempty (h ▸ hr)
  have hlj : cond.lhsCol.tabName ∈ st.1.joinedTables ↔ cond.lhsCol.tabName ∈ st.2.tables := by
    simp [hj.popped.joined, hl0, Plan.tables]
  have hrj : col.tabName ∈ st.1.joinedTables ↔ col.tabName ∈ st.2.tables := by
    simp [hj.popped.joined, hr0, Plan.tables]
  have hcols : cond.cols = [cond.lhsCol, col] := by simp [Condition.cols, hcol]
  by_cases hlin : cond.lhsCol.tabName ∈ st.2.tables
  · by_cases hrin : col.tabName ∈ st.2.tables
    · have heq : joinCond sm scans st cond = some (st.1, (pushConds cond st.2).2) := by
        simp [joinCond, hrhs, hlj.mpr hlin, hrj.mpr hrin]
      refine ⟨_, heq, hj.push ?_⟩
      rcases pushConds_spec hcol hdiff (hj.plan.nodup_tables hn) with ⟨_, _, _, hatt⟩ | ⟨hnot, _⟩
      · exact hatt
      · exact absurd ⟨hlin, hrin⟩ hnot
    · obtain ⟨s, hs, popped, hst, hpop, h1⟩ := popScan_spec hn hj.popped hr
      have heq : joinCond sm scans st cond =
          some (popped, makeJoinPlan sm (.scan s) st.2 [cond.mirror]) := by
        simp [joinCond, hrhs, hlj.mpr hlin, mt hrj.mp hrin, hpop]
      have hm := mirrors_mirror hcol
      have hcol' : cond.mirror.rhs = .col cond.lhsCol := by simp [Condition.mirror, hcol]
      have hon : OnTables (s.tabName :: st.2.tables) cond.mirror :=
        hm.onTables.mpr (by simp [OnTables, hcols, hst, hlin])
      have hadd : Joined scans (cond.mirror ::ₘ done)
        (popped, makeJoinPlan sm (.scan s) st.2 [cond.mirror]) :=
        hj.add hs (hst ▸ hrin) h1 hcol' hon
      refine ⟨_, heq, hadd.plan.rel ?_, hadd.popped⟩
      exact .cons hm (Multiset.rel_refl_of_refl_on fun c _ => mirrors_refl c)
  · obtain ⟨s, hs, popped, hst, hpop, h1⟩ := popScan_spec hn hj.popped hl
    have hrj' : col.tabName ∈ popped.joinedTables ↔ col.tabName ∈ st.2.tables := by
      simp [h1.joined, hr0, hst, hdiff.symm, Plan.tables]
    by_cases hrin : col.tabName ∈ st.2.tables
    · have heq : joinCond sm scans st cond =
          some (popped, makeJoinPlan sm (.scan s) st.2 [cond]) := by
        simp [joinCond, hrhs, mt hlj.mp hlin, hpop, hrj'.mpr hrin]
      refine ⟨_, heq, hj.add hs (hst ▸ hlin) h1 hcol ?_⟩
      simp [OnTables, hcols, hst, hrin]
    · obtain ⟨s', hs', popped', hst', hpop', h2⟩ := popScan_spec hn h1 hr
      have heq : joinCond sm scans st cond = some (popped',
          makeJoinPlan sm (makeJoinPlan sm (.scan s) (.scan s') [cond]) st.2 []) := by
        simp [joinCond, hrhs, mt hlj.mp hlin, hpop, mt hrj'.mp hrin, hpop']
      obtain ⟨hperm, hok⟩ := joins_pair sm hs hs' hcol hdiff hst hst'
      have hnew : ∀ t ∈ (makeJoinPlan sm (.scan s) (.scan s') [cond]).tables, t ∉ st.2.tables := by
        intro t ht
        have hmem := (hperm.map (·.tabName)).subset ht
        simp only [List.map_cons, List.map_nil, List.mem_cons, List.not_mem_nil, or_false, hst,
          hst'] at hmem
        rcases hmem with rfl | rfl
        · exact hrin
        · exact hlin
      have hjoin : Joined scans (([] : List Condition) + ({cond} + done)) (popped',
          makeJoinPlan sm (makeJoinPlan sm (.scan s) (.scan s') [cond]) st.2 []) :=
        hj.join sm hok hnew (h2.perm (hperm.append_right _)) (by simp) (by simp)
      exact ⟨_, heq, by simpa using hjoin⟩

theorem foldlM_joinCond (sm : SmView) (hn : (scans.map (·.tabName)).Nodup)
    (hempty : "" ∉ scans.map (·.tabName))
    {conds : List Condition} (h : ∀ cond ∈ conds, JoinsTables (scans.map (·.tabName)) cond)
    (hj : Joined scans done st) :
    ∃ st', conds.foldlM (joinCond sm scans) st = some st' ∧ Joined scans (conds + done) st' := by
  induction conds generalizing st done with
  | nil => exact ⟨st, rfl, by simpa using hj⟩
  | cons cond conds ih =>
    obtain ⟨st', hst', hj'⟩ := joinCond_spec sm hn hempty hj (h cond List.mem_cons_self)
    obtain ⟨st'', hst'', hj''⟩ := ih (fun c hc => h c (List.mem_cons_of_mem _ hc)) hj'
    refine ⟨st'', by rw [List.foldlM_cons, hst']; exact hst'', ?_⟩
    rwa [Multiset.add_cons, ← Multiset.cons_add, Multiset.cons_coe] at hj''

/-- The last loop joins the scans that `f` does not mark. -/
theorem foldl_joinRest (sm : SmView) (f : ScanPlan → Bool) {others : List ScanPlan}
    (hsub : ∀ s ∈ others, s ∈ scans)
    (hn : others.Nodup) (hf : ∀ s ∈ others, f s = false → s ∉ plan.scans)
    (hok : PlanOk scans done plan) : PlanOk scans done (others.foldl (fun plan s =>
        if f s then plan else makeJoinPlan sm (.scan s) plan []) plan) ∧
      ∀ s, s ∈ (others.foldl (fun plan s =>
        if f s then plan else makeJoinPlan sm (.scan s) plan []) plan).scans ↔
          s ∈ plan.scans ∨ (s ∈ others ∧ f s = false) := by
  induction others generalizing plan with
  | nil => exact ⟨hok, by simp⟩
  | cons s others ih =>
    obtain ⟨hs, hsub⟩ := List.forall_mem_cons.mp hsub
    obtain ⟨hfs, hf⟩ := List.forall_mem_cons.mp hf
    obtain ⟨hnew, hn⟩ := List.nodup_cons.mp hn
    rw [List.foldl_cons]
    cases hmark : f s with
    | true =>
      obtain ⟨hok', hmem⟩ := ih hsub hn hf hok
      refine ⟨by simpa [hmark] using hok', fun s' => ?_⟩
      have hne : f s' = false → s' ≠ s := by
        rintro h rfl
        simp [hmark] at h
      rw [if_pos rfl, hmem]
      grind
    | false =>
      have hjoins : Joins (.scan s) plan [] (makeJoinPlan sm (.scan s) plan []) :=
        joins_makeJoinPlan (by simp)
      have hstep :=
        (planOk_scan hs).joins hok (by simpa [Plan.scans] using hfs hmark) hjoins (by simp)
      have hmem' : ∀ s', s' ∈ (makeJoinPlan sm (.scan s) plan []).scans ↔ s' = s ∨
          s' ∈ plan.scans := by
        intro s'
        rw [hjoins.scans.mem_iff]
        simp [Plan.scans]
      have hf' : ∀ s' ∈ others, f s' = false → s' ∉ (makeJoinPlan sm (.scan s) plan []).scans := by
        intro s' hs' hfs' hmem
        rcases (hmem' s').mp hmem with rfl | hmem
        · exact hnew hs'
        · exact hf s' hs' hfs' hmem
      obtain ⟨hok', hmem⟩ := ih hsub hn hf' (by simpa using hstep)
      refine ⟨by simpa [hmark] using hok', fun s' => ?_⟩
      simp only [Bool.false_eq_true, if_false, hmem, hmem']
      grind

theorem joinRest_spec (sm : SmView) (hn : scans.Nodup) (hok : PlanOk scans done plan)
    {scantbl : List Bool}
    (hflags : scantbl = scans.map fun s => decide (s ∈ plan.scans)) :
    PlanOk scans done (joinRest sm scans scantbl plan) ∧
    (joinRest sm scans scantbl plan).scans.Perm scans := by
  have heq : joinRest sm scans scantbl plan = scans.foldl (fun plan' s =>
      if decide (s ∈ plan.scans) then plan' else makeJoinPlan sm (.scan s) plan' []) plan := by
    rw [joinRest, hflags, ← List.map_prod_left_eq_zip, List.foldl_map]
  obtain ⟨hok', hmem⟩ := foldl_joinRest sm (fun s => decide (s ∈ plan.scans))
    (fun s hs => hs) hn (by simp) hok
  rw [heq]
  refine ⟨hok', (List.perm_ext_iff_of_nodup hok'.nodup hn).mpr fun s => ?_⟩
  rw [hmem]
  constructor
  · rintro (hs | ⟨hs, _⟩)
    · exact hok.sub s hs
    · exact hs
  · intro hs
    by_cases hp : s ∈ plan.scans
    · exact .inl hp
    · exact .inr ⟨hs, by simpa using hp⟩

end

/-! ## The plan of a query -/

section
variable {sm : SmView} {query : Query} {scans : List ScanPlan} {rest : List Condition} {plan : Plan}

/-- The conditions left for the joins compare columns of two tables. -/
theorem joinsTables_of_mem_rest (hq : query.Checked sm.catalog) (hne : query.tables ≠ [])
    (hs : ScansOf query.tables query.conds scans rest) :
    ∀ cond ∈ rest, JoinsTables query.tables cond := by
  intro cond hc
  have hcols := hq.cols cond (hs.mem_of_mem_rest hc)
  cases hr : cond.rhs with
  | val raw =>
    have hl := (hcols cond.lhsCol (by simp [Condition.cols, hr])).1
    have hleft := hs.left cond hc _ hl
    simp [popsCond, hr] at hleft
  | col col =>
    obtain ⟨t, ht⟩ := List.exists_mem_of_ne_nil _ hne
    refine ⟨col, hr, acrossTables_of_not_popsCond (hs.left cond hc t ht) col hr, ?_, ?_⟩
    · exact (hcols cond.lhsCol (by simp [Condition.cols, hr])).1
    · exact (hcols col (by simp [Condition.cols, hr])).1

/-- The plan of an accepted query has the scans of the first loop, and joins that have the tables of
their conditions. -/
theorem makeOneRel_spec (hq : query.Checked sm.catalog) (hne : query.tables ≠ [])
    (hn : query.tables.Nodup) :
    ∃ scans rest plan, makeOneRel sm query = some plan ∧
    ScansOf query.tables query.conds scans rest ∧
      plan.scans.Perm scans ∧ PlanOk scans rest plan := by
  obtain ⟨scans, rest, hmake, hs⟩ := makeScans_spec hq.exist query.conds
  have hrest := joinsTables_of_mem_rest hq hne hs
  have hempty : "" ∉ query.tables := by
    intro h
    have hex := hq.exist "" h
    simp [sm.catalog.named] at hex
  have hn' : (scans.map (·.tabName)).Nodup := hs.names ▸ hn
  have hempty' : "" ∉ scans.map (·.tabName) := hs.names ▸ hempty
  have hrest' : ∀ cond ∈ rest, JoinsTables (scans.map (·.tabName)) cond := hs.names ▸ hrest
  rcases scans with _ | ⟨s, _ | ⟨s', others⟩⟩
  · exact absurd hs.names.symm hne
  · have hnil : rest = [] := by
      refine List.eq_nil_iff_forall_not_mem.mpr fun cond hc => ?_
      obtain ⟨col, _, hdiff, hl, hr⟩ := hrest' cond hc
      simp only [List.map_cons, List.map_nil, List.mem_singleton] at hl hr
      exact hdiff (hl.trans hr.symm)
    subst hnil
    exact ⟨_, _, .scan s, by simp [makeOneRel, hmake], hs, .refl _, planOk_scan List.mem_cons_self⟩
  rcases rest with _ | ⟨cond, conds⟩
  · have hflags : (true :: (s' :: others).map fun _ => false) =
        (s :: s' :: others).map fun s'' => decide (s'' ∈ (Plan.scan s).scans) := by
      have hnot := (List.nodup_cons.mp hn'.of_map).1
      rw [List.map_cons (l := s' :: others)]
      refine List.cons_eq_cons.mpr ⟨by simp [Plan.scans], List.map_congr_left fun x hx => ?_⟩
      have hne : x ≠ s := fun h => hnot (h ▸ hx)
      simp [Plan.scans, hne]
    obtain ⟨hok, hperm⟩ := joinRest_spec sm hn'.of_map (planOk_scan List.mem_cons_self) hflags
    refine ⟨_, _, _, ?_, hs, hperm, hok⟩
    simp only [makeOneRel, hmake]
    rfl
  · obtain ⟨st, hst, hj⟩ := firstJoin_spec sm hn' (by simp) (hrest' cond List.mem_cons_self)
    obtain ⟨st', hst', hj'⟩ := foldlM_joinCond sm hn' hempty'
      (fun c hc => hrest' c (List.mem_cons_of_mem _ hc)) hj
    obtain ⟨hok, hperm⟩ := joinRest_spec sm hn'.of_map hj'.plan hj'.popped.flags
    refine ⟨_, _, joinRest sm (s :: s' :: others) st'.1.scantbl st'.2, ?_, hs, hperm, ?_⟩
    · simp [makeOneRel, hmake, hst, hst']
    · rwa [add_comm, Multiset.singleton_add, Multiset.cons_coe] at hok

theorem coe_conds (plan : Plan) :
    (plan.conds : Multiset Condition) =
    (plan.scans.flatMap (·.conds) : List Condition) + plan.joinConds := by
  induction plan with
  | scan s => simp [Plan.conds, Plan.scans, Plan.joinConds]
  | join left right conds ihl ihr =>
    simp only [Plan.conds, Plan.scans, Plan.joinConds, List.flatMap_append,
      ← Multiset.coe_add, ihl, ihr]
    rw [add_add_add_comm, add_left_comm]

/-- Every condition of the query stands at one operator of the plan. -/
theorem rel_conds (hs : ScansOf query.tables query.conds scans rest) (hperm : plan.scans.Perm scans)
    (hok : PlanOk scans rest plan) :
    Multiset.Rel Mirrors (query.conds : Multiset Condition) plan.conds := by
  have hq : (query.conds : Multiset Condition) =
      (plan.scans.flatMap (·.conds) : List Condition) + rest := by
    rw [Multiset.coe_add]
    refine Multiset.coe_eq_coe.mpr (hs.split.symm.trans (List.Perm.append_right _ ?_))
    exact hperm.symm.flatMap_right _
  rw [hq, coe_conds]
  exact (Multiset.rel_refl_of_refl_on fun c _ => mirrors_refl c).add hok.attached

theorem Plan.EachJoin.mono {P Q : List String → Condition → Prop} (h : plan.EachJoin P)
    (hPQ : ∀ ts, ∀ cond ∈ plan.joinConds, P ts cond → Q ts cond) : plan.EachJoin Q := by
  induction plan with
  | scan s => trivial
  | join left right conds ihl ihr =>
    simp only [Plan.joinConds, List.mem_append] at hPQ
    exact ⟨fun cond hc => hPQ _ cond (.inl hc) (h.1 cond hc),
      ihl h.2.1 fun ts cond hc => hPQ ts cond (.inr (.inl hc)),
      ihr h.2.2 fun ts cond hc => hPQ ts cond (.inr (.inr hc))⟩

theorem Plan.Each.mono {P Q : List String → Condition → Prop} (h : plan.Each P)
    (hPQ : ∀ ts, ∀ cond ∈ plan.conds, P ts cond → Q ts cond) : plan.Each Q := by
  have hmem : ∀ cond, cond ∈ plan.conds ↔ cond ∈ plan.scans.flatMap (·.conds) ∨
      cond ∈ plan.joinConds := by
    intro cond
    rw [← Multiset.mem_coe, coe_conds, Multiset.mem_add, Multiset.mem_coe, Multiset.mem_coe]
  refine ⟨fun s hs cond hc => hPQ _ cond ((hmem cond).mpr (.inl ?_)) (h.1 s hs cond hc),
    h.2.mono ?_⟩
  · exact List.mem_flatMap.mpr ⟨s, hs, hc⟩
  · exact fun ts cond hc => hPQ ts cond ((hmem cond).mpr (.inr hc))

/-- The columns of the conditions of the plan are columns of the query's conditions. -/
theorem mem_colsOf_of_mem_conds (hq : query.Checked sm.catalog)
    (hrel : Multiset.Rel Mirrors (query.conds : Multiset Condition) plan.conds) {cond : Condition}
    (hc : cond ∈ plan.conds) : ∀ col ∈ cond.cols, col ∈ sm.catalog.colsOf col.tabName := by
  obtain ⟨cond₀, hc₀, hm⟩ := Multiset.exists_mem_of_rel_of_mem (Multiset.rel_flip.mpr hrel)
    (Multiset.mem_coe.mpr hc)
  have hcols := hq.cols cond₀ (Multiset.mem_coe.mp hc₀)
  rcases hm with rfl | ⟨col, hcol, rfl⟩
  · exact fun col hcol => (hcols col hcol).2
  · intro c hmem
    refine (hcols c ?_).2
    simp only [Condition.cols, hcol, List.mem_pair] at hmem ⊢
    exact hmem.symm

/-- The scans have only conditions on their own tables exactly when the comparisons of two columns
of one table are on the first table. -/
theorem scans_onTables_iff (hq : query.Checked sm.catalog) (hne : query.tables ≠ [])
    (hs : ScansOf query.tables query.conds scans rest) :
    (∀ s ∈ scans, ∀ cond ∈ s.conds, OnTables [s.tabName] cond) ↔
      ∀ cond ∈ query.conds, OnFirstTable query cond := by
  obtain _ | ⟨s₀, others⟩ := scans
  · exact absurd hs.names.symm hne
  have hfirst : s₀.conds = query.conds.filter (popsCond s₀.tabName) := hs.first s₀ rfl
  have hhead : query.tables.head? = some s₀.tabName := by rw [← hs.names]; rfl
  constructor
  · intro h cond hc col hcol hsame
    have hmem : cond ∈ s₀.conds := by
      rw [hfirst]
      exact List.mem_filter.mpr ⟨hc, by simp [popsCond, hcol, hsame]⟩
    have hon := h s₀ List.mem_cons_self cond hmem cond.lhsCol (by simp [Condition.cols, hcol])
    rw [hhead, List.mem_singleton.mp hon]
  · intro h s hmem cond hc
    have hcq := hs.mem_of_mem_conds hmem hc
    have hpops := hs.taken s hmem cond hc
    cases hr : cond.rhs with
    | val raw =>
      have hl : cond.lhsCol.tabName ≠ "" := by
        intro hl
        have hex :=
          hq.exist "" (hl ▸ (hq.cols cond hcq cond.lhsCol (by simp [Condition.cols, hr])).1)
        simp [sm.catalog.named] at hex
      have heq : s.tabName = cond.lhsCol.tabName := by simpa [popsCond, hr, hl] using hpops
      simp [OnTables, Condition.cols, hr, heq]
    | col col =>
      have hsame : cond.lhsCol.tabName = col.tabName := by simpa [popsCond, hr] using hpops
      rcases List.mem_cons.mp hmem with rfl | hmem
      · have heq := h cond hcq col hr hsame
        rw [hhead, Option.some_inj] at heq
        simp [OnTables, Condition.cols, hr, ← hsame, heq]
      · exact absurd hsame (hs.others s hmem cond hc col hr)

theorem meansQuery_iff (hq : query.Checked sm.catalog) (hne : query.tables ≠ [])
    (hn : query.tables.Nodup)
    (hs : ScansOf query.tables query.conds scans rest) (hperm : plan.scans.Perm scans)
    (hok : PlanOk scans rest plan) :
    MeansQuery sm.catalog query plan ↔ ∀ cond ∈ query.conds, OnFirstTable query cond := by
  have hrel := rel_conds hs hperm hok
  have htables : plan.tables.Perm query.tables := by
    rw [← hs.names]
    exact hperm.map _
  rw [← scans_onTables_iff hq hne hs]
  constructor
  · intro h s hmem cond hc col hcol
    have hin := h.covered.1 s (hperm.symm.subset hmem) cond hc col hcol
    rw [List.flatMap_singleton] at hin
    exact List.mem_singleton.mpr (tabName_of_mem_colsOf hin)
  · intro h
    have heach : plan.Each OnTables := ⟨fun s hmem => h s (hperm.subset hmem), hok.covered⟩
    refine ⟨htables, hrel, heach.mono fun ts cond hc hon col hcol => ?_, fun ρ α _ D => ?_⟩
    · exact List.mem_flatMap.mpr ⟨_, hon col hcol, mem_colsOf_of_mem_conds hq hrel hc col hcol⟩
    · rw [Plan.denote_eq (htables.nodup_iff.mpr hn) heach, Binding.cross_perm htables,
        select_of_rel hrel]

end

/-- The plan of an accepted SELECT over distinct tables means the query exactly when its comparisons
of two columns of one table are on the first table. -/
theorem join_plan_means_query_iff {V : Type} (sm : SmView)
    (convert : V → ColMeta → Except ExecError Bytes)
    (stmt : SelectStmt V) (query : Query) (hq : doAnalyze sm.catalog convert stmt = .ok query)
    (hne : stmt.tabs ≠ []) (hn : stmt.tabs.Nodup) :
    (∃ plan, makeOneRel sm query = some plan ∧ MeansQuery sm.catalog query plan) ↔
      ∀ cond ∈ query.conds, OnFirstTable query cond := by
  obtain ⟨htabs, hchecked⟩ := checked_of_doAnalyze hq
  rw [← htabs] at hne hn
  obtain ⟨scans, rest, plan, hplan, hs, hperm, hok⟩ := makeOneRel_spec hchecked hne hn
  have hiff := meansQuery_iff hchecked hne hn hs hperm hok
  constructor
  · rintro ⟨plan', hplan', hm⟩
    cases hplan.symm.trans hplan'
    exact hiff.mp hm
  · exact fun h => ⟨plan, hplan, hiff.mpr h⟩

/-- Two tables with the columns `a` and `b`. -/
def twoTables : Catalog where
  tabs t :=
    if t = "t1" ∨ t = "t2" then some ⟨t, [⟨t, "a", .int, 4, 0⟩, ⟨t, "b", .int, 4, 4⟩], []⟩ else none
  colTab := by
    intro t tab h col hcol
    split at h
    · cases h
      rcases List.mem_pair.mp hcol with rfl | rfl <;> rfl
    · cases h
  named := by decide

/-- `SELECT * FROM t1, t2 WHERE t.a = t.b AND t1.a < t2.a`. -/
def selectOnOneTable (t : String) : SelectStmt Bytes :=
  ⟨["t1", "t2"], [⟨⟨t, "a"⟩, .eq, .col ⟨t, "b"⟩⟩, ⟨⟨"t1", "a"⟩, .lt, .col ⟨"t2", "a"⟩⟩]⟩

theorem join_plan_means_query_first_table :
    ∃ plan, makeOneRel ⟨twoTables, fun _ => 1, fun _ => 100⟩
      ⟨["t1", "t2"], [⟨⟨"t1", "a"⟩, .eq, .col ⟨"t1", "b"⟩⟩, ⟨⟨"t1", "a"⟩, .lt, .col ⟨"t2", "a"⟩⟩]⟩ =
      some plan ∧ MeansQuery twoTables
        ⟨["t1", "t2"], [⟨⟨"t1", "a"⟩, .eq, .col ⟨"t1", "b"⟩⟩, ⟨⟨"t1", "a"⟩, .lt, .col ⟨"t2", "a"⟩⟩]⟩
        plan := by
  refine (join_plan_means_query_iff ⟨twoTables, fun _ => 1, fun _ => 100⟩ (fun v _ => .ok v)
    (selectOnOneTable "t1") _ rfl (by decide) (by decide)).mpr ?_
  simp [OnFirstTable, selectOnOneTable]

/-- A comparison of two columns of the second table stands at the scan of the first table. -/
theorem not_join_plan_means_query :
    ¬ ∀ (sm : SmView) (convert : Bytes → ColMeta → Except ExecError Bytes) (stmt : SelectStmt Bytes)
      (query : Query), doAnalyze sm.catalog convert stmt = .ok query → stmt.tabs ≠ [] →
      stmt.tabs.Nodup →
      ∃ plan, makeOneRel sm query = some plan ∧ MeansQuery sm.catalog query plan := by
  intro h
  obtain ⟨plan, hplan, hm⟩ := h ⟨twoTables, fun _ => 1, fun _ => 100⟩ (fun v _ => .ok v)
    (selectOnOneTable "t2") _ rfl (by decide) (by decide)
  cases hplan
  have hcov := hm.covered.1 ⟨false, "t1", [⟨⟨"t2", "a"⟩, .eq, .col ⟨"t2", "b"⟩⟩], []⟩ (by decide)
    ⟨⟨"t2", "a"⟩, .eq, .col ⟨"t2", "b"⟩⟩ (by decide) ⟨"t2", "a"⟩ (by decide)
  revert hcov
  decide

end Rmdb
