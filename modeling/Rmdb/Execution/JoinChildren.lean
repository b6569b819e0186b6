import Rmdb.Execution.BlockJoin
import Rmdb.Optimizer.JoinPlans

/-!
# The children of joins

A join reads its children through `peekTuple`.  `SeqScanExecutor` overrides it, but
`IndexScanExecutor` and `NestedLoopJoinExecutor` have the one of their base class, which shows no
tuple.  A join then loses the tuples of such a child or does not end.  The protocol is kept exactly
when every child of a join is a sequential scan or has no tuple.
-/

namespace Rmdb

/-! ## What the executors should do -/

namespace ExecTree

/-- The tuples that an executor has to deliver. -/
def result : ExecTree → Multiset Bytes
  | .seqScan rows keeps => (rows.filter (keeps · = some true) : List Bytes)
  | .indexScan rows keeps => (rows.filter (keeps · = some true) : List Bytes)
  | .join left right p =>
    left.result.bind fun l => (right.result.filter (p.test l · = true)).map (l ++ ·)

/-- The executors that are children of joins. -/
def joinChildren : ExecTree → List ExecTree
  | .seqScan _ _ => []
  | .indexScan _ _ => []
  | .join left right _ => left :: right :: (left.joinChildren ++ right.joinChildren)

def IsSeqScan : ExecTree → Prop
  | .seqScan _ _ => True
  | _ => False

/-- The conditions of the scans can be evaluated on their rows. -/
def Evaluates : ExecTree → Prop
  | .seqScan rows keeps => ∀ row ∈ rows, (keeps row).isSome = true
  | .indexScan rows keeps => ∀ row ∈ rows, (keeps row).isSome = true
  | .join left right _ => left.Evaluates ∧ right.Evaluates

/-- In every state that the executor can be brought to, `peekTuple` shows the current tuple. -/
def ShowsTuples (n : ℕ) (t : ExecTree) : Prop :=
  ∀ s, (t.executor n).delivered.Reachable t.init s → (t.executor n).isEnd s = false →
    ∃ x, (t.executor n).peekTuple s = some x ∧ (t.executor n).next s = some x

/-- With enough rounds for its loops, the children of joins show their tuples, and the executor ends
after delivering its result. -/
def HonoursProtocol (t : ExecTree) : Prop :=
  ∃ N, ∀ n ≥ N, (∀ child ∈ t.joinChildren, child.ShowsTuples n) ∧
    ∃ s out, (t.executor n).beginTuple t.init = some s ∧
      (t.executor n).delivered.drain n s = some out ∧ Multiset.ofList out = t.result

/-- Every child of a join is a sequential scan or has no tuple. -/
def QuietChildren (t : ExecTree) : Prop :=
  ∀ child ∈ t.joinChildren, child.IsSeqScan ∨ child.result = 0

end ExecTree

/-! ## Scans -/

section
variable {σ : Type} {keeps : Bytes → Option Bool} {rows : List Bytes}

/-- A cursor that moves with `findRow` gives the rows that are kept. -/
theorem findRow_emits {C : Cursor σ Bytes} (mk : List Bytes × Option Bytes → σ)
    (hend : ∀ st, C.atEnd (mk st) = st.1.isEmpty)
    (hget : ∀ row rows, C.get (mk (row :: rows, some row)) = some row)
    (hadv : ∀ row rows last, C.advance (mk (row :: rows, last)) = (findRow keeps rows last).map mk)
    (hev : ∀ row ∈ rows, (keeps row).isSome = true) (last : Option Bytes) :
    ∃ s, (findRow keeps rows last).map mk = some s ∧
      C.Emits (fun _ => True) (rows.filter (keeps · = some true)) s := by
  induction rows generalizing last with
  | nil => exact ⟨mk ([], last), rfl, trivial, hend _⟩
  | cons row rows ih =>
    obtain ⟨hrow, hrows⟩ := List.forall_mem_cons.mp hev
    obtain ⟨s, hs, hem⟩ := ih hrows (some row)
    cases hk : keeps row with
    | none => simp [hk] at hrow
    | some kept =>
      cases kept with
      | true =>
        refine ⟨mk (row :: rows, some row), by simp [findRow, hk], ?_⟩
        rw [List.filter_cons_of_pos (by simpa using hk)]
        exact ⟨trivial, hend _, hget row rows, s, (hadv row rows _).trans hs, hem⟩
      | false =>
        refine ⟨s, ?_, ?_⟩
        · simpa [findRow, hk] using hs
        · rwa [List.filter_cons_of_neg (by simp [hk])]

theorem seqScanExecutor_enumerates (hev : ∀ row ∈ rows, (keeps row).isSome = true) :
    (seqScanExecutor rows keeps).delivered.Enumerates (fun _ => True)
    (rows.filter (keeps · = some true)) := by
  intro s _
  have hmap : ∀ rows last, SeqScanState.findNext keeps rows last =
      (findRow keeps rows last).map fun st => ⟨st.1, st.2, st.1.isEmpty⟩ := by
    intro rows last
    cases h : findRow keeps rows last <;> simp [SeqScanState.findNext, h]
  obtain ⟨s', hs', hem⟩ := findRow_emits (C := (seqScanExecutor rows keeps).delivered)
    (fun st => ⟨st.1, st.2, st.1.isEmpty⟩) (fun _ => rfl) (fun _ _ => rfl)
    (fun row rows last => by rw [← hmap]; rfl) hev s.record
  exact ⟨s', (hmap rows s.record).trans hs', hem⟩

theorem indexScanExecutor_enumerates (hev : ∀ row ∈ rows, (keeps row).isSome = true) :
    (indexScanExecutor rows keeps).delivered.Enumerates (fun _ => True)
    (rows.filter (keeps · = some true)) := by
  intro s _
  have hmap : ∀ rows row, IndexScanState.findNext keeps rows row =
      (findRow keeps rows row).map fun st => ⟨some st.1, st.2⟩ := by
    intro rows row
    cases h : findRow keeps rows row <;> simp [IndexScanState.findNext, h]
  obtain ⟨s', hs', hem⟩ := findRow_emits (C := (indexScanExecutor rows keeps).delivered)
    (fun st => ⟨some st.1, st.2⟩) (fun _ => rfl) (fun _ _ => rfl)
    (fun row rows last => by rw [← hmap]; rfl) hev s.row
  exact ⟨s', (hmap rows s.row).trans hs', hem⟩

end

/-! ## Executor trees -/

theorem pairs_eq_bind (p : JoinParams) (ls rs : List Bytes) :
    joinPairs p.test ls rs = (Multiset.ofList ls).bind fun l =>
      ((Multiset.ofList rs).filter (p.test l · = true)).map (l ++ ·) := by
  induction ls with
  | nil => rfl
  | cons l ls ih =>
    rw [pairs_cons, ih, ← Multiset.cons_coe, Multiset.cons_bind]
    simp [matchesOf]

namespace ExecTree

variable {n : ℕ} {t : ExecTree}

/-- The states in which `beginTuple` can be called: those that the children allow it in. -/
def Ready : (t : ExecTree) → t.State → Prop
  | .seqScan _ _ => fun _ => True
  | .indexScan _ _ => fun _ => True
  | .join left right _ =>
    fun s : JoinState left.State right.State => left.Ready s.left ∧ right.Ready s.right

theorem ready_init (t : ExecTree) : t.Ready t.init := by
  induction t with
  | seqScan rows keeps => trivial
  | indexScan rows keeps => trivial
  | join left right p ihl ihr => exact ⟨ihl, ihr⟩

theorem isEnd_init (n : ℕ) (t : ExecTree) : (t.executor n).isEnd t.init = true := by
  cases t <;> rfl

theorem nextTuple_of_isEnd (s : t.State) (h : (t.executor n).isEnd s = true) :
    (t.executor n).nextTuple s = some s := by
  cases t with
  | seqScan rows keeps => exact if_pos h
  | indexScan rows keeps => exact if_pos h
  | join left right p => exact if_pos h

/-- Only sequential scans show a tuple. -/
theorem peekTuple_of_not_seqScan (h : ¬ t.IsSeqScan) (s : t.State) :
    (t.executor n).peekTuple s = none := by
  cases t with
  | seqScan rows keeps => exact absurd trivial h
  | indexScan rows keeps => rfl
  | join left right p => rfl

/-- A child that is a sequential scan or has no tuple shows its tuples in one order. -/
theorem peeked_enumerates (hev : t.Evaluates) (hq : t.IsSeqScan ∨ t.result = 0) {N : ℕ}
    (h : ∀ n ≥ N, (t.executor n).delivered.EnumeratesBag t.Ready t.result) :
    ∃ xs, Multiset.ofList xs = t.result ∧ ∀ n ≥ N, (t.executor n).peeked.Enumerates t.Ready xs := by
  rcases hq with hseq | hzero
  · cases t with
    | indexScan rows keeps => cases hseq
    | join left right p => cases hseq
    | seqScan rows keeps =>
      refine ⟨_, rfl, fun n _ s hs => ?_⟩
      obtain ⟨s', hs', hem⟩ := seqScanExecutor_enumerates hev s hs
      exact ⟨s', hs', hem.congr ⟨rfl, rfl, rfl⟩ fun _ _ => rfl⟩
  · refine ⟨[], hzero.symm, fun n hn s hs => ?_⟩
    have hbag := h n hn
    rw [hzero] at hbag
    obtain ⟨s', hs', hem⟩ := hbag.enumerates_nil s hs
    exact ⟨s', hs', hem.nil_congr ⟨rfl, rfl, rfl⟩⟩

/-- With quiet children an executor delivers its result. -/
theorem enumerates_of_quiet (hev : t.Evaluates) (hq : t.QuietChildren) :
    ∃ N, ∀ n ≥ N, (t.executor n).delivered.EnumeratesBag t.Ready t.result := by
  induction t with
  | seqScan rows keeps => exact ⟨0, fun n _ => (seqScanExecutor_enumerates hev).bag⟩
  | indexScan rows keeps => exact ⟨0, fun n _ => (indexScanExecutor_enumerates hev).bag⟩
  | join left right p ihl ihr =>
    obtain ⟨hl, hr⟩ := hev
    have hql : left.QuietChildren := fun child hc => hq child (by simp [joinChildren, hc])
    have hqr : right.QuietChildren := fun child hc => hq child (by simp [joinChildren, hc])
    obtain ⟨Nl, hNl⟩ := ihl hl hql
    obtain ⟨Nr, hNr⟩ := ihr hr hqr
    obtain ⟨ls, hls, hleft⟩ := peeked_enumerates hl (hq left (by simp [joinChildren])) hNl
    obtain ⟨rs, hrs, hright⟩ := peeked_enumerates hr (hq right (by simp [joinChildren])) hNr
    refine ⟨max (max Nl Nr) (ls.length * (2 * rs.length + 2) + 1), fun n hn => ?_⟩
    have hresult : (ExecTree.join left right p).result = joinPairs p.test ls rs := by
      rw [pairs_eq_bind, hls, hrs]
      rfl
    rw [hresult]
    exact joinExecutor_enumerates (hleft n (by omega)) (hright n (by omega)) (by omega)

theorem emits_of_reachable (h : (t.executor n).delivered.EnumeratesBag t.Ready t.result)
    {s : t.State}
    (hs : (t.executor n).delivered.Reachable t.init s) :
    ∃ ys, Multiset.ofList ys ≤ t.result ∧ (t.executor n).delivered.Emits t.Ready ys s :=
  h.emits_of_reachable t.ready_init (isEnd_init n t) (fun s hend => nextTuple_of_isEnd s hend) hs

/-- A child shows its tuples exactly when it is a sequential scan or has none. -/
theorem showsTuples_iff (h : (t.executor n).delivered.EnumeratesBag t.Ready t.result) :
    t.ShowsTuples n ↔ t.IsSeqScan ∨ t.result = 0 := by
  constructor
  · intro hshow
    by_contra hnot
    obtain ⟨hseq, hres⟩ := not_or.mp hnot
    obtain ⟨s, xs, hbegin, hxs, hem⟩ := h t.init t.ready_init
    have hend : (t.executor n).isEnd s = false := by
      refine Bool.eq_false_iff.mpr fun hend => hres ?_
      rw [← hxs, hem.atEnd_iff.mp hend]
      rfl
    obtain ⟨x, hpeek, _⟩ := hshow s (.rewind .refl hbegin) hend
    rw [peekTuple_of_not_seqScan hseq] at hpeek
    cases hpeek
  · intro hq s hs hend
    obtain ⟨ys, hle, hem⟩ := emits_of_reachable h hs
    cases ys with
    | nil => exact absurd (hem.2.symm.trans hend) (by simp)
    | cons y ys =>
      rcases hq with hseq | hzero
      · cases t with
        | indexScan rows keeps => cases hseq
        | join left right p => cases hseq
        | seqScan rows keeps => exact ⟨y, hem.2.2.1, hem.2.2.1⟩
      · rw [hzero, Multiset.le_zero, Multiset.coe_eq_zero] at hle
        cases hle

theorem quietChildren_join {left right : ExecTree} {p : JoinParams} :
    (ExecTree.join left right p).QuietChildren ↔ (left.IsSeqScan ∨ left.result = 0) ∧
      (right.IsSeqScan ∨ right.result = 0) ∧ left.QuietChildren ∧ right.QuietChildren := by
  simp only [QuietChildren, joinChildren, List.forall_mem_cons, List.forall_mem_append]

theorem showsTuples_of_quiet (hev : t.Evaluates) (hq : t.QuietChildren) :
    ∃ N, ∀ n ≥ N, ∀ child ∈ t.joinChildren, child.ShowsTuples n := by
  induction t with
  | seqScan rows keeps => exact ⟨0, fun n _ child hc => absurd hc List.not_mem_nil⟩
  | indexScan rows keeps => exact ⟨0, fun n _ child hc => absurd hc List.not_mem_nil⟩
  | join left right p ihl ihr =>
    obtain ⟨hl, hr, hql, hqr⟩ := quietChildren_join.mp hq
    obtain ⟨Nl, hNl⟩ := enumerates_of_quiet hev.1 hql
    obtain ⟨Nr, hNr⟩ := enumerates_of_quiet hev.2 hqr
    obtain ⟨Ml, hMl⟩ := ihl hev.1 hql
    obtain ⟨Mr, hMr⟩ := ihr hev.2 hqr
    refine ⟨max (max Nl Nr) (max Ml Mr), fun n hn => ?_⟩
    simp only [joinChildren, List.forall_mem_cons, List.forall_mem_append]
    exact ⟨(showsTuples_iff (hNl n (by omega))).mpr hl, (showsTuples_iff (hNr n (by omega))).mpr hr,
      hMl n (by omega), hMr n (by omega)⟩

theorem quiet_of_showsTuples (hev : t.Evaluates)
    (h : ∃ N, ∀ n ≥ N, ∀ child ∈ t.joinChildren, child.ShowsTuples n) : t.QuietChildren := by
  induction t with
  | seqScan rows keeps => exact fun child hc => absurd hc List.not_mem_nil
  | indexScan rows keeps => exact fun child hc => absurd hc List.not_mem_nil
  | join left right p ihl ihr =>
    obtain ⟨N, hN⟩ := h
    simp only [joinChildren, List.forall_mem_cons, List.forall_mem_append] at hN
    have hql := ihl hev.1 ⟨N, fun n hn => (hN n hn).2.2.1⟩
    have hqr := ihr hev.2 ⟨N, fun n hn => (hN n hn).2.2.2⟩
    obtain ⟨Nl, hNl⟩ := enumerates_of_quiet hev.1 hql
    obtain ⟨Nr, hNr⟩ := enumerates_of_quiet hev.2 hqr
    obtain ⟨hl, hr, _⟩ := hN (max N (max Nl Nr)) (by omega)
    exact quietChildren_join.mpr ⟨(showsTuples_iff (hNl _ (by omega))).mp hl,
      (showsTuples_iff (hNr _ (by omega))).mp hr, hql, hqr⟩

/-- The protocol is kept exactly when the children of joins are sequential scans or have no
tuple. -/
theorem honoursProtocol_iff (hev : t.Evaluates) : t.HonoursProtocol ↔ t.QuietChildren := by
  constructor
  · rintro ⟨N, hN⟩
    exact quiet_of_showsTuples hev ⟨N, fun n hn => (hN n hn).1⟩
  · intro hq
    obtain ⟨N, hN⟩ := enumerates_of_quiet hev hq
    obtain ⟨M, hM⟩ := showsTuples_of_quiet hev hq
    refine ⟨max (max N M) (t.result.card + 1), fun n hn => ⟨hM n (by omega), ?_⟩⟩
    obtain ⟨s, out, hbegin, hout, hem⟩ := hN n (by omega) t.init t.ready_init
    have hcard : out.length = t.result.card := by rw [← hout, Multiset.coe_card]
    exact ⟨s, out, hbegin, hem.drain (by omega), hout⟩

end ExecTree

/-! ## The executors of a plan -/

section
variable {cat : Catalog} {plan : Plan} {tab : TabMeta} {target : TabCol} {cond : Condition}
  {conds : List Condition}

theorem findCol_ok {cols : List ColMeta}
    (h : ∃ col ∈ cols, col.tabName = target.tabName ∧ col.name = target.colName) :
    ∃ col, findCol cols target = .ok col := by
  obtain ⟨col, hmem, hnames⟩ := h
  rw [findCol]
  split
  · next c _ => exact ⟨c, rfl⟩
  · next hnone => exact absurd hnames (by simpa using List.find?_eq_none.mp hnone col hmem)

theorem exists_of_mem_colsOf {t : String} (htab : cat.tabs t = some tab)
    (h : target ∈ cat.colsOf t) :
    ∃ col ∈ tab.cols, col.tabName = target.tabName ∧ col.name = target.colName := by
  rw [Catalog.colsOf, htab] at h
  obtain ⟨col, hcol, rfl⟩ := List.mem_map.mp h
  exact ⟨col, hcol, rfl, rfl⟩

theorem getCol_ok {t : String} (htab : cat.tabs t = some tab) (h : target ∈ cat.colsOf t) :
    ∃ col, tab.getCol target.colName = .ok col := by
  obtain ⟨col, hcol, _, hname⟩ := exists_of_mem_colsOf htab h
  rw [TabMeta.getCol]
  split
  · next c _ => exact ⟨c, rfl⟩
  · next hnone => exact absurd hname (by simpa using List.find?_eq_none.mp hnone col hcol)

/-- The columns of the tables of a plan are columns of its executor. -/
theorem mem_planCols (h : target ∈ plan.tables.flatMap cat.colsOf) :
    ∃ col ∈ plan.cols cat, col.tabName = target.tabName ∧ col.name = target.colName := by
  induction plan with
  | scan s =>
    rw [tables_scan, List.flatMap_singleton] at h
    cases htab : cat.tabs s.tabName with
    | none => simp [Catalog.colsOf, htab] at h
    | some tab => simpa [Plan.cols, htab] using exists_of_mem_colsOf htab h
  | join left right conds ihl ihr =>
    rw [tables_join, List.flatMap_append] at h
    rcases List.mem_append.mp h with h | h
    · obtain ⟨col, hcol, hnames⟩ := ihl h
      exact ⟨col, List.mem_append_left _ hcol, hnames⟩
    · obtain ⟨col, hcol, hnames⟩ := ihr h
      refine ⟨{ col with offset := col.offset + left.tupleLen cat }, ?_, hnames⟩
      exact List.mem_append_right _ (List.mem_map.mpr ⟨col, hcol, rfl⟩)

theorem lhsCol_mem_cols (cond : Condition) : cond.lhsCol ∈ cond.cols := by
  cases h : cond.rhs <;> simp [Condition.cols, h]

theorem rhsCol_mem_cols {col : TabCol} (h : cond.rhs = .col col) : col ∈ cond.cols := by
  simp [Condition.cols, h]

theorem evalConds_ok {cols : List ColMeta} (rec : Bytes)
    (h : ∀ cond ∈ conds, ∀ c ∈ cond.cols, ∃ col ∈ cols, col.tabName = c.tabName ∧
      col.name = c.colName) :
    ∃ b, evalConds conds rec cols = .ok b := by
  induction conds with
  | nil => exact ⟨true, rfl⟩
  | cons cond conds ih =>
    obtain ⟨hcond, hconds⟩ := List.forall_mem_cons.mp h
    obtain ⟨b, hb⟩ := ih hconds
    have hone : ∃ b, evalCond cond rec cols = .ok b := by
      obtain ⟨lhs, hlhs⟩ := findCol_ok (hcond _ (lhsCol_mem_cols cond))
      cases hr : cond.rhs with
      | val raw => exact ⟨_, by simp only [evalCond, hlhs, hr]; rfl⟩
      | col col =>
        obtain ⟨rhs, hrhs⟩ := findCol_ok (hcond col (rhsCol_mem_cols hr))
        exact ⟨_, by simp only [evalCond, hlhs, hr, hrhs]; rfl⟩
    obtain ⟨b', hb'⟩ := hone
    cases b' with
    | true => exact ⟨b, by simp only [evalConds, hb', hb]; rfl⟩
    | false => exact ⟨false, by simp only [evalConds, hb']; rfl⟩

theorem evalConditions_ok (rec : Bytes)
    (h : ∀ cond ∈ conds, ∀ c ∈ cond.cols, ∃ col, tab.getCol c.colName = .ok col) :
    ∃ b, evalConditions tab rec conds = .ok b := by
  induction conds with
  | nil => exact ⟨true, rfl⟩
  | cons cond conds ih =>
    obtain ⟨hcond, hconds⟩ := List.forall_mem_cons.mp h
    obtain ⟨b, hb⟩ := ih hconds
    have hone : ∃ b, evalCondition tab rec cond = .ok b := by
      obtain ⟨lhs, hlhs⟩ := hcond _ (lhsCol_mem_cols cond)
      cases hr : cond.rhs with
      | val raw => exact ⟨_, by simp only [evalCondition, hlhs, hr]; rfl⟩
      | col col =>
        obtain ⟨rhs, hrhs⟩ := hcond col (rhsCol_mem_cols hr)
        exact ⟨_, by simp only [evalCondition, hlhs, hr, hrhs]; rfl⟩
    obtain ⟨b', hb'⟩ := hone
    cases b' with
    | true => exact ⟨b, by simp only [evalConditions, hb', hb]; rfl⟩
    | false => exact ⟨false, by simp only [evalConditions, hb']; rfl⟩

theorem indexConds_self {t : String} (h : ∀ cond ∈ conds, cond.lhsCol.tabName = t) :
    indexConds t conds = some conds := by
  induction conds with
  | nil => rfl
  | cons cond conds ih =>
    obtain ⟨hcond, hconds⟩ := List.forall_mem_cons.mp h
    have hrest := ih hconds
    rw [indexConds] at hrest
    simp only [indexConds, List.mapM_cons, hcond, if_true, hrest]
    rfl

theorem buildCondSpecs_ok {cols : List ColMeta} (len : ℕ)
    (h : ∀ cond ∈ conds, ∀ c ∈ cond.cols, ∃ col ∈ cols, col.tabName = c.tabName ∧
      col.name = c.colName) :
    ∃ specs, conds.mapM (buildCondSpec cols len) = .ok specs := by
  induction conds with
  | nil => exact ⟨[], rfl⟩
  | cons cond conds ih =>
    obtain ⟨hcond, hconds⟩ := List.forall_mem_cons.mp h
    obtain ⟨specs, hspecs⟩ := ih hconds
    obtain ⟨lhs, hlhs⟩ := findCol_ok (hcond _ (lhsCol_mem_cols cond))
    have hone : ∃ spec, buildCondSpec cols len cond = .ok spec := by
      cases hr : cond.rhs with
      | val raw => exact ⟨_, by simp only [buildCondSpec, hlhs, hr]; rfl⟩
      | col col =>
        obtain ⟨rhs, hrhs⟩ := findCol_ok (hcond col (rhsCol_mem_cols hr))
        exact ⟨_, by simp only [buildCondSpec, hlhs, hr, hrhs]; rfl⟩
    obtain ⟨spec, hspec⟩ := hone
    exact ⟨spec :: specs, by simp only [List.mapM_cons, hspec, hspecs]; rfl⟩

/-- A plan whose operators have the columns of their conditions becomes executors whose conditions
can be evaluated. -/
theorem convertPlanExecutor_spec (db : ExecDb) (hex : ∀ t ∈ plan.tables, (cat.tabs t).isSome = true)
    (h : plan.Each fun tables cond => ∀ col ∈ cond.cols, col ∈ tables.flatMap cat.colsOf) :
    ∃ tree, convertPlanExecutor cat db plan = some tree ∧ tree.Evaluates := by
  induction plan with
  | scan s =>
    obtain ⟨tab, htab⟩ := Option.isSome_iff_exists.mp (hex s.tabName (by simp))
    have hcov : ∀ cond ∈ s.conds, ∀ c ∈ cond.cols, c ∈ cat.colsOf s.tabName := by
      intro cond hc c hcol
      simpa using h.1 s List.mem_cons_self cond hc c hcol
    cases hscan : s.indexScan with
    | true =>
      have hconds : indexConds s.tabName s.conds = some s.conds :=
        indexConds_self fun cond hc => tabName_of_mem_colsOf (hcov cond hc _ (lhsCol_mem_cols cond))
      refine ⟨.indexScan (db.indexRows s.tabName s.indexColNames s.conds)
        fun rec => (evalConditions tab rec s.conds).toOption, ?_, fun row _ => ?_⟩
      · simp only [convertPlanExecutor, htab, hscan, hconds]
        rfl
      obtain ⟨b, hb⟩ := evalConditions_ok row fun cond hc c hcol =>
        getCol_ok htab (hcov cond hc c hcol)
      simp [hb, Except.toOption]
    | false =>
      refine ⟨.seqScan (db.rows s.tabName) fun rec => (evalConds s.conds rec tab.cols).toOption, ?_,
        fun row _ => ?_⟩
      · simp only [convertPlanExecutor, htab, hscan]
        rfl
      obtain ⟨b, hb⟩ := evalConds_ok row fun cond hc c hcol =>
        exists_of_mem_colsOf htab (hcov cond hc c hcol)
      simp [hb, Except.toOption]
  | join left right conds ihl ihr =>
    obtain ⟨hs, hj, hjl, hjr⟩ := h
    obtain ⟨lt, hlt, hle⟩ := ihl (fun t ht => hex t (by simp [ht]))
      ⟨fun s hm => hs s (List.mem_append_left _ hm), hjl⟩
    obtain ⟨rt, hrt, hre⟩ := ihr (fun t ht => hex t (by simp [ht]))
      ⟨fun s hm => hs s (List.mem_append_right _ hm), hjr⟩
    have hcols : ∀ cond ∈ conds, ∀ c ∈ cond.cols, ∃ col ∈ (Plan.join left right conds).cols cat,
        col.tabName = c.tabName ∧ col.name = c.colName :=
      fun cond hc c hcol => mem_planCols (by simpa using hj cond hc c hcol)
    obtain ⟨specs, hspecs⟩ := buildCondSpecs_ok (left.tupleLen cat) hcols
    refine ⟨.join lt rt ⟨specs, left.tupleLen cat, joinBufferSize⟩, ?_, hle, hre⟩
    simp only [convertPlanExecutor, hlt, hrt, hspecs]
    rfl

end

/-- For the plan of an accepted SELECT, the children of joins show their tuples and no tuple is lost
exactly when they are sequential scans or have no tuple.  The scans are to have only conditions on
their own columns. -/
theorem join_children_show_tuples_iff {V : Type} (sm : SmView) (db : ExecDb)
    (convert : V → ColMeta → Except ExecError Bytes) (stmt : SelectStmt V) (query : Query)
    (hq : doAnalyze sm.catalog convert stmt = .ok query) (hne : stmt.tabs ≠ [])
    (hn : stmt.tabs.Nodup) (hfirst : ∀ cond ∈ query.conds, OnFirstTable query cond) :
    ∃ plan tree, makeOneRel sm query = some plan ∧
    convertPlanExecutor sm.catalog db plan = some tree ∧
      (tree.HonoursProtocol ↔ ∀ child ∈ tree.joinChildren, child.IsSeqScan ∨ child.result = 0) := by
  obtain ⟨htabs, hchecked⟩ := checked_of_doAnalyze hq
  rw [← htabs] at hne hn
  obtain ⟨scans, rest, plan, hplan, hs, hperm, hok⟩ := makeOneRel_spec hchecked hne hn
  have hmeans := (meansQuery_iff hchecked hne hn hs hperm hok).mpr hfirst
  obtain ⟨tree, htree, hev⟩ := convertPlanExecutor_spec db
    (fun t ht => hchecked.exist t (hmeans.tables.subset ht)) hmeans.covered
  exact ⟨plan, tree, hplan, htree, ExecTree.honoursProtocol_iff hev⟩

/-- The tables `t1` and `t2`, with an index on the first column of `t1`. -/
def indexedTables : Catalog where
  tabs t :=
    if t = "t1" then some ⟨t, [⟨t, "a", .int, 4, 0⟩], [⟨t, [⟨t, "a", .int, 4, 0⟩]⟩]⟩
    else if t = "t2" then some ⟨t, [⟨t, "a", .int, 4, 0⟩], []⟩
    else none
  colTab := by
    intro t tab h col hcol
    split at h
    · cases h
      rw [List.mem_singleton.mp hcol]
    split at h
    · cases h
      rw [List.mem_singleton.mp hcol]
    · cases h
  named := by decide

/-- `SELECT * FROM t1, t2 WHERE t.a = 1 AND t1.a < t2.a`. -/
def selectByKey (t : String) : SelectStmt Bytes :=
  ⟨["t1", "t2"], [⟨⟨t, "a"⟩, .eq, .val [1, 0, 0, 0]⟩, ⟨⟨"t1", "a"⟩, .lt, .col ⟨"t2", "a"⟩⟩]⟩

/-- Each table has the rows 1 and 2. -/
def twoRows : ExecDb := ⟨fun _ => [[1, 0, 0, 0], [2, 0, 0, 0]], fun _ _ _ => [[1, 0, 0, 0]]⟩

theorem join_children_show_tuples_seq_scans :
    ∃ plan tree, makeOneRel ⟨indexedTables, fun _ => 2, fun _ => 100⟩
      ⟨["t1", "t2"], [⟨⟨"t2", "a"⟩, .eq, .val [1, 0, 0, 0]⟩,
        ⟨⟨"t1", "a"⟩, .lt, .col ⟨"t2", "a"⟩⟩]⟩ = some plan ∧
      convertPlanExecutor indexedTables twoRows plan = some tree ∧ tree.HonoursProtocol := by
  obtain ⟨plan, tree, hplan, htree, hiff⟩ := join_children_show_tuples_iff
    ⟨indexedTables, fun _ => 2, fun _ => 100⟩ twoRows
      (fun v _ => .ok v) (selectByKey "t2") _ rfl (by decide)
    (by decide) (by simp [OnFirstTable])
  refine ⟨plan, tree, hplan, htree, hiff.mpr ?_⟩
  cases hplan
  cases htree
  intro child hc
  rcases List.mem_cons.mp hc with rfl | hc
  · exact .inl trivial
  rcases List.mem_cons.mp hc with rfl | hc
  · exact .inl trivial
  · exact absurd hc List.not_mem_nil

/-- The scan of `t1` by its index is a child of the join, and it shows no tuple. -/
theorem not_join_children_show_tuples :
    ¬ ∀ (sm : SmView) (db : ExecDb) (convert : Bytes → ColMeta → Except ExecError Bytes)
      (stmt : SelectStmt Bytes) (query : Query), doAnalyze sm.catalog convert stmt = .ok query →
      stmt.tabs ≠ [] → stmt.tabs.Nodup →
      ∃ plan tree, makeOneRel sm query = some plan ∧
      convertPlanExecutor sm.catalog db plan = some tree ∧ tree.HonoursProtocol := by
  intro h
  obtain ⟨plan, tree, hplan, htree, N, hN⟩ := h ⟨indexedTables, fun _ => 2, fun _ => 100⟩ twoRows
    (fun v _ => .ok v) (selectByKey "t1") _ rfl (by decide) (by decide)
  cases hplan
  cases htree
  obtain ⟨hshow, _⟩ := hN N le_rfl
  obtain ⟨x, hpeek, _⟩ := hshow _ List.mem_cons_self ⟨some [[1, 0, 0, 0]], some [1, 0, 0, 0]⟩
    (.rewind .refl rfl) rfl
  cases hpeek

end Rmdb
