import Rmdb.Optimizer.JoinPlans

/-!
# The sides of joins

A join looks up the left column of a condition in its left child and the right column in its right
child when it makes its hash keys.  The planner keeps the plan so: `make_one_rel` and `push_conds`
mirror a condition when its columns are found the other way round, and `make_join_plan` mirrors the
conditions when it swaps two scans.  A scan uses an index with the highest score.
-/

namespace Rmdb

namespace Plan

/-- The conditions of each join compare a column of its left child with a column of its right
child. -/
def Oriented : Plan → Prop
  | .scan _ => True
  | .join left right conds =>
    (∀ cond ∈ conds, ∃ col, cond.rhs = .col col ∧ cond.lhsCol.tabName ∈ left.tables ∧
      col.tabName ∈ right.tables) ∧ left.Oriented ∧ right.Oriented

end Plan

/-- The scan of a table: through an index that the conditions match best, or sequential when they
match none. -/
def BestScan (tab : TabMeta) (s : ScanPlan) : Prop :=
  if s.indexScan then ∃ index ∈ tab.indexes, s.indexColNames = index.cols.map (·.name) ∧
    0 < indexScore s.tabName s.conds index.cols ∧
    ∀ index' ∈ tab.indexes, indexScore s.tabName s.conds index'.cols ≤
      indexScore s.tabName s.conds index.cols
  else ∀ index ∈ tab.indexes, indexScore s.tabName s.conds index.cols = 0

/-! ## One join -/

section
variable {sm : SmView} {scans : List ScanPlan} {cond : Condition} {conds : List Condition}
  {left right plan : Plan} {col : TabCol} {done : Multiset Condition} {st st' : Popped × Plan}

/-- `maybe_swap_join_children` mirrors the conditions of the scans that it swaps. -/
theorem oriented_makeJoinPlan (hl : left.Oriented) (hr : right.Oriented)
    (h : ∀ cond ∈ conds, ∃ col, cond.rhs = .col col ∧ cond.lhsCol.tabName ∈ left.tables ∧
      col.tabName ∈ right.tables) : (makeJoinPlan sm left right conds).Oriented := by
  unfold makeJoinPlan
  split
  · split
    · exact ⟨h, hl, hr⟩
    · refine ⟨fun cond' hcond' => ?_, hr, hl⟩
      obtain ⟨cond, hcond, rfl⟩ := List.mem_map.mp hcond'
      obtain ⟨col, hcol, hleft, hright⟩ := h cond hcond
      exact ⟨cond.lhsCol, by simp [Condition.mirror, hcol], by
        simpa [Condition.mirror, hcol] using hright, hleft⟩
  · exact ⟨h, hl, hr⟩

theorem tables_pushConds (hcol : cond.rhs = .col col) (hne : cond.lhsCol.tabName ≠ col.tabName)
    (hn : plan.tables.Nodup) : (pushConds cond plan).2.tables = plan.tables := by
  rcases pushConds_spec hcol hne hn with ⟨_, _, _, hatt⟩ | ⟨_, heq⟩
  · exact hatt.tables
  · rw [heq]

theorem pushConds_join (cond : Condition) : pushConds cond (.join left right conds) =
    if (pushConds cond left).1 = 3 then (3, .join (pushConds cond left).2 right conds)
    else if (pushConds cond right).1 = 3 then
      (3, .join (pushConds cond left).2 (pushConds cond right).2 conds)
    else if (pushConds cond left).1 = 0 ∨ (pushConds cond right).1 = 0 then
      ((pushConds cond left).1 + (pushConds cond right).1,
        .join (pushConds cond left).2 (pushConds cond right).2 conds)
    else (3, .join (pushConds cond left).2 (pushConds cond right).2
      (conds ++ [if (pushConds cond left).1 = 2 then cond.mirror else cond])) := by
  rw [pushConds]

/-- What `push_conds` says of a condition that it has not attached. -/
theorem pushConds_of_ne (hcol : cond.rhs = .col col) (hne : cond.lhsCol.tabName ≠ col.tabName)
    (hn : plan.tables.Nodup) (h : (pushConds cond plan).1 ≠ 3) : (pushConds cond plan).1 =
      if cond.lhsCol.tabName ∈ plan.tables then 1 else if col.tabName ∈ plan.tables then 2
        else 0 := by
  rcases pushConds_spec hcol hne hn with ⟨_, _, h3, _⟩ | ⟨_, heq⟩
  · exact absurd h3 h
  · rw [heq]

/-- `push_conds` mirrors a condition whose right column is found in the left child. -/
theorem oriented_pushConds (hcol : cond.rhs = .col col) (hne : cond.lhsCol.tabName ≠ col.tabName)
    (hn : plan.tables.Nodup) (h : plan.Oriented) : (pushConds cond plan).2.Oriented := by
  induction plan with
  | scan s => trivial
  | join left right conds ihl ihr =>
    rw [tables_join] at hn
    obtain ⟨hnl, hnr, hd⟩ := List.nodup_append.mp hn
    obtain ⟨hconds, hl, hr⟩ := h
    have htl := tables_pushConds hcol hne hnl
    have htr := tables_pushConds hcol hne hnr
    have hl' := ihl hnl hl
    have hr' := ihr hnr hr
    rw [pushConds_join]
    split
    · exact ⟨by rwa [htl], hl', hr⟩
    next hl3 =>
    split
    · exact ⟨by rwa [htl, htr], hl', hr'⟩
    next hr3 =>
    split
    · exact ⟨by rwa [htl, htr], hl', hr'⟩
    next hzero =>
    refine ⟨fun c hc => ?_, hl', hr'⟩
    rw [htl, htr]
    rcases List.mem_append.mp hc with hc | hc
    · exact hconds c hc
    obtain rfl := List.mem_singleton.mp hc
    have hleft := pushConds_of_ne hcol hne hnl hl3
    have hright := pushConds_of_ne hcol hne hnr hr3
    rw [hleft, hright] at hzero
    rw [hleft]
    -- Each side has one of the two tables, and no side has both.
    by_cases hlin : cond.lhsCol.tabName ∈ left.tables
    · have hout : cond.lhsCol.tabName ∉ right.tables := fun h => hd _ hlin _ h rfl
      have hrin : col.tabName ∈ right.tables := by
        by_contra hnot
        simp [hout, hnot] at hzero
      exact ⟨col, by simp [hlin, hcol], by simp [hlin], hrin⟩
    · have hcin : col.tabName ∈ left.tables := by
        by_contra hnot
        simp [hlin, hnot] at hzero
      have hout : col.tabName ∉ right.tables := fun h => hd _ hcin _ h rfl
      have hrin : cond.lhsCol.tabName ∈ right.tables := by
        by_contra hnot
        simp [hout, hnot] at hzero
      exact ⟨cond.lhsCol, by simp [hlin, hcin, Condition.mirror, hcol],
        by simp [hlin, hcin, Condition.mirror, hcol], hrin⟩

end

/-! ## The loops of `make_one_rel` -/

section
variable {sm : SmView} {scans : List ScanPlan} {cond : Condition} {conds : List Condition}
  {plan : Plan}
  {done : Multiset Condition} {st st' : Popped × Plan}

theorem oriented_pair (sm : SmView) {s s' : ScanPlan} {col : TabCol} (hcol : cond.rhs = .col col)
    (hs : s.tabName = cond.lhsCol.tabName) (hs' : s'.tabName = col.tabName) :
    (makeJoinPlan sm (.scan s) (.scan s') [cond]).Oriented := by
  refine oriented_makeJoinPlan trivial trivial fun c hc => ?_
  obtain rfl := List.mem_singleton.mp hc
  exact ⟨col, hcol, by simp [hs], by simp [hs']⟩

theorem oriented_firstJoin (hn : (scans.map (·.tabName)).Nodup) (hne : scans ≠ [])
    (hcond : JoinsTables (scans.map (·.tabName)) cond) (h : firstJoin sm scans cond = some st) :
    st.2.Oriented := by
  obtain ⟨col, hcol, hdiff, hl, hr⟩ := hcond
  have hrhs : cond.rhsTab = col.tabName := by simp [Condition.rhsTab, hcol]
  have h0 : PoppedFor scans [] ⟨scans.map fun _ => false, scans.map fun _ => ""⟩ :=
    ⟨by simp, fun t => by simp [hne]⟩
  obtain ⟨s, hs, popped, hst, hpop, h1⟩ := popScan_spec hn h0 hl
  obtain ⟨s', hs', popped', hst', hpop', h2⟩ := popScan_spec hn h1 hr
  have heq : firstJoin sm scans cond =
      some (popped', makeJoinPlan sm (.scan s) (.scan s') [cond]) := by
    simp only [firstJoin, hpop, hrhs, hpop']
    rfl
  obtain rfl := Option.some.inj (heq.symm.trans h)
  exact oriented_pair sm hcol hst hst'

theorem oriented_joinCond (hn : (scans.map (·.tabName)).Nodup) (hempty : "" ∉ scans.map (·.tabName))
    (hj : Joined scans done st) (hcond : JoinsTables (scans.map (·.tabName)) cond)
    (ho : st.2.Oriented) (h : joinCond sm scans st cond = some st') : st'.2.Oriented := by
  obtain ⟨col, hcol, hdiff, hl, hr⟩ := hcond
  have hrhs : cond.rhsTab = col.tabName := by simp [Condition.rhsTab, hcol]
  have hl0 : cond.lhsCol.tabName ≠ "" := fun h => hempty (h ▸ hl)
  have hr0 : col.tabName ≠ "" := fun h => hempty (h ▸ hr)
  have hlj : cond.lhsCol.tabName ∈ st.1.joinedTables ↔ cond.lhsCol.tabName ∈ st.2.tables := by
    simp [hj.popped.joined, hl0, Plan.tables]
  have hrj : col.tabName ∈ st.1.joinedTables ↔ col.tabName ∈ st.2.tables := by
    simp [hj.popped.joined, hr0, Plan.tables]
  by_cases hlin : cond.lhsCol.tabName ∈ st.2.tables
  · by_cases hrin : col.tabName ∈ st.2.tables
    · have heq : joinCond sm scans st cond = some (st.1, (pushConds cond st.2).2) := by
        simp [joinCond, hrhs, hlj.mpr hlin, hrj.mpr hrin]
      obtain rfl := Option.some.inj (heq.symm.trans h)
      exact oriented_pushConds hcol hdiff (hj.plan.nodup_tables hn) ho
    · obtain ⟨s, hs, popped, hst, hpop, _⟩ := popScan_spec hn hj.popped hr
      have heq : joinCond sm scans st cond =
          some (popped, makeJoinPlan sm (.scan s) st.2 [cond.mirror]) := by
        simp [joinCond, hrhs, hlj.mpr hlin, mt hrj.mp hrin, hpop]
      obtain rfl := Option.some.inj (heq.symm.trans h)
      refine oriented_makeJoinPlan trivial ho fun c hc => ?_
      obtain rfl := List.mem_singleton.mp hc
      exact ⟨cond.lhsCol, by simp [Condition.mirror, hcol], by simp [Condition.mirror, hcol, hst],
        hlin⟩
  · obtain ⟨s, hs, popped, hst, hpop, h1⟩ := popScan_spec hn hj.popped hl
    have hrj' : col.tabName ∈ popped.joinedTables ↔ col.tabName ∈ st.2.tables := by
      simp [h1.joined, hr0, hst, hdiff.symm, Plan.tables]
    by_cases hrin : col.tabName ∈ st.2.tables
    · have heq : joinCond sm scans st cond =
          some (popped, makeJoinPlan sm (.scan s) st.2 [cond]) := by
        simp [joinCond, hrhs, mt hlj.mp hlin, hpop, hrj'.mpr hrin]
      obtain rfl := Option.some.inj (heq.symm.trans h)
      refine oriented_makeJoinPlan trivial ho fun c hc => ?_
      obtain rfl := List.mem_singleton.mp hc
      exact ⟨col, hcol, by simp [hst], hrin⟩
    · obtain ⟨s', hs', popped', hst', hpop', _⟩ := popScan_spec hn h1 hr
      have heq : joinCond sm scans st cond = some (popped',
          makeJoinPlan sm (makeJoinPlan sm (.scan s) (.scan s') [cond]) st.2 []) := by
        simp [joinCond, hrhs, mt hlj.mp hlin, hpop, mt hrj'.mp hrin, hpop']
      obtain rfl := Option.some.inj (heq.symm.trans h)
      exact oriented_makeJoinPlan (oriented_pair sm hcol hst hst') ho (by simp)

theorem oriented_foldlM (hn : (scans.map (·.tabName)).Nodup) (hempty : "" ∉ scans.map (·.tabName))
    (hconds : ∀ cond ∈ conds, JoinsTables (scans.map (·.tabName)) cond) (hj : Joined scans done st)
    (ho : st.2.Oriented) (h : conds.foldlM (joinCond sm scans) st = some st') : st'.2.Oriented := by
  induction conds generalizing st done with
  | nil =>
    obtain rfl := Option.some.inj h
    exact ho
  | cons cond conds ih =>
    obtain ⟨hcond, hconds⟩ := List.forall_mem_cons.mp hconds
    obtain ⟨st₁, hst₁, hj₁⟩ := joinCond_spec sm hn hempty hj hcond
    rw [List.foldlM_cons, hst₁] at h
    exact ih hconds hj₁ (oriented_joinCond hn hempty hj hcond ho hst₁) h

theorem oriented_joinRest (ho : plan.Oriented) (flags : List Bool) :
    (joinRest sm scans flags plan).Oriented := by
  unfold joinRest
  induction scans.zip flags generalizing plan with
  | nil => exact ho
  | cons scan rest ih =>
    rw [List.foldl_cons]
    refine ih ?_
    split
    · exact ho
    · exact oriented_makeJoinPlan trivial ho (by simp)

theorem mem_scans_joinRest {flags : List Bool} {s : ScanPlan}
    (h : s ∈ (joinRest sm scans flags plan).scans) : s ∈ scans ∨ s ∈ plan.scans := by
  have hzip : ∀ scan ∈ scans.zip flags, scan.1 ∈ scans :=
    fun scan hscan => (List.of_mem_zip hscan).1
  unfold joinRest at h
  generalize scans.zip flags = rest at h hzip
  induction rest generalizing plan with
  | nil => exact .inr h
  | cons scan rest ih =>
    obtain ⟨hscan, hrest⟩ := List.forall_mem_cons.mp hzip
    rw [List.foldl_cons] at h
    rcases ih h hrest with h | h
    · exact .inl h
    split at h
    · exact .inr h
    · have hjoins : Joins (.scan scan.1) plan [] (makeJoinPlan sm (.scan scan.1) plan []) :=
        joins_makeJoinPlan (by simp)
      rcases List.mem_append.mp (hjoins.scans.subset h) with h | h
      · exact .inl (List.mem_singleton.mp h ▸ hscan)
      · exact .inr h

/-- One round of `get_index_cols`. -/
def betterIndex (tabName : String) (conds : List Condition) (best : ℕ × List String)
    (index : IndexMeta) : ℕ × List String :=
  if best.1 < indexScore tabName conds index.cols then
    (indexScore tabName conds index.cols, index.cols.map (·.name)) else best

theorem foldl_betterIndex (t : String) (conds : List Condition) (indexes : List IndexMeta)
    (best : ℕ × List String) : best.1 ≤ (indexes.foldl (betterIndex t conds) best).1 ∧
      (∀ index ∈ indexes, indexScore t conds index.cols ≤
        (indexes.foldl (betterIndex t conds) best).1) ∧
      (indexes.foldl (betterIndex t conds) best = best ∨ ∃ index ∈ indexes,
        indexes.foldl (betterIndex t conds) best =
        (indexScore t conds index.cols, index.cols.map (·.name))) := by
  induction indexes generalizing best with
  | nil => exact ⟨le_rfl, by simp, .inl rfl⟩
  | cons index indexes ih =>
    obtain ⟨hle, hall, hfrom⟩ := ih (betterIndex t conds best index)
    have hone : best.1 ≤ (betterIndex t conds best index).1 ∧
        indexScore t conds index.cols ≤ (betterIndex t conds best index).1 := by
      unfold betterIndex
      split
      · next hlt => exact ⟨hlt.le, le_rfl⟩
      · next hnot => exact ⟨le_rfl, Nat.not_lt.mp hnot⟩
    rw [List.foldl_cons]
    refine ⟨hone.1.trans hle, List.forall_mem_cons.mpr ⟨hone.2.trans hle, hall⟩, ?_⟩
    rcases hfrom with heq | ⟨index', hmem, heq⟩
    · rw [heq, betterIndex]
      split
      · exact .inr ⟨index, List.mem_cons_self, rfl⟩
      · exact .inl rfl
    · exact .inr ⟨index', List.mem_cons_of_mem _ hmem, heq⟩

/-- `get_index_cols` takes an index with the highest score, if that is not zero. -/
theorem bestScan_of_makeScan {t : String} {s : ScanPlan} (h : makeScan sm t conds = some s) :
    ∃ tab, sm.catalog.tabs s.tabName = some tab ∧ BestScan tab s := by
  obtain ⟨tab, htab, h⟩ := Option.bind_eq_some_iff.mp h
  obtain ⟨-, hall, hfrom⟩ := foldl_betterIndex t conds tab.indexes (0, [])
  have hbest : getIndexCols tab t conds =
    if 0 < (tab.indexes.foldl (betterIndex t conds) (0, [])).1 then
      some (tab.indexes.foldl (betterIndex t conds) (0, [])).2 else none := rfl
  rw [hbest] at h
  by_cases hpos : 0 < (tab.indexes.foldl (betterIndex t conds) (0, [])).1
  · rw [if_pos hpos] at h
    obtain rfl := Option.some.inj h
    refine ⟨tab, htab, ?_⟩
    rcases hfrom with heq | ⟨index, hmem, heq⟩
    · rw [heq] at hpos
      exact absurd hpos (Nat.lt_irrefl 0)
    · rw [heq] at hpos hall
      exact ⟨index, hmem, by rw [heq], hpos, hall⟩
  · rw [if_neg hpos] at h
    obtain rfl := Option.some.inj h
    exact ⟨tab, htab, fun index hindex =>
      Nat.le_zero.mp ((hall index hindex).trans (Nat.not_lt.mp hpos))⟩

theorem bestScan_of_makeScans {tables : List String} {rest : List Condition}
    (h : makeScans sm tables conds = some (scans, rest)) {s : ScanPlan} (hs : s ∈ scans) :
    ∃ tab, sm.catalog.tabs s.tabName = some tab ∧ BestScan tab s := by
  induction tables generalizing conds scans with
  | nil =>
    obtain ⟨rfl, rfl⟩ := Prod.mk.inj (Option.some.inj h)
    cases hs
  | cons t ts ih =>
    obtain ⟨scan, hmake, h⟩ := Option.bind_eq_some_iff.mp h
    obtain ⟨⟨scans', rest'⟩, hrest, h⟩ := Option.bind_eq_some_iff.mp h
    obtain ⟨rfl, rfl⟩ := Prod.mk.inj (Option.some.inj h)
    rcases List.mem_cons.mp hs with rfl | hs
    · exact bestScan_of_makeScan hmake
    · exact ih hrest hs

end

/-- The plan of an accepted query has its conditions the way its joins read them, and the best
scans. -/
theorem kept_of_makeOneRel {sm : SmView} {query : Query} {plan : Plan}
    (hq : query.Checked sm.catalog)
    (hn : query.tables.Nodup) (h : makeOneRel sm query = some plan) :
    plan.Oriented ∧ ∀ s ∈ plan.scans, ∃ tab, sm.catalog.tabs s.tabName = some tab ∧
    BestScan tab s := by
  obtain ⟨scans, rest, hmake, hs⟩ := makeScans_spec hq.exist query.conds
  have hn' : (scans.map (·.tabName)).Nodup := hs.names ▸ hn
  have hempty : "" ∉ scans.map (·.tabName) := by
    intro h
    have hex := hq.exist "" (hs.names ▸ h)
    simp [sm.catalog.named] at hex
  suffices hkept : plan.Oriented ∧ ∀ s ∈ plan.scans, s ∈ scans from
    ⟨hkept.1, fun s hs => bestScan_of_makeScans hmake (hkept.2 s hs)⟩
  rw [makeOneRel, hmake] at h
  rcases scans with _ | ⟨s, _ | ⟨s', others⟩⟩
  · cases h
  · obtain rfl := Option.some.inj h
    exact ⟨trivial, fun s' hs' => hs'⟩
  have hrest : ∀ cond ∈ rest, JoinsTables ((s :: s' :: others).map (·.tabName)) cond := by
    rw [hs.names]
    exact joinsTables_of_mem_rest hq (by simp [← hs.names]) hs
  rcases rest with _ | ⟨cond, conds⟩
  · obtain rfl := Option.some.inj h
    have ho : (Plan.scan s).Oriented := trivial
    refine ⟨oriented_joinRest ho _, fun s'' hmem => ?_⟩
    rcases mem_scans_joinRest hmem with hmem | hmem
    · exact hmem
    · exact List.mem_singleton.mp hmem ▸ List.mem_cons_self
  · obtain ⟨st, hst, hj⟩ := firstJoin_spec sm hn' (by simp) (hrest cond List.mem_cons_self)
    obtain ⟨st', hst', hj'⟩ := foldlM_joinCond sm hn' hempty
      (fun c hc => hrest c (List.mem_cons_of_mem _ hc)) hj
    have ho := oriented_firstJoin hn' (by simp) (hrest cond List.mem_cons_self) hst
    have ho' := oriented_foldlM hn' hempty
      (fun c hc => hrest c (List.mem_cons_of_mem _ hc)) hj ho hst'
    simp only [Option.bind_eq_bind, Option.bind_some, hst, hst'] at h
    obtain rfl := Option.some.inj h
    refine ⟨oriented_joinRest ho' _, fun s'' hmem => ?_⟩
    rcases mem_scans_joinRest hmem with hmem | hmem
    · exact hmem
    · exact hj'.plan.sub s'' hmem

/-- In the plan of an accepted SELECT over distinct tables, every condition of a join compares a
column of its left child with a column of its right child, as the hash path reads them, and every
scan uses an index with the highest score, or none when no index is usable. -/
theorem plan_suits_executors {V : Type} (sm : SmView)
    (convert : V → ColMeta → Except ExecError Bytes)
    (stmt : SelectStmt V) (query : Query) (hq : doAnalyze sm.catalog convert stmt = .ok query)
    (hne : stmt.tabs ≠ [])
    (hn : stmt.tabs.Nodup) : ∃ plan, makeOneRel sm query = some plan ∧ plan.Oriented ∧
      ∀ s ∈ plan.scans, ∃ tab, sm.catalog.tabs s.tabName = some tab ∧ BestScan tab s := by
  obtain ⟨htabs, hchecked⟩ := checked_of_doAnalyze hq
  rw [← htabs] at hne hn
  obtain ⟨_, _, plan, hplan, _⟩ := makeOneRel_spec hchecked hne hn
  exact ⟨plan, hplan, kept_of_makeOneRel hchecked hn hplan⟩

theorem plan_suits_executors_first_table :
    ∃ plan, makeOneRel ⟨twoTables, fun _ => 1, fun _ => 100⟩
      ⟨["t1", "t2"], [⟨⟨"t1", "a"⟩, .eq, .col ⟨"t1", "b"⟩⟩, ⟨⟨"t1", "a"⟩, .lt, .col ⟨"t2", "a"⟩⟩]⟩ =
      some plan ∧
      plan.Oriented ∧ ∀ s ∈ plan.scans, ∃ tab, twoTables.tabs s.tabName = some tab ∧
      BestScan tab s :=
  plan_suits_executors ⟨twoTables, fun _ => 1, fun _ => 100⟩
    (fun v _ => .ok v) (selectOnOneTable "t1") _ rfl (by decide)
    (by decide)

end Rmdb
