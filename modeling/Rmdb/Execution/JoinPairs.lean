import Rmdb.Execution.ColumnValues
import Rmdb.Execution.JoinChildren

/-!
# What a join emits

The specs of `build_cond_specs` read both columns of a condition over the length of the left one, on
the hash path and on the nested path.  So the two paths agree, and a join emits the pairs of tuples
that satisfy its conditions exactly when, for every pair, the conditions read in this way hold when
the conditions hold.
-/

namespace Rmdb

/-! ## The conditions of a join -/

/-- What the constructor of `NestedLoopJoinExecutor` makes of its conditions, for any capacity of a
block. -/
def joinParams (cols : List ColMeta) (leftTupleLen capacity : ℕ) (conds : List Condition) :
    Except ExecError JoinParams := do
  let specs ← conds.mapM (buildCondSpec cols leftTupleLen)
  return ⟨specs, leftTupleLen, capacity⟩

/-- The conditions hold of the pair of two tuples, their columns read over the given lengths. -/
def satisfies (lens : ReadLens) (cols : List ColMeta) (conds : List Condition)
    (l r : Bytes) : Bool :=
  conds.all fun cond => cond.holds lens cols (l ++ r)

/-- Bytes of a pair that lie in one of its two tuples. -/
def WithinSide (leftLen rightLen offset len : ℕ) : Prop :=
  if offset < leftLen then offset + len ≤ leftLen else offset + len ≤ leftLen + rightLen

/-- A condition that a join can evaluate: its columns are found, have one type and lie on opposite
sides, and what is read of them lies in the tuples; a constant has the length of its column. -/
inductive Condition.Placed (cols : List ColMeta) (leftLen rightLen : ℕ) (cond : Condition) : Prop
  | const {lhs : ColMeta} {raw : Bytes} (hlhs : findCol cols cond.lhsCol = .ok lhs)
      (hrhs : cond.rhs = .val raw)
      (hplain : lhs.Plain) (hin : WithinSide leftLen rightLen lhs.offset lhs.len)
      (hraw : raw.length = lhs.len)
  | pair {lhs rhs : ColMeta} {c : TabCol} (hlhs : findCol cols cond.lhsCol = .ok lhs)
      (hrhs : cond.rhs = .col c)
      (hc : findCol cols c = .ok rhs) (hplain : lhs.Plain) (hplain' : rhs.Plain)
        (htype : lhs.type = rhs.type)
      (hopp : lhs.offset < leftLen ↔ ¬ rhs.offset < leftLen)
      (hin : WithinSide leftLen rightLen lhs.offset lhs.len)
      (hin' : WithinSide leftLen rightLen rhs.offset rhs.len)
      (hread : WithinSide leftLen rightLen rhs.offset lhs.len)

/-- The tuples that an executor delivers from `beginTuple` to its end. -/
def Executor.Delivers {σ : Type} (E : Executor σ) (s : σ) (M : Multiset Bytes) : Prop :=
  ∃ s' out, E.beginTuple s = some s' ∧ E.delivered.Emits (fun _ => True) out s' ∧
    Multiset.ofList out = M

/-! ## Reading a side -/

section
variable {l r : Bytes} {leftLen rightLen offset len : ℕ}

theorem slice_of_within (hl : l.length = leftLen) (h : WithinSide leftLen rightLen offset len) :
    slice (l ++ r) offset len =
      slice (if offset < leftLen then l else r)
      (if offset < leftLen then offset else offset - leftLen) len := by
  subst hl
  unfold WithinSide at h
  split at h
  · next hlt => rw [if_pos hlt, if_pos hlt, slice_append_left h]
  · next hge => rw [if_neg hge, if_neg hge, slice_append_right (by omega)]

theorem le_length_of_within (hl : l.length = leftLen) (hr : r.length = rightLen)
    (h : WithinSide leftLen rightLen offset len) :
    (if offset < leftLen then offset else offset - leftLen) + len ≤
    (if offset < leftLen then l else r).length := by
  unfold WithinSide at h
  split at h
  · next hlt => rw [if_pos hlt, if_pos hlt]; omega
  · next hge => rw [if_neg hge, if_neg hge]; omega

end

/-! ## The specs of the conditions -/

/-- The offset of a column in its tuple. -/
def ColMeta.sideOffset (col : ColMeta) (leftLen : ℕ) : ℕ :=
  if col.offset < leftLen then col.offset else col.offset - leftLen

/-- `eval_join_conds` on one condition. -/
def JoinCondSpec.eval (spec : JoinCondSpec) (left right : Bytes) : Bool :=
  let lhs := (if spec.lhsOnLeft then left else right).drop spec.lhsOffset
  let rhs := match spec.rhsVal with
    | some raw => raw
    | none => (if spec.rhsOnLeft then left else right).drop spec.rhsOffset
  evalCompare (ixCompareCol lhs rhs spec.lhsType spec.lhsLen) spec.op

/-- The keys of two tuples agree on one condition. -/
def JoinCondSpec.KeysMatch (spec : JoinCondSpec) (left right : Bytes) : Prop :=
  slice left (if spec.lhsOnLeft then spec.lhsOffset else spec.rhsOffset) spec.lhsLen =
    slice right (if spec.lhsOnLeft then spec.rhsOffset else spec.lhsOffset) spec.lhsLen

section
variable {cols : List ColMeta} {leftLen rightLen capacity : ℕ} {cond : Condition}
  {conds : List Condition}
  {spec : JoinCondSpec} {specs : List JoinCondSpec} {p : JoinParams} {l r : Bytes}
  {lhs rhs : ColMeta}

theorem evalJoinConds_eq : p.evalJoinConds l r = p.condSpecs.all (·.eval l r) := rfl

theorem nestedTest_eq : p.nestedTest l r = p.condSpecs.all (·.eval l r) := by
  rw [JoinParams.nestedTest, evalJoinConds_eq]
  cases p.condSpecs with
  | nil => rfl
  | cons spec specs => rfl

theorem hashTest_iff : p.hashTest l r = true ↔ ∀ spec ∈ p.condSpecs, spec.KeysMatch l r := by
  rw [JoinParams.hashTest, decide_eq_true_iff, JoinParams.leftKey, JoinParams.rightKey]
  induction p.condSpecs with
  | nil => simp
  | cons spec specs ih =>
    rw [List.flatMap_cons, List.flatMap_cons, List.forall_mem_cons, ← ih]
    exact ⟨fun h => List.append_inj h (by simp), fun h => congrArg₂ _ h.1 h.2⟩

theorem buildCondSpec_const {raw : Bytes} (hlhs : findCol cols cond.lhsCol = .ok lhs)
    (hrhs : cond.rhs = .val raw) : buildCondSpec cols leftLen cond =
      .ok ⟨lhs.sideOffset leftLen, 0, decide (lhs.offset < leftLen), false, some raw,
        lhs.type, lhs.len, cond.op⟩ := by
  simp only [buildCondSpec, hlhs, hrhs, ColMeta.sideOffset]
  by_cases h : lhs.offset < leftLen
  · simp [h, pure, Except.pure, bind, Except.bind]
  · simp [h, pure, Except.pure, bind, Except.bind]

theorem buildCondSpec_pair {c : TabCol} (hlhs : findCol cols cond.lhsCol = .ok lhs)
    (hrhs : cond.rhs = .col c) (hc : findCol cols c = .ok rhs) : buildCondSpec cols leftLen cond =
      .ok ⟨lhs.sideOffset leftLen, rhs.sideOffset leftLen, decide (lhs.offset < leftLen),
        decide (rhs.offset < leftLen), none, lhs.type, lhs.len, cond.op⟩ := by
  simp only [buildCondSpec, hlhs, hrhs, hc, ColMeta.sideOffset]
  by_cases h : lhs.offset < leftLen <;> by_cases h' : rhs.offset < leftLen <;>
    simp [h, h', pure, Except.pure, bind, Except.bind]

/-- The bytes that `eval_join_conds` reads from a column on. -/
theorem take_drop_side {len : ℕ} (hl : l.length = leftLen) (hr : r.length = rightLen)
    (h : WithinSide leftLen rightLen lhs.offset len) :
    ((if decide (lhs.offset < leftLen) = true then l else r).drop (lhs.sideOffset leftLen)).take
    len = slice (l ++ r) lhs.offset len := by
  have hle := le_length_of_within hl hr h
  rw [slice_of_within hl h, slice_eq hle]
  simp only [decide_eq_true_eq, ColMeta.sideOffset]

theorem length_drop_side {len : ℕ} (hl : l.length = leftLen) (hr : r.length = rightLen)
    (h : WithinSide leftLen rightLen lhs.offset len) :
    len ≤ ((if decide (lhs.offset < leftLen) = true then l else r).drop
      (lhs.sideOffset leftLen)).length := by
  have hle := le_length_of_within hl hr h
  simp only [decide_eq_true_eq, ColMeta.sideOffset, List.length_drop]
  omega

/-- The spec of a condition compares its columns over the length of the left one. -/
theorem spec_eval (hcond : cond.Placed cols leftLen rightLen) (hl : l.length = leftLen)
    (hr : r.length = rightLen) (hspec : buildCondSpec cols leftLen cond = .ok spec) :
    spec.eval l r = cond.holds lhsLens cols (l ++ r) := by
  cases hcond with
  | @const lhs raw hlhs hrhs hplain hin hraw =>
    rw [buildCondSpec_const hlhs hrhs] at hspec
    obtain rfl := Except.ok.inj hspec
    simp only [JoinCondSpec.eval, Condition.holds, hlhs, hrhs]
    rw [ixCompareCol_eq_compareValues hplain.not_float hplain.width
      (length_drop_side hl hr hin) hraw.ge,
      take_drop_side hl hr hin, List.take_of_length_le hraw.le]
  | @pair lhs rhs c hlhs hrhs hc hplain hplain' htype hopp hin hin' hread =>
    rw [buildCondSpec_pair hlhs hrhs hc] at hspec
    obtain rfl := Except.ok.inj hspec
    simp only [JoinCondSpec.eval, Condition.holds, hlhs, hrhs, hc, ColMeta.compares, lhsLens]
    rw [ixCompareCol_eq_compareValues hplain.not_float hplain.width (length_drop_side hl hr hin)
      (length_drop_side hl hr hread), take_drop_side hl hr hin, take_drop_side hl hr hread]

/-- On an equality of two columns, the keys match when the spec holds. -/
theorem keysMatch_iff_eval (hcond : cond.Placed cols leftLen rightLen) (hl : l.length = leftLen)
    (hr : r.length = rightLen) (hspec : buildCondSpec cols leftLen cond = .ok spec)
    (hpure : spec.op = .eq ∧ spec.rhsVal = none) : spec.KeysMatch l r ↔ spec.eval l r = true := by
  rw [spec_eval hcond hl hr hspec]
  cases hcond with
  | const hlhs hrhs =>
    rw [buildCondSpec_const hlhs hrhs] at hspec
    obtain rfl := Except.ok.inj hspec
    cases hpure.2
  | @pair lhs rhs c hlhs hrhs hc hplain hplain' htype hopp hin hin' hread =>
    rw [buildCondSpec_pair hlhs hrhs hc] at hspec
    obtain rfl := Except.ok.inj hspec
    have hop : cond.op = .eq := hpure.1
    simp only [Condition.holds, hlhs, hrhs, hc, ColMeta.compares, lhsLens, hop,
      evalCompare, beq_iff_eq]
    rw [compareValues_eq_eq hplain.not_float hplain.width length_slice length_slice,
      slice_of_within hl hin, slice_of_within hl hread]
    by_cases hleft : lhs.offset < leftLen
    · simp [JoinCondSpec.KeysMatch, hleft, hopp.mp hleft, ColMeta.sideOffset]
    · have hright : rhs.offset < leftLen := not_not.mp fun h => hleft (hopp.mpr h)
      simp only [JoinCondSpec.KeysMatch, hleft, hright, ColMeta.sideOffset, decide_false,
        Bool.false_eq_true, if_false, if_true]
      exact eq_comm

theorem pure_of_equality (hcond : cond.Placed cols leftLen rightLen) (hop : cond.op = .eq)
    (hcol : ∃ c, cond.rhs = .col c) (hspec : buildCondSpec cols leftLen cond = .ok spec) :
    spec.op = .eq ∧ spec.rhsVal = none := by
  cases hcond with
  | const _ hrhs =>
    obtain ⟨c, hc⟩ := hcol
    cases hrhs.symm.trans hc
  | pair hlhs hrhs hc =>
    rw [buildCondSpec_pair hlhs hrhs hc] at hspec
    obtain rfl := Except.ok.inj hspec
    exact ⟨hop, rfl⟩

/-! ## The tests of the two paths -/

theorem forall₂_of_mapM (h : conds.mapM (buildCondSpec cols leftLen) = .ok specs) :
    List.Forall₂ (fun cond spec => buildCondSpec cols leftLen cond = .ok spec) conds specs := by
  induction conds generalizing specs with
  | nil =>
    obtain rfl := Except.ok.inj h
    exact .nil
  | cons cond conds ih =>
    rw [List.mapM_cons] at h
    cases hone : buildCondSpec cols leftLen cond with
    | error e => rw [hone] at h; cases h
    | ok spec =>
      cases hrest : conds.mapM (buildCondSpec cols leftLen) with
      | error e => rw [hone, hrest] at h; cases h
      | ok specs' =>
        rw [hone, hrest] at h
        obtain rfl := Except.ok.inj h
        exact .cons hone (ih hrest)

theorem exists_cond_of_mem
    (h : List.Forall₂ (fun cond spec => buildCondSpec cols leftLen cond = .ok spec) conds specs)
    (hmem : spec ∈ specs) : ∃ cond ∈ conds, buildCondSpec cols leftLen cond = .ok spec := by
  induction h with
  | nil => cases hmem
  | @cons cond _ conds _ hspec _ ih =>
    rcases List.mem_cons.mp hmem with rfl | hmem
    · exact ⟨cond, List.mem_cons_self, hspec⟩
    · obtain ⟨cond', hcond', hspec'⟩ := ih hmem
      exact ⟨cond', List.mem_cons_of_mem _ hcond', hspec'⟩

theorem joinParams_specs (h : joinParams cols leftLen capacity conds = .ok p) :
    List.Forall₂ (fun cond spec => buildCondSpec cols leftLen cond = .ok spec) conds
    p.condSpecs := by
  unfold joinParams at h
  cases hspecs : conds.mapM (buildCondSpec cols leftLen) with
  | error e => rw [hspecs] at h; cases h
  | ok specs =>
    rw [hspecs] at h
    obtain rfl := Except.ok.inj h
    exact forall₂_of_mapM hspecs

/-- The nested path evaluates the conditions over the length of the left column. -/
theorem nestedTest_eq_satisfies (hconds : ∀ cond ∈ conds, cond.Placed cols leftLen rightLen)
    (hp : joinParams cols leftLen capacity conds = .ok p) (hl : l.length = leftLen)
    (hr : r.length = rightLen) : p.nestedTest l r = satisfies lhsLens cols conds l r := by
  have hspecs := joinParams_specs hp
  rw [nestedTest_eq, satisfies]
  clear hp
  generalize p.condSpecs = specs at hspecs
  induction hspecs with
  | nil => rfl
  | cons hspec _ ih =>
    obtain ⟨hcond, hconds⟩ := List.forall_mem_cons.mp hconds
    rw [List.all_cons, List.all_cons, spec_eval hcond hl hr hspec, ih hconds]

/-- On equalities of columns, the hash path and the nested path use one test. -/
theorem hashTest_eq_nestedTest (hconds : ∀ cond ∈ conds, cond.Placed cols leftLen rightLen)
    (hp : joinParams cols leftLen capacity conds = .ok p) (hl : l.length = leftLen)
    (hr : r.length = rightLen) (hpure : ∀ spec ∈ p.condSpecs, spec.op = .eq ∧ spec.rhsVal = none) :
    p.hashTest l r = p.nestedTest l r := by
  rw [Bool.eq_iff_iff, hashTest_iff, nestedTest_eq, List.all_eq_true]
  refine forall₂_congr fun spec hmem => ?_
  obtain ⟨cond, hcond, hspec⟩ := exists_cond_of_mem (joinParams_specs hp) hmem
  exact keysMatch_iff_eval (hconds cond hcond) hl hr hspec (hpure spec hmem)

/-- The executor joins by the conditions read over the length of the left column. -/
theorem test_eq_satisfies (hconds : ∀ cond ∈ conds, cond.Placed cols leftLen rightLen)
    (hp : joinParams cols leftLen capacity conds = .ok p) (hl : l.length = leftLen)
    (hr : r.length = rightLen) : p.test l r = satisfies lhsLens cols conds l r := by
  rw [← nestedTest_eq_satisfies hconds hp hl hr]
  unfold JoinParams.test
  split
  · next hhash =>
    simp only [JoinParams.hashProbeEnabled, Bool.and_eq_true, List.all_eq_true, decide_eq_true_eq,
      Option.isNone_iff_eq_none] at hhash
    exact hashTest_eq_nestedTest hconds hp hl hr hhash.2
  · rfl

/-- Equal declared lengths: reading both columns over the length of the left one reads what the
condition is about. -/
theorem holds_lhsLens_eq (hcond : cond.Placed cols leftLen rightLen) (heq : cond.EqualLens cols)
    (tuple : Bytes) : cond.holds lhsLens cols tuple = cond.holds declaredLens cols tuple := by
  cases hcond with
  | const hlhs hrhs => simp only [Condition.holds, hlhs, hrhs]
  | @pair lhs rhs c hlhs hrhs hc hplain hplain' htype =>
    have hlen : lhs.len = rhs.len := by
      by_cases hstr : lhs.type = .string
      · exact heq c lhs rhs hrhs hlhs hc hstr
      · exact (hplain.width.symm.trans (compareWidth_of_ne hstr _ _)).trans (htype ▸ hplain'.width)
    simp only [Condition.holds, hlhs, hrhs, hc, ColMeta.compares, lhsLens, declaredLens, hlen]

/-- The shorter value of a tuple is the beginning of the longer one only if nothing but zeros
follows there. -/
def PrefixIsWhole (lhs rhs : ColMeta) (tuple : Bytes) : Prop :=
  slice tuple lhs.offset lhs.len = slice tuple rhs.offset lhs.len →
    padTo rhs.len (slice tuple lhs.offset lhs.len) = slice tuple rhs.offset rhs.len

/-- A string that is equal to a longer one agrees with its beginning. -/
theorem eq_slice_of_padTo {tuple : Bytes} (hlen : lhs.len ≤ rhs.len)
    (h : padTo rhs.len (slice tuple lhs.offset lhs.len) = slice tuple rhs.offset rhs.len) :
    slice tuple lhs.offset lhs.len = slice tuple rhs.offset lhs.len := by
  have htake : (slice tuple rhs.offset rhs.len).take lhs.len = slice tuple rhs.offset lhs.len := by
    rw [slice, slice, ← List.map_take, List.take_range, Nat.min_eq_left hlen]
  rw [← htake, ← h, padTo, List.take_append_of_le_length (by simp),
    List.take_of_length_le (by simp)]

/-- An equality of a shorter and a longer string is judged otherwise for the length of the shorter
one exactly where the longer one goes on behind it. -/
theorem holds_lhsLens_eq_iff {c : TabCol} {tuple : Bytes} (hop : cond.op = .eq)
    (hlhs : findCol cols cond.lhsCol = .ok lhs) (hrhs : cond.rhs = .col c)
    (hc : findCol cols c = .ok rhs) (htype : lhs.type = .string) (hlen : lhs.len ≤ rhs.len) :
    cond.holds lhsLens cols tuple = cond.holds declaredLens cols tuple ↔
    PrefixIsWhole lhs rhs tuple := by
  have hread : cond.holds lhsLens cols tuple = true ↔
      slice tuple lhs.offset lhs.len = slice tuple rhs.offset lhs.len := by
    simp only [Condition.holds, hlhs, hrhs, hc, ColMeta.compares, lhsLens, htype, hop, evalCompare,
      beq_iff_eq]
    rw [compareValues_string (by simp), memcmp_eq_eq (by simp)]
  have hmeans : cond.holds declaredLens cols tuple = true ↔
      padTo rhs.len (slice tuple lhs.offset lhs.len) = slice tuple rhs.offset rhs.len := by
    simp only [Condition.holds, hlhs, hrhs, hc, ColMeta.compares, declaredLens, htype, hop,
      evalCompare, beq_iff_eq, compareValues, length_slice]
    rw [padTo_of_le (n := lhs.len) (by simpa using hlen),
      memcmp_eq_eq (by simp [padTo, Nat.add_sub_cancel' hlen])]
  rw [Bool.eq_iff_iff, hread, hmeans, PrefixIsWhole]
  exact ⟨fun h => h.1, fun h => ⟨h, eq_slice_of_padTo hlen⟩⟩

end

/-! ## The pairs -/

section
variable {t t' : Bytes → Bytes → Bool} {ls rs : List Bytes} {x : Bytes} {leftLen : ℕ}

theorem mem_joinPairs : x ∈ joinPairs t ls rs ↔ ∃ l ∈ ls, ∃ r ∈ rs, t l r = true ∧ l ++ r = x := by
  induction ls with
  | nil => simp
  | cons l ls ih =>
    rw [pairs_cons, Multiset.mem_add, ih]
    simp [matchesOf, and_assoc]

/-- Two tests give the same pairs when they agree on all pairs. -/
theorem joinPairs_eq_iff (hls : ∀ l ∈ ls, l.length = leftLen) :
    joinPairs t ls rs = joinPairs t' ls rs ↔ ∀ l ∈ ls, ∀ r ∈ rs, t l r = t' l r := by
  constructor
  · intro h l hl r hr
    have hmem {u : Bytes → Bytes → Bool} : l ++ r ∈ joinPairs u ls rs ↔ u l r = true := by
      rw [mem_joinPairs]
      constructor
      · rintro ⟨l', hl', r', _, hu, heq⟩
        obtain ⟨rfl, rfl⟩ := List.append_inj heq ((hls l' hl').trans (hls l hl).symm)
        exact hu
      · exact fun hu => ⟨l, hl, r, hr, hu, rfl⟩
    rw [Bool.eq_iff_iff, ← hmem, h, hmem]
  · intro h
    induction ls with
    | nil => rfl
    | cons l ls ih =>
      obtain ⟨hl, hls'⟩ := List.forall_mem_cons.mp h
      rw [pairs_cons, pairs_cons, ih (List.forall_mem_cons.mp hls).2 hls', matchesOf, matchesOf,
        List.filter_congr hl]

end

/-! ## What is delivered -/

section
variable {σ : Type} {E : Executor σ} {s : σ} {M M' : Multiset Bytes}

theorem delivers_of_enumerates {I : σ → Prop} (h : E.delivered.EnumeratesBag I M) (hs : I s) :
    E.Delivers s M := by
  obtain ⟨s', out, hbegin, hout, hem⟩ := h s hs
  exact ⟨s', out, hbegin, hem.mono fun _ _ => trivial, hout⟩

theorem Executor.Delivers.unique (h : E.Delivers s M) (h' : E.Delivers s M') : M = M' := by
  obtain ⟨s₁, out₁, hbegin₁, hem₁, rfl⟩ := h
  obtain ⟨s₂, out₂, hbegin₂, hem₂, rfl⟩ := h'
  obtain rfl := Option.some.inj (hbegin₁.symm.trans hbegin₂)
  rw [hem₁.unique hem₂]

end

/-- A join emits every pair of tuples that satisfies its conditions once, and no other, exactly when
no pair is judged otherwise for reading the right column of a condition over the length of the left
one; so whenever the strings that are compared have one declared length, and for an equality of a
shorter string on the left and a longer one exactly if the longer one never goes on behind the
shorter one.  On equalities of columns the two paths emit the same pairs. -/
theorem join_emits_satisfying_pairs_iff {σ τ : Type} {L : Executor σ} {R : Executor τ}
    {IL : σ → Prop}
    {IR : τ → Prop} {ls rs : List Bytes} {cols : List ColMeta} {leftLen rightLen capacity n : ℕ}
    {conds : List Condition} {p : JoinParams} {s : JoinState σ τ}
    (hleft : L.peeked.Enumerates IL ls)
    (hright : R.peeked.Enumerates IR rs) (hls : ∀ l ∈ ls, l.length = leftLen)
    (hrs : ∀ r ∈ rs, r.length = rightLen)
    (hconds : ∀ cond ∈ conds, cond.Placed cols leftLen rightLen)
    (hp : joinParams cols leftLen capacity conds = .ok p) (hs : IL s.left ∧ IR s.right)
    (hn : ls.length * (2 * rs.length + 2) < n) :
    ((joinExecutor n p L R).Delivers s (joinPairs (satisfies declaredLens cols conds) ls rs) ↔
      ∀ l ∈ ls, ∀ r ∈ rs, satisfies lhsLens cols conds l r =
      satisfies declaredLens cols conds l r) ∧
    ((∀ cond ∈ conds, cond.EqualLens cols) →
      (joinExecutor n p L R).Delivers s (joinPairs (satisfies declaredLens cols conds) ls rs)) ∧
    (∀ cond c lhs rhs, conds = [cond] → cond.op = .eq → findCol cols cond.lhsCol = .ok lhs →
      cond.rhs = .col c → findCol cols c = .ok rhs → lhs.type = .string → lhs.len ≤ rhs.len →
      ((joinExecutor n p L R).Delivers s (joinPairs (satisfies declaredLens cols conds) ls rs) ↔
        ∀ l ∈ ls, ∀ r ∈ rs, PrefixIsWhole lhs rhs (l ++ r))) ∧
    ((∀ cond ∈ conds, cond.op = .eq ∧ ∃ c, cond.rhs = .col c) → ∃ M,
      (joinExecutorOn true n p L R).Delivers s M ∧
      (joinExecutorOn false n p L R).Delivers s M) := by
  have hiff : (joinExecutor n p L R).Delivers s
    (joinPairs (satisfies declaredLens cols conds) ls rs) ↔
      ∀ l ∈ ls, ∀ r ∈ rs, satisfies lhsLens cols conds l r =
        satisfies declaredLens cols conds l r := by
    have htest : joinPairs p.test ls rs = joinPairs (satisfies lhsLens cols conds) ls rs :=
      (joinPairs_eq_iff hls).mpr fun l hl r hr => test_eq_satisfies hconds hp (hls l hl) (hrs r hr)
    have hdel := delivers_of_enumerates (joinExecutor_enumerates (p := p) hleft hright hn) hs
    rw [htest] at hdel
    rw [← joinPairs_eq_iff hls]
    exact ⟨fun h => hdel.unique h, fun h => h ▸ hdel⟩
  refine ⟨hiff, fun heq => hiff.mpr fun l _ r _ => ?_, ?_, fun hpure => ?_⟩
  · unfold satisfies
    rw [Bool.eq_iff_iff, List.all_eq_true, List.all_eq_true]
    exact forall₂_congr fun cond hcond => by
      rw [holds_lhsLens_eq (hconds cond hcond) (heq cond hcond)]
  · rintro cond c lhs rhs rfl hop hlhs hrhs hc htype hlen
    rw [hiff]
    refine forall₂_congr fun l _ => forall₂_congr fun r _ => ?_
    rw [← holds_lhsLens_eq_iff hop hlhs hrhs hc htype hlen]
    simp [satisfies]
  · have hspecs : ∀ spec ∈ p.condSpecs, spec.op = .eq ∧ spec.rhsVal = none := by
      intro spec hmem
      obtain ⟨cond, hcond, hspec⟩ := exists_cond_of_mem (joinParams_specs hp) hmem
      exact pure_of_equality (hconds cond hcond) (hpure cond hcond).1 (hpure cond hcond).2 hspec
    have htests : joinPairs (p.testOn true) ls rs = joinPairs (p.testOn false) ls rs :=
      (joinPairs_eq_iff hls).mpr fun l hl r hr =>
        hashTest_eq_nestedTest hconds hp (hls l hl) (hrs r hr) hspecs
    refine ⟨joinPairs (p.testOn true) ls rs,
      delivers_of_enumerates (joinExecutorOn_enumerates true hleft hright hn) hs, ?_⟩
    rw [htests]
    exact delivers_of_enumerates (joinExecutorOn_enumerates false hleft hright hn) hs

/-- The columns of a join of a table `t1 (a CHAR(4), c CHAR(8))` and a table `t2` with a column `b`
of a given length. -/
def stringCols (len : ℕ) : List ColMeta :=
  [⟨"t1", "a", .string, 4, 0⟩, ⟨"t1", "c", .string, 8, 4⟩, ⟨"t2", "b", .string, len, 12⟩]

/-- `t1.a = t2.b`. -/
def stringsEqual : Condition := ⟨⟨"t1", "a"⟩, .eq, .col ⟨"t2", "b"⟩⟩

/-- The rows of a table, as a scan without conditions shows them. -/
def scanAll (rows : List Bytes) : Executor SeqScanState := seqScanExecutor rows fun _ => some true

theorem placed_stringsEqual {len : ℕ} (h : 4 ≤ len) :
    stringsEqual.Placed (stringCols len) 12 len := by
  have hplain {n off : ℕ} {t a : String} : (ColMeta.mk t a .string n off).Plain := ⟨by simp, rfl⟩
  refine .pair rfl rfl rfl hplain hplain rfl (by simp) ?_ ?_ ?_
  · simp [WithinSide]
  · simp [WithinSide]
  · simp only [WithinSide, Nat.lt_irrefl, if_false]
    omega

/-- The rows of `t1`: `abcd` and `wxyz`, each with eight more letters. -/
def leftRows : List Bytes :=
  [[97, 98, 99, 100, 113, 113, 113, 113, 113, 113, 113, 113],
    [119, 120, 121, 122, 113, 113, 113, 113, 113, 113, 113, 113]]

/-- Of `abcd` and `wxyz`, the first one is joined with `abcd` as a CHAR(8). -/
theorem join_emits_satisfying_pairs_padded :
    ∃ p, joinParams (stringCols 8) 12 4 [stringsEqual] = .ok p ∧
    (joinExecutor 13 p (scanAll leftRows) (scanAll [[97, 98, 99, 100, 0, 0, 0, 0]])).Delivers
      { left := {}, right := {} }
      (joinPairs (satisfies declaredLens (stringCols 8) [stringsEqual]) leftRows
        [[97, 98, 99, 100, 0, 0, 0, 0]]) ∧
    joinPairs (satisfies declaredLens (stringCols 8) [stringsEqual]) leftRows
      [[97, 98, 99, 100, 0, 0, 0, 0]] =
      {[97, 98, 99, 100, 113, 113, 113, 113, 113, 113, 113, 113, 97, 98, 99, 100, 0, 0, 0, 0]} := by
  have hkeep (rows : List Bytes) : ∀ row ∈ rows, ((fun _ : Bytes => some true) row).isSome =
    true := by simp
  have hleft : (scanAll leftRows).peeked.Enumerates (fun _ => True) leftRows :=
    seqScanExecutor_enumerates (hkeep leftRows)
  have hright : (scanAll [[97, 98, 99, 100, 0, 0, 0, 0]]).peeked.Enumerates (fun _ => True)
      [[97, 98, 99, 100, 0, 0, 0, 0]] := seqScanExecutor_enumerates (hkeep _)
  have hlen : ∀ row ∈ ([[97, 98, 99, 100, 0, 0, 0, 0]] : List Bytes), row.length = 8 := by decide
  refine ⟨_, rfl, (join_emits_satisfying_pairs_iff hleft hright (by decide) hlen
    (by simpa using placed_stringsEqual (by decide)) rfl ⟨trivial, trivial⟩
      (by decide)).2.2.1 stringsEqual
    ⟨"t2", "b"⟩ _ _ rfl rfl rfl rfl rfl rfl (by decide) |>.2 ?_, by decide⟩
  unfold PrefixIsWhole
  decide

/-- `abcd` is joined with `abcdefgh`. -/
theorem not_join_emits_satisfying_pairs :
    ¬ ∀ (ls rs : List Bytes) (cols : List ColMeta) (leftLen rightLen capacity n : ℕ)
    (conds : List Condition)
      (p : JoinParams), (∀ l ∈ ls, l.length = leftLen) → (∀ r ∈ rs, r.length = rightLen) →
      (∀ cond ∈ conds, cond.Placed cols leftLen rightLen) →
      joinParams cols leftLen capacity conds = .ok p → ls.length * (2 * rs.length + 2) < n →
      (joinExecutor n p (scanAll ls) (scanAll rs)).Delivers { left := {}, right := {} }
        (joinPairs (satisfies declaredLens cols conds) ls rs) := by
  intro h
  obtain ⟨s, out, hbegin, hem, hout⟩ :=
    h [[97, 98, 99, 100, 113, 113, 113, 113, 113, 113, 113, 113]]
    [[97, 98, 99, 100, 101, 102, 103, 104]] (stringCols 8) 12 8 8 5 [stringsEqual] _
      (by decide) (by decide)
    (by simpa using placed_stringsEqual (by decide)) rfl (by decide)
  have hnone : joinPairs (satisfies declaredLens (stringCols 8) [stringsEqual])
      [[97, 98, 99, 100, 113, 113, 113, 113, 113, 113, 113, 113]]
        [[97, 98, 99, 100, 101, 102, 103, 104]] = 0 := by
    decide
  rw [hnone, Multiset.coe_eq_zero] at hout
  subst hout
  cases hbegin
  cases hem.2

end Rmdb
