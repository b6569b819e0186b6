import Mathlib.Algebra.BigOperators.Group.Multiset.Basic
import Rmdb.Execution.Executors

/-!
# The block join

A join whose children show their tuples through `peekTuple` emits every pair of tuples that passes
its test, once, and ends.  The loops of `find_next` are described by the pairs that are still to
come: a round either keeps them and lowers a measure, or emits one of them.  The measure bounds the
rounds of every call by the lengths of the two children.
-/

namespace Rmdb

/-! ## The two paths -/

namespace JoinParams

/-- The test of the hash path. -/
def hashTest (p : JoinParams) (left right : Bytes) : Bool :=
  decide (p.leftKey left = p.rightKey right)

/-- The test of the nested path. -/
def nestedTest (p : JoinParams) (left right : Bytes) : Bool :=
  p.condSpecs.isEmpty || p.evalJoinConds left right

/-- The test of the path that `hash_probe_enabled_` chooses. -/
def testOn (p : JoinParams) (hash : Bool) : Bytes → Bytes → Bool :=
  if hash then p.hashTest else p.nestedTest

theorem testOn_hashProbeEnabled (p : JoinParams) : p.testOn p.hashProbeEnabled = p.test := by
  funext l r
  unfold testOn test
  split
  · rfl
  · rfl

end JoinParams

/-- `find_next` on a given path. -/
def JoinState.findNextOn {σ τ : Type} (hash : Bool) (n : ℕ) (p : JoinParams) (L : Executor σ)
    (R : Executor τ) (s : JoinState σ τ) : Option (JoinState σ τ) :=
  if hash then iterate (hashRound n p L R) n { s with isEnd := true, record := none }
  else iterate (nestedRound n p L R) n { s with isEnd := true, record := none }

/-- `NestedLoopJoinExecutor` with a given `hash_probe_enabled_`. -/
def joinExecutorOn {σ τ : Type} (hash : Bool) (n : ℕ) (p : JoinParams) (L : Executor σ)
    (R : Executor τ) : Executor (JoinState σ τ) where
  beginTuple s := do
    let left ← L.beginTuple s.left
    JoinState.findNextOn hash n p L R { s.resetHashBlock with left, blockIdx := 0 }
  nextTuple s :=
    if s.isEnd then some s
    else if hash then JoinState.findNextOn hash n p L R s
    else do
      let right ← R.nextTuple s.right
      JoinState.findNextOn hash n p L R { s with right }
  isEnd s := s.isEnd
  next s := if s.isEnd then none else s.record
  peekTuple _ := none

theorem joinExecutorOn_hashProbeEnabled {σ τ : Type} (n : ℕ) (p : JoinParams) (L : Executor σ)
    (R : Executor τ) : joinExecutorOn p.hashProbeEnabled n p L R = joinExecutor n p L R := rfl

/-! ## Pairs -/

section
variable {t : Bytes → Bytes → Bool} {p : JoinParams} {l r : Bytes} {ls ls' rs : List Bytes}

/-- The matches of a left tuple. -/
def matchesOf (t : Bytes → Bytes → Bool) (l : Bytes) (rs : List Bytes) : Multiset Bytes :=
  ((rs.filter (t l)).map (l ++ ·) : List Bytes)

/-- The pairs of tuples that pass the test. -/
def joinPairs (t : Bytes → Bytes → Bool) (ls rs : List Bytes) : Multiset Bytes :=
  (ls.map fun l => matchesOf t l rs).sum

@[simp] theorem matchesOf_nil : matchesOf t l [] = 0 := rfl

theorem matchesOf_cons : matchesOf t l (r :: rs) =
    (if t l r then {l ++ r} else 0) + matchesOf t l rs := by
  unfold matchesOf
  cases h : t l r with
  | true => simp [h]
  | false => simp [h]

@[simp] theorem pairs_nil_left : joinPairs t [] rs = 0 := rfl

@[simp] theorem pairs_cons : joinPairs t (l :: ls) rs = matchesOf t l rs + joinPairs t ls rs := rfl

theorem pairs_append : joinPairs t (ls ++ ls') rs = joinPairs t ls rs + joinPairs t ls' rs := by
  simp [joinPairs]

@[simp] theorem pairs_nil_right : joinPairs t ls [] = 0 := by
  induction ls with
  | nil => rfl
  | cons l ls ih => simp [ih]

theorem pairs_cons_right : joinPairs t ls (r :: rs) =
    ((ls.filter (t · r)).map (· ++ r) : List Bytes) + joinPairs t ls rs := by
  induction ls with
  | nil => rfl
  | cons l ls ih =>
    rw [pairs_cons, matchesOf_cons, ih, pairs_cons]
    cases h : t l r with
    | true =>
      simp only [if_true, List.filter_cons_of_pos (p := (t · r)) h, List.map_cons]
      rw [add_add_add_comm]
      rfl
    | false =>
      simp only [Bool.false_eq_true, if_false, zero_add, List.filter_cons, h]
      rw [add_left_comm]

/-- Probing a block by its keys gives the tuples of the block that pass the test. -/
theorem findEqHash_pairs {σ τ : Type} (s : JoinState σ τ) (r : Bytes) :
    ((JoinState.buildEqHash p s).findEqHash (p.rightKey r)).map (fun i => s.block.getD i [] ++ r) =
      (s.block.filter (p.hashTest · r)).map (· ++ r) := by
  have haux : ∀ (before block : List Bytes), before ++ block = s.block →
      (((block.mapIdx fun idx left => (p.leftKey left, before.length + idx)).filter
        (·.1 = p.rightKey r)).map (·.2)).map (fun i => s.block.getD i [] ++ r) =
      (block.filter (p.hashTest · r)).map (· ++ r) := by
    intro before block
    induction block generalizing before with
    | nil => simp
    | cons l block ih =>
      intro hblock
      have hl : s.block.getD before.length [] = l := by simp [← hblock]
      have hrest := ih (before ++ [l]) (by simpa using hblock)
      have htest : p.hashTest l r = decide (p.leftKey l = p.rightKey r) := rfl
      have hidx : (fun idx left => (p.leftKey left, before.length + (idx + 1))) =
          fun idx left => (p.leftKey left, (before ++ [l]).length + idx) := by
        funext idx left
        simp [Nat.add_comm 1, Nat.add_assoc]
      rw [List.mapIdx_cons, hidx]
      by_cases hkey : p.leftKey l = p.rightKey r
      · rw [List.filter_cons_of_pos (by simpa using hkey),
          List.filter_cons_of_pos (by simp [htest, hkey]),
          List.map_cons, List.map_cons, List.map_cons, hrest, Nat.add_zero, hl]
      · rw [List.filter_cons_of_neg (by simpa using hkey),
          List.filter_cons_of_neg (by simp [htest, hkey]), hrest]
  simpa [JoinState.findEqHash, JoinState.buildEqHash] using haux [] s.block rfl

end

/-! ## Loading a block -/

section
variable {σ τ : Type} {n : ℕ} {p : JoinParams} {L : Executor σ} {R : Executor τ} {IL : σ → Prop}
  {IR : τ → Prop} {ls rs : List Bytes} {s : JoinState σ τ} {M : Multiset Bytes} {m : ℕ}

open JoinState

/-- `load_left_block` takes tuples from the left child, and none only when there is none. -/
theorem loadLeftBlock_spec (h : L.peeked.Emits IL ls s.left) (hn : ls.length < n) :
    ∃ left block rest, loadLeftBlock n p L s = some { s with left, block } ∧ ls = block ++ rest ∧
      (block = [] → rest = []) ∧ L.peeked.Emits IL rest left := by
  let P : ℕ → JoinState σ τ → Prop := fun m s' => ∃ left block rest, s' = { s with left, block } ∧
    ls = block ++ rest ∧ m = rest.length ∧ L.peeked.Emits IL rest left
  let Q : JoinState σ τ → Prop := fun s' => ∃ left block rest, s' = { s with left, block } ∧
    ls = block ++ rest ∧ (block = [] → rest = []) ∧ L.peeked.Emits IL rest left
  have hround : ∀ m s', P m s' → (∃ s'', loadRound p L s' = some (.done s'') ∧ Q s'') ∨
      ∃ m' s'', m' < m ∧ loadRound p L s' = some (.next s'') ∧ P m' s'' := by
    rintro m s' ⟨left, block, rest, rfl, hls, rfl, hem⟩
    cases rest with
    | nil =>
      have hend : L.isEnd left = true := hem.2
      exact .inl ⟨_, by simp [loadRound, hend], left, block, [], rfl, hls, fun _ => rfl, hem⟩
    | cons x rest =>
      obtain ⟨_, hend, hget, left', hadv, hem'⟩ := id hem
      have hend : L.isEnd left = false := hend
      have hget : L.peekTuple left = some x := hget
      have hadv : L.nextTuple left = some left' := hadv
      by_cases hfull : block ≠ [] ∧ p.joinBufferCapacity < (block.length + 1) * p.leftTupleLen
      · exact .inl ⟨_, by simp [loadRound, hend, hfull], left, block, x :: rest, rfl, hls,
          fun h => absurd h hfull.1, hem⟩
      · refine .inr ⟨rest.length, { s with left := left', block := block ++ [x] }, by simp, ?_,
          left', block ++ [x], rest, rfl, by simpa using hls, rfl, hem'⟩
        simp only [loadRound, hend, hget, hadv, if_neg hfull]
        rfl
  obtain ⟨s', hs', left, block, rest, rfl, hrest⟩ := iterate_spec hround
    (show P ls.length { s with block := [] } from ⟨s.left, [], ls, rfl, rfl, rfl, h⟩) hn
  exact ⟨left, block, rest, hs', hrest⟩

/-! ## The nested path -/

/-- The states of `find_next_nested` at the head of a round: the pairs still to come and a bound on
the rounds.  There is no block, or the tuple `l` of the block meets the right tuples `rs'` next, or
the block is used up. -/
inductive NestedAt (p : JoinParams) (L : Executor σ) (R : Executor τ) (IL : σ → Prop)
    (IR : τ → Prop) (rs : List Bytes) : Multiset Bytes → ℕ → JoinState σ τ → Prop
  | empty {s : JoinState σ τ} {ls : List Bytes} (hblock : s.block = [])
      (hl : L.peeked.Emits IL ls s.left)
      (hr : IR s.right) : NestedAt p L R IL IR rs (joinPairs p.nestedTest ls rs)
        (ls.length * (rs.length + 2)) s
  | inside {s : JoinState σ τ} {ls rs' after : List Bytes} {l : Bytes}
      (hblock : s.block.drop s.blockIdx = l :: after) (hl : L.peeked.Emits IL ls s.left)
      (hr : R.peeked.Emits IR rs' s.right) :
      NestedAt p L R IL IR rs (matchesOf p.nestedTest l rs' + joinPairs p.nestedTest
        (after ++ ls) rs)
        (ls.length * (rs.length + 2) + after.length * (rs.length + 1) + rs'.length + 2) s
  | past {s : JoinState σ τ} {ls : List Bytes} (hblock : s.block ≠ [])
      (hidx : s.block.length ≤ s.blockIdx) (hl : L.peeked.Emits IL ls s.left) (hr : IR s.right) :
      NestedAt p L R IL IR rs (joinPairs p.nestedTest ls rs) (ls.length * (rs.length + 2) + 1) s

/-- What a call of `find_next` leads to when the pairs `M` are to come: the end, or one of the pairs
and a state from which `advance` leads on to the others. -/
inductive Found (IL : σ → Prop) (IR : τ → Prop) (advance : JoinState σ τ → Option (JoinState σ τ))
    (At : Multiset Bytes → ℕ → JoinState σ τ → Prop) (m : ℕ) : Multiset Bytes → JoinState σ τ → Prop
  | ended {s : JoinState σ τ} (hend : s.isEnd = true) (hl : IL s.left) (hr : IR s.right) :
      Found IL IR advance At m 0 s
  | found {s s' : JoinState σ τ} {x : Bytes} {M : Multiset Bytes} {m' : ℕ} (hend : s.isEnd = false)
      (hrec : s.record = some x) (hl : IL s.left) (hr : IR s.right) (hadv : advance s = some s')
      (hm : m' ≤ m) (hat : At M m' s') : Found IL IR advance At m (x ::ₘ M) s

theorem Found.mono {advance : JoinState σ τ → Option (JoinState σ τ)}
    {At : Multiset Bytes → ℕ → JoinState σ τ → Prop} {m' : ℕ} (h : Found IL IR advance At m M s)
    (hm : m ≤ m') : Found IL IR advance At m' M s := by
  cases h with
  | ended hend hl hr => exact .ended hend hl hr
  | found hend hrec hl hr hadv hle hat => exact .found hend hrec hl hr hadv (hle.trans hm) hat

/-- The right child is moved on before the nested path looks for the next pair. -/
def advanceRight (R : Executor τ) (s : JoinState σ τ) : Option (JoinState σ τ) := do
  let right ← R.nextTuple s.right
  return { s with right }

theorem loadNestedBlock_spec (hright : R.peeked.Enumerates IR rs) (hlen : ls.length < n)
    (hblock : s.block = []) (hl : L.peeked.Emits IL ls s.left) (hr : IR s.right) :
    ∃ s', loadNestedBlock n p L R s = some s' ∧ s'.isEnd = s.isEnd ∧
      ((s'.block = [] ∧ joinPairs p.nestedTest ls rs = 0 ∧ IL s'.left ∧ IR s'.right) ∨
        (s'.block ≠ [] ∧ ∃ m', m' ≤ ls.length * (rs.length + 2) ∧
          NestedAt p L R IL IR rs (joinPairs p.nestedTest ls rs) m' s')) := by
  obtain ⟨left, block, rest, hload, rfl, hnil, hem⟩ := loadLeftBlock_spec (p := p) hl hlen
  cases block with
  | nil =>
    obtain rfl := hnil rfl
    refine ⟨{ s with left, block := [] }, ?_, rfl, .inl ⟨rfl, rfl, hem.inv, hr⟩⟩
    simp [loadNestedBlock, hblock, hload]
  | cons l after =>
    obtain ⟨right, hbegin, hemr⟩ := hright s.right hr
    have hbegin : R.beginTuple s.right = some right := hbegin
    refine ⟨{ s with left, block := l :: after, blockIdx := 0, right }, ?_, rfl,
      .inr ⟨by simp, _, ?_, .inside rfl hem hemr⟩⟩
    · simp [loadNestedBlock, hblock, hload, hbegin]
    · simp only [List.length_append, List.length_cons]
      ring_nf
      omega

/-- A round of the nested path in a block. -/
theorem nestedRound_of_block (hright : R.peeked.Enumerates IR rs)
    {s₀ : JoinState σ τ} (hload : loadNestedBlock n p L R s₀ = some s) (hend : s.isEnd = true)
    (hblock : s.block ≠ []) (h : NestedAt p L R IL IR rs M m s) :
    (∃ s', nestedRound n p L R s₀ = some (.done s') ∧
      Found IL IR (advanceRight R) (NestedAt p L R IL IR rs) m M s') ∨
    ∃ m' s', m' < m ∧ nestedRound n p L R s₀ = some (.next s') ∧ NestedAt p L R IL IR rs M m' s' ∧
      s'.isEnd = true := by
  cases h with
  | empty hnil => exact absurd hnil hblock
  | past _ hidx hl hr =>
    refine .inr ⟨_, { s with block := [], blockIdx := 0 }, by omega, ?_, .empty rfl hl hr, hend⟩
    simp [nestedRound, hload, hblock, Nat.not_lt.mpr hidx]
  | @inside _ ls rs' after l hdrop hl hr =>
    have hidx : s.blockIdx < s.block.length := by
      have hlen := congrArg List.length hdrop
      simp only [List.length_drop, List.length_cons] at hlen
      omega
    have hget : s.block.getD s.blockIdx [] = l := by
      have h0 := congrArg (·[0]?) hdrop
      simp only [List.getElem?_drop, Nat.add_zero, List.getElem?_cons_zero] at h0
      simp [List.getD, h0]
    cases rs' with
    | nil =>
      -- The right child is at its end: the next tuple of the block starts over.
      have hrend : R.isEnd s.right = true := hr.2
      obtain ⟨right, hbegin, hem⟩ := hright s.right hr.inv
      have hbegin : R.beginTuple s.right = some right := hbegin
      have hround : nestedRound n p L R s₀ =
          some (.next { s with blockIdx := s.blockIdx + 1, right }) := by
        simp [nestedRound, hload, hblock, hidx, hrend, hbegin]
      have hdrop' : s.block.drop (s.blockIdx + 1) = after := by
        rw [← List.drop_drop, hdrop]
        rfl
      rw [matchesOf_nil, zero_add]
      cases after with
      | nil =>
        have hat : NestedAt p L R IL IR rs (joinPairs p.nestedTest ls rs)
          (ls.length * (rs.length + 2) + 1) { s with blockIdx := s.blockIdx + 1, right } :=
          .past hblock (List.drop_eq_nil_iff.mp hdrop') hl hem.inv
        exact .inr ⟨_, _, by simp, hround, hat, hend⟩
      | cons l' after =>
        have hat : NestedAt p L R IL IR rs
          (matchesOf p.nestedTest l' rs + joinPairs p.nestedTest (after ++ ls) rs)
            (ls.length * (rs.length + 2) + after.length * (rs.length + 1) + rs.length + 2)
            { s with blockIdx := s.blockIdx + 1, right } := .inside hdrop' hl hem
        refine .inr ⟨_, _, ?_, hround, hat, hend⟩
        simp only [List.length_cons, List.length_nil]
        ring_nf
        omega
    | cons r rs' =>
      obtain ⟨hir, hrend, hpeek, right, hadv, hem⟩ := id hr
      have hrend : R.isEnd s.right = false := hrend
      have hpeek : R.peekTuple s.right = some r := hpeek
      have hadv : R.nextTuple s.right = some right := hadv
      have htest : (p.condSpecs.isEmpty || p.evalJoinConds l r) = p.nestedTest l r := rfl
      have hround : nestedRound n p L R s₀ = tryMatch p R s := by
        simp [nestedRound, hload, hblock, hidx, hrend]
      cases ht : p.nestedTest l r with
      | true =>
        have hmatch : tryMatch p R s =
            some (.done { s with record := some (l ++ r), isEnd := false }) := by
          simp only [tryMatch, hpeek, hget, htest, ht, if_true]
        have hat : NestedAt p L R IL IR rs
          (matchesOf p.nestedTest l rs' + joinPairs p.nestedTest (after ++ ls) rs)
            (ls.length * (rs.length + 2) + after.length * (rs.length + 1) + rs'.length + 2)
            { s with right, record := some (l ++ r), isEnd := false } := .inside hdrop hl hem
        refine .inl ⟨_, hround.trans hmatch, ?_⟩
        rw [matchesOf_cons, ht, if_pos rfl, Multiset.singleton_add, Multiset.cons_add]
        refine .found rfl rfl hl.inv hir ?_ ?_ hat
        · simp only [advanceRight, hadv]
          rfl
        · simp
      | false =>
        have hmatch : tryMatch p R s = some (.next { s with right }) := by
          simp only [tryMatch, hpeek, hget, htest, ht, hadv]
          rfl
        have hat : NestedAt p L R IL IR rs
          (matchesOf p.nestedTest l rs' + joinPairs p.nestedTest (after ++ ls) rs)
            (ls.length * (rs.length + 2) + after.length * (rs.length + 1) + rs'.length + 2)
            { s with right } := .inside hdrop hl hem
        rw [matchesOf_cons, ht, if_neg (by simp), zero_add]
        exact .inr ⟨_, _, by simp, hround.trans hmatch, hat, hend⟩

/-- A round of the nested path. -/
theorem nestedRound_spec (hright : R.peeked.Enumerates IR rs)
    (h : NestedAt p L R IL IR rs M m s) (hend : s.isEnd = true) (hn : m < n) :
    (∃ s', nestedRound n p L R s = some (.done s') ∧
      Found IL IR (advanceRight R) (NestedAt p L R IL IR rs) m M s') ∨
    ∃ m' s', m' < m ∧ nestedRound n p L R s = some (.next s') ∧ NestedAt p L R IL IR rs M m' s' ∧
      s'.isEnd = true := by
  by_cases hblock : s.block = []
  · cases h with
    | inside hdrop => simp [hblock] at hdrop
    | past hne => exact absurd hblock hne
    | @empty _ ls _ hl hr =>
      have hlen : ls.length < n := lt_of_le_of_lt (Nat.le_mul_of_pos_right _ (by omega)) hn
      obtain ⟨s', hload, hend', ⟨hblock', hzero, hil, hir⟩ | ⟨hblock', m', hm', hat⟩⟩ :=
        loadNestedBlock_spec (p := p) hright hlen hblock hl hr
      · refine .inl ⟨s', by simp [nestedRound, hload, hblock'], ?_⟩
        rw [hzero]
        exact .ended (hend'.trans hend) hil hir
      · rcases nestedRound_of_block hright hload (hend'.trans hend) hblock' hat with
          ⟨s'', hround, hfound⟩ | ⟨m'', s'', hlt, hround, hrest⟩
        · exact .inl ⟨s'', hround, hfound.mono hm'⟩
        · exact .inr ⟨m'', s'', by omega, hround, hrest⟩
  · have hload : loadNestedBlock n p L R s = some s := by simp [loadNestedBlock, hblock]
    exact nestedRound_of_block hright hload hend hblock h

theorem NestedAt.reset (h : NestedAt p L R IL IR rs M m s) :
    NestedAt p L R IL IR rs M m { s with isEnd := true, record := none } := by
  cases h with
  | empty hblock hl hr => exact .empty hblock hl hr
  | inside hblock hl hr => exact .inside hblock hl hr
  | past hblock hidx hl hr => exact .past hblock hidx hl hr

/-- `find_next_nested` ends, with the end of the join or with its next pair. -/
theorem findNext_nested (hright : R.peeked.Enumerates IR rs)
    (h : NestedAt p L R IL IR rs M m s) (hn : m < n) :
    ∃ s', findNextOn false n p L R s = some s' ∧ Found IL IR (advanceRight R)
    (NestedAt p L R IL IR rs) m M s' := by
  rw [findNextOn, if_neg Bool.false_ne_true]
  refine iterate_spec (P := fun m' s' => NestedAt p L R IL IR rs M m' s' ∧ s'.isEnd = true ∧ m' ≤ m)
    (fun m' s' hs' => ?_) ⟨h.reset, rfl, le_refl m⟩ hn
  obtain ⟨hat, hend, hle⟩ := hs'
  rcases nestedRound_spec hright hat hend (lt_of_le_of_lt hle hn) with
    ⟨s'', hround, hfound⟩ | ⟨m'', s'', hlt, hround, hat', hend'⟩
  · exact .inl ⟨s'', hround, hfound.mono hle⟩
  · exact .inr ⟨m'', s'', hlt, hround, hat', hend', by omega⟩

/-! ## The hash path -/

/-- The states of `find_next_hash` at the head of a round: without a block, with a block that is
probed with the right tuples `rs'`, or with matches of the right tuple `r`. -/
inductive HashAt (p : JoinParams) (L : Executor σ) (R : Executor τ) (IL : σ → Prop) (IR : τ → Prop)
    (rs : List Bytes) : Multiset Bytes → ℕ → JoinState σ τ → Prop
  | idle {s : JoinState σ τ} {ls : List Bytes} (hready : s.hashBlockReady = false)
      (hnone : s.hashMatchIndices = []) (hl : L.peeked.Emits IL ls s.left) (hr : IR s.right) :
      HashAt p L R IL IR rs (joinPairs p.hashTest ls rs) (ls.length * (2 * rs.length + 2)) s
  | probing {s : JoinState σ τ} {ls rs' : List Bytes} (hready : s.hashBlockReady = true)
      (hnone : s.hashMatchIndices = []) (hhash : s.eqHash = s.block.mapIdx fun idx left =>
        (p.leftKey left, idx))
      (hl : L.peeked.Emits IL ls s.left) (hr : R.peeked.Emits IR rs' s.right) :
      HashAt p L R IL IR rs (joinPairs p.hashTest s.block rs' + joinPairs p.hashTest ls rs)
        (ls.length * (2 * rs.length + 2) + 2 * rs'.length + 1) s
  | matching {s : JoinState σ τ} {ls rs' : List Bytes} {r : Bytes}
      (hready : s.hashBlockReady = true)
      (hsome : s.hashMatchIndices ≠ []) (hhash : s.eqHash = s.block.mapIdx fun idx left =>
        (p.leftKey left, idx))
      (hl : L.peeked.Emits IL ls s.left) (hr : R.peeked.Emits IR (r :: rs') s.right) :
      HashAt p L R IL IR rs
        (((s.hashMatchIndices.drop s.hashMatchPos).map fun i =>
          s.block.getD i [] ++ r : List Bytes) +
          (joinPairs p.hashTest s.block rs' + joinPairs p.hashTest ls rs))
        (ls.length * (2 * rs.length + 2) + 2 * rs'.length + 2) s

/-- The block is probed with the current right tuple. -/
theorem probe_spec (rs : List Bytes) {rs' : List Bytes} (hready : s.hashBlockReady = true)
    (hnone : s.hashMatchIndices = [])
    (hhash : s.eqHash = s.block.mapIdx fun idx left => (p.leftKey left, idx))
    (hl : L.peeked.Emits IL ls s.left) (hr : R.peeked.Emits IR rs' s.right) :
    ∃ m' s', m' < ls.length * (2 * rs.length + 2) + 2 * rs'.length + 1 ∧
    probe p R s = some (.next s') ∧
      HashAt p L R IL IR rs (joinPairs p.hashTest s.block rs' + joinPairs p.hashTest ls rs) m' s' ∧
      s'.isEnd = s.isEnd := by
  cases rs' with
  | nil =>
    have hend : R.isEnd s.right = true := hr.2
    have hat : HashAt p L R IL IR rs (joinPairs p.hashTest ls rs)
      (ls.length * (2 * rs.length + 2)) s.resetHashBlock :=
      .idle rfl rfl hl hr.inv
    rw [pairs_nil_right, zero_add]
    exact ⟨_, s.resetHashBlock, by simp, by simp [probe, hend], hat, rfl⟩
  | cons r rs' =>
    obtain ⟨hir, hend, hpeek, right, hadv, hem⟩ := id hr
    have hend : R.isEnd s.right = false := hend
    have hpeek : R.peekTuple s.right = some r := hpeek
    have hadv : R.nextTuple s.right = some right := hadv
    have hpairs := findEqHash_pairs (p := p) s r
    have hfind : (buildEqHash p s).findEqHash (p.rightKey r) = s.findEqHash (p.rightKey r) := by
      simp only [findEqHash, buildEqHash, hhash]
    rw [hfind] at hpairs
    have hM : joinPairs p.hashTest s.block (r :: rs') + joinPairs p.hashTest ls rs =
        ((s.findEqHash (p.rightKey r)).map fun i => s.block.getD i [] ++ r : List Bytes) +
          (joinPairs p.hashTest s.block rs' + joinPairs p.hashTest ls rs) := by
      rw [pairs_cons_right, ← hpairs, add_assoc]
    rw [hM]
    by_cases hmatch : s.findEqHash (p.rightKey r) = []
    · have hat : HashAt p L R IL IR rs
        (joinPairs p.hashTest s.block rs' + joinPairs p.hashTest ls rs)
          (ls.length * (2 * rs.length + 2) + 2 * rs'.length + 1) { s with right } :=
        .probing (s := { s with right }) hready hnone hhash hl hem
      rw [hmatch, List.map_nil, Multiset.coe_nil, zero_add]
      exact ⟨_, { s with right }, by simp, by simp [probe, hend, hpeek, hmatch, hadv], hat, rfl⟩
    · have hat : HashAt p L R IL IR rs
          (((s.findEqHash (p.rightKey r)).map fun i => s.block.getD i [] ++ r : List Bytes) +
            (joinPairs p.hashTest s.block rs' + joinPairs p.hashTest ls rs))
          (ls.length * (2 * rs.length + 2) + 2 * rs'.length + 2)
          { s with hashMatchIndices := s.findEqHash (p.rightKey r), hashMatchPos := 0 } :=
        .matching
          (s := { s with hashMatchIndices := s.findEqHash (p.rightKey r), hashMatchPos := 0 })
          hready hmatch hhash hl hr
      exact ⟨_, _, by simp; omega, by simp [probe, hend, hpeek, hmatch], hat, rfl⟩

theorem hashRound_of_load {s₁ s₂ : JoinState σ τ} (hemit : emitHashMatch R s = none)
    (hdrop : dropMatches R s = some s₁) (hload : loadHashBlock n p L R s₁ = some s₂)
    (hready : s₂.hashBlockReady = true) : hashRound n p L R s = probe p R s₂ := by
  simp only [hashRound, hemit, hdrop, Option.bind_eq_bind, Option.bind_some, hload, hready, if_true]

/-- A round of the hash path. -/
theorem hashRound_spec (hright : R.peeked.Enumerates IR rs)
    (h : HashAt p L R IL IR rs M m s) (hend : s.isEnd = true) (hn : m < n) :
    (∃ s', hashRound n p L R s = some (.done s') ∧
      Found IL IR some (HashAt p L R IL IR rs) m M s') ∨
    ∃ m' s', m' < m ∧ hashRound n p L R s = some (.next s') ∧ HashAt p L R IL IR rs M m' s' ∧
      s'.isEnd = true := by
  cases h with
  | @idle _ ls hready hnone hl hr =>
    have hemit : emitHashMatch R s = none := by simp [emitHashMatch, hnone]
    have hdrop : dropMatches R s = some s := by simp [dropMatches, hnone]
    have hlen : ls.length < n := lt_of_le_of_lt (Nat.le_mul_of_pos_right _ (by omega)) hn
    obtain ⟨left, block, rest, hload, rfl, hnil, hem⟩ := loadLeftBlock_spec (p := p) hl hlen
    cases block with
    | nil =>
      obtain rfl := hnil rfl
      refine .inl ⟨{ s with left, block := [] }, ?_, .ended hend hem.inv hr⟩
      simp [hashRound, hemit, hdrop, loadHashBlock, hready, hload]
    | cons l block =>
      obtain ⟨right, hbegin, hemr⟩ := hright s.right hr
      have hbegin : R.beginTuple s.right = some right := hbegin
      let s₁ : JoinState σ τ :=
        { buildEqHash p { s with left, block := l :: block } with right, hashBlockReady := true }
      have hload₁ : loadHashBlock n p L R s = some s₁ := by
        simp only [loadHashBlock, hready, hload]
        simp [hbegin, buildEqHash, s₁]
      obtain ⟨m', s', hlt, hprobe, hat, hend'⟩ :=
        probe_spec (s := s₁) rs rfl hnone rfl hem hemr
      refine .inr ⟨m', s', ?_, ?_, ?_, hend'.trans hend⟩
      · simp only [List.length_append, List.length_cons]
        ring_nf at hlt ⊢
        omega
      · exact (hashRound_of_load hemit hdrop hload₁ rfl).trans hprobe
      · rwa [pairs_append]
  | @probing _ ls rs' hready hnone hhash hl hr =>
    have hemit : emitHashMatch R s = none := by simp [emitHashMatch, hnone]
    have hdrop : dropMatches R s = some s := by simp [dropMatches, hnone]
    have hload : loadHashBlock n p L R s = some s := by simp [loadHashBlock, hready]
    obtain ⟨m', s', hlt, hprobe, hat, hend'⟩ := probe_spec rs hready hnone hhash hl hr
    exact .inr ⟨m', s', hlt, (hashRound_of_load hemit hdrop hload hready).trans hprobe, hat,
      hend'.trans hend⟩
  | @matching _ ls rs' r hready hsome hhash hl hr =>
    obtain ⟨hir, hrend, hpeek, right, hadv, hem⟩ := id hr
    have hrend : R.isEnd s.right = false := hrend
    have hpeek : R.peekTuple s.right = some r := hpeek
    have hadv : R.nextTuple s.right = some right := hadv
    cases hidx : s.hashMatchIndices[s.hashMatchPos]? with
    | some i =>
      have hemit : emitHashMatch R s = some { s with
          hashMatchPos := s.hashMatchPos + 1
          record := some (s.block.getD i [] ++ r)
          isEnd := false } := by
        simp only [emitHashMatch, hidx, hpeek]
        rfl
      have hdrop : s.hashMatchIndices.drop s.hashMatchPos =
          i :: s.hashMatchIndices.drop (s.hashMatchPos + 1) := by
        obtain ⟨hlt, hget⟩ := List.getElem?_eq_some_iff.mp hidx
        rw [← hget]
        exact List.drop_eq_getElem_cons hlt
      have hround : hashRound n p L R s = some (.done { s with
          hashMatchPos := s.hashMatchPos + 1
          record := some (s.block.getD i [] ++ r)
          isEnd := false }) := by
        simp only [hashRound, hemit]
      refine .inl ⟨_, hround, ?_⟩
      rw [hdrop, List.map_cons, ← Multiset.cons_coe, Multiset.cons_add]
      exact .found rfl rfl hl.inv hir rfl le_rfl
        (.matching (s := { s with
          hashMatchPos := s.hashMatchPos + 1
          record := some (s.block.getD i [] ++ r)
          isEnd := false }) hready hsome hhash hl hr)
    | none =>
      have hemit : emitHashMatch R s = none := by simp [emitHashMatch, hidx]
      have hnil : s.hashMatchIndices.drop s.hashMatchPos = [] :=
        List.drop_eq_nil_iff.mpr (List.getElem?_eq_none_iff.mp hidx)
      let s₁ : JoinState σ τ := { s with hashMatchIndices := [], hashMatchPos := 0, right }
      have hdrop : dropMatches R s = some s₁ := by
        rw [dropMatches, if_neg hsome, if_pos ⟨hready, hrend⟩, hadv]
        rfl
      have hload : loadHashBlock n p L R s₁ = some s₁ := by simp [loadHashBlock, s₁, hready]
      obtain ⟨m', s', hlt, hprobe, hat, hend'⟩ :=
        probe_spec (s := s₁) rs hready rfl hhash hl hem
      refine .inr ⟨m', s', by omega, ?_, ?_, hend'.trans hend⟩
      · exact (hashRound_of_load hemit hdrop hload hready).trans hprobe
      · rw [hnil, List.map_nil]
        simpa using hat

theorem HashAt.reset (h : HashAt p L R IL IR rs M m s) :
    HashAt p L R IL IR rs M m { s with isEnd := true, record := none } := by
  cases h with
  | idle hready hnone hl hr =>
    exact .idle (s := { s with isEnd := true, record := none }) hready hnone hl hr
  | probing hready hnone hhash hl hr =>
    exact .probing (s := { s with isEnd := true, record := none }) hready hnone hhash hl hr
  | matching hready hsome hhash hl hr =>
    exact .matching (s := { s with isEnd := true, record := none }) hready hsome hhash hl hr

/-- `find_next_hash` ends, with the end of the join or with its next pair. -/
theorem findNext_hash (hright : R.peeked.Enumerates IR rs)
    (h : HashAt p L R IL IR rs M m s) (hn : m < n) :
    ∃ s', findNextOn true n p L R s = some s' ∧
    Found IL IR some (HashAt p L R IL IR rs) m M s' := by
  rw [findNextOn, if_pos rfl]
  refine iterate_spec (P := fun m' s' => HashAt p L R IL IR rs M m' s' ∧ s'.isEnd = true ∧ m' ≤ m)
    (fun m' s' hs' => ?_) ⟨h.reset, rfl, le_refl m⟩ hn
  obtain ⟨hat, hend, hle⟩ := hs'
  rcases hashRound_spec hright hat hend (lt_of_le_of_lt hle hn) with
    ⟨s'', hround, hfound⟩ | ⟨m'', s'', hlt, hround, hat', hend'⟩
  · exact .inl ⟨s'', hround, hfound.mono hle⟩
  · exact .inr ⟨m'', s'', hlt, hround, hat', hend', by omega⟩

/-! ## The tuples of a join -/

/-- A join whose `find_next` leads to `Found` emits the pairs that are to come. -/
theorem emits_of_found {hash : Bool} (advance : JoinState σ τ → Option (JoinState σ τ))
    {At : Multiset Bytes → ℕ → JoinState σ τ → Prop}
    (hnext : ∀ s, s.isEnd = false → (joinExecutorOn hash n p L R).nextTuple s =
      advance s >>= findNextOn hash n p L R)
    (hfind : ∀ M m s, At M m s → m < n → ∃ s', findNextOn hash n p L R s = some s' ∧
      Found IL IR advance At m M s')
    (h : At M m s) (hn : m < n) :
    ∃ s' out, findNextOn hash n p L R s = some s' ∧ Multiset.ofList out = M ∧
      (joinExecutorOn hash n p L R).delivered.Emits (fun s => IL s.left ∧ IR s.right) out s' := by
  induction hcard : M.card generalizing M m s with
  | zero =>
    obtain rfl := Multiset.card_eq_zero.mp hcard
    obtain ⟨s', hs', hfound⟩ := hfind 0 m s h hn
    refine ⟨s', [], hs', rfl, ?_⟩
    generalize hM : (0 : Multiset Bytes) = M at hfound
    cases hfound with
    | ended hend hl hr => exact ⟨⟨hl, hr⟩, hend⟩
    | found => exact absurd hM.symm (Multiset.cons_ne_zero)
  | succ k ih =>
    obtain ⟨s', hs', hfound⟩ := hfind M m s h hn
    cases hfound with
    | ended => simp at hcard
    | @found _ s'' x M m' hend hrec hl hr hadv hle hat =>
      rw [Multiset.card_cons, Nat.add_right_cancel_iff] at hcard
      obtain ⟨s₁, out, hs₁, rfl, hem⟩ := ih hat (lt_of_le_of_lt hle hn) hcard
      refine ⟨s', x :: out, hs', rfl, ⟨hl, hr⟩, hend, ?_, s₁, ?_, hem⟩
      · show (if s'.isEnd then none else s'.record) = some x
        rw [hend, hrec]
        rfl
      · show (joinExecutorOn hash n p L R).nextTuple s' = some s₁
        rw [hnext s' hend, hadv]
        exact hs₁

/-- On both paths, a join whose children show their tuples enumerates the pairs that pass the
test. -/
theorem joinExecutorOn_enumerates (hash : Bool) (hleft : L.peeked.Enumerates IL ls)
    (hright : R.peeked.Enumerates IR rs) (hn : ls.length * (2 * rs.length + 2) < n) :
    (joinExecutorOn hash n p L R).delivered.EnumeratesBag (fun s => IL s.left ∧ IR s.right)
      (joinPairs (p.testOn hash) ls rs) := by
  rintro s ⟨hl, hr⟩
  obtain ⟨left, hbegin, hem⟩ := hleft s.left hl
  have hbegin : L.beginTuple s.left = some left := hbegin
  have hrewind : (joinExecutorOn hash n p L R).delivered.rewind s =
      findNextOn hash n p L R { s.resetHashBlock with left, blockIdx := 0 } := by
    show (joinExecutorOn hash n p L R).beginTuple s = _
    simp only [joinExecutorOn, hbegin]
    rfl
  rw [hrewind]
  cases hash with
  | true =>
    have hat : HashAt p L R IL IR rs (joinPairs p.hashTest ls rs) (ls.length * (2 * rs.length + 2))
        { s.resetHashBlock with left, blockIdx := 0 } :=
      .idle (s := { s.resetHashBlock with left, blockIdx := 0 }) rfl rfl hem hr
    refine emits_of_found some (fun s' hend => ?_) (fun M m s' => findNext_hash hright) hat hn
    simp [joinExecutorOn, hend]
  | false =>
    have hat : NestedAt p L R IL IR rs (joinPairs p.nestedTest ls rs) (ls.length * (rs.length + 2))
        { s.resetHashBlock with left, blockIdx := 0 } :=
      .empty (s := { s.resetHashBlock with left, blockIdx := 0 }) rfl hem hr
    have hn' : ls.length * (rs.length + 2) < n :=
      lt_of_le_of_lt (Nat.mul_le_mul_left _ (by omega)) hn
    refine emits_of_found (advanceRight R) (fun s' hend => ?_)
      (fun M m s' => findNext_nested hright) hat hn'
    simp only [joinExecutorOn, hend, advanceRight]
    cases R.nextTuple s'.right with
    | none => rfl
    | some right => rfl

/-- A join whose children show their tuples enumerates the pairs that pass its test. -/
theorem joinExecutor_enumerates (hleft : L.peeked.Enumerates IL ls)
    (hright : R.peeked.Enumerates IR rs) (hn : ls.length * (2 * rs.length + 2) < n) :
    (joinExecutor n p L R).delivered.EnumeratesBag (fun s => IL s.left ∧ IR s.right)
      (joinPairs p.test ls rs) := by
  rw [← joinExecutorOn_hashProbeEnabled, ← p.testOn_hashProbeEnabled]
  exact joinExecutorOn_enumerates _ hleft hright hn

end

end Rmdb
