import Rmdb.Index.MapKeys
import Rmdb.Index.TreeRefines

/-!
# Building an index

The loops of `SmManager::create_index` and `rebuild_indexes_from_table` over the entries of a table,
without deletions in between.  Then no leaf is ever split whose separator is stale: a leaf with a
stale separator is the left half of an earlier split, and the next key that it takes makes the
separator exact again.
-/

namespace Rmdb

open Levels

variable {K : Type}

namespace IxIndexHandle

/-! ## The loops -/

section Loops

variable [Ord K] [DecidableEq K]

/-- The loop of `create_index`: `some none` when a key is already there, which the caller answers
with `IndexExistsError`. -/
def backFillLoop (f : IxIndexHandle K) : List (K × Rid) → Option (Option (IxIndexHandle K))
  | [] => some (some f)
  | (key, rid) :: l => do
    match ← f.getValue key with
    | some _ => return none
    | none =>
      let (f, _) ← f.insertEntry key rid
      backFillLoop f l

/-- The loop of `rebuild_indexes_from_table`. -/
def rebuildLoop (f : IxIndexHandle K) (l : List (K × Rid)) : Option (IxIndexHandle K) :=
  l.foldlM (fun f e => (f.insertEntry e.1 e.2).map Prod.fst) f

section MapKeys

variable {K' : Type} [Ord K'] [DecidableEq K'] {g : K → K'} (hg : KeyEmbedding g)
  (f : IxIndexHandle K) (l : List (K × Rid))

include hg

theorem backFillLoop_mapKeys :
    (f.mapKeys g).backFillLoop (mapPairs g l) = (f.backFillLoop l).map
    (Option.map (mapKeys g)) := by
  induction l generalizing f with
  | nil => rfl
  | cons e l ih =>
    obtain ⟨key, rid⟩ := e
    have hcons : mapPairs g ((key, rid) :: l) = (g key, rid) :: mapPairs g l := rfl
    rw [hcons, backFillLoop, backFillLoop, getValue_mapKeys hg, insertEntry_mapKeys hg]
    simp only [Option.bind_eq_bind, Option.map_bind, Option.bind_map, Function.comp_def]
    refine Option.bind_congr fun r _ => ?_
    cases r with
    | some rid' => rfl
    | none =>
      simp only [Option.map_bind, Function.comp_def, ih]

theorem rebuildLoop_mapKeys :
    (f.mapKeys g).rebuildLoop (mapPairs g l) = (f.rebuildLoop l).map (mapKeys g) := by
  induction l generalizing f with
  | nil => rfl
  | cons e l ih =>
    have hcons : mapPairs g (e :: l) = (g e.1, e.2) :: mapPairs g l := rfl
    rw [hcons, rebuildLoop, rebuildLoop, List.foldlM_cons, List.foldlM_cons]
    dsimp only
    rw [insertEntry_mapKeys hg]
    cases f.insertEntry e.1 e.2 with
    | none => rfl
    | some r => exact ih r.1

end MapKeys

end Loops

variable [LinearOrder K]

section Build

variable {f f' : IxIndexHandle K} {L L' : Layout} {key : K} {value : Rid} {leaf r : ℤ}
  {n : IxNode K}

/-- A tree that was only ever inserted into: a leaf whose separator is stale has room for two more
pairs. -/
structure Grown (f : IxIndexHandle K) (L : Layout) : Prop where
  laid : f.Laid L
  chain : f.LeafChain (L.level 0)
  room : 0 < L.height f.rootPage → ∀ e ∈ flat f.pairs (L.level 1),
    Exact pageOf f.pairs e ∨ (f.pairs (pageOf e.2)).length + 1 < f.maxSize

theorem Laid.order (h : f.Laid L) : 4 ≤ f.maxSize := by
  obtain ⟨T, hb⟩ := h.balanced
  exact hb.order

/-- The separator of a full leaf is its first key, which is far below the middle of the leaf. -/
theorem Grown.splitsInOrder (h : f.Grown L) : f.SplitsInOrder L key value := by
  intro leaf n hput hsize hpos e he hpage k hk
  subst hpage
  have hfull := hput.size
  have horder := h.laid.order
  have hold : (f.pages (pageOf e.2)).size + 1 = f.maxSize := hput.size.symm.trans hsize
  have hexact : Exact pageOf f.pairs e := (h.room hpos e he).resolve_right hold.not_lt
  obtain ⟨d, hhead, hd⟩ := Option.map_eq_some_iff.1 hexact
  obtain ⟨l, hl⟩ := List.head?_eq_some_iff.1 hhead
  have hl : (f.pages (pageOf e.2)).pairs = d :: l := hl
  have hsorted : Sorted (f.pages (pageOf e.2)).pairs := h.laid.inv.ordered.sorted _ hput.mem
  have habove : (l.map Prod.fst).countP (fun k => (compare k e.1).isLE) = 0 := by
    refine List.countP_eq_zero.2 fun k hk => ?_
    obtain ⟨d', hd', rfl⟩ := List.mem_map.1 hk
    rw [hl] at hsorted
    rw [isLE_compare_iff, not_le, ← hd]
    exact (List.pairwise_cons.1 hsorted).1 d' hd'
  refine hput.lt_middle ?_ hk
  have htwo (x y : K) : [x, y].countP (fun k => (compare k e.1).isLE) ≤ 2 := List.countP_le_length
  calc _ = [key, d.1].countP (fun k => (compare k e.1).isLE) +
        (l.map Prod.fst).countP (fun k => (compare k e.1).isLE) := by
        rw [hl, ← List.countP_append]
        rfl
    _ ≤ n.size / 2 := by
      have := htwo key d.1
      omega

/-- `insert_entry` keeps what holds of a tree that was only ever inserted into. -/
theorem Grown.insertion (h : f.Grown L) (hl : f'.Laid L') (horder : f'.btreeOrder = f.btreeOrder)
    (hins : f.Insertion L key value f' r L') : f'.Grown L' := by
  have hmax : f'.maxSize = f.maxSize := by rw [maxSize, maxSize, horder]
  have hchain' := hins.chain h.laid h.chain
  cases hins with
  | bound => exact h
  | @fits leaf n f' hput hfits hroot hpairs hseps hchain =>
    refine ⟨hl, hchain', fun hheight e he => ?_⟩
    rw [hroot] at hheight
    rcases hseps hheight e he with hexact | ⟨hne, hold⟩
    · exact .inl hexact
    · have hmem : pageOf e.2 ∈ L.level 0 := by
        rw [← h.laid.inv.shaped.below 0 hheight]
        exact child_mem hold
      have hsame : f'.pairs (pageOf e.2) = f.pairs (pageOf e.2) := by
        rw [hpairs _ hmem, pairs_setNode, Function.update_of_ne hne]
      rw [Exact, hsame, hmax]
      exact h.room hheight e hold
  | @splits leaf r n f₁ f' L' hput hsize hsplit hinto hr =>
    obtain ⟨hpos, hlt⟩ := h.laid.leaf_bound hput.mem
    have hsplits := (split_spec (show leaf ≠ (f.setNode leaf n).nextPageNo from hlt.ne) hsplit).2
    refine ⟨hl, hchain', fun _ e he => ?_⟩
    rcases hinto.separators e he with ⟨hheight, hold⟩ | hexact
    · rw [hput.flat_level_one hheight] at hold
      have hlevel : pageOf e.2 ∈ L.level 0 := by
        rw [← h.laid.inv.shaped.below 0 hheight]
        exact child_mem hold
      obtain ⟨A, B, hlev⟩ := List.append_of_mem hput.mem
      have hsame := hinto.pairs 0 le_rfl (pageOf e.2)
        ((mem_split_level hlev (hinto.level A B hlev)).2 (.inl hlevel))
      by_cases hne : pageOf e.2 = leaf
      · -- the left half
        right
        have hleft := hsplits.pairs_left
        rw [pairs_setNode, Function.update_self] at hleft
        have hfour := h.laid.order
        have hsize : n.pairs.length = f.maxSize := hsize
        rw [hsame, hne, hleft, List.length_take, hmax]
        omega
      · have hother : f'.pairs (pageOf e.2) = f.pairs (pageOf e.2) := by
          rw [hsame, hsplits.pairs_other hne (h.laid.leaf_bound hlevel).2.ne, pairs_setNode,
            Function.update_of_ne hne]
        rw [Exact, hother, hmax]
        exact h.room hheight e hold
    · exact .inl hexact

/-! ## The loops -/

/-- A tree that was only ever inserted into, with the entries `l`. -/
def Holds (f : IxIndexHandle K) (l : List (K × Rid)) : Prop := ∃ L, f.Grown L ∧ (f.entries L).Perm l

variable {l es : List (K × Rid)} {rid : Rid} {btreeOrder : ℕ}

theorem holds_createIndex (h : 4 ≤ btreeOrder + 1) : (createIndex K btreeOrder).Holds [] := by
  refine ⟨_, ⟨laid_createIndex h, ⟨?_, rfl, rfl⟩, fun hpos => absurd hpos (Nat.lt_irrefl 0)⟩, ?_⟩
  · exact .cons_cons ⟨rfl, rfl⟩ (.cons_cons ⟨rfl, rfl⟩ (.singleton _))
  · rw [entries_createIndex]

theorem Holds.perm (h : f.Holds l) (hl : l.Perm es) : f.Holds es := by
  obtain ⟨L, hg, hperm⟩ := h
  exact ⟨L, hg, hperm.trans hl⟩

theorem Holds.getValue_iff (h : f.Holds l) : f.getValue key = some (some rid) ↔ (key, rid) ∈ l := by
  obtain ⟨L, hg, hperm⟩ := h
  rw [← hperm.mem_iff]
  exact hg.laid.getValue_iff

theorem Holds.exists_getValue (h : f.Holds l) (key : K) : ∃ r, f.getValue key = some r := by
  obtain ⟨L, hg, -⟩ := h
  exact hg.laid.exists_getValue key

/-- A new key is inserted. -/
theorem Holds.insertEntry (h : f.Holds l) (hkey : key ∉ l.map Prod.fst) (value : Rid) :
    ∃ f' r, f.insertEntry key value = some (f', r) ∧ f'.Holds ((key, value) :: l) := by
  obtain ⟨L, hg, hperm⟩ := h
  obtain ⟨f', r, L', hf', horder, hl', hins⟩ := hg.laid.insertEntry key value hg.splitsInOrder
  have hunbound (rid : Rid) : (key, rid) ∉ f.entries L := fun hmem =>
    hkey (List.mem_map.2 ⟨_, hperm.mem_iff.1 hmem, rfl⟩)
  exact ⟨f', r, hf', L', hg.insertion hl' horder hins,
    (hins.perm hg.laid hunbound).trans (hperm.cons _)⟩

/-- With keys of their own, all entries are inserted. -/
theorem Holds.loops (h : f.Holds l) (hkeys : ((es ++ l).map Prod.fst).Nodup) :
    ∃ f', f.backFillLoop es = some (some f') ∧ f.rebuildLoop es = some f' ∧ f'.Holds (es ++ l) := by
  induction es generalizing f l with
  | nil => exact ⟨f, rfl, rfl, h⟩
  | cons e es ih =>
    obtain ⟨key, rid⟩ := e
    have hmiddle : ((key, rid) :: es ++ l).Perm (es ++ (key, rid) :: l) := List.perm_middle.symm
    rw [(hmiddle.map Prod.fst).nodup_iff] at hkeys
    have hkey : key ∉ l.map Prod.fst := by
      rw [List.map_append, List.map_cons, List.nodup_append, List.nodup_cons] at hkeys
      exact hkeys.2.1.1
    obtain ⟨f₁, r, hf₁, h₁⟩ := h.insertEntry hkey rid
    obtain ⟨f', hfill, hrebuild, h'⟩ := ih h₁ hkeys
    have hnone : f.getValue key = some none := by
      obtain ⟨_ | rid', hget⟩ := h.exists_getValue key
      · exact hget
      · exact absurd (List.mem_map.2 ⟨_, h.getValue_iff.1 hget, rfl⟩) hkey
    refine ⟨f', ?_, ?_, h'.perm hmiddle.symm⟩
    · rw [backFillLoop, hnone, Option.bind_eq_bind, Option.bind_some]
      simp only [hf₁]
      exact hfill
    · rw [rebuildLoop, List.foldlM_cons, hf₁]
      exact hrebuild

/-- Of two entries with one key, the second one is found out. -/
theorem Holds.backFillLoop_shared (h : f.Holds l) (hl : (l.map Prod.fst).Nodup)
    (hkeys : ¬ ((es ++ l).map Prod.fst).Nodup) : f.backFillLoop es = some none := by
  induction es generalizing f l with
  | nil => exact absurd hl hkeys
  | cons e es ih =>
    obtain ⟨key, rid⟩ := e
    obtain ⟨_ | rid', hget⟩ := h.exists_getValue key
    · have hkey : key ∉ l.map Prod.fst := by
        intro hmem
        obtain ⟨⟨k, rid'⟩, hbound, rfl⟩ := List.mem_map.1 hmem
        rw [h.getValue_iff.2 hbound] at hget
        cases hget
      obtain ⟨f₁, r, hf₁, h₁⟩ := h.insertEntry hkey rid
      have hmiddle : ((key, rid) :: es ++ l).Perm (es ++ (key, rid) :: l) := List.perm_middle.symm
      rw [(hmiddle.map Prod.fst).nodup_iff] at hkeys
      rw [backFillLoop, hget, Option.bind_eq_bind, Option.bind_some]
      simp only [hf₁]
      exact ih h₁ (List.nodup_cons.2 ⟨hkey, hl⟩) hkeys
    · rw [backFillLoop, hget]
      rfl

/-- The leaves from the first to the last one hold the entries in the order of their keys. -/
theorem Holds.leaves (h : f.Holds l) : ∃ leaves, f.LeafChain leaves ∧ Sorted (flat f.pairs leaves) ∧
    (flat f.pairs leaves).Perm l := by
  obtain ⟨L, hg, hperm⟩ := h
  exact ⟨L.level 0, hg.chain, hg.laid.entries_sorted, hperm⟩

end Build

end IxIndexHandle

end Rmdb
