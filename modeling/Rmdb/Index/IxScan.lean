import Mathlib.Data.Int.Interval
import Mathlib.Logic.Relation
import Mathlib.Order.Compare
import Rmdb.Index.Views
import Rmdb.Lib.Blocks
import Rmdb.Lib.Cursor

/-!
# Scans of an index

`lower_bound`, `upper_bound`, `leaf_begin`, `leaf_end` and `get_rid` of `IxIndexHandle`, and
`IxScan` (`index/ix_scan.{h,cpp}`).  A scan goes along the chain of leaves from one position to
another and compares the two for equality only.
-/

namespace Rmdb

/-- `Iid`: a leaf and a number of a pair in it. -/
structure Iid where
  pageNo : ℤ
  slotNo : ℕ
deriving DecidableEq, Repr

variable {K : Type}

namespace IxIndexHandle

section Scan

variable [Ord K] (f : IxIndexHandle K)

/-- The loop of `lower_bound` and `upper_bound`: on to the next leaf from the end of one that is not
the last. -/
def boundLoop (bound : IxNode K → ℕ) : ℕ → ℤ → Option Iid
  | 0, _ => none
  | fuel + 1, leaf =>
    let n := f.pages leaf
    if bound n = n.size ∧ leaf ≠ f.lastLeaf then boundLoop bound fuel n.nextLeaf
    else some ⟨leaf, bound n⟩

def leafEnd : Iid := ⟨f.lastLeaf, (f.pages f.lastLeaf).size⟩

def leafBegin : Iid := ⟨f.firstLeaf, 0⟩

/-- `find_leaf_page`, then the loop. -/
def seek (bound : IxNode K → ℕ) (key : K) : Option Iid := do
  match ← f.findLeafPage key with
  | none => return f.leafEnd
  | some leaf => f.boundLoop bound f.fuel leaf

def lowerBound (key : K) : Option Iid := f.seek (·.lowerBound key) key

def upperBound (key : K) : Option Iid := f.seek (·.upperBound key) key

/-- `get_rid`; `none` is `IndexEntryNotFoundError`. -/
def getRid (iid : Iid) : Option Rid :=
  if (f.pages iid.pageNo).size ≤ iid.slotNo then none else
    (f.pages iid.pageNo).pairs[iid.slotNo]?.map Prod.snd

/-- `IxScan::next`; `none` is a failed assertion. -/
def scanNext (upper iid : Iid) : Option Iid :=
  let n := f.pages iid.pageNo
  if iid = upper ∨ n.isLeaf = false ∨ n.size ≤ iid.slotNo then none
  else if iid.pageNo ≠ f.lastLeaf ∧ iid.slotNo + 1 = n.size then some ⟨n.nextLeaf, 0⟩
  else some ⟨iid.pageNo, iid.slotNo + 1⟩

/-- `IxScan` from `lower` to `upper`. -/
def ixScan (lower upper : Iid) : Cursor Iid Rid where
  rewind _ := some lower
  advance := f.scanNext upper
  atEnd iid := decide (iid = upper)
  get := f.getRid

end Scan

/-! ## Ordered trees -/

/-- `c` is a child of the inner page `p`. -/
def IsKid (f : IxIndexHandle K) (p c : ℤ) : Prop := f.leafOf p = false ∧ c ∈ f.kids p

/-- `q` is in the subtree of `p`. -/
def Below (f : IxIndexHandle K) : ℤ → ℤ → Prop := Relation.ReflTransGen f.IsKid

/-- The pages form a tree whose leaves are linked from the first to the last in the order of their
keys, and the keys below a child are within its separators: at least its own, which is not asked of
the first child, and less than the next one.  A leaf is not empty unless it is the root. -/
structure OrderedIndex [LinearOrder K] (f : IxIndexHandle K) (chain : List ℤ) : Prop where
  pages : ∀ p, f.Below f.rootPage p → 0 ≤ p ∧ p < f.nextPageNo
  tree : ∃ rank : ℤ → ℕ, ∀ p c, f.Below f.rootPage p → f.IsKid p c → rank c < rank p
  inner : ∀ p, f.Below f.rootPage p → f.leafOf p = false → f.pairs p ≠ []
  separators : ∀ p, f.Below f.rootPage p → f.leafOf p = false →
    (f.pairs p).Pairwise fun e e' => e.1 < e'.1
  within : ∀ p, f.Below f.rootPage p → f.leafOf p = false → ∀ u e v, f.pairs p = u ++ e :: v →
    ∀ q, f.Below e.2.pageNo q → f.leafOf q = true → ∀ d ∈ f.pairs q,
      (u ≠ [] → e.1 ≤ d.1) ∧ ∀ e' ∈ v.head?, d.1 < e'.1
  leaves : ∀ p, p ∈ chain ↔ f.Below f.rootPage p ∧ f.leafOf p = true
  nodup : chain.Nodup
  first : chain.head? = some f.firstLeaf
  last : chain.getLast? = some f.lastLeaf
  next : chain.IsChain fun p q => (f.pages p).nextLeaf = q
  increasing : (chain.flatMap f.pairs).Pairwise fun e e' => e.1 < e'.1
  nonempty : ∀ p ∈ chain, p ≠ f.rootPage → f.pairs p ≠ []

section Below

variable {f : IxIndexHandle K} {p q c : ℤ}

/-- A leaf has no page below it. -/
theorem eq_of_below (hleaf : f.leafOf p = true) (h : f.Below p q) : q = p := by
  rcases h.cases_head with rfl | ⟨c, hkid, -⟩
  · rfl
  · rw [hkid.1] at hleaf
    cases hleaf

/-- The pages below an inner page are below one of its children. -/
theorem exists_kid (hleaf : f.leafOf p = false) (hq : f.leafOf q = true) (h : f.Below p q) :
    ∃ e ∈ f.pairs p, f.Below e.2.pageNo q := by
  rcases h.cases_head with rfl | ⟨c, hkid, hbelow⟩
  · rw [hq] at hleaf
    cases hleaf
  · obtain ⟨e, he, rfl⟩ := List.mem_map.mp hkid.2
    exact ⟨e, he, hbelow⟩

theorem below_kid (hp : f.Below f.rootPage p) (hkid : f.IsKid p c) : f.Below f.rootPage c :=
  hp.tail hkid

end Below

end IxIndexHandle

/-! ## Search -/

section Search

variable [LinearOrder K] {n : IxNode K} {key : K} {l : List (K × Rid)}

theorem isLE_compare_iff {a b : K} : (compare a b).isLE = true ↔ a ≤ b := by
  rw [Ordering.isLE_iff_ne_gt, ← ne_eq, compare_le_iff_le]

theorem downward_lt (h : l.Pairwise fun e e' => e.1 < e'.1) :
    Blocks.Downward (fun e => (compare e.1 key).isLT) l := by
  refine h.imp fun {e e'} hlt hq => ?_
  rw [Ordering.isLT_iff_eq_lt, compare_lt_iff_lt] at hq ⊢
  exact hlt.trans hq

theorem downward_le (h : l.Pairwise fun e e' => e.1 < e'.1) :
    Blocks.Downward (fun e => (compare e.1 key).isLE) l := by
  refine h.imp fun {e e'} hlt hq => ?_
  rw [isLE_compare_iff] at hq ⊢
  exact hlt.le.trans hq

/-- The child to which the search goes: its separator is not above the key, or it is the first. -/
theorem IxNode.internalLookup_spec (hsorted : n.pairs.Pairwise fun e e' => e.1 < e'.1)
    (hne : n.pairs ≠ []) (key : K) :
    ∃ u e v, n.pairs = u ++ e :: v ∧ n.internalLookup key = some e.2.pageNo ∧ (u ≠ [] → e.1 ≤ key) ∧
      ∀ e' ∈ v, key < e'.1 := by
  have hupper : n.upperBound key = (n.pairs.takeWhile fun e => (compare e.1 key).isLE).length :=
    Blocks.bisect_eq (downward_le hsorted)
  have hafter (e : K × Rid) (he : e ∈ n.pairs.dropWhile fun e => (compare e.1 key).isLE) :
      key < e.1 := by
    have hle := (downward_le hsorted).of_dropWhile e he
    rwa [Bool.eq_false_iff, ne_eq, isLE_compare_iff, not_le] at hle
  rcases List.eq_nil_or_concat (n.pairs.takeWhile fun e => (compare e.1 key).isLE) with
    hnil | ⟨u, e, hu⟩
  · obtain ⟨e, v, hpairs⟩ := List.exists_cons_of_ne_nil hne
    refine ⟨[], e, v, hpairs, ?_, fun h => absurd rfl h, fun e' he' => hafter e' ?_⟩
    · rw [internalLookup, hupper, hnil, valueAt, hpairs]
      rfl
    · have hdrop := List.takeWhile_append_dropWhile (p := fun e : K × Rid => (compare e.1 key).isLE)
        (l := n.pairs)
      rw [hnil, List.nil_append] at hdrop
      rw [hdrop, hpairs]
      exact List.mem_cons_of_mem _ he'
  · have hpairs := List.takeWhile_append_dropWhile (p := fun e : K × Rid => (compare e.1 key).isLE)
      (l := n.pairs)
    rw [List.concat_eq_append] at hu
    rw [hu, List.append_assoc, List.singleton_append] at hpairs
    refine ⟨u, e, _, hpairs.symm, ?_, fun _ => ?_, hafter⟩
    · rw [internalLookup, hupper, hu, List.length_append, List.length_singleton, Nat.add_sub_cancel,
        valueAt, ← hpairs, List.getElem?_append_right (Nat.le_refl _), Nat.sub_self]
      rfl
    · have hmem : e ∈ n.pairs.takeWhile fun e => (compare e.1 key).isLE := by
        rw [hu]
        exact List.mem_append_right _ (List.mem_singleton_self e)
      have hle := List.mem_takeWhile_imp hmem
      exact isLE_compare_iff.mp hle

end Search

namespace IxIndexHandle

namespace OrderedIndex

variable [LinearOrder K] {f : IxIndexHandle K} {chain A B : List ℤ} {p q c leaf : ℤ} {key : K}

/-- A rank below the number of pages. -/
theorem exists_rank (h : f.OrderedIndex chain) :
    ∃ rank : ℤ → ℕ, rank f.rootPage < f.fuel ∧ ∀ p c, f.Below f.rootPage p → f.IsKid p c →
    rank c < rank p := by
  obtain ⟨rank, hrank⟩ := h.tree
  refine ⟨fun p => ((Finset.Ico 0 f.nextPageNo).filter fun q => rank q < rank p).card, ?_,
    fun p c hp hkid => ?_⟩
  · have hroot := h.pages f.rootPage .refl
    have hlt : ((Finset.Ico 0 f.nextPageNo).filter fun q => rank q < rank f.rootPage).card <
        (Finset.Ico 0 f.nextPageNo).card := by
      refine Finset.card_lt_card (Finset.filter_ssubset.mpr ⟨f.rootPage, ?_, lt_irrefl _⟩)
      exact Finset.mem_Ico.mpr hroot
    rwa [Int.card_Ico, sub_zero] at hlt
  · have hlt := hrank p c hp hkid
    refine Finset.card_lt_card (Finset.ssubset_iff_of_subset ?_ |>.mpr ⟨c, ?_, ?_⟩)
    · intro q hq
      rw [Finset.mem_filter] at hq ⊢
      exact ⟨hq.1, hq.2.trans hlt⟩
    · exact Finset.mem_filter.mpr ⟨Finset.mem_Ico.mpr (h.pages c (below_kid hp hkid)), hlt⟩
    · exact fun hc => lt_irrefl _ (Finset.mem_filter.mp hc).2

/-- Where the keys of a leaf lie, seen from a page on the way to `key`: the leaf is below the page,
or its keys come before `key`, or they come after all keys below the page. -/
def Aside (f : IxIndexHandle K) (chain : List ℤ) (key : K) (p M : ℤ) : Prop :=
  f.Below p M ∨ (∀ d ∈ f.pairs M, d.1 < key) ∨
    ∀ d ∈ f.pairs M, ∀ N ∈ chain, f.Below p N → ∀ d' ∈ f.pairs N, d'.1 < d.1

theorem le_of_head {l : List (K × Rid)} {e e' : K × Rid} (hl : l.Pairwise fun e e' => e.1 < e'.1)
    (hhead : e' ∈ l.head?) (he : e ∈ l) : e'.1 ≤ e.1 := by
  cases l with
  | nil => cases he
  | cons a l =>
    obtain rfl : a = e' := by simpa using hhead
    rcases List.mem_cons.mp he with rfl | he
    · exact le_rfl
    · exact ((List.pairwise_cons.mp hl).1 e he).le

/-- One step of the search. -/
theorem aside_kid (h : f.OrderedIndex chain) (hp : f.Below f.rootPage p)
    (hleaf : f.leafOf p = false)
    {u v : List (K × Rid)} {e : K × Rid} (hpairs : f.pairs p = u ++ e :: v)
    (hkey : u ≠ [] → e.1 ≤ key) {M : ℤ}
    (hM : M ∈ chain) (haside : Aside f chain key p M) : Aside f chain key e.2.pageNo M := by
  have hsorted := h.separators p hp hleaf
  rw [hpairs] at hsorted
  obtain ⟨-, hev, hue⟩ := List.pairwise_append.mp hsorted
  have hkid : f.IsKid p e.2.pageNo := ⟨hleaf, List.mem_map_of_mem (by rw [hpairs]; simp)⟩
  rcases haside with hbelow | hlt | hgt
  · obtain ⟨e', he', hbelow⟩ := exists_kid hleaf ((h.leaves M).mp hM).2 hbelow
    have hwithin := h.within p hp hleaf
    rw [hpairs] at he'
    rcases List.mem_append.mp he' with hu | he'
    · -- a child to the left: its keys come before the separator of the child taken
      refine .inr (.inl fun d hd => ?_)
      obtain ⟨u₁, u₂, rfl⟩ := List.append_of_mem hu
      have hsplit : f.pairs p = u₁ ++ e' :: (u₂ ++ e :: v) := by simp [hpairs]
      obtain ⟨-, hright⟩ := hwithin u₁ e' (u₂ ++ e :: v) hsplit M hbelow ((h.leaves M).mp hM).2 d hd
      obtain ⟨e₁, he₁⟩ : ∃ e₁, e₁ ∈ (u₂ ++ e :: v).head? := by
        cases u₂ with
        | nil => exact ⟨e, rfl⟩
        | cons a u₂ => exact ⟨a, rfl⟩
      have hrest : (u₂ ++ e :: v).Pairwise fun e e' => e.1 < e'.1 := by
        rw [List.append_assoc, List.cons_append] at hsorted
        exact (List.pairwise_cons.mp (List.pairwise_append.mp hsorted).2.1).2
      calc d.1 < e₁.1 := hright e₁ he₁
        _ ≤ e.1 := le_of_head hrest he₁ (by simp)
        _ ≤ key := hkey (by simp)
    rcases List.mem_cons.mp he' with rfl | hv
    · exact .inl hbelow
    · -- a child to the right: its separator comes after the keys of the child taken
      refine .inr (.inr fun d hd N hN hNbelow d' hd' => ?_)
      obtain ⟨v₁, v₂, rfl⟩ := List.append_of_mem hv
      have hsplit : f.pairs p = (u ++ e :: v₁) ++ e' :: v₂ := by simp [hpairs]
      obtain ⟨hleft, -⟩ := hwithin (u ++ e :: v₁) e' v₂ hsplit M hbelow ((h.leaves M).mp hM).2 d hd
      obtain ⟨-, hright⟩ := hwithin u e (v₁ ++ e' :: v₂) hpairs N hNbelow
        ((h.leaves N).mp hN).2 d' hd'
      obtain ⟨e₁, he₁⟩ : ∃ e₁, e₁ ∈ (v₁ ++ e' :: v₂).head? := by
        cases v₁ with
        | nil => exact ⟨e', rfl⟩
        | cons a v₁ => exact ⟨a, rfl⟩
      calc d'.1 < e₁.1 := hright e₁ he₁
        _ ≤ e'.1 := le_of_head (List.pairwise_cons.mp hev).2 he₁ (by simp)
        _ ≤ d.1 := hleft (by simp)
  · exact .inr (.inl hlt)
  · exact .inr (.inr fun d hd N hN hNbelow => hgt d hd N hN (.head hkid hNbelow))

/-- The search ends at a leaf, with every leaf aside of it. -/
theorem exists_descend (h : f.OrderedIndex chain) (key : K) {rank : ℤ → ℕ}
    (hrank : ∀ p c, f.Below f.rootPage p → f.IsKid p c → rank c < rank p) {n : ℕ} (hn : rank p < n)
    (hp : f.Below f.rootPage p) (haside : ∀ M ∈ chain, Aside f chain key p M) :
    ∃ leaf ∈ chain, f.descend key n p = some leaf ∧ ∀ M ∈ chain, Aside f chain key leaf M := by
  induction n generalizing p with
  | zero => omega
  | succ n ih =>
    rw [descend]
    cases hleaf : f.leafOf p with
    | true => exact ⟨p, (h.leaves p).mpr ⟨hp, hleaf⟩, if_pos hleaf, haside⟩
    | false =>
      obtain ⟨u, e, v, hpairs, hlookup, hkey, -⟩ :=
        IxNode.internalLookup_spec (n := f.pages p) (h.separators p hp hleaf)
          (h.inner p hp hleaf) key
      have hpairs : f.pairs p = u ++ e :: v := hpairs
      have hkid : f.IsKid p e.2.pageNo := ⟨hleaf, List.mem_map_of_mem (by rw [hpairs]; simp)⟩
      have hlt := hrank p _ hp hkid
      obtain ⟨leaf, hmem, hdescend, hleafAside⟩ := ih (by omega) (below_kid hp hkid) fun M hM =>
        h.aside_kid hp hleaf hpairs hkey hM (haside M hM)
      refine ⟨leaf, hmem, ?_, hleafAside⟩
      have hinner : (f.pages p).isLeaf = false := hleaf
      rw [if_neg (by simp [hinner]), hlookup]
      exact hdescend

/-! ## Positions -/

/-- A leaf beside another one is not empty. -/
theorem pairs_ne_nil (h : f.OrderedIndex chain) (hp : p ∈ chain) (hq : q ∈ chain) (hne : p ≠ q) :
    f.pairs p ≠ [] := by
  refine h.nonempty p hp ?_
  rintro rfl
  exact hne (eq_of_below ((h.leaves _).mp hp).2 ((h.leaves q).mp hq).1).symm

/-- The keys of the leaves before the one that the search finds are less than the key. -/
theorem exists_leaf (h : f.OrderedIndex chain) (key : K) :
    ∃ A leaf B, chain = A ++ leaf :: B ∧ f.findLeafPage key = some (some leaf) ∧
      ∀ d ∈ A.flatMap f.pairs, d.1 < key := by
  obtain ⟨rank, hfuel, hrank⟩ := h.exists_rank
  obtain ⟨leaf, hleaf, hdescend, haside⟩ := h.exists_descend key hrank hfuel .refl fun M hM =>
    .inl ((h.leaves M).mp hM).1
  obtain ⟨A, B, hchain⟩ := List.append_of_mem hleaf
  have hnodup := h.nodup
  have hsorted := h.increasing
  rw [hchain] at hnodup hsorted
  have hroot : f.rootPage ≠ IX_NO_PAGE := by
    have hpos := (h.pages f.rootPage .refl).1
    rw [IX_NO_PAGE]
    omega
  refine ⟨A, leaf, B, hchain, by rw [findLeafPage, if_neg hroot, hdescend]; rfl, fun d hd => ?_⟩
  obtain ⟨M, hM, hd⟩ := List.mem_flatMap.mp hd
  have hMchain : M ∈ chain := by
    rw [hchain]
    exact List.mem_append_left _ hM
  have hne : leaf ≠ M := fun heq =>
    (List.nodup_append.mp hnodup).2.2 M hM leaf List.mem_cons_self heq.symm
  rcases haside M hMchain with hbelow | hlt | hgt
  · exact absurd (eq_of_below ((h.leaves leaf).mp hleaf).2 hbelow).symm hne
  · exact hlt d hd
  · obtain ⟨d', hd'⟩ := List.exists_mem_of_ne_nil _ (h.pairs_ne_nil hleaf hMchain hne)
    rw [List.flatMap_append, List.flatMap_cons] at hsorted
    have hlt := (List.pairwise_append.mp hsorted).2.2 d (List.mem_flatMap.mpr ⟨M, hM, hd⟩) d'
      (List.mem_append_left _ hd')
    exact absurd hlt (hgt d hd leaf hleaf .refl d' hd').not_gt

/-- The chain has no more leaves than the file has pages. -/
theorem length_le (h : f.OrderedIndex chain) : chain.length ≤ f.fuel := by
  have hsub : chain.toFinset ⊆ Finset.Ico 0 f.nextPageNo := fun p hp => by
    rw [List.mem_toFinset, h.leaves] at hp
    exact Finset.mem_Ico.mpr (h.pages p hp.1)
  have hcard := Finset.card_le_card hsub
  rwa [List.toFinset_card_of_nodup h.nodup, Int.card_Ico, sub_zero] at hcard

theorem eq_last_iff (h : f.OrderedIndex chain) (hchain : chain = A ++ leaf :: B) :
    leaf = f.lastLeaf ↔ B = [] := by
  have hlast := h.last
  have hnodup := h.nodup
  rw [hchain] at hlast hnodup
  cases B with
  | nil =>
    rw [List.getLast?_append, List.getLast?_singleton] at hlast
    exact iff_of_true (Option.some.inj hlast) rfl
  | cons b B =>
    have hmem : f.lastLeaf ∈ b :: B := by
      rw [List.getLast?_append, List.getLast?_cons_cons] at hlast
      obtain ⟨x, hx⟩ : ∃ x, (b :: B).getLast? = some x := by simp [List.getLast?_eq_some_getLast]
      rw [hx, Option.some_or] at hlast
      cases hlast
      exact List.mem_of_getLast? hx
    refine iff_of_false (fun heq => ?_) (by simp)
    exact (List.nodup_cons.mp (List.nodup_append.mp hnodup).2.1).1 (heq ▸ hmem)

theorem nextLeaf_eq (h : f.OrderedIndex chain) (hchain : chain = A ++ leaf :: p :: B) :
    (f.pages leaf).nextLeaf = p := by
  have hnext := h.next
  rw [hchain] at hnext
  exact (List.isChain_cons_cons.mp (List.isChain_append.mp hnext).2.1).1

/-- The position is that of the `n`-th entry. -/
def AtEntry (f : IxIndexHandle K) (chain : List ℤ) (n : ℕ) (iid : Iid) : Prop :=
  Blocks.At f.pairs chain n (iid.pageNo, iid.slotNo)

/-- The loop finds the first entry without `q`. -/
theorem exists_boundLoop (h : f.OrderedIndex chain) {q : K × Rid → Bool}
    (hq : Blocks.Downward q (chain.flatMap f.pairs)) {bound : IxNode K → ℕ}
    (hbound : ∀ p ∈ chain, bound (f.pages p) = ((f.pairs p).takeWhile q).length)
    (hchain : chain = A ++ leaf :: B) (hA : ∀ a ∈ A.flatMap f.pairs, q a = true) {n : ℕ}
    (hn : B.length < n) : ∃ iid, f.boundLoop bound n leaf = some iid ∧
      AtEntry f chain ((chain.flatMap f.pairs).takeWhile q).length iid := by
  induction B generalizing A leaf n with
  | nil =>
    obtain ⟨n, rfl⟩ : ∃ m, n = m + 1 := ⟨n - 1, by omega⟩
    have hlast := (h.eq_last_iff hchain).mpr rfl
    have hleaf := hbound leaf (by rw [hchain]; simp)
    refine ⟨⟨leaf, bound (f.pages leaf)⟩, by rw [boundLoop, if_neg fun hc => hc.2 hlast], ?_⟩
    rw [AtEntry, hleaf, hchain]
    rw [hchain] at hq
    exact Blocks.at_bound hq hA (.inr rfl)
  | cons b B ih =>
    obtain ⟨n, rfl⟩ : ∃ m, n = m + 1 := ⟨n - 1, by omega⟩
    have hleaf := hbound leaf (by rw [hchain]; simp)
    have hne : leaf ≠ f.lastLeaf := fun heq => by simpa using (h.eq_last_iff hchain).mp heq
    by_cases hfull : bound (f.pages leaf) = (f.pages leaf).size
    · have hfull' : ((f.pairs leaf).takeWhile q).length = (f.pairs leaf).length :=
        hleaf.symm.trans hfull
      obtain ⟨iid, hloop, hat⟩ := ih (by rw [hchain, List.append_assoc, List.singleton_append])
        (Blocks.all_of_full hA hfull') (by simpa using hn)
      refine ⟨iid, ?_, hat⟩
      rw [boundLoop, if_pos ⟨hfull, hne⟩, h.nextLeaf_eq hchain]
      exact hloop
    · refine ⟨⟨leaf, bound (f.pages leaf)⟩, by rw [boundLoop, if_neg fun hc => hfull hc.1], ?_⟩
      have hlt : ((f.pairs leaf).takeWhile q).length < (f.pairs leaf).length := by
        refine lt_of_le_of_ne (List.takeWhile_prefix q).length_le fun heq => hfull (hleaf.trans heq)
      rw [AtEntry, hleaf, hchain]
      rw [hchain] at hq
      exact Blocks.at_bound hq hA (.inl hlt)

/-- `lower_bound` and `upper_bound`. -/
theorem exists_seek (h : f.OrderedIndex chain) {q : K × Rid → Bool}
    (hq : ∀ l : List (K × Rid), (l.Pairwise fun e e' => e.1 < e'.1) → Blocks.Downward q l)
    {bound : IxNode K → ℕ}
    (hbound : ∀ n : IxNode K, bound n = bisect q n.pairs)
    (hkey : ∀ e : K × Rid, e.1 < key → q e = true) :
    ∃ iid, f.seek bound key = some iid ∧ AtEntry f chain
    ((chain.flatMap f.pairs).takeWhile q).length iid := by
  obtain ⟨A, leaf, B, hchain, hfind, hA⟩ := h.exists_leaf key
  have hdown := hq _ h.increasing
  have hbound' : ∀ p ∈ chain, bound (f.pages p) = ((f.pairs p).takeWhile q).length := by
    intro p hp
    obtain ⟨A', B', hp⟩ := List.append_of_mem hp
    rw [hp] at hdown
    exact (hbound _).trans (Blocks.bisect_eq hdown.block)
  have hfuel : B.length < f.fuel := by
    have hlen := h.length_le
    rw [hchain, List.length_append, List.length_cons] at hlen
    omega
  obtain ⟨iid, hloop, hat⟩ := h.exists_boundLoop hdown hbound' hchain
    (fun d hd => hkey d (hA d hd)) hfuel
  exact ⟨iid, by simp only [seek, hfind, Option.bind_eq_bind, Option.bind_some, hloop], hat⟩

theorem exists_lowerBound (h : f.OrderedIndex chain) (key : K) :
    ∃ iid, f.lowerBound key = some iid ∧
    AtEntry f chain ((chain.flatMap f.pairs).takeWhile fun e =>
      (compare e.1 key).isLT).length iid :=
  h.exists_seek (fun _ => downward_lt) (fun _ => rfl) fun e he => by
    rwa [Ordering.isLT_iff_eq_lt, compare_lt_iff_lt]

theorem exists_upperBound (h : f.OrderedIndex chain) (key : K) :
    ∃ iid, f.upperBound key = some iid ∧
    AtEntry f chain ((chain.flatMap f.pairs).takeWhile fun e =>
      (compare e.1 key).isLE).length iid :=
  h.exists_seek (fun _ => downward_le) (fun _ => rfl) fun _ he => isLE_compare_iff.mpr he.le

theorem atEntry_leafBegin (h : f.OrderedIndex chain) : AtEntry f chain 0 f.leafBegin := by
  have hfirst := h.first
  cases hchain : chain with
  | nil =>
    rw [hchain] at hfirst
    cases hfirst
  | cons p B =>
    rw [hchain, List.head?_cons] at hfirst
    obtain rfl : p = f.firstLeaf := Option.some.inj hfirst
    refine Blocks.at_start ?_
    cases B with
    | nil => exact .inr rfl
    | cons b B =>
      have hnodup := h.nodup
      rw [hchain] at hnodup
      have hne : f.firstLeaf ≠ b := fun heq =>
        (List.nodup_cons.mp hnodup).1 (heq ▸ List.mem_cons_self)
      exact .inl (h.pairs_ne_nil (by simp [hchain]) (by simp [hchain]) hne)

theorem atEntry_leafEnd (h : f.OrderedIndex chain) :
    AtEntry f chain (chain.flatMap f.pairs).length f.leafEnd := by
  obtain ⟨A, hchain⟩ := List.getLast?_eq_some_iff.mp h.last
  rw [hchain]
  exact Blocks.at_end

/-! ## The scan -/

variable {n m : ℕ} {iid lower upper : Iid}

omit [LinearOrder K] in
theorem getRid_eq (hat : AtEntry f chain n iid) (hn : n < (chain.flatMap f.pairs).length) :
    f.getRid iid = ((chain.flatMap f.pairs).map Prod.snd)[n]? := by
  obtain ⟨hlt, hitem⟩ := hat.item hn
  have hlt : ¬ (f.pages iid.pageNo).size ≤ iid.slotNo := Nat.not_le.mpr hlt
  rw [getRid, if_neg hlt, List.getElem?_map, ← hitem]
  rfl

/-- A step of the scan goes to the next entry. -/
theorem exists_scanNext (h : f.OrderedIndex chain) (hat : AtEntry f chain n iid)
    (hn : n < (chain.flatMap f.pairs).length) (hne : iid ≠ upper) :
    ∃ iid', f.scanNext upper iid = some iid' ∧ AtEntry f chain (n + 1) iid' := by
  have hlt : iid.slotNo < (f.pairs iid.pageNo).length := (hat.item hn).1
  obtain ⟨A, B, hchain, hsame, hnext⟩ := hat.succ hn
  have hmem : iid.pageNo ∈ chain := by rw [hchain]; simp
  have hleaf : (f.pages iid.pageNo).isLeaf = true := ((h.leaves _).mp hmem).2
  have hok : ¬ (iid = upper ∨ (f.pages iid.pageNo).isLeaf = false ∨
      (f.pages iid.pageNo).size ≤ iid.slotNo) := by
    rintro (heq | hinner | hge)
    · exact hne heq
    · rw [hleaf] at hinner
      cases hinner
    · exact absurd hlt (Nat.not_lt.mpr hge)
  simp only [scanNext, if_neg hok]
  split
  · next hend =>
    cases B with
    | nil => exact absurd ((h.eq_last_iff hchain).mpr rfl) hend.1
    | cons b B =>
      refine ⟨_, rfl, ?_⟩
      rw [h.nextLeaf_eq hchain]
      have hnodup := h.nodup
      rw [hchain] at hnodup
      have hbne : b ≠ iid.pageNo := fun heq =>
        (List.nodup_cons.mp (List.nodup_append.mp hnodup).2.1).1 (heq ▸ List.mem_cons_self)
      exact hnext b B rfl hend.2 (h.pairs_ne_nil (by rw [hchain]; simp) hmem hbne)
  · next hend =>
    refine ⟨_, rfl, hsame ?_⟩
    by_cases hlast : iid.pageNo = f.lastLeaf
    · exact .inr ((h.eq_last_iff hchain).mp hlast)
    · refine .inl (lt_of_le_of_ne hlt fun heq => hend ⟨hlast, heq⟩)

/-- The scan from one position to a later one gives the entries in between. -/
theorem emits (h : f.OrderedIndex chain) (start : Iid) (hupper : AtEntry f chain m upper)
    (hat : AtEntry f chain n iid) (hle : n ≤ m) : (f.ixScan start upper).Emits (fun _ => True)
      ((((chain.flatMap f.pairs).drop n).take (m - n)).map Prod.snd) iid := by
  obtain ⟨k, rfl⟩ : ∃ k, m = n + k := ⟨m - n, by omega⟩
  rw [Nat.add_sub_cancel_left]
  induction k generalizing n iid with
  | zero =>
    have heq := hat.unique hupper
    have heq : iid = upper := by
      cases iid
      cases upper
      cases heq
      rfl
    simp only [List.take_zero, List.map_nil]
    exact ⟨trivial, decide_eq_true heq⟩
  | succ k ih =>
    have hn : n < (chain.flatMap f.pairs).length := by
      have hm := hupper.le
      omega
    have hne : iid ≠ upper := by
      rintro rfl
      have hnum := hat.number_unique h.nodup hupper
      omega
    obtain ⟨iid', hscan, hat'⟩ := h.exists_scanNext hat hn hne
    have hupper' : AtEntry f chain (n + 1 + k) upper := by rwa [Nat.add_right_comm]
    have hrest := ih hat' hupper' (by omega)
    rw [List.drop_eq_getElem_cons hn, List.take_succ_cons, List.map_cons]
    refine ⟨trivial, decide_eq_false hne, ?_, iid', hscan, hrest⟩
    show f.getRid iid = _
    rw [getRid_eq hat hn, List.getElem?_map, List.getElem?_eq_getElem hn]
    rfl

end OrderedIndex

/-- On an ordered index, a scan from `lower_bound` of `lo` to `upper_bound` of `hi` gives the record
ids of the entries from `lo` to `hi`, one after the other, and a scan from `leaf_begin` to
`leaf_end` those of all entries. -/
theorem range_scan [LinearOrder K] {f : IxIndexHandle K} {chain : List ℤ}
    (h : f.OrderedIndex chain) {lo hi : K} (hle : lo ≤ hi) :
    (∃ lower upper, f.lowerBound lo = some lower ∧ f.upperBound hi = some upper ∧
      (f.ixScan lower upper).Enumerates (fun _ => True)
        (((chain.flatMap f.pairs).filter fun e => decide (lo ≤ e.1 ∧ e.1 ≤ hi)).map Prod.snd)) ∧
    (f.ixScan f.leafBegin f.leafEnd).Enumerates (fun _ => True)
    ((chain.flatMap f.pairs).map Prod.snd) := by
  constructor
  · obtain ⟨lower, hlower, hatLower⟩ := h.exists_lowerBound lo
    obtain ⟨upper, hupper, hatUpper⟩ := h.exists_upperBound hi
    have hsub : ∀ e ∈ chain.flatMap f.pairs, (compare e.1 lo).isLT = true →
        (compare e.1 hi).isLE = true := by
      intro e _ hlt
      rw [Ordering.isLT_iff_eq_lt, compare_lt_iff_lt] at hlt
      exact isLE_compare_iff.mpr (hlt.le.trans hle)
    have hfilter := Blocks.drop_take_eq_filter (downward_lt h.increasing)
      (downward_le h.increasing) hsub
    have hpred : ((chain.flatMap f.pairs).filter fun e =>
      !(compare e.1 lo).isLT && (compare e.1 hi).isLE) =
        (chain.flatMap f.pairs).filter fun e => decide (lo ≤ e.1 ∧ e.1 ≤ hi) := by
      refine List.filter_congr fun e _ => ?_
      rw [Bool.eq_iff_iff, Bool.and_eq_true, Bool.not_eq_true', ← Bool.not_eq_true,
        Ordering.isLT_iff_eq_lt, compare_lt_iff_lt, isLE_compare_iff, not_lt, decide_eq_true_eq]
    have hnum : ((chain.flatMap f.pairs).takeWhile fun e => (compare e.1 lo).isLT).length ≤
        ((chain.flatMap f.pairs).takeWhile fun e => (compare e.1 hi).isLE).length :=
      Blocks.takeWhile_length_le hsub
    refine ⟨lower, upper, hlower, hupper, fun _ _ => ⟨lower, rfl, ?_⟩⟩
    rw [← hpred, ← hfilter]
    exact h.emits lower hatUpper hatLower hnum
  · intro _ _
    have hall := h.emits f.leafBegin h.atEntry_leafEnd h.atEntry_leafBegin (Nat.zero_le _)
    rw [List.drop_zero, Nat.sub_zero, List.take_length] at hall
    exact ⟨f.leafBegin, rfl, hall⟩

/-- Two leaves under a root. -/
def twoLeaves : IxIndexHandle ℕ where
  btreeOrder := 3
  rootPage := 4
  firstLeaf := 2
  lastLeaf := 3
  numPages := 5
  nextPageNo := 5
  pages p :=
    if p = 2 then ⟨4, true, IX_LEAF_HEADER_PAGE, 3, [(1, ⟨1, 0⟩), (2, ⟨1, 1⟩)]⟩
    else if p = 3 then ⟨4, true, 2, IX_LEAF_HEADER_PAGE, [(5, ⟨1, 2⟩), (7, ⟨1, 3⟩)]⟩
    else if p = 4 then ⟨IX_NO_PAGE, false, 0, 0, [(1, ⟨2, -1⟩), (5, ⟨3, -1⟩)]⟩
    else ⟨0, false, 0, 0, []⟩

theorem below_twoLeaves {p : ℤ} (h : twoLeaves.Below 4 p) : p = 4 ∨ p = 2 ∨ p = 3 := by
  induction h with
  | refl => exact .inl rfl
  | tail _ hkid ih =>
    rcases ih with rfl | rfl | rfl
    · have hmem : _ ∈ [(2 : ℤ), 3] := hkid.2
      rcases List.mem_cons.mp hmem with rfl | hmem
      · exact .inr (.inl rfl)
      · exact .inr (.inr (List.mem_singleton.mp hmem))
    · cases hkid.1
    · cases hkid.1

theorem orderedIndex_twoLeaves : twoLeaves.OrderedIndex [2, 3] where
  pages p hp := by
    rcases below_twoLeaves hp with rfl | rfl | rfl <;> decide
  tree := by
    refine ⟨fun p => if p = 4 then 1 else 0, fun p c hp hkid => ?_⟩
    rcases below_twoLeaves hp with rfl | rfl | rfl
    · have hmem : c ∈ [(2 : ℤ), 3] := hkid.2
      rcases List.mem_cons.mp hmem with rfl | hmem
      · decide
      · rw [List.mem_singleton.mp hmem]
        decide
    · cases hkid.1
    · cases hkid.1
  inner p hp _ := by
    rcases below_twoLeaves hp with rfl | rfl | rfl <;> decide
  separators p hp _ := by
    rcases below_twoLeaves hp with rfl | rfl | rfl <;> decide
  within p hp hinner u e v hpairs q hq hleaf d hd := by
    rcases below_twoLeaves hp with rfl | rfl | rfl
    · have hpairs : [((1 : ℕ), (⟨2, -1⟩ : Rid)), (5, ⟨3, -1⟩)] = u ++ e :: v := hpairs
      rcases u with _ | ⟨a, _ | ⟨b, u⟩⟩
      · cases hpairs
        obtain rfl : q = 2 := eq_of_below rfl hq
        exact ⟨fun h => absurd rfl h, by revert d; decide⟩
      · cases hpairs
        obtain rfl : q = 3 := eq_of_below rfl hq
        exact ⟨fun _ => by revert d; decide, by simp⟩
      · simp at hpairs
    · cases hinner
    · cases hinner
  leaves p := by
    constructor
    · intro hp
      rcases List.mem_cons.mp hp with rfl | hp
      · exact ⟨.single ⟨rfl, by decide⟩, rfl⟩
      · rw [List.mem_singleton.mp hp]
        exact ⟨.single ⟨rfl, by decide⟩, rfl⟩
    · rintro ⟨hp, hleaf⟩
      rcases below_twoLeaves hp with rfl | rfl | rfl
      · cases hleaf
      · decide
      · decide
  nodup := by decide
  first := rfl
  last := rfl
  next := by decide
  increasing := by decide
  nonempty p hp _ := by
    rcases List.mem_cons.mp hp with rfl | hp
    · decide
    · rw [List.mem_singleton.mp hp]
      decide

/-- From 2 to 6 there are the keys 2 and 5, in two leaves. -/
theorem range_scan_twoLeaves : twoLeaves.OrderedIndex [2, 3] ∧
    (∃ lower upper, twoLeaves.lowerBound 2 = some lower ∧ twoLeaves.upperBound 6 = some upper ∧
      (twoLeaves.ixScan lower upper).Enumerates (fun _ => True) [⟨1, 1⟩, ⟨1, 2⟩]) ∧
    (twoLeaves.ixScan twoLeaves.leafBegin twoLeaves.leafEnd).Enumerates (fun _ => True)
      [⟨1, 0⟩, ⟨1, 1⟩, ⟨1, 2⟩, ⟨1, 3⟩] :=
  ⟨orderedIndex_twoLeaves, range_scan orderedIndex_twoLeaves (by decide)⟩

end IxIndexHandle

end Rmdb
