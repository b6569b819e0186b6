import Rmdb.Lib.Run

/-!
# Serial orders of a history

A history is what the transactions of a system have done: operations, each of one transaction, and
the ends of transactions.  Operations act on a state by a step relation; one that reads is a step of
the states in which it reads what it has read.  `Serial` says that the history has the outcome of
the committed transactions running one after another, in the order in which they committed, followed
by the operations of those that have not ended.

An operation keeps this, a commit keeps it when the operations of the transaction move to the left
past those of the other open transactions, and an abort when in addition the transaction has taken
back all it did.
-/

namespace Rmdb

/-- An entry of a history. -/
inductive HistoryEvent (T A : Type*)
  | op (t : T) (a : A)
  | commit (t : T)
  | abort (t : T)

namespace History

variable {S T A : Type*} {step : S → A → S → Prop} {s s' s'' : S} {a b : A} {bs cs : List A}
  {h : List (HistoryEvent T A)}

/-! ## Moving operations -/

/-- An operation `b` that comes after `a` can come before it. -/
def MovesLeft (step : S → A → S → Prop) (a b : A) : Prop :=
  ∀ s s' s'', step s a s' → step s' b s'' → ∃ m, step s b m ∧ step m a s''

theorem run_moveLeft (h : ∀ b ∈ bs, MovesLeft step a b) (hrun : Run step s (a :: (bs ++ cs)) s') :
    Run step s (bs ++ a :: cs) s' := by
  induction bs generalizing s with
  | nil => exact hrun
  | cons b bs ih =>
    rw [List.forall_mem_cons] at h
    cases hrun with
    | cons ha hrun =>
      cases hrun with
      | cons hb hrun =>
        obtain ⟨m, hb, ha⟩ := h.1 _ _ _ ha hb
        exact .cons hb (ih h.2 (.cons ha hrun))

/-- The operations of one transaction move in front of the others. -/
theorem run_partition [DecidableEq T] {t : T} {l : List (T × A)}
    (h : ∀ x ∈ l, ∀ y ∈ l, x.1 ≠ t → y.1 = t → MovesLeft step x.2 y.2)
    (hrun : Run step s (l.map (·.2)) s') :
    Run step s ((l.filter (·.1 = t)).map (·.2) ++ (l.filter (·.1 ≠ t)).map (·.2)) s' := by
  induction l generalizing s with
  | nil => exact hrun
  | cons x l ih =>
    cases hrun with
    | cons hx hrun =>
      have hrest :=
        ih (fun y hy z hz => h y (List.mem_cons_of_mem _ hy) z (List.mem_cons_of_mem _ hz)) hrun
      by_cases ht : x.1 = t
      · simpa [ht] using Run.cons hx hrest
      · have hleft : ∀ b ∈ (l.filter (·.1 = t)).map (·.2), MovesLeft step x.2 b := by
          intro b hb
          obtain ⟨y, hy, rfl⟩ := List.mem_map.mp hb
          rw [List.mem_filter, decide_eq_true_eq] at hy
          exact h x List.mem_cons_self y (List.mem_cons_of_mem _ hy.1) ht hy.2
        simpa [ht] using run_moveLeft hleft (Run.cons hx hrest)

/-! ## Histories -/

/-- The operations, each with its transaction. -/
def ops (h : List (HistoryEvent T A)) : List (T × A) :=
  h.filterMap fun e =>
    match e with
    | .op t a => some (t, a)
    | _ => none

/-- The committed transactions in the order of their commits. -/
def commits (h : List (HistoryEvent T A)) : List T :=
  h.filterMap fun e =>
    match e with
    | .commit t => some t
    | _ => none

theorem ops_append (g : List (HistoryEvent T A)) : ops (h ++ g) = ops h ++ ops g :=
  List.filterMap_append

theorem commits_append (g : List (HistoryEvent T A)) : commits (h ++ g) = commits h ++ commits g :=
  List.filterMap_append

variable [DecidableEq T] {t : T}

/-- The operations of one transaction. -/
def opsOf (t : T) (h : List (HistoryEvent T A)) : List A := ((ops h).filter (·.1 = t)).map (·.2)

/-- The transaction has committed or aborted. -/
def ended (t : T) (h : List (HistoryEvent T A)) : Bool :=
  h.any fun e =>
    match e with
    | .op _ _ => false
    | .commit t' => t' = t
    | .abort t' => t' = t

/-- The operations of the transactions that have not ended. -/
def openOps (h : List (HistoryEvent T A)) : List (T × A) := (ops h).filter fun x => !ended x.1 h

theorem opsOf_append (t : T) (g : List (HistoryEvent T A)) :
    opsOf t (h ++ g) = opsOf t h ++ opsOf t g := by
  rw [opsOf, ops_append, List.filter_append, List.map_append]
  rfl

theorem ended_append (t : T) (g : List (HistoryEvent T A)) :
    ended t (h ++ g) = (ended t h || ended t g) :=
  List.any_append

theorem ended_of_mem_commits (ht : t ∈ commits h) : ended t h = true := by
  obtain ⟨e, he, heq⟩ := List.mem_filterMap.mp ht
  refine List.any_eq_true.mpr ⟨e, he, ?_⟩
  cases e with
  | op t' a => cases heq
  | commit t' =>
    cases heq
    exact decide_eq_true rfl
  | abort t' => cases heq

theorem mem_openOps {x : T × A} : x ∈ openOps h ↔ ended x.1 h = false ∧ x.2 ∈ opsOf x.1 h := by
  rw [openOps, List.mem_filter, Bool.not_eq_true', and_comm, and_congr_right_iff]
  intro _
  constructor
  · intro hx
    exact List.mem_map.mpr ⟨x, List.mem_filter.mpr ⟨hx, decide_eq_true rfl⟩, rfl⟩
  · intro hx
    obtain ⟨y, hy, heq⟩ := List.mem_map.mp hx
    rw [List.mem_filter, decide_eq_true_eq] at hy
    obtain rfl : y = x := Prod.ext hy.2 heq
    exact hy.1

/-- The open operations of a transaction that has not ended are its operations. -/
theorem openOps_filter (ht : ended t h = false) :
    ((openOps h).filter (·.1 = t)).map (·.2) = opsOf t h := by
  rw [openOps, List.filter_filter, opsOf]
  refine congrArg _ (List.filter_congr fun x _ => ?_)
  by_cases heq : x.1 = t
  · simp [heq, ht]
  · simp [heq]

theorem openOps_op (a : A) (ht : ended t h = false) :
    openOps (h ++ [.op t a]) = openOps h ++ [(t, a)] := by
  have hsame (t' : T) : ended t' (h ++ [HistoryEvent.op t a]) = ended t' h := by
    rw [ended_append]
    exact Bool.or_false _
  simp only [openOps, hsame, ops_append, List.filter_append]
  simp [ops, ht]

/-- The open operations when a transaction has ended. -/
theorem openOps_end {e : HistoryEvent T A} (he : e = .commit t ∨ e = .abort t) :
    openOps (h ++ [e]) = (openOps h).filter (·.1 ≠ t) := by
  have hsame (t' : T) : ended t' (h ++ [e]) = (ended t' h || decide (t = t')) := by
    rw [ended_append]
    rcases he with rfl | rfl <;> simp [ended]
  have hops : ops (h ++ [e]) = ops h := by
    rw [ops_append]
    rcases he with rfl | rfl <;> exact List.append_nil _
  rw [openOps, openOps, hops, List.filter_filter]
  refine List.filter_congr fun x _ => ?_
  rw [hsame]
  by_cases heq : x.1 = t
  · simp [heq]
  · simp [heq, Ne.symm heq]

/-! ## Serial histories -/

/-- The history leads from `s` to `s'` like its committed transactions one after another, in the
order of their commits, and the open operations behind them. -/
def Serial (step : S → A → S → Prop) (h : List (HistoryEvent T A)) (s s' : S) : Prop :=
  ∃ m, Run step s ((commits h).flatMap fun t => opsOf t h) m ∧ Run step m ((openOps h).map (·.2)) s'

theorem serial_nil (s : S) : Serial step ([] : List (HistoryEvent T A)) s s := ⟨s, .nil s, .nil s⟩

/-- What comes last in a history does not change the transactions that have committed before. -/
theorem flatMap_opsOf_snoc {e : HistoryEvent T A} {ts : List T} (he : ∀ t ∈ ts, opsOf t [e] = []) :
    (ts.flatMap fun t => opsOf t (h ++ [e])) = ts.flatMap fun t => opsOf t h := by
  refine List.flatMap_congr fun t ht => ?_
  rw [opsOf_append, he t ht, List.append_nil]

theorem Serial.op (hs : Serial step h s s') (ht : ended t h = false) (ha : step s' a s'') :
    Serial step (h ++ [.op t a]) s s'' := by
  obtain ⟨m, hcommitted, hopen⟩ := hs
  refine ⟨m, ?_, ?_⟩
  · have hcommits : commits (h ++ [HistoryEvent.op t a]) = commits h := by
      rw [commits_append]
      exact List.append_nil _
    rw [hcommits, flatMap_opsOf_snoc fun t' ht' => ?_]
    · exact hcommitted
    · have hne : t ≠ t' := by
        rintro rfl
        rw [ended_of_mem_commits ht'] at ht
        cases ht
      simp [opsOf, ops, hne]
  · rw [openOps_op a ht, List.map_append]
    exact hopen.append (.single ha)

/-- The operations of `t` move to the left past the open operations of other transactions. -/
def MovesOut (step : S → A → S → Prop) (h : List (HistoryEvent T A)) (t : T) : Prop :=
  ∀ x ∈ openOps h, ∀ y ∈ openOps h, x.1 ≠ t → y.1 = t → MovesLeft step x.2 y.2

theorem Serial.split (hs : Serial step h s s') (ht : ended t h = false)
    (hmove : MovesOut step h t) :
    ∃ m m', Run step s ((commits h).flatMap fun t => opsOf t h) m ∧ Run step m (opsOf t h) m' ∧
      Run step m' (((openOps h).filter (·.1 ≠ t)).map (·.2)) s' := by
  obtain ⟨m, hcommitted, hopen⟩ := hs
  have hrun := run_partition hmove hopen
  rw [openOps_filter ht] at hrun
  obtain ⟨m', hown, hothers⟩ := Run.of_append hrun
  exact ⟨m, m', hcommitted, hown, hothers⟩

theorem Serial.commit (hs : Serial step h s s') (ht : ended t h = false)
    (hmove : MovesOut step h t) : Serial step (h ++ [.commit t]) s s' := by
  obtain ⟨m, m', hcommitted, hown, hothers⟩ := hs.split ht hmove
  have hcommits : commits (h ++ [HistoryEvent.commit t]) = commits h ++ [t] := by
    rw [commits_append]
    rfl
  refine ⟨m', ?_, ?_⟩
  · rw [hcommits, flatMap_opsOf_snoc fun _ _ => rfl, List.flatMap_append, List.flatMap_singleton]
    exact hcommitted.append hown
  · rw [openOps_end (.inl rfl)]
    exact hothers

theorem Serial.abort (hs : Serial step h s s') (ht : ended t h = false) (hmove : MovesOut step h t)
    (hback : ∀ m m', Run step m (opsOf t h) m' → m = m') : Serial step (h ++ [.abort t]) s s' := by
  obtain ⟨m, m', hcommitted, hown, hothers⟩ := hs.split ht hmove
  obtain rfl := hback m m' hown
  have hcommits : commits (h ++ [HistoryEvent.abort t]) = commits h := by
    rw [commits_append]
    exact List.append_nil _
  refine ⟨m, ?_, ?_⟩
  · rw [hcommits, flatMap_opsOf_snoc fun _ _ => rfl]
    exact hcommitted
  · rw [openOps_end (.inr rfl)]
    exact hothers

end History

end Rmdb
