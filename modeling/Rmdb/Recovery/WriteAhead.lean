import Rmdb.Recovery.LogForm

/-!
# The write-ahead rule

A statement flushes the log at its end, while the pages that it changes can go to disk at any
moment: by eviction, and by `flush_all_dirty_pages` in the commit of another client.  Nothing
compares a page with the log when it is written.  So the rule holds exactly as long as no page is
written that holds a change of a statement under way whose record is still in the log buffer, or not
logged at all.
-/

namespace Rmdb

namespace Engine

/-- The record of the operation is in the log on disk: it is the record number `c.number` of its
transaction that is about a row. -/
def RecordOnDisk (s : Engine) (c : PageChange) : Prop :=
  (dataOps (recordsOf c.tid s.log.disk))[c.number]? = some c.op

instance (s : Engine) (c : PageChange) : Decidable (s.RecordOnDisk c) :=
  inferInstanceAs (Decidable (_ = _))

/-- The images of the pages on disk hold no effect of an operation whose record is not on disk. -/
def WriteAhead (s : Engine) : Prop := ∀ c ∈ s.images, s.RecordOnDisk c

/-- The step writes the page that `c` is on. -/
def Writes (s : Engine) (c : PageChange) : EngineOp → Prop
  | .writeBack page => c.op.page? = some page
  | .act t => ∃ txn todo, s.txns t = some txn ∧ txn.todo = .flushPages :: todo
  | _ => False

/-- The pages that the step writes hold no change of a statement under way whose record is not on
disk. -/
def FlushesFirst (s : Engine) (op : EngineOp) : Prop :=
  ∀ c ∈ s.pages, s.Writes c op → (∃ txn, s.txns c.tid = some txn ∧ txn.todo ≠ []) → s.RecordOnDisk c

variable {s s' : Engine} {op : EngineOp}

/-- A statement that has run to its end has flushed the records of its changes. -/
theorem Inv.recordOnDisk (h : Inv NoEnd s) {c : PageChange} (hc : c ∈ s.pages)
    (hdone : ¬ ∃ txn, s.txns c.tid = some txn ∧ txn.todo ≠ []) : s.RecordOnDisk c := by
  obtain ⟨txn, ht⟩ := Option.ne_none_iff_exists'.1 (h.pages c hc)
  have hnil : txn.todo = [] := by
    by_contra hne
    exact hdone ⟨txn, ht, hne⟩
  obtain ⟨q, ⟨q', hq, hdirty, -⟩, htracks⟩ := h.txns c.tid txn ht
  rw [hnil] at hq
  cases hq
  exact (htracks.effects c (List.mem_filter.2 ⟨hc, by simp⟩)).flushed hdirty

/-- Records do not leave the disk. -/
theorem RecordOnDisk.mono {c : PageChange} (h : s.RecordOnDisk c)
    (hdisk : s.log.disk <+: s'.log.disk) : s'.RecordOnDisk c :=
  getElem?_dataOps_mono (hdisk.filter _) h

/-- A step that writes no page. -/
theorem WriteAhead.of_images (h : WriteAhead s) (himages : s'.images = s.images)
    (hdisk : s.log.disk <+: s'.log.disk) : WriteAhead s' := by
  intro c hc
  rw [himages] at hc
  exact (h c hc).mono hdisk

/-- The rule survives a step when it holds of what the step writes. -/
theorem writeAhead_iff_of_images (hinv : Inv NoEnd s) (hdisk : s'.log.disk = s.log.disk)
    (himages : ∀ c, s.Writes c op → c ∈ s.pages → c ∈ s'.images)
    (hsub : ∀ c ∈ s'.images, c ∈ s.images ∨ c ∈ s.pages ∧ s.Writes c op) (h : WriteAhead s) :
    WriteAhead s' ↔ FlushesFirst s op := by
  have hsame (c : PageChange) : s'.RecordOnDisk c ↔ s.RecordOnDisk c := by
    rw [RecordOnDisk, RecordOnDisk, hdisk]
  constructor
  · intro h' c hc hwrites _
    exact (hsame c).1 (h' c (himages c hwrites hc))
  · intro hfirst c hc
    rw [hsame]
    rcases hsub c hc with hc | ⟨hc, hwrites⟩
    · exact h c hc
    · by_cases hrun : ∃ txn, s.txns c.tid = some txn ∧ txn.todo ≠ []
      · exact hfirst c hc hwrites hrun
      · exact hinv.recordOnDisk hc hrun

/-- The write-ahead rule survives exactly the steps that flush first. -/
theorem writeAhead_step_iff (hstep : Steps s op s') (hinv : Inv NoEnd s) (h : WriteAhead s) :
    WriteAhead s' ↔ FlushesFirst s op := by
  cases op with
  | begin =>
    cases hstep
    exact iff_of_true (h.of_images rfl List.prefix_rfl) fun _ _ hw => hw.elim
  | start t req =>
    simp only [Steps, Engine.step] at hstep
    split at hstep
    · cases hstep
    · split at hstep
      · cases hstep
        exact iff_of_true (h.of_images rfl List.prefix_rfl) fun _ _ hw => hw.elim
      · cases hstep
  | act t =>
    simp only [Steps, Engine.step] at hstep
    split at hstep
    · cases hstep
    · rename_i txn ht
      split at hstep
      · cases hstep
      · rename_i a todo htodo
        cases hstep
        by_cases ha : a = .flushPages
        · subst ha
          exact writeAhead_iff_of_images hinv rfl (fun c _ hc => hc)
            (fun c hc => .inr ⟨hc, txn, todo, ht, htodo⟩) h
        · have himages : (s.perform t { txn with todo := todo } a).images = s.images := by
            cases a with
            | flushPages => exact absurd rfl ha
            | ensureBegin =>
              rw [perform]
              split <;> rfl
            | _ => rfl
          refine iff_of_true (h.of_images himages (s.perform_disk t _ a)) ?_
          rintro c - ⟨txn', todo', ht', htodo'⟩
          rw [ht] at ht'
          cases ht'
          rw [htodo, List.cons.injEq] at htodo'
          exact absurd htodo'.1 ha
  | fail t =>
    simp only [Steps, Engine.step] at hstep
    split at hstep
    · cases hstep
    · split at hstep
      · cases hstep
      · split at hstep
        · cases hstep
          exact iff_of_true (h.of_images rfl List.prefix_rfl) fun _ _ hw => hw.elim
        · cases hstep
  | writeBack page =>
    cases hstep
    refine writeAhead_iff_of_images hinv rfl (fun c hw hc => ?_) (fun c hc => ?_) h
    · exact List.mem_append_right _
        (List.mem_filter.2 ⟨hc, decide_eq_true (p := c.op.page? = some page) hw⟩)
    · rcases List.mem_append.1 hc with hc | hc
      · exact .inl (List.mem_of_mem_filter hc)
      · obtain ⟨hc, hw⟩ := List.mem_filter.1 hc
        exact .inr ⟨hc, of_decide_eq_true (p := c.op.page? = some page) hw⟩
  | restart =>
    cases hstep
    exact iff_of_true (fun c hc => by cases hc) fun _ _ hw => hw.elim

/-- In every run the write-ahead rule holds in all the states that it goes through if and only if
every step flushes first. -/
theorem write_ahead_iff_flushes_first {ops : List EngineOp} (h : Run Steps {} ops s) :
    (∀ ops₁ ops₂ s₁, ops = ops₁ ++ ops₂ → Run Steps {} ops₁ s₁ → WriteAhead s₁) ↔
      Run (Meeting FlushesFirst Steps) {} ops s := by
  refine Run.meeting_iff (I := Inv NoEnd) (fun s op s₁ s₂ h₁ h₂ => ?_) ?_ ?_ (inv_init NoEnd) ?_ h
  · exact Option.some.inj (h₁.symm.trans h₂)
  · exact fun _ _ _ hstep hinv => hinv.step hstep (endsAfterWrites_noEnd _ _)
  · exact fun _ _ _ hstep hinv hahead => writeAhead_step_iff hstep hinv hahead
  · exact fun c hc => by cases hc

/-- A client inserts a record, and its page is written after the statement. -/
def insertThenWrite : List EngineOp :=
  .begin :: .start 0 (.insert "t" ⟨"t", [], []⟩ ⟨1, 0⟩ [1]) :: List.replicate 7 (.act 0) ++
    [.writeBack ("t", 1)]

theorem write_ahead_iff_insert : ∃ s, Run Steps {} insertThenWrite s ∧ s.images.length = 1 ∧
    ((∀ ops₁ ops₂ s₁, insertThenWrite = ops₁ ++ ops₂ → Run Steps {} ops₁ s₁ → WriteAhead s₁) ↔
      Run (Meeting FlushesFirst Steps) {} insertThenWrite s) := by
  obtain ⟨s, hrun, hlen⟩ : ∃ s, Run Steps {} insertThenWrite s ∧ decide (s.images.length = 1) :=
    exists_run (by decide +kernel)
  exact ⟨s, hrun, of_decide_eq_true hlen, write_ahead_iff_flushes_first hrun⟩

/-- A client inserts a record, and its page is written as soon as `insert_record` has returned. -/
def writeDuringInsert : List EngineOp :=
  .begin :: .start 0 (.insert "t" ⟨"t", [], []⟩ ⟨1, 0⟩ [1]) :: List.replicate 4 (.act 0) ++
    [.writeBack ("t", 1)]

theorem not_write_ahead : ¬ ∀ (ops : List EngineOp) (s : Engine), Run Steps {} ops s →
    WriteAhead s := by
  intro h
  obtain ⟨s, hrun, hbad⟩ : ∃ s, Run Steps {} writeDuringInsert s ∧
      (s.images.any fun c => ! decide (s.RecordOnDisk c)) = true := exists_run (by decide +kernel)
  obtain ⟨c, hc, hnot⟩ := List.any_eq_true.1 hbad
  simp [h _ s hrun c hc] at hnot

end Engine

end Rmdb
