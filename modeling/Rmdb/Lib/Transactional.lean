import Rmdb.Lib.Run

/-!
# A store with transactions

The operations of a store are given by what they make of its value, which may be an error.  A client
groups them into transactions: an operation outside of a transaction is one of its own, and an error
takes back the transaction that it is in.  The value behind a store is then the one that the
operations of its committed transactions make, one after the other.
-/

namespace Rmdb

/-- What a client asks for. -/
inductive TxnRequest (O : Type*)
  | begin
  | commit
  | rollback
  | op (o : O)
deriving DecidableEq, Repr

/-- A store; `saved` is its value at the start of the transaction in progress. -/
structure TxnStore (S : Type*) where
  current : S
  saved : Option S := none

namespace TxnStore

variable {S O E : Type*}

/-- The value without the transaction in progress. -/
def committed (s : TxnStore S) : S := s.saved.getD s.current

/-- The steps of a client with their answers. -/
inductive Step (does : S → O → Except E S → Prop) :
    TxnStore S → TxnRequest O × Option E → TxnStore S → Prop
  | begin (s : TxnStore S) : Step does s (.begin, none) ⟨s.current, some s.committed⟩
  | commit (s : TxnStore S) : Step does s (.commit, none) ⟨s.current, none⟩
  | rollback (s : TxnStore S) : Step does s (.rollback, none) ⟨s.committed, none⟩
  | done {s : TxnStore S} {o : O} {m : S} : does s.current o (.ok m) →
      Step does s (.op o, none) ⟨m, s.saved⟩
  | failed {s : TxnStore S} {o : O} {e : E} : does s.current o (.error e) →
      Step does s (.op o, some e) ⟨s.committed, none⟩

end TxnStore

/-! ## The operations that count -/

/-- The operations that are there to stay, and those of the transaction in progress. -/
structure TxnLog (O : Type*) where
  ops : List O := []
  pending : Option (List O) := none

namespace TxnLog

variable {S O E : Type*}

def note (l : TxnLog O) : TxnRequest O × Option E → TxnLog O
  | (.begin, _) => ⟨l.ops, some (l.pending.getD [])⟩
  | (.commit, _) => ⟨l.ops ++ l.pending.getD [], none⟩
  | (.rollback, _) => ⟨l.ops, none⟩
  | (.op o, none) =>
    match l.pending with
    | none => ⟨l.ops ++ [o], none⟩
    | some os => ⟨l.ops, some (os ++ [o])⟩
  | (.op _, some _) => ⟨l.ops, none⟩

/-- The operations of the committed transactions, in order. -/
def survivors (events : List (TxnRequest O × Option E)) : List O := (events.foldl note {}).ops

/-- The operation makes a value of another. -/
def Makes (does : S → O → Except E S → Prop) : S → O → S → Prop := fun m o m' => does m o (.ok m')

/-- The log accounts for the store. -/
structure Accounts (does : S → O → Except E S → Prop) (m₀ : S) (l : TxnLog O)
    (s : TxnStore S) : Prop where
  committed : Run (Makes does) m₀ l.ops s.committed
  open_iff : l.pending.isSome = s.saved.isSome
  pending : Run (Makes does) s.committed (l.pending.getD []) s.current

variable {does : S → O → Except E S → Prop} {m₀ : S} {l : TxnLog O} {s s' : TxnStore S}
  {event : TxnRequest O × Option E} {events : List (TxnRequest O × Option E)}

theorem Accounts.step (h : Accounts does m₀ l s) (hstep : TxnStore.Step does s event s') :
    Accounts does m₀ (l.note event) s' := by
  obtain ⟨hcommitted, hopen, hpending⟩ := h
  cases hstep with
  | begin => exact ⟨hcommitted, rfl, hpending⟩
  | commit => exact ⟨hcommitted.append hpending, rfl, .nil _⟩
  | rollback => exact ⟨hcommitted, rfl, .nil _⟩
  | failed _ => exact ⟨hcommitted, rfl, .nil _⟩
  | @done o m hdoes =>
    obtain ⟨current, saved⟩ := s
    obtain ⟨ops, pending⟩ := l
    cases saved with
    | none =>
      cases pending with
      | none => exact ⟨hcommitted.snoc hdoes, rfl, .nil _⟩
      | some os => cases hopen
    | some m' =>
      cases pending with
      | none => cases hopen
      | some os => exact ⟨hcommitted, rfl, hpending.snoc hdoes⟩

theorem Accounts.run (hrun : Run (TxnStore.Step does) s events s') (h : Accounts does m₀ l s) :
    Accounts does m₀ (events.foldl note l) s' := by
  induction hrun generalizing l with
  | nil _ => exact h
  | cons hstep _ ih => exact ih (h.step hstep)

/-- The value behind the store is what the committed transactions made. -/
theorem makes_committed (hrun : Run (TxnStore.Step does) ⟨m₀, none⟩ events s) :
    Run (Makes does) m₀ (survivors events) s.committed :=
  (Accounts.run hrun ⟨.nil _, rfl, .nil _⟩).committed

end TxnLog

/-! ## Refinement -/

/-- When every step of a system is matched by a step of another under a relation, so is every
run. -/
theorem Run.simulates {S S' A B : Type*} {step : S → A → S → Prop}
    {step' : S' → B → S' → Prop} {f : A → B}
    {R : S → S' → Prop} (h : ∀ s a s' t, step s a s' → R s t → ∃ t', step' t (f a) t' ∧ R s' t')
    {s s' : S} {t : S'} {as : List A} (hrun : Run step s as s') (hR : R s t) :
    ∃ t', Run step' t (as.map f) t' ∧ R s' t' := by
  induction hrun generalizing t with
  | nil _ => exact ⟨t, .nil t, hR⟩
  | cons hstep _ ih =>
    obtain ⟨t₁, hstep', hR₁⟩ := h _ _ _ _ hstep hR
    obtain ⟨t', hrun', hR'⟩ := ih hR₁
    exact ⟨t', .cons hstep' hrun', hR'⟩

end Rmdb
