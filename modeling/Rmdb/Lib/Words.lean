import Mathlib.Data.List.Basic
import Mathlib.Data.Nat.Notation
import Mathlib.Data.Int.Notation

/-!
# Words in a text

Words and numbers that are written with blanks between them and read back one after the other, as
`<<` and `>>` of a text stream do.  A reader skips the blanks in front of what it reads.
`Finds r t a` says that `r` finds `a` in the text `t` when a blank or the end follows;
`Delimited r t a` that it does so whatever follows.
-/

namespace Rmdb

/-- `isspace`. -/
def isBlank (c : Char) : Bool := c ∈ [' ', '\t', '\n', '\x0b', '\x0c', '\r']

/-- `is >> s` for a string. -/
def getWord : StateT (List Char) Option String := fun cs =>
  let cs := cs.dropWhile isBlank
  if cs.takeWhile (!isBlank ·) = [] then none
  else some (String.ofList (cs.takeWhile (!isBlank ·)), cs.dropWhile (!isBlank ·))

/-- The number in front of a text. -/
def getDigits : StateT (List Char) Option ℕ := fun cs =>
  if cs.takeWhile Char.isDigit = [] then none
  else some (Nat.ofDigitChars 10 (cs.takeWhile Char.isDigit) 0, cs.dropWhile Char.isDigit)

/-- `is >> n` for a number without a sign. -/
def getNat : StateT (List Char) Option ℕ := fun cs => getDigits (cs.dropWhile isBlank)

/-- `is >> n` for a number that may have a sign. -/
def getInt : StateT (List Char) Option ℤ := fun cs =>
  match cs.dropWhile isBlank with
  | '-' :: cs => (getDigits cs).map fun (n, rest) => (-(n : ℤ), rest)
  | '+' :: cs => (getDigits cs).map fun (n, rest) => ((n : ℤ), rest)
  | cs => (getDigits cs).map fun (n, rest) => ((n : ℤ), rest)

/-- `os << n`. -/
def intChars : ℤ → List Char
  | .ofNat n => Nat.toDigits 10 n
  | .negSucc n => '-' :: Nat.toDigits 10 (n + 1)

/-- `n` times `is >> x`. -/
def getMany {α : Type} (r : StateT (List Char) Option α) : ℕ → StateT (List Char) Option (List α)
  | 0 => pure []
  | n + 1 => do
    let x ← r
    let xs ← getMany r n
    return x :: xs

/-- A string that `>>` reads as a whole. -/
def IsWord (s : String) : Prop := s.toList ≠ [] ∧ ∀ c ∈ s.toList, isBlank c = false

/-- Only blanks. -/
def Blanks (cs : List Char) : Prop := ∀ c ∈ cs, isBlank c = true

/-- The end of the text, or a blank. -/
def BlankNext (cs : List Char) : Prop := ∀ c ∈ cs.head?, isBlank c = true

section
variable {α β : Type} {r : StateT (List Char) Option α} {f : α → StateT (List Char) Option β}
  {t t' rest bs : List Char}
  {a : α} {b : β} {c : Char} {s : String} {w : α → List Char} {l : List α}

/-- After any blanks, the reader finds `a` in `t` when a blank or the end follows, and leaves blanks
at most. -/
def Finds (r : StateT (List Char) Option α) (t : List Char) (a : α) : Prop :=
  ∀ bs rest, Blanks bs → BlankNext rest → ∃ bs', Blanks bs' ∧
    r (bs ++ (t ++ rest)) = some (a, bs' ++ rest)

/-- After any blanks, the reader finds `a` in `t` whatever follows, and leaves blanks at most. -/
def Delimited (r : StateT (List Char) Option α) (t : List Char) (a : α) : Prop :=
  ∀ bs rest, Blanks bs → ∃ bs', Blanks bs' ∧ r (bs ++ (t ++ rest)) = some (a, bs' ++ rest)

theorem blanks_nil : Blanks [] := by simp [Blanks]

theorem dropWhile_blanks (h : Blanks bs) (cs : List Char) :
    (bs ++ cs).dropWhile isBlank = cs.dropWhile isBlank := by
  induction bs with
  | nil => rfl
  | cons b bs ih =>
    obtain ⟨hb, hbs⟩ := List.forall_mem_cons.mp h
    rw [List.cons_append, List.dropWhile_cons_of_pos hb, ih hbs]

theorem takeWhile_append {p : Char → Bool} (ht : ∀ c ∈ t, p c = true)
    (hr : ∀ c ∈ rest.head?, p c = false) :
    (t ++ rest).takeWhile p = t ∧ (t ++ rest).dropWhile p = rest := by
  induction t with
  | nil =>
    cases rest with
    | nil => exact ⟨rfl, rfl⟩
    | cons c rest =>
      have hc : p c = false := hr c rfl
      exact ⟨List.takeWhile_cons_of_neg (by simp [hc]), List.dropWhile_cons_of_neg (by simp [hc])⟩
  | cons c t ih =>
    obtain ⟨hc, ht⟩ := List.forall_mem_cons.mp ht
    rw [List.cons_append, List.takeWhile_cons_of_pos hc, List.dropWhile_cons_of_pos hc,
      (ih ht).1, (ih ht).2]
    exact ⟨rfl, rfl⟩

/-- The blanks in front of a text that begins with none are skipped. -/
theorem dropWhile_isBlank (hbs : Blanks bs) (hne : t ≠ []) (ht : ∀ c ∈ t, isBlank c = false) :
    (bs ++ (t ++ rest)).dropWhile isBlank = t ++ rest := by
  rw [dropWhile_blanks hbs]
  cases t with
  | nil => exact absurd rfl hne
  | cons c t => exact List.dropWhile_cons_of_neg (by simp [(List.forall_mem_cons.mp ht).1])

theorem finds_word (h : IsWord s) : Finds getWord s.toList s := by
  intro bs rest hbs hrest
  obtain ⟨htake, hdrop⟩ : (s.toList ++ rest).takeWhile (!isBlank ·) = s.toList ∧
      (s.toList ++ rest).dropWhile (!isBlank ·) = rest :=
    takeWhile_append (fun c hc => by simp [h.2 c hc]) fun c hc => by simp [hrest c hc]
  refine ⟨[], blanks_nil, ?_⟩
  simp only [getWord, dropWhile_isBlank hbs h.1 h.2, htake, hdrop, if_neg h.1, String.ofList_toList,
    List.nil_append]

theorem isBlank_of_isDigit (h : c.isDigit = true) : isBlank c = false := by
  by_contra hc
  have hc : isBlank c = true := by simpa using hc
  simp only [isBlank, List.mem_cons, List.not_mem_nil, or_false, decide_eq_true_eq] at hc
  rcases hc with rfl | rfl | rfl | rfl | rfl | rfl <;> exact absurd h (by decide)

theorem isDigit_of_mem_toDigits {n : ℕ} (h : c ∈ Nat.toDigits 10 n) : c.isDigit = true :=
  Nat.isDigit_of_mem_toDigits (by decide) (by decide) h

theorem getDigits_toDigits (n : ℕ) (hrest : BlankNext rest) :
    getDigits (Nat.toDigits 10 n ++ rest) = some (n, rest) := by
  have hne : Nat.toDigits 10 n ≠ [] := Nat.toDigits_ne_nil
  obtain ⟨htake, hdrop⟩ : (Nat.toDigits 10 n ++ rest).takeWhile Char.isDigit = Nat.toDigits 10 n ∧
      (Nat.toDigits 10 n ++ rest).dropWhile Char.isDigit = rest := by
    refine takeWhile_append (fun c => isDigit_of_mem_toDigits) fun c hc => ?_
    by_contra hdigit
    have hblank := hrest c hc
    rw [isBlank_of_isDigit (by simpa using hdigit)] at hblank
    cases hblank
  simp only [getDigits, htake, hdrop, if_neg hne, Nat.ofDigitChars_toDigits (show 1 < 10 by decide)
    (show 10 ≤ 10 by decide)]

theorem dropWhile_toDigits (n : ℕ) (hbs : Blanks bs) :
    (bs ++ (Nat.toDigits 10 n ++ rest)).dropWhile isBlank = Nat.toDigits 10 n ++ rest :=
  dropWhile_isBlank hbs Nat.toDigits_ne_nil fun _ hc =>
    isBlank_of_isDigit (isDigit_of_mem_toDigits hc)

theorem finds_nat (n : ℕ) : Finds getNat (Nat.toDigits 10 n) n := by
  intro bs rest hbs hrest
  refine ⟨[], blanks_nil, ?_⟩
  rw [getNat, dropWhile_toDigits n hbs, getDigits_toDigits n hrest, List.nil_append]

theorem finds_int (i : ℤ) : Finds getInt (intChars i) i := by
  intro bs rest hbs hrest
  refine ⟨[], blanks_nil, ?_⟩
  cases i with
  | ofNat n =>
    obtain ⟨c, cs, hcs⟩ := List.exists_cons_of_ne_nil (Nat.toDigits_ne_nil (b := 10) (n := n))
    have hc : c.isDigit = true := isDigit_of_mem_toDigits (hcs ▸ List.mem_cons_self)
    have hminus : c ≠ '-' := by
      rintro rfl
      cases hc
    have hplus : c ≠ '+' := by
      rintro rfl
      cases hc
    have hdigits := getDigits_toDigits n hrest
    rw [getInt, intChars, dropWhile_toDigits n hbs]
    rw [hcs, List.cons_append] at hdigits ⊢
    split
    · next h => exact absurd (List.cons.inj h).1 hminus
    · next h => exact absurd (List.cons.inj h).1 hplus
    · rw [hdigits]
      rfl
  | negSucc n =>
    have hdrop : (bs ++ ('-' :: Nat.toDigits 10 (n + 1) ++ rest)).dropWhile isBlank =
        '-' :: (Nat.toDigits 10 (n + 1) ++ rest) := by
      rw [dropWhile_blanks hbs]
      rfl
    rw [getInt, intChars, hdrop]
    show (getDigits _).map _ = _
    rw [getDigits_toDigits (n + 1) hrest]
    rfl

theorem delimited_pure (a : α) : Delimited (pure a) [] a := fun bs _ hbs => ⟨bs, hbs, rfl⟩

theorem Delimited.finds (h : Delimited r t a) : Finds r t a := fun bs rest hbs _ => h bs rest hbs

/-- A separator closes a text. -/
theorem Finds.delimit (h : Finds r t a) (hc : isBlank c = true) : Delimited r (t ++ [c]) a := by
  intro bs rest hbs
  obtain ⟨bs', hbs', hr⟩ := h bs (c :: rest) hbs (by simpa [BlankNext] using hc)
  refine ⟨bs' ++ [c], ?_, ?_⟩
  · intro d hd
    rcases List.mem_append.mp hd with hd | hd
    · exact hbs' d hd
    · rw [List.mem_singleton.mp hd, hc]
  · simpa using hr

theorem bind_run {cs cs' : List Char} (h : r cs = some (a, cs')) : (r >>= f) cs = f a cs' := by
  show (r cs).bind _ = _
  rw [h]
  rfl

theorem Delimited.bind (h : Delimited r t a) (h' : Delimited (f a) t' b) :
    Delimited (r >>= f) (t ++ t') b := by
  intro bs rest hbs
  obtain ⟨bs', hbs', hr⟩ := h bs (t' ++ rest) hbs
  rw [List.append_assoc, bind_run hr]
  exact h' bs' rest hbs'

theorem Delimited.bind_last (h : Delimited r t a) (h' : Delimited (f a) [] b) :
    Delimited (r >>= f) t b := by
  simpa using h.bind h'

theorem Delimited.bind_finds (h : Delimited r t a) (h' : Finds (f a) t' b) :
    Finds (r >>= f) (t ++ t') b := by
  intro bs rest hbs hrest
  obtain ⟨bs', hbs', hr⟩ := h bs (t' ++ rest) hbs
  rw [List.append_assoc, bind_run hr]
  exact h' bs' rest hbs' hrest

theorem Finds.bind (h : Finds r t a) (hnext : BlankNext t') (h' : Finds (f a) t' b) :
    Finds (r >>= f) (t ++ t') b := by
  intro bs rest hbs hrest
  have hnext' : BlankNext (t' ++ rest) := by
    cases t' with
    | nil => exact hrest
    | cons c t' => simpa [BlankNext] using hnext
  obtain ⟨bs', hbs', hr⟩ := h bs (t' ++ rest) hbs hnext'
  rw [List.append_assoc, bind_run hr]
  exact h' bs' rest hbs' hrest

/-- The last item of a text. -/
theorem Finds.bind_last (h : Finds r t a) (h' : Finds (f a) [] b) : Finds (r >>= f) t b := by
  simpa using h.bind (by simp [BlankNext]) h'

/-- An item with its separator, in front of others. -/
theorem Finds.bind_sep (h : Finds r t a) (hc : isBlank c = true) (h' : Delimited (f a) t' b) :
    Delimited (r >>= f) (t ++ c :: t') b := by
  simpa using (h.delimit hc).bind h'

theorem Finds.bind_sep_finds (h : Finds r t a) (hc : isBlank c = true) (h' : Finds (f a) t' b) :
    Finds (r >>= f) (t ++ c :: t') b := by
  simpa using (h.delimit hc).bind_finds h'

/-- Items with a separator behind each. -/
theorem delimited_many (hc : isBlank c = true) (h : ∀ x ∈ l, Finds r (w x) x) :
    Delimited (getMany r l.length) (l.flatMap fun x => w x ++ [c]) l := by
  induction l with
  | nil => exact delimited_pure []
  | cons x l ih =>
    obtain ⟨hx, hl⟩ := List.forall_mem_cons.mp h
    rw [List.flatMap_cons, List.append_assoc, List.singleton_append]
    have hrest : Delimited (getMany r l.length >>= fun xs => pure (x :: xs))
      (l.flatMap fun x => w x ++ [c]) (x :: l) := (ih hl).bind_last (delimited_pure (x :: l))
    exact Finds.bind_sep (f := fun x => getMany r l.length >>= fun xs => pure (x :: xs)) hx hc hrest

/-- Items with a separator in front of each. -/
theorem finds_many (hc : isBlank c = true) (h : ∀ x ∈ l, Finds r (w x) x) :
    Finds (getMany r l.length) (l.flatMap fun x => c :: w x) l := by
  induction l with
  | nil => exact (delimited_pure []).finds
  | cons x l ih =>
    obtain ⟨hx, hl⟩ := List.forall_mem_cons.mp h
    have hnext : BlankNext (l.flatMap fun x => c :: w x) := by
      cases l with
      | nil => simp [BlankNext]
      | cons y l => simpa [BlankNext] using hc
    have hrest : Finds (getMany r l.length >>= fun xs => pure (x :: xs))
      (l.flatMap fun x => c :: w x) (x :: l) :=
      (ih hl).bind_last (delimited_pure (x :: l)).finds
    intro bs rest hbs hr
    have hbs' : Blanks (bs ++ [c]) := by
      intro d hd
      rcases List.mem_append.mp hd with hd | hd
      · exact hbs d hd
      · rw [List.mem_singleton.mp hd, hc]
    obtain ⟨bs', hblanks, hrun⟩ :=
      Finds.bind (f := fun x => getMany r l.length >>= fun xs => pure (x :: xs)) hx hnext hrest
        (bs ++ [c]) rest hbs' hr
    refine ⟨bs', hblanks, ?_⟩
    rw [List.length_cons, getMany, List.flatMap_cons]
    simpa only [List.append_assoc, List.cons_append, List.nil_append] using hrun

end

end Rmdb
