import Rmdb.Parser.Grammar

/-!
# The tables are those of the grammar

The functions of `yyparse` that read the tables (`parser/yacc.tab.cpp`), and the certificates of
`Lib/Lr` for them: the sets of lookaheads, the edges of the automaton, ranks and weights are data
here, and the kernel checks them.
-/

namespace Rmdb.Yacc

open Lexer Ast Lr

/-! ## Reading the tables -/

/-- `yydefault`. -/
def yydefault (s : ℕ) : Lr.Action ℕ ℕ :=
  if yydefact.getD s 0 = 0 then .error else .reduce (yydefact.getD s 0)

/-- `yybackup`: what to do in a state, with the next token if it has been read. -/
def yybackup (s : ℕ) (token : Option (Fin 59)) : Lr.Action ℕ ℕ :=
  if yypact.getD s YYPACT_NINF = YYPACT_NINF then yydefault s
  else
    match token with
    | none => .read
    | some yytoken =>
      let yyn := yypact.getD s YYPACT_NINF + yytoken.val
      if yyn < 0 ∨ YYLAST < yyn ∨ yycheck.getD yyn.toNat (-1) ≠ yytoken.val then yydefault s
      else if yytable.getD yyn.toNat 0 ≤ 0 then .reduce (-yytable.getD yyn.toNat 0).toNat
      else .shift (yytable.getD yyn.toNat 0).toNat

/-- The state after a reduction to the nonterminal number `yylhs`. -/
def yygoto (s yylhs : ℕ) : ℕ :=
  let yyi := yypgoto.getD yylhs 0 + s
  if 0 ≤ yyi ∧ yyi ≤ YYLAST ∧ yycheck.getD yyi.toNat (-1) = s then (yytable.getD yyi.toNat 0).toNat
  else yydefgoto.getD yylhs 0

/-- The grammar of `parser/yacc.y`. -/
def grammar : NamedGrammar Token (Fin 59) Nonterm ℕ :=
  ⟨yytranslate, fun r => (rule r).map Rule.prod, .start⟩

/-- The tables of `parser/yacc.tab.cpp`. -/
def tables : Lr.Tables (Fin 59) Nonterm ℕ ℕ := ⟨yybackup, fun s A => yygoto s A.ctorIdx, 0⟩

/-! ## Certificates -/

/-- The tokens that a nonterminal may begin with, one bit for each, and the bit of `none` when it
may be empty. -/
def headTable : List (Nonterm × ℕ) :=
  [(.accept, 70436392544080), (.start, 70436392544080), (.stmt, 64427140944),
    (.txnStmt, 64424509440),
    (.dbStmt, 16), (.ddl, 832), (.dml, 2630656), (.fieldList, 140737488355328),
      (.colNameList, 140737488355328),
    (.field, 140737488355328), (.type, 130023424), (.valueList, 1970324836974592),
      (.value, 1970324836974592),
    (.condition, 140737488355328), (.optWhereClause, 262145), (.whereClause, 140737488355328),
    (.col, 140737488355328), (.op, 504464730916651008), (.expr, 2111062325329920),
      (.setClauses, 140737488355328),
    (.setClause, 140737488355328), (.selector, 576603551376080896),
      (.selectorList, 142799072657408),
    (.selectorItem, 142799072657408), (.optAsAlias, 2199023255553), (.tableList, 140737488355328),
    (.opt_order_clause, 65537), (.order_clause, 140737488355328), (.order_item, 140737488355328),
    (.opt_limit_clause, 4398046511105), (.opt_asc_desc, 33281), (.tbName, 140737488355328),
    (.colName, 140737488355328)]

/-- The nonterminals that may come in a state, and the tokens that may come after them there. -/
def expectTable : List (ℕ × Nonterm × ℕ) :=
  [(0, .start, 1152921504606846975), (0, .stmt, 2251799813685248), (0, .txnStmt, 2251799813685248),
    (0, .dbStmt, 2251799813685248), (0, .ddl, 2251799813685248), (0, .dml, 2251799813685248),
    (4, .tbName, 2251799813685248), (7, .tbName, 1048576), (8, .col, 18016597532753920),
      (8, .selector, 16384),
    (8, .selectorList, 18014398509498368), (8, .selectorItem, 18014398509498368),
      (8, .tbName, 36028797018963968),
    (8, .colName, 18016597532753920), (24, .tbName, 4503599627370496),
      (25, .tbName, 4503599627370496),
    (26, .tbName, 2251799813685248), (27, .tbName, 4503599627370496), (30, .tbName, 4096),
    (31, .tbName, 2251799813947392), (39, .optAsAlias, 18014398509498368),
      (47, .tbName, 2251799813685248),
    (53, .optWhereClause, 2251799813685248), (54, .setClauses, 20266198323429376),
    (54, .setClause, 20266198323429376), (54, .colName, 72057594037927936),
      (55, .col, 9007199254740992),
    (55, .tbName, 36028797018963968), (55, .colName, 9007199254740992),
      (56, .col, 9007199254740992),
    (56, .tbName, 36028797018963968), (56, .colName, 9007199254740992),
      (57, .col, 9007199254740992),
    (57, .tbName, 36028797018963968), (57, .colName, 9007199254740992),
      (58, .col, 9007199254740992),
    (58, .tbName, 36028797018963968), (58, .colName, 9007199254740992),
      (59, .colName, 18014398509498368),
    (61, .tableList, 20270596906876928), (61, .tbName, 20270596906876928),
      (62, .col, 18016597532753920),
    (62, .selectorItem, 18014398509498368), (62, .tbName, 36028797018963968),
      (62, .colName, 18016597532753920),
    (63, .colName, 533744725832876544), (65, .fieldList, 27021597764222976),
      (65, .field, 27021597764222976),
    (65, .colName, 130023424), (66, .colNameList, 27021597764222976),
      (66, .colName, 27021597764222976),
    (67, .colNameList, 27021597764222976), (67, .colName, 27021597764222976),
      (69, .condition, 2256198128697344),
    (69, .whereClause, 2256198128697344), (69, .col, 504464730916651008),
      (69, .tbName, 36028797018963968),
    (69, .colName, 504464730916651008), (72, .optWhereClause, 2251799813685248),
    (81, .optWhereClause, 2256197860261888), (87, .type, 27021597764222976),
      (91, .valueList, 27021597764222976),
    (91, .value, 27021597764222976), (94, .op, 2111062325329920),
      (95, .setClause, 20266198323429376),
    (95, .colName, 72057594037927936), (97, .value, 20266198323429376),
      (98, .optAsAlias, 18014398509498368),
    (99, .optAsAlias, 18014398509498368), (100, .optAsAlias, 18014398509498368),
    (101, .optAsAlias, 18014398509498368), (102, .optAsAlias, 18014398509498368),
      (103, .tbName, 20270596906876928),
    (104, .tbName, 20270596906876928), (105, .opt_order_clause, 2256197860196352),
      (107, .field, 27021597764222976),
    (107, .colName, 130023424), (115, .colName, 27021597764222976),
      (122, .condition, 2256198128697344),
    (122, .col, 504464730916651008), (122, .tbName, 36028797018963968),
      (122, .colName, 504464730916651008),
    (129, .value, 2256198128697344), (129, .col, 2256198128697344), (129, .expr, 2256198128697344),
    (129, .tbName, 36028797018963968), (129, .colName, 2256198128697344),
    (140, .opt_limit_clause, 2251799813685248), (145, .value, 27021597764222976),
      (150, .col, 20270596369711616),
    (150, .order_clause, 20270596369678336), (150, .order_item, 20270596369678336),
    (150, .tbName, 36028797018963968), (150, .colName, 20270596369711616),
      (155, .opt_asc_desc, 20270596369678336),
    (163, .col, 20270596369711616), (163, .order_item, 20270596369678336),
      (163, .tbName, 36028797018963968),
    (163, .colName, 20270596369711616)]

/-- The states that a state is entered from. -/
def predTable : List (List ℕ) :=
  [[], [0], [0], [0], [0], [0], [0], [0], [0], [0], [0], [0], [0], [0], [0], [0], [], [0], [0], [0],
    [0], [0], [1], [1], [2], [2], [3], [3], [4, 7, 24, 25, 26, 27, 30, 31, 47, 61, 103, 104], [4],
    [5], [6], [7], [8, 62], [8, 62], [8, 62], [8, 62], [8, 55, 56, 57, 58, 62, 69, 122, 129, 150,
    163], [8], [8, 62], [8], [8], [8], [8, 55, 56, 57, 58, 62, 69, 122, 129, 150, 163], [8, 55, 56,
    57, 58, 62, 69, 122, 129, 150, 163], [16], [17], [23], [24], [25], [26], [27], [30], [31], [32],
    [33], [34], [35], [36], [39, 98, 99, 100, 101, 102], [39], [40], [41], [43], [47], [48], [49],
    [51], [52], [53, 72, 81], [53], [54, 59, 63, 65, 66, 67, 95, 107, 115], [54], [54], [54, 95],
    [55], [55], [56], [57], [58], [59], [61], [61], [62], [63], [65], [65], [65, 107], [66], [66,
    67], [67], [68], [69], [69], [69, 122], [72], [72], [74], [75], [76], [77], [78], [79], [81],
    [81], [81], [85], [85], [87], [87], [87], [87], [87], [87], [88], [88, 90], [90], [91, 97, 129,
    145], [91, 97, 129, 145], [91, 97, 129, 145], [91], [91], [93], [94], [94], [94], [94], [94],
    [94], [94], [95], [97], [98], [99], [100], [101], [102], [103], [104], [105], [105], [107],
    [110], [115], [120], [120], [122], [129], [129], [129], [139], [140], [140], [142], [145], [150,
    163], [150], [150], [151], [153], [155], [155], [155], [156], [163]]

/-- The longest way to a state. -/
def rankTable : List ℕ :=
  [0, 1, 1, 1, 1, 1, 1, 1, 1, 1, 1, 1, 1, 1, 1, 1, 0, 1, 1, 1, 1, 1, 2, 2, 2, 2, 2, 2, 6, 2, 2, 2,
    2, 4, 4, 4, 4, 10, 2, 4, 2, 2, 2, 10, 10, 1, 2, 3, 3, 3, 3, 3, 3, 3, 3, 5, 5, 5, 5, 8, 5, 3, 3,
    11, 4, 4, 4, 4, 4, 5, 4, 12, 4, 4, 6, 6, 6, 6, 6, 6, 9, 4, 4, 4, 12, 5, 5, 7, 5, 5, 5, 5, 6, 6,
    8, 5, 5, 7, 7, 7, 7, 7, 7, 5, 5, 5, 6, 6, 8, 8, 8, 8, 8, 8, 6, 6, 6, 10, 10, 10, 6, 6, 7, 9, 9,
    9, 9, 9, 9, 9, 6, 8, 8, 8, 8, 8, 8, 6, 6, 6, 6, 7, 9, 7, 7, 7, 8, 10, 10, 10, 7, 7, 7, 10, 8,
    10, 8, 8, 8, 11, 11, 11, 11, 9, 10]

/-- A derivation from a nonterminal has at most five nodes for each token, and these. -/
def weightTable : List (Nonterm × ℕ) :=
  [(.stmt, 1), (.fieldList, 2), (.colNameList, 1), (.field, 1), (.valueList, 1), (.condition, 4),
    (.optWhereClause, 1), (.whereClause, 5), (.col, 1), (.expr, 2), (.setClauses, 1),
      (.selector, 5),
    (.selectorList, 4), (.selectorItem, 3), (.optAsAlias, 1), (.tableList, 1),
      (.opt_order_clause, 1),
    (.order_clause, 4), (.order_item, 3), (.opt_limit_clause, 1), (.opt_asc_desc, 1)]

def code : Option (Fin 59) → ℕ
  | none => 0
  | some t => t.val + 1

def headMask (A : Nonterm) : ℕ := (headTable.lookup A).getD 0

def expectMask (s : ℕ) (A : Nonterm) : ℕ :=
  ((expectTable.find? fun e => e.1 == s && e.2.1 == A).map (·.2.2)).getD 0

def heads (A : Nonterm) (a : Option (Fin 59)) : Prop := (headMask A).testBit (code a)

def expects (s : ℕ) (A : Nonterm) (a : Option (Fin 59)) : Prop := (expectMask s A).testBit (code a)

/-- The tokens of `Starts`. -/
def startMask : List Sym → ℕ → ℕ
  | [], m => m
  | .terminal t :: _, _ => 1 <<< (t.val + 1)
  | .nonterminal A :: β, m =>
    (headMask A >>> 1) <<< 1 ||| if (headMask A).testBit 0 then startMask β m else 0

theorem starts_iff (β : List Sym) (m : ℕ) (a : Option (Fin 59)) :
    Starts heads β (fun a => m.testBit (code a)) a ↔ (startMask β m).testBit (code a) := by
  induction β with
  | nil => exact Iff.rfl
  | cons Y β ih =>
    cases Y with
    | terminal t =>
      cases a with
      | none => simp [Starts, startMask, code]
      | some u =>
        simp [Starts, startMask, code, Nat.one_shiftLeft, Nat.testBit_two_pow, eq_comm, Fin.ext_iff]
    | nonterminal A =>
      have hfirst : ((headMask A >>> 1) <<< 1).testBit (code a) = true ↔ a ≠ none ∧ heads A a := by
        cases a with
        | none => simp [code]
        | some u => simp [code, heads, Nat.testBit_shiftLeft, Nat.testBit_shiftRight, Nat.add_comm]
      rw [startMask, Nat.testBit_or, Bool.or_eq_true, hfirst]
      simp only [Starts, ih]
      refine or_congr Iff.rfl ?_
      by_cases hnil : (headMask A).testBit 0
      · rw [if_pos hnil]
        exact and_iff_right hnil
      · rw [if_neg hnil]
        simp [heads, code, hnil]

theorem testBit_of_subset {m m' : ℕ} (h : m &&& m' = m) {i : ℕ} (hi : m.testBit i) :
    m'.testBit i := by
  rw [← h, Nat.testBit_and, Bool.and_eq_true] at hi
  exact hi.2

def lookaheads : List (Option (Fin 59)) := none :: (List.finRange 59).map some

theorem mem_lookaheads (a : Option (Fin 59)) : a ∈ lookaheads := by
  cases a with
  | none => exact List.mem_cons_self
  | some t => exact List.mem_cons_of_mem _ (List.mem_map_of_mem (List.mem_finRange t))

/-- The check of `Walk`. -/
def walks (r : ℕ) : ℕ → List Sym → ℕ → Bool
  | s, [], m => lookaheads.all fun a => !m.testBit (code a) || yybackup s a == .reduce r
  | s, .terminal t :: β, m =>
    match yybackup s (some t) with
    | .shift s' => walks r s' β m
    | _ => false
  | s, .nonterminal A :: β, m =>
    A != .start && (startMask β m &&& expectMask s A == startMask β m) &&
      walks r (yygoto s A.ctorIdx) β m

theorem walk_of_walks {r s m : ℕ} {β : List Sym} (h : walks r s β m = true) :
    Walk grammar tables heads expects r s β fun a => m.testBit (code a) := by
  induction β generalizing s with
  | nil =>
    intro a ha
    have hall := List.all_eq_true.1 h a (mem_lookaheads a)
    rw [ha] at hall
    simpa [tables] using hall
  | cons Y β ih =>
    cases Y with
    | terminal t =>
      simp only [walks] at h
      split at h
      · next s' hshift => exact ⟨s', hshift, ih h⟩
      · cases h
    | nonterminal A =>
      simp only [walks, Bool.and_eq_true, bne_iff_ne, beq_iff_eq] at h
      obtain ⟨⟨hstart, hsub⟩, hrest⟩ := h
      exact ⟨hstart, fun a ha => testBit_of_subset hsub ((starts_iff β m a).1 ha), ih hrest⟩

theorem tables_checked : (expectTable.all fun e => rules.zipIdx.all fun q =>
    q.1.prod.input != e.2.1 || walks (q.2 + 1) e.1 q.1.prod.output e.2.2) = true := by
  decide +kernel

theorem heads_checked : (rules.all fun q =>
    startMask q.prod.output 1 &&& headMask q.prod.input == startMask q.prod.output 1) = true := by
  decide +kernel

theorem mem_rules {r : ℕ} {p : ContextFreeRule (Fin 59) Nonterm} (h : grammar.rule r = some p) :
    ∃ i act, r = i + 1 ∧ rules[i]? = some ⟨p, act⟩ := by
  cases r with
  | zero => cases h
  | succ i =>
    obtain ⟨⟨p', act⟩, hq, rfl⟩ := Option.map_eq_some_iff.1 h
    exact ⟨i, act, rfl, hq⟩

theorem tables_complete : Lr.Complete grammar tables heads expects := by
  refine ⟨?_, ?_, ?_⟩
  · intro r p a hr ha
    obtain ⟨i, act, rfl, hq⟩ := mem_rules hr
    have hsub := List.all_eq_true.1 heads_checked _ (List.mem_of_getElem? hq)
    have hone : (fun a : Option (Fin 59) => a = none) = fun a =>
        (1 : ℕ).testBit (code a) = true := by
      funext a
      cases a with
      | none => simp [code]
      | some t => simp [code, Nat.testBit_succ]
    rw [hone] at ha
    exact testBit_of_subset (beq_iff_eq.1 hsub) ((starts_iff _ _ _).1 ha)
  · intro a
    have hall : (lookaheads.all fun a => (expectMask 0 .start).testBit (code a)) = true := by
      decide +kernel
    exact List.all_eq_true.1 hall a (mem_lookaheads a)
  · intro s r p a hr ha
    obtain ⟨i, act, rfl, hq⟩ := mem_rules hr
    cases hfind : expectTable.find? fun e => e.1 == s && e.2.1 == p.input with
    | none => simp [expects, expectMask, hfind] at ha
    | some e =>
      have hmask : expectMask s p.input = e.2.2 := by simp [expectMask, hfind]
      have hkey := List.find?_some hfind
      rw [Bool.and_eq_true, beq_iff_eq, beq_iff_eq] at hkey
      have hcheck := List.all_eq_true.1
        (List.all_eq_true.1 tables_checked e (List.mem_of_find?_eq_some hfind)) (⟨p, act⟩, i)
        (List.mk_mem_zipIdx_iff_getElem?.2 hq)
      rw [hkey.1, hkey.2] at hcheck
      simp only [bne_self_eq_false, Bool.false_or] at hcheck
      have hwalk := walk_of_walks hcheck
      rw [← hmask] at hwalk
      exact hwalk

theorem tables_eager : tables.Eager := by
  intro s t h
  simp only [tables, yybackup] at h ⊢
  split_ifs at h ⊢ with hninf
  · rfl
  all_goals exact absurd rfl h

/-! ## Soundness -/

def nonterms : List Nonterm :=
  [.accept, .start, .stmt, .txnStmt, .dbStmt, .ddl, .dml, .fieldList, .colNameList, .field, .type,
    .valueList, .value,
    .condition, .optWhereClause, .whereClause, .col, .op, .expr, .setClauses, .setClause, .selector,
      .selectorList,
    .selectorItem, .optAsAlias, .tableList, .opt_order_clause, .order_clause, .order_item,
      .opt_limit_clause,
    .opt_asc_desc, .tbName, .colName]

/-- The symbol with a number. -/
def symbolOf (i : ℕ) : Sym := if h :
    i < 59 then .terminal ⟨i, h⟩ else .nonterminal (nonterms.getD (i - 59) .accept)

/-- `YY_ACCESSING_SYMBOL`. -/
def access (s : ℕ) : Option Sym := if s = 0 then none else some (symbolOf (yystos.getD s 0))

def preds (s : ℕ) : List ℕ := predTable.getD s []

def edge (p s : ℕ) : Prop := p ∈ preds s

/-- The check of `Back`. -/
def backs (B : Nonterm) : ℕ → List Sym → Bool
  | s, [] =>
    if B = .start then s == 0
    else access (yygoto s B.ctorIdx) == some (.nonterminal B) &&
      (preds (yygoto s B.ctorIdx)).contains s
  | s, Y :: β => access s == some Y && (preds s).all fun p => backs B p β

theorem back_of_backs {B : Nonterm} {s : ℕ} {β : List Sym} (h : backs B s β = true) :
    Back grammar tables access edge B s β := by
  induction β generalizing s with
  | nil =>
    simp only [backs] at h
    split_ifs at h with hB
    · exact ⟨fun _ => beq_iff_eq.1 h, fun hne => absurd hB hne⟩
    · rw [Bool.and_eq_true, beq_iff_eq, List.contains_iff_mem] at h
      exact ⟨fun heq => absurd heq hB, fun _ => h⟩
  | cons Y β ih =>
    simp only [backs, Bool.and_eq_true, beq_iff_eq, List.all_eq_true] at h
    exact ⟨h.1, fun p hp => ih (h.2 p hp)⟩

def reducible (s r : ℕ) : Bool :=
  match rule r with
  | some q => backs q.prod.input s q.prod.output.reverse
  | none => false

/-- The check of what is done in a state. -/
def actsWell (s : ℕ) : Lr.Action ℕ ℕ → Option (Fin 59) → Bool
  | .shift s', some t => access s' == some (.terminal t) && (preds s').contains s
  | .shift _, none => false
  | .reduce r, _ => (r == yydefact.getD s 0 && r != 0) || reducible s r
  | .error, _ => true
  | .read, _ => true

theorem actions_checked :
    ((List.range 165).all fun s => lookaheads.all fun a => actsWell s (yybackup s a) a) = true := by
  decide +kernel

theorem defaults_checked :
    ((List.range 165).all fun s => yydefact.getD s 0 == 0 || reducible s (yydefact.getD s 0)) =
    true := by
  decide +kernel

theorem yybackup_of_le {s : ℕ} (h : 165 ≤ s) (a : Option (Fin 59)) : yybackup s a = .error := by
  have hpact : yypact.getD s YYPACT_NINF = YYPACT_NINF := by
    rw [List.getD_eq_default]
    exact h
  have hdefact : yydefact.getD s 0 = 0 := by
    rw [List.getD_eq_default]
    exact h
  unfold yybackup yydefault
  rw [if_pos hpact, if_pos hdefact]

theorem actsWell_yybackup (s : ℕ) (a : Option (Fin 59)) : actsWell s (yybackup s a) a = true := by
  by_cases hs : s < 165
  · exact List.all_eq_true.1 (List.all_eq_true.1 actions_checked s (List.mem_range.2 hs)) a
      (mem_lookaheads a)
  · rw [yybackup_of_le (not_lt.1 hs)]
    rfl

theorem lt_of_yybackup {s r : ℕ} {a : Option (Fin 59)} (h : yybackup s a = .reduce r) :
    s < 165 := by
  by_contra hs
  rw [yybackup_of_le (not_lt.1 hs)] at h
  cases h

theorem tables_sound : Sound grammar tables access edge := by
  refine ⟨rfl, ?_, ?_⟩
  · intro s t s' h
    have hwell := actsWell_yybackup s (some t)
    rw [show yybackup s (some t) = .shift s' from h] at hwell
    simp only [actsWell, Bool.and_eq_true, beq_iff_eq, List.contains_iff_mem] at hwell
    exact hwell
  · intro s a r h
    have hs := lt_of_yybackup h
    have hred : reducible s r = true := by
      have hwell := actsWell_yybackup s a
      rw [show yybackup s a = .reduce r from h] at hwell
      simp only [actsWell, Bool.or_eq_true, Bool.and_eq_true, beq_iff_eq, bne_iff_ne] at hwell
      rcases hwell with ⟨rfl, hne⟩ | hred
      · have hdefault := List.all_eq_true.1 defaults_checked s (List.mem_range.2 hs)
        rw [Bool.or_eq_true, beq_iff_eq] at hdefault
        exact hdefault.resolve_left hne
      · exact hred
    unfold reducible at hred
    split at hred
    · next q hq => exact ⟨q.prod, by simp [grammar, hq], back_of_backs hred⟩
    · cases hred

/-! ## Bounds -/

def rank (s : ℕ) : ℕ := rankTable.getD s 0

def weight (A : Nonterm) : ℕ := (weightTable.lookup A).getD 0

theorem ranks_checked : ((List.range 165).all fun s => rank s ≤ 12 && (preds s).all fun p =>
      rank p < rank s) = true := by
  decide +kernel

theorem weights_checked : (rules.all fun q =>
    Derivation.weightOf weight q.prod.output + 1 ≤
    weight q.prod.input + 5 * Derivation.terminals q.prod.output) =
      true := by
  decide +kernel

theorem tables_bounded : Bounded grammar edge rank weight 12 5 5 := by
  refine ⟨?_, ?_, ?_, ?_⟩
  · intro p s hp
    by_cases hs : s < 165
    · have hall := List.all_eq_true.1 ranks_checked s (List.mem_range.2 hs)
      rw [Bool.and_eq_true, List.all_eq_true] at hall
      exact of_decide_eq_true (hall.2 p hp)
    · have hnil : preds s = [] := by
        rw [preds, List.getD_eq_default]
        exact not_lt.1 hs
      rw [edge, hnil] at hp
      cases hp
  · intro s
    by_cases hs : s < 165
    · have hall := List.all_eq_true.1 ranks_checked s (List.mem_range.2 hs)
      rw [Bool.and_eq_true] at hall
      exact of_decide_eq_true hall.1
    · rw [rank, List.getD_eq_default]
      · exact Nat.zero_le _
      · exact not_lt.1 hs
  · intro r p hr
    obtain ⟨i, act, rfl, hq⟩ := mem_rules hr
    exact of_decide_eq_true (List.all_eq_true.1 weights_checked _ (List.mem_of_getElem? hq))
  · intro A
    cases A <;> decide

end Rmdb.Yacc
