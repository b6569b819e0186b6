import Rmdb.Defs
import Rmdb.Lib.Decimal
import Rmdb.Lib.Scanner

/-!
# The scanner and its start condition

The rules of `parser/lex.l`, and what `client_handler` (`rmdb.cpp`) does with the text of a request
up to the parse tree: `yy_scan_string` puts the text before the scanner, and `yyparse` takes tokens
until it accepts or finds a syntax error.  The start condition is a static variable of the scanner,
set by the rules of block comments only, and it is there still when the next request comes.  The
parser is a parameter: its result is a function of the tokens that it has taken, it takes a first
token and none after `T_EOF`, which `yacc.y` accepts as the whole text and refuses elsewhere.
-/

namespace Rmdb

namespace Lexer

/-- The start conditions; `STATE_COMMENT` is exclusive. -/
inductive StartCond
  | INITIAL
  | STATE_COMMENT
deriving DecidableEq, Repr

/-- The tokens of the keywords. -/
inductive Keyword
  | SHOW | TXN_BEGIN | TXN_COMMIT | TXN_ABORT | TXN_ROLLBACK | TABLES | CREATE | TABLE | DROP | DESC
  | INSERT | INTO | VALUES | DELETE | FROM | WHERE | UPDATE | SET | SELECT | INT | BIGINT | CHAR
  | FLOAT | DATETIME | INDEX | AND | JOIN
  | EXIT | HELP | ORDER | BY | ASC | COUNT | SUM | MAX | MIN | AS | LIMIT
deriving DecidableEq, Repr

/-- The tokens with their values; a `VALUE_FLOAT` has the text of which `atof` makes the number. -/
inductive Token
  | keyword (k : Keyword)
  | GEQ
  | LEQ
  | NEQ
  | op (c : UInt8)
  | IDENTIFIER (s : Bytes)
  | VALUE_INT (s : Bytes)
  | VALUE_FLOAT (s : Bytes)
  | VALUE_STRING (s : Bytes)
  | T_EOF
deriving DecidableEq, Repr

/-- A rule of `lex.l`. -/
abbrev Rule := LexRule UInt8 Token StartCond

/-! ## Patterns -/

/-- The bytes of a text in ASCII. -/
def bytes (s : String) : Bytes := s.toList.map Char.toUInt8

def isAlpha (c : UInt8) : Bool :=
  'a'.toUInt8 ≤ c && c ≤ 'z'.toUInt8 || 'A'.toUInt8 ≤ c && c ≤ 'Z'.toUInt8

def toLower (c : UInt8) : UInt8 := if 'A'.toUInt8 ≤ c && c ≤ 'Z'.toUInt8 then c + 32 else c

/-- A quoted text of `lex.l`, in upper or lower case. -/
def lit (s : String) (t : Bytes) : Bool := t.map toLower == (bytes s).map toLower

/-- One character of a class. -/
def oneOf (p : UInt8 → Bool) (t : Bytes) : Bool := t.length == 1 && t.all p

/-- Any character but the end of a line. -/
def dot (c : UInt8) : Bool := c != '\n'.toUInt8

def lineComment (t : Bytes) : Bool := t.take 2 == bytes "--" && (t.drop 2).all dot

def whiteSpace (t : Bytes) : Bool := t != [] && t.all fun c => c == ' '.toUInt8 || c == '\t'.toUInt8

def newLine (t : Bytes) : Bool := t == bytes "\r" || t == bytes "\n" || t == bytes "\r\n"

def singleOp : Bytes → Bool := oneOf (bytes ";(),*=><.").contains

def identifier (t : Bytes) : Bool :=
  (t.take 1).all isAlpha && t != [] && t.all fun c => c == '_'.toUInt8 || isAlpha c || isDigit c

/-- The text without a sign before it. -/
def dropSign (t : Bytes) : Bytes := if (bytes "+-").any (t.head? == some ·) then t.tail else t

def valueInt (t : Bytes) : Bool := dropSign t != [] && (dropSign t).all isDigit

def valueFloat (t : Bytes) : Bool :=
  (dropSign t).takeWhile isDigit != [] && (((dropSign t).dropWhile isDigit).take 1 == bytes "." &&
    (((dropSign t).dropWhile isDigit).drop 1).all isDigit)

/-- The single quote. -/
def QUOTE : UInt8 := 39

def valueString (t : Bytes) : Bool :=
  2 ≤ t.length && t.head? == some QUOTE && t.getLast? == some QUOTE && t.tail.dropLast.all
    (· != QUOTE)

/-! ## Rules -/

def skips (pattern : Bytes → Bool) : Rule where
  pattern := pattern
  action _ := .skip

def enters (pattern : Bytes → Bool) (cond : StartCond) : Rule where
  pattern := pattern
  action _ := .enter cond

def returns (pattern : Bytes → Bool) (token : Bytes → Token) : Rule where
  pattern := pattern
  action text := .ret (token text)

/-- The keywords in the order of `lex.l`. -/
def keywords : List (String × Keyword) :=
  [("SHOW", .SHOW), ("BEGIN", .TXN_BEGIN), ("COMMIT", .TXN_COMMIT), ("ABORT", .TXN_ABORT),
    ("ROLLBACK", .TXN_ROLLBACK),
    ("TABLES", .TABLES), ("CREATE", .CREATE), ("TABLE", .TABLE), ("DROP", .DROP), ("DESC", .DESC),
      ("INSERT", .INSERT),
    ("INTO", .INTO), ("VALUES", .VALUES), ("DELETE", .DELETE), ("FROM", .FROM), ("WHERE", .WHERE),
      ("UPDATE", .UPDATE),
    ("SET", .SET), ("SELECT", .SELECT), ("INT", .INT), ("BIGINT", .BIGINT), ("CHAR", .CHAR),
      ("FLOAT", .FLOAT),
    ("DATETIME", .DATETIME), ("INDEX", .INDEX), ("AND", .AND), ("JOIN", .JOIN), ("EXIT", .EXIT),
      ("HELP", .HELP),
    ("ORDER", .ORDER), ("BY", .BY), ("ASC", .ASC), ("COUNT", .COUNT), ("SUM", .SUM), ("MAX", .MAX),
      ("MIN", .MIN),
    ("AS", .AS), ("LIMIT", .LIMIT)]

/-- The rules of `INITIAL` after the one that opens a block comment.  The last one reports the
character on the console of the server and goes on. -/
def plainRules : List Rule :=
  [skips lineComment, skips whiteSpace, skips newLine] ++
    keywords.map (fun (s, k) => returns (lit s) fun _ => .keyword k) ++
    [returns (lit ">=") fun _ => .GEQ, returns (lit "<=") fun _ => .LEQ, returns (lit "<>")
      fun _ => .NEQ,
      returns singleOp fun t => .op (t.headD 0), returns identifier .IDENTIFIER,
        returns valueInt .VALUE_INT,
      returns valueFloat .VALUE_FLOAT, returns valueString fun t => .VALUE_STRING t.tail.dropLast,
        skips (oneOf dot)]

/-- The rules that are active in a start condition, in the order of `lex.l`. -/
def rules : StartCond → List Rule
  | .INITIAL => enters (lit "/*") .STATE_COMMENT :: plainRules
  | .STATE_COMMENT =>
    [enters (lit "*/") .INITIAL, skips (oneOf (· != '*'.toUInt8)), skips (oneOf (· == '*'.toUInt8))]

/-- A parser over the tokens. -/
abbrev Parser (R : Type) := Consumer Token R .T_EOF

variable {R : Type}

/-- After earlier requests a text is parsed, and into the tokens and the statement that it has as
the first request. -/
def ParsedAlone (P : Parser R) (hist : List Bytes) (text : Bytes) : Prop :=
  ∃ ts r, outcome rules P (condAfter rules P .INITIAL hist) text = some (ts, r) ∧
    outcome rules P .INITIAL text = some (ts, r)

/-- At each point of a sequence of requests, whatever the next one is, it is parsed alone. -/
def Independent (P : Parser R) (reqs : List Bytes) : Prop :=
  ∀ hist, hist <+: reqs → ∀ text, ParsedAlone P hist text

/-- The scanner, with the parser still asking for a token, comes to a block comment that the request
does not close. -/
def OpenComment (P : Parser R) (text : Bytes) : Prop :=
  ∃ ts body, Comes rules P ⟨[], .INITIAL, text⟩ ⟨ts, .INITIAL, bytes "/*" ++ body⟩ ∧
    P.result ts = none ∧
    ¬ bytes "*/" <:+: body

/-! ## One match -/

section
variable {c : UInt8} {t input : Bytes} {k : ℕ}

theorem length_of_lit {s : String} (h : lit s t = true) : t.length = (bytes s).length := by
  have hmap := congrArg List.length (eq_of_beq h)
  rwa [List.length_map, List.length_map] at hmap

theorem length_of_oneOf {p : UInt8 → Bool} (h : oneOf p t = true) : t.length = 1 := by
  rw [oneOf, Bool.and_eq_true] at h
  exact eq_of_beq h.1

theorem oneOf_singleton (p : UInt8 → Bool) (c : UInt8) : oneOf p [c] = p c := by
  simp [oneOf]

theorem rules_complete : Complete rules := by
  rintro (_ | _) c
  · by_cases hc : dot c = true
    · exact ⟨skips (oneOf dot), by simp [rules, plainRules], (oneOf_singleton dot c).trans hc⟩
    · refine ⟨skips newLine, by simp [rules, plainRules], ?_⟩
      have hnl : c = '\n'.toUInt8 := by simpa [dot] using hc
      subst hnl
      decide
  · by_cases hc : (c == '*'.toUInt8) = true
    · exact ⟨skips (oneOf (· == '*'.toUInt8)), by simp [rules],
        (oneOf_singleton (· == '*'.toUInt8) c).trans hc⟩
    · refine ⟨skips (oneOf (· != '*'.toUInt8)), by simp [rules],
        (oneOf_singleton (· != '*'.toUInt8) c).trans ?_⟩
      simpa using hc

/-- Only `/*` opens a block comment. -/
theorem action_enter {rule : Rule} {cond : StartCond} (hrule : rule ∈ rules .INITIAL)
    (h : rule.action t = .enter cond) : rule = enters (lit "/*") .STATE_COMMENT := by
  rcases List.mem_cons.1 hrule with rfl | hplain
  · rfl
  · have hkeyword : ∀ rule ∈ keywords.map fun (s, k) => returns (lit s) fun _ => .keyword k,
        rule.action t ≠ .enter cond := by
      intro rule hrule
      obtain ⟨x, -, rfl⟩ := List.mem_map.1 hrule
      exact nofun
    refine absurd h (List.forall_mem_append.2
      ⟨List.forall_mem_append.2 ⟨?_, hkeyword⟩, ?_⟩ rule hplain)
    · simp [skips]
    · simp [skips, returns]

theorem keywords_slash (t : Bytes) : ∀ x ∈ keywords, lit x.1 ('/'.toUInt8 :: t) = false := by
  have hhead : ∀ x ∈ keywords, (bytes x.1).head?.map toLower ≠ some '/'.toUInt8 := by decide
  intro x hx
  by_contra h
  have heq := congrArg List.head? (eq_of_beq (eq_true_of_ne_false h))
  rw [List.head?_map, List.head?_map] at heq
  exact hhead x hx heq.symm

/-- No other rule takes more than the slash of a text that begins with one. -/
theorem plainRules_slash {rule : Rule} (hrule : rule ∈ plainRules)
    (h : rule.pattern ('/'.toUInt8 :: t) = true) : t = [] := by
  have hnot (pattern : Bytes → Bool) (hfalse : pattern ('/'.toUInt8 :: t) = false)
      (htrue : pattern ('/'.toUInt8 :: t) = true) : t = [] := by
    rw [hfalse] at htrue
    cases htrue
  rcases List.mem_append.1 hrule with hrule | hrule
  · rcases List.mem_append.1 hrule with hrule | hrule
    · simp only [List.mem_cons, List.not_mem_nil, or_false] at hrule
      rcases hrule with rfl | rfl | rfl
      · exact hnot lineComment rfl h
      · exact hnot whiteSpace rfl h
      · exact hnot newLine rfl h
    · obtain ⟨x, hx, rfl⟩ := List.mem_map.1 hrule
      exact hnot (lit x.1) (keywords_slash t x hx) h
  · simp only [List.mem_cons, List.not_mem_nil, or_false] at hrule
    rcases hrule with rfl | rfl | rfl | rfl | rfl | rfl | rfl | rfl | rfl
    · exact hnot (lit ">=") rfl h
    · exact hnot (lit "<=") rfl h
    · exact hnot (lit "<>") rfl h
    · exact List.length_eq_zero_iff.1 (Nat.succ.inj (length_of_oneOf h))
    · exact hnot identifier rfl h
    · exact hnot valueInt rfl h
    · exact hnot valueFloat rfl h
    · refine hnot valueString ?_ h
      rw [valueString, List.head?_cons, show (some '/'.toUInt8 == some QUOTE) = false by decide]
      simp
    · exact List.length_eq_zero_iff.1 (Nat.succ.inj (length_of_oneOf h))

theorem bestMatch_open (body : Bytes) : bestMatch (rules .INITIAL) (bytes "/*" ++ body) =
    some (2, enters (lit "/*") .STATE_COMMENT) := by
  refine bestMatch_head (longest_of_length (fun t => length_of_lit) (by decide) rfl) ?_
  intro r hr j _ hpat
  cases j with
  | zero => omega
  | succ j =>
    have hnil : ('*'.toUInt8 :: body).take j = [] := plainRules_slash hr hpat
    have hj := List.take_eq_nil_iff.1 hnil
    simp only [reduceCtorEq, or_false] at hj
    omega

theorem bestMatch_close (rest : Bytes) : bestMatch (rules .STATE_COMMENT) (bytes "*/" ++ rest) =
    some (2, enters (lit "*/") .INITIAL) := by
  refine bestMatch_head (longest_of_length (fun t => length_of_lit) (by decide) rfl) ?_
  intro r hr j hj hpat
  have hone : ((bytes "*/" ++ rest).take j).length = 1 := by
    simp only [List.mem_cons, List.not_mem_nil, or_false] at hr
    rcases hr with rfl | rfl
    · exact length_of_oneOf hpat
    · exact length_of_oneOf hpat
  rw [List.length_take] at hone
  omega

theorem toLower_of_lt (c : UInt8) : toLower c < 'A'.toUInt8 ∨ c < 'A'.toUInt8 → toLower c = c := by
  have hA : 'A'.toUInt8.toNat = 65 := rfl
  have hZ : 'Z'.toUInt8.toNat = 90 := rfl
  have h32 : (32 : UInt8).toNat = 32 := rfl
  rw [UInt8.lt_iff_toNat_lt, UInt8.lt_iff_toNat_lt, toLower]
  split
  · next hc =>
    rw [Bool.and_eq_true, decide_eq_true_eq, decide_eq_true_eq, UInt8.le_iff_toNat_le,
      UInt8.le_iff_toNat_le] at hc
    rw [UInt8.toNat_add]
    omega
  · intro _
    rfl

theorem eq_of_toLower {c b : UInt8} (hb : b < 'A'.toUInt8) (h : toLower c = toLower b) : c = b := by
  rw [toLower_of_lt b (.inr hb)] at h
  rw [← toLower_of_lt c (.inl (h ▸ hb)), h]

/-- A quoted text without letters is matched as it stands. -/
theorem eq_of_lit {s : String} (hs : (bytes s).all (fun b => b < 'A'.toUInt8) = true)
    (h : lit s t = true) : t = bytes s := by
  have heq := eq_of_beq h
  clear h
  generalize bytes s = u at hs heq
  induction u generalizing t with
  | nil => exact List.map_eq_nil_iff.1 heq
  | cons b u ih =>
    obtain ⟨c, t, rfl⟩ := List.exists_cons_of_ne_nil (List.ne_nil_of_length_pos (l := t) (by
      have := congrArg List.length heq
      simp only [List.length_map, List.length_cons] at this
      omega))
    obtain ⟨hc, ht⟩ := List.cons.inj heq
    rw [List.all_cons, Bool.and_eq_true, decide_eq_true_eq] at hs
    rw [eq_of_toLower hs.1 hc, ih hs.2 ht]

theorem bestMatch_inside (h : ¬ bytes "*/" <+: c :: input) :
    ∃ pattern, bestMatch (rules .STATE_COMMENT) (c :: input) = some (1, skips pattern) := by
  obtain ⟨⟨k, rule⟩, hbest⟩ :=
    Option.isSome_iff_exists.1 (bestMatch_isSome (rules_complete .STATE_COMMENT c) input)
  obtain ⟨hrule, hpat⟩ := bestMatch_spec hbest
  have hk := bestMatch_bounds hbest
  have hone (hlen : ((c :: input).take k).length = 1) : k = 1 := by
    rw [List.length_take] at hlen
    omega
  simp only [rules, List.mem_cons, List.not_mem_nil, or_false] at hrule
  rcases hrule with rfl | rfl | rfl
  · refine absurd ?_ h
    rw [← eq_of_lit rfl hpat]
    exact List.take_prefix _ _
  · rw [hbest, hone (length_of_oneOf hpat)]
    exact ⟨_, rfl⟩
  · rw [hbest, hone (length_of_oneOf hpat)]
    exact ⟨_, rfl⟩

end

/-! ## Block comments -/

section
variable {P : Parser R} {ts : List Token} {body text : Bytes} {x y : Point UInt8 Token StartCond}

theorem matchStep_open (hasks : P.result ts = none) (body : Bytes) :
    matchStep rules P ⟨ts, .INITIAL, bytes "/*" ++ body⟩ = some ⟨ts, .STATE_COMMENT, body⟩ := by
  have hstep := matchStep_match (x := ⟨ts, StartCond.INITIAL, bytes "/*" ++ body⟩) hasks
    (bestMatch_open body)
  exact hstep

/-- A comment without an end runs to the end of the request. -/
theorem comes_eof (hasks : P.result ts = none) (hopen : ¬ bytes "*/" <:+: body) :
    Comes rules P ⟨ts, .STATE_COMMENT, body⟩ ⟨ts ++ [.T_EOF], .STATE_COMMENT, []⟩ := by
  induction body with
  | nil => exact .single (matchStep_eof hasks rfl)
  | cons c body ih =>
    rw [List.infix_cons_iff, not_or] at hopen
    obtain ⟨pattern, hbest⟩ := bestMatch_inside hopen.1
    exact .head (matchStep_match hasks hbest) (ih hopen.2)

/-- In a comment: the scanner came to its `/*`, and any end of it is still ahead unless the request
is over. -/
def InComment (P : Parser R) (text : Bytes) (x : Point UInt8 Token StartCond) : Prop :=
  x.cond = .STATE_COMMENT → ∃ ts body, Comes rules P ⟨[], .INITIAL, text⟩
    ⟨ts, .INITIAL, bytes "/*" ++ body⟩ ∧ P.result ts = none ∧
    (x.tokens = ts ∧ (bytes "*/" <:+: body → bytes "*/" <:+: x.input) ∨ ¬ bytes "*/" <:+: body)

theorem inComment_step (hx : Comes rules P ⟨[], .INITIAL, text⟩ x) (h : InComment P text x)
    (hstep : matchStep rules P x = some y) : InComment P text y := by
  obtain ⟨ts, cond, input⟩ := x
  obtain ⟨hasks, ⟨hnil, rfl⟩ | ⟨k, rule, hbest, rfl⟩⟩ := matchStep_cases hstep
  · rintro (rfl : cond = _)
    obtain ⟨ts₀, body, hcomes, hres, ⟨-, hahead⟩ | hnone⟩ := h rfl
    · subst hnil
      refine ⟨ts₀, body, hcomes, hres, .inr fun hinfix => ?_⟩
      exact absurd (List.infix_nil.1 (hahead hinfix)) (by decide)
    · exact ⟨ts₀, body, hcomes, hres, .inr hnone⟩
  · obtain ⟨hrule, hpat⟩ := bestMatch_spec hbest
    cases cond with
    | INITIAL =>
      cases haction : rule.action (input.take k) with
      | skip =>
        intro hcond
        cases hcond
      | ret t =>
        intro hcond
        cases hcond
      | enter cond' =>
        obtain rfl := action_enter hrule haction
        cases haction
        intro _
        refine ⟨ts, input.drop k, ?_, hasks, .inl ⟨rfl, id⟩⟩
        rw [← eq_of_lit rfl hpat, List.take_append_drop]
        exact hx
    | STATE_COMMENT =>
      by_cases hclose : bytes "*/" <+: input
      · obtain ⟨rest, rfl⟩ := hclose
        obtain ⟨-, rfl⟩ := Prod.mk.inj (Option.some.inj ((bestMatch_close rest).symm.trans hbest))
        intro hcond
        cases hcond
      · cases input with
        | nil =>
          have hk := bestMatch_bounds hbest
          simp only [List.length_nil] at hk
          omega
        | cons c input =>
          obtain ⟨pattern, hinside⟩ := bestMatch_inside hclose
          obtain ⟨rfl, rfl⟩ := Prod.mk.inj (Option.some.inj (hinside.symm.trans hbest))
          intro _
          obtain ⟨ts₀, body, hcomes, hres, hor⟩ := h rfl
          refine ⟨ts₀, body, hcomes, hres, hor.imp_left fun ⟨hts, hahead⟩ =>
            ⟨hts, fun hinfix => ?_⟩⟩
          exact (List.infix_cons_iff.1 (hahead hinfix)).resolve_left hclose

theorem inComment_comes (hx : Comes rules P ⟨[], .INITIAL, text⟩ x) : InComment P text x := by
  induction hx with
  | refl =>
    intro hcond
    cases hcond
  | tail hcomes hstep ih => exact inComment_step hcomes ih hstep

/-- A request leaves the scanner in a comment just when it does not close one that the scanner comes
to. -/
theorem condAfter_eq_iff (P : Parser R) (text : Bytes) :
    condAfter rules P .INITIAL [text] = .INITIAL ↔ ¬ OpenComment P text := by
  obtain ⟨ts, rest, r, hend, hres⟩ := condAfter_of_comes (P := P) rules_complete .INITIAL text
  constructor
  · rintro hcond ⟨ts₀, body, hcomes, hasks, hopen⟩
    have heof := (hcomes.tail (matchStep_open hasks body)).trans (comes_eof hasks hopen)
    obtain ⟨r', hr'⟩ := Option.isSome_iff_exists.1 (P.ends ts₀)
    rcases Relation.ReflTransGen.cases_head (hend.before_end heof hr') with heq | ⟨w, hstep, -⟩
    · rw [Point.mk.injEq] at heq
      rw [heq.2.1] at hcond
      cases hcond
    · rw [(matchStep_cases hstep).1] at hres
      cases hres
  · intro hno
    cases hcond : condAfter rules P .INITIAL [text] with
    | INITIAL => rfl
    | STATE_COMMENT =>
      obtain ⟨ts₀, body, hcomes, hasks, ⟨hts, -⟩ | hopen⟩ := inComment_comes hend hcond
      · rw [← hts, hres] at hasks
        cases hasks
      · exact absurd ⟨ts₀, body, hcomes, hasks, hopen⟩ hno

/-- A semicolon is a token outside comments only. -/
theorem outcome_semicolon_ne (P : Parser R) :
    outcome rules P .STATE_COMMENT (bytes ";") ≠ outcome rules P .INITIAL (bytes ";") := by
  obtain ⟨ts, r, h⟩ := outcome_isSome rules_complete P .INITIAL (bytes ";")
  intro heq
  have hinit : ts.head? = some (.op ';'.toUInt8) :=
    outcome_head
      (by decide : nextToken rules .T_EOF _ .INITIAL (bytes ";") = some (_, .INITIAL, [])) h
  have hcomment : ts.head? = some .T_EOF :=
    outcome_head
      (show nextToken rules .T_EOF _ .STATE_COMMENT (bytes ";") = some (_, .STATE_COMMENT, []) by
        decide)
      (heq.trans h)
  rw [hinit] at hcomment
  cases hcomment

end

/-- Requests are parsed alone, one after the other, just when each closes the block comments that
the scanner comes to. -/
theorem requests_independent_iff (P : Parser R) (reqs : List Bytes) :
    Independent P reqs ↔ ∀ req ∈ reqs, ¬ OpenComment P req := by
  have halone (hist : List Bytes) (text : Bytes) : ParsedAlone P hist text ↔
      outcome rules P (condAfter rules P .INITIAL hist) text = outcome rules P .INITIAL text := by
    obtain ⟨ts, r, h⟩ := outcome_isSome rules_complete P .INITIAL text
    constructor
    · rintro ⟨ts', r', hafter, hfirst⟩
      rw [hafter, hfirst]
    · intro heq
      exact ⟨ts, r, heq.trans h, h⟩
  simp only [Independent, halone, ← condAfter_eq_iff]
  refine outcome_alike_iff ?_
  rintro (_ | _) hne
  · exact absurd rfl hne
  · exact ⟨_, outcome_semicolon_ne P⟩

/-- A parser that takes the tokens up to the first semicolon. -/
def upToSemicolon : Parser (List Token) where
  result ts :=
    if ts.getLast? = some .T_EOF ∨ ts.getLast? = some (.op ';'.toUInt8) then some ts else none
  begins := by decide
  ends ts := by simp

/-- After a request that opens a block comment, a statement is read as the end of the input. -/
theorem not_requests_independent :
    ¬ ∀ (P : Parser (List Token)) (reqs : List Bytes), Independent P reqs := by
  intro h
  have hshow := h upToSemicolon [bytes "/*"] [bytes "/*"] (List.prefix_refl _)
    (bytes "show tables;")
  obtain ⟨ts, r, hafter, hfirst⟩ := hshow
  have hcomment : outcome rules upToSemicolon (condAfter rules upToSemicolon .INITIAL [bytes "/*"])
      (bytes "show tables;") = some ([.T_EOF], [.T_EOF]) := by decide +kernel
  have hstatement : outcome rules upToSemicolon .INITIAL (bytes "show tables;") = some
      ([.keyword .SHOW, .keyword .TABLES, .op ';'.toUInt8],
        [.keyword .SHOW, .keyword .TABLES, .op ';'.toUInt8]) := by
    decide +kernel
  rw [hcomment] at hafter
  rw [hstatement, ← hafter] at hfirst
  simp at hfirst

end Lexer

end Rmdb
