import Gol.WorkflowGuard

/-! The tokens of a Bend source, by its lexical rules: whitespace and comments stand between tokens, and a literal, a
name or a number is one token whatever its text is. -/

namespace Gol
open Library

namespace Bend

inductive Token where
  | name (text : List Char)
  | number
  | string
  | char
  | arrow
  | mark (c : Char)
  deriving DecidableEq

/-- The token of a word. -/
def Token.word (text : String) : Token := .name text.toList

def isBlank (c : Char) : Bool := c == ' ' || c == '\n' || c == '\r' || c == '\t'

/-- What is left behind whitespace and comments, where the text may start in a comment. -/
def afterBlank : Bool → List Char → List Char
  | _, [] => []
  | true, c :: rest => afterBlank (c != '\n') rest
  | false, c :: rest => if isBlank c then afterBlank false rest else if c = '#' then afterBlank true rest else c :: rest

/-- What is left behind an exponent, if there is one. -/
def afterExponent (text : List Char) : List Char :=
  match text with
  | [] => []
  | e :: rest =>
      let digits := if rest.head? = some '+' ∨ rest.head? = some '-' then rest.tail else rest
      if (e = 'e' ∨ e = 'E') ∧ digits.head?.any Char.isDigit then digits.dropWhile Char.isDigit else text

/-- What is left behind a number: digits, then an `n`, or a fraction that may have an exponent. -/
def afterNumber (text : List Char) : List Char :=
  match text.dropWhile Char.isDigit with
  | [] => []
  | c :: rest =>
      if c = 'n' then rest
      else if c = '.' ∧ rest.head?.any Char.isDigit then afterExponent (rest.dropWhile Char.isDigit)
      else c :: rest

def isHex (c : Char) : Bool := c.isDigit || ('a' ≤ c && c ≤ 'f') || ('A' ≤ c && c ≤ 'F')

/-- What is left behind a Unicode escape of at most eight digits, whose backslash has been taken. -/
def afterUnicode : List Char → Option (List Char)
  | u :: brace :: rest =>
      let digits := (rest.takeWhile isHex).length
      if (u = 'u' ∨ u = 'U') ∧ brace = '\x7b' ∧ 0 < digits ∧ digits ≤ 8 ∧ rest[digits]? = some '\x7d' then
        some (rest.drop (digits + 1))
      else none
  | _ => none

def afterEscaped : List Char → Option (List Char)
  | [] => none
  | c :: rest => if BendScan.isEscaped c then some rest else none

/-- What is left behind one character of a literal. -/
def afterCharBody : List Char → Option (List Char)
  | [] => none
  | c :: rest => if c ≠ '\\' then some rest else (afterUnicode rest).or (afterEscaped rest)

def stringStep (text : List Char) : LoopTurn (List Char) (Option (List Char)) :=
  if text.head? = some '"' then .done (some text.tail)
  else match afterCharBody text with
    | some left => .again left
    | none => .done none

/-- What is left behind a string whose first quote has been taken. -/
def afterString (text : List Char) : Option (List Char) := iterate List.length stringStep text

/-- What is left behind a character literal whose first quote has been taken. -/
def afterChar (text : List Char) : Option (List Char) :=
  (afterCharBody text).bind fun left => if left.head? = some '\'' then some left.tail else none

/-- The token that starts with `c`, and what is left behind it. -/
def lexeme (c : Char) (rest : List Char) : Option (Token × List Char) :=
  if c = '"' then (afterString rest).map fun left => (.string, left)
  else if c = '\'' then (afterChar rest).map fun left => (.char, left)
  else if isNameStart c then some (.name (c :: rest.takeWhile isNameChar), rest.dropWhile isNameChar)
  else if c.isDigit then some (.number, afterNumber (c :: rest))
  else if c = '-' ∧ rest.head? = some '>' then some (.arrow, rest.tail)
  else some (.mark c, rest)

def nextToken (text : List Char) : Option (Option (Token × List Char)) :=
  match afterBlank false text with
  | [] => some none
  | c :: rest => (lexeme c rest).map some

/-- The tokens of a text, or `none` where it does not lex. -/
def lex (text : List Char) : Option (List Token) := itemsOf List.length nextToken text

/-- What stands behind the end of a list that is `depth` lists deep. -/
def closing : Nat → List Token → Option (List Token)
  | 0, tokens => some tokens
  | _ + 1, [] => none
  | depth + 1, token :: tokens =>
      if token = .mark '(' then closing (depth + 2) tokens
      else if token = .mark ')' then closing depth tokens
      else closing (depth + 1) tokens

/-- What stands behind the signature of a `main` that returns a string. -/
def signature (tokens : List Token) : Option (List Token) :=
  match (if tokens.head? = some (.mark '?') then tokens.tail else tokens) with
  | [] => none
  | token :: list =>
      if token = .mark '(' then
        (closing 1 list).bind fun after =>
          if [.arrow, .word "String", .mark ':'].isPrefixOf after then some (after.drop 3) else none
      else none

/-- Read from left to right, the tokens define `mains` mains, all of which return a string. A definition takes the
name that follows it, and a definition of `main` takes its signature. -/
inductive StringMains : List Token → Nat → Prop
  | done : StringMains [] 0
  | main {tokens after mains} (hsignature : signature tokens = some after) (h : StringMains after mains) :
      StringMains (.word "def" :: .word "main" :: tokens) (mains + 1)
  | named {name tokens mains} (hname : name ≠ "main".toList) (h : StringMains tokens mains) :
      StringMains (.word "def" :: .name name :: tokens) mains
  | alone {tokens mains} (hname : ∀ name rest, tokens ≠ .name name :: rest) (h : StringMains tokens mains) :
      StringMains (.word "def" :: tokens) mains
  | other {token tokens mains} (hdef : token ≠ .word "def") (h : StringMains tokens mains) :
      StringMains (token :: tokens) mains

/-- How many times a `def` stands right before a `main`. -/
def occurrences (tokens : List Token) : Nat :=
  tokens.tails.countP fun tail => [Token.word "def", Token.word "main"].isPrefixOf tail

/-! ### What is left is shorter -/

theorem afterBlank_length : ∀ (comment : Bool) (text : List Char), (afterBlank comment text).length ≤ text.length
  | _, [] => by simp [afterBlank]
  | true, c :: rest => Nat.le_succ_of_le (afterBlank_length (c != '\n') rest)
  | false, c :: rest => by
      rw [afterBlank]
      split
      · exact Nat.le_succ_of_le (afterBlank_length false rest)
      · split
        · exact Nat.le_succ_of_le (afterBlank_length true rest)
        · exact Nat.le_refl _

theorem afterBlank_head {c : Char} {rest : List Char} :
    ∀ {comment : Bool} {text : List Char}, afterBlank comment text = c :: rest → isBlank c = false ∧ c ≠ '#'
  | _, [], h => by simp [afterBlank] at h
  | true, d :: text, h => @afterBlank_head c rest (d != '\n') text h
  | false, d :: text, h => by
      rw [afterBlank] at h
      split at h
      · exact afterBlank_head h
      · split at h
        · exact afterBlank_head h
        · rename_i hblank hhash
          cases h
          exact ⟨Bool.eq_false_iff.mpr hblank, hhash⟩

theorem afterBlank_cons {c : Char} (hblank : isBlank c = false) (hhash : c ≠ '#') (rest : List Char) :
    afterBlank false (c :: rest) = c :: rest := by
  rw [afterBlank, if_neg (by simp [hblank]), if_neg hhash]

@[simp]
theorem afterBlank_afterBlank (comment : Bool) (text : List Char) :
    afterBlank false (afterBlank comment text) = afterBlank comment text := by
  cases h : afterBlank comment text with
  | nil => rfl
  | cons c rest => exact afterBlank_cons (afterBlank_head h).1 (afterBlank_head h).2 rest

theorem afterUnicode_length {text left : List Char} (h : afterUnicode text = some left) :
    left.length < text.length := by
  rcases text with _ | ⟨u, _ | ⟨brace, rest⟩⟩
  · cases h
  · cases h
  · rw [afterUnicode] at h
    split at h
    · cases h
      rw [List.length_drop, List.length_cons, List.length_cons]
      omega
    · cases h

theorem afterEscaped_length {text left : List Char} (h : afterEscaped text = some left) :
    left.length < text.length := by
  cases text with
  | nil => cases h
  | cons c rest =>
      rw [afterEscaped] at h
      split at h
      · cases h
        exact Nat.lt_succ_self _
      · cases h

theorem afterCharBody_length {text left : List Char} (h : afterCharBody text = some left) :
    left.length < text.length := by
  cases text with
  | nil => cases h
  | cons c rest =>
      rw [afterCharBody] at h
      split at h
      · cases h
        exact Nat.lt_succ_self _
      · rcases Option.or_eq_some_iff.mp h with hunicode | ⟨-, hescaped⟩
        · exact Nat.lt_succ_of_lt (afterUnicode_length hunicode)
        · exact Nat.lt_succ_of_lt (afterEscaped_length hescaped)

theorem stringStep_length {text next : List Char} (h : stringStep text = .again next) : next.length < text.length := by
  rw [stringStep] at h
  split at h
  · cases h
  · cases hbody : afterCharBody text with
    | none =>
        rw [hbody] at h
        cases h
    | some left =>
        rw [hbody] at h
        cases h
        exact afterCharBody_length hbody

theorem afterString_eq (text : List Char) : afterString text = match stringStep text with
    | .again next => afterString next
    | .done left => left := by
  rw [afterString, iterate_eq (fun _ _ h => stringStep_length h)]
  cases stringStep text <;> rfl

theorem afterString_length (text : List Char) : ∀ {left}, afterString text = some left → left.length < text.length := by
  induction hlength : text.length using Nat.strong_induction_on generalizing text with
  | _ n ih =>
      subst hlength
      intro left h
      rw [afterString_eq] at h
      cases hstep : stringStep text with
      | again next =>
          rw [hstep] at h
          have hnext := stringStep_length hstep
          exact (ih _ hnext next rfl h).trans hnext
      | done result =>
          rw [hstep] at h
          subst h
          rw [stringStep] at hstep
          rcases text with _ | ⟨c, rest⟩
          · simp [afterCharBody] at hstep
          · split at hstep
            · cases hstep
              exact Nat.lt_succ_self _
            · split at hstep <;> cases hstep

theorem afterChar_length {text left : List Char} (h : afterChar text = some left) : left.length < text.length := by
  obtain ⟨body, hbody, h⟩ := Option.bind_eq_some_iff.mp h
  have hless := afterCharBody_length hbody
  split at h
  · cases h
    rw [List.length_tail]
    omega
  · cases h

/-! ### Plain text -/

/-- Neither whitespace nor the start of a comment, a literal or a list. -/
def isPlain (c : Char) : Bool := !isBlank c && c ∉ ['#', '"', '\'', '(', ')']

/-- `left` stands behind plain text. -/
def Plainly (text left : List Char) : Prop := ∃ taken, text = taken ++ left ∧ ∀ c ∈ taken, isPlain c = true

theorem Plainly.refl (text : List Char) : Plainly text text := ⟨[], rfl, nofun⟩

theorem Plainly.cons {c : Char} {text left : List Char} (hc : isPlain c = true) (h : Plainly text left) :
    Plainly (c :: text) left := by
  obtain ⟨taken, rfl, htaken⟩ := h
  exact ⟨c :: taken, rfl, List.forall_mem_cons.mpr ⟨hc, htaken⟩⟩

theorem Plainly.trans {text middle left : List Char} (h : Plainly text middle) (hleft : Plainly middle left) :
    Plainly text left := by
  obtain ⟨taken, rfl, htaken⟩ := h
  obtain ⟨more, rfl, hmore⟩ := hleft
  exact ⟨taken ++ more, (List.append_assoc _ _ _).symm, fun c hc => (List.mem_append.mp hc).elim (htaken c) (hmore c)⟩

theorem Plainly.length_le {text left : List Char} (h : Plainly text left) : left.length ≤ text.length := by
  obtain ⟨taken, rfl, -⟩ := h
  rw [List.length_append]
  omega

theorem Plainly.dropWhile_eq {text left : List Char} (h : Plainly text left) :
    text.dropWhile isPlain = left.dropWhile isPlain := by
  obtain ⟨taken, rfl, htaken⟩ := h
  exact List.dropWhile_append_of_pos htaken

theorem plainly_dropWhile {p : Char → Bool} (hp : ∀ c, p c = true → isPlain c = true) (text : List Char) :
    Plainly text (text.dropWhile p) :=
  ⟨text.takeWhile p, List.takeWhile_append_dropWhile.symm,
    fun c hc => hp c (List.all_eq_true.mp List.all_takeWhile c hc)⟩

theorem isPlain_of_isNameChar {c : Char} (h : isNameChar c = true) : isPlain c = true := by
  simp only [isPlain, isBlank, Bool.and_eq_true, Bool.not_eq_true', Bool.or_eq_false_iff, beq_eq_false_iff_ne,
    decide_eq_true_eq, List.mem_cons, List.not_mem_nil, or_false, not_or]
  refine ⟨⟨⟨⟨?_, ?_⟩, ?_⟩, ?_⟩, ?_, ?_, ?_, ?_, ?_⟩ <;> rintro rfl <;> revert h <;> decide

theorem isPlain_of_isDigit {c : Char} (h : c.isDigit = true) : isPlain c = true :=
  isPlain_of_isNameChar (by simp [isNameChar, Char.isAlphanum, h])

theorem plainly_sign (text : List Char) :
    Plainly text (if text.head? = some '+' ∨ text.head? = some '-' then text.tail else text) := by
  split
  · rename_i hsign
    cases text with
    | nil => exact .refl []
    | cons sign rest =>
        refine .cons ?_ (.refl rest)
        rcases hsign with hsign | hsign <;> cases hsign <;> decide
  · exact .refl text

theorem plainly_afterExponent (text : List Char) : Plainly text (afterExponent text) := by
  cases text with
  | nil => exact .refl []
  | cons e rest =>
      simp only [afterExponent]
      generalize hdigits : (if rest.head? = some '+' ∨ rest.head? = some '-' then rest.tail else rest) = digits
      have hsign : Plainly rest digits := hdigits ▸ plainly_sign rest
      split
      · rename_i h
        have he : isPlain e = true := by
          rcases h.1 with rfl | rfl <;> decide
        exact .cons he (hsign.trans (plainly_dropWhile (fun _ => isPlain_of_isDigit) digits))
      · exact .refl _

theorem plainly_afterNumber (text : List Char) : Plainly text (afterNumber text) := by
  refine (plainly_dropWhile (fun _ => isPlain_of_isDigit) text).trans ?_
  rw [afterNumber]
  cases text.dropWhile Char.isDigit with
  | nil => exact .refl []
  | cons c rest =>
      show Plainly _ (if _ then _ else if _ then _ else _)
      split
      · rename_i hc
        subst hc
        exact .cons (by decide) (.refl rest)
      · split
        · rename_i h
          obtain ⟨rfl, -⟩ := h
          exact .cons (by decide)
            ((plainly_dropWhile (fun _ => isPlain_of_isDigit) rest).trans (plainly_afterExponent _))
        · exact .refl _

theorem afterNumber_length {c : Char} (hc : c.isDigit = true) (rest : List Char) :
    (afterNumber (c :: rest)).length ≤ rest.length := by
  have hsame : afterNumber (c :: rest) = afterNumber rest := by
    rw [afterNumber, List.dropWhile_cons_of_pos hc]
    rfl
  rw [hsame]
  exact (plainly_afterNumber rest).length_le

/-! ### One token -/

theorem lexeme_name {c : Char} (h : isNameStart c = true) (rest : List Char) :
    lexeme c rest = some (.name (c :: rest.takeWhile isNameChar), rest.dropWhile isNameChar) := by
  have hquote : c ≠ '"' ∧ c ≠ '\'' := by
    constructor <;> rintro rfl <;> exact absurd h (by decide)
  rw [lexeme, if_neg hquote.1, if_neg hquote.2, if_pos h]

/-- What is left behind a token that starts with plain text. -/
theorem lexeme_plain {c : Char} (h : isPlain c = true) (rest : List Char) :
    ∃ token left, lexeme c rest = some (token, left) ∧ Plainly rest left ∧ token ≠ .mark '(' ∧ token ≠ .mark ')' := by
  simp only [isPlain, Bool.and_eq_true, decide_eq_true_eq, List.mem_cons, List.not_mem_nil, or_false, not_or] at h
  obtain ⟨-, -, hdouble, hsingle, hopen, hclose⟩ := h
  rw [lexeme, if_neg hdouble, if_neg hsingle]
  split
  · exact ⟨_, _, rfl, plainly_dropWhile (fun _ => isPlain_of_isNameChar) rest, nofun, nofun⟩
  · split
    · rename_i hdigit
      refine ⟨_, _, rfl, ?_, nofun, nofun⟩
      rw [afterNumber, List.dropWhile_cons_of_pos hdigit]
      exact plainly_afterNumber rest
    · split
      · rename_i harrow
        refine ⟨_, _, rfl, ?_, nofun, nofun⟩
        cases rest with
        | nil => exact .refl []
        | cons d rest =>
            obtain ⟨-, hd⟩ := harrow
            cases hd
            exact .cons (by decide) (.refl rest)
      · exact ⟨_, _, rfl, .refl rest, fun hmark => hopen (Token.mark.inj hmark),
          fun hmark => hclose (Token.mark.inj hmark)⟩

theorem lexeme_length {c : Char} {rest left : List Char} {token : Token} (h : lexeme c rest = some (token, left)) :
    left.length ≤ rest.length := by
  rw [lexeme] at h
  split at h
  · obtain ⟨after, hafter, h⟩ := Option.map_eq_some_iff.mp h
    cases h
    exact (afterString_length rest hafter).le
  · split at h
    · obtain ⟨after, hafter, h⟩ := Option.map_eq_some_iff.mp h
      cases h
      exact (afterChar_length hafter).le
    · split at h
      · cases h
        exact (List.dropWhile_suffix _).length_le
      · split at h
        · rename_i hdigit
          cases h
          exact afterNumber_length hdigit rest
        · split at h
          · cases h
            rw [List.length_tail]
            omega
          · cases h
            exact Nat.le_refl _

/-- Only its own character starts a mark, and only `-` before `>` an arrow. -/
theorem lexeme_cases {c : Char} {rest left : List Char} {token : Token} (h : lexeme c rest = some (token, left)) :
    (∀ d, token = .mark d → d = c ∧ left = rest) ∧ (token = .arrow → c = '-' ∧ rest = '>' :: left) ∧
      (∀ name, token = .name name → isNameStart c = true ∧ name = c :: rest.takeWhile isNameChar ∧
        left = rest.dropWhile isNameChar) := by
  rw [lexeme] at h
  split at h
  · obtain ⟨after, -, h⟩ := Option.map_eq_some_iff.mp h
    cases h
    exact ⟨nofun, nofun, nofun⟩
  · split at h
    · obtain ⟨after, -, h⟩ := Option.map_eq_some_iff.mp h
      cases h
      exact ⟨nofun, nofun, nofun⟩
    · split at h
      · rename_i hname
        cases h
        refine ⟨nofun, nofun, fun name hsame => ?_⟩
        cases hsame
        exact ⟨hname, rfl, rfl⟩
      · split at h
        · cases h
          exact ⟨nofun, nofun, nofun⟩
        · split at h
          · rename_i harrow
            cases h
            refine ⟨nofun, fun _ => ⟨harrow.1, ?_⟩, nofun⟩
            cases rest with
            | nil => cases harrow.2
            | cons d rest =>
                cases harrow.2
                rfl
          · cases h
            refine ⟨fun d hd => ?_, nofun, nofun⟩
            cases hd
            exact ⟨rfl, rfl⟩

/-! ### All the tokens -/

theorem nextToken_length {text left : List Char} {token : Token} (h : nextToken text = some (some (token, left))) :
    left.length < text.length := by
  have hblank := afterBlank_length false text
  rw [nextToken] at h
  cases hafter : afterBlank false text with
  | nil =>
      rw [hafter] at h
      cases h
  | cons c rest =>
      rw [hafter] at h hblank
      obtain ⟨taken, htaken, hsame⟩ := Option.map_eq_some_iff.mp h
      cases hsame
      have hleft := lexeme_length htaken
      rw [List.length_cons] at hblank
      omega

theorem lex_eq (text : List Char) : lex text = (nextToken text).bind fun
    | none => some []
    | some (token, left) => (lex left).map fun tokens => token :: tokens := by
  rw [lex, itemsOf_eq fun _ _ _ h => nextToken_length h]
  congr 1
  funext found
  rcases found with _ | ⟨token, left⟩ <;> rfl

theorem lex_nil {text : List Char} (h : afterBlank false text = []) : lex text = some [] := by
  rw [lex_eq, nextToken, h]
  rfl

theorem lex_cons {c : Char} {text rest : List Char} (h : afterBlank false text = c :: rest) :
    lex text = (lexeme c rest).bind fun taken => (lex taken.2).map fun tokens => taken.1 :: tokens := by
  rw [lex_eq, nextToken, h]
  show (Option.map some (lexeme c rest)).bind _ = _
  cases lexeme c rest <;> rfl

theorem lex_token {c : Char} {text rest left : List Char} {token : Token} (h : afterBlank false text = c :: rest)
    (htoken : lexeme c rest = some (token, left)) : lex text = (lex left).map fun tokens => token :: tokens := by
  rw [lex_cons h, htoken]
  rfl

@[simp]
theorem lex_afterBlank (text : List Char) : lex (afterBlank false text) = lex text := by
  rw [lex_eq, lex_eq text, nextToken, nextToken, afterBlank_afterBlank]

/-- What stands behind the end of a list that starts in `text`, `depth` lists deep. -/
def behind (depth : Nat) (text : List Char) : Option (List Token) := (lex text).bind (closing depth)

@[simp]
theorem behind_afterBlank (depth : Nat) (text : List Char) :
    behind depth (afterBlank false text) = behind depth text := by
  rw [behind, lex_afterBlank, behind]

@[simp]
theorem behind_zero (text : List Char) : behind 0 text = lex text := by
  rw [behind, show closing 0 = some from funext fun tokens => by rw [closing]]
  exact Option.bind_fun_some (lex text)

theorem behind_token {c : Char} {text rest left : List Char} {token : Token} {depth : Nat}
    (h : afterBlank false text = c :: rest) (htoken : lexeme c rest = some (token, left))
    (hopen : token ≠ .mark '(') (hclose : token ≠ .mark ')') :
    behind (depth + 1) text = behind (depth + 1) left := by
  rw [behind, lex_token h htoken, behind]
  cases lex left with
  | none => rfl
  | some tokens =>
      show closing (depth + 1) (token :: tokens) = closing (depth + 1) tokens
      rw [closing, if_neg hopen, if_neg hclose]

theorem behind_dropWhile (depth : Nat) (text : List Char) :
    behind (depth + 1) (text.dropWhile isPlain) = behind (depth + 1) text := by
  induction hlength : text.length using Nat.strong_induction_on generalizing text with
  | _ n ih =>
      subst hlength
      cases text with
      | nil => rfl
      | cons c rest =>
          by_cases hplain : isPlain c = true
          · obtain ⟨token, left, htoken, hplainly, hopen, hclose⟩ := lexeme_plain hplain rest
            have hpieces := hplain
            simp only [isPlain, Bool.and_eq_true, Bool.not_eq_true', decide_eq_true_eq, List.mem_cons,
              not_or] at hpieces
            have hblank : afterBlank false (c :: rest) = c :: rest := afterBlank_cons hpieces.1 hpieces.2.1 rest
            calc behind (depth + 1) ((c :: rest).dropWhile isPlain)
                = behind (depth + 1) (left.dropWhile isPlain) := by rw [(hplainly.cons hplain).dropWhile_eq]
              _ = behind (depth + 1) left := ih left.length (Nat.lt_succ_of_le hplainly.length_le) left rfl
              _ = behind (depth + 1) (c :: rest) := (behind_token hblank htoken hopen hclose).symm
          · rw [List.dropWhile_cons_of_neg hplain]

/-- A plain character says nothing about where a list ends. -/
theorem behind_plain {c : Char} (h : isPlain c = true) (depth : Nat) (rest : List Char) :
    behind (depth + 1) (c :: rest) = behind (depth + 1) rest := by
  rw [← behind_dropWhile, List.dropWhile_cons_of_pos h, behind_dropWhile]

/-! ### The mains of a text -/

/-- The text lexes, and its tokens define this many mains, all of which return a string. -/
def Counted (text : List Char) (mains : Nat) : Prop := ∃ tokens, lex text = some tokens ∧ StringMains tokens mains

theorem counted_nil {text : List Char} (h : afterBlank false text = []) (mains : Nat) :
    Counted text mains ↔ mains = 0 := by
  rw [Counted, lex_nil h]
  constructor
  · rintro ⟨tokens, hsame, hmains⟩
    cases hsame
    cases hmains
    rfl
  · rintro rfl
    exact ⟨[], rfl, .done⟩

theorem not_counted {c : Char} {text rest : List Char} (h : afterBlank false text = c :: rest)
    (htoken : lexeme c rest = none) (mains : Nat) :
    ¬ Counted text mains := by
  rintro ⟨tokens, hsame, -⟩
  rw [lex_cons h, htoken] at hsame
  cases hsame

@[simp]
theorem counted_afterBlank (text : List Char) (mains : Nat) :
    Counted (afterBlank false text) mains ↔ Counted text mains := by
  rw [Counted, lex_afterBlank, Counted]

variable {c d : Char} {text rest left after others name : List Char} {token : Token} {mains : Nat}

theorem counted_token (h : afterBlank false text = c :: rest) (htoken : lexeme c rest = some (token, left))
    (hdef : token ≠ .word "def") :
    Counted text mains ↔ Counted left mains := by
  rw [Counted, lex_token h htoken]
  constructor
  · rintro ⟨tokens, hsame, hmains⟩
    obtain ⟨others, hothers, rfl⟩ := Option.map_eq_some_iff.mp hsame
    cases hmains with
    | other _ hmains => exact ⟨others, hothers, hmains⟩
    | main => exact absurd rfl hdef
    | named => exact absurd rfl hdef
    | alone => exact absurd rfl hdef
  · rintro ⟨others, hothers, hmains⟩
    exact ⟨token :: others, by rw [hothers]; rfl, .other hdef hmains⟩

/-- A `def` that no name follows. -/
theorem counted_alone (h : afterBlank false text = c :: rest) (hdef : lexeme c rest = some (.word "def", left))
    (hname : ∀ d after, afterBlank false left = d :: after → isNameStart d = false) :
    Counted text mains ↔ Counted left mains := by
  have hfollows : ∀ {tokens}, lex left = some tokens → ∀ name others, tokens ≠ .name name :: others := by
    rintro tokens htokens name others rfl
    cases hafter : afterBlank false left with
    | nil =>
        rw [lex_nil hafter] at htokens
        cases htokens
    | cons d after =>
        rw [lex_cons hafter] at htokens
        obtain ⟨⟨token, rest⟩, htoken, htokens⟩ := Option.bind_eq_some_iff.mp htokens
        obtain ⟨_, -, hsame⟩ := Option.map_eq_some_iff.mp htokens
        cases hsame
        exact absurd ((lexeme_cases htoken).2.2 name rfl).1 (by rw [hname d after hafter]; decide)
  rw [Counted, lex_token h hdef]
  constructor
  · rintro ⟨tokens, hsame, hmains⟩
    obtain ⟨others, hothers, rfl⟩ := Option.map_eq_some_iff.mp hsame
    cases hmains with
    | other hother => exact absurd rfl hother
    | main => exact absurd rfl (hfollows hothers _ _)
    | named => exact absurd rfl (hfollows hothers _ _)
    | alone _ hmains => exact ⟨others, hothers, hmains⟩
  · rintro ⟨others, hothers, hmains⟩
    exact ⟨.word "def" :: others, by rw [hothers]; rfl, .alone (hfollows hothers) hmains⟩

/-- The tokens of a `def` and the name that follows it. -/
theorem lex_def (h : afterBlank false text = c :: rest) (hdef : lexeme c rest = some (.word "def", left))
    (hnext : afterBlank false left = d :: after) (hname : lexeme d after = some (.name name, others)) :
    lex text = (lex others).map fun tokens => .word "def" :: .name name :: tokens := by
  rw [lex_token h hdef, lex_token hnext hname, Option.map_map]
  rfl

theorem counted_named (htokens : lex text = (lex left).map fun tokens => .word "def" :: .name name :: tokens)
    (hname : name ≠ "main".toList) :
    Counted text mains ↔ Counted left mains := by
  rw [Counted, htokens]
  constructor
  · rintro ⟨tokens, hsame, hmains⟩
    obtain ⟨others, hothers, rfl⟩ := Option.map_eq_some_iff.mp hsame
    cases hmains with
    | other hother => exact absurd rfl hother
    | main => exact absurd rfl hname
    | named _ hmains => exact ⟨others, hothers, hmains⟩
    | alone halone => exact absurd rfl (halone _ _)
  · rintro ⟨others, hothers, hmains⟩
    exact ⟨_, by rw [hothers]; rfl, .named hname hmains⟩

theorem counted_main (htokens : lex text = (lex left).map fun tokens => .word "def" :: .name "main".toList :: tokens) :
    Counted text mains ↔ ∃ tokens earlier, (lex left).bind signature = some tokens ∧ StringMains tokens earlier ∧
      mains = earlier + 1 := by
  rw [Counted, htokens]
  constructor
  · rintro ⟨tokens, hsame, hmains⟩
    obtain ⟨others, hothers, rfl⟩ := Option.map_eq_some_iff.mp hsame
    cases hmains with
    | other hother => exact absurd rfl hother
    | main hsignature hmains => exact ⟨_, _, by rw [hothers]; exact hsignature, hmains, rfl⟩
    | named hother => exact absurd rfl hother
    | alone halone => exact absurd rfl (halone _ _)
  · rintro ⟨tokens, earlier, hsignature, hmains, rfl⟩
    obtain ⟨others, hothers, hsignature⟩ := Option.bind_eq_some_iff.mp hsignature
    exact ⟨_, by rw [hothers]; rfl, .main hsignature hmains⟩

end Bend

end Gol
