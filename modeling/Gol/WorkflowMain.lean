import Gol.WorkflowScan

/-! What the main guard accepts. A list's end is found character by character, and the tokens of its text say where it
is; the guard accepts a source exactly when its tokens define one `main` and that one returns a string. -/

namespace Gol
open Library Fallible

namespace Bend

variable {src rest left text : List Char} {i : Nat} {α β : Type}

/-- Where the rest of the source is `rest`, the scan finds a value and a rest that meet `found`, or it refuses and
`refused` holds. -/
def Finds (src : List Char) (scan : Scan α) (rest : List Char) (found : α → List Char → Prop) (refused : Prop) : Prop :=
  ∀ i, At src i rest → Ends scan i fun outcome j => match outcome with
    | .ok value => ∃ left, At src j left ∧ found value left
    | .error error => error = .refused mainMustBeString ∧ refused

variable {found : α → List Char → Prop} {more : β → List Char → Prop} {refused : Prop} {scan : Scan α}
  {next : α → Scan β} {value : α}

theorem finds_pure (h : found value rest) : Finds src (pure value) rest found refused := fun _ hat => ⟨rest, hat, h⟩

theorem finds_refuse (h : refused) : Finds (α := α) src refuse rest found refused := fun _ _ => ⟨rfl, h⟩

theorem Finds.bind {earlier : Prop} (h : Finds src scan rest found earlier) (hrefused : earlier → refused)
    (hnext : ∀ value left, found value left → Finds src (next value) left more refused) :
    Finds src (scan >>= next) rest more refused := by
  intro i hat
  rw [ends_bind]
  refine (h i hat).mono fun outcome j hfound => ?_
  cases outcome with
  | error error => exact ⟨hfound.1, hrefused hfound.2⟩
  | ok value =>
      obtain ⟨left, hleft, hfound⟩ := hfound
      exact hnext value left hfound j hleft

/-- A scan that reads a value comes first. -/
theorem Reads.then (h : Reads src scan rest (some (value, left))) (hnext : Finds src (next value) left more refused) :
    Finds src (scan >>= next) rest more refused := by
  intro i hat
  rw [ends_bind]
  refine (h i hat).mono fun outcome j hread => ?_
  obtain ⟨rfl, hleft⟩ := hread
  exact hnext j hleft

theorem Reads.then_pure {answer : β} (h : Reads src scan rest (some (value, left))) (hmore : more answer left) :
    Finds src (scan >>= fun _ => pure answer) rest more refused :=
  h.then (finds_pure hmore)

/-- A scan that may refuse comes first. -/
theorem Reads.finds_bind {effect : Option (α × List Char)} (h : Reads src scan rest effect)
    (hrefused : effect = none → refused)
    (hnext : ∀ value left, effect = some (value, left) → Finds src (next value) left more refused) :
    Finds src (scan >>= next) rest more refused := by
  cases effect with
  | some found => exact h.then (hnext found.1 found.2 rfl)
  | none =>
      intro i hat
      rw [ends_bind]
      refine (h i hat).mono fun outcome j hread => ?_
      replace hread : outcome = .error (.refused mainMustBeString) := hread
      subst hread
      exact ⟨rfl, hrefused rfl⟩

/-! ### A list's end -/

theorem lexeme_open (rest : List Char) : lexeme '(' rest = some (.mark '(', rest) := rfl

theorem lexeme_close (rest : List Char) : lexeme ')' rest = some (.mark ')', rest) := rfl

theorem lexeme_string (rest : List Char) : lexeme '"' rest = (afterString rest).map fun left => (.string, left) := rfl

theorem lexeme_char (rest : List Char) : lexeme '\'' rest = (afterChar rest).map fun left => (.char, left) := rfl

/-- A literal is scanned as it is lexed. -/
theorem Reads.literal {scan : Scan PUnit} {next : PUnit → Scan β} {after : List Char → Option (List Char)}
    {c : Char} {token : Token} (h : Reads src scan (c :: rest) ((after rest).map fun left => (⟨⟩, left)))
    (hlexeme : lexeme c rest = (after rest).map fun left => (token, left)) (hrefused : lexeme c rest = none → refused)
    (hnext : ∀ left, lexeme c rest = some (token, left) → Finds src (next ⟨⟩) left more refused) :
    Finds src (scan >>= next) (c :: rest) more refused := by
  refine h.finds_bind (fun hnone => hrefused ?_) fun _ left hread => ?_
  · rw [hlexeme, Option.map_eq_none_iff.mp hnone]
    rfl
  · obtain ⟨behind, hafter, hsame⟩ := Option.map_eq_some_iff.mp hread
    obtain ⟨-, rfl⟩ := Prod.mk.inj hsame
    exact hnext behind (by rw [hlexeme, hafter]; rfl)

theorem behind_none {c : Char} {depth : Nat} (h : afterBlank false text = c :: rest) (htoken : lexeme c rest = none) :
    behind depth text = none := by
  rw [behind, lex_cons h, htoken]
  rfl

theorem behind_open {depth : Nat}
    (h : afterBlank false text = '(' :: rest) : behind (depth + 1) text = behind (depth + 2) rest := by
  rw [behind, lex_token h (lexeme_open rest), behind]
  cases lex rest with
  | none => rfl
  | some tokens =>
      show closing (depth + 1) (.mark '(' :: tokens) = closing (depth + 2) tokens
      rw [closing, if_pos rfl]

theorem behind_close {depth : Nat} (h : afterBlank false text = ')' :: rest) : behind (depth + 1) text =
    behind depth rest := by
  rw [behind, lex_token h (lexeme_close rest), behind]
  cases lex rest with
  | none => rfl
  | some tokens =>
      show closing (depth + 1) (.mark ')' :: tokens) = closing depth tokens
      rw [closing, if_neg (by decide), if_pos rfl]

/-- What one turn of the loop over a list says about where the list ends. -/
def Closes (depth : Nat) (text : List Char) (turn : LoopTurn Nat PUnit) (left : List Char) : Prop :=
  match turn with
  | .again deeper =>
      behind deeper left = behind depth text ∧ left.length < text.length ∧ deeper + left.length ≤ depth + text.length
  | .done _ => depth = 0 ∧ left = text

theorem finds_balancedTurn (src : List Char) {depth : Nat} (hdepth : text ≠ [] → depth + 1 < 2 ^ 32) :
    Finds src (BendScan.balancedTurn src depth) text (Closes depth text) (behind depth text = none) := by
  rw [BendScan.balancedTurn]
  cases depth with
  | zero =>
      rw [if_pos rfl]
      exact finds_pure ⟨rfl, rfl⟩
  | succ depth =>
      rw [if_neg (Nat.succ_ne_zero depth)]
      refine (reads_skip src text).then ((reads_atEnd src _).then ?_)
      have hshort := afterBlank_length false text
      cases hblank : afterBlank false text with
      | nil =>
          refine finds_refuse ?_
          rw [behind, lex_nil hblank]
          rfl
      | cons c rest =>
          rw [hblank, List.length_cons] at hshort
          have hsome : text ≠ [] := by
            rintro rfl
            cases hblank
          rw [List.isEmpty_cons, if_neg Bool.false_ne_true]
          refine (reads_atByte (by decide : '"'.toNat < 128)).then ?_
          rw [List.head?_cons]
          by_cases hstring : c = '"'
          · subst hstring
            rw [decide_eq_true rfl, if_pos rfl]
            refine (reads_skipString src rest).literal (lexeme_string rest) (behind_none hblank)
              fun left htoken => finds_pure ?_
            have hleft := lexeme_length htoken
            exact ⟨(behind_token hblank htoken (by simp) (by simp)).symm, by omega, by omega⟩
          rw [decide_eq_false (fun h => hstring (Option.some_inj.mp h)), if_neg Bool.false_ne_true]
          refine (reads_atByte (by decide : '\''.toNat < 128)).then ?_
          rw [List.head?_cons]
          by_cases hchar : c = '\''
          · subst hchar
            rw [decide_eq_true rfl, if_pos rfl]
            refine (reads_skipCharLit src rest).literal (lexeme_char rest) (behind_none hblank)
              fun left htoken => finds_pure ?_
            have hleft := lexeme_length htoken
            exact ⟨(behind_token hblank htoken (by simp) (by simp)).symm, by omega, by omega⟩
          rw [decide_eq_false (fun h => hchar (Option.some_inj.mp h)), if_neg Bool.false_ne_true]
          intro i hat
          rw [ends_bind, ends_get]
          dsimp only
          obtain ⟨byte, hbyte⟩ : ∃ byte, (encode src)[i]? = some byte := by
            have hget := hat.getElem? 0
            rw [Nat.add_zero] at hget
            have hlong := length_le_encode (c :: rest)
            rw [List.length_cons] at hlong
            exact ⟨_, hget.trans (List.getElem?_eq_getElem (by omega))⟩
          have hopen : byte = 40 ↔ c = '(' := by
            have h := hat.byte (by decide : '('.toNat < 128)
            rwa [hbyte, List.head?_cons, Option.some_inj, Option.some_inj] at h
          have hclose : byte = 41 ↔ c = ')' := by
            have h := hat.byte (by decide : ')'.toNat < 128)
            rwa [hbyte, List.head?_cons, Option.some_inj, Option.some_inj] at h
          rw [hbyte]
          dsimp only
          simp only [hopen, hclose]
          by_cases hparen : c = '('
          · subst hparen
            rw [if_pos rfl, if_pos (hdepth hsome)]
            have hmore : Closes (depth + 1) text (.again (depth + 1 + 1)) rest :=
              ⟨(behind_open hblank).symm, by omega, by omega⟩
            exact (reads_advance_one (by decide)).then_pure hmore i hat
          rw [if_neg hparen]
          by_cases hend : c = ')'
          · subst hend
            rw [if_pos rfl]
            have hmore : Closes (depth + 1) text (.again (depth + 1 - 1)) rest :=
              ⟨(behind_close hblank).symm, by omega, by rw [Nat.add_sub_cancel]; omega⟩
            exact (reads_advance_one (by decide)).then_pure hmore i hat
          rw [if_neg hend]
          have hplain : isPlain c = true := by
            obtain ⟨hspace, hhash⟩ := afterBlank_head hblank
            simp [isPlain, hspace, hhash, hstring, hchar, hparen, hend]
          have hmore : Closes (depth + 1) text (.again (depth + 1)) rest := by
            refine ⟨?_, by omega, by omega⟩
            rw [← behind_plain hplain, ← hblank, behind_afterBlank]
          exact (reads_bumpChar src (c :: rest)).then_pure hmore i hat

/-- The loop over a list finds where the tokens say that it ends. -/
theorem finds_skipBalanced (src rest : List Char) (hrest : rest.length < src.length)
    (hlength : (encode src).length < 2 ^ 32) :
    Finds src (BendScan.skipBalanced src) rest (fun _ left => behind 1 rest = lex left ∧ left.length ≤ rest.length)
      (behind 1 rest = none) := by
  intro i hat
  have hchars := length_le_encode src
  refine ends_loop (fun _ j => (encode src).length - j)
    (fun depth j => ∃ text, At src j text ∧ behind depth text = behind 1 rest ∧ text.length ≤ rest.length ∧
      depth + text.length ≤ rest.length + 1) _ ?_
    ⟨rest, hat, rfl, Nat.le_refl _, by omega⟩ (Nat.lt_succ_of_le (Nat.sub_le _ _))
  rintro depth j ⟨text, htext, hsame, hshort, hdeep⟩
  have hdepth : text ≠ [] → depth + 1 < 2 ^ 32 := by
    intro hsome
    have hpos := List.length_pos_iff.mpr hsome
    omega
  refine (finds_balancedTurn src hdepth j htext).mono fun outcome k hturn => ?_
  rcases outcome with error | (deeper | result)
  · exact ⟨hturn.1, hsame ▸ hturn.2⟩
  · obtain ⟨left, hleft, hbehind, hless, hshallow⟩ := hturn
    have hlater := htext.lt_of_length_lt hleft hless
    have hle := hleft.le
    exact ⟨⟨left, hleft, hbehind.trans hsame, by omega, by omega⟩, by omega⟩
  · obtain ⟨left, hleft, rfl, rfl⟩ := hturn
    exact ⟨left, hleft, by rw [← hsame, behind_zero], hshort⟩

/-! ### Words -/

theorem nameOf_append {name : List Char} (h : nameOf text = (some name, left)) : text = name ++ left := by
  cases text with
  | nil => cases h
  | cons c rest =>
      rw [nameOf] at h
      split at h
      · cases h
        rw [List.cons_append, List.takeWhile_append_dropWhile]
      · cases h

/-- A text starts with a word, and with no longer name, exactly when its name is that word. -/
theorem nameOf_eq_iff {word : String}
    (hword : ∃ head others, word.toList = head :: others ∧ isNameStart head = true ∧
    ∀ c ∈ others, isNameChar c = true) :
    (word.toList <+: text ∧ (text.drop word.toList.length).head?.any isNameChar = false) ↔
      (nameOf text).1 = some word.toList := by
  obtain ⟨head, others, hsame, hhead, hothers⟩ := hword
  rw [hsame]
  constructor
  · rintro ⟨⟨left, rfl⟩, hend⟩
    rw [List.drop_left] at hend
    have htake : left.takeWhile isNameChar = [] := by
      cases left with
      | nil => rfl
      | cons d left => exact List.takeWhile_cons_of_neg (Bool.eq_false_iff.mp hend)
    rw [List.cons_append, nameOf, if_pos hhead, List.takeWhile_append_of_pos hothers, htake, List.append_nil]
  · intro h
    cases text with
    | nil => cases h
    | cons c rest =>
        rw [nameOf] at h
        split at h
        · have hname := Option.some_inj.mp h
          have hsplit : c :: rest = (head :: others) ++ rest.dropWhile isNameChar := by
            rw [← hname, List.cons_append, List.takeWhile_append_dropWhile]
          rw [hsplit, List.drop_left]
          refine ⟨List.prefix_append _ _, ?_⟩
          · have hend := List.head?_dropWhile_not isNameChar rest
            cases hdrop : rest.dropWhile isNameChar with
            | nil => rfl
            | cons d left =>
                rw [hdrop] at hend
                exact hend
        · cases h

theorem lexeme_nameOf {c : Char} {name : List Char} (h : nameOf (c :: rest) = (some name, left)) :
    lexeme c rest = some (.name name, left) := by
  rw [nameOf] at h
  split at h
  · rename_i hstart
    cases h
    exact lexeme_name hstart rest
  · cases h

theorem nameOf_lexeme {c : Char} {name : List Char} (h : lexeme c rest = some (.name name, left)) :
    nameOf (c :: rest) = (some name, left) := by
  obtain ⟨hstart, rfl, rfl⟩ := (lexeme_cases h).2.2 name rfl
  rw [nameOf, if_pos hstart]

theorem nameOf_none (h : (nameOf text).1 = none) :
    (nameOf text).2 = text ∧ ∀ c rest, text = c :: rest → isNameStart c = false := by
  cases text with
  | nil => exact ⟨rfl, nofun⟩
  | cons c rest =>
      rw [nameOf] at h ⊢
      split at h
      · cases h
      · rename_i hstart
        rw [if_neg hstart]
        refine ⟨rfl, fun d others hsame => ?_⟩
        cases hsame
        exact Bool.eq_false_iff.mpr hstart

/-! ### A signature -/

/-- What `next` makes of the tokens behind `token`, if they start with it. -/
def expecting (token : Token) (next : List Token → Option (List Token)) : List Token → Option (List Token)
  | [] => none
  | first :: tokens => if first = token then next tokens else none

variable {token : Token} {after : List Token → Option (List Token)}

theorem expecting_some {c : Char} (hblank : afterBlank false text = c :: rest)
    (htoken : lexeme c rest = some (token, left)) :
    (lex text).bind (expecting token after) = (lex left).bind after := by
  rw [lex_token hblank htoken]
  cases lex left with
  | none => rfl
  | some tokens => exact if_pos rfl

theorem expecting_none (h : ∀ c rest left, afterBlank false text = c :: rest → lexeme c rest ≠ some (token, left)) :
    (lex text).bind (expecting token after) = none := by
  cases hblank : afterBlank false text with
  | nil =>
      rw [lex_nil hblank]
      rfl
  | cons c rest =>
      rw [lex_cons hblank]
      cases hlexeme : lexeme c rest with
      | none => rfl
      | some taken =>
          obtain ⟨first, left⟩ := taken
          have hfirst : first ≠ token := fun hsame => h c rest left hblank (hsame ▸ hlexeme)
          rw [Option.bind_some]
          cases lex left with
          | none => rfl
          | some tokens => exact if_neg hfirst

/-- What stands behind a signature's end. -/
def resultType : List Token → Option (List Token) :=
  expecting .arrow (expecting (.word "String") (expecting (.mark ':') some))

theorem resultType_eq (tokens : List Token) : resultType tokens =
    if [.arrow, .word "String", .mark ':'].isPrefixOf tokens then some (tokens.drop 3) else none := by
  rcases tokens with _ | ⟨first, _ | ⟨second, _ | ⟨third, tokens⟩⟩⟩
  · rfl
  · rw [resultType, expecting]
    split <;> simp [expecting]
  · rw [resultType, expecting]
    split <;> simp [expecting]
  · rw [resultType, expecting, expecting, expecting]
    by_cases hfirst : first = .arrow
    · by_cases hsecond : second = .word "String"
      · by_cases hthird : third = .mark ':'
        · subst hfirst hsecond hthird
          simp
        · rw [if_pos hfirst, if_pos hsecond, if_neg hthird, if_neg]
          simp [Ne.symm hthird]
      · rw [if_pos hfirst, if_neg hsecond, if_neg]
        simp [Ne.symm hsecond]
    · rw [if_neg hfirst, if_neg]
      simp [Ne.symm hfirst]

/-- What stands behind a list and the result behind it. -/
def listed : List Token → Option (List Token) := expecting (.mark '(') fun tokens => (closing 1 tokens).bind resultType

theorem signature_eq (tokens : List Token) :
    signature tokens = listed (if tokens.head? = some (.mark '?') then tokens.tail else tokens) := by
  rw [signature]
  split
  · rename_i hnone
    rw [hnone]
    rfl
  · rename_i token list hlist
    rw [hlist, listed, expecting]
    congr 1
    congr 1
    funext rest
    exact (resultType_eq rest).symm

theorem signature_question (hblank : afterBlank false text = '?' :: rest) :
    (lex text).bind signature = (lex rest).bind listed := by
  rw [lex_token hblank (rfl : lexeme '?' rest = some (.mark '?', rest))]
  cases lex rest with
  | none => rfl
  | some tokens => exact signature_eq (.mark '?' :: tokens)

theorem signature_listed (hblank : (afterBlank false text).head? ≠ some '?') :
    (lex text).bind signature = (lex text).bind listed := by
  cases hlex : lex text with
  | none => rfl
  | some tokens =>
      have hhead : tokens.head? ≠ some (.mark '?') := by
        intro hhead
        cases hafter : afterBlank false text with
        | nil =>
            rw [lex_nil hafter] at hlex
            cases hlex
            cases hhead
        | cons c rest =>
            rw [lex_cons hafter] at hlex
            obtain ⟨⟨first, left⟩, htoken, hlex⟩ := Option.bind_eq_some_iff.mp hlex
            obtain ⟨others, -, rfl⟩ := Option.map_eq_some_iff.mp hlex
            cases hhead
            rw [hafter, ((lexeme_cases htoken).1 '?' rfl).1] at hblank
            exact hblank rfl
      show signature tokens = listed tokens
      rw [signature_eq, if_neg hhead]

/-- The answer of a scan that looks for what `next` expects: where it finds it, that is behind what is left. -/
def Answers (next : List Token → Option (List Token)) (text : List Char) (answer : Bool) (left : List Char) : Prop :=
  match answer with
  | true => (lex text).bind next = lex left ∧ left.length ≤ text.length
  | false => (lex text).bind next = none

/-- The scan answers whether the text's tokens are what `next` expects. -/
def Looks (src : List Char) (scan : Scan Bool) (text : List Char) (next : List Token → Option (List Token)) : Prop :=
  Finds src scan text (Answers next text) ((lex text).bind next = none)

/-- What stands behind what is left is looked for there. -/
theorem Looks.behind {scan : Scan Bool} {next : List Token → Option (List Token)} (h : Looks src scan left next)
    (hsame : (lex text).bind after = (lex left).bind next) (hlength : left.length ≤ text.length) :
    Finds src scan left (Answers after text) ((lex text).bind after = none) := by
  intro i hat
  refine (h i hat).mono fun outcome j hfinds => ?_
  rcases outcome with error | (_ | _)
  · exact ⟨hfinds.1, hsame.trans hfinds.2⟩
  · obtain ⟨rest, hrest, hanswer⟩ := hfinds
    exact ⟨rest, hrest, hsame.trans hanswer⟩
  · obtain ⟨rest, hrest, hanswer⟩ := hfinds
    exact ⟨rest, hrest, hsame.trans hanswer.1, hanswer.2.trans hlength⟩

theorem looks_colon (src text : List Char) :
    Looks src (BendScan.skip src >>= fun _ => BendScan.takeText src ":") text (expecting (.mark ':') some) := by
  refine (reads_skip src text).then ?_
  have hshort := afterBlank_length false text
  intro i hat
  by_cases hcolon : (afterBlank false text).head? = some ':'
  · obtain ⟨rest, hblank⟩ := List.head?_eq_some_iff.mp hcolon
    rw [hblank] at hat hshort
    refine (reads_takeMark rfl i hat).mono fun outcome j hread => ?_
    obtain ⟨rfl, hleft⟩ := hread
    refine ⟨rest, hleft, ?_, Nat.le_of_succ_le hshort⟩
    rw [expecting_some hblank rfl, Option.bind_fun_some]
  · refine (reads_takeNoMark rfl hcolon i hat).mono fun outcome j hread => ?_
    obtain ⟨rfl, hleft⟩ := hread
    refine ⟨_, hleft, expecting_none fun c rest left hblank htoken => hcolon ?_⟩
    rw [hblank, ((lexeme_cases htoken).1 ':' rfl).1]
    rfl

/-- A word at the front of a text is its name. -/
theorem reads_word {word : String}
    (hword : ∃ head others, word.toList = head :: others ∧ isNameStart head = true ∧ ∀ c ∈ others, isNameChar c = true)
    (src text : List Char) :
    Reads src (BendScan.atWord src word) text (some (decide ((nameOf text).1 = some word.toList), text)) := by
  have hread := @reads_atWord src text word
  rwa [decide_eq_decide.mpr (nameOf_eq_iff hword)] at hread

theorem reads_pastWord {word : String} (hname : nameOf text = (some word.toList, left)) :
    Reads src (BendScan.advance word.utf8ByteSize) text (some (⟨⟩, left)) := by
  rw [nameOf_append hname]
  exact reads_advance (by rw [length_encode, utf8ByteSize_eq])

/-- The token that a name at the front of a text is. -/
theorem lexeme_of_name {name : List Char} (h : (nameOf (afterBlank false text)).1 = some name) :
    ∃ c rest left, afterBlank false text = c :: rest ∧ lexeme c rest = some (.name name, left) ∧
      nameOf (afterBlank false text) = (some name, left) ∧ left.length < text.length := by
  have hfound : nameOf (afterBlank false text) = (some name, (nameOf (afterBlank false text)).2) := by rw [← h]
  have hshort := afterBlank_length false text
  cases hblank : afterBlank false text with
  | nil =>
      rw [hblank] at h
      cases h
  | cons c rest =>
      rw [hblank] at hfound hshort
      have htoken := lexeme_nameOf hfound
      exact ⟨c, rest, _, rfl, htoken, hfound, Nat.lt_of_le_of_lt (lexeme_length htoken) hshort⟩

theorem looks_string (src text : List Char) : Looks src (do
    BendScan.skip src
    if ← BendScan.atWord src "String" then do
      BendScan.advance "String".utf8ByteSize
      BendScan.skip src
      BendScan.takeText src ":"
    else pure false) text (expecting (.word "String") (expecting (.mark ':') some)) := by
  refine (reads_skip src text).then ((reads_word ⟨'S', "tring".toList, rfl, rfl, by simp [isNameChar]⟩ src _).then ?_)
  by_cases hname : (nameOf (afterBlank false text)).1 = some "String".toList
  · rw [decide_eq_true hname, if_pos rfl]
    obtain ⟨c, rest, left, hblank, htoken, hfound, hshort⟩ := lexeme_of_name hname
    exact (reads_pastWord hfound).then ((looks_colon src left).behind (expecting_some hblank htoken) hshort.le)
  · rw [decide_eq_false hname, if_neg Bool.false_ne_true]
    refine finds_pure (expecting_none fun c rest left hblank htoken => hname ?_)
    rw [hblank, nameOf_lexeme htoken]

theorem looks_arrow (src text : List Char) : Looks src (do
    BendScan.skip src
    if ← BendScan.takeText src "->" then do
      BendScan.skip src
      if ← BendScan.atWord src "String" then do
        BendScan.advance "String".utf8ByteSize
        BendScan.skip src
        BendScan.takeText src ":"
      else pure false
    else pure false) text resultType := by
  refine (reads_skip src text).then ?_
  have hshort := afterBlank_length false text
  have hread := @reads_takeText src (afterBlank false text) "->"
  by_cases hfront : "->".toList <+: afterBlank false text
  · obtain ⟨left, hblank⟩ := hfront
    rw [← hblank, if_pos (List.prefix_append _ _), List.drop_left] at hread
    rw [← hblank]
    rw [← hblank, List.length_append] at hshort
    refine hread.then ?_
    exact (looks_string src left).behind (expecting_some hblank.symm rfl) (by omega)
  · rw [if_neg hfront] at hread
    refine hread.then (finds_pure (expecting_none fun c rest left hblank htoken => hfront ?_))
    obtain ⟨rfl, rfl⟩ := (lexeme_cases htoken).2.1 rfl
    rw [hblank]
    exact ⟨left, rfl⟩

/-- What the scan does behind the name and the question mark of a `main`. -/
theorem looks_listed (src text : List Char) (hlength : (encode src).length < 2 ^ 32) : Looks src (do
    BendScan.skip src
    if ← BendScan.takeText src "(" then do
      BendScan.skipBalanced src
      BendScan.skip src
      if ← BendScan.takeText src "->" then do
        BendScan.skip src
        if ← BendScan.atWord src "String" then do
          BendScan.advance "String".utf8ByteSize
          BendScan.skip src
          BendScan.takeText src ":"
        else pure false
      else pure false
    else pure false) text listed := by
  refine (reads_skip src text).then ?_
  have hshort := afterBlank_length false text
  by_cases hopen : (afterBlank false text).head? = some '('
  · obtain ⟨list, hblank⟩ := List.head?_eq_some_iff.mp hopen
    have hsame : (lex text).bind listed = (behind 1 list).bind resultType := by
      rw [listed, expecting_some hblank (lexeme_open list), behind, Option.bind_assoc]
    rw [hblank] at hshort ⊢
    intro i hat
    have hless := hat.suffix.length_le
    rw [List.length_cons] at hless hshort
    refine ((reads_takeMark rfl).then
      ((finds_skipBalanced src list (by omega) hlength).bind (fun hnone => ?_) fun _ left hbehind => ?_)) i hat
    · rw [hsame, hnone]
      rfl
    · exact (looks_arrow src left).behind (by rw [hsame, hbehind.1]) (by omega)
  · refine (reads_takeNoMark rfl hopen).then (finds_pure (expecting_none fun c rest left hblank htoken => hopen ?_))
    rw [hblank, ((lexeme_cases htoken).1 '(' rfl).1]
    rfl

theorem looks_signature (src text : List Char) (hlength : (encode src).length < 2 ^ 32) :
    Looks src (BendScan.mainReturnsString src) text signature := by
  rw [BendScan.mainReturnsString]
  refine (reads_skip src text).then ((reads_atByte (by decide : '?'.toNat < 128)).then ?_)
  have hshort := afterBlank_length false text
  by_cases hquestion : (afterBlank false text).head? = some '?'
  · obtain ⟨rest, hblank⟩ := List.head?_eq_some_iff.mp hquestion
    rw [hblank] at hshort ⊢
    rw [List.length_cons] at hshort
    rw [List.head?_cons, decide_eq_true rfl, if_pos rfl]
    refine (reads_advance_one (by decide)).then
      ((looks_listed src rest hlength).behind (signature_question hblank) (by omega))
  · rw [decide_eq_false hquestion, if_neg Bool.false_ne_true]
    refine (looks_listed src (afterBlank false text) hlength).behind ?_ hshort
    rw [signature_listed hquestion, lex_afterBlank]

/-! ### The loop over the source -/

/-- What one turn says about the mains of the text in front of it. -/
def Tells (mains : Nat) (text : List Char) (turn : LoopTurn Nat Nat) (left : List Char) : Prop :=
  match turn with
  | .again total =>
      left.length < text.length ∧ ∃ step, total = mains + step ∧ ∀ n, Counted text n ↔ ∃ others, n = step + others ∧
        Counted left others
  | .done total => total = mains ∧ ∀ n, Counted text n ↔ n = 0

variable {mains : Nat}

theorem tells_same (hlength : left.length < text.length) (h : ∀ n, Counted text n ↔ Counted left n) :
    Tells mains text (.again mains) left := by
  refine ⟨hlength, 0, rfl, fun n => (h n).trans ?_⟩
  constructor
  · intro hleft
    exact ⟨n, (Nat.zero_add n).symm, hleft⟩
  · rintro ⟨others, rfl, hleft⟩
    rwa [Nat.zero_add]

/-- The name behind a `def`. -/
theorem reads_defNameIsMain (src text : List Char) : Reads src (BendScan.defNameIsMain src) text
    (some ((nameOf (afterBlank false text)).1 == some "main".toList, (nameOf (afterBlank false text)).2)) :=
  (reads_skip src text).bind ((reads_readName src _).bind (reads_pure src _ _))

variable {c : Char}

/-- A `main` whose signature is not that of a string is none of those that are counted. -/
theorem not_counted_main (htokens : lex text = (lex left).map fun tokens => .word "def" ::
    .name "main".toList :: tokens)
    (hsignature : (lex left).bind signature = none) (n : Nat) : ¬ Counted text n := by
  rw [counted_main htokens, hsignature]
  rintro ⟨tokens, earlier, h, -⟩
  cases h

theorem tells_main (htokens : lex text = (lex left).map fun tokens => .word "def" :: .name "main".toList :: tokens)
    (hsignature : (lex left).bind signature = lex rest) (hlength : rest.length < text.length) :
    Tells mains text (.again (mains + 1)) rest := by
  refine ⟨hlength, 1, rfl, fun n => (counted_main htokens).trans ?_⟩
  rw [hsignature]
  constructor
  · rintro ⟨tokens, earlier, hlex, hmains, rfl⟩
    exact ⟨earlier, Nat.add_comm earlier 1, tokens, hlex, hmains⟩
  · rintro ⟨others, rfl, tokens, hlex, hmains⟩
    exact ⟨tokens, others, hlex, hmains, Nat.add_comm 1 others⟩

/-- Behind a `def`, the scan takes a name and, where that is `main`, a signature. -/
theorem finds_def (src : List Char) (hlength : (encode src).length < 2 ^ 32)
    (hblank : afterBlank false text = c :: rest) (htoken : lexeme c rest = some (.word "def", left))
    (hleft : left.length < text.length) :
    Finds src (do
      if ← BendScan.defNameIsMain src then
        if ← BendScan.mainReturnsString src then pure (.again (mains + 1)) else refuse
      else pure (.again mains)) left (Tells mains text) (∀ n, ¬ Counted text n) := by
  refine (reads_defNameIsMain src left).then ?_
  have hshort := afterBlank_length false left
  cases hname : (nameOf (afterBlank false left)).1 with
  | none =>
      obtain ⟨hsame, hstart⟩ := nameOf_none hname
      rw [hsame]
      refine finds_pure (tells_same (by omega) fun n => ?_)
      rw [counted_alone hblank htoken hstart, counted_afterBlank]
  | some name =>
      obtain ⟨d, after, others, hnext, hnamed, hfound, hless⟩ := lexeme_of_name hname
      have htokens := lex_def hblank htoken hnext hnamed
      rw [hfound]
      by_cases hmain : name = "main".toList
      · subst hmain
        rw [beq_self_eq_true, if_pos rfl]
        refine (looks_signature src others hlength).bind (fun hnone => not_counted_main htokens hnone)
          fun answer behind hanswer => ?_
        cases answer with
        | true => exact finds_pure (tells_main htokens hanswer.1 (by have := hanswer.2; omega))
        | false => exact finds_refuse (not_counted_main htokens hanswer)
      · have hother : (some name == some "main".toList) = false := by
          rw [beq_eq_false_iff_ne]
          exact fun hsame => hmain (Option.some_inj.mp hsame)
        rw [hother, if_neg Bool.false_ne_true]
        have htells : Tells mains text (.again mains) others :=
          tells_same (by omega) fun n => counted_named htokens hmain
        exact finds_pure htells

theorem finds_mainTurn (src text : List Char) (mains : Nat) (hlength : (encode src).length < 2 ^ 32) :
    Finds src (BendScan.mainTurn src mains) text (Tells mains text) (∀ n, ¬ Counted text n) := by
  rw [BendScan.mainTurn]
  refine (reads_atEnd src text).then ?_
  cases htext : text with
  | nil => exact finds_pure ⟨rfl, counted_nil rfl⟩
  | cons first others =>
      rw [List.isEmpty_cons, if_neg Bool.false_ne_true, ← htext]
      clear htext first others
      refine (reads_skip src text).then ((reads_atEnd src _).then ?_)
      have hshort := afterBlank_length false text
      cases hblank : afterBlank false text with
      | nil => exact finds_pure ⟨rfl, counted_nil hblank⟩
      | cons c rest =>
          rw [hblank, List.length_cons] at hshort
          rw [List.isEmpty_cons, if_neg Bool.false_ne_true, ← hblank]
          refine (reads_word ⟨'d', "ef".toList, rfl, rfl, by simp [isNameChar]⟩ src _).then ?_
          by_cases hdef : (nameOf (afterBlank false text)).1 = some "def".toList
          · rw [decide_eq_true hdef, if_pos rfl]
            obtain ⟨d, after, left, hnext, htoken, hfound, hless⟩ := lexeme_of_name hdef
            have hpast : Reads src (BendScan.advance "def".utf8ByteSize) _ _ := reads_pastWord hfound
            exact hpast.then (finds_def src hlength hnext htoken hless)
          rw [decide_eq_false hdef, if_neg Bool.false_ne_true]
          have hother : ∀ {left token}, lexeme c rest = some (token, left) → token ≠ .word "def" := by
            rintro left token htoken rfl
            rw [hblank, nameOf_lexeme htoken] at hdef
            exact hdef rfl
          have htells : ∀ {left token}, lexeme c rest = some (token, left) → Tells mains text (.again mains) left := by
            intro left token htoken
            have hleft := lexeme_length htoken
            exact tells_same (by omega) fun n => counted_token hblank htoken (hother htoken)
          have hrefused : lexeme c rest = none → ∀ n, ¬ Counted text n := fun hnone n => not_counted hblank hnone n
          rw [hblank]
          refine (reads_atByte (by decide : '"'.toNat < 128)).then ?_
          rw [List.head?_cons]
          by_cases hstring : c = '"'
          · subst hstring
            rw [decide_eq_true rfl, if_pos rfl]
            exact (reads_skipString src rest).literal (lexeme_string rest) hrefused fun left htoken =>
              finds_pure (htells htoken)
          rw [decide_eq_false (fun h => hstring (Option.some_inj.mp h)), if_neg Bool.false_ne_true]
          refine (reads_atByte (by decide : '\''.toNat < 128)).then ?_
          rw [List.head?_cons]
          by_cases hchar : c = '\''
          · subst hchar
            rw [decide_eq_true rfl, if_pos rfl]
            exact (reads_skipCharLit src rest).literal (lexeme_char rest) hrefused fun left htoken =>
              finds_pure (htells htoken)
          rw [decide_eq_false (fun h => hchar (Option.some_inj.mp h)), if_neg Bool.false_ne_true]
          have hread := reads_readName src (c :: rest)
          by_cases hstart : isNameStart c = true
          · rw [nameOf, if_pos hstart] at hread
            refine hread.then ?_
            rw [Option.isSome_some, if_pos rfl]
            exact finds_pure (htells (lexeme_name hstart rest))
          rw [nameOf, if_neg hstart] at hread
          refine hread.then ?_
          rw [Option.isSome_none, if_neg Bool.false_ne_true]
          have hnumber := reads_skipNumber src (c :: rest)
          rw [List.head?_cons, Option.any_some] at hnumber
          by_cases hdigit : c.isDigit = true
          · rw [if_pos hdigit] at hnumber
            refine hnumber.then ?_
            rw [if_pos rfl]
            refine finds_pure (@htells _ .number ?_)
            rw [lexeme, if_neg hstring, if_neg hchar, if_neg hstart, if_pos hdigit]
          rw [if_neg hdigit] at hnumber
          refine hnumber.then ?_
          rw [if_neg Bool.false_ne_true]
          have hlexeme : lexeme c rest = if c = '-' ∧ rest.head? = some '>' then some (.arrow, rest.tail)
              else some (.mark c, rest) := by
            rw [lexeme, if_neg hstring, if_neg hchar, if_neg hstart, if_neg hdigit]
          have hmore : Tells mains text (.again mains) rest := by
            by_cases harrow : c = '-' ∧ rest.head? = some '>'
            · obtain ⟨rfl, hhead⟩ := harrow
              obtain ⟨left, rfl⟩ := List.head?_eq_some_iff.mp hhead
              -- The rest of an arrow is a mark, which says as little.
              have hmark : ∀ n, Counted ('>' :: left) n ↔ Counted left n :=
                fun n => counted_token (afterBlank_cons (by decide) (by decide) left) rfl (fun h => by cases h)
              have harrow : lexeme '-' ('>' :: left) = some (.arrow, left) := rfl
              refine tells_same (by omega) fun n => ?_
              rw [hmark, counted_token hblank harrow (fun h => by cases h)]
            · rw [if_neg harrow] at hlexeme
              exact htells hlexeme
          exact (reads_bumpChar src (c :: rest)).then_pure hmore

/-- The loop over the source finds how many mains its tokens define. -/
theorem finds_mains (src : List Char) (hlength : (encode src).length < 2 ^ 32) :
    Ends (loop .endless (BendScan.mainTurn src) (BendScan.turns src) 0) 0 fun outcome _ => match outcome with
      | .ok mains => ∀ n, Counted src n ↔ n = mains
      | .error error => error = .refused mainMustBeString ∧ ∀ n, ¬ Counted src n := by
  refine ends_loop (fun _ j => (encode src).length - j)
    (fun mains j => ∃ text, At src j text ∧
      ∀ n, Counted src n ↔ ∃ others, n = mains + others ∧ Counted text others) _ ?_
    ⟨src, At.start src, fun n => ?_⟩ (Nat.lt_succ_of_le (Nat.sub_le _ _))
  · rintro mains j ⟨text, hat, hcounted⟩
    refine (finds_mainTurn src text mains hlength j hat).mono fun outcome k hturn => ?_
    rcases outcome with error | (total | total)
    · refine ⟨hturn.1, fun n hn => ?_⟩
      obtain ⟨others, -, hothers⟩ := (hcounted n).mp hn
      exact hturn.2 others hothers
    · obtain ⟨left, hleft, hless, step, rfl, hstep⟩ := hturn
      have hlater := hat.lt_of_length_lt hleft hless
      have hle := hleft.le
      refine ⟨⟨left, hleft, fun n => (hcounted n).trans ?_⟩, by omega⟩
      constructor
      · rintro ⟨others, rfl, hothers⟩
        obtain ⟨fewer, rfl, hfewer⟩ := (hstep others).mp hothers
        exact ⟨fewer, (Nat.add_assoc _ _ _).symm, hfewer⟩
      · rintro ⟨fewer, rfl, hfewer⟩
        exact ⟨step + fewer, Nat.add_assoc _ _ _, (hstep _).mpr ⟨fewer, rfl, hfewer⟩⟩
    · obtain ⟨left, -, rfl, hnone⟩ := hturn
      intro n
      rw [hcounted]
      constructor
      · rintro ⟨others, rfl, hothers⟩
        rw [(hnone others).mp hothers, Nat.add_zero]
      · rintro rfl
        exact ⟨0, (Nat.add_zero _).symm, (hnone 0).mpr rfl⟩
  · constructor
    · exact fun h => ⟨n, (Nat.zero_add n).symm, h⟩
    · rintro ⟨others, rfl, h⟩
      rwa [Nat.zero_add]

/-! ### The guard -/

/-- The guard never panics and never goes on for ever, and it accepts the sources whose tokens define one `main`,
which returns a string. -/
theorem assertStringMain_iff (src : List Char) (hlength : (encode src).length < 2 ^ 32) :
    (assertStringMain src = .ok () ↔ ∃ tokens, lex src = some tokens ∧ StringMains tokens 1) ∧
      (assertStringMain src = .ok () ∨ ∃ error, assertStringMain src = .error (.refused error)) := by
  have hends := finds_mains src hlength
  rw [Ends] at hends
  rw [assertStringMain]
  cases houtcome : ((loop .endless (BendScan.mainTurn src) (BendScan.turns src) 0).run.run 0).1 with
  | error error =>
      rw [houtcome] at hends
      obtain ⟨rfl, hnone⟩ := hends
      exact ⟨⟨by simp, fun h => absurd h (hnone 1)⟩, .inr ⟨_, rfl⟩⟩
  | ok mains =>
      rw [houtcome] at hends
      by_cases hone : mains = 1
      · subst hone
        exact ⟨⟨fun _ => (hends 1).mpr rfl, fun _ => rfl⟩, .inl rfl⟩
      · dsimp only
        rw [show (if mains ≠ 1 then (.error (.refused (.encoding "needs one def main() -> String:")) : Except Halt Unit)
          else .ok ()) =
          .error (.refused (.encoding "needs one def main() -> String:")) from if_pos hone]
        exact ⟨⟨by simp, fun h => absurd ((hends 1).mp h).symm hone⟩, .inr ⟨_, rfl⟩⟩

theorem assertStringMain_iff_text :
    assertStringMain "def main() -> String:\n  \"def main() -> IO:\" # def main".toList = .ok () ∧
    ∃ tokens, lex "def main() -> String:\n  \"def main() -> IO:\" # def main".toList = some tokens ∧
      StringMains tokens 1 :=
  have haccepted : assertStringMain "def main() -> String:\n  \"def main() -> IO:\" # def main".toList = .ok () := by
    decide +kernel
  ⟨haccepted, (assertStringMain_iff _ (by decide +kernel)).1.mp haccepted⟩

/-- A `def main` among the parameters of the `main` is not looked at. -/
theorem accepts_nested_main :
    ¬ ∀ src, assertStringMain src = .ok () → ∃ tokens, lex src = some tokens ∧ occurrences tokens = 1 := by
  intro hstated
  obtain ⟨tokens, hlex, hone⟩ := hstated "def main(def main) -> String:".toList (by decide +kernel)
  have hread : lex "def main(def main) -> String:".toList =
    some [.word "def", .word "main", .mark '(', .word "def", .word "main", .mark ')',
      .arrow, .word "String", .mark ':'] := by
    decide +kernel
  cases hread.symm.trans hlex
  exact absurd hone (by decide +kernel)

end Bend

end Gol
