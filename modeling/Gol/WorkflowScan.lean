import Gol.WorkflowTokens

/-! The main guard's scanner against the lexical rules. Wherever the scanner stands a character starts, and each of
its steps takes the bytes of the text that the rules take. -/

namespace Gol
open Library Fallible

namespace Bend

/-! ### Characters as bytes -/

theorem encode_cons (c : Char) (rest : List Char) : encode (c :: rest) = String.utf8EncodeChar c ++ encode rest := rfl

theorem encode_append (text rest : List Char) : encode (text ++ rest) = encode text ++ encode rest :=
  List.flatMap_append

theorem length_encode (text : List Char) : (encode text).length = (text.map Char.utf8Size).sum := by
  induction text with
  | nil => rfl
  | cons c rest ih =>
      rw [encode_cons, List.length_append, String.length_utf8EncodeChar, ih, List.map_cons, List.sum_cons]

theorem length_le_encode (text : List Char) : text.length ≤ (encode text).length := by
  induction text with
  | nil => exact Nat.le_refl _
  | cons c rest ih =>
      have hc := c.utf8Size_pos
      rw [encode_cons, List.length_append, String.length_utf8EncodeChar, List.length_cons]
      omega

/-- An ASCII character is one byte, and the bytes of any other are no ASCII ones. -/
theorem encodeChar_cases (c : Char) : (c.toNat < 128 ∧ String.utf8EncodeChar c = [UInt8.ofNat c.toNat]) ∨
    (128 ≤ c.toNat ∧ ∀ byte ∈ String.utf8EncodeChar c, 128 ≤ byte.toNat) := by
  by_cases hc : c.val.toNat ≤ 0x7f
  · exact .inl ⟨Nat.lt_succ_of_le hc, by rw [String.utf8EncodeChar]; exact if_pos hc⟩
  · refine .inr ⟨Nat.lt_of_not_le hc, ?_⟩
    rw [String.utf8EncodeChar]
    simp only [if_neg hc]
    split
    · simp only [List.mem_cons, List.not_mem_nil, or_false, forall_eq_or_imp, forall_eq, UInt8.toNat_ofNat']
      omega
    · split
      · simp only [List.mem_cons, List.not_mem_nil, or_false, forall_eq_or_imp, forall_eq, UInt8.toNat_ofNat']
        omega
      · simp only [List.mem_cons, List.not_mem_nil, or_false, forall_eq_or_imp, forall_eq, UInt8.toNat_ofNat']
        omega

theorem encodeChar_ascii {c : Char} (hc : c.toNat < 128) : String.utf8EncodeChar c = [UInt8.ofNat c.toNat] := by
  rcases encodeChar_cases c with ⟨-, hsame⟩ | ⟨hwide, -⟩
  · exact hsame
  · omega

theorem encode_ascii {c : Char} (hc : c.toNat < 128) (rest : List Char) :
    encode (c :: rest) = UInt8.ofNat c.toNat :: encode rest := by
  rw [encode_cons, encodeChar_ascii hc, List.singleton_append]

theorem byte_inj {c d : Char} (hc : c.toNat < 128) (hd : d.toNat < 128)
    (h : UInt8.ofNat c.toNat = UInt8.ofNat d.toNat) : c = d := by
  have hsame := congrArg UInt8.toNat h
  rw [UInt8.toNat_ofNat', UInt8.toNat_ofNat', Nat.mod_eq_of_lt (by omega), Nat.mod_eq_of_lt (by omega)] at hsame
  exact Char.toNat_inj.mp hsame

/-- The first byte of a text is an ASCII character's where the text starts with it. -/
theorem head_encode {c : Char} (hc : c.toNat < 128) (text : List Char) :
    (encode text).head? = some (UInt8.ofNat c.toNat) ↔ text.head? = some c := by
  cases text with
  | nil => exact ⟨nofun, nofun⟩
  | cons d rest =>
      rw [encode_cons, List.head?_cons, Option.some_inj]
      rcases encodeChar_cases d with ⟨hd, hsame⟩ | ⟨hd, hwide⟩
      · rw [hsame, List.singleton_append, List.head?_cons, Option.some_inj]
        exact ⟨byte_inj hd hc, fun h => h ▸ rfl⟩
      · cases hbytes : String.utf8EncodeChar d with
        | nil => exact absurd hbytes String.utf8EncodeChar_ne_nil
        | cons byte bytes =>
            rw [List.cons_append, List.head?_cons, Option.some_inj]
            have hbyte := hwide byte (hbytes ▸ List.mem_cons_self)
            constructor
            · rintro rfl
              rw [UInt8.toNat_ofNat'] at hbyte
              omega
            · rintro rfl
              omega

/-- A class of bytes holds the bytes of the ASCII characters of a class of characters, which has no others. -/
structure Classes (bytes : UInt8 → Bool) (chars : Char → Bool) : Prop where
  ascii : ∀ c : Char, c.toNat < 128 → bytes (UInt8.ofNat c.toNat) = chars c
  wideByte : ∀ byte : UInt8, 128 ≤ byte.toNat → bytes byte = false
  wideChar : ∀ c : Char, 128 ≤ c.toNat → chars c = false

theorem classes_digit : Classes isDigitByte Char.isDigit where
  ascii c hc := by
    simp only [isDigitByte, Char.isDigit, ge_iff_le, UInt8.le_iff_toNat_le, UInt32.le_iff_toNat_le, UInt8.toNat_ofNat',
      Nat.mod_eq_of_lt (show c.toNat < 2 ^ 8 by omega)]
    rfl
  wideByte byte hbyte := by
    simp only [isDigitByte, UInt8.le_iff_toNat_le, Bool.and_eq_false_iff, decide_eq_false_iff_not]
    exact .inr (by simp; omega)
  wideChar c hc := by
    simp only [Char.isDigit, ge_iff_le, UInt32.le_iff_toNat_le, Bool.and_eq_false_iff, decide_eq_false_iff_not]
    exact .inr (by show ¬ c.toNat ≤ 57; omega)

theorem classes_hex : Classes isHexByte isHex where
  ascii c hc := by
    simp only [isHexByte, isHex, classes_digit.ascii c hc, Char.le_def, UInt8.le_iff_toNat_le, UInt32.le_iff_toNat_le,
      UInt8.toNat_ofNat', Nat.mod_eq_of_lt (show c.toNat < 2 ^ 8 by omega)]
    rfl
  wideByte byte hbyte := by
    simp only [isHexByte, classes_digit.wideByte byte hbyte, UInt8.le_iff_toNat_le, Bool.or_eq_false_iff,
      Bool.and_eq_false_iff, decide_eq_false_iff_not, true_and]
    exact ⟨.inr (by simp; omega), .inr (by simp; omega)⟩
  wideChar c hc := by
    simp only [isHex, classes_digit.wideChar c hc, Char.le_def, UInt32.le_iff_toNat_le, Bool.or_eq_false_iff,
      Bool.and_eq_false_iff, decide_eq_false_iff_not, true_and]
    exact ⟨.inr (by show ¬ c.toNat ≤ 102; omega), .inr (by show ¬ c.toNat ≤ 70; omega)⟩

variable {bytes : UInt8 → Bool} {chars : Char → Bool}

/-- A class takes as many bytes as characters. -/
theorem Classes.takeWhile_length (h : Classes bytes chars) (text : List Char) :
    ((encode text).takeWhile bytes).length = (text.takeWhile chars).length := by
  induction text with
  | nil => rfl
  | cons c rest ih =>
      rcases encodeChar_cases c with ⟨hc, hsame⟩ | ⟨hc, hwide⟩
      · rw [encode_ascii hc, List.takeWhile_cons, List.takeWhile_cons, h.ascii c hc]
        split
        · rw [List.length_cons, List.length_cons, ih]
        · rfl
      · rw [List.takeWhile_cons_of_neg (by rw [h.wideChar c hc]; exact Bool.false_ne_true), encode_cons]
        cases hbytes : String.utf8EncodeChar c with
        | nil => exact absurd hbytes String.utf8EncodeChar_ne_nil
        | cons byte others =>
            have hbyte := h.wideByte byte (hwide byte (hbytes ▸ List.mem_cons_self))
            rw [List.cons_append, List.takeWhile_cons_of_neg (by rw [hbyte]; exact Bool.false_ne_true)]
            rfl

theorem Classes.encode_takeWhile_length (h : Classes bytes chars) (text : List Char) :
    (encode (text.takeWhile chars)).length = (text.takeWhile chars).length := by
  induction text with
  | nil => rfl
  | cons c rest ih =>
      rw [List.takeWhile_cons]
      split
      · rename_i hchar
        have hc : c.toNat < 128 := by
          by_contra hwide
          rw [h.wideChar c (by omega)] at hchar
          cases hchar
        rw [encode_ascii hc, List.length_cons, List.length_cons, ih]
      · rfl

/-- Behind the bytes of a class stands the text behind its characters. -/
theorem Classes.drop_encode (h : Classes bytes chars) (text : List Char) :
    (encode text).drop ((encode text).takeWhile bytes).length = encode (text.dropWhile chars) := by
  rw [h.takeWhile_length, ← h.encode_takeWhile_length]
  conv_lhs => rw [← List.takeWhile_append_dropWhile (p := chars) (l := text), encode_append]
  rw [List.takeWhile_append_dropWhile, List.drop_left]

/-! ### Places in a source -/

/-- The scan has reached the place `i`, and `rest` is what is left of the source there. -/
structure At (src : List Char) (i : Nat) (rest : List Char) : Prop where
  suffix : rest <:+ src
  size : i + (encode rest).length = (encode src).length

theorem At.start (src : List Char) : At src 0 src := ⟨List.suffix_refl src, Nat.zero_add _⟩

variable {src rest left : List Char} {i bytes : Nat}

theorem At.move (h : At src i rest) (hleft : left <:+ rest)
    (hsize : bytes + (encode left).length = (encode rest).length) :
    At src (i + bytes) left :=
  ⟨hleft.trans h.suffix, by rw [← h.size, ← hsize, Nat.add_assoc]⟩

/-- Over `front`, a scan moves by its bytes. -/
theorem At.skip {front : List Char} (h : At src i (front ++ left)) : At src (i + (encode front).length) left :=
  h.move (List.suffix_append front left) (by rw [encode_append, List.length_append])

theorem At.drop (h : At src i rest) : (encode src).drop i = encode rest := by
  obtain ⟨before, hbefore⟩ := h.suffix
  have hsize := h.size
  rw [← hbefore, encode_append, List.length_append] at hsize
  rw [← hbefore, encode_append]
  exact List.drop_left' (by omega)

theorem At.getElem? (h : At src i rest) (n : Nat) : (encode src)[i + n]? = (encode rest)[n]? := by
  rw [← h.drop, List.getElem?_drop]

theorem At.le (h : At src i rest) : i ≤ (encode src).length := Nat.le_of_add_right_le h.size.le

theorem At.lt_of_length_lt {j : Nat} (h : At src i rest) (hleft : At src j left) (hless : left.length < rest.length) :
    i < j := by
  obtain ⟨front, hfront⟩ := List.suffix_of_suffix_length_le hleft.suffix h.suffix hless.le
  have hsize := h.size
  have hleftSize := hleft.size
  have hlong := length_le_encode front
  rw [← hfront, List.length_append] at hless
  rw [← hfront, encode_append, List.length_append] at hsize
  omega

theorem suffixAt_append (before rest : List Char) : suffixAt (before ++ rest) (encode before).length = some rest := by
  induction before with
  | nil =>
      cases rest <;> rfl
  | cons c before ih =>
      have hc := c.utf8Size_pos
      obtain ⟨n, hn⟩ : ∃ n, (encode (c :: before)).length = n + 1 := Nat.exists_eq_add_one.mpr (by
        rw [encode_cons, List.length_append, String.length_utf8EncodeChar]
        omega)
      have hsize : (encode (c :: before)).length = c.utf8Size + (encode before).length := by
        rw [encode_cons, List.length_append, String.length_utf8EncodeChar]
      have hrest : n + 1 - c.utf8Size = (encode before).length := by omega
      rw [hn, List.cons_append, suffixAt, if_pos (by omega), hrest, ih]

theorem At.suffixAt (h : At src i rest) : suffixAt src i = some rest := by
  obtain ⟨before, hbefore⟩ := h.suffix
  have hsize := h.size
  rw [← hbefore, encode_append, List.length_append] at hsize
  rw [← hbefore, show i = (encode before).length by omega, suffixAt_append]

theorem frontOf_append (front rest : List Char) :
    frontOf (front ++ rest) ((front.map Char.utf8Size).sum) = some front := by
  induction front with
  | nil =>
      cases rest <;> rfl
  | cons c front ih =>
      have hc := c.utf8Size_pos
      obtain ⟨n, hn⟩ : ∃ n, ((c :: front).map Char.utf8Size).sum = n + 1 := Nat.exists_eq_add_one.mpr (by
        rw [List.map_cons, List.sum_cons]
        omega)
      have hsize : ((c :: front).map Char.utf8Size).sum = c.utf8Size + (front.map Char.utf8Size).sum := by
        rw [List.map_cons, List.sum_cons]
      have hrest : n + 1 - c.utf8Size = (front.map Char.utf8Size).sum := by omega
      rw [hn, List.cons_append, frontOf, if_pos (by omega), hrest, ih]
      rfl

/-! ### What a step reads -/

/-- Where the rest of the source is `rest`, the scan gives the value of `effect` and leaves its text, or refuses where
it has none. -/
def Reads {α : Type} (src : List Char) (scan : Scan α) (rest : List Char) (effect : Option (α × List Char)) : Prop :=
  ∀ i, At src i rest → Ends scan i fun outcome j => match effect with
    | some (value, left) => outcome = .ok value ∧ At src j left
    | none => outcome = .error (.refused mainMustBeString)

variable {α β : Type} {scan : Scan α} {value : α}

theorem reads_pure (src rest : List Char) (value : α) : Reads src (pure value) rest (some (value, rest)) :=
  fun _ h => ⟨rfl, h⟩

theorem reads_refuse (src rest : List Char) : Reads (α := α) src refuse rest none := fun _ _ => rfl

theorem Reads.bind {next : α → Scan β} {effect : Option (β × List Char)} (h : Reads src scan rest (some (value, left)))
    (hnext : Reads src (next value) left effect) : Reads src (scan >>= next) rest effect := by
  intro i hat
  rw [ends_bind]
  refine (h i hat).mono fun outcome j hread => ?_
  obtain ⟨rfl, hleft⟩ := hread
  exact hnext j hleft

theorem Reads.bind_none {next : α → Scan β} (h : Reads src scan rest none) : Reads src (scan >>= next) rest none := by
  intro i hat
  rw [ends_bind]
  refine (h i hat).mono fun outcome j hread => ?_
  subst hread
  rfl

theorem reads_slice (src rest : List Char) : Reads src (BendScan.slice src) rest (some (rest, rest)) := by
  intro i h
  rw [BendScan.slice, ends_bind, ends_get]
  dsimp only
  rw [h.suffixAt]
  exact ⟨rfl, h⟩

theorem reads_advance {front : List Char} (hbytes : bytes = (encode front).length) :
    Reads src (BendScan.advance bytes) (front ++ left) (some (⟨⟩, left)) := by
  intro i h
  rw [BendScan.advance, ends_modify, hbytes]
  exact ⟨rfl, h.skip⟩

theorem reads_advance_one {c : Char} (hc : c.toNat < 128) :
    Reads src (BendScan.advance 1) (c :: left) (some (⟨⟩, left)) :=
  @reads_advance src _ _ [c] (by rw [encode_ascii hc]; rfl)

theorem reads_advance_char {c : Char} : Reads src (BendScan.advance c.utf8Size) (c :: left) (some (⟨⟩, left)) :=
  @reads_advance src _ _ [c] (by rw [length_encode, List.map_singleton, List.sum_singleton])

theorem reads_atEnd (src rest : List Char) : Reads src (BendScan.atEnd src) rest (some (rest.isEmpty, rest)) := by
  intro i h
  rw [BendScan.atEnd, ends_bind, ends_get]
  refine ⟨congrArg Except.ok ?_, h⟩
  have hsize := h.size
  cases rest with
  | nil => exact decide_eq_true (by rw [← hsize]; exact Nat.le_refl _)
  | cons c rest =>
      have hlong := length_le_encode (c :: rest)
      rw [List.length_cons] at hlong
      exact decide_eq_false (by omega)

theorem reads_atByte {c : Char} (hc : c.toNat < 128) :
    Reads src (BendScan.atByte src (UInt8.ofNat c.toNat)) rest (some (decide (rest.head? = some c), rest)) := by
  intro i h
  rw [BendScan.atByte, ends_bind, ends_get]
  refine ⟨congrArg Except.ok ?_, h⟩
  have hbyte := h.getElem? 0
  rw [Nat.add_zero, ← List.head?_eq_getElem?] at hbyte
  rw [hbyte, beq_eq_decide]
  exact decide_eq_decide.mpr (head_encode hc rest)

theorem reads_takeText (text : String) : Reads src (BendScan.takeText src text) rest
    (some (if text.toList <+: rest then (true, rest.drop text.toList.length) else (false, rest))) := by
  refine (reads_slice src rest).bind ?_
  by_cases hfront : text.toList <+: rest
  · rw [if_pos hfront, if_pos (List.isPrefixOf_iff_prefix.mpr hfront)]
    obtain ⟨left, rfl⟩ := hfront
    rw [List.drop_left]
    refine (reads_advance ?_).bind (reads_pure src left true)
    rw [length_encode, utf8ByteSize_eq]
  · rw [if_neg hfront, if_neg (mt List.isPrefixOf_iff_prefix.mp hfront)]
    exact reads_pure src rest false

/-- One character is taken, or there is none. -/
theorem reads_bumpChar (src rest : List Char) :
    Reads src (BendScan.bumpChar src) rest (rest.head?.map fun _ => (⟨⟩, rest.tail)) := by
  refine (reads_slice src rest).bind ?_
  cases rest with
  | nil => exact reads_refuse src []
  | cons c rest => exact reads_advance_char

/-! ### Whitespace and comments -/

theorem blankBytes_wide {front : Bytes} (hwide : ∀ byte ∈ front, 128 ≤ byte.toNat) (behind : Bytes) :
    blankBytes true (front ++ behind) = front.length + blankBytes true behind := by
  induction front with
  | nil => exact (Nat.zero_add _).symm
  | cons byte front ih =>
      have hbyte : byte ≠ 10 := by
        rintro rfl
        exact absurd (hwide 10 List.mem_cons_self) (by decide)
      rw [List.cons_append, blankBytes, bne_iff_ne.mpr hbyte,
        ih fun other hother => hwide other (List.mem_cons_of_mem _ hother), List.length_cons]
      omega

theorem byte_eq_iff {c d : Char} (hc : c.toNat < 128) (hd : d.toNat < 128) :
    UInt8.ofNat c.toNat = UInt8.ofNat d.toNat ↔ c = d :=
  ⟨byte_inj hc hd, fun h => h ▸ rfl⟩

theorem isBlank_iff {c : Char} : isBlank c = true ↔ c = ' ' ∨ c = '\n' ∨ c = '\r' ∨ c = '\t' := by
  simp only [isBlank, Bool.or_eq_true, beq_iff_eq, or_assoc]

/-- The bytes that are skipped are those of the whitespace and the comments. -/
theorem blankBytes_encode (comment : Bool) (text : List Char) : afterBlank comment text <:+ text ∧
    blankBytes comment (encode text) + (encode (afterBlank comment text)).length = (encode text).length := by
  induction text generalizing comment with
  | nil => cases comment <;> exact ⟨List.suffix_refl [], rfl⟩
  | cons c rest ih =>
      rcases encodeChar_cases c with ⟨hc, -⟩ | ⟨hc, hwide⟩
      · rw [encode_ascii hc]
        cases comment with
        | true =>
            have hend : (UInt8.ofNat c.toNat != 10) = (c != '\n') := by
              rw [Bool.eq_iff_iff, bne_iff_ne, bne_iff_ne]
              exact not_congr (byte_eq_iff hc (by decide : '\n'.toNat < 128))
            rw [blankBytes, afterBlank, hend]
            have hrest := ih (c != '\n')
            refine ⟨hrest.1.trans (List.suffix_cons c rest), ?_⟩
            rw [List.length_cons, ← hrest.2]
            omega
        | false =>
            have hblank : (UInt8.ofNat c.toNat = 32 ∨ UInt8.ofNat c.toNat = 10 ∨ UInt8.ofNat c.toNat = 13 ∨
              UInt8.ofNat c.toNat = 9) ↔
                isBlank c = true :=
              (or_congr (byte_eq_iff hc (by decide : ' '.toNat < 128))
                (or_congr (byte_eq_iff hc (by decide : '\n'.toNat < 128))
                (or_congr (byte_eq_iff hc (by decide : '\r'.toNat < 128))
                  (byte_eq_iff hc (by decide : '\t'.toNat < 128))))).trans
                isBlank_iff.symm
            have hhash : UInt8.ofNat c.toNat = 35 ↔ c = '#' := byte_eq_iff hc (by decide : '#'.toNat < 128)
            rw [blankBytes, afterBlank]
            simp only [hblank, hhash]
            by_cases hspace : isBlank c = true
            · rw [if_pos hspace, if_pos hspace]
              have hrest := ih false
              refine ⟨hrest.1.trans (List.suffix_cons c rest), ?_⟩
              rw [List.length_cons, ← hrest.2]
              omega
            · rw [if_neg hspace, if_neg hspace]
              by_cases hcomment : c = '#'
              · rw [if_pos hcomment, if_pos hcomment]
                have hrest := ih true
                refine ⟨hrest.1.trans (List.suffix_cons c rest), ?_⟩
                rw [List.length_cons, ← hrest.2]
                omega
              · rw [if_neg hcomment, if_neg hcomment, encode_ascii hc]
                exact ⟨List.suffix_refl _, Nat.zero_add _⟩
      · cases comment with
        | true =>
            have hend : (c != '\n') = true := bne_iff_ne.mpr (by rintro rfl; exact absurd hc (by decide))
            have hrest := ih true
            rw [afterBlank, hend, encode_cons, blankBytes_wide hwide]
            refine ⟨hrest.1.trans (List.suffix_cons c rest), ?_⟩
            rw [List.length_append, ← hrest.2]
            omega
        | false =>
            have hspace : isBlank c = false := by
              rw [← Bool.not_eq_true, isBlank_iff]
              rintro (rfl | rfl | rfl | rfl) <;> exact absurd hc (by decide)
            have hcomment : c ≠ '#' := by
              rintro rfl
              exact absurd hc (by decide)
            rw [afterBlank_cons hspace hcomment]
            refine ⟨List.suffix_refl _, ?_⟩
            cases hbytes : String.utf8EncodeChar c with
            | nil => exact absurd hbytes String.utf8EncodeChar_ne_nil
            | cons byte others =>
                have hbyte := hwide byte (hbytes ▸ List.mem_cons_self)
                rw [encode_cons, hbytes, List.cons_append, blankBytes, if_neg, if_neg, Nat.zero_add]
                · rintro rfl
                  exact absurd hbyte (by decide)
                · rintro (rfl | rfl | rfl | rfl) <;> exact absurd hbyte (by decide)

theorem reads_skip (src rest : List Char) : Reads src (BendScan.skip src) rest (some (⟨⟩, afterBlank false rest)) := by
  intro i h
  rw [BendScan.skip, ends_modify, h.drop]
  have hblank := blankBytes_encode false rest
  exact ⟨rfl, h.move hblank.1 hblank.2⟩

/-! ### Words, names and numbers -/

theorem reads_atWord (word : String) : Reads src (BendScan.atWord src word) rest
    (some (decide (word.toList <+: rest ∧ (rest.drop word.toList.length).head?.any isNameChar = false), rest)) := by
  refine (reads_slice src rest).bind ?_
  by_cases hfront : word.toList <+: rest
  · rw [if_pos (List.isPrefixOf_iff_prefix.mpr hfront)]
    obtain ⟨left, rfl⟩ := hfront
    have hsuffix : suffixAt (word.toList ++ left) word.utf8ByteSize = some left := by
      rw [utf8ByteSize_eq, ← length_encode, suffixAt_append]
    rw [hsuffix, List.drop_left]
    have hsame : decide (word.toList <+: word.toList ++ left ∧ left.head?.any isNameChar = false) =
        !left.head?.any isNameChar := by
      cases left.head?.any isNameChar <;> simp
    rw [hsame]
    exact reads_pure src _ _
  · rw [if_neg (mt List.isPrefixOf_iff_prefix.mp hfront), decide_eq_false (fun h => hfront h.1)]
    exact reads_pure src rest false

/-- The name at the front of a text, and what is left behind it. -/
def nameOf : List Char → Option (List Char) × List Char
  | [] => (none, [])
  | c :: rest =>
      if isNameStart c then (some (c :: rest.takeWhile isNameChar), rest.dropWhile isNameChar) else (none, c :: rest)

theorem reads_readName (src rest : List Char) : Reads src (BendScan.readName src) rest (some (nameOf rest)) := by
  refine (reads_slice src rest).bind ?_
  cases rest with
  | nil => exact reads_pure src [] none
  | cons c rest =>
      by_cases hstart : isNameStart c = true
      · have hsplit : c :: rest = (c :: rest.takeWhile isNameChar) ++ rest.dropWhile isNameChar := by
          rw [List.cons_append, List.takeWhile_append_dropWhile]
        have hfront := frontOf_append (c :: rest.takeWhile isNameChar) (rest.dropWhile isNameChar)
        rw [← hsplit, List.map_cons, List.sum_cons] at hfront
        rw [nameOf, if_pos hstart]
        show Reads src (if !isNameStart c then _ else _) _ _
        rw [hstart]
        dsimp only
        rw [if_neg (by decide), hfront]
        have hmoved : Reads src (BendScan.advance _) ((c :: rest.takeWhile isNameChar) ++ rest.dropWhile isNameChar)
            (some (⟨⟩, rest.dropWhile isNameChar)) :=
              reads_advance (by rw [length_encode, List.map_cons, List.sum_cons])
        rw [← hsplit] at hmoved
        exact hmoved.bind (reads_pure src _ _)
      · rw [nameOf, if_neg hstart]
        show Reads src (if !isNameStart c then _ else _) _ _
        rw [Bool.not_eq_true] at hstart
        rw [hstart, if_pos Bool.not_false]
        exact reads_pure src _ none

theorem At.byte {c : Char} (h : At src i rest) (hc : c.toNat < 128) :
    (encode src)[i]? = some (UInt8.ofNat c.toNat) ↔ rest.head? = some c := by
  have hbyte := h.getElem? 0
  rw [Nat.add_zero, ← List.head?_eq_getElem?] at hbyte
  rw [hbyte]
  exact head_encode hc rest

theorem At.next_ascii {c : Char} (h : At src i (c :: rest)) (hc : c.toNat < 128) : At src (i + 1) rest :=
  h.move (List.suffix_cons c rest) (by rw [encode_ascii hc, List.length_cons, Nat.add_comm])

/-- Digits are taken byte by byte. -/
theorem At.digits (h : At src i rest) :
    At src (i + (((encode src).drop i).takeWhile isDigitByte).length) (rest.dropWhile Char.isDigit) ∧
      (0 < (((encode src).drop i).takeWhile isDigitByte).length ↔ rest.head?.any Char.isDigit = true) := by
  rw [h.drop]
  constructor
  · refine h.move (List.dropWhile_suffix _) ?_
    have hdrop := congrArg List.length (classes_digit.drop_encode rest)
    have hle := (List.takeWhile_prefix isDigitByte (l := encode rest)).length_le
    rw [List.length_drop] at hdrop
    omega
  · rw [classes_digit.takeWhile_length]
    cases rest with
    | nil => exact ⟨fun h => absurd h (Nat.lt_irrefl 0), nofun⟩
    | cons c rest =>
        rw [List.head?_cons, Option.any_some, List.takeWhile_cons]
        split
        · rename_i hc
          exact ⟨fun _ => hc, fun _ => Nat.succ_pos _⟩
        · rename_i hc
          exact ⟨fun h => absurd h (Nat.lt_irrefl 0), fun h => absurd h hc⟩

/-- The exponent's part of `numberEnd`. -/
theorem At.exponent {fraction : Nat} (h : At src fraction rest) : ∃ stop,
    (if (encode src)[fraction]? = some 101 ∨ (encode src)[fraction]? = some 69 then
      let sign := if (encode src)[fraction + 1]? = some 43 ∨ (encode src)[fraction + 1]? = some 45 then 1 else 0
      let exponent := (((encode src).drop (fraction + 1 + sign)).takeWhile isDigitByte).length
      some (if 0 < exponent then fraction + 1 + sign + exponent else fraction)
    else some fraction) = some stop ∧ At src stop (afterExponent rest) := by
  have hmark : ((encode src)[fraction]? = some 101 ∨ (encode src)[fraction]? = some 69) ↔ rest.head? = some 'e' ∨
      rest.head? = some 'E' :=
    or_congr (h.byte (by decide : 'e'.toNat < 128)) (h.byte (by decide : 'E'.toNat < 128))
  simp only [hmark]
  cases rest with
  | nil => exact ⟨fraction, if_neg (by simp), h⟩
  | cons e rest =>
      rw [afterExponent]
      simp only [List.head?_cons, Option.some_inj]
      by_cases he : e = 'e' ∨ e = 'E'
      · have hone : e.toNat < 128 := by
          rcases he with rfl | rfl <;> decide
        have hrest := h.next_ascii hone
        have hsigned : ((encode src)[fraction + 1]? = some 43 ∨ (encode src)[fraction + 1]? = some 45) ↔
            rest.head? = some '+' ∨ rest.head? = some '-' :=
          or_congr (hrest.byte (by decide : '+'.toNat < 128)) (hrest.byte (by decide : '-'.toNat < 128))
        rw [if_pos he]
        simp only [hsigned, he, true_and]
        have hbehind : At src (fraction + 1 + if rest.head? = some '+' ∨ rest.head? = some '-' then 1 else 0)
            (if rest.head? = some '+' ∨ rest.head? = some '-' then rest.tail else rest) := by
          by_cases hsign : rest.head? = some '+' ∨ rest.head? = some '-'
          · rw [if_pos hsign, if_pos hsign]
            cases rest with
            | nil => simp at hsign
            | cons sign rest =>
                refine hrest.next_ascii ?_
                rcases hsign with hsign | hsign <;> cases hsign <;> decide
          · rw [if_neg hsign, if_neg hsign]
            exact hrest
        obtain ⟨hdigits, hpos⟩ := hbehind.digits
        by_cases hsome : (if rest.head? = some '+' ∨ rest.head? = some '-' then rest.tail else rest).head?.any
          Char.isDigit = true
        · rw [if_pos (hpos.mpr hsome), if_pos hsome]
          exact ⟨_, rfl, hdigits⟩
        · rw [if_neg (mt hpos.mp hsome), if_neg hsome]
          exact ⟨_, rfl, h⟩
      · rw [if_neg he, if_neg (fun h => he h.1)]
        exact ⟨fraction, rfl, h⟩

theorem At.numberEnd_none (h : At src i rest) (hnone : rest.head?.any Char.isDigit = false) :
    BendScan.numberEnd (encode src) i = none := by
  have hzero : ¬ 0 < (((encode src).drop i).takeWhile isDigitByte).length := by
    rw [h.digits.2, hnone]
    exact Bool.false_ne_true
  simp only [BendScan.numberEnd]
  exact if_pos (by omega)

theorem At.numberEnd_some (h : At src i rest) (hsome : rest.head?.any Char.isDigit = true) :
    ∃ stop, BendScan.numberEnd (encode src) i = some stop ∧ At src stop (afterNumber rest) := by
  obtain ⟨hwhole, hpos⟩ := h.digits
  simp only [BendScan.numberEnd, afterNumber]
  rw [if_neg (Nat.ne_of_gt (Nat.lt_add_of_pos_right (hpos.mpr hsome)))]
  generalize i + (((encode src).drop i).takeWhile isDigitByte).length = whole at hwhole ⊢
  have hbig := hwhole.byte (by decide : 'n'.toNat < 128)
  have hpoint := hwhole.byte (by decide : '.'.toNat < 128)
  generalize rest.dropWhile Char.isDigit = text at hwhole hbig hpoint
  replace hbig : (encode src)[whole]? = some 110 ↔ text.head? = some 'n' := hbig
  replace hpoint : (encode src)[whole]? = some 46 ↔ text.head? = some '.' := hpoint
  simp only [hbig, hpoint]
  cases text with
  | nil =>
      refine ⟨whole, ?_, hwhole⟩
      rw [if_neg (by simp), if_neg (by simp)]
  | cons c text =>
      simp only [List.head?_cons, Option.some_inj]
      by_cases hn : c = 'n'
      · subst hn
        rw [if_pos rfl, if_pos rfl]
        exact ⟨whole + 1, rfl, hwhole.next_ascii (by decide)⟩
      · rw [if_neg hn, if_neg hn]
        by_cases hc : c = '.'
        · subst hc
          have hfraction := (hwhole.next_ascii (by decide : '.'.toNat < 128)).digits
          simp only [hfraction.2, true_and]
          by_cases hdigit : text.head?.any Char.isDigit = true
          · rw [if_pos hdigit, if_pos hdigit]
            exact hfraction.1.exponent
          · rw [if_neg hdigit, if_neg hdigit]
            exact ⟨whole, rfl, hwhole⟩
        · rw [if_neg (fun h => hc h.1), if_neg (fun h => hc h.1)]
          exact ⟨whole, rfl, hwhole⟩

theorem reads_skipNumber (src rest : List Char) : Reads src (BendScan.skipNumber src) rest
    (some (if rest.head?.any Char.isDigit then (true, afterNumber rest) else (false, rest))) := by
  intro i h
  rw [BendScan.skipNumber, ends_bind, ends_get]
  dsimp only
  by_cases hdigit : rest.head?.any Char.isDigit = true
  · obtain ⟨stop, hstop, hafter⟩ := h.numberEnd_some hdigit
    rw [hstop, if_pos hdigit]
    exact ⟨rfl, hafter⟩
  · rw [h.numberEnd_none (Bool.eq_false_iff.mpr hdigit), if_neg hdigit]
    exact ⟨rfl, h⟩

/-! ### Literals -/

/-- What stands behind a run of hexadecimal digits. -/
theorem hex_run (text : List Char) :
    (encode text).length = (text.takeWhile isHex).length + (encode (text.dropWhile isHex)).length ∧
    ((encode text)[(text.takeWhile isHex).length]? = some 125 ↔ text[(text.takeWhile isHex).length]? = some '\x7d') ∧
      text.drop (text.takeWhile isHex).length = text.dropWhile isHex := by
  have hbytes := classes_hex.drop_encode text
  rw [classes_hex.takeWhile_length] at hbytes
  have hchars : text.drop (text.takeWhile isHex).length = text.dropWhile isHex := by
    have hdrop := @List.drop_left _ (text.takeWhile isHex) (text.dropWhile isHex)
    rwa [List.takeWhile_append_dropWhile] at hdrop
  refine ⟨?_, ?_, hchars⟩
  · have hsize := congrArg (fun chars => (encode chars).length)
      (List.takeWhile_append_dropWhile (p := isHex) (l := text)).symm
    rwa [encode_append, List.length_append, classes_hex.encode_takeWhile_length] at hsize
  · rw [← List.head?_drop, ← List.head?_drop, hbytes, hchars]
    exact head_encode (by decide : '\x7d'.toNat < 128) _

/-- The checks of the window of eleven bytes. -/
def escapes (window : Bytes) (after : Nat) : Prop :=
  ¬ (window.length < 4 ∨ ¬ (window[0]? = some 117 ∨ window[0]? = some 85) ∨ window[1]? ≠ some 123) ∧
    ¬ (after = 2 ∨ window.length ≤ after ∨ window[after]? ≠ some 125)

theorem escapes_iff {window : Bytes} {after : Nat} : escapes window after ↔
    (4 ≤ window.length ∧ (window[0]? = some 117 ∨ window[0]? = some 85) ∧ window[1]? = some 123) ∧
      after ≠ 2 ∧ after < window.length ∧ window[after]? = some 125 := by
  simp only [escapes, not_or, not_and_or, not_not, Nat.not_lt, Nat.not_le]

/-- Where the checks pass, an escape has been found. -/
theorem afterUnicode_of_escapes {text : List Char}
    (h : escapes ((encode text).take 11) (2 + ((((encode text).take 11).drop 2).takeWhile isHexByte).length)) :
    ∃ left, afterUnicode text = some left ∧ left <:+ text ∧
      2 + ((((encode text).take 11).drop 2).takeWhile isHexByte).length + 1 + (encode left).length =
        (encode text).length := by
  obtain ⟨⟨-, hletter, hbrace⟩, hend⟩ := escapes_iff.mp h
  rw [List.getElem?_take_of_lt (by decide), ← List.head?_eq_getElem?] at hletter
  have hletter : text.head? = some 'u' ∨ text.head? = some 'U' :=
    hletter.imp (head_encode (by decide : 'u'.toNat < 128) text).mp (head_encode (by decide : 'U'.toNat < 128) text).mp
  obtain ⟨u, tail, rfl, hu⟩ : ∃ u tail, text = u :: tail ∧ (u = 'u' ∨ u = 'U') := by
    cases text with
    | nil => simp at hletter
    | cons u tail => exact ⟨u, tail, rfl, hletter.imp Option.some_inj.mp Option.some_inj.mp⟩
  have hone : u.toNat < 128 := by
    rcases hu with rfl | rfl <;> decide
  rw [List.getElem?_take_of_lt (by decide), encode_ascii hone, List.getElem?_cons_succ,
    ← List.head?_eq_getElem?] at hbrace
  have hbrace := (head_encode (by decide : '\x7b'.toNat < 128) tail).mp hbrace
  obtain ⟨digits, rfl⟩ : ∃ digits, tail = '\x7b' :: digits := by
    cases tail with
    | nil => cases hbrace
    | cons brace digits => exact ⟨digits, by rw [Option.some_inj.mp hbrace]⟩
  have hwindow : (encode (u :: '\x7b' :: digits)).take 11 = UInt8.ofNat u.toNat :: 123 :: (encode digits).take 9 := by
    rw [encode_ascii hone, encode_ascii (by decide)]
    rfl
  have hhex : (((encode digits).take 9).takeWhile isHexByte).length = min 9 (digits.takeWhile isHex).length := by
    rw [← List.take_takeWhile, List.length_take, classes_hex.takeWhile_length]
  obtain ⟨hsize, hclose, hrest⟩ := hex_run digits
  rw [hwindow, List.drop_succ_cons, List.drop_succ_cons, List.drop_zero, hhex] at hend ⊢
  rw [List.length_cons, List.length_cons, List.length_take] at hend
  have hfew : (digits.takeWhile isHex).length ≤ 8 := by omega
  have hmin : min 9 (digits.takeWhile isHex).length = (digits.takeWhile isHex).length := by omega
  rw [hmin] at hend ⊢
  rw [Nat.add_comm 2, List.getElem?_cons_succ, List.getElem?_cons_succ, List.getElem?_take_of_lt (by omega),
    hclose] at hend
  refine ⟨digits.drop ((digits.takeWhile isHex).length + 1), if_pos ⟨hu, rfl, by omega, hfew, hend.2.2⟩, ?_, ?_⟩
  · exact (List.drop_suffix _ digits).trans ((List.suffix_cons _ _).trans (List.suffix_cons _ _))
  · have hbehind : digits.dropWhile isHex = '\x7d' :: digits.drop ((digits.takeWhile isHex).length + 1) := by
      obtain ⟨hlength, hget⟩ := List.getElem?_eq_some_iff.mp hend.2.2
      rw [← hrest, List.drop_eq_getElem_cons hlength, hget]
    rw [hbehind, encode_ascii (by decide), List.length_cons] at hsize
    rw [encode_ascii hone, encode_ascii (by decide), List.length_cons, List.length_cons, hsize]
    omega

/-- Where the checks fail, there is no escape. -/
theorem afterUnicode_eq_none {text : List Char}
    (h : ¬ escapes ((encode text).take 11) (2 + ((((encode text).take 11).drop 2).takeWhile isHexByte).length)) :
    afterUnicode text = none := by
  rcases text with _ | ⟨u, _ | ⟨brace, digits⟩⟩
  · rfl
  · rfl
  rw [afterUnicode]
  by_contra hsome
  obtain ⟨left, hleft⟩ := Option.ne_none_iff_exists'.mp hsome
  split at hleft
  · rename_i hescape
    obtain ⟨hu, rfl, hpos, hfew, hend⟩ := hescape
    refine h ?_
    have hone : u.toNat < 128 := by
      rcases hu with rfl | rfl <;> decide
    have hwindow : (encode (u :: '\x7b' :: digits)).take 11 = UInt8.ofNat u.toNat :: 123 :: (encode digits).take 9 := by
      rw [encode_ascii hone, encode_ascii (by decide)]
      rfl
    have hhex : (((encode digits).take 9).takeWhile isHexByte).length = (digits.takeWhile isHex).length := by
      rw [← List.take_takeWhile, List.length_take, classes_hex.takeWhile_length]
      omega
    obtain ⟨-, hclose, -⟩ := hex_run digits
    have hbyte := hclose.mpr hend
    obtain ⟨hlength, -⟩ := List.getElem?_eq_some_iff.mp hbyte
    rw [escapes_iff, hwindow, List.drop_succ_cons, List.drop_succ_cons, List.drop_zero, hhex]
    simp only [List.length_cons, List.length_take]
    refine ⟨⟨by omega, ?_, rfl⟩, by omega, by omega, ?_⟩
    · rcases hu with rfl | rfl
      · exact .inl rfl
      · exact .inr rfl
    · rw [Nat.add_comm 2, List.getElem?_cons_succ, List.getElem?_cons_succ, List.getElem?_take_of_lt (by omega)]
      exact hbyte
  · cases hleft

theorem reads_takeUnicodeEscape (src rest : List Char) : Reads src (BendScan.takeUnicodeEscape src) rest
    (some (match afterUnicode rest with
      | some left => (true, left)
      | none => (false, rest))) := by
  intro i h
  rw [BendScan.takeUnicodeEscape, ends_bind, ends_get]
  dsimp only
  rw [if_neg (Nat.not_lt.mpr h.le), h.drop]
  by_cases hescapes : escapes ((encode rest).take 11)
    (2 + ((((encode rest).take 11).drop 2).takeWhile isHexByte).length)
  · obtain ⟨left, hafter, hsuffix, hsize⟩ := afterUnicode_of_escapes hescapes
    rw [if_neg hescapes.1, if_neg hescapes.2, hafter, BendScan.advance, ends_bind, ends_modify]
    exact ⟨rfl, h.move hsuffix hsize⟩
  · rw [afterUnicode_eq_none hescapes]
    by_cases hhead : ((encode rest).take 11).length < 4 ∨
        ¬ (((encode rest).take 11)[0]? = some 117 ∨ ((encode rest).take 11)[0]? = some 85) ∨
          ((encode rest).take 11)[1]? ≠ some 123
    · rw [if_pos hhead]
      exact ⟨rfl, h⟩
    · rw [if_neg hhead, if_pos (not_not.mp fun hend => hescapes ⟨hhead, hend⟩)]
      exact ⟨rfl, h⟩

theorem reads_takeCharBody (src rest : List Char) :
    Reads src (BendScan.takeCharBody src) rest ((afterCharBody rest).map fun left => (⟨⟩, left)) := by
  refine (reads_atEnd src rest).bind ?_
  cases rest with
  | nil => exact reads_refuse src []
  | cons c rest =>
      rw [List.isEmpty_cons, if_neg Bool.false_ne_true]
      refine (reads_atByte (by decide : '\\'.toNat < 128)).bind ?_
      rw [List.head?_cons, afterCharBody]
      by_cases hslash : c = '\\'
      · subst hslash
        rw [decide_eq_true rfl, if_neg (by decide), if_neg (not_not.mpr rfl)]
        refine (reads_advance_one (by decide)).bind ((reads_takeUnicodeEscape src rest).bind ?_)
        cases hunicode : afterUnicode rest with
        | some left => exact reads_pure src left PUnit.unit
        | none =>
            rw [Option.none_or]
            show Reads src (if false = true then _ else _) rest _
            rw [if_neg Bool.false_ne_true]
            refine (reads_slice src rest).bind ?_
            cases rest with
            | nil => exact reads_refuse src []
            | cons escaped rest =>
                rw [List.head?_cons, afterEscaped]
                by_cases hescaped : BendScan.isEscaped escaped = true
                · rw [if_pos hescaped]
                  show Reads src (if BendScan.isEscaped escaped then _ else _) _ _
                  rw [if_pos hescaped]
                  exact reads_advance_char
                · rw [if_neg hescaped]
                  show Reads src (if BendScan.isEscaped escaped then _ else _) _ _
                  rw [if_neg hescaped]
                  exact reads_refuse src _
      · rw [decide_eq_false (fun h => hslash (Option.some_inj.mp h)), if_pos (by decide), if_pos hslash]
        exact reads_bumpChar src (c :: rest)

theorem reads_takeMark {c : Char} {text : String} (htext : text.toList = [c]) :
    Reads src (BendScan.takeText src text) (c :: rest) (some (true, rest)) := by
  have hread := @reads_takeText src (c :: rest) text
  have hfront : [c] <+: c :: rest := ⟨rest, rfl⟩
  rwa [htext, if_pos hfront] at hread

theorem reads_takeNoMark {c : Char} {text : String} (htext : text.toList = [c]) (h : rest.head? ≠ some c) :
    Reads src (BendScan.takeText src text) rest (some (false, rest)) := by
  have hread := @reads_takeText src rest text
  have hfront : ¬ [c] <+: rest := by
    rintro ⟨left, rfl⟩
    exact h rfl
  rwa [htext, if_neg hfront] at hread

/-- What the scan reads, and that it moves where the text gets shorter. -/
theorem Reads.moves {scan : Scan α} {effect : Option (α × List Char)} {post : Except Halt α → Nat → Prop}
    (h : Reads src scan rest effect) (hat : At src i rest)
    (hread : ∀ value left j, effect = some (value, left) → At src j left →
      (left.length < rest.length → (encode src).length - j < (encode src).length - i) → post (.ok value) j)
    (hrefused : ∀ j, effect = none → post (.error (.refused mainMustBeString)) j) : Ends scan i post := by
  refine (h i hat).mono fun outcome j hends => ?_
  cases effect with
  | none =>
      replace hends : outcome = .error (.refused mainMustBeString) := hends
      subst hends
      exact hrefused j rfl
  | some found =>
      obtain ⟨value, left⟩ := found
      obtain ⟨rfl, hleft⟩ := hends
      refine hread value left j rfl hleft fun hless => ?_
      have hlater := hat.lt_of_length_lt hleft hless
      have hle := hleft.le
      omega

/-- One turn of the loop over a string's characters. -/
theorem reads_stringTurn (src rest : List Char) :
    Reads src (BendScan.stringTurn src ⟨⟩) rest (match stringStep rest with
    | .again next => some (.again ⟨⟩, next)
    | .done left => left.map fun left => (.done ⟨⟩, left)) := by
  rw [stringStep]
  by_cases hquote : rest.head? = some '"'
  · rw [if_pos hquote]
    cases rest with
    | nil => cases hquote
    | cons c rest =>
        cases hquote
        exact (reads_takeMark rfl).bind (reads_pure src rest _)
  · rw [if_neg hquote]
    refine (reads_takeNoMark rfl hquote).bind ?_
    show Reads src (BendScan.atEnd src >>= _) rest _
    refine (reads_atEnd src rest).bind ?_
    cases rest with
    | nil => exact reads_refuse src []
    | cons c rest =>
        show Reads src (BendScan.takeCharBody src >>= _) (c :: rest) _
        have hread := reads_takeCharBody src (c :: rest)
        cases hbody : afterCharBody (c :: rest) with
        | none =>
            rw [hbody] at hread
            exact hread.bind_none
        | some left =>
            rw [hbody] at hread
            exact hread.bind (reads_pure src left _)

/-- The loop over a string's characters reads what is left of the string. -/
theorem reads_skipString (src rest : List Char) :
    Reads src (BendScan.skipString src) ('"' :: rest) ((afterString rest).map fun left => (⟨⟩, left)) := by
  refine (reads_takeMark rfl).bind ?_
  show Reads src (loop .endless (BendScan.stringTurn src) (BendScan.turns src) ⟨⟩) rest _
  intro i h
  refine ends_loop (fun _ j => (encode src).length - j)
    (fun _ j => ∃ text, At src j text ∧ afterString text = afterString rest) _ ?_
    ⟨rest, h, rfl⟩ (Nat.lt_succ_of_le (Nat.sub_le _ _))
  rintro _ j ⟨text, hat, hsame⟩
  have hstep := afterString_eq text
  rw [hsame] at hstep
  rw [hstep]
  refine (reads_stringTurn src text).moves hat (fun value left k hread hleft hless => ?_) (fun k hnone => ?_)
  · cases hturn : stringStep text with
    | again next =>
        rw [hturn] at hread hstep
        obtain ⟨rfl, rfl⟩ := Prod.mk.inj (Option.some_inj.mp hread)
        exact ⟨⟨next, hleft, rfl⟩, hless (stringStep_length hturn)⟩
    | done result =>
        rw [hturn] at hread
        obtain ⟨after, rfl, hread⟩ := Option.map_eq_some_iff.mp hread
        cases hread
        exact ⟨rfl, hleft⟩
  · cases hturn : stringStep text with
    | again next =>
        rw [hturn] at hnone
        cases hnone
    | done result =>
        rw [hturn] at hnone
        rw [Option.map_eq_none_iff.mp hnone]
        rfl

theorem reads_skipCharLit (src rest : List Char) :
    Reads src (BendScan.skipCharLit src) ('\'' :: rest) ((afterChar rest).map fun left => (⟨⟩, left)) := by
  refine (reads_takeMark rfl).bind ?_
  show Reads src (BendScan.takeCharBody src >>= _) rest _
  rw [afterChar]
  cases hbody : afterCharBody rest with
  | none =>
      refine Reads.bind_none ?_
      have hread := reads_takeCharBody src rest
      rwa [hbody] at hread
  | some left =>
      have hread := reads_takeCharBody src rest
      rw [hbody] at hread
      refine hread.bind ?_
      rw [Option.bind_some]
      by_cases hquote : left.head? = some '\''
      · rw [if_pos hquote]
        cases left with
        | nil => cases hquote
        | cons c left =>
            cases hquote
            exact (reads_takeMark rfl).bind (reads_pure src left PUnit.unit)
      · rw [if_neg hquote]
        exact (reads_takeNoMark rfl hquote).bind (reads_refuse src left)

end Bend

end Gol
